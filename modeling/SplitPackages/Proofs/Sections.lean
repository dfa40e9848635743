import SplitPackages.Proofs.Faithful
import SplitPackages.Table

/-!
# Documents of sections

A sheet is written as sections with empty lines between them. Read again
(`sections_reads`), the statements of a section fill the table that its header
opens, and nothing else: `Focuses put opened` says that changing the open table
in `put inner` changes `inner`. What the sections of a sheet fill has for each
name what the sheet has (`Sheet.Plain.told_filled`), so that `builtin` is faithful.
-/

namespace SplitPackages.Toml

namespace Opening

def statements : Opening → List Statement
  | top => []
  | table name => [.table ⟨[], name⟩]
  | element name => [.element ⟨[], name⟩]

def isBare : Opening → Bool
  | top => true
  | table name => isBareKey name
  | element name => isBareKey name

end Opening

def assigned (l : String × Content) : Statement := .assign ⟨[], l.1⟩ l.2.toValue

namespace Section

def statements (s : Section) : List Statement := s.opening.statements ++ s.lines.map assigned

/-- Whether all keys are bare words. -/
def isBare (s : Section) : Bool := s.opening.isBare && s.lines.all fun l => isBareKey l.1

end Section

/-! ## Reading sections -/

theorem lines_reads {cs : List Char} {ss : List Statement} (hr : Reads cs ss) :
    ∀ {ls : Lines}, (∀ l ∈ ls, isBareKey l.1 = true) →
      Reads (ls.flatMap Layout.line ++ cs) (ls.map assigned ++ ss)
  | [], _ => hr
  | l :: ls, h => by
    rw [List.flatMap_cons, List.append_assoc]
    exact .cons (line_writes (h l List.mem_cons_self) l.2)
      (lines_reads hr fun l' hl' => h l' (List.mem_cons_of_mem _ hl'))

theorem Section.reads {s : Section} {cs : List Char} {ss : List Statement} (h : s.isBare = true)
    (hr : Reads cs ss) : Reads (s.text ++ cs) (s.statements ++ ss) := by
  obtain ⟨opening, ls⟩ := s
  simp only [Section.isBare, Bool.and_eq_true, List.all_eq_true] at h
  have hls := lines_reads hr h.2
  rw [Section.text, Section.statements, List.append_assoc, List.append_assoc]
  cases opening with
  | top => exact hls
  | table name => exact .cons (header_writes h.1) hls
  | element name => exact .cons (elementHeader_writes h.1) hls

theorem sections_reads : ∀ {ss : List Section}, (∀ s ∈ ss, s.isBare = true) →
    Reads (['\n'].intercalate (ss.map Section.text)) (ss.flatMap Section.statements)
  | [], _ => reads_nil
  | [s], h => by
    have hr := Section.reads (h s List.mem_cons_self) reads_nil
    simpa using hr
  | s :: s' :: ss, h => by
    have hrest := sections_reads fun t ht => h t (List.mem_cons_of_mem s ht)
    rw [List.map_cons, List.map_cons, List.intercalate_cons_cons, List.flatMap_cons,
      List.append_assoc]
    exact Section.reads (h s List.mem_cons_self) hrest.blank

/-! ## Filling tables -/

/-- The entries that lines give a table. -/
def entriesOf (ls : Lines) : Entries := ls.map fun l => (l.1, l.2.toValue)

namespace Entries

variable {base : Entries} {name : String} {v v' : Value}

theorem get?_append (base later : Entries) (key : String) :
    (base ++ later).get? key = (base.get? key).or (later.get? key) := by
  unfold get?
  exact List.lookup_append

theorem get?_last (h : base.get? name = none) : get? (base ++ [(name, v)]) name = some v := by
  rw [get?_append, h]
  simp [get?]

theorem get?_eq_none {key : String} : base.get? key = none ↔ key ∉ base.map Prod.fst := by
  unfold get?
  rw [List.lookup_eq_none_iff]
  constructor
  · intro h hin
    obtain ⟨e, he, rfl⟩ := List.mem_map.mp hin
    simpa using h e he
  · intro h e he
    rw [bne_iff_ne]
    rintro rfl
    exact h (List.mem_map_of_mem he)

/-- A new key goes to the end. -/
theorem set_new (h : base.get? name = none) : base.set name v = base ++ [(name, v)] := by
  induction base with
  | nil => rfl
  | cons e base ih =>
    rw [get?_eq_none, List.map_cons, List.mem_cons, not_or] at h
    rw [set, if_neg (Ne.symm h.1), ih (get?_eq_none.mpr h.2), List.cons_append]

theorem set_last (h : base.get? name = none) :
    set (base ++ [(name, v)]) name v' = base ++ [(name, v')] := by
  induction base with
  | nil => simp [set]
  | cons e base ih =>
    rw [get?_eq_none, List.map_cons, List.mem_cons, not_or] at h
    rw [List.cons_append, set, if_neg (Ne.symm h.1), ih (get?_eq_none.mpr h.2), List.cons_append]

/-- A table with an array of tables at its end, unless there are no elements yet. -/
def withElements (base : Entries) (name : String) : List Entries → Entries
  | [] => base
  | elements => base ++ [(name, .tables elements)]

end Entries

open Entries

variable {base inner : Entries} {name : String} {put : Entries → Entries} {opened : List String}
  {ls : Lines}

/-- Changing the open table of the document changes a part of its entries. -/
def Focuses (put : Entries → Entries) (opened : List String) : Prop :=
  ∀ change inner, (put inner).within .header (fun _ => change) opened .header =
    (change inner).map put

theorem focuses_top : Focuses id [] := by
  intro change inner
  simp [Entries.within]

theorem focuses_table (h : base.get? name = none) :
    Focuses (fun inner => base ++ [(name, .table .header inner)]) [name] := by
  intro change inner
  simp only [Entries.within, get?_last h, set_last h]
  cases change inner <;> rfl

theorem focuses_element (h : base.get? name = none) (done : List Entries) :
    Focuses (fun inner => base ++ [(name, .tables (done ++ [inner]))]) [name] := by
  intro change inner
  simp only [Entries.within, get?_last h, set_last h, List.getLast?_concat, List.dropLast_concat,
    bind, Option.bind]
  cases change inner <;> rfl

/-- Lines with different keys add their entries to the open table. -/
theorem lines_fill (hf : Focuses put opened) :
    ∀ {ls : Lines} (inner : Entries),
      (inner.map Prod.fst ++ ls.map Prod.fst).Nodup →
      (ls.map assigned).foldlM Document.apply ⟨put inner, opened⟩ =
        some ⟨put (inner ++ entriesOf ls), opened⟩
  | [], inner, _ => by simp [entriesOf]
  | l :: ls, inner, hnd => by
    have hnew : inner.get? l.1 = none := by
      rw [get?_eq_none]
      intro hin
      exact (List.nodup_append.mp hnd).2.2 _ hin _ List.mem_cons_self rfl
    have hassign : inner.assign ⟨[], l.1⟩ l.2.toValue = some (inner ++ [(l.1, l.2.toValue)]) := by
      simp [Entries.assign, Entries.add, hnew]
    have hwithin := hf (fun inner => inner.assign ⟨[], l.1⟩ l.2.toValue) inner
    have happly : Document.apply ⟨put inner, opened⟩ (assigned l) =
        some ⟨put (inner ++ [(l.1, l.2.toValue)]), opened⟩ := by
      simp [Document.apply, assigned, hwithin, hassign]
    have hrest : ((inner ++ [(l.1, l.2.toValue)]).map Prod.fst ++ ls.map Prod.fst).Nodup := by
      simpa using hnd
    rw [List.map_cons, List.foldlM_cons, happly]
    simpa [entriesOf] using lines_fill hf _ hrest

theorem top_fill (h : (ls.map Prod.fst).Nodup) :
    (Section.statements ⟨.top, ls⟩).foldlM Document.apply .empty = some ⟨entriesOf ls, []⟩ :=
  lines_fill focuses_top [] h

theorem table_fill (hnew : base.get? name = none) (h : (ls.map Prod.fst).Nodup) :
    (Section.statements ⟨.table name, ls⟩).foldlM Document.apply ⟨base, opened⟩ =
      some ⟨base ++ [(name, .table .header (entriesOf ls))], [name]⟩ := by
  have hopen : Document.apply ⟨base, opened⟩ (.table ⟨[], name⟩) =
      some ⟨base ++ [(name, .table .header [])], [name]⟩ := by
    simp [Document.apply, Entries.openTable, Entries.within, hnew, set_new hnew, Key.segments]
  rw [Section.statements, Opening.statements, List.singleton_append, List.foldlM_cons, hopen]
  exact lines_fill (focuses_table hnew) [] h

theorem element_fill (hnew : base.get? name = none) (done : List Entries)
    (h : (ls.map Prod.fst).Nodup) :
    (Section.statements ⟨.element name, ls⟩).foldlM Document.apply
        ⟨base.withElements name done, opened⟩ =
      some ⟨base.withElements name (done ++ [entriesOf ls]), [name]⟩ := by
  have hwith (elements : List Entries) (last : Entries) :
      base.withElements name (elements ++ [last]) =
        base ++ [(name, .tables (elements ++ [last]))] := by
    cases elements <;> rfl
  have hopen : Document.apply ⟨base.withElements name done, opened⟩ (.element ⟨[], name⟩) =
      some ⟨base ++ [(name, .tables (done ++ [[]]))], [name]⟩ := by
    cases done with
    | nil =>
      simp [Document.apply, Entries.openElement, Entries.within, withElements, hnew, set_new hnew,
        Key.segments]
    | cons e done =>
      simp [Document.apply, Entries.openElement, Entries.within, withElements, get?_last hnew,
        set_last hnew, Key.segments]
  rw [Section.statements, Opening.statements, List.singleton_append, List.foldlM_cons, hopen, hwith]
  exact lines_fill (focuses_element hnew done) [] h

/-- Sections that each add an element to the same array. -/
theorem elements_fill (hnew : base.get? name = none) :
    ∀ {elements : List Lines} (done : List Entries) (opened : List String),
      (∀ ls ∈ elements, (ls.map Prod.fst).Nodup) →
      ∃ opened', (elements.flatMap fun ls => Section.statements ⟨.element name, ls⟩).foldlM
          Document.apply ⟨base.withElements name done, opened⟩ =
        some ⟨base.withElements name (done ++ elements.map entriesOf), opened'⟩
  | [], done, opened, _ => ⟨opened, by simp⟩
  | ls :: elements, done, opened, h => by
    obtain ⟨opened', hrest⟩ := elements_fill hnew (done ++ [entriesOf ls]) [name] fun l hl =>
      h l (List.mem_cons_of_mem _ hl)
    refine ⟨opened', ?_⟩
    rw [List.flatMap_cons, List.foldlM_append, element_fill hnew done (h ls List.mem_cons_self)]
    simpa using hrest

/-! ## Filling the table of a sheet -/

/-- Whether the part is a line at the top. -/
def Part.isLine : Part → Bool
  | tables [] => true
  | _ => false

/-- What a document has for the part. -/
def Part.value : Part → Value
  | table ls => .table .header (entriesOf ls)
  | tables [] => .array []
  | tables elements => .tables (elements.map entriesOf)

/-- The entries that parts give a table. -/
def valuesOf (ps : Sheet) : Entries := ps.map fun p => (p.1, p.2.value)

/-- The table of the sheet: first what is at the top. -/
def Sheet.filled (s : Sheet) : Entries :=
  valuesOf (s.filter fun p => p.2.isLine) ++ valuesOf (s.filter fun p => !p.2.isLine)

@[simp] theorem keys_entriesOf (ls : Lines) : (entriesOf ls).map Prod.fst = ls.map Prod.fst := by
  simp [entriesOf]

@[simp] theorem keys_valuesOf (ps : Sheet) : (valuesOf ps).map Prod.fst = ps.map Prod.fst := by
  simp [valuesOf]

theorem entriesOf_top (s : Sheet) : entriesOf s.top = valuesOf (s.filter fun p => p.2.isLine) := by
  unfold Sheet.top
  induction s with
  | nil => rfl
  | cons p s ih =>
    match p with
    | (_, .table _) | (_, .tables (_ :: _)) =>
      simpa [Part.isLine] using ih
    | (_, .tables []) =>
      simpa [Part.isLine, Part.value, entriesOf, valuesOf, Content.toValue] using ih

namespace Sheet

variable {s : Sheet}

theorem filled_perm (s : Sheet) : s.filled.Perm (valuesOf s) := by
  rw [filled, valuesOf, valuesOf, ← List.map_append]
  exact (List.filter_append_perm _ s).map _

theorem keys_filled (s : Sheet) : (s.filled.map Prod.fst).Perm (s.map Prod.fst) := by
  have h := s.filled_perm.map Prod.fst
  rwa [keys_valuesOf] at h

theorem Keyed.keys_nodup (h : s.Keyed) : (s.filled.map Prod.fst).Nodup :=
  (keys_filled s).nodup_iff.mpr h.distinct

end Sheet

/-- The sections of a part that is no line at the top give the table one more entry. -/
theorem part_fill {p : Part} (hline : p.isLine = false) (hnew : base.get? name = none)
    (h : ∀ ls ∈ p.linesOfTables, (ls.map Prod.fst).Nodup) (opened : List String) :
    ∃ opened', ((p.sections name).flatMap Section.statements).foldlM Document.apply
        ⟨base, opened⟩ = some ⟨base ++ [(name, p.value)], opened'⟩ := by
  match p with
  | .table ls =>
    refine ⟨[name], ?_⟩
    rw [Part.sections, List.flatMap_singleton]
    exact table_fill hnew (h ls (List.mem_singleton_self ls))
  | .tables [] => cases hline
  | .tables (ls :: elements) =>
    obtain ⟨opened', hfill⟩ := elements_fill hnew [] opened h
    refine ⟨opened', ?_⟩
    rw [Part.sections, List.flatMap_map]
    exact hfill

theorem parts_fill : ∀ {ps : Sheet} (base : Entries) (opened : List String),
    (base.map Prod.fst ++ (ps.filter fun p => !p.2.isLine).map Prod.fst).Nodup →
    (∀ p ∈ ps, ∀ ls ∈ p.2.linesOfTables, (ls.map Prod.fst).Nodup) →
    ∃ opened', ((ps.flatMap fun p => p.2.sections p.1).flatMap Section.statements).foldlM
        Document.apply ⟨base, opened⟩ =
      some ⟨base ++ valuesOf (ps.filter fun p => !p.2.isLine), opened'⟩
  | [], base, opened, _, _ => ⟨opened, by simp [valuesOf]⟩
  | (name, p) :: ps, base, opened, hnd, h => by
    obtain ⟨hp, hps⟩ := List.forall_mem_cons.mp h
    rw [List.flatMap_cons, List.flatMap_append, List.foldlM_append]
    cases hline : p.isLine with
    | true =>
      -- a line at the top has no section of its own
      rw [List.filter_cons_of_neg (by simp [hline])] at hnd ⊢
      obtain ⟨opened', hrest⟩ := parts_fill base opened hnd hps
      have hnone : p.sections name = [] := by
        match p, hline with
        | .tables [], _ => rfl
      exact ⟨opened', by simpa [hnone] using hrest⟩
    | false =>
      rw [List.filter_cons_of_pos (by simp [hline]), List.map_cons] at hnd
      have hnew : base.get? name = none :=
        get?_eq_none.mpr fun hin =>
          (List.nodup_append.mp hnd).2.2 name hin name List.mem_cons_self rfl
      obtain ⟨opened', hfirst⟩ := part_fill hline hnew hp opened
      have hnd : ((base ++ [(name, p.value)]).map Prod.fst ++
          (ps.filter fun p => !p.2.isLine).map Prod.fst).Nodup := by
        simpa using hnd
      obtain ⟨opened'', hrest⟩ := parts_fill (base ++ [(name, p.value)]) opened' hnd hps
      refine ⟨opened'', ?_⟩
      rw [hfirst, List.filter_cons_of_pos (by simp [hline])]
      simpa [valuesOf] using hrest

namespace Sheet

variable {s : Sheet}

theorem Keyed.sections_bare (h : s.Keyed) : ∀ c ∈ s.sections, c.isBare = true := by
  have hlines {ls : Lines} (hp : ls.Keyed) : ls.all (fun l => isBareKey l.1) = true :=
    List.all_eq_true.mpr hp.bare
  have htop : s.top.all (fun l => isBareKey l.1) = true := by
    rw [List.all_eq_true]
    intro l hl
    obtain ⟨p, hp, hl⟩ := List.mem_filterMap.mp hl
    have hbare := h.bare p hp
    split at hl
    · cases hl
      exact hbare
    · cases hl
  intro c hc
  rcases List.mem_append.mp hc with hc | hc
  · split at hc
    · cases hc
    · rw [List.mem_singleton.mp hc, Section.isBare, htop]
      rfl
  · obtain ⟨⟨name, p⟩, hp, hc⟩ := List.mem_flatMap.mp hc
    have hname : isBareKey name = true := h.bare _ hp
    have hp := h.lines _ hp
    cases p with
    | table ls =>
      rw [List.mem_singleton.mp hc, Section.isBare, hlines (hp ls (List.mem_singleton_self ls))]
      simpa [Opening.isBare] using hname
    | tables elements =>
      obtain ⟨ls, hls, rfl⟩ := List.mem_map.mp hc
      rw [Section.isBare, hlines (hp ls hls)]
      simpa [Opening.isBare] using hname

theorem Keyed.parse_text (h : s.Keyed) : Toml.parse s.text = some s.filled := by
  have hnd := h.keys_nodup
  rw [filled, List.map_append, keys_valuesOf, keys_valuesOf] at hnd
  have htop : ((if s.top.isEmpty then [] else [⟨.top, s.top⟩] : List Section).flatMap
      Section.statements).foldlM Document.apply .empty = some ⟨entriesOf s.top, []⟩ := by
    have hkeys : (s.top.map Prod.fst).Nodup := by
      rw [← keys_entriesOf, entriesOf_top, keys_valuesOf]
      exact (List.nodup_append.mp hnd).1
    have hfill := top_fill hkeys
    split
    · next hempty =>
      rw [List.isEmpty_iff.mp hempty]
      rfl
    · rwa [List.flatMap_singleton]
  obtain ⟨opened, hparts⟩ := parts_fill (entriesOf s.top) []
    (by rwa [entriesOf_top, keys_valuesOf]) fun p hp ls hls => (h.lines p hp ls hls).distinct
  rw [text, (sections_reads h.sections_bare).parse, Document.ofStatements, sections,
    List.flatMap_append, List.foldlM_append, htop, Option.bind_eq_bind, Option.bind_some, hparts,
    filled, entriesOf_top]
  rfl

end Sheet

/-! ## What the table tells -/

/-- The table has an entry, and no second one with its key. -/
theorem get?_of_mem {t : Entries} (h : (t.map Prod.fst).Nodup) {key : String} {v : Value}
    (hm : (key, v) ∈ t) : t.get? key = some v :=
  (Table.lookup_eq_some_iff_mem h).mpr hm

theorem Lines.told_entriesOf {ls : Lines} (h : (ls.map Prod.fst).Nodup) :
    ls.Told (entriesOf ls) where
  given l hl := get?_of_mem (by rwa [keys_entriesOf]) (List.mem_map.mpr ⟨l, hl, rfl⟩)
  only key hkey := get?_eq_none.mpr (by rwa [keys_entriesOf])

theorem Part.told_value {p : Part} (h : ∀ ls ∈ p.linesOfTables, (ls.map Prod.fst).Nodup) :
    p.Told p.value := by
  match p with
  | .table ls =>
    exact .table ⟨.header, _, rfl, Lines.told_entriesOf (h ls (List.mem_singleton_self ls))⟩
  | .tables [] => exact .tables rfl .nil
  | .tables (ls :: elements) =>
    refine .tables rfl ?_
    rw [List.map_map, List.forall₂_map_right_iff, List.forall₂_same]
    exact fun ls hls => ⟨.header, _, rfl, Lines.told_entriesOf (h ls hls)⟩

theorem Sheet.Keyed.told_filled {s : Sheet} (h : s.Keyed) : s.Told s.filled where
  given p hp := by
    have hin : (p.1, p.2.value) ∈ s.filled :=
      s.filled_perm.mem_iff.mpr (List.mem_map.mpr ⟨p, hp, rfl⟩)
    exact ⟨_, get?_of_mem h.keys_nodup hin,
      Part.told_value fun ls hls => (h.lines p hp ls hls).distinct⟩
  only key hkey := get?_eq_none.mpr fun hin => hkey ((keys_filled s).mem_iff.mp hin)

theorem Sheet.Keyed.builtin_parse {s : Sheet} (h : s.Keyed) :
    builtin.parse s.text = .ok s.filled := by
  simp only [builtin, h.parse_text]
  rfl

theorem builtin_faithful : builtin.Faithful :=
  fun s h => ⟨s.text, s.filled, rfl, h.builtin_parse, h.told_filled⟩

end SplitPackages.Toml
