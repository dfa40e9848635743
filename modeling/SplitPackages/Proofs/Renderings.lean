import Mathlib.Data.List.Nodup
import Mathlib.Data.List.Pairwise
import SplitPackages.Proofs.Sections
import SplitPackages.World.Text

/-!
# Renderings of a world

A rendering of a world is a table with its options and its modules in which
every field stands under one of the spellings of its key, or is left out because
it has its default (`World.Rendered`). Whatever text a library reads as such a
table is loaded as the world, if the world is valid.

`World.styled` is a world as a sheet in any style: a `Style` says of every table
which keys are spelled with underscores and which fields are left out where that
is possible. `World.sheet` is the style that leaves out nothing. A table that
tells what such a sheet says is a rendering of the world, so that a faithful
library loads what it has saved.
-/

namespace SplitPackages

namespace Toml

/-- How the fields of a table are written. -/
structure Hand where
  /-- Which keys are spelled with underscores. -/
  underscores : List String → Bool
  /-- Which fields are left out if they hold their defaults. -/
  omits : List String → Bool

namespace Hand

def spell (hand : Hand) (words : List String) : String :=
  if hand.underscores words then underscored words else hyphenated words

/-- The line of a field, if it is not left out. -/
def line? (hand : Hand) (f : Field) : Option (String × Content) :=
  if hand.omits f.words && f.default = some f.content then none
  else some (hand.spell f.words, f.content)

def lines (hand : Hand) (fs : List Field) : Lines := fs.filterMap hand.line?

/-- Every field is written, with hyphens in its key. -/
def full : Hand := ⟨fun _ => false, fun _ => false⟩

end Hand

/-- The table has a value for the key, in one of its spellings, or it has none and can do
without. -/
inductive Entries.Tells (t : Entries) (words : List String) (holds : Value → Prop)
    (omissible : Prop) : Prop
  | given {key : String} {v : Value} : key ∈ spellings words → t.get? key = some v →
      (∀ other ∈ spellings words, other ≠ key → t.get? other = none) → holds v →
      t.Tells words holds omissible
  | omitted : omissible → (∀ key ∈ spellings words, t.get? key = none) →
      t.Tells words holds omissible

/-- The table has the fields, but for some that hold their defaults. -/
def Renders (fs : List Field) (t : Entries) : Prop :=
  ∀ f ∈ fs, t.Tells f.words (· = f.content.toValue) (f.default = some f.content)

end Toml

open Toml

namespace World

/-- The table has the options and the modules of the world. -/
structure Rendered (w : World) (t : Entries) : Prop where
  options : t.Tells ["options"]
    (fun v => ∃ origin inner, v = .table origin inner ∧ Renders w.config.fields inner)
    (w.config = .standard)
  modules : t.Tells ["module"]
    (fun v => ∃ vs, v.items? = some vs ∧ List.Forall₂ (fun m v =>
      ∃ origin inner, v = .table origin inner ∧ Renders m.fields inner) w.modules vs)
    (w.modules = [])

/-- How a world is written. -/
structure Style where
  options : Hand
  modules : ModuleEntry → Hand
  /-- Whether standard options are left out. -/
  omitsOptions : Bool
  /-- Whether an empty list of modules is left out. -/
  omitsModules : Bool

/-- The world in a style. -/
def styled (style : Style) (w : World) : Sheet :=
  (if style.omitsOptions && w.config = .standard then []
    else [("options", .table (style.options.lines w.config.fields))]) ++
  (if style.omitsModules && w.modules.isEmpty then []
    else [("module", .tables (w.modules.map fun m => (style.modules m).lines m.fields))])

def Style.full : Style := ⟨Hand.full, fun _ => Hand.full, false, false⟩

/-- Whether no string of the world has a control character. -/
def isPlain (w : World) : Bool :=
  (w.config.fields ++ w.modules.flatMap ModuleEntry.fields).all fun f => f.content.isPlain

end World

namespace Toml

/-! ## Reading a field -/

theorem spellings_nodup (words : List String) : (spellings words).Nodup := by
  unfold spellings
  split
  · exact List.nodup_singleton _
  · next h => simpa using h

theorem filterMap_eq_singleton {α β : Type} {f : α → Option β} {a : α} {b : β} {as : List α}
    (hnd : as.Nodup) (ha : a ∈ as) (hb : f a = some b) (hother : ∀ x ∈ as, x ≠ a → f x = none) :
    as.filterMap f = [b] := by
  induction as with
  | nil => cases ha
  | cons x as ih =>
    obtain ⟨hx, hnd⟩ := List.nodup_cons.mp hnd
    rcases List.mem_cons.mp ha with rfl | ha
    · have hnone : as.filterMap f = [] := by
        rw [List.filterMap_eq_nil_iff]
        intro y hy
        exact hother y (List.mem_cons_of_mem _ hy) fun e => hx (e ▸ hy)
      rw [List.filterMap_cons_some hb, hnone]
    · have hne : x ≠ a := fun e => hx (e ▸ ha)
      rw [List.filterMap_cons_none (hother x List.mem_cons_self hne)]
      exact ih hnd ha fun y hy => hother y (List.mem_cons_of_mem _ hy)

variable {t : Entries} {words : List String} {holds : Value → Prop} {omissible : Prop}

namespace Entries.Tells

/-- What a record has for the field. -/
theorem field? (h : t.Tells words holds omissible) (origin : Origin) (position : Nat) :
    (∃ v, (Value.table origin t).field? position words = some (some v) ∧ holds v) ∨
      (Value.table origin t).field? position words = some none ∧ omissible := by
  cases h with
  | @given key v hkey hv hother hholds =>
    have hone := filterMap_eq_singleton (spellings_nodup words) hkey hv hother
    exact .inl ⟨v, by simp only [Value.field?, hone], hholds⟩
  | omitted hom hnone =>
    have hnil : (spellings words).filterMap t.get? = [] := List.filterMap_eq_nil_iff.mpr hnone
    exact .inr ⟨by simp only [Value.field?, hnil], hom⟩

theorem optional {α : Type} {read : Value → Option α} {default a : α}
    (h : t.Tells words holds omissible) (origin : Origin) (position : Nat)
    (hread : ∀ v, holds v → read v = some a) (homit : omissible → default = a) :
    (Value.table origin t).optional read default position words = some a := by
  rcases h.field? origin position with ⟨v, hv, hholds⟩ | ⟨hnone, hom⟩
  · simp [Value.optional, hv, hread v hholds]
  · simp [Value.optional, hnone, homit hom]

theorem required {α : Type} {read : Value → Option α} {a : α} (h : t.Tells words holds omissible)
    (origin : Origin) (position : Nat) (hread : ∀ v, holds v → read v = some a)
    (hmust : ¬ omissible) : (Value.table origin t).required read position words = some a := by
  rcases h.field? origin position with ⟨v, hv, hholds⟩ | ⟨-, hom⟩
  · simp [Value.required, hv, hread v hholds]
  · exact absurd hom hmust

end Entries.Tells

/-- A key with one spelling. -/
theorem Entries.Tells.single {key : String} {v : Value} (hkey : spellings words = [key])
    (hv : t.get? key = some v) (hholds : holds v) : t.Tells words holds omissible := by
  refine .given (hkey ▸ List.mem_singleton_self key) hv (fun other hother hne => ?_) hholds
  rw [hkey, List.mem_singleton] at hother
  exact absurd hother hne

theorem Entries.Tells.absent {key : String} (hkey : spellings words = [key])
    (hnone : t.get? key = none) (hom : omissible) : t.Tells words holds omissible := by
  refine .omitted hom fun k hk => ?_
  rw [hkey, List.mem_singleton] at hk
  rwa [hk]

theorem list?_eq_some {α : Type} {read : Value → Option α} {v : Value} {vs : List Value}
    {as : List α} (hv : v.items? = some vs)
    (h : List.Forall₂ (fun a v => read v = some a) as vs) : v.list? read = some as := by
  have hmap : vs.mapM read = some as := by
    clear hv
    induction h with
    | nil => rfl
    | cons ha _ ih => simp [ha, ih]
  simp [Value.list?, hv, hmap]

theorem texts?_array (ss : List String) : Value.texts? (.array (ss.map .string)) = some ss := by
  have hall : List.Forall₂ (fun s v => Value.text? v = some s) ss (ss.map .string) := by
    induction ss with
    | nil => exact .nil
    | cons s ss ih => exact .cons rfl ih
  exact list?_eq_some rfl hall

namespace Renders

variable {fs : List Field} {origin : Origin} {position : Nat}

theorem flag {b d : Bool} (h : Renders fs t) (hf : ⟨words, .flag b, some (.flag d)⟩ ∈ fs)
    (origin : Origin) (position : Nat) :
    (Value.table origin t).optional Value.flag? d position words = some b := by
  refine (h _ hf).optional origin position ?_ ?_
  · rintro v rfl
    rfl
  · rintro ⟨⟩
    rfl

theorem text {s d : String} (h : Renders fs t) (hf : ⟨words, .text s, some (.text d)⟩ ∈ fs)
    (origin : Origin) (position : Nat) :
    (Value.table origin t).optional Value.text? d position words = some s := by
  refine (h _ hf).optional origin position ?_ ?_
  · rintro v rfl
    rfl
  · rintro ⟨⟩
    rfl

theorem texts {ss ds : List String} (h : Renders fs t)
    (hf : ⟨words, .texts ss, some (.texts ds)⟩ ∈ fs) (origin : Origin) (position : Nat) :
    (Value.table origin t).optional Value.texts? ds position words = some ss := by
  refine (h _ hf).optional origin position ?_ ?_
  · rintro v rfl
    exact texts?_array ss
  · rintro ⟨⟩
    rfl

theorem requiredText {s : String} (h : Renders fs t) (hf : ⟨words, .text s, none⟩ ∈ fs)
    (origin : Origin) (position : Nat) :
    (Value.table origin t).required Value.text? position words = some s := by
  refine (h _ hf).required origin position ?_ (by simp)
  rintro v rfl
  rfl

end Renders

end Toml

variable {t : Entries}

theorem Config.ofValue?_rendered {c : Config} (h : Renders c.fields t) (origin : Origin) :
    Config.ofValue? (.table origin t) = some c := by
  have hignore : (Value.table origin t).optional Value.flag? standard.ignoreUnnamed 0
      ["ignore", "unnamed", "module", "for", "split", "package"] = some c.ignoreUnnamed :=
    h.flag (by simp [fields]) origin 0
  have htask : (Value.table origin t).optional Value.text? standard.task 1 ["task"] =
      some c.task :=
    h.text (by simp [fields]) origin 1
  have hquiet : (Value.table origin t).optional Value.texts? standard.quietTasks 2
      ["quiet", "tasks"] = some c.quietTasks :=
    h.texts (by simp [fields]) origin 2
  simp [Config.ofValue?, hignore, htask, hquiet]

theorem ModuleEntry.ofValue?_rendered {m : ModuleEntry} (h : Renders m.fields t)
    (origin : Origin) : ModuleEntry.ofValue? (.table origin t) = some m := by
  have hname : (Value.table origin t).required Value.text? 0 ["name"] = some m.name :=
    h.requiredText (by simp [fields]) origin 0
  have hunnamed : (Value.table origin t).optional Value.flag? false 1 ["unnamed"] =
      some m.unnamed :=
    h.flag (by simp [fields]) origin 1
  have htexts (position : Nat) (words ss : List String)
      (hf : ⟨words, .texts ss, some (.texts [])⟩ ∈ m.fields) :
      (Value.table origin t).optional Value.texts? [] position words = some ss :=
    h.texts hf origin position
  have hreads := htexts 2 ["reads"] m.reads (by simp [fields])
  have htransitive := htexts 3 ["reads", "transitive"] m.transitiveReads (by simp [fields])
  have hexports := htexts 4 ["exports"] m.exports (by simp [fields])
  have hpackages := htexts 5 ["packages"] m.packages (by simp [fields])
  have hproblems := htexts 6 ["problem", "packages"] m.problemPackages (by simp [fields])
  have htypes := htexts 7 ["types"] m.types (by simp [fields])
  have hmissing := htexts 8 ["missing", "types"] m.missingTypes (by simp [fields])
  simp [ModuleEntry.ofValue?, hname, hunnamed, hreads, htransitive, hexports, hpackages, hproblems,
    htypes, hmissing]

namespace World

variable {w : World}

theorem ofValue?_rendered (h : w.Rendered t) (origin : Origin) :
    World.ofValue? (.table origin t) = some w := by
  have hoptions : (Value.table origin t).optional Config.ofValue? .standard 0 ["options"] =
      some w.config := by
    refine h.options.optional origin 0 ?_ Eq.symm
    rintro _ ⟨origin, inner, rfl, hr⟩
    exact Config.ofValue?_rendered hr origin
  have hmodules : (Value.table origin t).optional (Value.list? ModuleEntry.ofValue?) [] 1
      ["module"] = some w.modules := by
    refine h.modules.optional origin 1 ?_ Eq.symm
    rintro v ⟨vs, hvs, hall⟩
    refine list?_eq_some hvs (hall.imp ?_)
    rintro m _ ⟨origin, inner, rfl, hr⟩
    exact ModuleEntry.ofValue?_rendered hr origin
  simp [World.ofValue?, hoptions, hmodules]

/-- A text that is read as a rendering of a valid world is loaded as the world. -/
theorem load_rendered {ε δ : Type} {lib : Library ε δ} {text : String}
    (hv : w.validate = .ok ()) (ht : lib.parse text = .ok t) (h : w.Rendered t) :
    load lib text = .ok w := by
  simp only [load, ht, Except.mapError, bind, Except.bind, ofValue?_rendered h, hv]
  rfl

end World

/-! ## Sheets of a world -/

namespace Toml

/-- The spellings of all keys. -/
def keysOf (words : List (List String)) : List String := words.flatMap spellings

variable {fs : List Field} {t : Entries} {hand : Hand}

/-- Fields with a spelling in common are one field. -/
theorem eq_of_spelling (h : (keysOf (fs.map (·.words))).Nodup) {f g : Field} (hf : f ∈ fs)
    (hg : g ∈ fs) {key : String} (hkf : key ∈ spellings f.words) (hkg : key ∈ spellings g.words) :
    f = g := by
  rw [keysOf, List.flatMap_map, List.nodup_flatMap] at h
  have : Std.Symm fun f g : Field => (spellings f.words).Disjoint (spellings g.words) :=
    ⟨fun _ _ hd _ hg hf => hd hf hg⟩
  by_contra hne
  exact h.2.forall hf hg hne hkf hkg

namespace Hand

theorem spell_mem (hand : Hand) (words : List String) : hand.spell words ∈ spellings words := by
  unfold spell spellings
  split <;> split <;> simp_all

theorem line?_eq_some {f : Field} {l : String × Content} (h : hand.line? f = some l) :
    l = (hand.spell f.words, f.content) := by
  unfold line? at h
  split at h
  · cases h
  · cases h
    rfl

theorem mem_spellings {f : Field} {l : String × Content} (h : hand.line? f = some l) :
    l.1 ∈ spellings f.words :=
  line?_eq_some h ▸ hand.spell_mem f.words

theorem lines_nodup (hand : Hand) (h : (keysOf (fs.map (·.words))).Nodup) :
    ((hand.lines fs).map Prod.fst).Nodup := by
  rw [keysOf, List.flatMap_map, List.nodup_flatMap] at h
  rw [List.Nodup, List.pairwise_map, lines, List.pairwise_filterMap]
  refine h.2.imp fun hd l hl l' hl' e => ?_
  exact hd (mem_spellings hl) (e ▸ mem_spellings hl')

/-- The lines of a table have its fields, whatever the hand. -/
theorem lines_render (h : (keysOf (fs.map (·.words))).Nodup) (ht : (hand.lines fs).Told t) :
    Renders fs t := by
  intro f hf
  -- the only line with a spelling of the field is its own
  have hown {key : String} (hkey : key ∈ spellings f.words)
      (hin : key ∈ (hand.lines fs).map Prod.fst) : ∃ l, hand.line? f = some l ∧ l.1 = key := by
    obtain ⟨l, hl, rfl⟩ := List.mem_map.mp hin
    obtain ⟨g, hg, hl⟩ := List.mem_filterMap.mp hl
    exact ⟨l, eq_of_spelling h hf hg hkey (mem_spellings hl) ▸ hl, rfl⟩
  by_cases hom : hand.omits f.words = true ∧ f.default = some f.content
  · have hl : hand.line? f = none := if_pos (by simpa using hom)
    refine .omitted hom.2 fun key hkey => ht.only key fun hin => ?_
    obtain ⟨l, hl', -⟩ := hown hkey hin
    rw [hl] at hl'
    cases hl'
  · have hl : hand.line? f = some (hand.spell f.words, f.content) := if_neg (by simpa using hom)
    refine .given (hand.spell_mem f.words) (ht.given _ (List.mem_filterMap.mpr ⟨f, hf, hl⟩))
      (fun other hother hne => ht.only other fun hin => ?_) rfl
    obtain ⟨l, hl', rfl⟩ := hown hother hin
    exact hne (congrArg Prod.fst (line?_eq_some hl'))

theorem lines_keyed (hand : Hand) (h : (keysOf (fs.map (·.words))).Nodup)
    (hbare : (keysOf (fs.map (·.words))).all isBareKey = true) : (hand.lines fs).Keyed where
  distinct := hand.lines_nodup h
  bare l hl := by
    obtain ⟨f, hf, hl⟩ := List.mem_filterMap.mp hl
    exact List.all_eq_true.mp hbare _
      (List.mem_flatMap.mpr ⟨f.words, List.mem_map_of_mem hf, mem_spellings hl⟩)

theorem lines_plain (hplain : ∀ f ∈ fs, f.content.isPlain = true) {l : String × Content}
    (hl : l ∈ hand.lines fs) : l.2.isPlain = true := by
  obtain ⟨f, hf, hl⟩ := List.mem_filterMap.mp hl
  rw [line?_eq_some hl]
  exact hplain f hf

theorem lines_full (fs : List Field) : full.lines fs = written fs := by
  have hline : full.line? = some ∘ fun f => (hyphenated f.words, f.content) := by
    funext f
    simp [line?, full, spell]
  rw [lines, hline, List.filterMap_eq_map, written]

end Hand

end Toml

theorem Config.keysOf_nodup (c : Config) : (keysOf (c.fields.map (·.words))).Nodup := by
  have h : (keysOf [["ignore", "unnamed", "module", "for", "split", "package"], ["task"],
    ["quiet", "tasks"]]).Nodup := by decide +kernel
  exact h

theorem ModuleEntry.keysOf_nodup (m : ModuleEntry) : (keysOf (m.fields.map (·.words))).Nodup := by
  have h : (keysOf [["name"], ["unnamed"], ["reads"], ["reads", "transitive"], ["exports"],
    ["packages"], ["problem", "packages"], ["types"], ["missing", "types"]]).Nodup := by
    decide +kernel
  exact h

theorem Config.keysOf_bare (c : Config) :
    (keysOf (c.fields.map (·.words))).all isBareKey = true := by
  have h : (keysOf [["ignore", "unnamed", "module", "for", "split", "package"], ["task"],
    ["quiet", "tasks"]]).all isBareKey = true := by decide +kernel
  exact h

theorem ModuleEntry.keysOf_bare (m : ModuleEntry) :
    (keysOf (m.fields.map (·.words))).all isBareKey = true := by
  have h : (keysOf [["name"], ["unnamed"], ["reads"], ["reads", "transitive"], ["exports"],
    ["packages"], ["problem", "packages"], ["types"], ["missing", "types"]]).all isBareKey =
      true := by
    decide +kernel
  exact h

namespace World

variable {w : World} {style : Style}

theorem mem_styled {p : String × Part} (h : p ∈ w.styled style) :
    p = ("options", .table (style.options.lines w.config.fields)) ∨
      p = ("module", .tables (w.modules.map fun m => (style.modules m).lines m.fields)) := by
  rcases List.mem_append.mp h with h | h
  · split at h
    · cases h
    · exact .inl (List.mem_singleton.mp h)
  · split at h
    · cases h
    · exact .inr (List.mem_singleton.mp h)

theorem styled_keyed (style : Style) (w : World) : (w.styled style).Keyed where
  distinct := by
    unfold styled
    split <;> split <;> simp
  bare p h := by
    have hoptions : isBareKey "options" = true := by decide +kernel
    have hmodule : isBareKey "module" = true := by decide +kernel
    rcases mem_styled h with rfl | rfl
    · exact hoptions
    · exact hmodule
  lines p h ls hls := by
    rcases mem_styled h with rfl | rfl
    · rw [List.mem_singleton.mp hls]
      exact Hand.lines_keyed _ w.config.keysOf_nodup w.config.keysOf_bare
    · obtain ⟨m, -, rfl⟩ := List.mem_map.mp hls
      exact Hand.lines_keyed _ m.keysOf_nodup m.keysOf_bare

theorem styled_plain (style : Style) (hp : w.isPlain = true) : (w.styled style).Plain where
  toKeyed := styled_keyed style w
  plain p h ls hls l hl := by
    simp only [isPlain, List.all_append, Bool.and_eq_true, List.all_eq_true, List.mem_flatMap,
      forall_exists_index, and_imp] at hp
    rcases mem_styled h with rfl | rfl
    · rw [List.mem_singleton.mp hls] at hl
      exact Hand.lines_plain hp.1 hl
    · obtain ⟨m, hm, rfl⟩ := List.mem_map.mp hls
      exact Hand.lines_plain (fun f hf => hp.2 f m hm hf) hl

/-- A table that tells what the world says in a style is a rendering of the world. -/
theorem rendered_of_told {t : Entries} (h : (w.styled style).Told t) : w.Rendered t where
  options := by
    have hkey : spellings ["options"] = ["options"] := by decide +kernel
    by_cases hom : style.omitsOptions = true ∧ w.config = .standard
    · have hnot : "options" ∉ (w.styled style).map Prod.fst := by
        rw [styled, if_pos (by simpa using hom), List.nil_append]
        split <;> simp
      exact .absent hkey (h.only "options" hnot) hom.2
    · have hin : ("options", .table (style.options.lines w.config.fields)) ∈ w.styled style := by
        simp [styled, hom]
      obtain ⟨v, hv, htold⟩ := h.given _ hin
      cases htold with
      | table hby =>
        obtain ⟨origin, inner, rfl, hinner⟩ := hby
        exact .single hkey hv
          ⟨origin, inner, rfl, Hand.lines_render w.config.keysOf_nodup hinner⟩
  modules := by
    have hkey : spellings ["module"] = ["module"] := by decide +kernel
    by_cases hom : style.omitsModules = true ∧ w.modules = []
    · have hnot : "module" ∉ (w.styled style).map Prod.fst := by
        have hempty : (style.omitsModules && w.modules.isEmpty) = true := by simpa using hom
        rw [styled, if_pos hempty, List.append_nil]
        split <;> simp
      exact .absent hkey (h.only "module" hnot) hom.2
    · have hin : ("module", .tables (w.modules.map fun m => (style.modules m).lines m.fields)) ∈
          w.styled style := by
        simp [styled, hom]
      obtain ⟨v, hv, htold⟩ := h.given _ hin
      cases htold with
      | tables hvs hall =>
        refine .single hkey hv ⟨_, hvs, ?_⟩
        refine (List.forall₂_map_left_iff.mp hall).imp ?_
        rintro m v ⟨origin, inner, rfl, hinner⟩
        exact ⟨origin, inner, rfl, Hand.lines_render m.keysOf_nodup hinner⟩

theorem styled_full (w : World) : w.styled .full = w.sheet := by
  simp [styled, Style.full, sheet, Hand.lines_full]

/-- The library of the command line loads every valid world as it was, control characters or not. -/
theorem read_write (hv : w.validate = .ok ()) : World.read w.write = .ok w := by
  have hkeyed : w.sheet.Keyed := styled_full w ▸ styled_keyed .full w
  have htold : (w.styled .full).Told w.sheet.filled := styled_full w ▸ hkeyed.told_filled
  have hload : load builtin w.write = .ok w :=
    load_rendered hv hkeyed.builtin_parse (rendered_of_told htold)
  rw [World.read, hload]
  rfl

/-- A valid world without control characters is loaded as it was: from the text that a faithful
library saves it as, from the text of a sheet in any style, and from whatever text the library
reads as a rendering of the world. -/
theorem load_saved {ε δ : Type} {lib : Library ε δ} (hl : lib.Faithful)
    (hv : w.validate = .ok ()) (hp : w.isPlain = true) :
    (∃ text, w.save lib = .ok text ∧ load lib text = .ok w) ∧
      (∀ style, ∃ text, lib.print (w.styled style) = .ok text ∧ load lib text = .ok w) ∧
      ∀ text t, lib.parse text = .ok t → w.Rendered t → load lib text = .ok w := by
  have hstyle (style : Style) :
      ∃ text, lib.print (w.styled style) = .ok text ∧ load lib text = .ok w := by
    obtain ⟨text, t, hprint, hparse, htold⟩ := hl _ (styled_plain style hp)
    exact ⟨text, hprint, load_rendered hv hparse (rendered_of_told htold)⟩
  refine ⟨?_, hstyle, fun text t ht h => load_rendered hv ht h⟩
  rw [save, ← styled_full]
  exact hstyle .full

/-- Standard options, and one module that reads another. -/
def twoModules : World :=
  ⟨.standard, [{ ModuleEntry.named "app" with reads := ["lib"], packages := ["com.app"] },
    { ModuleEntry.named "lib" with packages := ["com.lib"], problemPackages := ["com.bad"] }]⟩

/-- Underscores wherever they can be, and nothing that can be left out. -/
def Style.terse : Style :=
  ⟨⟨fun _ => true, fun _ => true⟩, fun _ => ⟨fun _ => true, fun _ => true⟩, true, true⟩

theorem load_saved_twoModules : builtin.Faithful ∧ twoModules.validate = .ok () ∧
    twoModules.isPlain = true ∧
    builtin.print (twoModules.styled .terse) = .ok ("[[module]]\nname = \"app\"\n" ++
      "reads = [\"lib\"]\npackages = [\"com.app\"]\n\n[[module]]\nname = \"lib\"\n" ++
      "packages = [\"com.lib\"]\nproblem_packages = [\"com.bad\"]\n") ∧
    (∃ text, twoModules.save builtin = .ok text ∧ load builtin text = .ok twoModules) ∧
    (∀ style, ∃ text, builtin.print (twoModules.styled style) = .ok text ∧
      load builtin text = .ok twoModules) ∧
    ∀ text t, builtin.parse text = .ok t → twoModules.Rendered t →
      load builtin text = .ok twoModules := by
  have hv : twoModules.validate = .ok () := by rfl
  have hp : twoModules.isPlain = true := by decide +kernel
  have hprint : (twoModules.styled .terse).text = "[[module]]\nname = \"app\"\n" ++
      "reads = [\"lib\"]\npackages = [\"com.app\"]\n\n[[module]]\nname = \"lib\"\n" ++
      "packages = [\"com.lib\"]\nproblem_packages = [\"com.bad\"]\n" := by
    decide +kernel
  exact ⟨builtin_faithful, hv, hp, congrArg Except.ok hprint, load_saved builtin_faithful hv hp⟩

end World

end SplitPackages
