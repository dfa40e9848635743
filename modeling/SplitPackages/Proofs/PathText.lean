import SplitPackages.Path

/-!
# Paths and their texts

A path is written with dots between its segments and read by trimming the text
and cutting it at the dots. What is read is the trimmed text: it has a path
exactly if none of its pieces is empty (`parse_eq_ok_iff`), and that path is
written as the trimmed text (`toList_text_of_parse`). So writing undoes reading.
Reading undoes writing for the paths that are `Tidy`. Blanks inside the text
belong to the segments: only those at the two ends of the whole are lost.

A qualified type name is trimmed, cut at its last dot, and what stands before
the dot is trimmed once more. The name behind the dot keeps its blanks in
front, which a second reading leaves alone since they are inside by then
(`splitTypeName_text`).
-/

namespace SplitPackages

namespace Path

variable {p package : Path} {name s t qualified : String}

theorem toList_text (p : Path) : p.text.toList = ['.'].intercalate (p.segments.map String.toList) :=
  String.toList_ofList

theorem toList_text_sub (p : Path) (name : String) :
    (p.sub name).text.toList = p.text.toList ++ '.' :: name.toList := by
  have hne : p.segments.map String.toList ≠ [] := by
    simpa using p.segments_ne_nil
  rw [toList_text, toList_text, segments, List.map_append]
  exact Text.intercalate_concat hne

/-! ## Reading -/

/-- The path that is read has the pieces of the trimmed text as its segments. -/
theorem parse_eq_ok_iff : parse s = .ok p ↔
    [] ∉ (Text.trimChars s.toList).splitOn '.' ∧
      p.segments.map String.toList = (Text.trimChars s.toList).splitOn '.' := by
  unfold parse
  rw [ofSegments_eq_ok_iff]
  apply and_congr
  · simp
  · constructor
    · intro h
      rw [h]
      simp
    · intro h
      rw [← h]
      simp

theorem parse_congr (h : Text.trimChars s.toList = Text.trimChars t.toList) :
    parse s = parse t := by
  unfold parse
  rw [h]

theorem exists_parse_iff : (∃ p, parse s = .ok p) ↔
    [] ∉ (Text.trimChars s.toList).splitOn '.' := by
  constructor
  · intro ⟨p, h⟩
    exact (parse_eq_ok_iff.mp h).1
  · intro h
    cases hps : (Text.trimChars s.toList).splitOn '.' with
    | nil => exact absurd hps (List.splitOn_ne_nil _ _)
    | cons first rest =>
      refine ⟨ofList (String.ofList first) (rest.map String.ofList), parse_eq_ok_iff.mpr ⟨h, ?_⟩⟩
      rw [segments_ofList, hps]
      simp

theorem toList_text_of_parse (h : parse s = .ok p) :
    p.text.toList = Text.trimChars s.toList := by
  rw [toList_text, (parse_eq_ok_iff.mp h).2, List.intercalate_splitOn]

theorem parse_text (h : parse s = .ok p) : parse p.text = .ok p := by
  rw [← h]
  apply parse_congr
  rw [toList_text_of_parse h, Text.trimChars_trimChars]

theorem text_ne_nil_of_parse (h : parse s = .ok p) : p.text.toList ≠ [] := by
  intro hnil
  have hne := (parse_eq_ok_iff.mp h).1
  rw [← toList_text_of_parse h, hnil] at hne
  exact hne List.mem_cons_self

/-! ## Tidy paths -/

/-- What the text of a path must not lose: no segment is empty or has a dot, and the whole neither
starts nor ends with a blank. -/
structure Tidy (p : Path) : Prop where
  filled : ∀ segment ∈ p.segments, segment ≠ ""
  undotted : ∀ segment ∈ p.segments, '.' ∉ segment.toList
  first : ∀ segment ∈ p.segments.head?, ∀ c ∈ segment.toList.head?, Text.isBlank c = false
  last : ∀ segment ∈ p.segments.getLast?, ∀ c ∈ segment.toList.getLast?, Text.isBlank c = false

theorem trimChars_text_iff (h : [] ∉ p.segments.map String.toList) :
    Text.trimChars p.text.toList = p.text.toList ↔
      (∀ segment ∈ p.segments.head?, ∀ c ∈ segment.toList.head?, Text.isBlank c = false) ∧
      ∀ segment ∈ p.segments.getLast?, ∀ c ∈ segment.toList.getLast?, Text.isBlank c = false := by
  rw [Text.trimChars_eq_self_iff, toList_text, Text.head?_intercalate h,
    Text.getLast?_intercalate h,
    List.head?_map, List.getLast?_map]
  apply and_congr
  · cases p.segments.head? <;> simp
  · cases p.segments.getLast? <;> simp

theorem parse_text_iff : parse p.text = .ok p ↔ p.Tidy := by
  constructor
  · intro h
    obtain ⟨hne, hps⟩ := parse_eq_ok_iff.mp h
    have hends := (trimChars_text_iff (hps ▸ hne)).mp (toList_text_of_parse h).symm
    refine ⟨fun segment hseg => ?_, fun segment hseg => ?_, hends.1, hends.2⟩
    · rintro rfl
      apply hne
      rw [← hps]
      exact List.mem_map.mpr ⟨"", hseg, rfl⟩
    · have hpiece : segment.toList ∈ (Text.trimChars p.text.toList).splitOn '.' :=
        hps ▸ List.mem_map_of_mem hseg
      exact Text.not_mem_of_mem_splitOn hpiece
  · intro h
    have hne : [] ∉ p.segments.map String.toList := by
      intro hin
      obtain ⟨segment, hseg, hnil⟩ := List.mem_map.mp hin
      exact h.filled segment hseg (String.toList_eq_nil_iff.mp hnil)
    have htrim := (trimChars_text_iff hne).mpr ⟨h.first, h.last⟩
    have hps : (Text.trimChars p.text.toList).splitOn '.' = p.segments.map String.toList := by
      rw [htrim, toList_text]
      refine List.splitOn_intercalate '.' (fun cs hcs => ?_) (by simpa using p.segments_ne_nil)
      obtain ⟨segment, hseg, rfl⟩ := List.mem_map.mp hcs
      exact h.undotted segment hseg
    exact parse_eq_ok_iff.mpr ⟨hps ▸ hne, hps.symm⟩

/-! ## Qualified type names -/

theorem splitTypeName_eq_ok_iff : splitTypeName qualified = .ok (package, name) ↔
    ∃ before, Text.trimChars qualified.toList = before ++ '.' :: name.toList ∧
      name ≠ "" ∧ '.' ∉ name.toList ∧ parse (String.ofList before) = .ok package := by
  unfold splitTypeName
  constructor
  · intro h
    split at h
    · next before after hcut =>
      split at h
      · cases h
      · next hne =>
        cases hp : parse (String.ofList before) with
        | error e =>
          rw [hp] at h
          cases h
        | ok q =>
          rw [hp] at h
          cases h
          obtain ⟨htrim, hdot⟩ := Text.cutLast_eq_some_iff.mp hcut
          refine ⟨before, ?_, ?_, ?_, hp⟩
          · rw [String.toList_ofList, htrim]
          · intro hnil
            exact hne (by simpa using hnil)
          · rwa [String.toList_ofList]
    · cases h
  · intro ⟨before, htrim, hname, hdot, hp⟩
    have hne : name.toList ≠ [] := fun hnil => hname (String.toList_eq_nil_iff.mp hnil)
    rw [Text.cutLast_eq_some_iff.mpr ⟨htrim, hdot⟩]
    show (if name.toList = [] then _ else _) = _
    rw [if_neg hne, hp, String.ofList_toList]
    rfl

/-- The text of the whole type name is trimmed already: it starts as its package does and ends as
the text that was read. -/
theorem trimChars_text_sub (h : splitTypeName qualified = .ok (package, name)) :
    Text.trimChars (package.sub name).text.toList = (package.sub name).text.toList := by
  obtain ⟨before, htrim, -, -, hp⟩ := splitTypeName_eq_ok_iff.mp h
  have htext := toList_text_of_parse hp
  rw [String.toList_ofList] at htext
  rw [toList_text_sub]
  apply Text.trimChars_of_ends
  · intro c hc
    cases hcs : package.text.toList with
    | nil => exact absurd hcs (text_ne_nil_of_parse hp)
    | cons a r =>
      rw [hcs] at hc
      apply Text.not_blank_of_first before
      rw [← htext, hcs]
      exact hc
  · intro c hc
    apply Text.not_blank_of_last qualified.toList
    rw [htrim, List.getLast?_append, List.getLast?_cons, Option.some_or]
    rwa [List.getLast?_append, List.getLast?_cons, Option.some_or] at hc

/-- A qualified type name that has been taken apart and written again is taken apart the same. -/
theorem splitTypeName_text (h : splitTypeName qualified = .ok (package, name)) :
    splitTypeName (package.sub name).text = .ok (package, name) := by
  obtain ⟨before, -, hname, hdot, hp⟩ := splitTypeName_eq_ok_iff.mp h
  refine splitTypeName_eq_ok_iff.mpr ⟨package.text.toList, ?_, hname, hdot, ?_⟩
  · rw [trimChars_text_sub h, toList_text_sub]
  · rw [String.ofList_toList]
    exact parse_text hp

/-- Reading a path succeeds exactly on texts whose trimmed form has no empty piece, and then the
text of the path is read as the same path. A path is read from its text exactly if it is tidy. A
qualified type name comes apart into a package that can be read and a name without dots, and what
they make together comes apart into the same two. -/
theorem text_roundTrips :
    (∀ s, (∃ p, parse s = .ok p) ↔ [] ∉ (Text.trimChars s.toList).splitOn '.') ∧
      (∀ s p, parse s = .ok p → parse p.text = .ok p) ∧
      (∀ p : Path, parse p.text = .ok p ↔ p.Tidy) ∧
      ∀ qualified package name, splitTypeName qualified = .ok (package, name) →
        name ≠ "" ∧ '.' ∉ name.toList ∧ (∃ s, parse s = .ok package) ∧
          splitTypeName (package.sub name).text = .ok (package, name) := by
  refine ⟨fun s => exists_parse_iff, fun s p h => parse_text h, fun p => parse_text_iff, ?_⟩
  intro qualified package name h
  obtain ⟨before, -, hname, hdot, hp⟩ := splitTypeName_eq_ok_iff.mp h
  exact ⟨hname, hdot, ⟨_, hp⟩, splitTypeName_text h⟩

/-- The blanks at the ends are dropped, before the last dot too, and those behind a dot are kept. -/
theorem text_roundTrips_blanks :
    splitTypeName "\u2003com. foo\t. Bar\n" = .ok (.sub (.top "com") " foo", " Bar") ∧
      splitTypeName "com. foo. Bar" = .ok (.sub (.top "com") " foo", " Bar") ∧
      (∃ s, parse s = .ok (.sub (.top "com") " foo")) ∧
      ¬ Tidy (.sub (.top "com") "foo ") := by
  have hq : splitTypeName "\u2003com. foo\t. Bar\n" = .ok (.sub (.top "com") " foo", " Bar") := by
    cbv
  obtain ⟨-, -, htidy, hsplit⟩ := text_roundTrips
  obtain ⟨-, -, hread, hagain⟩ := hsplit _ _ _ hq
  refine ⟨hq, hagain, hread, fun h => ?_⟩
  have hparse := (htidy _).mpr h
  have hcut : parse (Path.sub (.top "com") "foo ").text = .ok (.sub (.top "com") "foo") := by cbv
  rw [hcut] at hparse
  exact absurd (Except.ok.inj hparse) (by decide)

end Path

end SplitPackages
