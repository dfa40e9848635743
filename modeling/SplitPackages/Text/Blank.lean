/-!
# Blank characters

`isBlank` is the Unicode property White_Space: 25 characters, from the tab to
the ideographic space. `trim` drops blanks from both ends of a text and leaves
those between other characters alone, so a text without blanks at its ends stays
as it is (`trimChars_eq_self_iff`), and a second trim does nothing.
-/

namespace SplitPackages.Text

/-- The characters with the Unicode property White_Space. -/
def isBlank (c : Char) : Bool :=
  let n := c.toNat
  (9 ≤ n && n ≤ 13) || n == 0x20 || n == 0x85 || n == 0xA0 || n == 0x1680 ||
    (0x2000 ≤ n && n ≤ 0x200A) || n == 0x2028 || n == 0x2029 || n == 0x202F ||
    n == 0x205F || n == 0x3000

/-- Without the blanks at the end. -/
def trimEnd (cs : List Char) : List Char :=
  (cs.reverse.dropWhile isBlank).reverse

/-- Without the blanks at both ends. -/
def trimChars (cs : List Char) : List Char :=
  trimEnd (cs.dropWhile isBlank)

def trim (s : String) : String :=
  String.ofList (trimChars s.toList)

theorem trimEnd_append_singleton {cs : List Char} {c : Char} (h : isBlank c = false) :
    trimEnd (cs ++ [c]) = cs ++ [c] := by
  simp [trimEnd, h]

theorem trimEnd_prefix (cs : List Char) : trimEnd cs <+: cs := by
  have h := List.reverse_prefix.mpr (List.dropWhile_suffix isBlank (l := cs.reverse))
  rwa [List.reverse_reverse] at h

theorem trimChars_of_ends {cs : List Char} (hs : ∀ c ∈ cs.head?, isBlank c = false)
    (he : ∀ c ∈ cs.getLast?, isBlank c = false) : trimChars cs = cs := by
  have hd : cs.dropWhile isBlank = cs := by
    cases cs with
    | nil => rfl
    | cons a r => simp [hs a (by simp)]
  rw [trimChars, hd]
  rcases List.eq_nil_or_concat cs with rfl | ⟨l, a, rfl⟩
  · rfl
  · rw [List.concat_eq_append] at he ⊢
    exact trimEnd_append_singleton (he a (by simp))

theorem not_blank_of_first (cs : List Char) {c : Char} (h : (trimChars cs).head? = some c) :
    isBlank c = false := by
  obtain ⟨rest, hrest⟩ := trimEnd_prefix (cs.dropWhile isBlank)
  have hc : (cs.dropWhile isBlank).head? = some c := by
    rw [← hrest, List.head?_append]
    show (trimChars cs).head?.or rest.head? = some c
    rw [h, Option.some_or]
  have hnot := List.head?_dropWhile_not isBlank cs
  rw [hc] at hnot
  exact hnot

theorem not_blank_of_last (cs : List Char) {c : Char} (h : (trimChars cs).getLast? = some c) :
    isBlank c = false := by
  unfold trimChars trimEnd at h
  rw [List.getLast?_reverse] at h
  have hnot := List.head?_dropWhile_not isBlank (cs.dropWhile isBlank).reverse
  rw [h] at hnot
  exact hnot

/-- A text is left alone exactly if there is no blank at either end of it. -/
theorem trimChars_eq_self_iff {cs : List Char} : trimChars cs = cs ↔
    (∀ c ∈ cs.head?, isBlank c = false) ∧ ∀ c ∈ cs.getLast?, isBlank c = false := by
  constructor
  · intro h
    refine ⟨fun c hc => ?_, fun c hc => ?_⟩
    · exact not_blank_of_first cs (h.symm ▸ hc)
    · exact not_blank_of_last cs (h.symm ▸ hc)
  · rintro ⟨hs, he⟩
    exact trimChars_of_ends hs he

theorem trimChars_trimChars (cs : List Char) : trimChars (trimChars cs) = trimChars cs :=
  trimChars_of_ends (fun _ => not_blank_of_first cs) fun _ => not_blank_of_last cs

end SplitPackages.Text
