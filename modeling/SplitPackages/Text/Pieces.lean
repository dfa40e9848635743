/-!
# Pieces of a text

A text is cut at every separator by `List.splitOn`, and its pieces are put
together again by `List.intercalate`. No piece has the separator
(`not_mem_of_mem_splitOn`), and where no piece is empty, the ends of the whole
are those of the first piece and of the last one. `cutLast` is the cut at the
last separator alone.
-/

namespace SplitPackages.Text

/-- The text before and after the last separator. -/
def cutLast (sep : Char) : List Char → Option (List Char × List Char)
  | [] => none
  | c :: cs =>
    match cutLast sep cs with
    | some (before, after) => some (c :: before, after)
    | none => if c = sep then some ([], cs) else none

theorem intercalate_concat {sep : Char} {p : List Char} {ps : List (List Char)} (h : ps ≠ []) :
    [sep].intercalate (ps ++ [p]) = [sep].intercalate ps ++ sep :: p := by
  induction ps with
  | nil => exact absurd rfl h
  | cons q ps ih =>
    by_cases hps : ps = []
    · subst hps
      simp [List.intercalate_cons_cons]
    · rw [List.cons_append, List.intercalate_cons_of_ne_nil (by simp),
        List.intercalate_cons_of_ne_nil hps, ih hps, ← List.append_assoc]

theorem head?_intercalate {sep : Char} {ps : List (List Char)} (h : [] ∉ ps) :
    ([sep].intercalate ps).head? = ps.head?.bind List.head? := by
  cases ps with
  | nil => rfl
  | cons p ps =>
    cases p with
    | nil => exact absurd List.mem_cons_self h
    | cons c p =>
      rw [List.intercalate_cons_cons_left]
      rfl

theorem getLast?_intercalate {sep : Char} {ps : List (List Char)} (h : [] ∉ ps) :
    ([sep].intercalate ps).getLast? = ps.getLast?.bind List.getLast? := by
  rcases List.eq_nil_or_concat ps with rfl | ⟨qs, p, rfl⟩
  · rfl
  · rw [List.concat_eq_append] at h ⊢
    have hp : p ≠ [] := fun e => h (e ▸ List.mem_append_right _ List.mem_cons_self)
    by_cases hqs : qs = []
    · subst hqs
      simp
    · rw [intercalate_concat hqs, List.getLast?_append, List.getLast?_cons_of_ne_nil hp,
        List.getLast?_concat, Option.bind_some, List.getLast?_eq_some_getLast hp, Option.some_or]

theorem not_mem_of_mem_splitOn {sep : Char} {cs p : List Char} (h : p ∈ cs.splitOn sep) :
    sep ∉ p := by
  induction cs generalizing p with
  | nil => simp_all
  | cons c cs ih =>
    rw [List.splitOn_cons_eq_if_modifyHead] at h
    split at h
    · rcases List.mem_cons.mp h with rfl | h
      · exact List.not_mem_nil
      · exact ih h
    · next hc =>
      cases hps : cs.splitOn sep with
      | nil => exact absurd hps (List.splitOn_ne_nil _ _)
      | cons q qs =>
        rw [hps] at h ih
        rcases List.mem_cons.mp h with rfl | h
        · rw [List.mem_cons, not_or]
          exact ⟨fun e => hc (beq_iff_eq.mpr e.symm), ih List.mem_cons_self⟩
        · exact ih (List.mem_cons_of_mem _ h)

theorem cutLast_eq_none_iff {sep : Char} {cs : List Char} : cutLast sep cs = none ↔ sep ∉ cs := by
  induction cs with
  | nil => simp [cutLast]
  | cons c cs ih =>
    rw [cutLast]
    cases h : cutLast sep cs with
    | none => simp [h] at ih; simp [ih, eq_comm]
    | some r => simp [h] at ih; simp [ih]

theorem cutLast_eq_some_iff {sep : Char} {cs b a : List Char} :
    cutLast sep cs = some (b, a) ↔ cs = b ++ sep :: a ∧ sep ∉ a := by
  induction cs generalizing b a with
  | nil => simp [cutLast]
  | cons c cs ih =>
    rw [cutLast]
    cases h : cutLast sep cs with
    | none =>
      have hn := cutLast_eq_none_iff.mp h
      cases b with
      | nil =>
        simp only [List.nil_append, List.cons.injEq]
        constructor
        · intro e; split at e
          · next hc => cases e; exact ⟨⟨hc, rfl⟩, hn⟩
          · cases e
        · rintro ⟨⟨rfl, rfl⟩, _⟩; simp
      | cons x b =>
        simp only [List.cons_append, List.cons.injEq]
        constructor
        · intro e; split at e <;> cases e
        · rintro ⟨⟨_, e⟩, _⟩; exact absurd (by simp [e]) hn
    | some r =>
      obtain ⟨b', a'⟩ := r
      have hr := ih.mp h
      cases b with
      | nil =>
        simp only [List.nil_append, List.cons.injEq]
        constructor
        · intro e; cases e
        · rintro ⟨⟨_, e⟩, hn⟩; exact absurd (by simp [← e, hr.1]) hn
      | cons x b =>
        simp only [List.cons_append, List.cons.injEq]
        constructor
        · intro e; cases e; exact ⟨⟨rfl, hr.1⟩, hr.2⟩
        · rintro ⟨⟨rfl, e⟩, hn⟩
          have := ih.mpr ⟨e, hn⟩
          rw [h] at this; cases this; rfl

end SplitPackages.Text
