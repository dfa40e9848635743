import SplitPackages.Error
import SplitPackages.Text.Blank
import SplitPackages.Text.Pieces

/-!
# Package paths

A `Path` names a package: a top-level name, or a name below another path. So
a path has at least one segment. `Path.ofSegments` and `Path.parse` refuse
empty segments; `sub` takes any name. `parse` trims the whole text and cuts it
at the dots. `splitTypeName` cuts a qualified type name at its last dot.
-/

namespace SplitPackages

inductive Path where
  | top (name : String)
  | sub (parent : Path) (name : String)
  deriving DecidableEq, Repr

namespace Path

def segments : Path → List String
  | top name => [name]
  | sub parent name => parent.segments ++ [name]

def length : Path → Nat
  | top _ => 1
  | sub parent _ => parent.length + 1

/-- The last segment. -/
def simpleName : Path → String
  | top name => name
  | sub _ name => name

def parent? : Path → Option Path
  | top _ => none
  | sub parent _ => some parent

/-- The path with the given segments. -/
def ofList (first : String) (rest : List String) : Path :=
  rest.foldl sub (top first)

/-- The first `n` segments, but at least one and at most all. -/
def take (n : Nat) : Path → Path
  | top name => top name
  | sub parent name => if n ≤ parent.length then parent.take n else sub parent name

/-- Whether a path equals another or encloses it. -/
def isPrefixOf (p : Path) : Path → Bool
  | top name => p = top name
  | sub parent name => p = sub parent name || p.isPrefixOf parent

/-- The segments with dots between them. -/
def text (p : Path) : String :=
  String.ofList (['.'].intercalate (p.segments.map String.toList))

/-- Segments are compared from the first on, each by its code points. -/
def compare (p q : Path) : Ordering :=
  List.compareLex (fun a b => compareOfLessAndEq a b) p.segments q.segments

def ofSegments (segments : List String) : Except GraphError Path :=
  match segments with
  | first :: rest =>
    if "" ∈ segments then
      .error (.invalidPath (String.ofList (['.'].intercalate (segments.map String.toList))))
    else .ok (ofList first rest)
  | [] => .error (.invalidPath "")

def parse (dotted : String) : Except GraphError Path :=
  ofSegments (((Text.trimChars dotted.toList).splitOn '.').map String.ofList)

/-- The package path and the simple name of a qualified type name. -/
def splitTypeName (qualified : String) : Except GraphError (Path × String) :=
  match Text.cutLast '.' (Text.trimChars qualified.toList) with
  | some (package, name) =>
    if name = [] then .error (.invalidTypeName qualified)
    else (parse (String.ofList package)).map fun path => (path, String.ofList name)
  | none => .error (.invalidTypeName qualified)

theorem segments_ne_nil (p : Path) : p.segments ≠ [] := by
  cases p <;> simp [segments]

theorem length_segments (p : Path) : p.segments.length = p.length := by
  induction p with
  | top _ => rfl
  | sub _ _ ih => simp [segments, length, ih]

theorem segments_foldl_sub (p : Path) (rest : List String) :
    (rest.foldl sub p).segments = p.segments ++ rest := by
  induction rest generalizing p with
  | nil => simp
  | cons a rest ih => simp [ih, segments]

@[simp] theorem segments_ofList (first : String) (rest : List String) :
    (ofList first rest).segments = first :: rest := by
  simp [ofList, segments_foldl_sub, segments]

theorem segments_injective {p q : Path} (h : p.segments = q.segments) : p = q := by
  induction p generalizing q with
  | top a =>
    cases q with
    | top b => simpa [segments] using h
    | sub q b =>
      have := congrArg List.length h
      simp [length_segments, segments] at this
      cases q <;> simp [length] at this
  | sub p a ih =>
    cases q with
    | top b =>
      have := congrArg List.length h
      simp [length_segments, segments] at this
      cases p <;> simp [length] at this
    | sub q b =>
      obtain ⟨h, e⟩ := List.append_inj' h rfl
      rw [ih h, (List.cons.inj e).1]

theorem ofSegments_segments {p : Path} (h : "" ∉ p.segments) : ofSegments p.segments = .ok p := by
  cases hs : p.segments with
  | nil => exact absurd hs p.segments_ne_nil
  | cons a r =>
    rw [hs] at h
    rw [ofSegments, if_neg h]
    exact congrArg _ (segments_injective (by rw [segments_ofList, hs]))

theorem ofSegments_eq_ok_iff {segments : List String} {p : Path} :
    ofSegments segments = .ok p ↔ "" ∉ segments ∧ p.segments = segments := by
  constructor
  · intro h
    unfold ofSegments at h
    split at h
    · next first rest =>
      split at h
      · cases h
      · next hne =>
        cases h
        exact ⟨hne, segments_ofList first rest⟩
    · cases h
  · rintro ⟨hne, rfl⟩
    exact ofSegments_segments hne

theorem isPrefixOf_refl (p : Path) : p.isPrefixOf p = true := by
  cases p <;> simp [isPrefixOf]

theorem isPrefixOf_iff {p q : Path} : p.isPrefixOf q = true ↔ p.segments <+: q.segments := by
  induction q with
  | top b =>
    simp only [isPrefixOf, decide_eq_true_eq]
    constructor
    · rintro rfl; exact List.prefix_rfl
    · intro h
      refine segments_injective (h.eq_of_length ?_)
      have := h.length_le
      rw [length_segments, length_segments] at *
      cases p <;> simp_all [length]
  | sub q b ih =>
    simp only [isPrefixOf, Bool.or_eq_true, decide_eq_true_eq, ih, segments, List.prefix_concat_iff]
    exact or_congr_left ⟨fun h => by rw [h, segments], fun h => segments_injective h⟩

end Path

end SplitPackages
