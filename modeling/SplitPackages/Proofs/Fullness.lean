import SplitPackages.Proofs.Requests

/-!
# Splits with one incarnation

A split is worth it with two incarnations only, and combining keeps to that: a
split that would have one is replaced by its incarnation. A search does not. It
makes a split of any two distinct bindings that the members of a split see, and
a problem binding contributes no incarnation. So requests that pass on what was
handed out meet no other splits than full ones, unless the members of a split
see a problem and a binding that is not a split (`full_or_hollow_of_serves`).
Where there are no problems it does not come to that (`not_hollow_of_valid`).
-/

namespace SplitPackages.Environment

/-- The binding is kept in a place from which lookups answer. -/
inductive Stored (env : Environment) (p : PackageId) : Prop
  | entry {c : PackageId} {r : Package} {name : String} : env.package c = .ok r →
      r.known.get? name = some (.package p) → Stored env p
  /-- The memo of a relaxed lookup has the entries that it merged and the result. -/
  | memo {c : PackageId} {r : Package} {name : String} {refs : List Ref} {result : Option Ref} :
      env.package c = .ok r → r.memo name = some (refs, result) →
      p ∈ bindings (result :: refs.map some) → Stored env p
  | seen {m : ModuleId} {path : Path} : env.seen m path = some (.package p) → Stored env p

variable {env : Environment} {config : Config} {handed : List PackageId} {d : Discipline}
  {p : PackageId}

theorem Orderly.fits_of_stored (ho : env.Orderly d) (hp : env.Stored p) :
    ∃ path, env.Fits d path p := by
  cases hp with
  | entry hc he => exact ⟨_, ho.entry hc he⟩
  | memo hc hm hp => exact ⟨_, ho.memo hc hm p hp⟩
  | seen hs => exact ⟨_, ho.seen hs⟩

/-- A problem is needed for the members of a split to disagree in that way. -/
theorem not_hollow_of_valid (hv : ∀ p r, env.package p = .ok r → r.isValid = true) :
    ¬ env.Hollow := by
  rintro ⟨c, r, name, -, -, d, -, d', -, b, b', rb, rb', -, -, -, hb, hinvalid, -, -⟩
  rw [hv b rb hb] at hinvalid
  cases hinvalid

/-- Each split that has been handed out or is stored has at least two incarnations, or there are
members of a split of which one sees a problem where another sees a binding that is no split. -/
theorem full_or_hollow_of_serves (h : Serves config env handed) (hp : p ∈ handed ∨ env.Stored p) :
    env.Full p ∨ env.Hollow := by
  obtain ⟨ho, hhanded⟩ := h.orderly
  have hfits : ∃ path, env.Fits .handing path p := hp.elim (hhanded p) ho.fits_of_stored
  obtain ⟨path, r, hr, -, hfull⟩ := hfits
  exact hfull trivial

/-- Two modules share a package and a package below it; a third reads both. -/
def sharedBelow (bar : ModuleId → Path → Request) : List Request :=
  [.addModule "a" false, .addModule "b" false, .addModule "n" false,
    .declarePackage ⟨0⟩ (.sub (.top "com") "foo"), .declarePackage ⟨1⟩ (.sub (.top "com") "foo"),
    bar ⟨0⟩ (.sub (.sub (.top "com") "foo") "bar"),
    .declarePackage ⟨1⟩ (.sub (.sub (.top "com") "foo") "bar"),
    .addExport ⟨0⟩ (.sub (.top "com") "foo"), .addExport ⟨1⟩ (.sub (.top "com") "foo"),
    .addRead ⟨2⟩ ⟨0⟩, .addRead ⟨2⟩ ⟨1⟩, .resolve ⟨2⟩ (.sub (.sub (.top "com") "foo") "bar")]

theorem full_sharedBelow : ∃ env handed, Serves .standard env handed ∧ ⟨8⟩ ∈ handed ∧
    (∃ r, env.package ⟨8⟩ = .ok r ∧ r.isSplit = true) ∧ env.Full ⟨8⟩ := by
  have hrun : (serve .standard (sharedBelow .declarePackage) .empty []).any (fun last =>
      last.2.contains ⟨8⟩ && (last.1.package ⟨8⟩).toOption.any Package.isSplit &&
        last.1.packages.all Package.isValid) = true := by decide +kernel
  obtain ⟨⟨env, handed⟩, hlast, hlast'⟩ := (Option.any_eq_true _ _).mp hrun
  simp only [Bool.and_eq_true, List.contains_iff_mem, Array.all_eq_true'] at hlast'
  obtain ⟨⟨hin, hsplit⟩, hvalid⟩ := hlast'
  have hserves := serves_of_serve .start hlast
  refine ⟨env, handed, hserves, hin, ?_, ?_⟩
  · cases hr : env.package ⟨8⟩ with
    | error e => rw [hr] at hsplit; cases hsplit
    | ok r => exact ⟨r, rfl, by rwa [hr] at hsplit⟩
  · refine (full_or_hollow_of_serves hserves (.inl hin)).resolve_right (not_hollow_of_valid ?_)
    exact fun p r hp => hvalid r (mem_packages_of_package hp)

theorem not_full_sharedProblem : ¬ ∀ {config : Config} {env : Environment}
    {handed : List PackageId}, Serves config env handed → ∀ p ∈ handed, env.Full p := by
  intro hall
  have hrun : (serve .standard (sharedBelow .declareProblem) .empty []).any (fun last =>
      last.2.contains ⟨8⟩ && (last.1.package ⟨8⟩).toOption.any fun r =>
        r.isSplit && r.incarnations.length == 1) = true := by decide +kernel
  obtain ⟨⟨env, handed⟩, hlast, hlast'⟩ := (Option.any_eq_true _ _).mp hrun
  simp only [Bool.and_eq_true, List.contains_iff_mem] at hlast'
  obtain ⟨hin, hthin⟩ := hlast'
  have hfull := hall (serves_of_serve .start hlast) _ hin
  cases hr : env.package ⟨8⟩ with
  | error e => rw [hr] at hthin; cases hthin
  | ok r =>
    rw [hr] at hthin
    obtain ⟨hsplit, hone⟩ := (Bool.and_eq_true _ _).mp hthin
    have htwo := hfull r hr hsplit
    have hone := beq_iff_eq.mp hone
    omega

end SplitPackages.Environment
