import SplitPackages.Proofs.Histories

/-!
# What a type lookup grants

`Honest env m path name answer`: the answer tells the truth about the types
`name` at the path and about which of them the module `m` can access.
`resolveType_honest` shows it of every answer in every state that builders and
lookups reach. Nothing is said of a package that is not there.
-/

namespace SplitPackages

namespace Environment

/-- A type of that name, declared by the module in its binding `p` of the path. -/
def DeclaredType (env : Environment) (t : TypeId) (name : String) (path : Path) (k : ModuleId)
    (p : PackageId) : Prop :=
  env.typeRecord t = .ok ⟨name, p, k⟩ ∧ ∃ r, env.package p = .ok r ∧ r.path = path ∧ r.home = k

def Honest (env : Environment) (m : ModuleId) (path : Path) (name : String) :
    TypeResolution → Prop
  | .found t => ∃ k p, env.DeclaredType t name path k p ∧ env.canAccess m p = .ok true
  | .failed (.ambiguous t u) => ∃ k p l q, env.DeclaredType t name path k p ∧
      env.DeclaredType u name path l q ∧ k ≠ l ∧ env.canAccess m p = .ok true ∧
      env.canAccess m q = .ok true
  | .failed (.notAccessible t) => ∃ k p, env.DeclaredType t name path k p ∧
      env.canAccess m p = .ok false
  | .noSuchType p => ∃ r, env.package p = .ok r ∧ r.path = path ∧ r.types.get? name = none ∧
      ∀ i ∈ r.incarnations, env.typeIn i name = .ok none
  | .noSuchPackage => True

variable {env : Environment} {p i j : PackageId} {m : ModuleId} {r : Package} {path : Path}
  {name : String} {t u : TypeId}

theorem Coherent.declaredType (hc : env.Coherent) (hr : env.package p = .ok r)
    (hi : i ∈ env.parts p) (ht : env.HasType i name t) :
    ∃ k, env.DeclaredType t name r.path k i := by
  obtain ⟨ri, hri, -, hpath, -⟩ := hc.parts hr hi
  obtain ⟨-, htr⟩ := hc.types hri ((hasType_of_package hri).mp ht)
  exact ⟨ri.home, htr, ri, hri, hpath, rfl⟩

/-- Two parts of a binding have different homes. -/
theorem Coherent.home_ne (hc : env.Coherent) (hr : env.package p = .ok r) (hi : i ∈ env.parts p)
    (hj : j ∈ env.parts p) (hne : i ≠ j) {k l : ModuleId}
    (hti : env.DeclaredType t name path k i) (htj : env.DeclaredType u name path l j) : k ≠ l := by
  obtain ⟨-, ri, hri, -, rfl⟩ := hti
  obtain ⟨-, rj, hrj, -, rfl⟩ := htj
  exact fun hhome => hne (hc.eq_of_parts hr hi hj hri hrj hhome)

theorem TypeAnswer.honest {answer : TypeResolution} (hc : env.Coherent)
    (hr : env.package p = .ok r) (h : env.TypeAnswer m p name answer) :
    env.Honest m r.path name answer := by
  cases h with
  | found hi ht ha _ =>
    obtain ⟨k, hd⟩ := hc.declaredType hr hi ht
    exact ⟨k, _, hd, ha⟩
  | ambiguous hi hj hne ht hu hai haj =>
    obtain ⟨k, hdi⟩ := hc.declaredType hr hi ht
    obtain ⟨l, hdj⟩ := hc.declaredType hr hj hu
    exact ⟨k, _, l, _, hdi, hdj, hc.home_ne hr hi hj hne hdi hdj, hai, haj⟩
  | hidden hi ht hall =>
    obtain ⟨k, hd⟩ := hc.declaredType hr hi ht
    exact ⟨k, _, hd, hall _ hi _ ht⟩
  | missing hno =>
    have hpart {i : PackageId} {ri : Package} (hi : i ∈ env.parts p)
        (hri : env.package i = .ok ri) : ri.types.get? name = none := by
      cases hget : ri.types.get? name with
      | none => rfl
      | some t => exact absurd ((hasType_of_package hri).mpr hget) (hno i hi t)
    refine ⟨r, hr, rfl, ?_, fun i hi => ?_⟩
    · cases hget : r.types.get? name with
      | none => rfl
      | some t =>
        obtain ⟨hpl, -⟩ := hc.types hr hget
        refine (hpart (i := p) ?_ hr).symm.trans hget |>.symm
        rw [parts_of_package hr, Package.contributors_of_isPlain hpl]
        exact List.mem_singleton_self p
    · obtain ⟨s, hk⟩ : ∃ s, r.kind = .split s := by
        unfold Package.incarnations at hi
        split at hi
        · next s hk => exact ⟨s, hk⟩
        · cases hi
      have hin : i ∈ env.parts p := by
        rw [parts_of_package hr]
        simpa only [Package.contributors, Package.incarnations, hk] using hi
      obtain ⟨ri, hri, -⟩ := hc.parts hr hin
      simp only [typeIn, hri, Functor.map, Except.map, hpart hin hri]

variable {config : Config}

/-- In every state that builders and lookups reach, a type lookup gives an answer, and the answer
is true: a found type is accessible, an ambiguity is between accessible types of two modules, a
type reported as not accessible is not, and a package without the type does not have it. -/
theorem resolveType_honest {qualified : String}
    (hreach : Environment.empty.Reaches config (fun r => r.builds || r.looks) env)
    (hm : m.index < env.modules.size) (hq : Path.splitTypeName qualified = .ok (path, name)) :
    (Lookup.resolveType m qualified).Ensures env fun answer after =>
      ∃ resolution, answer = .ok resolution ∧ after.Honest m path name resolution := by
  have hc := hreach.coherent coherent_empty
  refine (Lookup.resolveType_spec hc (module_of_lt_size hm) hq).mono ?_
  rintro answer after ⟨resolution, resolved, rfl, hres, h⟩
  refine ⟨resolution, rfl, ?_⟩
  cases resolved with
  | none =>
    cases h
    trivial
  | some p =>
    obtain ⟨r, hr, rfl⟩ := hres.binds hc
    exact h.honest (hres.changes.coherent hc) hr

/-- Two modules export a package with the same type to a third, which has looked at it. -/
def sharedType : List Request :=
  [.addModule "a" false, .addModule "b" false, .addModule "n" false,
    .declareType ⟨0⟩ "com.foo.T", .addExport ⟨0⟩ (.sub (.top "com") "foo"),
    .declareType ⟨1⟩ "com.foo.T", .addRead ⟨2⟩ ⟨0⟩, .addRead ⟨2⟩ ⟨1⟩,
    .resolveType ⟨2⟩ "com.foo.T", .addExport ⟨1⟩ (.sub (.top "com") "foo")]

theorem resolveType_honest_sharedType :
    ∃ env, Environment.empty.Reaches .standard (fun r => r.builds || r.looks) env ∧
      2 < env.modules.size ∧
      Path.splitTypeName "com.foo.T" = .ok (.sub (.top "com") "foo", "T") ∧
      (Lookup.resolveType ⟨2⟩ "com.foo.T").Ensures env fun answer after =>
        ∃ resolution, answer = .ok resolution ∧
          after.Honest ⟨2⟩ (.sub (.top "com") "foo") "T" resolution := by
  have hrun : (replay .standard (fun r => r.builds || r.looks) sharedType .empty).any
      (fun env => 2 < env.modules.size) = true := by decide +kernel
  obtain ⟨env, henv, hsize⟩ := (Option.any_eq_true _ _).mp hrun
  have hreach := reaches_of_replay henv
  have hsize : 2 < env.modules.size := of_decide_eq_true hsize
  have hq : Path.splitTypeName "com.foo.T" = .ok (.sub (.top "com") "foo", "T") := by cbv
  exact ⟨env, hreach, hsize, hq, resolveType_honest hreach hsize hq⟩

end Environment

end SplitPackages
