import SplitPackages.Proofs.Records

/-!
# What lookups leave alone

`Keeps env after`: the bare modules, the types and the bare records of `env`
are all there in `after`. Who reads and exposes what, who declares what, who
contributes to a binding and who can access it depend on these only, so the
answers to such questions stay the same.
-/

namespace SplitPackages.Environment

structure Keeps (env after : Environment) : Prop where
  modules : ∀ m, Module.bare <$> after.module m = Module.bare <$> env.module m
  size : after.modules.size = env.modules.size
  types : after.types = env.types
  packages : ∀ {p r}, env.package p = .ok r → ∃ r', after.package p = .ok r' ∧ r'.bare = r.bare

variable {env mid after : Environment} {p q : PackageId} {m k : ModuleId} {r r' : Package}
  {path : Path} {name : String}

theorem Keeps.refl (env : Environment) : env.Keeps env :=
  ⟨fun _ => rfl, rfl, rfl, fun h => ⟨_, h, rfl⟩⟩

theorem Keeps.trans (h : env.Keeps mid) (h2 : mid.Keeps after) : env.Keeps after where
  modules m := (h2.modules m).trans (h.modules m)
  size := h2.size.trans h.size
  types := h2.types.trans h.types
  packages hp := by
    obtain ⟨r', hr', e⟩ := h.packages hp
    obtain ⟨r'', hr'', e'⟩ := h2.packages hr'
    exact ⟨r'', hr'', e'.trans e⟩

/-! ## Modules that are bare the same -/

theorem module_of_bare (h : ∀ m, Module.bare <$> after.module m = Module.bare <$> env.module m)
    {record : Module} (hm : env.module m = .ok record) :
    ∃ record', after.module m = .ok record' ∧ record'.bare = record.bare := by
  have h := h m
  rw [hm] at h
  cases hm' : after.module m with
  | error e => rw [hm'] at h; cases h
  | ok record' =>
    rw [hm'] at h
    injection h with h
    exact ⟨record', rfl, h⟩

theorem declared_of_bare (h : ∀ m, Module.bare <$> after.module m = Module.bare <$> env.module m)
    {id : Option PackageId} :
    after.declared m path = .ok id ↔ env.declared m path = .ok id := by
  constructor
  · intro hd
    obtain ⟨record, hm, hd⟩ := module_of_declared hd
    obtain ⟨record', hm', e⟩ := module_of_bare (fun m => (h m).symm) hm
    rw [declared_of_module hm', Module.declared_eq_of_bare e, hd]
  · intro hd
    obtain ⟨record, hm, hd⟩ := module_of_declared hd
    obtain ⟨record', hm', e⟩ := module_of_bare h hm
    rw [declared_of_module hm', Module.declared_eq_of_bare e, hd]

theorem Keeps.module (h : env.Keeps after) {record : Module} (hm : env.module m = .ok record) :
    ∃ record', after.module m = .ok record' ∧ record'.bare = record.bare :=
  module_of_bare h.modules hm

theorem Keeps.module_ok (h : env.Keeps after) (hm : ∃ record, env.module m = .ok record) :
    ∃ record, after.module m = .ok record := by
  obtain ⟨record, hm⟩ := hm
  obtain ⟨record', hm', -⟩ := h.module hm
  exact ⟨record', hm'⟩

theorem Keeps.module_back (h : env.Keeps after) {record : Module}
    (hm : after.module m = .ok record) :
    ∃ record', env.module m = .ok record' ∧ record.bare = record'.bare := by
  obtain ⟨record', hm', e⟩ := module_of_bare (fun m => (h.modules m).symm) hm
  exact ⟨record', hm', e.symm⟩

theorem Keeps.declared (h : env.Keeps after) {id : Option PackageId} :
    after.declared m path = .ok id ↔ env.declared m path = .ok id :=
  declared_of_bare h.modules

theorem Keeps.members (h : env.Keeps after) (hp : env.package p = .ok r) :
    after.members p = env.members p := by
  obtain ⟨r', hr', e⟩ := h.packages hp
  rw [members_of_package hr', declaring_of_bare hp e]

theorem Keeps.parts (h : env.Keeps after) (hp : env.package p = .ok r) :
    after.parts p = env.parts p := by
  obtain ⟨r', hr', e⟩ := h.packages hp
  rw [parts_of_package hr', contributors_of_bare hp e]

theorem Keeps.valid (h : env.Keeps after) (hp : env.package p = .ok r) :
    after.valid p = env.valid p := by
  obtain ⟨r', hr', e⟩ := h.packages hp
  rw [valid_of_package hr', valid_of_package hp, Package.isValid_eq_of_bare e]

/-! ## Reading -/

/-- A module that is not there is not there later either. -/
theorem Keeps.module_error (h : env.Keeps after) {e : Fault} (hm : env.module m = .error e) :
    after.module m = .error e := by
  have hbare := h.modules m
  rw [hm] at hbare
  cases hm' : after.module m with
  | error e' => rw [hm'] at hbare; cases hbare; rfl
  | ok record => rw [hm'] at hbare; cases hbare

/-- The search for a module reads the reads of modules only. -/
theorem Keeps.reaches (h : env.Keeps after) (target : ModuleId) : ∀ turns visited queue,
    after.reaches target turns visited queue = env.reaches target turns visited queue
  | _, _, [] => by simp only [Environment.reaches]
  | 0, _, _ :: _ => by simp only [Environment.reaches]
  | turns + 1, visited, m :: queue => by
    simp only [Environment.reaches]
    split
    · rfl
    split
    · exact h.reaches target turns _ _
    · cases hm : env.module m with
      | error e => rw [h.module_error hm]; rfl
      | ok record =>
        obtain ⟨record', hm', e⟩ := h.module hm
        rw [hm']
        simp only [bind, Except.bind, Module.impliedReads, Module.reads_eq_of_bare e]
        exact h.reaches target turns _ _

theorem Keeps.turnsLeft (h : env.Keeps after) (visited queue : List ModuleId) :
    after.turnsLeft visited queue = env.turnsLeft visited queue := by
  have himplied : after.impliedReads = env.impliedReads := by
    funext m
    simp only [Environment.impliedReads]
    cases hm : env.module m with
    | error e => rw [h.module_error hm]
    | ok record =>
      obtain ⟨record', hm', e⟩ := h.module hm
      simp only [hm', Module.impliedReads, Module.reads_eq_of_bare e]
  simp only [Environment.turnsLeft, Environment.moduleIds, h.size, himplied]

theorem Keeps.canRead (h : env.Keeps after) (m target : ModuleId) :
    after.canRead m target = env.canRead m target := by
  simp only [Environment.canRead]
  split
  · rfl
  · cases hm : env.module m with
    | error e => rw [h.module_error hm]; rfl
    | ok record =>
      obtain ⟨record', hm', e⟩ := h.module hm
      rw [hm']
      simp only [bind, Except.bind, Module.unnamed_eq_of_bare e, Module.reads_eq_of_bare e,
        h.reaches target, h.turnsLeft]

end SplitPackages.Environment
