import SplitPackages.Proofs.Declarations

/-!
# What every request leaves in place

As an environment advances, nothing that a lookup has come to rely on is taken
back: bindings keep their place and kind and lose no contributor, and what a
module has seen it goes on seeing (`Advances`). This holds of every request, also of
those that combine bindings of different paths.

`Sustains` says more, and holds of all requests but the builders: the graph
stays as it is, and what is new are splits, each in the place of a binding that
is there already. So they keep the graph sound, and keep every binding in its
place below the one that encloses it (`Hung`).
-/

namespace SplitPackages

/-- The binding keeps its place and kind and loses no contributor. -/
structure Package.Advances (r r' : Package) : Prop where
  path : r'.path = r.path
  parent : r'.parent = r.parent
  home : r'.home = r.home
  isPlain : r'.isPlain = r.isPlain
  isSplit : r'.isSplit = r.isSplit
  incarnations : ∀ i ∈ r.incarnations, i ∈ r'.incarnations
  declaring : ∀ k ∈ r.declaring, k ∈ r'.declaring

namespace Environment

structure Advances (env after : Environment) : Prop where
  module : ∀ {m record}, env.module m = .ok record → ∃ record', after.module m = .ok record'
  package : ∀ {p r}, env.package p = .ok r → ∃ r', after.package p = .ok r' ∧ r.Advances r'
  seen : ∀ {m path ref}, env.seen m path = some ref → after.seen m path = some ref

/-- Old bindings advance, and new ones are splits in the place of old ones. -/
structure Sustains (env after : Environment) : Prop where
  modules : ∀ m, Module.bare <$> after.module m = Module.bare <$> env.module m
  types : after.types = env.types
  old : ∀ {p r}, env.package p = .ok r →
    ∃ r', after.package p = .ok r' ∧ r.Advances r' ∧ r'.types = r.types
  new : ∀ {p r}, after.package p = .ok r → (∃ r0, env.package p = .ok r0) ∨
    r.isSplit = true ∧ r.types = .empty ∧ (∃ record, env.module r.home = .ok record) ∧
      ∃ q rq, env.package q = .ok rq ∧ r.path = rq.path ∧ r.parent = rq.parent

/-- The parent is a binding of the enclosing path that is not a split; there is none if there is
no enclosing path. -/
def Hangs (env : Environment) : Path → Option PackageId → Prop
  | .top _, parent => parent = none
  | .sub above _, parent =>
    ∃ p r, parent = some p ∧ env.package p = .ok r ∧ r.path = above ∧ r.isSplit = false

def Hung (env : Environment) : Prop :=
  ∀ p r, env.package p = .ok r → env.Hangs r.path r.parent

end Environment

namespace Package

variable {r r' r'' : Package} {p : PackageId}

theorem Advances.refl (r : Package) : r.Advances r :=
  ⟨rfl, rfl, rfl, rfl, rfl, fun _ h => h, fun _ h => h⟩

theorem Advances.trans (h : r.Advances r') (h2 : r'.Advances r'') : r.Advances r'' where
  path := h2.path.trans h.path
  parent := h2.parent.trans h.parent
  home := h2.home.trans h.home
  isPlain := h2.isPlain.trans h.isPlain
  isSplit := h2.isSplit.trans h.isSplit
  incarnations i hi := h2.incarnations i (h.incarnations i hi)
  declaring k hk := h2.declaring k (h.declaring k hk)

theorem Advances.of_alike (h : r.Alike r') (hpath : r'.path = r.path)
    (hparent : r'.parent = r.parent) : r.Advances r' where
  path := hpath
  parent := hparent
  home := h.home
  isPlain := h.isPlain
  isSplit := h.isSplit
  incarnations i hi := by rwa [h.incarnations]
  declaring k hk := by rwa [h.declaring]

theorem isValid_eq (r : Package) : r.isValid = (r.isPlain || r.isSplit) := by
  unfold isValid isPlain plain? isSplit split?
  cases r.kind <;> rfl

theorem Advances.isValid (h : r.Advances r') : r'.isValid = r.isValid := by
  rw [isValid_eq, isValid_eq, h.isPlain, h.isSplit]

/-- No part is lost. -/
theorem Advances.contributors (h : r.Advances r') : ∀ i ∈ r.contributors p, i ∈ r'.contributors p := by
  intro i hi
  rw [mem_contributors] at hi ⊢
  exact hi.imp (fun ⟨hpl, e⟩ => ⟨h.isPlain.trans hpl, e⟩) (h.incarnations i)

theorem wrap_advances (split : PackageId) (r : Package) : r.Advances (r.wrap split) := by
  obtain ⟨_, _, _, _, _, _, kind⟩ := r
  cases kind <;> exact ⟨rfl, rfl, rfl, rfl, rfl, fun _ h => h, fun _ h => h⟩

end Package

namespace Environment

variable {env mid after : Environment} {i p : PackageId} {m : ModuleId} {r r' : Package}
  {path : Path} {parent : Option PackageId}

theorem Advances.refl (env : Environment) : env.Advances env :=
  ⟨fun h => ⟨_, h⟩, fun h => ⟨_, h, .refl _⟩, fun h => h⟩

theorem Advances.trans (h : env.Advances mid) (h2 : mid.Advances after) : env.Advances after where
  module hm := by
    obtain ⟨record', hm'⟩ := h.module hm
    exact h2.module hm'
  package hp := by
    obtain ⟨r1, hr1, e1⟩ := h.package hp
    obtain ⟨r2, hr2, e2⟩ := h2.package hr1
    exact ⟨r2, hr2, e1.trans e2⟩
  seen hs := h2.seen (h.seen hs)

theorem Advances.record (h : env.Advances after) (hp : env.package p = .ok r)
    (hp' : after.package p = .ok r') : r.Advances r' := by
  obtain ⟨r'', hr'', e⟩ := h.package hp
  cases package_unique hp' hr''
  exact e

theorem Advances.module_ok (h : env.Advances after) (hm : ∃ record, env.module m = .ok record) :
    ∃ record, after.module m = .ok record := by
  obtain ⟨record, hm⟩ := hm
  exact h.module hm

theorem Advances.parts (h : env.Advances after) : ∀ i ∈ env.parts p, i ∈ after.parts p := by
  intro i hi
  unfold Environment.parts at hi
  split at hi
  · next r hr =>
    obtain ⟨r', hr', e⟩ := h.package hr
    rw [parts_of_package hr']
    exact e.contributors i hi
  · cases hi

theorem Advances.hangs (h : env.Advances after) (hh : env.Hangs path parent) :
    after.Hangs path parent := by
  cases path with
  | top name => exact hh
  | sub above name =>
    obtain ⟨p, r, e, hr, hpath, hs⟩ := hh
    obtain ⟨r', hr', e'⟩ := h.package hr
    exact ⟨p, r', e, hr', e'.path.trans hpath, e'.isSplit.trans hs⟩

/-! ## Without building -/

/-- Views aside, what keeps the graph advances. -/
theorem Sustains.advances (h : env.Sustains after)
    (seen : ∀ {m path ref}, env.seen m path = some ref → after.seen m path = some ref) :
    env.Advances after where
  module hm := by
    obtain ⟨record', hm', -⟩ := module_of_bare h.modules hm
    exact ⟨record', hm'⟩
  package hp := by
    obtain ⟨r', hr', e, -⟩ := h.old hp
    exact ⟨r', hr', e⟩
  seen := seen

theorem Sustains.graph (h : env.Sustains after) (hg : env.Graph) : after.Graph := by
  have hback {p : PackageId} {r : Package} (hp : after.package p = .ok r) (hs : r.isSplit = false) :
      ∃ r0, env.package p = .ok r0 ∧ r0.Advances r := by
    rcases h.new hp with ⟨r0, hr0⟩ | ⟨hs', -⟩
    · obtain ⟨r', hr', e, -⟩ := h.old hr0
      cases package_unique hp hr'
      exact ⟨r0, hr0, e⟩
    · rw [hs] at hs'
      cases hs'
  refine ⟨?_, ?_, ?_, ?_, ?_, ?_⟩
  · intro m record k hm hk
    obtain ⟨record0, hm0, e⟩ := module_of_bare (fun m => (h.modules m).symm) hm
    obtain ⟨record', hk'⟩ := hg.reads hm0 (Module.reads_eq_of_bare e ▸ hk)
    obtain ⟨record'', hk'', -⟩ := module_of_bare h.modules hk'
    exact ⟨record'', hk''⟩
  · intro m path p hd
    obtain ⟨r, hr, hpath, hhome, hs⟩ := hg.declared ((declared_of_bare h.modules).mp hd)
    obtain ⟨r', hr', e, -⟩ := h.old hr
    exact ⟨r', hr', e.path.trans hpath, e.home.trans hhome, e.isSplit.trans hs⟩
  · intro p r hp hs
    obtain ⟨r0, hr0, e⟩ := hback hp hs
    rw [e.home, e.path]
    exact (declared_of_bare h.modules).mpr (hg.own hr0 (e.isSplit.symm.trans hs))
  · intro p r hp
    have hhome : ∃ record, env.module r.home = .ok record := by
      rcases h.new hp with ⟨r0, hr0⟩ | ⟨-, -, hhome, -⟩
      · obtain ⟨r', hr', e, -⟩ := h.old hr0
        cases package_unique hp hr'
        exact e.home ▸ hg.home hr0
      · exact hhome
    obtain ⟨record, hm⟩ := hhome
    obtain ⟨record', hm', -⟩ := module_of_bare h.modules hm
    exact ⟨record', hm'⟩
  · rintro m path name ⟨p, hd⟩
    obtain ⟨q, hd'⟩ := hg.enclosing ⟨p, (declared_of_bare h.modules).mp hd⟩
    exact ⟨q, (declared_of_bare h.modules).mpr hd'⟩
  · intro p r name t hp ht
    rcases h.new hp with ⟨r0, hr0⟩ | ⟨-, hempty, -⟩
    · obtain ⟨r', hr', e, htypes⟩ := h.old hr0
      cases package_unique hp hr'
      obtain ⟨hpl, ht⟩ := hg.types hr0 (htypes ▸ ht)
      refine ⟨e.isPlain.trans hpl, ?_⟩
      rw [e.home, ← ht]
      simp only [typeRecord, h.types]
    · rw [hempty] at ht
      cases ht

theorem Sustains.hung (h : env.Sustains after) (hh : env.Hung) : after.Hung := by
  intro p r hp
  have hold {q : PackageId} {rq : Package} (hq : env.package q = .ok rq) :
      after.Hangs rq.path rq.parent := by
    have := hh q rq hq
    cases hpath : rq.path with
    | top name => rwa [hpath] at this
    | sub above name =>
      rw [hpath] at this
      obtain ⟨a, ra, e, hra, hpa, hs⟩ := this
      obtain ⟨ra', hra', e', -⟩ := h.old hra
      exact ⟨a, ra', e, hra', e'.path.trans hpa, e'.isSplit.trans hs⟩
  rcases h.new hp with ⟨r0, hr0⟩ | ⟨-, -, -, q, rq, hrq, hpath, hparent⟩
  · obtain ⟨r', hr', e, -⟩ := h.old hr0
    cases package_unique hp hr'
    rw [e.path, e.parent]
    exact hold hr0
  · rw [hpath, hparent]
    exact hold hrq

/-! ## Building -/

/-- A building step leaves the place and the ties of a binding alone. -/
theorem Raise.package (h : env.Raise after) (hp : env.package p = .ok r) :
    ∃ r', after.package p = .ok r' ∧ r.Alike r' ∧ r'.parent = r.parent := by
  cases h with
  | module name unnamed => exact ⟨r, (package_congr rfl p).trans hp, .refl r, rfl⟩
  | type record => exact ⟨r, (package_congr rfl p).trans hp, .refl r, rfl⟩
  | edges _ _ _ _ hset =>
    exact ⟨r, (package_congr (packages_setModule hset) p).trans hp, .refl r, rfl⟩
  | @own c rc f _ hrc he ha hparent _ hset =>
    by_cases e : p = c
    · subst e
      cases package_unique hrc hp
      exact ⟨_, package_setPackage_self hset hrc, ha, hparent⟩
    · exact ⟨r, (package_setPackage_ne hset e).trans hp, .refl r, rfl⟩
  | insert h _ => exact ⟨r, h.package_old hp, .refl r, rfl⟩

/-- A new binding is a declaration of a module, and hangs below one of the same module. -/
theorem Raise.package_back (h : env.Raise after) (hp : after.package p = .ok r) :
    (∃ r0, env.package p = .ok r0) ∨ r.isSplit = false ∧ r.wrappedBy = [] ∧
      env.Encloses r.home r.path r.parent := by
  cases h with
  | module name unnamed => exact .inl ⟨r, (package_congr rfl p).symm.trans hp⟩
  | type record => exact .inl ⟨r, (package_congr rfl p).symm.trans hp⟩
  | edges _ _ _ _ hset => exact .inl ⟨r, (package_congr (packages_setModule hset) p).symm.trans hp⟩
  | @own c rc f _ hrc _ _ _ _ hset =>
    by_cases e : p = c
    · exact .inl ⟨rc, e ▸ hrc⟩
    · exact .inl ⟨r, (package_setPackage_ne hset e).symm.trans hp⟩
  | insert h henc =>
    rcases h.package_back hp with hp | ⟨-, rfl⟩
    · exact .inl ⟨r, hp⟩
    · exact .inr ⟨h.isSplit, h.wrappedBy, h.home ▸ henc⟩

theorem Raise.advances (h : env.Raise after) : env.Advances after where
  module hm := by
    obtain ⟨record', hm', -⟩ := h.extends.module hm
    exact ⟨record', hm'⟩
  package hp := by
    obtain ⟨r', hr', ha, hparent⟩ := h.package hp
    obtain ⟨r'', hr'', e⟩ := h.extends.package hp
    cases package_unique hr' hr''
    exact ⟨r', hr', .of_alike ha e.path hparent⟩
  seen hs := (h.extends.seen _ _).trans hs

theorem Raise.hung (h : env.Raise after) (hg : env.Graph) (hh : env.Hung) : after.Hung := by
  intro p r hp
  rcases h.package_back hp with ⟨r0, hr0⟩ | ⟨-, -, henc⟩
  · have e := h.advances.record hr0 hp
    rw [e.path, e.parent]
    exact h.advances.hangs (hh p r0 hr0)
  · refine h.advances.hangs ?_
    cases hpath : r.path with
    | top name => rwa [hpath] at henc
    | sub above name =>
      rw [hpath] at henc
      obtain ⟨q, e, hd⟩ := henc
      obtain ⟨rq, hrq, hpq, -, hs⟩ := hg.declared hd
      exact ⟨q, rq, e, hrq, hpq, hs⟩

theorem Raise.wired (h : env.Raise after) (hw : env.Wired) : after.Wired := by
  refine hw.of_alike (fun hp => ?_) fun hp => ?_
  · obtain ⟨r', hr', ha, -⟩ := h.package hp
    exact ⟨r', hr', ha⟩
  · refine (h.package_back hp).imp_right ?_
    rintro ⟨hs, hnil, -⟩
    refine ⟨Package.incarnations_of_not_isSplit hs, hnil, fun hs' => ?_⟩
    rw [hs] at hs'
    cases hs'

end Environment

end SplitPackages
