import SplitPackages.Proofs.Coherence
import SplitPackages.Proofs.Outcome
import SplitPackages.Split

/-!
# Making splits

`Grows env after`: `after` is `env` with sound splits added, about which
nothing is known yet; of the old records only wrappers differ. `Builds env
split r mid` is the state in between, in which the one new record is `r`. Where
that record is a sound split, the environment has grown (`Builds.grows`), and a
coherent environment that grows stays coherent (`Grows.coherent`).
-/

namespace SplitPackages

namespace OrderedSet

variable {α : Type} [DecidableEq α]

theorem insertMany_append (s : OrderedSet α) (as bs : List α) :
    s.insertMany (as ++ bs) = (s.insertMany as).insertMany bs :=
  List.foldl_append

theorem mem_of_mem_newIn {s : OrderedSet α} {as : List α} {a : α} (h : a ∈ s.newIn as) : a ∈ as := by
  induction as generalizing s with
  | nil => exact h
  | cons b as ih =>
    rw [newIn] at h
    split at h
    · exact List.mem_cons_of_mem _ (ih h)
    · rcases List.mem_cons.mp h with rfl | h
      · exact List.mem_cons_self
      · exact List.mem_cons_of_mem _ (ih h)

theorem mem_ofList {as : List α} {a : α} : a ∈ ofList as ↔ a ∈ as := by
  rw [ofList, mem_insertMany, or_iff_right]
  exact List.not_mem_nil

end OrderedSet

namespace Package

/-- A plain binding that knows of a split around it. -/
def wrap (split : PackageId) (r : Package) : Package :=
  r.mapPlain fun plain => { plain with wrappedBy := plain.wrappedBy.insert split }

theorem wrap_wrap (split : PackageId) (r : Package) : (r.wrap split).wrap split = r.wrap split := by
  obtain ⟨_, _, _, _, _, _, kind⟩ := r
  cases kind with
  | plain plain =>
    have h : (plain.wrappedBy.insert split).insert split = plain.wrappedBy.insert split :=
      OrderedSet.insert_of_mem (OrderedSet.mem_insert.mpr (.inr rfl))
    simp only [wrap, mapPlain, h]
  | split s => rfl
  | problem => rfl

end Package

namespace Environment

/-- Only wrappers differ. -/
structure Rewraps (env after : Environment) : Prop where
  modules : after.modules = env.modules
  types : after.types = env.types
  packages : ∀ p, Package.unwrapped <$> after.package p = Package.unwrapped <$> env.package p

/-- A record of a new split. -/
structure NewSplit (env : Environment) (r : Package) : Prop where
  known : r.known = .empty
  types : r.types = .empty
  missingType : r.missingType = false
  home : ∃ record, env.module r.home = .ok record
  kind : ∃ s, r.kind = .split s ∧ s.relaxed = .empty ∧ env.SoundSplit r.path s

structure Grows (env after : Environment) : Prop where
  modules : after.modules = env.modules
  types : after.types = env.types
  old : ∀ {p r}, env.package p = .ok r → ∃ r', after.package p = .ok r' ∧ r'.unwrapped = r.unwrapped
  new : ∀ {p r}, after.package p = .ok r → (∃ r0, env.package p = .ok r0) ∨ env.NewSplit r

structure Builds (env : Environment) (split : PackageId) (r : Package) (mid : Environment) :
    Prop where
  modules : mid.modules = env.modules
  types : mid.types = env.types
  fresh : ∀ r0, env.package split ≠ .ok r0
  old : ∀ {p r}, env.package p = .ok r → ∃ r', mid.package p = .ok r' ∧ r'.unwrapped = r.unwrapped
  record : mid.package split = .ok r
  only : ∀ {p r'}, mid.package p = .ok r' → p = split ∨ ∃ r0, env.package p = .ok r0

variable {env mid after : Environment} {p q split other : PackageId} {m : ModuleId}
  {r r' ro : Package} {path : Path}

theorem Rewraps.refl (env : Environment) : env.Rewraps env := ⟨rfl, rfl, fun _ => rfl⟩

theorem Rewraps.trans (h : env.Rewraps mid) (h2 : mid.Rewraps after) : env.Rewraps after :=
  ⟨h2.modules.trans h.modules, h2.types.trans h.types,
    fun p => (h2.packages p).trans (h.packages p)⟩

theorem Rewraps.package (h : env.Rewraps after) (hp : env.package p = .ok r) :
    ∃ r', after.package p = .ok r' ∧ r'.unwrapped = r.unwrapped := by
  have h := h.packages p
  rw [hp] at h
  cases ha : after.package p with
  | error e => rw [ha] at h; cases h
  | ok r' =>
    rw [ha] at h
    injection h with h
    exact ⟨r', rfl, h⟩

theorem rewraps_of_setPackage {w : Plain → OrderedSet PackageId}
    (h : env.setPackage p (·.mapPlain fun plain => { plain with wrappedBy := w plain }) = .ok after) :
    env.Rewraps after := by
  refine ⟨modules_setPackage h, types_setPackage h, fun q => ?_⟩
  rw [package_setPackage h]
  split
  · cases env.package q with
    | error e => rfl
    | ok r => exact congrArg Except.ok (Package.unwrapped_mapPlain r w)
  · rfl

/-- Telling bindings that they are wrapped changes their wrappers only. -/
theorem wrapAll_ok (split : PackageId) : ∀ (ps : List PackageId) {env : Environment},
    (∀ p ∈ ps, ∃ r, env.package p = .ok r) →
    ∃ after, Update.wrapAll split ps env = .ok ((), after) ∧ env.Rewraps after ∧
      ∀ p, after.package p = if p ∈ ps then Package.wrap split <$> env.package p else env.package p
  | [], env, _ => ⟨env, rfl, .refl env, fun p => by rw [if_neg List.not_mem_nil]⟩
  | p :: ps, env, h => by
    obtain ⟨r, hr⟩ := h p List.mem_cons_self
    obtain ⟨mid, hmid⟩ := setPackage_ok hr (Package.wrap split)
    have hw : env.Rewraps mid := rewraps_of_setPackage hmid
    obtain ⟨after, hafter, hw2, hpkg⟩ := wrapAll_ok split ps fun q hq => by
      obtain ⟨rq, hrq⟩ := h q (List.mem_cons_of_mem _ hq)
      obtain ⟨r', hr', -⟩ := hw.package hrq
      exact ⟨r', hr'⟩
    refine ⟨after, Update.bind_ok (Update.setPackage_ok hmid) hafter, hw.trans hw2, fun q => ?_⟩
    rw [hpkg, package_setPackage hmid]
    by_cases hq : q = p
    · subst hq
      rw [hr, if_pos rfl, if_pos List.mem_cons_self]
      split
      · exact congrArg Except.ok (Package.wrap_wrap split r)
      · rfl
    · simp only [hq, if_false, List.mem_cons, false_or]

/-! ## Growing by splits -/

theorem Grows.keeps (h : env.Grows after) : env.Keeps after where
  modules m := by rw [module_congr h.modules]
  size := by rw [h.modules]
  types := h.types
  packages hp := by
    obtain ⟨r', hr', e⟩ := h.old hp
    exact ⟨r', hr', Package.bare_eq_of_unwrapped e⟩

theorem Grows.refl (env : Environment) : env.Grows env :=
  ⟨rfl, rfl, fun h => ⟨_, h, rfl⟩, fun h => .inl ⟨_, h⟩⟩

/-- A plain binding is never new. -/
theorem Grows.plain_back (h : env.Grows after) (hp : after.package p = .ok r)
    (hpl : r.isPlain = true) : ∃ r0, env.package p = .ok r0 ∧ r0.bare = r.bare := by
  rcases h.new hp with ⟨r0, hr0⟩ | hn
  · obtain ⟨r', hr', e⟩ := h.old hr0
    cases package_unique hp hr'
    exact ⟨r0, hr0, (Package.bare_eq_of_unwrapped e).symm⟩
  · obtain ⟨s, hk, -⟩ := hn.kind
    have hns := Package.isSplit_of_isPlain hpl
    rw [Package.isSplit_of_kind hk] at hns
    cases hns

theorem Grows.newSplit_back (h : env.Grows mid) (hn : mid.NewSplit r) : env.NewSplit r where
  known := hn.known
  types := hn.types
  missingType := hn.missingType
  home := by
    obtain ⟨record, hr⟩ := hn.home
    exact ⟨record, (module_congr h.modules _).symm.trans hr⟩
  kind := by
    obtain ⟨s, hk, hm, hs⟩ := hn.kind
    refine ⟨s, hk, hm, ?_, ?_⟩
    · intro i hi
      obtain ⟨ri, hri, hpl, hpath⟩ := hs.plain hi
      obtain ⟨r0, hr0, e⟩ := h.plain_back hri hpl
      exact ⟨r0, hr0, (Package.isPlain_eq_of_bare e).trans hpl,
        (Package.path_eq_of_bare e).trans hpath⟩
    · intro k
      rw [hs.declaring]
      constructor
      · rintro ⟨i, hi, ri, hri, rfl⟩
        obtain ⟨ri', hri', hpl, -⟩ := hs.plain hi
        cases package_unique hri hri'
        obtain ⟨r0, hr0, e⟩ := h.plain_back hri hpl
        exact ⟨i, hi, r0, hr0, Package.home_eq_of_bare e⟩
      · rintro ⟨i, hi, r0, hr0, rfl⟩
        obtain ⟨ri, hri, e⟩ := h.keeps.packages hr0
        exact ⟨i, hi, ri, hri, Package.home_eq_of_bare e⟩

theorem Grows.trans (h : env.Grows mid) (h2 : mid.Grows after) : env.Grows after where
  modules := h2.modules.trans h.modules
  types := h2.types.trans h.types
  old hp := by
    obtain ⟨r1, hr1, e1⟩ := h.old hp
    obtain ⟨r2, hr2, e2⟩ := h2.old hr1
    exact ⟨r2, hr2, e2.trans e1⟩
  new {p r} hp := by
    rcases h2.new hp with ⟨r1, hr1⟩ | hn
    · rcases h.new hr1 with ho | hn
      · exact .inl ho
      · right
        obtain ⟨r2, hr2, e2⟩ := h2.old hr1
        rw [hp] at hr2
        cases hr2
        obtain ⟨s, hk, -⟩ := id hn.kind
        rw [Package.eq_of_unwrapped e2 (Package.isSplit_of_kind hk)]
        exact hn
    · exact .inr (h.newSplit_back hn)

/-- What lookups leave alone stays coherent; what they fill in has to be checked. -/
theorem Coherent.later (h : env.Coherent) (hk : env.Keeps after)
    (hnew : ∀ {p r}, after.package p = .ok r → (∃ r0, env.package p = .ok r0) ∨ env.NewSplit r)
    (hentry : ∀ {p r name q}, after.package p = .ok r →
      r.known.get? name = some (.package q) → after.Binds q (.sub r.path name))
    (hmemo : ∀ {p r s name entries q}, after.package p = .ok r → r.kind = .split s →
      s.relaxed.get? name = some (entries, some (.package q)) → after.Binds q (.sub r.path name))
    (hseen : ∀ {m path q}, after.seen m path = some (.package q) → after.Binds q path) :
    after.Coherent where
  reads hm hr := by
    obtain ⟨record, hm', e⟩ := hk.module_back hm
    rw [Module.reads_eq_of_bare e] at hr
    obtain ⟨record', hm'⟩ := h.reads hm' hr
    obtain ⟨record'', hm'', -⟩ := hk.module hm'
    exact ⟨record'', hm''⟩
  declared hd := by
    obtain ⟨r, hr, hpath, hhome, hs⟩ := h.declared (hk.declared.mp hd)
    obtain ⟨r', hr', e⟩ := hk.packages hr
    exact ⟨r', hr', (Package.path_eq_of_bare e).trans hpath, (Package.home_eq_of_bare e).trans hhome,
      (Package.isSplit_eq_of_bare e).trans hs⟩
  own {p r} hp hs := by
    rcases hnew hp with ⟨r0, hr0⟩ | hn
    · obtain ⟨r', hr', e⟩ := hk.packages hr0
      cases package_unique hp hr'
      rw [Package.isSplit_eq_of_bare e] at hs
      rw [Package.home_eq_of_bare e, Package.path_eq_of_bare e, hk.declared]
      exact h.own hr0 hs
    · obtain ⟨s, hkind, -⟩ := hn.kind
      rw [Package.isSplit_of_kind hkind] at hs
      cases hs
  home {p r} hp := by
    rcases hnew hp with ⟨r0, hr0⟩ | hn
    · obtain ⟨r', hr', e⟩ := hk.packages hr0
      cases package_unique hp hr'
      rw [Package.home_eq_of_bare e]
      obtain ⟨record, hm⟩ := h.home hr0
      obtain ⟨record', hm', -⟩ := hk.module hm
      exact ⟨record', hm'⟩
    · obtain ⟨record, hm⟩ := hn.home
      obtain ⟨record', hm', -⟩ := hk.module hm
      exact ⟨record', hm'⟩
  enclosing hd := hk.declares.mpr (h.enclosing (hk.declares.mp hd))
  split {p r s} hp hkind := by
    rcases hnew hp with ⟨r0, hr0⟩ | hn
    · obtain ⟨r', hr', e⟩ := hk.packages hr0
      cases package_unique hp hr'
      have hb := Package.kind_eq_of_bare e
      obtain ⟨s0, hk0⟩ : ∃ s0, r0.kind = .split s0 := Package.kind_of_isSplit
        ((Package.isSplit_eq_of_bare e).symm.trans (Package.isSplit_of_kind hkind))
      rw [hkind, hk0] at hb
      simp only [Kind.bare, Kind.split.injEq, Split.mk.injEq] at hb
      rw [Package.path_eq_of_bare e]
      exact hk.soundSplit (h.split hr0 hk0) hb.1 hb.2.1
    · obtain ⟨s', hk', -, hs⟩ := hn.kind
      rw [hkind] at hk'
      cases hk'
      exact hk.soundSplit hs rfl rfl
  entry := hentry
  memo := hmemo
  seen := hseen
  types {p r name t} hp ht := by
    rcases hnew hp with ⟨r0, hr0⟩ | hn
    · obtain ⟨r', hr', e⟩ := hk.packages hr0
      cases package_unique hp hr'
      rw [Package.types_eq_of_bare e] at ht
      obtain ⟨hpl, ht⟩ := h.types hr0 ht
      refine ⟨(Package.isPlain_eq_of_bare e).trans hpl, ?_⟩
      rw [Package.home_eq_of_bare e, ← ht]
      simp only [typeRecord, hk.types]
    · rw [hn.types] at ht
      cases ht

theorem Grows.coherent (h : env.Grows after) (hc : env.Coherent) : after.Coherent := by
  refine hc.later h.keeps h.new ?_ ?_ ?_
  · intro p r name q hp he
    rcases h.new hp with ⟨r0, hr0⟩ | hn
    · obtain ⟨r', hr', e⟩ := h.old hr0
      cases package_unique hp hr'
      rw [Package.known_eq_of_unwrapped e] at he
      rw [Package.path_eq_of_bare (Package.bare_eq_of_unwrapped e)]
      exact h.keeps.binds (hc.entry hr0 he)
    · rw [hn.known] at he
      cases he
  · intro p r s name entries q hp hk he
    rcases h.new hp with ⟨r0, hr0⟩ | hn
    · obtain ⟨r', hr', e⟩ := h.old hr0
      cases package_unique hp hr'
      have hs := Package.split?_eq_of_unwrapped e
      simp only [Package.split?, hk] at hs
      split at hs
      · next s0 hk0 =>
        cases hs
        rw [Package.path_eq_of_bare (Package.bare_eq_of_unwrapped e)]
        exact h.keeps.binds (hc.memo hr0 hk0 he)
      · cases hs
    · obtain ⟨s', hk', hm, -⟩ := hn.kind
      rw [hk] at hk'
      cases hk'
      rw [hm] at he
      cases he
  · intro m path q hs
    simp only [Environment.seen, module_congr h.modules] at hs
    exact h.keeps.binds (hc.seen hs)

/-! ## One split at a time -/

/-- The record of a split that has these members and parts. -/
def splitRecord (path : Path) (parent : Option PackageId) (home : ModuleId)
    (members : List ModuleId) (parts : List PackageId) : Package :=
  .fresh path parent home (.split ⟨.ofList members, .ofList parts, .empty⟩)

/-- What a new split gathers makes it sound. -/
theorem newSplit_splitRecord (hc : env.Coherent) {parent : Option PackageId} {others : List PackageId}
    (hm : ∃ record, env.module m = .ok record) (hpath : ∀ p ∈ others, env.Binds p path) :
    env.NewSplit (splitRecord path parent m (others.flatMap env.members)
      (others.flatMap env.parts)) where
  known := rfl
  types := rfl
  missingType := rfl
  home := hm
  kind := by
    refine ⟨_, rfl, rfl, ?_, ?_⟩
    · intro i hi
      obtain ⟨p, hp, hi⟩ := List.mem_flatMap.mp (OrderedSet.mem_ofList.mp hi)
      obtain ⟨r, hr, rfl⟩ := hpath p hp
      obtain ⟨ri, hri, hpl, e, -⟩ := hc.parts hr hi
      exact ⟨ri, hri, hpl, e⟩
    · intro k
      rw [OrderedSet.mem_ofList, List.mem_flatMap]
      constructor
      · rintro ⟨p, hp, hk⟩
        obtain ⟨r, hr, -⟩ := hpath p hp
        obtain ⟨i, hi, ri, hri, -, -, e⟩ := hc.members hr hk
        exact ⟨i, OrderedSet.mem_ofList.mpr (List.mem_flatMap.mpr ⟨p, hp, hi⟩), ri, hri, e⟩
      · rintro ⟨i, hi, ri, hri, rfl⟩
        obtain ⟨p, hp, hi⟩ := List.mem_flatMap.mp (OrderedSet.mem_ofList.mp hi)
        obtain ⟨r, hr, -⟩ := hpath p hp
        obtain ⟨ri', hri', -, -, hk⟩ := hc.parts hr hi
        cases package_unique hri hri'
        exact ⟨p, hp, hk⟩

theorem Builds.grows (h : env.Builds split r after) (hn : env.NewSplit r) : env.Grows after where
  modules := h.modules
  types := h.types
  old := h.old
  new hp := by
    rcases h.only hp with rfl | ho
    · rw [h.record] at hp
      cases hp
      exact .inr hn
    · exact .inl ho

end Environment

end SplitPackages
