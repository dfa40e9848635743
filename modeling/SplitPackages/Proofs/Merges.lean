import SplitPackages.Proofs.Combination

/-!
# Merging candidates

`Gathers env primary path ps q`: `q` is what gathering the bindings `ps` gives,
namely a valid binding whose parts are theirs in order of first occurrence. If it
is a split, it has `primary` as its home, and it is not tainted. `Merges` is the
outcome of `combineAll` on candidates that are all present, and `Combines` that
of `combine` on a candidate for what is stored already. The environment only
grows by splits in both.
-/

namespace SplitPackages

namespace Environment

structure Gathers (env : Environment) (primary : ModuleId) (path : Path) (ps : List PackageId)
    (q : PackageId) : Prop where
  binds : ∃ r, env.package q = .ok r ∧ r.path = path ∧ r.isValid = true ∧
    (r.isSplit = true → r.home = primary)
  parts : env.parts q = (OrderedSet.ofList (ps.flatMap env.parts)).toList
  untainted : ∀ {r}, env.package q = .ok r → r.isSplit = true → r.missingType = false

/-- A binding with a single part is that part. -/
def Peeled (env : Environment) (p : PackageId) : Prop := ∀ i, env.parts p = [i] → p = i

/-- The modules that contribute to a reference. -/
def sources (env : Environment) : Ref → List ModuleId
  | .notFound => []
  | .package p => env.members p

/-- The valid bindings among references. -/
def validOf (env : Environment) (refs : List Ref) : List PackageId :=
  (refs.filterMap Ref.package?).filter env.valid

/-- The package references all bind the path. -/
def AllBind (env : Environment) (path : Path) (refs : List Ref) : Prop :=
  ∀ p, .package p ∈ refs → env.Binds p path

/-- What merging references gives: the best of those that are not valid, the only valid one, or
the valid ones gathered. -/
inductive Merges (env : Environment) (primary : ModuleId) (path : Path) (refs : List Ref) :
    Ref → Prop
  | worse {ref : Ref} : env.validOf refs = [] → ref ∈ refs → env.Merges primary path refs ref
  | one {p : PackageId} : env.validOf refs = [p] → env.Merges primary path refs (.package p)
  | many {p q : PackageId} {ps : List PackageId} {result : PackageId} :
      env.validOf refs = p :: q :: ps → env.Gathers primary path (p :: q :: ps) result →
      env.Peeled result → env.Merges primary path refs (.package result)

/-- What combining a binding with what is stored already gives. -/
inductive Combines (env : Environment) (primary : ModuleId) (path : Path) (cur : PackageId)
    (previous : Option Ref) : Ref → Prop
  | fresh : env.Combines primary path cur previous (.package cur)
  | kept {prev : PackageId} : previous = some (.package prev) →
      (env.valid cur = true → ∀ k ∈ env.members cur, k ∈ env.members prev) →
      env.Combines primary path cur previous (.package prev)
  | joined {prev result : PackageId} : previous = some (.package prev) →
      env.valid prev = true → env.valid cur = true → env.Gathers primary path [prev, cur] result →
      env.Combines primary path cur previous (.package result)

variable {env after : Environment} {p q split : PackageId} {m k primary : ModuleId}
  {r : Package} {path : Path} {ps : List PackageId} {refs : List Ref}

/-- The members of a binding are the homes of its parts. -/
theorem Coherent.mem_members_iff (h : env.Coherent) (hp : env.package p = .ok r) :
    k ∈ env.members p ↔ ∃ i ∈ env.parts p, ∃ ri, env.package i = .ok ri ∧ ri.home = k := by
  constructor
  · intro hk
    obtain ⟨i, hi, ri, hri, -, -, e⟩ := h.members hp hk
    exact ⟨i, hi, ri, hri, e⟩
  · rintro ⟨i, hi, ri, hri, rfl⟩
    obtain ⟨ri', hri', -, -, hk⟩ := h.parts hp hi
    cases package_unique hri hri'
    exact hk

theorem Gathers.mem_parts (h : env.Gathers primary path ps q) {i : PackageId} :
    i ∈ env.parts q ↔ ∃ p ∈ ps, i ∈ env.parts p := by
  rw [h.parts, ← List.mem_flatMap]
  exact OrderedSet.mem_ofList

theorem Gathers.members (h : env.Gathers primary path ps q) (hc : env.Coherent)
    (hps : ∀ p ∈ ps, env.Binds p path) : k ∈ env.members q ↔ ∃ p ∈ ps, k ∈ env.members p := by
  obtain ⟨r, hr, -⟩ := h.binds
  rw [hc.mem_members_iff hr]
  constructor
  · rintro ⟨i, hi, ri, hri, e⟩
    obtain ⟨p, hp, hi⟩ := h.mem_parts.mp hi
    obtain ⟨rp, hrp, -⟩ := hps p hp
    exact ⟨p, hp, (hc.mem_members_iff hrp).mpr ⟨i, hi, ri, hri, e⟩⟩
  · rintro ⟨p, hp, hk⟩
    obtain ⟨rp, hrp, -⟩ := hps p hp
    obtain ⟨i, hi, ri, hri, e⟩ := (hc.mem_members_iff hrp).mp hk
    exact ⟨i, h.mem_parts.mpr ⟨p, hp, hi⟩, ri, hri, e⟩

theorem Keeps.parts_flatMap (h : env.Keeps after) (hps : ∀ p ∈ ps, env.Binds p path) :
    ps.flatMap after.parts = ps.flatMap env.parts := by
  rw [List.flatMap_def, List.flatMap_def, List.map_congr_left]
  intro p hp
  obtain ⟨r, hr, -⟩ := hps p hp
  exact h.parts hr

theorem Keeps.gathers (h : env.Keeps after) (hg : env.Gathers primary path ps q)
    (hps : ∀ p ∈ ps, env.Binds p path) : after.Gathers primary path ps q where
  binds := by
    obtain ⟨r, hr, e1, e2, e3⟩ := hg.binds
    obtain ⟨r', hr', e⟩ := h.packages hr
    exact ⟨r', hr', (Package.path_eq_of_bare e).trans e1, (Package.isValid_eq_of_bare e).trans e2,
      fun hs => (Package.home_eq_of_bare e).trans (e3 ((Package.isSplit_eq_of_bare e).symm.trans hs))⟩
  parts := by
    obtain ⟨r, hr, -⟩ := hg.binds
    rw [h.parts hr, h.parts_flatMap hps, hg.parts]
  untainted hr' hs := by
    obtain ⟨r, hr, -⟩ := hg.binds
    obtain ⟨r1, hr1, e⟩ := h.packages hr
    cases package_unique hr' hr1
    exact (Package.missingType_eq_of_bare e).trans
      (hg.untainted hr ((Package.isSplit_eq_of_bare e).symm.trans hs))

/-- A finished split gathers what was added to it. -/
theorem Allots.gathers {parent : Option PackageId} (h : env.Allots primary path parent ps after)
    (hc : env.Coherent) (hm : ∃ record, env.module primary = .ok record)
    (hps : ∀ p ∈ ps, env.Binds p path) :
    after.Gathers primary path ps ⟨env.packages.size⟩ where
  binds := ⟨_, h.record, rfl, rfl, fun _ => rfl⟩
  parts := by
    rw [parts_of_package h.record, (h.grows hc hm hps).keeps.parts_flatMap hps]
    rfl
  untainted hr _ := by
    rw [package_unique hr h.record]
    rfl

/-- The only part of a binding is what gathering it alone gives. -/
theorem Gathers.only (h : env.Gathers primary path ps split) (hc : env.Coherent)
    (honly : env.parts split = [q]) : env.Gathers primary path ps q := by
  obtain ⟨r, hr, hpath, -⟩ := h.binds
  obtain ⟨rq, hrq, hpl, e, -⟩ := hc.parts hr (i := q) (by rw [honly]; exact List.mem_singleton_self q)
  have hns := Package.isSplit_of_isPlain hpl
  refine ⟨⟨rq, hrq, e.trans hpath, Package.isValid_of_isPlain hpl, fun hs => ?_⟩, ?_, fun hr' hs => ?_⟩
  · rw [hns] at hs
    cases hs
  · rw [parts_of_package hrq, Package.contributors_of_isPlain hpl, ← h.parts, honly]
  · cases package_unique hrq hr'
    rw [hns] at hs
    cases hs

/-! ## References as candidates -/

/-- References as candidates, each with its rank. -/
def ranked (env : Environment) (refs : List Ref) : List (Rank × Option Ref) :=
  refs.map fun ref => (env.rankOf ref, some ref)

theorem graded_map (env : Environment) (refs : List Ref) :
    env.graded (refs.map some) = env.ranked refs :=
  List.map_map

theorem validAmong_map (env : Environment) (refs : List Ref) :
    env.validAmong (refs.map some) = env.validOf refs := by
  rw [validAmong, bindings, List.filterMap_map]
  rfl

theorem mem_validOf : p ∈ env.validOf refs ↔ .package p ∈ refs ∧ env.valid p = true := by
  rw [← validAmong_map, mem_validAmong]
  simp only [List.mem_map, Option.some.injEq, exists_eq_right]

theorem AllBind.bindings (hb : env.AllBind path refs) :
    ∀ p ∈ bindings (refs.map some), env.Binds p path := by
  intro p hp
  obtain ⟨ref, href, e⟩ := List.mem_map.mp (mem_bindings.mp hp)
  cases e
  exact hb p href

theorem Keeps.allBind (h : env.Keeps after) (hb : env.AllBind path refs) : after.AllBind path refs :=
  fun p hp => h.binds (hb p hp)

theorem Keeps.validOf (h : env.Keeps after) (hb : env.AllBind path refs) :
    after.validOf refs = env.validOf refs := by
  refine List.filter_congr fun q hq => ?_
  obtain ⟨ref, href, e⟩ := List.mem_filterMap.mp hq
  cases ref with
  | notFound => cases e
  | package q' =>
    cases e
    obtain ⟨rq, hrq, -⟩ := hb q href
    exact h.valid hrq

theorem AllBind.validOf (hb : env.AllBind path refs) : ∀ p ∈ env.validOf refs, env.Binds p path :=
  fun p hp => hb p (mem_validOf.mp hp).1

theorem Keeps.merges (h : env.Keeps after) (hb : env.AllBind path refs) {ref : Ref}
    (hm : env.Merges primary path refs ref) : after.Merges primary path refs ref := by
  have hv := h.validOf hb
  cases hm with
  | worse hnone href => exact .worse (hv.trans hnone) href
  | one hone => exact .one (hv.trans hone)
  | many hmany hg hpeel =>
    refine .many (hv.trans hmany) (h.gathers hg fun p hp => ?_) fun i hi => ?_
    · exact hb.validOf p (hmany ▸ hp)
    · obtain ⟨r, hr, -⟩ := hg.binds
      exact hpeel i ((h.parts hr).symm.trans hi)

/-- What merging gives binds the path. -/
theorem Merges.binds (hm : env.Merges primary path refs (.package q)) (hb : env.AllBind path refs) :
    env.Binds q path := by
  cases hm with
  | worse _ href => exact hb q href
  | one hone => exact hb.validOf q (hone ▸ List.mem_singleton_self q)
  | many _ hg _ =>
    obtain ⟨r, hr, hpath, -⟩ := hg.binds
    exact ⟨r, hr, hpath⟩

theorem Keeps.combines {cur : PackageId} {previous : Option Ref} {ref : Ref} (h : env.Keeps after)
    (hcur : env.Binds cur path)
    (hprev : ∀ prev, previous = some (.package prev) → env.Binds prev path)
    (hm : env.Combines primary path cur previous ref) :
    after.Combines primary path cur previous ref := by
  obtain ⟨rc, hrc, -⟩ := id hcur
  cases hm with
  | fresh => exact .fresh
  | kept hp hsub =>
    obtain ⟨rp, hrp, -⟩ := hprev _ hp
    refine .kept hp fun hv k hk => ?_
    rw [h.members hrp]
    exact hsub ((h.valid hrc).symm.trans hv) k (h.members hrc ▸ hk)
  | joined hp hvp hvc hg =>
    have hprev := hprev _ hp
    obtain ⟨rp, hrp, -⟩ := id hprev
    refine .joined hp ((h.valid hrp).trans hvp) ((h.valid hrc).trans hvc) (h.gathers hg ?_)
    simp [hprev, hcur]

theorem Combines.binds {cur : PackageId} {previous : Option Ref}
    (h : env.Combines primary path cur previous (.package q)) (hcur : env.Binds cur path)
    (hprev : ∀ prev, previous = some (.package prev) → env.Binds prev path) : env.Binds q path := by
  cases h with
  | fresh => exact hcur
  | kept hp => exact hprev q hp
  | joined _ _ _ hg =>
    obtain ⟨r, hr, hpath, -⟩ := hg.binds
    exact ⟨r, hr, hpath⟩

/-! ## What combining gives -/

theorem peeled_of_isPlain {r : Package} (hr : env.package p = .ok r) (hpl : r.isPlain = true) :
    env.Peeled p := by
  intro i hi
  rw [parts_of_package hr, Package.contributors_of_isPlain hpl] at hi
  exact (List.cons.inj hi).1

theorem Collects.merges {result : Option Ref}
    (h : env.Collects primary (refs.map some) result after) (hc : env.Coherent)
    (hm : ∃ record, env.module primary = .ok record) (hb : env.AllBind path refs) :
    result = none ∧ refs = [] ∨ ∃ ref, result = some ref ∧ after.Merges primary path refs ref := by
  have hg := h.grows hc hm hb.bindings
  have hvalid : after.validOf refs = env.validAmong (refs.map some) := by
    rw [hg.keeps.validOf hb, validAmong_map]
  have hbinds (p : PackageId) (hp : p ∈ env.validAmong (refs.map some)) : env.Binds p path :=
    binds_of_mem_validAmong hb.bindings hp
  cases h with
  | nothing e => exact .inl ⟨rfl, List.map_eq_nil_iff.mp e⟩
  | @first before rest _ best hcs _ hne _ hmax =>
    obtain ⟨ref, href, rfl⟩ := List.mem_map.mp (hcs ▸ List.mem_append_right _ List.mem_cons_self)
    refine .inr ⟨ref, rfl, .worse ?_ href⟩
    -- a valid reference would have a better rank than the best one
    rw [hvalid, List.eq_nil_iff_forall_not_mem]
    intro p hp
    obtain ⟨hmem, hv⟩ := mem_validAmong.mp hp
    obtain ⟨other, ho, hle⟩ := hmax _ hmem
    rw [rank_package (hbinds p hp).there] at ho
    cases ho
    exact hne (eq_valid_of_le (grade_valid hv ▸ hle))
  | one hone => exact .inr ⟨_, rfl, .one (hvalid.trans hone)⟩
  | @peeled p q i ps r ri _ hmany honly hri hpl hr ha =>
    have hps (x : PackageId) (hx : x ∈ p :: q :: ps) : env.Binds x path := hbinds x (hmany ▸ hx)
    obtain ⟨r', hr', rfl⟩ := hps p List.mem_cons_self
    cases package_unique hr hr'
    have hgs := ha.gathers hc hm hps
    obtain ⟨ri', hri', e⟩ := hg.keeps.packages hri
    refine .inr ⟨_, rfl, .many (hvalid.trans hmany) (hgs.only (hg.coherent hc) ?_)
      (peeled_of_isPlain hri' ((Package.isPlain_eq_of_bare e).trans hpl))⟩
    rw [parts_of_package ha.record, ← honly, allParts_eq hmany]
    rfl
  | @split p q ps r _ hmany hno hr ha =>
    have hps (x : PackageId) (hx : x ∈ p :: q :: ps) : env.Binds x path := hbinds x (hmany ▸ hx)
    obtain ⟨r', hr', rfl⟩ := hps p List.mem_cons_self
    cases package_unique hr hr'
    refine .inr ⟨_, rfl, .many (hvalid.trans hmany) (ha.gathers hc hm hps) fun i hi => ?_⟩
    rw [parts_of_package ha.record] at hi
    exact absurd ((allParts_eq hmany).trans hi) (hno i)

/-- A binding that is chosen over another or together with it. -/
theorem Chooses.combines {prev cur : PackageId} (h : env.Chooses primary prev cur q after)
    (hc : env.Coherent) (hm : ∃ record, env.module primary = .ok record)
    (hprev : env.Binds prev path) (hcur : env.Binds cur path) (hvp : env.valid prev = true)
    (hvc : env.valid cur = true) :
    after.Combines primary path cur (some (.package prev)) (.package q) := by
  cases h with
  | first hsub =>
    obtain ⟨b, hb, hmembers⟩ := subsumes_ok hprev hcur
    cases hsub.symm.trans hb
    exact .kept rfl (hmembers rfl)
  | second => exact .fresh
  | split _ _ hr ha =>
    have hbs : ∀ p ∈ [prev, cur], env.Binds p path := by simp [hprev, hcur]
    obtain ⟨r, hr', rfl⟩ := hprev
    obtain ⟨rc, hrc, -⟩ := hcur
    cases package_unique hr hr'
    have hk := (ha.grows hc hm hbs).keeps
    exact .joined rfl ((hk.valid hr).trans hvp) ((hk.valid hrc).trans hvc) (ha.gathers hc hm hbs)

end Environment

namespace Lookup

open Environment

variable {env : Environment} {primary : ModuleId} {path : Path}

/-- Merging references that all bind the path. -/
theorem combineAll_spec {refs : List Ref} (hc : env.Coherent)
    (hm : ∃ record, env.module primary = .ok record) (hb : env.AllBind path refs) :
    (combineAll (refs.map some) primary).Ensures env fun result after =>
      env.Grows after ∧
        (result = none ∧ refs = [] ∨ ∃ ref, result = some ref ∧ after.Merges primary path refs ref) :=
  (combineAll_collects hc hb.bindings primary).mono fun _ _ h =>
    ⟨h.grows hc hm hb.bindings, h.merges hc hm hb⟩

/-- Combining a binding with what is stored already, if anything is. -/
theorem combine_spec {cur : PackageId} (hc : env.Coherent)
    (hm : ∃ record, env.module primary = .ok record) (hcur : env.Binds cur path)
    (previous : Option Ref)
    (hprev : ∀ prev, previous = some (.package prev) → env.Binds prev path) :
    (combine (some (.package cur)) previous primary).Ensures env fun result after =>
      env.Grows after ∧
        ∃ ref, result = some ref ∧ after.Combines primary path cur previous ref := by
  by_cases hboth : env.grade previous = .valid ∧ env.rankOf (.package cur) = .valid
  · obtain ⟨prev, rfl, hvp⟩ := eq_package_of_grade hboth.1
    obtain ⟨_, ⟨⟩, hvc⟩ := eq_package_of_grade (c := some (.package cur)) hboth.2
    have hprev := hprev prev rfl
    refine (combine_chooses hc hprev hcur hvp hvc primary).mono ?_
    rintro _ after ⟨q, rfl, h⟩
    exact ⟨h.grows hc hm hprev hcur, _, rfl, h.combines hc hm hprev hcur hvp hvc⟩
  · have hgives := combine_better (rank_grade fun p e => (hprev p e).there)
      (rank_package hcur.there) hboth primary
    refine ⟨_, env, hgives, .refl env, ?_⟩
    split
    · exact ⟨_, rfl, .fresh⟩
    · next hge =>
      -- what is kept is not worse than a problem, so it is a binding, and if the new one is valid
      -- it is valid too
      have hproblem : Rank.problem.toNat ≤ (env.rankOf (.package cur)).toNat := by
        by_cases hv : env.valid cur = true <;> simp [rankOf, hv, Rank.toNat]
      rcases previous with _ | _ | prev
      · exact absurd (Nat.lt_of_lt_of_le (show Rank.absent.toNat < _ by decide) hproblem) hge
      · exact absurd (Nat.lt_of_lt_of_le (show Rank.notFound.toNat < _ by decide) hproblem) hge
      · refine ⟨_, rfl, .kept rfl fun hv => ?_⟩
        have hnow : env.rankOf (.package cur) = .valid := grade_valid hv
        rw [hnow] at hge
        exact absurd ⟨eq_valid_of_le (Nat.le_of_not_lt hge), hnow⟩ hboth

end Lookup

end SplitPackages
