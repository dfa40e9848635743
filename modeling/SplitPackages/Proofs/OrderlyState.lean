import Mathlib.Data.List.Perm.Subperm
import SplitPackages.Combine
import SplitPackages.Proofs.Persistence

/-!
# Orderly environments

What holds of the bindings that are stored depends on what callers keep to. A
`Discipline` says what that is: to combine bindings with bindings of their path,
and to pass on only splits that are worth it. `Fits` is what it makes of a
binding, and an environment is `Orderly` if the graph is sound, bindings,
incarnations and wrappers agree, and whatever is stored fits.

The four changes that lookups make keep an environment orderly, each as far as
what it adds fits: to allot a split (`allot_stores`), to add to one
(`Joins.stores`), to fill the caches of a binding (`Touches.stores`) and to
remember what a module sees (`Remembers.proceeds`). They also keep what a split
knows already (`Settles`), unless it is said otherwise.
-/

namespace SplitPackages

/-- What callers keep to. -/
structure Discipline where
  /-- Bindings are combined with bindings of their path, and stored below one that encloses it. -/
  paths : Prop
  /-- Splits are passed on only with two incarnations, as far as that is possible at all. -/
  full : Prop

namespace Environment

/-- If it is a split, it has at least two incarnations. -/
def Full (env : Environment) (p : PackageId) : Prop :=
  ∀ r, env.package p = .ok r → r.isSplit = true → 2 ≤ r.incarnations.length

/-- Two members of a split see two different bindings at the path of a package below it, of which
one is a problem and the other not a split. -/
def Hollow (env : Environment) : Prop :=
  ∃ c r name, env.package c = .ok r ∧ r.isSplit = true ∧
    ∃ d ∈ r.declaring, ∃ d' ∈ r.declaring, ∃ b b' rb rb',
      env.seen d (.sub r.path name) = some (.package b) ∧
      env.seen d' (.sub r.path name) = some (.package b') ∧ b ≠ b' ∧
      env.package b = .ok rb ∧ rb.isValid = false ∧ env.package b' = .ok rb' ∧ rb'.isSplit = false

/-- A binding that may be stored or handed out for the path. -/
def Fits (env : Environment) (d : Discipline) (path : Path) (p : PackageId) : Prop :=
  ∃ r, env.package p = .ok r ∧ (d.paths → r.path = path) ∧ (d.full → env.Full p ∨ env.Hollow)

def AllFit (env : Environment) (d : Discipline) (path : Path) (ps : List PackageId) : Prop :=
  ∀ p ∈ ps, env.Fits d path p

structure Orderly (env : Environment) (d : Discipline) : Prop where
  graph : env.Graph
  hung : env.Hung
  wired : env.Wired
  placed : d.paths → ∀ {p r i ri}, env.package p = .ok r → i ∈ r.incarnations →
    env.package i = .ok ri → ri.path = r.path
  entry : ∀ {p r name q}, env.package p = .ok r → r.known.get? name = some (.package q) →
    env.Fits d (.sub r.path name) q
  memo : ∀ {p r name refs result}, env.package p = .ok r → r.memo name = some (refs, result) →
    env.AllFit d (.sub r.path name) (bindings (result :: refs.map some))
  seen : ∀ {m path q}, env.seen m path = some (.package q) → env.Fits d path q
  enclosed : ∀ {m path name q}, env.seen m (.sub path name) = some (.package q) →
    ∃ above, env.seen m path = some (.package above)

/-- What the splits know is still known, except perhaps in one place. -/
def Settles (env : Environment) (slot : Option (PackageId × String)) (after : Environment) : Prop :=
  ∀ c r name ref, env.package c = .ok r → r.isSplit = true → slot ≠ some (c, name) →
    env.entry c name = some ref → after.entry c name = some ref

/-- A lookup goes on from an orderly environment to an orderly one. -/
structure Proceeds (env : Environment) (d : Discipline) (slot : Option (PackageId × String))
    (after : Environment) : Prop where
  orderly : after.Orderly d
  advances : env.Advances after
  settles : d.paths → env.Settles slot after

/-- It does so without a change to any module. -/
structure Stores (env : Environment) (d : Discipline) (slot : Option (PackageId × String))
    (after : Environment) : Prop extends env.Proceeds d slot after where
  modules : after.modules = env.modules

variable {env mid after : Environment} {d : Discipline} {slot : Option (PackageId × String)}
  {c i p q split other : PackageId} {m k : ModuleId} {r r' rs ro : Package} {s : Split}
  {path : Path} {name : String} {ref : Ref}

/-! ## What fits -/

theorem two_le_length_of_subset {α : Type} {l l' : List α} (hnd : l.Nodup) (hsub : ∀ a ∈ l, a ∈ l')
    (h : 2 ≤ l.length) : 2 ≤ l'.length :=
  Nat.le_trans h (List.subperm_of_subset hnd hsub).length_le

theorem Advances.full (h : env.Advances after) (hp : env.package p = .ok r) (hf : env.Full p) :
    after.Full p := by
  intro r' hr' hs
  have e := h.record hp hr'
  exact two_le_length_of_subset r.incarnations_nodup e.incarnations
    (hf r hp (e.isSplit.symm.trans hs))

theorem Advances.hollow (h : env.Advances after) (hh : env.Hollow) : after.Hollow := by
  obtain ⟨c, r, name, hr, hs, d, hd, d', hd', b, b', rb, rb', hb, hb', hne, hrb, hv, hrb', hs'⟩ := hh
  obtain ⟨r1, hr1, e⟩ := h.package hr
  obtain ⟨rb1, hrb1, eb⟩ := h.package hrb
  obtain ⟨rb1', hrb1', eb'⟩ := h.package hrb'
  rw [← e.path] at hb hb'
  exact ⟨c, r1, name, hr1, e.isSplit.trans hs, d, e.declaring d hd, d', e.declaring d' hd', b, b',
    rb1, rb1', h.seen hb, h.seen hb', hne, hrb1, eb.isValid.trans hv, hrb1', eb'.isSplit.trans hs'⟩

theorem Fits.later (h : env.Fits d path p) (ha : env.Advances after) : after.Fits d path p := by
  obtain ⟨r, hr, hpath, hfull⟩ := h
  obtain ⟨r', hr', e⟩ := ha.package hr
  exact ⟨r', hr', fun hd => e.path.trans (hpath hd), fun hd => (hfull hd).imp (ha.full hr) ha.hollow⟩

theorem AllFit.later {ps : List PackageId} (h : env.AllFit d path ps) (ha : env.Advances after) :
    after.AllFit d path ps :=
  fun p hp => (h p hp).later ha

theorem Fits.cast {path' : Path} (h : env.Fits d path p) (e : d.paths → path = path') :
    env.Fits d path' p := by
  obtain ⟨r, hr, hpath, hfull⟩ := h
  exact ⟨r, hr, fun hd => (hpath hd).trans (e hd), hfull⟩

theorem AllFit.cast {path' : Path} {ps : List PackageId} (h : env.AllFit d path ps)
    (e : d.paths → path = path') : env.AllFit d path' ps :=
  fun p hp => (h p hp).cast e

/-- A binding that is not a split fits its path. -/
theorem fits_of_single (hp : env.package p = .ok r) (hs : r.isSplit = false)
    (hpath : d.paths → r.path = path) : env.Fits d path p := by
  refine ⟨r, hp, hpath, fun _ => .inl fun r' hr' hs' => ?_⟩
  cases package_unique hp hr'
  rw [hs] at hs'
  cases hs'

theorem Fits.path_eq (h : env.Fits d path p) (hp : env.package p = .ok r) (hd : d.paths) :
    r.path = path := by
  obtain ⟨r', hr', hpath, -⟩ := h
  cases package_unique hp hr'
  exact hpath hd

/-- A binding is stored under the last segment of its path. -/
theorem Fits.name_eq (h : env.Fits d (.sub path name) p) (hp : env.package p = .ok r)
    (hd : d.paths) : r.path.simpleName = name := by
  rw [h.path_eq hp hd]
  rfl

/-- What a module declares fits. -/
theorem Orderly.fits_declared (ho : env.Orderly d) (hd : env.declared m path = .ok (some p)) :
    env.Fits d path p := by
  obtain ⟨r, hr, hpath, -, hs⟩ := ho.graph.declared hd
  exact fits_of_single hr hs fun _ => hpath

/-- The parts of a binding fit where the binding does. -/
theorem Orderly.fits_contributor (ho : env.Orderly d) (hp : env.package p = .ok r)
    (hi : i ∈ r.contributors p) : env.Fits d r.path i := by
  obtain ⟨ri, hri, hpl⟩ := ho.wired.plain_of_mem_contributors hp hi
  refine fits_of_single hri (Package.isSplit_of_isPlain hpl) fun hd => ?_
  rcases Package.mem_contributors.mp hi with ⟨-, rfl⟩ | hi
  · cases package_unique hp hri
    rfl
  · exact ho.placed hd hp hi hri

/-! ## Going on -/

theorem Settles.weaken (h : env.Settles none after) : env.Settles slot after :=
  fun c r name ref hc hs _ he => h c r name ref hc hs (Option.some_ne_none _).symm he

/-- Only splits settle. -/
theorem Settles.single (h : env.Settles (some (c, name)) after) (hr : env.package c = .ok r)
    (hs : r.isSplit = false) : env.Settles none after := by
  intro c' r' name' ref hc hs' _ he
  refine h c' r' name' ref hc hs' (fun e => ?_) he
  cases e
  cases package_unique hr hc
  rw [hs] at hs'
  cases hs'

/-- The exception is none if there was nothing in its place. -/
theorem Settles.fresh (h : env.Settles (some (c, name)) after) (hnone : env.entry c name = none) :
    env.Settles none after := by
  intro c' r name' ref hc hs _ he
  refine h c' r name' ref hc hs (fun e => ?_) he
  cases e
  rw [hnone] at he
  cases he

theorem Orderly.proceeds (ho : env.Orderly d) : env.Proceeds d slot env :=
  ⟨ho, .refl env, fun _ _ _ _ _ _ _ _ he => he⟩

theorem Proceeds.trans (h : env.Proceeds d slot mid) (h2 : mid.Proceeds d slot after) :
    env.Proceeds d slot after where
  orderly := h2.orderly
  advances := h.advances.trans h2.advances
  settles hd c r name ref hc hs hslot he := by
    obtain ⟨r', hr', e⟩ := h.advances.package hc
    exact h2.settles hd c r' name ref hr' (e.isSplit.trans hs) hslot
      (h.settles hd c r name ref hc hs hslot he)

theorem Proceeds.weaken (h : env.Proceeds d none after) : env.Proceeds d slot after :=
  ⟨h.orderly, h.advances, fun hd => (h.settles hd).weaken⟩

theorem Proceeds.fresh (h : env.Proceeds d (some (c, name)) after)
    (hnone : env.entry c name = none) : env.Proceeds d none after :=
  ⟨h.orderly, h.advances, fun hd => (h.settles hd).fresh hnone⟩

theorem Orderly.stores (ho : env.Orderly d) : env.Stores d slot env := ⟨ho.proceeds, rfl⟩

theorem Stores.trans (h : env.Stores d slot mid) (h2 : mid.Stores d slot after) :
    env.Stores d slot after :=
  ⟨h.toProceeds.trans h2.toProceeds, h2.modules.trans h.modules⟩

theorem Stores.weaken (h : env.Stores d none after) : env.Stores d slot after :=
  ⟨h.toProceeds.weaken, h.modules⟩

theorem Stores.fresh (h : env.Stores d (some (c, name)) after) (hnone : env.entry c name = none) :
    env.Stores d none after :=
  ⟨h.toProceeds.fresh hnone, h.modules⟩

theorem Stores.single (h : env.Stores d (some (c, name)) after) (hr : env.package c = .ok r)
    (hs : r.isSplit = false) : env.Stores d none after :=
  ⟨⟨h.orderly, h.advances, fun hd => (h.settles hd).single hr hs⟩, h.modules⟩

theorem Stores.rename {x : String} (h : env.Stores d (some (c, x)) after) (e : d.paths → x = name) :
    env.Stores d (some (c, name)) after :=
  ⟨⟨h.orderly, h.advances, fun hd => e hd ▸ h.settles hd⟩, h.modules⟩

theorem Stores.seen (h : env.Stores d slot after) (m : ModuleId) (path : Path) :
    after.seen m path = env.seen m path := by
  simp only [Environment.seen, module_congr h.modules]

theorem Stores.module (h : env.Stores d slot after) (hm : ∃ record, env.module m = .ok record) :
    ∃ record, after.module m = .ok record :=
  h.advances.module_ok hm

/-! ## Allotting a split -/

theorem allot_stores (ho : env.Orderly d) (hq : env.package q = .ok r)
    (hm : ∃ record, env.module m = .ok record) :
    env.Stores d none { env with
      packages := env.packages.push (.fresh r.path r.parent m (.split .empty)) } := by
  let fresh : Package := .fresh r.path r.parent m (.split .empty)
  let after : Environment := { env with packages := env.packages.push fresh }
  have hpkg (p : PackageId) : after.package p =
      if p.index = env.packages.size then .ok fresh else env.package p := package_push env fresh p
  have hold {p : PackageId} {r : Package} (hp : env.package p = .ok r) : after.package p = .ok r := by
    rw [hpkg, if_neg (Nat.ne_of_lt (lt_size_of_package hp)), hp]
  have hback {p : PackageId} {r' : Package} (hp : after.package p = .ok r') :
      env.package p = .ok r' ∨ r' = fresh := by
    rw [hpkg] at hp
    split at hp
    · exact .inr (Except.ok.inj hp).symm
    · exact .inl hp
  have hs : env.Sustains after := by
    refine ⟨fun _ => rfl, rfl, fun hp => ⟨_, hold hp, .refl _, rfl⟩, fun hp => ?_⟩
    rcases hback hp with hp | rfl
    · exact .inl ⟨_, hp⟩
    · exact .inr ⟨rfl, rfl, hm, q, r, hq, rfl, rfl⟩
  have ha : env.Advances after := hs.advances fun h => h
  refine ⟨⟨⟨hs.graph ho.graph, hs.hung ho.hung, ?_, fun hd => ?_, ?_, ?_, ?_, ho.enclosed⟩, ha, ?_⟩,
    rfl⟩
  · refine ho.wired.of_alike (fun hp => ⟨_, hold hp, .refl _⟩) fun hp => ?_
    rcases hback hp with hp | rfl
    · exact .inl ⟨_, hp⟩
    · exact .inr ⟨rfl, rfl, fun _ => rfl⟩
  · intro p rp i ri hp hi hri
    rcases hback hp with hp | rfl
    · obtain ⟨ri', hri', -⟩ := ho.wired.plain_of_mem hp hi
      cases package_unique hri (hold hri')
      exact ho.placed hd hp hi hri'
    · cases hi
  · intro p rp name q hp he
    rcases hback hp with hp | rfl
    · exact (ho.entry hp he).later ha
    · cases he
  · intro p rp name refs result hp he
    rcases hback hp with hp | rfl
    · exact (ho.memo hp he).later ha
    · cases he
  · exact fun hs => (ho.seen hs).later ha
  · intro _ c rc name ref hc _ _ he
    rw [entry_of_package (hold hc), ← entry_of_package hc]
    exact he

/-! ## Adding to a split -/

namespace Joins

/-- Every record is what it was, but for its ties. -/
theorem package (h : env.Joins split other rs ro s after) (hp : env.package p = .ok r) :
    ∃ r', after.package p = .ok r' ∧ r.Advances r' ∧ r'.types = r.types ∧ r'.known = r.known ∧
      r'.memo = r.memo := by
  by_cases hne : p = split
  · subst hne
    cases package_unique h.target hp
    refine ⟨_, h.now, ⟨rfl, rfl, rfl, ?_, ?_, ?_, ?_⟩, rfl, rfl, ?_⟩
    · simp only [Package.isPlain, Package.plain?, h.kind]
    · simp only [Package.isSplit, Package.split?, h.kind]; rfl
    · intro i hi
      simp only [Package.incarnations, h.kind] at hi ⊢
      exact OrderedSet.mem_insertMany.mpr (.inl hi)
    · intro k hk
      simp only [Package.declaring, h.kind] at hk ⊢
      exact OrderedSet.mem_insertMany.mpr (.inl hk)
    · funext name
      simp only [Package.memo, Package.split?, h.kind, Option.bind_some]
  · rcases h.beside hne with e | ⟨r0, hr0, e⟩
    · exact ⟨r, e.trans hp, .refl r, rfl, rfl, rfl⟩
    · cases package_unique hp hr0
      obtain ⟨-, -, -, hknown, htypes, -, hsplit⟩ := Package.wrap_eq split r
      refine ⟨_, e, Package.wrap_advances split r, htypes, hknown, ?_⟩
      funext name
      simp only [Package.memo, hsplit]

theorem sustains (h : env.Joins split other rs ro s after) : env.Sustains after where
  modules m := by rw [module_congr h.modules]
  types := h.types
  old hp := by
    obtain ⟨r', hr', e, htypes, -⟩ := h.package hp
    exact ⟨r', hr', e, htypes⟩
  new hp := .inl (h.package_back hp)

theorem stores (h : env.Joins split other rs ro s after) (ho : env.Orderly d)
    (hpath : d.paths → ro.path = rs.path) : env.Stores d none after := by
  have hseen (m : ModuleId) (path : Path) : after.seen m path = env.seen m path := by
    simp only [Environment.seen, module_congr h.modules]
  have ha : env.Advances after := h.sustains.advances fun hs => (hseen _ _).trans hs
  have hback {p : PackageId} {r : Package} (hp : after.package p = .ok r) :
      ∃ r0, env.package p = .ok r0 ∧ r.path = r0.path ∧ r.known = r0.known ∧ r.memo = r0.memo := by
    obtain ⟨r0, hr0⟩ := h.package_back hp
    obtain ⟨r', hr', e, -, hk, hm⟩ := h.package hr0
    cases package_unique hp hr'
    exact ⟨r0, hr0, e.path, hk, hm⟩
  refine ⟨⟨⟨h.sustains.graph ho.graph, h.sustains.hung ho.hung, h.wired ho.wired, fun hd => ?_,
    ?_, ?_, ?_, ?_⟩, ha, ?_⟩, h.modules⟩
  · intro p r i ri hp hi hri
    obtain ⟨ri0, hri0, hpathi, -⟩ := hback hri
    obtain ⟨r0, hr0, hpath0, -⟩ := hback hp
    rw [hpathi, hpath0]
    by_cases hne : p = split
    · subst hne
      cases package_unique h.target hr0
      rw [← incarnationsOf_of_package hp, h.mem_incarnationsOf] at hi
      rcases hi with hi | hi
      · exact ho.placed hd h.target (incarnationsOf_of_package h.target ▸ hi) hri0
      · obtain ⟨r1, hr1, hpath1, -⟩ := ho.fits_contributor h.source hi
        cases package_unique hri0 hr1
        exact (hpath1 hd).trans (hpath hd)
    · refine ho.placed hd hr0 ?_ hri0
      rwa [← incarnationsOf_of_package hr0, ← h.incarnationsOf_ne hne, incarnationsOf_of_package hp]
  · intro p r name q hp he
    obtain ⟨r0, hr0, hpath0, hk, -⟩ := hback hp
    rw [hpath0]
    exact (ho.entry hr0 (hk ▸ he)).later ha
  · intro p r name refs result hp he
    obtain ⟨r0, hr0, hpath0, -, hm⟩ := hback hp
    rw [hpath0]
    exact (ho.memo hr0 (hm ▸ he)).later ha
  · intro m path q hs
    exact (ho.seen ((hseen _ _).symm.trans hs)).later ha
  · intro m path name q hs
    obtain ⟨above, hs⟩ := ho.enclosed ((hseen _ _).symm.trans hs)
    exact ⟨above, (hseen _ _).trans hs⟩
  · intro _ c rc name ref hc _ _ he
    obtain ⟨r', hr', -, -, hk, -⟩ := h.package hc
    rw [entry_of_package hr', hk, ← entry_of_package hc]
    exact he

end Joins

/-! ## Filling caches -/

namespace Touches

theorem sustains (h : env.Touches c r r' after) : env.Sustains after where
  modules m := by rw [module_congr h.modules]
  types := h.types
  old {p r0} hp := by
    obtain ⟨r1, hr1, e⟩ := h.keeps.packages hp
    refine ⟨r1, hr1, ⟨Package.path_eq_of_bare e, ?_, Package.home_eq_of_bare e,
      Package.isPlain_eq_of_bare e, Package.isSplit_eq_of_bare e, ?_, ?_⟩,
      Package.types_eq_of_bare e⟩
    · exact show r1.bare.parent = r0.bare.parent from e ▸ rfl
    · rw [Package.incarnations_eq_of_bare e]
      exact fun _ hi => hi
    · rw [Package.declaring_eq_of_bare e]
      exact fun _ hk => hk
  new hp := .inl (h.package_back hp)

/-- The caches of a binding may be filled with what fits. -/
theorem stores (h : env.Touches c r r' after) (ho : env.Orderly d)
    (hwrapped : r'.wrappedBy = r.wrappedBy)
    (hentry : ∀ {name q}, r'.known.get? name = some (.package q) → env.Fits d (.sub r.path name) q)
    (hmemo : ∀ {name refs result}, r'.memo name = some (refs, result) →
      env.AllFit d (.sub r.path name) (bindings (result :: refs.map some)))
    (hsettles : d.paths → env.Settles slot after) : env.Stores d slot after := by
  have ha : env.Advances after := h.sustains.advances fun hs => (h.seen _ _).trans hs
  have hpath : r'.path = r.path := Package.path_eq_of_bare h.bare
  refine ⟨⟨⟨h.sustains.graph ho.graph, h.sustains.hung ho.hung, ?_, fun hd => ?_, ?_, ?_, ?_, ?_⟩,
    ha, hsettles⟩, h.modules⟩
  · refine ho.wired.of_alike (fun {p r0} hp => ?_) fun hp => .inl (h.package_back hp)
    by_cases hne : p = c
    · subst hne
      cases package_unique h.before hp
      have hb := h.bare
      exact ⟨r', h.now, Package.home_eq_of_bare hb, Package.isPlain_eq_of_bare hb,
        Package.isSplit_eq_of_bare hb, Package.incarnations_eq_of_bare hb,
        Package.declaring_eq_of_bare hb, hwrapped⟩
    · exact ⟨r0, (h.others hne).trans hp, .refl r0⟩
  · intro p rp i ri hp hi hri
    obtain ⟨rp0, hrp0⟩ := h.package_back hp
    obtain ⟨ri0, hri0⟩ := h.package_back hri
    obtain ⟨rp1, hrp1, ep⟩ := h.keeps.packages hrp0
    obtain ⟨ri1, hri1, ei⟩ := h.keeps.packages hri0
    cases package_unique hp hrp1
    cases package_unique hri hri1
    rw [Package.path_eq_of_bare ei, Package.path_eq_of_bare ep]
    exact ho.placed hd hrp0 (Package.incarnations_eq_of_bare ep ▸ hi) hri0
  · intro p rp name q hp he
    by_cases hne : p = c
    · subst hne
      cases package_unique h.now hp
      rw [hpath]
      exact (hentry he).later ha
    · exact (ho.entry ((h.others hne).symm.trans hp) he).later ha
  · intro p rp name refs result hp he
    by_cases hne : p = c
    · subst hne
      cases package_unique h.now hp
      rw [hpath]
      exact (hmemo he).later ha
    · exact (ho.memo ((h.others hne).symm.trans hp) he).later ha
  · intro m path q hs
    exact (ho.seen ((h.seen _ _).symm.trans hs)).later ha
  · intro m path name q hs
    obtain ⟨above, hs⟩ := ho.enclosed ((h.seen _ _).symm.trans hs)
    exact ⟨above, (h.seen _ _).trans hs⟩

end Touches

/-! ## Remembering -/

/-- What fits may be remembered, if the module sees a package at the enclosing path. -/
theorem Remembers.proceeds (h : env.Remembers m path ref after) (ho : env.Orderly d)
    (hnone : env.seen m path = none) (hfit : env.AllFit d path (bindings [some ref]))
    (habove : ∀ above name q, path = .sub above name → ref = .package q →
      ∃ c, env.seen m above = some (.package c)) : env.Proceeds d none after := by
  have hseen {k : ModuleId} {other : Path} {ref' : Ref} (hs : env.seen k other = some ref') :
      after.seen k other = some ref' := by
    rw [h.seen, if_neg ?_]
    · exact hs
    · rintro ⟨rfl, rfl⟩
      rw [hnone] at hs
      cases hs
  have hsus : env.Sustains after :=
    ⟨h.modules, types_setModule h, fun hp => ⟨_, (h.package _).trans hp, .refl _, rfl⟩,
      fun hp => .inl ⟨_, (h.package _).symm.trans hp⟩⟩
  have ha : env.Advances after := hsus.advances hseen
  refine ⟨⟨hsus.graph ho.graph, hsus.hung ho.hung, ?_, fun hd => ?_, ?_, ?_, ?_, ?_⟩, ha, ?_⟩
  · exact ho.wired.of_alike (fun hp => ⟨_, (h.package _).trans hp, .refl _⟩)
      fun hp => .inl ⟨_, (h.package _).symm.trans hp⟩
  · intro p r i ri hp hi hri
    exact ho.placed hd ((h.package _).symm.trans hp) hi ((h.package _).symm.trans hri)
  · exact fun hp he => (ho.entry ((h.package _).symm.trans hp) he).later ha
  · exact fun hp he => (ho.memo ((h.package _).symm.trans hp) he).later ha
  · intro k other q hs
    rw [h.seen] at hs
    split at hs
    · next e =>
      cases hs
      rw [e.2]
      exact (hfit q List.mem_cons_self).later ha
    · exact (ho.seen hs).later ha
  · intro k above name q hs
    rw [h.seen] at hs
    split at hs
    · next e =>
      cases hs
      obtain ⟨c, hc⟩ := habove above name q e.2.symm rfl
      exact ⟨c, hseen (e.1 ▸ hc)⟩
    · obtain ⟨c, hc⟩ := ho.enclosed hs
      exact ⟨c, hseen hc⟩
  · intro _ c rc name ref' _ _ _ he
    rw [h.entry]
    exact he

/-! ## Building -/

theorem Raise.orderly (h : env.Raise after) (ho : env.Orderly d) : after.Orderly d := by
  have ha := h.advances
  have hx := h.extends
  have hback {p : PackageId} {r : Package} (hp : after.package p = .ok r) :
      (∃ r0, env.package p = .ok r0 ∧ r0.Extends r) ∨ r.known = .empty ∧ r.isSplit = false := by
    refine (hx.newPackage hp).imp_left ?_
    rintro ⟨r0, hr0⟩
    obtain ⟨r', hr', e⟩ := hx.package hr0
    cases package_unique hp hr'
    exact ⟨r0, hr0, e⟩
  refine ⟨h.graph ho.graph, h.hung ho.graph ho.hung, h.wired ho.wired, fun hd => ?_, ?_, ?_, ?_, ?_⟩
  · intro p r i ri hp hi hri
    rcases hback hp with ⟨r0, hr0, e⟩ | ⟨-, hs⟩
    · rw [e.incarnations] at hi
      obtain ⟨ri0, hri0, -⟩ := ho.wired.plain_of_mem hr0 hi
      rw [(ha.record hri0 hri).path, e.path]
      exact ho.placed hd hr0 hi hri0
    · rw [Package.incarnations_of_not_isSplit hs] at hi
      cases hi
  · intro p r name q hp he
    rcases hback hp with ⟨r0, hr0, e⟩ | ⟨hempty, -⟩
    · rw [e.path]
      exact (ho.entry hr0 (e.known ▸ he)).later ha
    · rw [hempty] at he
      cases he
  · intro p r name refs result hp he
    rcases hback hp with ⟨r0, hr0, e⟩ | ⟨-, hs⟩
    · have hmemo : r.memo name = r0.memo name := by simp only [Package.memo, e.split]
      rw [e.path]
      exact (ho.memo hr0 (hmemo ▸ he)).later ha
    · obtain ⟨s, hk, -⟩ := Option.bind_eq_some_iff.mp he
      simp only [Package.isSplit, hk, Option.isSome_some, Bool.true_eq_false] at hs
  · intro m path q hs
    exact (ho.seen ((hx.seen _ _).symm.trans hs)).later ha
  · intro m path name q hs
    obtain ⟨above, hs⟩ := ho.enclosed ((hx.seen _ _).symm.trans hs)
    exact ⟨above, (hx.seen _ _).trans hs⟩

theorem Raises.orderly (h : env.Raises after) (ho : env.Orderly d) :
    after.Orderly d ∧ env.Advances after := by
  induction h with
  | refl => exact ⟨ho, .refl env⟩
  | tail _ hstep ih => exact ⟨hstep.orderly ih.1, ih.2.trans hstep.advances⟩

end Environment

end SplitPackages
