import SplitPackages.Proofs.CandidateJoin
import SplitPackages.Proofs.TaintedSearch

/-!
# What registering below a split leaves

Registering a valid child below a split gives the child together with what the
other modules of the split declare at its path, and stores that together with
what the split knew before. The module on whose behalf it is done is left out,
and so are problems. Of each module that contributes both to the split and to
the child, only the child's own home gets its tree linked.

`addChild_below_split` says so of the parts of the bindings, and that nothing
else is written: no other entry, no view, and no part of any binding.
-/

namespace SplitPackages

namespace Environment

/-- What registering the child `c` below the split `s` on behalf of `m` leaves, if it gives `e`. -/
structure Enlisted (env : Environment) (s c : PackageId) (home m : ModuleId) (path : Path)
    (name : String) (e : PackageId) (after : Environment) : Prop where
  /-- The parts of the child, and what the other modules of the split declare. -/
  parts : ∀ i, i ∈ after.parts e ↔ i ∈ env.parts c ∨
    env.Beside s m path i ∧ ∃ r, env.package i = .ok r ∧ r.isPlain = true
  /-- They are stored, together with what was stored before. -/
  stored : ∃ q, after.entry s name = some (.package q) ∧ after.valid q = true ∧
    ∀ i, i ∈ after.parts q ↔ i ∈ after.parts e ∨ i ∈ env.partsOf (env.entry s name)
  linked : ∀ above below, env.incarnation s home = .ok (some above) →
    after.incarnation e home = .ok (some below) →
    after.entry above name = some (.package below)
  /-- No other entry is written. -/
  frame : ∀ p x, after.entry p x = env.entry p x ∨ x = name ∧ (p = s ∨
    env.incarnation s home = .ok (some p) ∧ ∃ below, after.incarnation e home = .ok (some below))
  modules : after.modules = env.modules
  keeps : env.Keeps after

variable {env first mid next after : Environment} {c child e i p s : PackageId} {m k home : ModuleId}
  {r rc : Package} {path : Path} {name : String} {ref : Ref}

/-! ## Parts and modules -/

/-- The parts of a binding are what its modules declare at its path. -/
theorem Coherent.mem_parts_iff (hc : env.Coherent) (hp : env.package p = .ok r) :
    i ∈ env.parts p ↔ ∃ k ∈ env.members p, env.declared k r.path = .ok (some i) := by
  constructor
  · intro hi
    obtain ⟨ri, hri, hpl, hpath, hk⟩ := hc.parts hp hi
    exact ⟨ri.home, hk, hpath ▸ hc.own hri (Package.isSplit_of_isPlain hpl)⟩
  · rintro ⟨k, hk, hd⟩
    exact hc.mem_parts hp hk hd

theorem Coherent.plain_of_declared (hc : env.Coherent) (hd : env.declared k path = .ok (some i)) :
    env.valid i = true ↔ ∃ r, env.package i = .ok r ∧ r.isPlain = true := by
  obtain ⟨r, hr, -, -, hs⟩ := hc.declared hd
  rw [valid_of_package hr]
  constructor
  · exact fun hv => ⟨r, hr, Package.isPlain_of_isValid hv hs⟩
  · rintro ⟨r', hr', hpl⟩
    cases package_unique hr hr'
    exact Package.isValid_of_isPlain hpl

/-- Enriching brings in what the other modules of the split declare. -/
theorem Enriched.mem_parts (h : env.Enriched c child m path e) (hc : env.Coherent)
    (hb : env.Binds child path) : i ∈ env.parts e ↔ i ∈ env.parts child ∨
      env.Beside c m path i ∧ ∃ r, env.package i = .ok r ∧ r.isPlain = true := by
  obtain ⟨re, hre, hpathe⟩ := h.binds hc hb
  obtain ⟨rc, hrc, hpathc⟩ := id hb
  rw [hc.mem_parts_iff hre, hc.mem_parts_iff hrc, hpathe, hpathc]
  constructor
  · rintro ⟨k, hk, hd⟩
    rcases (h.mem_members hc hb).mp hk with hk | ⟨hk, hne, b, hd', hv⟩
    · exact .inl ⟨k, hk, hd⟩
    · cases hd.symm.trans hd'
      exact .inr ⟨⟨k, hk, hne, hd⟩, (hc.plain_of_declared hd).mp hv⟩
  · rintro (⟨k, hk, hd⟩ | ⟨⟨k, hk, hne, hd⟩, hpl⟩)
    · exact ⟨k, (h.mem_members hc hb).mpr (.inl hk), hd⟩
    · refine ⟨k, (h.mem_members hc hb).mpr (.inr ⟨hk, hne, i, hd, ?_⟩), hd⟩
      exact (hc.plain_of_declared hd).mpr hpl

/-- A valid child is used as it is, or gathered with others. -/
theorem Enriched.eq_or_gathers (h : env.Enriched c child m path e)
    (hrc : env.package child = .ok rc) (hv : rc.isValid = true) :
    e = child ∨ ∃ ps, child ∈ ps ∧ env.Gathers rc.home path ps e := by
  obtain ⟨ps, -, ⟨-, rfl⟩ | ⟨-, r', hr', hm⟩⟩ := h
  · exact .inl rfl
  cases package_unique hr' hrc
  have hchild : child ∈ env.validOf ((ps ++ [child]).map Ref.package) :=
    mem_validOf.mpr ⟨by simp, by rw [valid_of_package hrc, hv]⟩
  cases hm with
  | worse hnone _ =>
    rw [hnone] at hchild
    cases hchild
  | one hone =>
    rw [hone] at hchild
    exact .inl (List.mem_singleton.mp hchild).symm
  | many hmany hg _ => exact .inr ⟨_, hmany ▸ hchild, hg⟩

theorem Enriched.valid (h : env.Enriched c child m path e) (hrc : env.package child = .ok rc)
    (hv : rc.isValid = true) : env.valid e = true := by
  rcases h.eq_or_gathers hrc hv with rfl | ⟨_, -, hg⟩
  · rw [valid_of_package hrc, hv]
  · obtain ⟨re, hre, -, hve, -⟩ := hg.binds
    rw [valid_of_package hre, hve]

/-- Enriching does not change the home of a valid child that is plain or a split of several. -/
theorem Enriched.home_eq {re : Package} (h : env.Enriched c child m path e)
    (hrc : env.package child = .ok rc) (hv : rc.isValid = true)
    (hfull : rc.isSplit = true → 2 ≤ rc.incarnations.length) (hre : env.package e = .ok re) :
    re.home = rc.home := by
  rcases h.eq_or_gathers hrc hv with rfl | ⟨ps, hps, hg⟩
  · rw [package_unique hre hrc]
  obtain ⟨r', hr', -, hvalid, hhome⟩ := hg.binds
  cases package_unique hr' hre
  by_cases hs : re.isSplit = true
  · exact hhome hs
  -- otherwise the parts of the child are in a single binding
  have hpl := Package.isPlain_of_isValid hvalid (by simpa using hs)
  have hsub : ∀ i ∈ env.parts child, i ∈ [e] := fun i hi => by
    have hin := hg.mem_parts.mpr ⟨child, hps, hi⟩
    rwa [parts_of_package hre, Package.contributors_of_isPlain hpl] at hin
  rw [parts_of_package hrc] at hsub
  by_cases hsc : rc.isSplit = true
  · rw [Package.contributors_of_isSplit hsc] at hsub
    exact absurd (two_le_length_of_subset rc.incarnations_nodup hsub (hfull hsc)) (by simp)
  · have hplc := Package.isPlain_of_isValid hv (by simpa using hsc)
    rw [Package.contributors_of_isPlain hplc] at hsub
    cases List.mem_singleton.mp (hsub child (List.mem_singleton_self child))
    rw [package_unique hre hrc]

theorem Keeps.beside (h : env.Keeps after) (hs : env.package s = .ok r) :
    after.Beside s m path i ↔ env.Beside s m path i := by
  unfold Beside
  rw [h.members hs]
  simp only [h.declared]

/-! ## Incarnations -/

theorem Keeps.homeIncarnation (h : env.Keeps after) (m : ModuleId) : ∀ ps : List PackageId,
    (∀ p ∈ ps, ∃ r, env.package p = .ok r) →
    after.homeIncarnation m ps = env.homeIncarnation m ps
  | [], _ => rfl
  | p :: ps, hall => by
    obtain ⟨r, hr⟩ := hall p List.mem_cons_self
    obtain ⟨r', hr', e⟩ := h.packages hr
    simp only [Environment.homeIncarnation, hr, hr', Package.home_eq_of_bare e, bind, Except.bind,
      h.homeIncarnation m ps fun q hq => hall q (List.mem_cons_of_mem _ hq)]

theorem Keeps.incarnation (h : env.Keeps after) (hc : env.Coherent) (hp : env.package p = .ok r)
    (m : ModuleId) : after.incarnation p m = env.incarnation p m := by
  obtain ⟨r', hr', e⟩ := h.packages hp
  have hhome := Package.home_eq_of_bare e
  have hkind := Package.kind_eq_of_bare e
  simp only [Environment.incarnation, hp, hr', bind, Except.bind]
  cases hk : r.kind with
  | plain plain =>
    obtain ⟨plain', hk'⟩ := Package.kind_of_isPlain
      ((Package.isPlain_eq_of_bare e).trans (Package.isPlain_of_kind hk))
    simp only [hk', hhome]
  | split split =>
    obtain ⟨split', hk'⟩ := Package.kind_of_isSplit
      ((Package.isSplit_eq_of_bare e).trans (Package.isSplit_of_kind hk))
    have hincs := Package.incarnations_eq_of_bare e
    simp only [Package.incarnations, hk, hk'] at hincs
    simp only [hk', hincs]
    exact h.homeIncarnation m _ fun i hi => hc.closed.incarnations hp (by
      simpa only [Package.incarnations, hk] using hi)
  | problem =>
    have hk' : r'.kind = .problem := by
      have hv := Package.isValid_eq_of_bare e
      simpa [Package.isValid, hk] using hv
    simp only [hk']

/-! ## What is stored -/

theorem Links.keeps (h : env.Links c child home name after) : env.Keeps after := by
  cases h with
  | linked _ _ hl => exact hl.keeps
  | apart => exact .refl env

theorem Links.modules (h : env.Links c child home name after) : after.modules = env.modules := by
  cases h with
  | linked _ _ hl =>
    obtain ⟨_, _, ht, -⟩ := hl
    exact ht.modules
  | apart => rfl

/-- The only entry that linking writes. -/
theorem Links.entry (h : env.Links c child home name after) (p : PackageId) (x : String) :
    after.entry p x = env.entry p x ∨ x = name ∧ env.incarnation c home = .ok (some p) ∧
      ∃ below, env.incarnation child home = .ok (some below) := by
  cases h with
  | @linked above below _ habove hbelow hl =>
    rw [hl.entry]
    split
    · next e => exact .inr ⟨e.2, e.1 ▸ habove, below, hbelow⟩
    · exact .inl rfl
  | apart => exact .inl rfl

namespace Enlists

theorem modules (h : env.Enlists s r name c m e ref first mid next after) :
    after.modules = env.modules := by
  obtain ⟨_, _, ht, -⟩ := h.learns
  obtain ⟨re, -, hlinks⟩ := h.links
  exact hlinks.modules.trans (ht.modules.trans (h.grows.trans h.joins).modules)

theorem keeps_next (h : env.Enlists s r name c m e ref first mid next after) : env.Keeps next :=
  (h.grows.trans h.joins).keeps.trans h.learns.keeps

theorem keeps (h : env.Enlists s r name c m e ref first mid next after) : env.Keeps after := by
  obtain ⟨re, -, hlinks⟩ := h.links
  exact h.keeps_next.trans hlinks.keeps

/-- Nothing that registering does after the child has been enriched changes the parts of it. -/
theorem keeps_first (h : env.Enlists s r name c m e ref first mid next after) :
    first.Keeps after := by
  obtain ⟨re, -, hlinks⟩ := h.links
  exact h.joins.keeps.trans (h.learns.keeps.trans hlinks.keeps)

theorem mem_parts (h : env.Enlists s r name c m e ref first mid next after) (hc : env.Coherent)
    (hr : env.package s = .ok r) (hchild : env.Binds c (.sub r.path name)) :
    i ∈ after.parts e ↔ i ∈ env.parts c ∨
      env.Beside s m (.sub r.path name) i ∧ ∃ ri, env.package i = .ok ri ∧ ri.isPlain = true := by
  obtain ⟨re, hre, -⟩ := h.binds hc hchild
  obtain ⟨rc, hrc, -⟩ := id hchild
  have hk := h.grows.keeps
  rw [h.keeps_first.parts hre,
    h.enriches.mem_parts (h.grows.coherent hc) (hk.binds hchild), hk.parts hrc, hk.beside hr]
  refine or_congr_right (and_congr_right fun ⟨_, _, _, hd⟩ => ?_)
  rw [← hc.plain_of_declared hd, ← (h.grows.coherent hc).plain_of_declared (hk.declared.mpr hd)]
  obtain ⟨ri, hri, -⟩ := hc.declared hd
  rw [hk.valid hri]

/-- What is stored is the join of what is given and of what was stored. -/
theorem stored (h : env.Enlists s r name c m e ref first mid next after) (hc : env.Coherent)
    (hr : env.package s = .ok r) (hs : r.isSplit = true) (hrc : env.package c = .ok rc)
    (hpath : rc.path = .sub r.path name) (hv : rc.isValid = true) :
    ∃ q, after.entry s name = some (.package q) ∧ after.valid q = true ∧
      ∀ i, i ∈ after.parts q ↔ i ∈ after.parts e ∨ i ∈ env.partsOf (env.entry s name) := by
  have hchild : env.Binds c (.sub r.path name) := ⟨rc, hrc, hpath⟩
  have hc1 := h.grows.coherent hc
  have hbe := h.binds hc hchild
  obtain ⟨re, hre, -⟩ := id hbe
  have hprev (prev : PackageId) (hp : env.entry s name = some (.package prev)) :
      env.Binds prev (.sub r.path name) := hc.binds_of_entry hr hp
  have hb : ∀ p ∈ bindings [some (.package e), env.entry s name], first.Binds p (.sub r.path name) := by
    intro p hp
    rcases List.mem_cons.mp (mem_bindings.mp hp) with e | hp
    · cases e
      exact hbe
    · exact h.grows.keeps.binds (hprev p (List.mem_singleton.mp hp).symm)
  obtain ⟨r1, hr1, e1⟩ := h.grows.old hr
  rw [Package.eq_of_unwrapped e1 hs] at hr1
  obtain ⟨-, hbinds, hj⟩ := h.combined.allowed
    (Lookup.combine_joined hc1 (hc1.home hr1) hb).allows
  -- the enriched child is valid, so the join is
  obtain ⟨rc', hrc', e'⟩ := h.grows.keeps.packages hrc
  have hvalid : first.grade (some (.package e)) = .valid :=
    grade_valid (h.enriches.valid hrc' ((Package.isValid_eq_of_bare e').trans hv))
  have hgrade : mid.grade (some ref) = .valid := by
    have hrank := hj.rank
    rw [rank_grade fun p e => (hbinds p e).there, hvalid] at hrank
    rw [Except.ok.inj hrank]
    cases first.grade (env.entry s name) <;> rfl
  obtain ⟨q, e, hvq⟩ := eq_package_of_grade hgrade
  cases e
  obtain ⟨rq, hrq, -⟩ := hbinds q rfl
  obtain ⟨re', hre', hlinks⟩ := h.links
  have hlater : mid.Keeps after := h.learns.keeps.trans hlinks.keeps
  refine ⟨q, ?_, (hlater.valid hrq).trans hvq, fun i => ?_⟩
  · exact (h.linked hc hr hs hchild).2.2
  · rw [hlater.parts hrq, h.keeps_first.parts hre]
    rw [show mid.parts q = mid.partsOf (some (.package q)) from rfl, hj.parts, or_comm]
    rw [h.grows.keeps.partsOf hprev]
    rfl

theorem enlisted (h : env.Enlists s r name c m e ref first mid next after) (hc : env.Coherent)
    (hr : env.package s = .ok r) (hs : r.isSplit = true) (hrc : env.package c = .ok rc)
    (hpath : rc.path = .sub r.path name) (hv : rc.isValid = true)
    (hfull : rc.isSplit = true → 2 ≤ rc.incarnations.length) :
    env.Enlisted s c rc.home m (.sub r.path name) name e after := by
  have hchild : env.Binds c (.sub r.path name) := ⟨rc, hrc, hpath⟩
  obtain ⟨rc', hrc', e1⟩ := h.grows.keeps.packages hrc
  obtain ⟨r1, hr1, -⟩ := h.binds hc hchild
  obtain ⟨re, hre, hlinks⟩ := h.links
  obtain ⟨re', hre', e2⟩ := (h.joins.keeps.trans h.learns.keeps).packages hr1
  cases package_unique hre hre'
  have hhome : re.home = rc.home := by
    rw [Package.home_eq_of_bare e2, ← Package.home_eq_of_bare e1]
    exact h.enriches.home_eq hrc' ((Package.isValid_eq_of_bare e1).trans hv) (fun hs => by
      rw [Package.incarnations_eq_of_bare e1]
      exact hfull ((Package.isSplit_eq_of_bare e1).symm.trans hs)) hr1
  rw [hhome] at hlinks
  have habove := h.keeps_next.incarnation hc hr rc.home
  have hbelow := hlinks.keeps.incarnation (h.coherent_next hc hr hs hchild) hre rc.home
  refine ⟨fun i => h.mem_parts hc hr hchild, h.stored hc hr hs hrc hpath hv, ?_, ?_, h.modules,
    h.keeps⟩
  · intro above below ha hb
    rw [← habove] at ha
    rw [hbelow] at hb
    cases hlinks with
    | linked ha' hb' hl =>
      cases ha.symm.trans ha'
      cases hb.symm.trans hb'
      rw [hl.entry, if_pos ⟨rfl, rfl⟩]
    | apart hno => exact absurd hb (hno above below ha)
  · intro p x
    have hstored : next.entry p x = env.entry p x ∨ x = name ∧ p = s := by
      rw [h.learns.entry, (h.grows.trans h.joins).entry_eq]
      split
      · next e => exact .inr ⟨e.2, e.1⟩
      · exact .inl rfl
    rcases hlinks.entry p x with e | ⟨hx, ha, hb⟩
    · exact (hstored.imp_left e.trans).imp_right fun ⟨hx, hp⟩ => ⟨hx, .inl hp⟩
    · rw [habove] at ha
      rw [← hbelow] at hb
      exact .inr ⟨hx, .inr ⟨ha, hb⟩⟩

end Enlists

variable {config : Config}

/-- In every state that requests reach which respect paths, registering a valid child below a split
gives the child with what the other modules of the split declare, and stores that with what was
stored before. The child's home has its own part linked, and nothing else is written. -/
theorem addChild_below_split (h : Environment.empty.Develops config Request.RespectsPaths env)
    (hr : env.package s = .ok r) (hs : r.isSplit = true) (hrc : env.package c = .ok rc)
    (hpath : rc.path = .sub r.path name) (hv : rc.isValid = true)
    (hfull : rc.isSplit = true → 2 ≤ rc.incarnations.length) (m : ModuleId) :
    (Lookup.addChild s c m).Ensures env fun e after =>
      env.Enlisted s c rc.home m (.sub r.path name) name e after := by
  have hc := (h.orderly (orderly_empty _)).coherent trivial
  refine Lookup.addChild_split hr hs
    ((Lookup.addUnderSplit_enlists hc hr hs ⟨rc, hrc, hpath⟩ m).mono ?_)
  rintro e after ⟨ref, first, mid, next, h⟩
  exact h.enlisted hc hr hs hrc hpath hv hfull

/-- Four modules share a package and declare one below it, the third of them a problem. Their split
knows what the fourth declares there. -/
def sharedBesideProblem : List Request :=
  [.addModule "a" false, .addModule "b" false, .addModule "c" false, .addModule "d" false,
    .declarePackage ⟨0⟩ (.sub (.sub (.top "com") "foo") "bar"),
    .declarePackage ⟨1⟩ (.sub (.sub (.top "com") "foo") "bar"),
    .declareProblem ⟨2⟩ (.sub (.sub (.top "com") "foo") "bar"),
    .declarePackage ⟨3⟩ (.sub (.sub (.top "com") "foo") "bar"),
    .combine (some (.package ⟨10⟩)) (some (.package ⟨7⟩)) ⟨3⟩, .addChild ⟨12⟩ ⟨11⟩ ⟨0⟩,
    .addToSplit ⟨12⟩ ⟨1⟩, .addToSplit ⟨12⟩ ⟨4⟩]

theorem addChild_below_split_sharedBesideProblem : ∃ env r rc,
    Environment.empty.Develops .standard Request.RespectsPaths env ∧
    env.package ⟨12⟩ = .ok r ∧ r.isSplit = true ∧ env.members ⟨12⟩ = [⟨2⟩, ⟨3⟩, ⟨0⟩, ⟨1⟩] ∧
    env.entry ⟨12⟩ "bar" = some (.package ⟨11⟩) ∧
    env.package ⟨2⟩ = .ok rc ∧ rc.path = .sub r.path "bar" ∧ rc.isValid = true ∧
    (rc.isSplit = true → 2 ≤ rc.incarnations.length) ∧
    (Lookup.addChild ⟨12⟩ ⟨2⟩ ⟨3⟩).Ensures env fun e after =>
      env.Enlisted ⟨12⟩ ⟨2⟩ rc.home ⟨3⟩ (.sub r.path "bar") "bar" e after := by
  have hrun : (develop .standard Request.RespectsPaths sharedBesideProblem .empty).any (fun env =>
      (env.package ⟨12⟩).toOption.any fun r => (env.package ⟨2⟩).toOption.any fun rc =>
        r.isSplit ∧ env.members ⟨12⟩ = [⟨2⟩, ⟨3⟩, ⟨0⟩, ⟨1⟩] ∧
          env.entry ⟨12⟩ "bar" = some (.package ⟨11⟩) ∧ rc.path = .sub r.path "bar" ∧ rc.isValid ∧
          (rc.isSplit = true → 2 ≤ rc.incarnations.length)) = true := by
    decide +kernel
  obtain ⟨env, henv, hany⟩ := (Option.any_eq_true _ _).mp hrun
  obtain ⟨r, hr, hany⟩ := (Option.any_eq_true _ _).mp hany
  obtain ⟨rc, hrc, hshape⟩ := (Option.any_eq_true _ _).mp hany
  obtain ⟨hs, hmembers, hentry, hpath, hv, hfull⟩ := of_decide_eq_true hshape
  have hr := package_of_toOption hr
  have hrc := package_of_toOption hrc
  have hdev := develops_of_develop .refl henv
  exact ⟨env, r, rc, hdev, hr, hs, hmembers, hentry, hrc, hpath, hv, hfull,
    addChild_below_split hdev hr hs hrc hpath hv hfull ⟨3⟩⟩

end Environment

end SplitPackages
