import SplitPackages.Proofs.Grounds
import SplitPackages.Proofs.Outcome
import SplitPackages.Proofs.Wrappers
import SplitPackages.Registration

/-!
# Registering below a split

`addUnderSplit` enriches the child, combines it with what is stored and links
the part of its own module (`Enlists`). `addUnderSplit_spec` says so in terms of
`Enriched` and `Combines`; the steps it takes need grounds, which depend on where
the child comes from and are a hypothesis here. Entries change at the path of the
split only, and of the splits there only the split itself gets one (`Fills`); no
view changes. Below a binding of another kind the child is stored as it is
(`addChild_spec`).
-/

namespace SplitPackages

namespace Environment

/-- No view has changed, and new entries are of this name and below bindings of the path, which
are plain but for `c`. -/
structure Fills (env : Environment) (c : PackageId) (name : String) (path : Path)
    (after : Environment) : Prop where
  seen : ∀ m other, after.seen m other = env.seen m other
  entry : ∀ {p x ref}, after.entry p x = some ref → env.entry p x = some ref ∨
    x = name ∧ ∃ r, after.package p = .ok r ∧ r.path = path ∧ (p = c ∨ r.isPlain = true)

/-- What the module `home` contributes to the child is stored below what it contributes to `c`, if
it contributes to both. -/
inductive Links (env : Environment) (c child : PackageId) (home : ModuleId) (name : String) :
    Environment → Prop
  | linked {above below : PackageId} {after : Environment} :
      env.incarnation c home = .ok (some above) → env.incarnation child home = .ok (some below) →
      env.Learns above name (.package below) after → Links env c child home name after
  | apart : (∀ above below, env.incarnation c home = .ok (some above) →
      env.incarnation child home ≠ .ok (some below)) → Links env c child home name env

/-- The steps of registering a child below the split `c`: the child is enriched to `e`, combined
with the entry of the split to `ref`, stored, and linked. -/
structure Enlists (env : Environment) (c : PackageId) (r : Package) (name : String)
    (child : PackageId) (m : ModuleId) (e : PackageId) (ref : Ref)
    (first mid next after : Environment) : Prop where
  enriched : (Lookup.enrich c child m).Gives env e first
  grows : env.Grows first
  enriches : first.Enriched c child m (.sub r.path name) e
  combined : (Lookup.combine (some (.package e)) (env.entry c name) r.home).Gives first
    (some ref) mid
  joins : first.Grows mid
  combines : mid.Combines r.home (.sub r.path name) e (env.entry c name) ref
  learns : mid.Learns c name ref next
  links : ∃ re, next.package e = .ok re ∧ next.Links c e re.home name after

variable {env first mid next after : Environment} {c child e p q : PackageId} {m : ModuleId}
  {r : Package} {path : Path} {name : String} {ref : Ref}

theorem Fills.refl (env : Environment) (c : PackageId) (name : String) (path : Path) :
    env.Fills c name path env :=
  ⟨fun _ _ => rfl, fun h => .inl h⟩

theorem Fills.trans (h : env.Fills c name path mid) (hk : mid.Keeps after)
    (h2 : mid.Fills c name path after) : env.Fills c name path after where
  seen m other := (h2.seen m other).trans (h.seen m other)
  entry he := by
    rcases h2.entry he with he | hnew
    · refine (h.entry he).imp_right ?_
      rintro ⟨hx, r, hr, hpath, hwhich⟩
      obtain ⟨r', hr', e⟩ := hk.packages hr
      exact ⟨hx, r', hr', (Package.path_eq_of_bare e).trans hpath,
        hwhich.imp_right (Package.isPlain_eq_of_bare e).trans⟩
    · exact .inr hnew

theorem Grows.fills (h : env.Grows after) (c : PackageId) (name : String) (path : Path) :
    env.Fills c name path after :=
  ⟨h.seen, fun he => .inl (h.entry_back he)⟩

theorem Learns.fills (h : env.Learns p name ref after) (hr : env.package p = .ok r)
    (hwhich : p = c ∨ r.isPlain = true) : env.Fills c name r.path after where
  seen := h.seen
  entry {q x ref'} he := by
    rw [h.entry] at he
    split at he
    · next e =>
      obtain ⟨r', hr', e'⟩ := h.keeps.packages hr
      exact .inr ⟨e.2, r', e.1 ▸ hr', Package.path_eq_of_bare e',
        hwhich.imp e.1.trans (Package.isPlain_eq_of_bare e').trans⟩
    · exact .inl he

/-! ## Questions that registering asks -/

/-- The incarnation for a module is the plain binding that the module declares at the path. -/
theorem Coherent.incarnation_ok (hc : env.Coherent) (hr : env.package p = .ok r) (m : ModuleId) :
    ∃ o, env.incarnation p m = .ok o ∧ ∀ i, o = some i →
      ∃ ri, env.package i = .ok ri ∧ ri.isPlain = true ∧ ri.path = r.path ∧ ri.home = m := by
  simp only [incarnation, hr, bind, Except.bind]
  cases hk : r.kind with
  | plain plain =>
    refine ⟨_, rfl, fun i hi => ?_⟩
    split at hi
    · next e => cases hi; exact ⟨r, hr, Package.isPlain_of_kind hk, rfl, e⟩
    · cases hi
  | problem => exact ⟨none, rfl, by simp⟩
  | split s =>
    have hs := hc.split hr hk
    obtain ⟨o, ho, -, hi⟩ := homeIncarnation_ok m s.incarnations.toList fun i hi => by
      obtain ⟨ri, hri, -⟩ := hs.plain hi
      exact ⟨ri, hri⟩
    refine ⟨o, ho, fun i hio => ?_⟩
    obtain ⟨hmem, ri, hri, hhome⟩ := hi i hio
    obtain ⟨ri', hri', hpl, hpath⟩ := hs.plain hmem
    cases package_unique hri hri'
    exact ⟨ri, hri, hpl, hpath, hhome⟩

theorem siblings_ok {rc : Package} (hrc : env.package child = .ok rc) (m : ModuleId) (path : Path) :
    ∀ ps : List PackageId, (∀ p ∈ ps, ∃ r record, env.package p = .ok r ∧
        env.module r.home = .ok record) →
      ∃ sibs, env.siblings child m path ps = .ok sibs ∧
        ∀ b, b ∈ sibs ↔ ∃ p ∈ ps, ∃ r, env.package p = .ok r ∧ r.home ≠ m ∧
          r.home ∉ env.members child ∧ env.declared r.home path = .ok (some b)
  | [], _ => ⟨[], rfl, by simp⟩
  | p :: ps, h => by
    obtain ⟨r, record, hr, hrec⟩ := h p List.mem_cons_self
    obtain ⟨sibs, hsibs, hmem⟩ := siblings_ok hrc m path ps
      fun q hq => h q (List.mem_cons_of_mem _ hq)
    have hskip (hno : ∀ b, ¬ (r.home ≠ m ∧ r.home ∉ env.members child ∧
        env.declared r.home path = .ok (some b))) (b : PackageId) : b ∈ sibs ↔
        ∃ q ∈ p :: ps, ∃ r, env.package q = .ok r ∧ r.home ≠ m ∧
          r.home ∉ env.members child ∧ env.declared r.home path = .ok (some b) := by
      rw [hmem b]
      constructor
      · rintro ⟨q, hq, h⟩
        exact ⟨q, List.mem_cons_of_mem _ hq, h⟩
      · rintro ⟨q, hq, r', hr', h⟩
        rcases List.mem_cons.mp hq with rfl | hq
        · cases package_unique hr hr'
          exact absurd h (hno b)
        · exact ⟨q, hq, r', hr', h⟩
    simp only [siblings, hr, bind, Except.bind]
    by_cases hhome : r.home = m
    · rw [if_pos hhome]
      exact ⟨sibs, hsibs, hskip fun b hb => hb.1 hhome⟩
    · rw [if_neg hhome, isDeclaredIn_ok hrc, ← members_of_package hrc]
      by_cases hin : r.home ∈ env.members child
      · simp only [hin, decide_true, if_true]
        exact ⟨sibs, hsibs, hskip fun b hb => hb.2.1 hin⟩
      · simp only [hin, decide_false, Bool.false_eq_true, if_false, declared_of_module hrec]
        cases hd : record.declared.get? path with
        | none =>
          refine ⟨sibs, hsibs, hskip fun b hb => ?_⟩
          have := hb.2.2
          rw [declared_of_module hrec, hd] at this
          cases this
        | some next =>
          rw [hsibs]
          refine ⟨next :: sibs, rfl, fun b => ?_⟩
          rw [List.mem_cons, hmem b]
          constructor
          · rintro (rfl | ⟨q, hq, h⟩)
            · exact ⟨p, List.mem_cons_self, r, hr, hhome, hin, by rw [declared_of_module hrec, hd]⟩
            · exact ⟨q, List.mem_cons_of_mem _ hq, h⟩
          · rintro ⟨q, hq, r', hr', h⟩
            rcases List.mem_cons.mp hq with rfl | hq
            · cases package_unique hr hr'
              have := h.2.2
              rw [declared_of_module hrec, hd] at this
              cases this
              exact .inl rfl
            · exact .inr ⟨q, hq, r', hr', h⟩

/-- What enriching looks for are the siblings. -/
theorem Coherent.siblings_ok (hc : env.Coherent) {s : Split} (hr : env.package c = .ok r)
    (hk : r.kind = .split s) {rc : Package} (hrc : env.package child = .ok rc) (m : ModuleId)
    (path : Path) :
    ∃ sibs, env.siblings child m path r.incarnations = .ok sibs ∧
      env.Siblings c child m path sibs := by
  have hs := hc.split hr hk
  have hinc : r.incarnations = s.incarnations.toList := by simp only [Package.incarnations, hk]
  obtain ⟨sibs, hsibs, hmem⟩ := Environment.siblings_ok hrc m path
    r.incarnations fun i hi => by
      rw [hinc] at hi
      obtain ⟨ri, hri, -⟩ := hs.plain hi
      obtain ⟨record, hrec⟩ := hc.home hri
      exact ⟨ri, record, hri, hrec⟩
  refine ⟨sibs, hsibs, fun b => ?_⟩
  rw [hmem b, members_of_package hr, hinc]
  simp only [Package.declaring, hk]
  constructor
  · rintro ⟨i, hi, ri, hri, h⟩
    exact ⟨ri.home, (hs.declaring _).mpr ⟨i, hi, ri, hri, rfl⟩, h⟩
  · rintro ⟨d, hd, h⟩
    obtain ⟨i, hi, ri, hri, rfl⟩ := (hs.declaring d).mp hd
    exact ⟨i, hi, ri, hri, h⟩

/-- Linking the part of a child stores a declaration of a module below its own binding. -/
theorem Links.spec {rc : Package} (h : env.Links c child rc.home name after) (hc : env.Coherent)
    (hr : env.package c = .ok r) (hs : r.isSplit = true) (hrc : env.package child = .ok rc)
    (hpath : rc.path = .sub r.path name) :
    env.Changes after ∧ env.Fills c name r.path after ∧ ∀ x, after.entry c x = env.entry c x := by
  cases h with
  | apart => exact ⟨.refl, .refl env _ _ _, fun _ => rfl⟩
  | @linked above below _ ho ho' hl =>
    obtain ⟨o, e, hinc⟩ := hc.incarnation_ok hr rc.home
    cases ho.symm.trans e
    obtain ⟨o', e', hinc'⟩ := hc.incarnation_ok hrc rc.home
    cases ho'.symm.trans e'
    obtain ⟨ra, hra, hpl, hpatha, hhome⟩ := hinc above rfl
    obtain ⟨rb, hrb, hplb, hpathb, hhomeb⟩ := hinc' below rfl
    refine ⟨.single (.learn hra (.own hpl ?_) hl), hpatha ▸ hl.fills hra (.inr hpl), fun x => ?_⟩
    · rw [hhome, hpatha, ← hhomeb, ← hpath, ← hpathb]
      exact hc.own hrb (Package.isSplit_of_isPlain hplb)
    · rw [hl.entry, if_neg]
      rintro ⟨rfl, -⟩
      rw [hr] at hra
      cases hra
      rw [Package.isSplit_of_isPlain hpl] at hs
      cases hs

namespace Enlists

theorem split_mid (h : env.Enlists c r name child m e ref first mid next after)
    (hr : env.package c = .ok r) (hs : r.isSplit = true) : mid.package c = .ok r := by
  obtain ⟨r', hr', e⟩ := (h.grows.trans h.joins).old hr
  rwa [Package.eq_of_unwrapped e hs] at hr'

theorem binds (h : env.Enlists c r name child m e ref first mid next after) (hc : env.Coherent)
    (hchild : env.Binds child (.sub r.path name)) : first.Binds e (.sub r.path name) :=
  h.enriches.binds (h.grows.coherent hc) (h.grows.keeps.binds hchild)

theorem binds_stored (h : env.Enlists c r name child m e ref first mid next after)
    (hc : env.Coherent) (hr : env.package c = .ok r)
    (hchild : env.Binds child (.sub r.path name)) :
    ∀ q, ref = .package q → mid.Binds q (.sub r.path name) := by
  rintro q rfl
  exact h.combines.binds (h.joins.keeps.binds (h.binds hc hchild)) fun prev hp =>
    (h.grows.trans h.joins).keeps.binds (hc.binds_of_entry hr hp)

theorem coherent_next (h : env.Enlists c r name child m e ref first mid next after)
    (hc : env.Coherent) (hr : env.package c = .ok r) (hs : r.isSplit = true)
    (hchild : env.Binds child (.sub r.path name)) : next.Coherent :=
  h.learns.coherent ((h.grows.trans h.joins).coherent hc) (h.split_mid hr hs)
    (h.binds_stored hc hr hchild)

/-- Linking leaves what has been stored below the split. -/
theorem linked (h : env.Enlists c r name child m e ref first mid next after) (hc : env.Coherent)
    (hr : env.package c = .ok r) (hs : r.isSplit = true)
    (hchild : env.Binds child (.sub r.path name)) :
    next.Changes after ∧ next.Fills c name r.path after ∧ after.entry c name = some ref := by
  obtain ⟨r', hr', e'⟩ := h.learns.keeps.packages (h.split_mid hr hs)
  have hpath : r'.path = r.path := Package.path_eq_of_bare e'
  obtain ⟨re, hre, hlinks⟩ := h.links
  obtain ⟨re', hre', hpathe⟩ := h.learns.keeps.binds (h.joins.keeps.binds (h.binds hc hchild))
  cases package_unique hre hre'
  obtain ⟨hch, hfill, hkeep⟩ := hlinks.spec (h.coherent_next hc hr hs hchild) hr'
    ((Package.isSplit_eq_of_bare e').trans hs) hre (hpath.symm ▸ hpathe)
  refine ⟨hch, hpath ▸ hfill, ?_⟩
  rw [hkeep, h.learns.entry, if_pos ⟨rfl, rfl⟩]

/-- What the steps come to, when there are grounds for the entry that is stored. -/
theorem spec (h : env.Enlists c r name child m e ref first mid next after) (hc : env.Coherent)
    (hr : env.package c = .ok r) (hs : r.isSplit = true)
    (hchild : env.Binds child (.sub r.path name))
    (hgrounds : env.Grows mid → mid.Enriched c child m (.sub r.path name) e →
      mid.Combines r.home (.sub r.path name) e (env.entry c name) ref → mid.Grounds c r name ref) :
    env.Changes after ∧ env.Fills c name r.path after ∧ ∃ mid ref, env.Grows mid ∧
      mid.Enriched c child m (.sub r.path name) e ∧
      mid.Combines r.home (.sub r.path name) e (env.entry c name) ref ∧ mid.Keeps after ∧
      after.entry c name = some ref := by
  have hg := h.grows.trans h.joins
  have hr2 := h.split_mid hr hs
  obtain ⟨r1, hr1, -⟩ := h.grows.old hr
  have he : mid.Enriched c child m (.sub r.path name) e :=
    h.enriches.keeps (h.grows.coherent hc) h.joins.keeps hr1 (h.grows.keeps.binds hchild)
  have hchange : mid.Changes next := .single (.learn hr2 (hgrounds hg he h.combines) h.learns)
  obtain ⟨hch, hfill, hentry⟩ := h.linked hc hr hs hchild
  have hfills := (hg.fills c name r.path).trans h.learns.keeps (h.learns.fills hr2 (.inl rfl))
  exact ⟨((Changes.single (.grow hg)).trans hchange).trans hch, hfills.trans hch.keeps hfill,
    mid, ref, hg, he, h.combines, h.learns.keeps.trans hch.keeps, hentry⟩

end Enlists

end Environment

namespace Lookup

open Environment

variable {env mid after : Environment} {c child : PackageId} {m : ModuleId} {r : Package}
  {path : Path} {name : String} {ref : Ref}

theorem enrich_spec (hc : env.Coherent) (hr : env.package c = .ok r) (hs : r.isSplit = true)
    (hchild : env.Binds child path) (m : ModuleId) :
    (enrich c child m).Ensures env fun e after => env.Grows after ∧ after.Enriched c child m path e := by
  obtain ⟨s, hk⟩ := Package.kind_of_isSplit hs
  obtain ⟨rc, hrc, rfl⟩ := id hchild
  obtain ⟨sibs, hsibs, hS⟩ := hc.siblings_ok hr hk hrc m rc.path
  refine Ensures.step (Gives.ask hrc) (Ensures.step (Gives.ask hr) (Ensures.step (Gives.ask hsibs) ?_))
  cases sibs with
  | nil => exact Ensures.pure ⟨.refl env, [], hS, .inl ⟨rfl, rfl⟩⟩
  | cons b bs =>
    have hall := hS.with_child_binds hc hchild
    have hmap : (b :: bs ++ [child]).map (some ∘ Ref.package) =
        ((b :: bs ++ [child]).map Ref.package).map some := by rw [List.map_map]
    simp only [hmap]
    refine (combineAll_spec hc (hc.home hrc) hall).bind ?_
    rintro result after ⟨hg, hm⟩
    refine Ensures.step (Gives.note _) (Ensures.pure ⟨hg, b :: bs, hS.keeps hg.keeps hr hrc, .inr ?_⟩)
    obtain ⟨rc', hrc', e⟩ := hg.keeps.packages hrc
    refine ⟨List.cons_ne_nil _ _, rc', hrc', ?_⟩
    rw [Package.home_eq_of_bare e]
    rcases hm with ⟨-, hnil⟩ | ⟨ref, rfl, hm⟩
    · cases hnil
    · cases ref with
      | package e => exact hm
      | notFound =>
        cases hm with
        | worse _ hmem => simp at hmem

theorem linkIncarnation_links (hc : env.Coherent) (hr : env.package c = .ok r) {rc : Package}
    (hrc : env.package child = .ok rc) (hpath : rc.path = .sub r.path name) :
    (linkIncarnation c child).Ensures env fun _ after => env.Links c child rc.home name after := by
  obtain ⟨o, ho, hinc⟩ := hc.incarnation_ok hr rc.home
  refine Ensures.step (Gives.ask hrc) (Ensures.step (Gives.ask ho) ?_)
  cases o with
  | none =>
    refine Ensures.pure (.apart fun above below h => ?_)
    rw [ho] at h
    cases h
  | some above =>
    obtain ⟨ra, hra, -⟩ := hinc above rfl
    obtain ⟨o', ho', hinc'⟩ := hc.incarnation_ok hrc rc.home
    refine Ensures.step (Gives.ask ho') ?_
    cases o' with
    | none =>
      refine Ensures.pure (.apart fun above below _ h => ?_)
      rw [ho'] at h
      cases h
    | some below =>
      obtain ⟨rb, hrb, -, hpathb, -⟩ := hinc' below rfl
      obtain ⟨after, hafter⟩ := Environment.setPackage_ok hra (·.learn name (.package below))
      have hsimple : rb.path.simpleName = name := by rw [hpathb, hpath]; rfl
      refine ⟨(), after, Gives.update (Update.bind_ok (Update.ask_ok hrb) ?_),
        .linked ho ho' (learns_of_setPackage hafter hra)⟩
      rw [hsimple]
      exact Update.setPackage_ok hafter

/-- Registering below a split, wherever the child comes from. -/
theorem addUnderSplit_enlists (hc : env.Coherent) (hr : env.package c = .ok r)
    (hs : r.isSplit = true) (hchild : env.Binds child (.sub r.path name)) (m : ModuleId) :
    (addUnderSplit c child m).Ensures env fun e after =>
      ∃ ref first mid next, env.Enlists c r name child m e ref first mid next after := by
  obtain ⟨rc, hrc, hpath⟩ := id hchild
  have hsimple : rc.path.simpleName = name := by rw [hpath]; rfl
  refine Ensures.within (Ensures.step (Gives.ask hrc) ?_)
  refine Ensures.noteIf (Ensures.step (Gives.note _) ?_)
  obtain ⟨e, first, henrich, hg1, he⟩ := enrich_spec hc hr hs hchild m
  refine Ensures.step henrich ?_
  obtain ⟨r1, hr1, e1⟩ := hg1.old hr
  rw [Package.eq_of_unwrapped e1 hs] at hr1
  have hc1 := hg1.coherent hc
  have hbe := he.binds hc1 (hg1.keeps.binds hchild)
  have hentry : r.known.get? rc.path.simpleName = env.entry c name := by
    rw [entry_of_package hr, hsimple]
  refine Ensures.step (Gives.ask hr1) ?_
  simp only [hentry]
  have hprev (prev : PackageId) (hp : env.entry c name = some (.package prev)) :
      first.Binds prev (.sub r.path name) := hg1.keeps.binds (hc.binds_of_entry hr hp)
  obtain ⟨_, mid, hcombine, hg2, ref, rfl, hcomb⟩ := combine_spec hc1 (hc1.home hr1) hbe
    (env.entry c name) hprev
  refine Ensures.step hcombine (Ensures.step (Gives.note _) ?_)
  obtain ⟨r2, hr2, e2⟩ := hg2.old hr1
  rw [Package.eq_of_unwrapped e2 hs] at hr2
  obtain ⟨next, hset⟩ := Environment.setPackage_ok hr2 (·.learn rc.path.simpleName ref)
  have hl : mid.Learns c name ref next := by
    rw [hsimple] at hset
    exact learns_of_setPackage hset hr2
  refine Ensures.step (Gives.update (Update.setPackage_ok hset)) ?_
  have hnext : next.Coherent := hl.coherent (hg2.coherent hc1) hr2 fun q e => by
    subst e
    exact hcomb.binds (hg2.keeps.binds hbe) fun prev hp => hg2.keeps.binds (hprev prev hp)
  obtain ⟨r3, hr3, e3⟩ := hl.keeps.packages hr2
  obtain ⟨re, hre, hpathe⟩ := hl.keeps.binds (hg2.keeps.binds hbe)
  rw [← Package.path_eq_of_bare e3] at hpathe
  refine (linkIncarnation_links hnext hr3 hre hpathe).bind ?_
  rintro - after hlinks
  exact Ensures.pure ⟨ref, first, mid, next, henrich, hg1, he, hcombine, hg2, hcomb, hl, re, hre,
    hlinks⟩

/-- Registering below a split, when there are grounds for the entry that comes of it. -/
theorem addUnderSplit_spec (hc : env.Coherent) (hr : env.package c = .ok r)
    (hs : r.isSplit = true) (hchild : env.Binds child (.sub r.path name)) (m : ModuleId)
    (hgrounds : ∀ mid e ref, env.Grows mid → mid.Enriched c child m (.sub r.path name) e →
      mid.Combines r.home (.sub r.path name) e (env.entry c name) ref → mid.Grounds c r name ref) :
    (addUnderSplit c child m).Ensures env fun e after =>
      env.Changes after ∧ env.Fills c name r.path after ∧ ∃ mid ref, env.Grows mid ∧
        mid.Enriched c child m (.sub r.path name) e ∧
        mid.Combines r.home (.sub r.path name) e (env.entry c name) ref ∧ mid.Keeps after ∧
        after.entry c name = some ref :=
  (addUnderSplit_enlists hc hr hs hchild m).mono fun e _ ⟨ref, _, mid, _, h⟩ =>
    h.spec hc hr hs hchild (hgrounds mid e ref)

/-- Storing a child below a binding that is not a split. -/
theorem addChild_spec (hr : env.package c = .ok r) (hs : r.isSplit = false)
    (hchild : env.Binds child (.sub r.path name)) (m : ModuleId)
    (hg : env.Grounds c r name (.package child)) :
    (addChild c child m).Ensures env fun e after => e = child ∧ env.Changes after ∧
      env.Fills c name r.path after ∧ after.entry c name = some (.package child) := by
  obtain ⟨rc, hrc, hpath⟩ := hchild
  obtain ⟨after, hafter⟩ := Environment.setPackage_ok hr (·.learn name (.package child))
  have hl := learns_of_setPackage hafter hr
  have hsimple : rc.path.simpleName = name := by rw [hpath]; rfl
  refine Ensures.step (Gives.ask hr) ?_
  rw [hs]
  have hstore : Update.storeChild c child env = .ok ((), after) := by
    refine Update.bind_ok (Update.ask_ok hrc) ?_
    rw [hsimple]
    exact Update.setPackage_ok hafter
  exact Ensures.step (Gives.update hstore) (Ensures.pure ⟨rfl, .single (.learn hr hg hl),
    hl.fills hr (.inl rfl), by rw [hl.entry, if_pos ⟨rfl, rfl⟩]⟩)

theorem addChild_split (hr : env.package c = .ok r) (hs : r.isSplit = true) {m : ModuleId}
    {Q : PackageId → Environment → Prop} (h : (addUnderSplit c child m).Ensures env Q) :
    (addChild c child m).Ensures env Q := by
  refine Ensures.step (Gives.ask hr) ?_
  rw [hs]
  exact h

theorem learnMissing_learns (hr : env.package c = .ok r) (name : String) :
    ∃ after, (update (.learnMissing c name)).Gives env () after ∧
      env.Learns c name .notFound after := by
  obtain ⟨after, hafter⟩ := Environment.setPackage_ok hr (·.learn name .notFound)
  exact ⟨after, Gives.update (Update.setPackage_ok hafter), learns_of_setPackage hafter hr⟩

theorem learnMissing_gives (hr : env.package c = .ok r) (hg : env.Grounds c r name .notFound) :
    ∃ after, (update (.learnMissing c name)).Gives env () after ∧ env.Changes after ∧
      env.Fills c name r.path after ∧ after.entry c name = some .notFound := by
  obtain ⟨after, hgives, hl⟩ := learnMissing_learns hr name
  exact ⟨after, hgives, .single (.learn hr hg hl), hl.fills hr (.inl rfl),
    by rw [hl.entry, if_pos ⟨rfl, rfl⟩]⟩

end Lookup

end SplitPackages
