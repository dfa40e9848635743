import SplitPackages.Proofs.Histories
import SplitPackages.Proofs.Sources

/-!
# Through whom a module sees

Without a split of its own above a path, a module sees there only what it may
look into. Below a split of its own it may see more: enriching adds modules of
the split, and what is stored below the incarnations was found by their homes.
`Linked` is what remains: every contributor is linked to the module by modules
that it sees at the enclosing path.

`Sighted` is the invariant. It says of every view and of every entry on whose
behalf it was found, and every step of a lookup keeps it.
-/

namespace SplitPackages.Environment

/-- The module sees `k` at the path: it is `k`, or may look into `k` there, or `k` is linked to a
module that it sees at the enclosing path. -/
inductive Linked (env : Environment) : Path → ModuleId → ModuleId → Prop
  | own (path : Path) (m : ModuleId) : Linked env path m m
  | exposed {path : Path} {m k : ModuleId} : env.Reads m k → env.Exposes k path →
      Linked env path m k
  | through {path : Path} {name : String} {m d k : ModuleId} : Linked env path m d →
      Linked env (.sub path name) d k → Linked env (.sub path name) m k

/-- The module sees a split of its own at the enclosing path. -/
def OwnSplitAbove (env : Environment) (m : ModuleId) (path : Path) : Prop :=
  ∃ above name c r, path = .sub above name ∧ env.seen m above = some (.package c) ∧
    env.package c = .ok r ∧ r.home = m ∧ r.isSplit = true

/-- The sources of the reference are such as the module may see at the path. -/
def Seemly (env : Environment) (m : ModuleId) (path : Path) (ref : Ref) : Prop :=
  ∀ k ∈ env.sources ref, env.Linked path m k ∧ (env.Admits m path k ∨ env.OwnSplitAbove m path)

/-- Each source was seen by the home of the split or by one of its members. -/
def SeemlySplit (env : Environment) (c : PackageId) (home : ModuleId) (path : Path) (ref : Ref) :
    Prop :=
  ∀ k ∈ env.sources ref, env.Linked path home k ∨ ∃ d ∈ env.members c, env.Linked path d k

structure Sighted (env : Environment) : Prop where
  above : ∀ {m path name ref}, env.seen m (.sub path name) = some ref →
    ∃ ref', env.seen m path = some ref'
  seen : ∀ {m path ref}, env.seen m path = some ref → env.Seemly m path ref
  entry : ∀ {c r name ref}, env.package c = .ok r → r.isSplit = false →
    env.entry c name = some ref → env.Seemly r.home (.sub r.path name) ref
  split : ∀ {c r name ref}, env.package c = .ok r → r.isSplit = true →
    env.entry c name = some ref → env.SeemlySplit c r.home (.sub r.path name) ref

/-- Whatever was seen, read, exposed, declared and contributed still is. -/
structure Later (env after : Environment) : Prop where
  reads : ∀ {m k}, env.Reads m k → after.Reads m k
  exposes : ∀ {k path}, env.Exposes k path → after.Exposes k path
  declared : ∀ {k path p}, env.declared k path = .ok (some p) → after.declared k path = .ok (some p)
  entry : ∀ {c name ref}, env.entry c name = some ref → ∃ ref', after.entry c name = some ref'
  seen : ∀ {m path ref}, env.seen m path = some ref → after.seen m path = some ref
  package : ∀ {p r}, env.package p = .ok r → ∃ r', after.package p = .ok r' ∧ r'.path = r.path ∧
    r'.home = r.home ∧ r'.isSplit = r.isSplit ∧ r'.declaring = r.declaring

variable {env mid after : Environment} {b c child e p q : PackageId} {m k d home : ModuleId}
  {r : Package} {path : Path} {name : String} {ref : Ref}

theorem Admits.linked (h : env.Admits m path k) : env.Linked path m k := by
  rcases h with rfl | ⟨hr, hx⟩
  · exact .own path k
  · exact .exposed hr hx

/-! ## Later environments -/

theorem Built.later (h : env.Built after) (hc : env.Coherent) : env.Later after where
  reads := h.1.reads hc.closed h.2.closed
  exposes := h.1.exposes
  declared := h.1.declared
  entry he := ⟨_, (h.1.entry _ _).trans he⟩
  seen hs := (h.1.seen _ _).trans hs
  package hp := by
    obtain ⟨r', hr', e⟩ := h.1.package hp
    exact ⟨r', hr', e.path, e.home, e.isSplit, e.declaring⟩

theorem Change.later (h : env.Change after) : env.Later after where
  reads := h.keeps.reads.mpr
  exposes := h.keeps.exposes.mpr
  declared := h.keeps.declared.mpr
  entry he := h.entry ⟨_, he⟩
  seen := h.seen
  package hp := by
    obtain ⟨r', hr', e⟩ := h.keeps.packages hp
    exact ⟨r', hr', Package.path_eq_of_bare e, Package.home_eq_of_bare e,
      Package.isSplit_eq_of_bare e, Package.declaring_eq_of_bare e⟩

theorem Later.members (h : env.Later after) (hp : env.package p = .ok r) :
    after.members p = env.members p := by
  obtain ⟨r', hr', -, -, -, e⟩ := h.package hp
  rw [members_of_package hr', members_of_package hp, e]

theorem Later.admits (h : env.Later after) (ha : env.Admits m path k) : after.Admits m path k :=
  ha.imp_right fun hx => ⟨h.reads hx.1, h.exposes hx.2⟩

theorem Later.linked (h : env.Later after) (hl : env.Linked path m k) : after.Linked path m k := by
  induction hl with
  | own path m => exact .own path m
  | exposed hr hx => exact .exposed (h.reads hr) (h.exposes hx)
  | through _ _ ih1 ih2 => exact .through ih1 ih2

theorem Later.ownSplitAbove (h : env.Later after) (ho : env.OwnSplitAbove m path) :
    after.OwnSplitAbove m path := by
  obtain ⟨above, name, c, r, e, hs, hr, hhome, hsp⟩ := ho
  obtain ⟨r', hr', -, e2, e3, -⟩ := h.package hr
  exact ⟨above, name, c, r', e, h.seen hs, hr', e2.trans hhome, e3.trans hsp⟩

theorem Later.sources (h : env.Later after) (hb : ∀ q, ref = .package q → env.Binds q path) :
    after.sources ref = env.sources ref :=
  sources_eq h.members hb

theorem Seemly.later (hl : env.Later after) (hb : ∀ q, ref = .package q → env.Binds q path)
    (h : env.Seemly m path ref) : after.Seemly m path ref := by
  intro k hk
  rw [hl.sources hb] at hk
  obtain ⟨h1, h2⟩ := h k hk
  exact ⟨hl.linked h1, h2.imp hl.admits hl.ownSplitAbove⟩

theorem SeemlySplit.later (hl : env.Later after) (hr : env.package c = .ok r)
    (hb : ∀ q, ref = .package q → env.Binds q path) (h : env.SeemlySplit c home path ref) :
    after.SeemlySplit c home path ref := by
  intro k hk
  rw [hl.sources hb] at hk
  rw [hl.members hr]
  exact (h k hk).imp hl.linked fun ⟨d, hd, h⟩ => ⟨d, hd, hl.linked h⟩

/-- The invariant has to be shown of what is new only. -/
theorem Sighted.later (h : env.Sighted) (hc : env.Coherent) (hl : env.Later after)
    (hseen : ∀ {m path ref}, after.seen m path = some ref → env.seen m path = some ref ∨
      after.Seemly m path ref ∧
        ∀ above name, path = .sub above name → ∃ ref', env.seen m above = some ref')
    (hentry : ∀ {c name ref}, after.entry c name = some ref → env.entry c name = some ref ∨
      ∃ r, env.package c = .ok r ∧
        (r.isSplit = false → after.Seemly r.home (.sub r.path name) ref) ∧
        (r.isSplit = true → after.SeemlySplit c r.home (.sub r.path name) ref)) :
    after.Sighted where
  above hs := by
    rcases hseen hs with hs | ⟨-, ha⟩
    · obtain ⟨ref', hs⟩ := h.above hs
      exact ⟨ref', hl.seen hs⟩
    · obtain ⟨ref', hs⟩ := ha _ _ rfl
      exact ⟨ref', hl.seen hs⟩
  seen hs := by
    rcases hseen hs with hs | ⟨hv, -⟩
    · exact (h.seen hs).later hl fun q e => hc.seen (e ▸ hs)
    · exact hv
  entry {c r name ref} hr hs he := by
    rcases hentry he with he | ⟨r0, hr0, hv, -⟩
    · obtain ⟨r0, hr0, -⟩ := package_of_entry he
      obtain ⟨r', hr', e1, e2, e3, -⟩ := hl.package hr0
      cases package_unique hr hr'
      rw [e1, e2]
      exact (h.entry hr0 (e3.symm.trans hs) he).later hl fun q e => hc.binds_of_entry hr0 (e ▸ he)
    · obtain ⟨r', hr', e1, e2, e3, -⟩ := hl.package hr0
      cases package_unique hr hr'
      rw [e1, e2]
      exact hv (e3.symm.trans hs)
  split {c r name ref} hr hs he := by
    rcases hentry he with he | ⟨r0, hr0, -, hv⟩
    · obtain ⟨r0, hr0, -⟩ := package_of_entry he
      obtain ⟨r', hr', e1, e2, e3, -⟩ := hl.package hr0
      cases package_unique hr hr'
      rw [e1, e2]
      exact (h.split hr0 (e3.symm.trans hs) he).later hl hr0 fun q e =>
        hc.binds_of_entry hr0 (e ▸ he)
    · obtain ⟨r', hr', e1, e2, e3, -⟩ := hl.package hr0
      cases package_unique hr hr'
      rw [e1, e2]
      exact hv (e3.symm.trans hs)

/-! ## What is stored on good grounds -/

theorem Offered.seemly (h : env.Offered m path ref) (hc : env.Coherent) : env.Seemly m path ref := by
  intro k hk
  obtain ⟨b, -, -, ha⟩ := (h.mem_sources hc).mp hk
  exact ⟨ha.linked, .inl ha⟩

theorem Enriched.seemlySplit (h : env.Enriched c child m path e) (hc : env.Coherent)
    (hb : env.Binds child path) (hchild : env.SeemlySplit c home path (.package child)) :
    env.SeemlySplit c home path (.package e) := by
  intro k hk
  rcases (h.mem_members hc hb).mp hk with hk | ⟨hk, -⟩
  · exact hchild k hk
  · exact .inr ⟨k, hk, .own path k⟩

/-- Grounds are as good as the caches that they refer to. -/
theorem Grounds.seemly (h : env.Sighted) (hc : env.Coherent) (hr : env.package c = .ok r)
    (hg : env.Grounds c r name ref) :
    (r.isSplit = false → env.Seemly r.home (.sub r.path name) ref) ∧
      (r.isSplit = true → env.SeemlySplit c r.home (.sub r.path name) ref) := by
  have hplain (hs : r.isSplit = false) (hv : env.Seemly r.home (.sub r.path name) ref) :
      (r.isSplit = false → env.Seemly r.home (.sub r.path name) ref) ∧
        (r.isSplit = true → env.SeemlySplit c r.home (.sub r.path name) ref) :=
    ⟨fun _ => hv, fun hs' => absurd (hs.symm.trans hs') Bool.false_ne_true⟩
  have hsplit (hs : r.isSplit = true) (hv : env.SeemlySplit c r.home (.sub r.path name) ref) :
      (r.isSplit = false → env.Seemly r.home (.sub r.path name) ref) ∧
        (r.isSplit = true → env.SeemlySplit c r.home (.sub r.path name) ref) :=
    ⟨fun hs' => absurd (hs'.symm.trans hs) Bool.false_ne_true, fun _ => hv⟩
  cases hg with
  | own hpl hd =>
    refine hplain (Package.isSplit_of_isPlain hpl) fun k hk => ?_
    obtain ⟨rfl, -⟩ := (hc.members_of_declared hd).mp hk
    exact ⟨.own _ _, .inl (.inl rfl)⟩
  | merged hk hrefs hm =>
    refine hsplit (Package.isSplit_of_kind hk) fun k hin => .inr ?_
    obtain ⟨i, hi, ref', he, hin⟩ := (hm.mem_sources_of_entries hc hr hk hrefs).mp hin
    obtain ⟨ri, hri, hpl, hpath⟩ := (hc.split hr hk).plain hi
    refine ⟨ri.home, ?_, ?_⟩
    · rw [members_of_package hr]
      simp only [Package.declaring, hk]
      exact ((hc.split hr hk).declaring _).mpr ⟨i, hi, ri, hri, rfl⟩
    · rw [← hpath]
      exact (h.entry hri (Package.isSplit_of_isPlain hpl) he k hin).1
  | offered _ _ _ ho =>
    have hv := ho.seemly hc
    exact ⟨fun _ => hv, fun _ k hk => .inl (hv k hk).1⟩
  | enriched hs _ ho he =>
    refine hsplit hs (he.seemlySplit hc (ho.binds hc) fun k hk => .inl ?_)
    exact (ho.seemly hc k hk).1
  | seen hs hseen => exact hplain hs (h.seen hseen)
  | searched hs hf he hcomb =>
    have hq : env.SeemlySplit c r.home (.sub r.path name) (.package _) := fun k hk => by
      obtain ⟨d, hd, b, hseen, -, hk⟩ := (hf.mem_members hc).mp hk
      exact .inr ⟨d, hd, (h.seen hseen k hk).1⟩
    refine hsplit hs fun k hk => ?_
    rcases (hcomb.mem_sources hc (he.binds hc (hf.binds hc)) fun prev hp =>
      hc.binds_of_entry hr hp).2 hk with hk | ⟨prev, hp, hk⟩
    · exact he.seemlySplit hc (hf.binds hc) hq k hk
    · exact h.split hr hs hp k hk
  | vain hs _ =>
    refine hsplit hs fun k hk => ?_
    cases hk

theorem Sights.seemly (h : env.Sighted) (hc : env.Coherent) (hs : env.Sights m path ref) :
    env.Seemly m path ref := by
  cases hs with
  | below _ =>
    intro k hk
    cases hk
  | top ho => exact ho.seemly hc
  | foreign _ _ _ ho => exact ho.seemly hc
  | @stored above name c r _ hs hr hhome he =>
    obtain ⟨r', hr', hpath⟩ := hc.seen hs
    cases package_unique hr hr'
    subst hhome hpath
    by_cases hsp : r.isSplit = true
    · intro k hk
      have hown : env.OwnSplitAbove r.home (.sub r.path name) :=
        ⟨r.path, name, c, r, rfl, hs, hr, rfl, hsp⟩
      rcases h.split hr hsp he k hk with hl | ⟨d, hd, hl⟩
      · exact ⟨hl, .inr hown⟩
      · exact ⟨.through (h.seen hs d hd).1 hl, .inr hown⟩
    · exact h.entry hr (by simpa using hsp) he

theorem Sights.above (h : env.Sights m (.sub path name) ref) : ∃ ref', env.seen m path = some ref' := by
  cases h with
  | below hs => exact ⟨_, hs⟩
  | foreign hs _ _ _ => exact ⟨_, hs⟩
  | stored hs _ _ _ => exact ⟨_, hs⟩

theorem Sighted.change (h : env.Sighted) (hc : env.Coherent) (hs : env.Change after) :
    after.Sighted := by
  have hl := hs.later
  refine h.later hc hl (fun {m path ref} hseen => ?_) fun {c name ref} he => ?_
  · refine (hs.seen_back hseen).imp_right fun hsi => ⟨?_, ?_⟩
    · exact (hsi.seemly h hc).later hl fun q e => (e ▸ hsi).binds hc
    · rintro above name rfl
      exact hsi.above
  · refine (hs.entry_back he).imp_right ?_
    rintro ⟨r, hr, hg⟩
    have hb : ∀ q, ref = .package q → env.Binds q (.sub r.path name) :=
      fun q e => (e ▸ hg).binds hc hr
    obtain ⟨h1, h2⟩ := hg.seemly h hc hr
    exact ⟨r, hr, fun hs => (h1 hs).later hl hb, fun hs => (h2 hs).later hl hr hb⟩

end SplitPackages.Environment
