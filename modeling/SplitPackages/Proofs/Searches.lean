import Mathlib.Data.List.Forall2
import SplitPackages.Proofs.Views
import SplitPackages.Search

/-!
# What searching does

A search asks every declaring module of a split what it sees, merges what they
see, and stores what comes of it (`Searches`). `search_registers` relates both
its answer and the entry that it leaves to their views at the time of asking;
meanwhile a module may store something in the split only if it is its home
(`StoredBy`). `child_spec` says where the answer of `child` comes from: an
entry, the view of the module, or a search.
-/

namespace SplitPackages

/-- The entries of the binding stand for what the module sees below it. -/
def Package.EntriesFor (r : Package) (m : ModuleId) : Prop :=
  r.isSplit = true ∨ r.isPlain = true ∧ r.home = m

namespace Environment

/-- The answer of a search that was done at `mid`. -/
def Searched (mid : Environment) (c : PackageId) (home : ModuleId) (path : Path)
    (answer : Option PackageId) : Prop :=
  answer = none ∧ mid.Contributed c path [] ∨ ∃ q, answer = some q ∧ mid.Found c home path q

/-- What the modules see at the path, one after the other. -/
def SeesAt (env : Environment) (path : Path) (ks : List ModuleId) (refs : List Ref) : Prop :=
  List.Forall₂ (fun k ref => env.seen k path = some ref) ks refs

/-- The bindings among what is seen, without those that have a missing type. -/
def untainted (env : Environment) (refs : List Ref) : List PackageId :=
  (refs.filterMap Ref.package?).filter fun p => !env.tainted p

/-- What comes of the distinct bindings that a search came upon. -/
inductive MergesFound (env : Environment) (home : ModuleId) (path : Path) :
    List PackageId → Option PackageId → Environment → Prop
  | nothing : MergesFound env home path [] none env
  | one {p : PackageId} : MergesFound env home path [p] (some p) env
  | split {p q : PackageId} {ps : List PackageId} {parent : Option PackageId}
      {after : Environment} : env.Allots home path parent (p :: q :: ps) after →
      MergesFound env home path (p :: q :: ps) (some ⟨env.packages.size⟩) after

/-- What splits know beyond `env` is known to splits that their homes, which are among the modules,
see themselves, and is what the homes see there. -/
def StoredBy (env : Environment) (ks : List ModuleId) (after : Environment) : Prop :=
  ∀ p r x ref, after.package p = .ok r → r.isSplit = true → after.entry p x = some ref →
    env.entry p x = some ref ∨ r.home ∈ ks ∧ after.seen r.home r.path = some (.package p) ∧
      after.seen r.home (.sub r.path x) = some ref

/-- The last step of a search for `m`: its answer is registered, or the lack of one is recorded. -/
inductive Concludes (env : Environment) (c : PackageId) (r : Package) (name : String)
    (m : ModuleId) : Option PackageId → Environment → Prop
  | missed {after : Environment} : env.Learns c name .notFound after →
      Concludes env c r name m none after
  | found {q e : PackageId} {ref : Ref} {first mid next after : Environment} :
      env.Enlists c r name q m e ref first mid next after → Concludes env c r name m (some q) after

/-- The steps of a search below the split `c` for `m`: its modules are asked in turn and see `refs`,
the untainted bindings among these are merged, and what comes of it is stored. -/
structure Searches (env : Environment) (c : PackageId) (r : Package) (name : String) (m : ModuleId)
    (refs : List Ref) (asked merged : Environment) (answer : Option PackageId)
    (after : Environment) : Prop where
  changes : env.Changes asked
  stored : env.StoredBy (env.members c) asked
  sees : asked.SeesAt (.sub r.path name) (env.members c) refs
  merges : asked.MergesFound r.home (.sub r.path name)
    (OrderedSet.ofList (asked.untainted refs)).toList answer merged
  concludes : ∃ r', merged.package c = .ok r' ∧ merged.Concludes c r' name m answer after

/-- What a search for `m` answers and stores once the members have been asked. -/
inductive Registers (env : Environment) (c : PackageId) (r : Package) (name : String)
    (m : ModuleId) : Option PackageId → Environment → Prop
  | missed {after : Environment} : env.Contributed c (.sub r.path name) [] →
      after.entry c name = some .notFound → Registers env c r name m none after
  | found {mid after : Environment} {q e : PackageId} {ref : Ref} :
      env.Found c r.home (.sub r.path name) q → env.tainted q = false → env.Grows mid →
      mid.Enriched c q m (.sub r.path name) e →
      mid.Combines r.home (.sub r.path name) e (env.entry c name) ref → mid.Keeps after →
      after.entry c name = some ref → Registers env c r name m (some q) after

/-- Where the answer of `child` comes from. -/
inductive ChildAnswer (env : Environment) (c : PackageId) (r : Package) (name : String)
    (m : ModuleId) (after : Environment) : Option PackageId → Prop
  | problem : r.kind = .problem → ChildAnswer env c r name m after none
  | stored {ref : Ref} : r.isSplit = true ∨ r.isPlain = true ∧ r.home = m →
      after.entry c name = some ref → ChildAnswer env c r name m after ref.package?
  | seen {ref : Ref} : r.isPlain = true → after.seen m (.sub r.path name) = some ref →
      ChildAnswer env c r name m after ref.package?
  | searched {mid : Environment} {answer : Option PackageId} : r.isSplit = true →
      env.Changes mid → mid.Changes after → Searched mid c r.home (.sub r.path name) answer →
      ChildAnswer env c r name m after answer

variable {env mid after : Environment} {b c p q : PackageId} {m k home : ModuleId} {r : Package}
  {path : Path} {name : String} {ref : Ref} {refs : List Ref} {ps : List PackageId}
  {ks : List ModuleId} {answer : Option PackageId}

theorem SeesAt.mem_iff (h : env.SeesAt path ks refs) :
    ref ∈ refs ↔ ∃ k ∈ ks, env.seen k path = some ref := by
  induction h with
  | nil => simp
  | @cons k x ks refs hs _ ih =>
    rw [List.mem_cons, ih, List.exists_mem_cons_iff, hs, Option.some.injEq, eq_comm]

theorem SeesAt.answered (h : env.SeesAt path ks refs) (hk : k ∈ ks) :
    ∃ ref, env.seen k path = some ref := by
  induction h with
  | nil => cases hk
  | cons hs _ ih =>
    rcases List.mem_cons.mp hk with rfl | hk
    · exact ⟨_, hs⟩
    · exact ih hk

theorem mem_packages : b ∈ refs.filterMap Ref.package? ↔ Ref.package b ∈ refs := by
  rw [List.mem_filterMap]
  constructor
  · rintro ⟨ref, href, e⟩
    cases ref with
    | notFound => cases e
    | package p => cases e; exact href
  · exact fun h => ⟨_, h, rfl⟩

theorem mem_untainted : b ∈ env.untainted refs ↔ env.tainted b = false ∧ Ref.package b ∈ refs := by
  rw [untainted, List.mem_filter, mem_packages, and_comm, Bool.not_eq_true']

theorem Keeps.untainted (h : env.Keeps after)
    (hrefs : ∀ p, Ref.package p ∈ refs → ∃ r, env.package p = .ok r) :
    after.untainted refs = env.untainted refs := by
  refine List.filter_congr fun p hp => ?_
  obtain ⟨r, hr⟩ := hrefs p (mem_packages.mp hp)
  rw [h.tainted hr]

theorem untainted_package (env : Environment) (p : PackageId) (refs : List Ref) :
    env.untainted (.package p :: refs) =
      if env.tainted p then env.untainted refs else p :: env.untainted refs := by
  cases h : env.tainted p <;> simp [untainted, Ref.package?, h]

/-- The distinct ones are what the modules of a split contribute. -/
theorem SeesAt.contributed (h : env.SeesAt path (env.members c) refs) :
    env.Contributed c path (OrderedSet.ofList (env.untainted refs)).toList :=
  ⟨fun _ hd => h.answered hd, fun b => by
    rw [← OrderedSet.mem_def, OrderedSet.mem_ofList, mem_untainted, h.mem_iff]⟩

theorem MergesFound.grows (h : env.MergesFound home path ps answer after) (hc : env.Coherent)
    (hm : ∃ record, env.module home = .ok record) (hps : ∀ p ∈ ps, env.Binds p path) :
    env.Grows after := by
  cases h with
  | nothing => exact .refl env
  | one => exact .refl env
  | split ha => exact ha.grows hc hm hps

theorem MergesFound.binds (h : env.MergesFound home path ps (some q) after)
    (hps : ∀ p ∈ ps, env.Binds p path) : after.Binds q path := by
  cases h with
  | one => exact hps q (List.mem_singleton_self q)
  | split ha => exact ⟨_, ha.record, rfl⟩

/-- One binding is used as it is, several are gathered in a split. -/
theorem MergesFound.gathers (h : env.MergesFound home path ps (some q) after) (hc : env.Coherent)
    (hm : ∃ record, env.module home = .ok record) (hps : ∀ p ∈ ps, env.Binds p path) :
    ps = [q] ∨ 2 ≤ ps.length ∧ after.Gathers home path ps q ∧ after.tainted q = false := by
  cases h with
  | one => exact .inl rfl
  | split ha =>
    exact .inr ⟨by simp, ha.gathers hc hm hps, tainted_of_package ha.record⟩

/-- One more module looks at a path first. -/
theorem StoredBy.cons (hl : env.Looks k path mid) (hch : mid.Changes after)
    (h : mid.StoredBy ks after) : env.StoredBy (k :: ks) after := by
  intro p r x ref hr hs he
  rcases h p r x ref hr hs he with he | ⟨hk, hseen⟩
  · refine (hl.entry he).imp_right ?_
    rintro ⟨r0, hr0, -, hown⟩
    obtain ⟨r', hr', e⟩ := hch.keeps.packages hr0
    cases package_unique hr hr'
    obtain ⟨rfl, habove, hseen⟩ := hown ((Package.isSplit_eq_of_bare e).symm.trans hs)
    rw [Package.home_eq_of_bare e, Package.path_eq_of_bare e]
    exact ⟨List.mem_cons_self, hch.seen habove, hch.seen hseen⟩
  · exact .inr ⟨List.mem_cons_of_mem _ hk, hseen⟩

theorem MergesFound.nil (h : env.MergesFound home path ps none after) : ps = [] := by
  cases h
  rfl

namespace Searches

variable {asked merged : Environment}

theorem contributed (h : env.Searches c r name m refs asked merged answer after)
    (hr : env.package c = .ok r) : asked.Contributed c (.sub r.path name)
      (OrderedSet.ofList (asked.untainted refs)).toList :=
  SeesAt.contributed (h.changes.keeps.members hr ▸ h.sees)

theorem home_ok (h : env.Searches c r name m refs asked merged answer after) (hc : env.Coherent)
    (hr : env.package c = .ok r) : ∃ record, asked.module r.home = .ok record :=
  h.changes.keeps.module_ok (hc.home hr)

theorem grows (h : env.Searches c r name m refs asked merged answer after) (hc : env.Coherent)
    (hr : env.package c = .ok r) : asked.Grows merged :=
  h.merges.grows (h.changes.coherent hc) (h.home_ok hc hr)
    ((h.contributed hr).binds (h.changes.coherent hc))

end Searches

theorem Registers.searched (h : env.Registers c r name m answer after) :
    env.Searched c r.home (.sub r.path name) answer := by
  cases h with
  | missed hcon => exact .inl ⟨rfl, hcon⟩
  | found hfound => exact .inr ⟨_, rfl, hfound⟩

theorem Registers.entry (h : env.Registers c r name m answer after) :
    ∃ ref, after.entry c name = some ref := by
  cases h with
  | missed _ he => exact ⟨_, he⟩
  | found _ _ _ _ _ _ he => exact ⟨_, he⟩

end Environment

namespace Lookup

open Environment

variable {env : Environment} {c : PackageId} {m : ModuleId} {r : Package}

theorem contributions_spec (path : Path) : ∀ (ks : List ModuleId) {env : Environment}, env.Coherent →
    (∀ k ∈ ks, ∃ record, env.module k = .ok record) →
    (contributions path ks).Ensures env fun ps after => env.Changes after ∧
      env.StoredBy ks after ∧ ∃ refs, after.SeesAt path ks refs ∧ ps = after.untainted refs
  | [], env, _, _ => Ensures.pure ⟨.refl, fun _ _ _ _ _ _ he => .inl he, [], .nil, rfl⟩
  | k :: ks, env, hc, hall => by
    refine (view_spec hc (hall k List.mem_cons_self) path).bind ?_
    rintro ref mid ⟨hch, hl, hs⟩
    have hmid := hch.coherent hc
    refine Ensures.step (Gives.note _) ?_
    have ih := contributions_spec path ks hmid fun d hd =>
      hch.keeps.module_ok (hall d (List.mem_cons_of_mem _ hd))
    cases ref with
    | notFound =>
      refine ih.mono fun ps after ⟨hch', hst, refs, hsees, hps⟩ => ?_
      exact ⟨hch.trans hch', .cons hl hch' hst, _, .cons (hch'.seen hs) hsees, hps⟩
    | package p =>
      obtain ⟨rp, hrp, -⟩ := hmid.seen hs
      have hsame {after : Environment} (hch' : mid.Changes after) :
          after.tainted p = rp.missingType := by
        rw [hch'.keeps.tainted hrp, tainted_of_package hrp]
      refine Ensures.step (Gives.ask hrp) ?_
      by_cases ht : rp.missingType = true
      · rw [if_pos ht]
        refine ih.mono fun ps after ⟨hch', hst, refs, hsees, hps⟩ => ?_
        refine ⟨hch.trans hch', .cons hl hch' hst, _, .cons (hch'.seen hs) hsees, ?_⟩
        rw [untainted_package, hsame hch', if_pos ht, hps]
      · rw [if_neg ht]
        refine ih.bind fun ps after ⟨hch', hst, refs, hsees, hps⟩ => Ensures.pure ?_
        refine ⟨hch.trans hch', .cons hl hch' hst, _, .cons (hch'.seen hs) hsees, ?_⟩
        rw [untainted_package, hsame hch', if_neg ht, hps]

theorem mergeFound_merges (hc : env.Coherent) {ps : List PackageId}
    (hps : ∀ p ∈ ps, env.Binds p path) (home : ModuleId) :
    (mergeFound home ps).Ensures env (env.MergesFound home path ps) := by
  match ps, hps with
  | [], _ => exact Ensures.pure .nothing
  | [p], hps =>
    obtain ⟨r, hr, -⟩ := hps p List.mem_cons_self
    exact Ensures.step (Gives.ask hr) (Ensures.noteIf (Ensures.pure .one))
  | p :: q :: ps, hps =>
    obtain ⟨r, hr, rfl⟩ := hps p List.mem_cons_self
    refine (newSplit_allots hc hr home).bind ?_
    rintro split mid ⟨rfl, ha⟩
    obtain ⟨after, hafter, ha⟩ := ha.addAll hc (q :: ps) fun x hx =>
      (hps x (List.mem_cons_of_mem _ hx)).there
    exact Ensures.step (Gives.update hafter) (Ensures.pure (.split ha))

theorem search_searches (hc : env.Coherent) (hr : env.package c = .ok r) (hs : r.isSplit = true)
    (name : String) (m : ModuleId) : (search c name m).Ensures env fun answer after =>
      ∃ refs asked merged, env.Searches c r name m refs asked merged answer after := by
  refine Ensures.within (Ensures.step (Gives.ask hr) ?_)
  simp only [hs, Bool.not_true, Bool.false_eq_true, if_false]
  refine Ensures.noteIf (Ensures.step (Gives.note _) ?_)
  rw [← members_of_package hr]
  have hmods : ∀ k ∈ env.members c, ∃ record, env.module k = .ok record :=
    fun k hk => (hc.declares_of_mem_members hr hk).module
  refine (contributions_spec (.sub r.path name) (env.members c) hc hmods).bind ?_
  rintro _ asked ⟨hch, hst, refs, hsees, rfl⟩
  have hc1 := hch.coherent hc
  obtain ⟨r1, hr1, e1⟩ := hch.keeps.packages hr
  have hs1 : r1.isSplit = true := (Package.isSplit_eq_of_bare e1).trans hs
  have hhome := hch.keeps.module_ok (hc.home hr)
  have hcon : asked.Contributed c (.sub r.path name)
      (OrderedSet.ofList (asked.untainted refs)).toList :=
    SeesAt.contributed (hch.keeps.members hr ▸ hsees)
  refine (mergeFound_merges hc1 (hcon.binds hc1) r.home).bind fun answer merged hu => ?_
  refine Ensures.step (Gives.note _) ?_
  have hg := hu.grows hc1 hhome (hcon.binds hc1)
  obtain ⟨r2, hr2, e2⟩ := hg.old hr1
  rw [Package.eq_of_unwrapped e2 hs1] at hr2
  cases answer with
  | none =>
    obtain ⟨after, hgives, hl⟩ := learnMissing_learns hr2 name
    exact Ensures.step hgives (Ensures.pure
      ⟨refs, asked, merged, hch, hst, hsees, hu, r1, hr2, .missed hl⟩)
  | some q =>
    have hbq : merged.Binds q (.sub r1.path name) :=
      Package.path_eq_of_bare e1 ▸ hu.binds (hcon.binds hc1)
    obtain ⟨rq, hrq⟩ := hbq.there
    refine Ensures.step (Gives.ask hrq) (Ensures.noteIf (Ensures.noteIf ?_))
    have hadd := addUnderSplit_enlists (hg.coherent hc1) hr2 hs1 hbq m
    refine ((addChild_split hr2 hs1 hadd).discard (Q := fun _ after => merged.Concludes c r1 name m
      (some q) after) fun e after ⟨ref, first, mid, next, h⟩ => .found h).bind fun _ after h => ?_
    exact Ensures.pure ⟨refs, asked, merged, hch, hst, hsees, hu, r1, hr2, h⟩

theorem search_registers (hc : env.Coherent) (hr : env.package c = .ok r) (hs : r.isSplit = true)
    (name : String) (m : ModuleId) : (search c name m).Ensures env fun answer after =>
      ∃ mid, env.Changes mid ∧ mid.Changes after ∧ env.StoredBy (env.members c) mid ∧
        mid.Registers c r name m answer after := by
  refine (search_searches hc hr hs name m).mono ?_
  rintro answer after ⟨refs, asked, merged, h⟩
  obtain ⟨r2, hr2, hend⟩ := h.concludes
  have hc1 := h.changes.coherent hc
  have hcon := h.contributed hr
  have hg := h.grows hc hr
  have hch2 : env.Changes merged := h.changes.trans (.single (.grow hg))
  have hc2 := hg.coherent hc1
  obtain ⟨r2', hr2', e2⟩ := hch2.keeps.packages hr
  cases package_unique hr2 hr2'
  have hs2 : r2.isSplit = true := (Package.isSplit_eq_of_bare e2).trans hs
  have hhome : r2.home = r.home := Package.home_eq_of_bare e2
  have hpath : r2.path = r.path := Package.path_eq_of_bare e2
  -- merging stores nothing
  have hst : env.StoredBy (env.members c) merged := by
    intro p rp x ref hrp hsp he
    have he1 := hg.entry_back he
    obtain ⟨rp1, hrp1, -⟩ := package_of_entry he1
    obtain ⟨rp2, hrp2, e⟩ := hg.keeps.packages hrp1
    cases package_unique hrp hrp2
    rw [Package.home_eq_of_bare e, Package.path_eq_of_bare e, hg.seen, hg.seen]
    exact h.stored p rp1 x ref hrp1 ((Package.isSplit_eq_of_bare e).symm.trans hsp) he1
  obtain ⟨r1, hr1, -⟩ := h.changes.keeps.packages hr
  have hcon2 := hcon.later hc1 (.single (.grow hg)) hr1
  cases hend with
  | missed hl =>
    have hnil : (OrderedSet.ofList (asked.untainted refs)).toList = [] := h.merges.nil
    rw [hnil] at hcon2
    refine ⟨merged, hch2, .single (.learn hr2 (.vain hs2 (hpath.symm ▸ hcon2)) hl), hst, ?_⟩
    exact .missed hcon2 (by rw [hl.entry, if_pos ⟨rfl, rfl⟩])
  | @found q e ref first mid next _ hen =>
    have hgath := h.merges.gathers hc1 (h.home_ok hc hr) (hcon.binds hc1)
    have hfound : merged.Found c r.home (.sub r.path name) q :=
      ⟨_, hcon2, hgath.imp_right fun h => ⟨h.1, h.2.1⟩⟩
    have htq : merged.tainted q = false := by
      rcases hgath with hone | ⟨-, -, ht⟩
      · exact ((hcon2.2 q).mp (hone ▸ List.mem_singleton_self q)).1
      · exact ht
    obtain ⟨hch, -, mid, ref, hgm, he, hcomb, hk, hent⟩ := hen.spec hc2 hr2 hs2
      (hpath.symm ▸ hfound.binds hc2) fun hgm he hcomb => by
        rw [← hgm.entry hr2] at hcomb
        refine .searched hs2 ?_ he hcomb
        rw [hhome, hpath]
        exact hfound.later hc2 (.single (.grow hgm)) hr2
    rw [hpath] at he
    rw [hhome, hpath] at hcomb
    exact ⟨merged, hch2, hch, hst, .found hfound htq hgm he hcomb hk hent⟩

theorem search_spec (hc : env.Coherent) (hr : env.package c = .ok r) (name : String)
    (m : ModuleId) : (search c name m).Ensures env fun answer after => env.Changes after ∧
      (r.isSplit = false ∧ answer = none ∨ (∃ ref, after.entry c name = some ref) ∧
        ∃ mid, env.Changes mid ∧ mid.Changes after ∧
          Searched mid c r.home (.sub r.path name) answer) := by
  by_cases hs : r.isSplit = true
  · refine (search_registers hc hr hs name m).mono ?_
    rintro answer after ⟨mid, hch, hch', -, hreg⟩
    exact ⟨hch.trans hch', .inr ⟨hreg.entry, mid, hch, hch', hreg.searched⟩⟩
  · refine Ensures.within (Ensures.step (Gives.ask hr) ?_)
    simp only [hs, Bool.not_false, if_true]
    exact Ensures.step (Gives.note _) (Ensures.pure ⟨.refl, .inl ⟨trivial, rfl⟩⟩)

theorem childOfPlain_spec (hc : env.Coherent) (hr : env.package c = .ok r) (hpl : r.isPlain = true)
    (hm : ∃ record, env.module m = .ok record) (name : String) :
    (childOfPlain c r name m).Ensures env fun answer after => env.Changes after ∧
      ChildAnswer env c r name m after answer ∧
        (r.home = m → ∃ ref, after.entry c name = some ref) := by
  have hview := view_spec hc hm (.sub r.path name)
  unfold childOfPlain
  by_cases hhome : r.home = m
  · rw [if_pos hhome]
    cases hget : r.known.get? name with
    | some ref =>
      have he : env.entry c name = some ref := by rw [entry_of_package hr, hget]
      exact Ensures.pure ⟨.refl, .stored (.inr ⟨hpl, hhome⟩) he, fun _ => ⟨ref, he⟩⟩
    | none =>
      refine hview.bind ?_
      rintro ref mid ⟨hch, _, hs⟩
      have hmid := hch.coherent hc
      obtain ⟨r', hr', e⟩ := hch.keeps.packages hr
      have hpath : r'.path = r.path := Package.path_eq_of_bare e
      have hs' : r'.isSplit = false :=
        (Package.isSplit_eq_of_bare e).trans (Package.isSplit_of_isPlain hpl)
      have hground : mid.Grounds c r' name ref := by
        refine .seen hs' ?_
        rw [Package.home_eq_of_bare e, hhome, hpath, hs]
      refine Ensures.step (Gives.ask hr') ?_
      by_cases hk : (r'.known.get? name).isNone = true
      · rw [if_pos hk]
        cases ref with
        | notFound =>
          obtain ⟨last, hlast, hch', hf, he⟩ := learnMissing_gives hr' hground
          refine Ensures.step hlast (Ensures.pure ⟨hch.trans hch', .seen hpl ?_, fun _ => ⟨_, he⟩⟩)
          exact (hf.seen _ _).trans hs
        | package p =>
          have hadd := addChild_spec hr' hs' (hpath.symm ▸ hmid.seen hs) m hground
          refine Ensures.bind (hadd.discard (Q := fun _ last => mid.Changes last ∧
            mid.Fills c name r'.path last ∧ last.entry c name = some (.package p)) fun _ last h => h.2)
            fun _ last ⟨hch', hf, he⟩ => Ensures.pure ⟨hch.trans hch', .seen hpl ?_, fun _ => ⟨_, he⟩⟩
          exact (hf.seen _ _).trans hs
      · rw [if_neg hk]
        refine Ensures.pure ⟨hch, .seen hpl hs, fun _ => ?_⟩
        rw [Option.isNone_iff_eq_none] at hk
        rw [entry_of_package hr']
        exact Option.ne_none_iff_exists'.mp hk
  · rw [if_neg hhome]
    refine hview.bind ?_
    rintro ref mid ⟨hch, _, hs⟩
    exact Ensures.pure ⟨hch, .seen hpl hs, fun h => absurd h hhome⟩

/-- A module that may go by the entries of the binding has one of the name afterwards. -/
theorem child_spec (hc : env.Coherent) (hr : env.package c = .ok r)
    (hm : ∃ record, env.module m = .ok record) (name : String) :
    (child c name m).Ensures env fun answer after => env.Changes after ∧
      ChildAnswer env c r name m after answer ∧
        (r.EntriesFor m → ∃ ref, after.entry c name = some ref) := by
  refine Ensures.step (Gives.ask hr) ?_
  cases hk : r.kind with
  | problem =>
    refine Ensures.pure ⟨.refl, .problem hk, ?_⟩
    rintro (hs | ⟨hpl, -⟩)
    · simp [Package.isSplit, Package.split?, hk] at hs
    · simp [Package.isPlain, Package.plain?, hk] at hpl
  | plain plain =>
    have hpl := Package.isPlain_of_kind hk
    refine (childOfPlain_spec hc hr hpl hm name).mono ?_
    rintro answer after ⟨hch, ha, he⟩
    refine ⟨hch, ha, ?_⟩
    rintro (hs | ⟨-, hhome⟩)
    · rw [Package.isSplit_of_isPlain hpl] at hs
      cases hs
    · exact he hhome
  | split s =>
    have hs := Package.isSplit_of_kind hk
    refine (strict_spec hc hr name).bind ?_
    rintro answer mid ⟨hch, _, h⟩
    rcases h with ⟨rfl, -, -⟩ | ⟨ref, rfl, he, -⟩
    · obtain ⟨r', hr', e⟩ := hch.keeps.packages hr
      have hhome : r'.home = r.home := Package.home_eq_of_bare e
      have hpath : r'.path = r.path := Package.path_eq_of_bare e
      refine (search_spec (hch.coherent hc) hr' name m).mono ?_
      rintro answer after ⟨hch', h⟩
      refine ⟨hch.trans hch', ?_⟩
      rcases h with ⟨hs', -⟩ | ⟨he, last, hl, hl', h⟩
      · rw [Package.isSplit_eq_of_bare e, hs] at hs'
        cases hs'
      · rw [hhome, hpath] at h
        exact ⟨.searched hs (hch.trans hl) hl' h, fun _ => he⟩
    · exact Ensures.pure ⟨hch, .stored (.inl hs) he, fun _ => ⟨ref, he⟩⟩

end Lookup

end SplitPackages
