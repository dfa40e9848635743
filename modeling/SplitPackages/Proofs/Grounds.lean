import SplitPackages.Proofs.Merges
import SplitPackages.Proofs.Storage

/-!
# Grounds for what is stored

Nothing gets into a cache without grounds. `Grounds env c name ref` lists them
for an entry `ref` below `c`, and `Sights env m path ref` for an answer in the
view of `m`; they refer to what the environment holds at that moment, so that
what is true of the caches can be shown one step at a time. `Offered`,
`Enriched` and `Found` are the three ways in which new bindings come up: from
the modules that offer a path, from the other modules of a split, and from the
views of the declaring modules.

A `Change` is one step of a lookup, and `Changes` a run of steps. Whatever a
lookup does is a run of steps, keeps what it leaves alone, and never takes an
answer out of a view.
-/

namespace SplitPackages.Environment

/-- The bindings are those that the module may look at, at the path. -/
def Candidates (env : Environment) (m : ModuleId) (path : Path) (ps : List PackageId) : Prop :=
  ∀ b, b ∈ ps ↔ ∃ k, env.declared k path = .ok (some b) ∧ env.Admits m path k

/-- What the module sees at the path if nothing is known. -/
def Offered (env : Environment) (m : ModuleId) (path : Path) (ref : Ref) : Prop :=
  ∃ ps, env.Candidates m path ps ∧
    (ps = [] ∧ ref = .notFound ∨ env.Merges m path (ps.map .package) ref)

/-- What the other modules of a split declare at the path. -/
def Siblings (env : Environment) (c child : PackageId) (m : ModuleId) (path : Path)
    (ps : List PackageId) : Prop :=
  ∀ b, b ∈ ps ↔ ∃ d ∈ env.members c, d ≠ m ∧ d ∉ env.members child ∧
    env.declared d path = .ok (some b)

/-- The child of a split together with its siblings. -/
def Enriched (env : Environment) (c child : PackageId) (m : ModuleId) (path : Path)
    (e : PackageId) : Prop :=
  ∃ ps, env.Siblings c child m path ps ∧
    (ps = [] ∧ e = child ∨ ps ≠ [] ∧ ∃ r, env.package child = .ok r ∧
      env.Merges r.home path ((ps ++ [child]).map .package) (.package e))

/-- Whether a lookup below the binding met a missing type. -/
def tainted (env : Environment) (p : PackageId) : Bool :=
  match env.package p with
  | .ok r => r.missingType
  | .error _ => false

/-- The bindings are those that the declaring modules of `c` see at the path. -/
def Contributed (env : Environment) (c : PackageId) (path : Path) (ps : List PackageId) : Prop :=
  (∀ d ∈ env.members c, ∃ ref, env.seen d path = some ref) ∧
    ∀ b, b ∈ ps ↔ env.tainted b = false ∧ ∃ d ∈ env.members c, env.seen d path = some (.package b)

/-- The result of a search that is not in vain. -/
def Found (env : Environment) (c : PackageId) (home : ModuleId) (path : Path) (q : PackageId) :
    Prop :=
  ∃ ps, env.Contributed c path ps ∧ (ps = [q] ∨ 2 ≤ ps.length ∧ env.Gathers home path ps q)

inductive Grounds (env : Environment) (c : PackageId) (r : Package) (name : String) : Ref → Prop
  /-- What the home of a plain binding itself declares. -/
  | own {b : PackageId} : r.isPlain = true → env.declared r.home (.sub r.path name) = .ok (some b) →
      Grounds env c r name (.package b)
  /-- The entries of all incarnations. -/
  | merged {s : Split} {refs : List Ref} {ref : Ref} : r.kind = .split s →
      s.incarnations.toList.map (env.entry · name) = refs.map some →
      env.Merges r.home (.sub r.path name) refs ref → Grounds env c r name ref
  /-- What the home is to see below the binding, if it sees the binding itself above. -/
  | offered {ref : Ref} : r.isSplit = false ∨ ref = .notFound →
      env.seen r.home r.path = some (.package c) → env.seen r.home (.sub r.path name) = none →
      env.Offered r.home (.sub r.path name) ref → Grounds env c r name ref
  | enriched {b e : PackageId} : r.isSplit = true → env.seen r.home r.path = some (.package c) →
      env.Offered r.home (.sub r.path name) (.package b) →
      env.Enriched c b r.home (.sub r.path name) e → Grounds env c r name (.package e)
  /-- What the home of a binding that is not a split has seen. -/
  | seen {ref : Ref} : r.isSplit = false → env.seen r.home (.sub r.path name) = some ref →
      Grounds env c r name ref
  | searched {q e : PackageId} {m : ModuleId} {ref : Ref} : r.isSplit = true →
      env.Found c r.home (.sub r.path name) q → env.Enriched c q m (.sub r.path name) e →
      env.Combines r.home (.sub r.path name) e (env.entry c name) ref → Grounds env c r name ref
  | vain : r.isSplit = true → env.Contributed c (.sub r.path name) [] →
      Grounds env c r name .notFound

inductive Sights (env : Environment) (m : ModuleId) : Path → Ref → Prop
  /-- Nothing is below a package that is not there. -/
  | below {path : Path} {name : String} : env.seen m path = some .notFound →
      Sights env m (.sub path name) .notFound
  | top {name : String} {ref : Ref} : env.Offered m (.top name) ref → Sights env m (.top name) ref
  | foreign {path : Path} {name : String} {c : PackageId} {r : Package} {ref : Ref} :
      env.seen m path = some (.package c) → env.package c = .ok r → r.home ≠ m →
      env.Offered m (.sub path name) ref → Sights env m (.sub path name) ref
  /-- Below a binding of its own the module sees what is stored there. -/
  | stored {path : Path} {name : String} {c : PackageId} {r : Package} {ref : Ref} :
      env.seen m path = some (.package c) → env.package c = .ok r → r.home = m →
      env.entry c name = some ref → Sights env m (.sub path name) ref

inductive Change (env : Environment) : Environment → Prop
  | grow {after : Environment} : env.Grows after → Change env after
  | memo {after : Environment} {c : PackageId} {r : Package} {name : String}
      {v : List Ref × Option Ref} : env.package c = .ok r → env.Memoizes c name v after →
      (∀ q, v.2 = some (.package q) → env.Binds q (.sub r.path name)) → Change env after
  | learn {after : Environment} {c : PackageId} {r : Package} {name : String} {ref : Ref} :
      env.package c = .ok r → env.Grounds c r name ref → env.Learns c name ref after →
      Change env after
  | remember {after : Environment} {m : ModuleId} {path : Path} {ref : Ref} :
      env.seen m path = none → env.Sights m path ref → env.Remembers m path ref after →
      Change env after

/-- A run of steps. -/
inductive Changes (env : Environment) : Environment → Prop
  | refl : Changes env env
  | tail {mid after : Environment} : Changes env mid → mid.Change after → Changes env after

variable {env mid after : Environment} {c child e p q : PackageId} {m k : ModuleId} {r : Package}
  {path : Path} {name : String} {ref : Ref} {ps : List PackageId}

theorem tainted_of_package (h : env.package p = .ok r) : env.tainted p = r.missingType := by
  simp only [tainted, h]

/-! ## Grounds name bindings of the path -/

theorem Coherent.binds_of_declared (hc : env.Coherent) (h : env.declared k path = .ok (some p)) :
    env.Binds p path := by
  obtain ⟨r, hr, hpath, -⟩ := hc.declared h
  exact ⟨r, hr, hpath⟩

theorem allBind_map (h : ∀ p ∈ ps, env.Binds p path) : env.AllBind path (ps.map .package) := by
  intro p hp
  obtain ⟨q, hq, e⟩ := List.mem_map.mp hp
  cases e
  exact h p hq

theorem Candidates.binds (hc : env.Coherent) (h : env.Candidates m path ps) :
    ∀ p ∈ ps, env.Binds p path := by
  intro p hp
  obtain ⟨k, hk, -⟩ := (h p).mp hp
  exact hc.binds_of_declared hk

theorem Offered.binds (hc : env.Coherent) (h : env.Offered m path (.package q)) :
    env.Binds q path := by
  obtain ⟨ps, hps, ⟨-, e⟩ | hm⟩ := h
  · cases e
  · exact hm.binds (allBind_map (hps.binds hc))

theorem Siblings.binds (hc : env.Coherent) (h : env.Siblings c child m path ps) :
    ∀ p ∈ ps, env.Binds p path := by
  intro p hp
  obtain ⟨d, -, -, -, hd⟩ := (h p).mp hp
  exact hc.binds_of_declared hd

theorem Siblings.with_child_binds (hc : env.Coherent) (h : env.Siblings c child m path ps)
    (hb : env.Binds child path) : env.AllBind path ((ps ++ [child]).map .package) := by
  refine allBind_map fun p hp => ?_
  rcases List.mem_append.mp hp with hp | hp
  · exact h.binds hc p hp
  · rw [List.mem_singleton.mp hp]
    exact hb

theorem Enriched.binds (hc : env.Coherent) (h : env.Enriched c child m path e)
    (hb : env.Binds child path) : env.Binds e path := by
  obtain ⟨ps, hps, ⟨-, rfl⟩ | ⟨-, r, -, hm⟩⟩ := h
  · exact hb
  · exact hm.binds (hps.with_child_binds hc hb)

theorem Contributed.binds (hc : env.Coherent) (h : env.Contributed c path ps) :
    ∀ p ∈ ps, env.Binds p path := by
  intro p hp
  obtain ⟨-, d, -, hd⟩ := (h.2 p).mp hp
  exact hc.seen hd

theorem Found.binds (hc : env.Coherent) (h : env.Found c k path q) : env.Binds q path := by
  obtain ⟨ps, hps, rfl | ⟨-, hg⟩⟩ := h
  · exact hps.binds hc q (List.mem_singleton_self q)
  · obtain ⟨r, hr, hpath, -⟩ := hg.binds
    exact ⟨r, hr, hpath⟩

theorem Coherent.binds_of_entry (hc : env.Coherent) (hr : env.package c = .ok r)
    (h : env.entry c name = some (.package q)) : env.Binds q (.sub r.path name) := by
  rw [entry_of_package hr] at h
  exact hc.entry hr h

/-- The entries of the incarnations of a split bind the path. -/
theorem Coherent.incarnations_allBind (hc : env.Coherent) {s : Split} {refs : List Ref}
    (hr : env.package c = .ok r) (hk : r.kind = .split s)
    (h : s.incarnations.toList.map (env.entry · name) = refs.map some) :
    env.AllBind (.sub r.path name) refs := by
  intro q hq
  have hq := List.mem_map_of_mem (f := some) hq
  rw [← h] at hq
  obtain ⟨i, hi, he⟩ := List.mem_map.mp hq
  obtain ⟨ri, hri, -, hpath⟩ := (hc.split hr hk).plain hi
  rw [← hpath]
  exact hc.binds_of_entry hri he

theorem Grounds.binds (hc : env.Coherent) (hr : env.package c = .ok r)
    (h : env.Grounds c r name (.package q)) : env.Binds q (.sub r.path name) := by
  cases h with
  | own _ hd => exact hc.binds_of_declared hd
  | merged hk hrefs hm => exact hm.binds (hc.incarnations_allBind hr hk hrefs)
  | offered _ _ _ ho => exact ho.binds hc
  | enriched _ _ ho he => exact he.binds hc (ho.binds hc)
  | seen _ hs => exact hc.seen hs
  | searched _ hf he hcomb =>
    exact hcomb.binds (he.binds hc (hf.binds hc)) fun prev hp => hc.binds_of_entry hr hp

theorem Sights.binds (hc : env.Coherent) (h : env.Sights m path (.package q)) :
    env.Binds q path := by
  cases h with
  | top ho => exact ho.binds hc
  | foreign _ _ _ ho => exact ho.binds hc
  | stored hs hr _ he =>
    obtain ⟨r', hr', hpath⟩ := hc.seen hs
    cases package_unique hr hr'
    rw [← hpath]
    exact hc.binds_of_entry hr he

/-! ## Grounds last -/

theorem Candidates.keeps (h : env.Keeps after) (hps : env.Candidates m path ps) :
    after.Candidates m path ps := by
  intro b
  rw [hps b]
  simp only [h.declared, h.admits]

theorem Offered.keeps (hc : env.Coherent) (h : env.Keeps after) (ho : env.Offered m path ref) :
    after.Offered m path ref := by
  obtain ⟨ps, hps, ho⟩ := ho
  exact ⟨ps, hps.keeps h, ho.imp_right (h.merges (allBind_map (hps.binds hc)))⟩

theorem Siblings.keeps {rc : Package} (h : env.Keeps after) (hr : env.package c = .ok r)
    (hrc : env.package child = .ok rc) (hs : env.Siblings c child m path ps) :
    after.Siblings c child m path ps := by
  intro b
  rw [hs b, h.members hr, h.members hrc]
  simp only [h.declared]

theorem Enriched.keeps (hc : env.Coherent) (h : env.Keeps after) (hr : env.package c = .ok r)
    (hb : env.Binds child path) (he : env.Enriched c child m path e) :
    after.Enriched c child m path e := by
  obtain ⟨ps, hps, he⟩ := he
  obtain ⟨rc, hrc, -⟩ := id hb
  refine ⟨ps, hps.keeps h hr hrc, he.imp_right fun ⟨hne, r, hr, hm⟩ => ⟨hne, ?_⟩⟩
  obtain ⟨r', hr', e⟩ := h.packages hr
  refine ⟨r', hr', ?_⟩
  rw [Package.home_eq_of_bare e]
  exact h.merges (hps.with_child_binds hc hb) hm

theorem Keeps.tainted (h : env.Keeps after) (hr : env.package p = .ok r) :
    after.tainted p = env.tainted p := by
  obtain ⟨r', hr', e⟩ := h.packages hr
  rw [tainted_of_package hr', tainted_of_package hr, Package.missingType_eq_of_bare e]

/-! ## Steps -/

theorem Change.keeps (h : env.Change after) : env.Keeps after := by
  cases h with
  | grow h => exact h.keeps
  | memo _ h _ => exact h.keeps
  | learn _ _ h => exact h.keeps
  | remember _ _ h => exact h.keeps

theorem Change.coherent (h : env.Change after) (hc : env.Coherent) : after.Coherent := by
  cases h with
  | grow h => exact h.coherent hc
  | memo hr h hb => exact h.coherent hc hr hb
  | learn hr hg h => exact h.coherent hc hr fun q e => (e ▸ hg).binds hc hr
  | remember _ hs h => exact h.coherent hc fun q e => (e ▸ hs).binds hc

/-- What a module has seen stays. -/
theorem Change.seen (h : env.Change after) (hs : env.seen m path = some ref) :
    after.seen m path = some ref := by
  cases h with
  | grow h => rw [h.seen, hs]
  | memo _ h _ => rw [h.seen, hs]
  | learn _ _ h => rw [h.seen, hs]
  | remember hn _ h =>
    rw [h.seen, if_neg, hs]
    rintro ⟨rfl, rfl⟩
    rw [hn] at hs
    cases hs

/-- A new binding is a split. -/
theorem Change.package_back (h : env.Change after) (hp : after.package p = .ok r) :
    (∃ r0, env.package p = .ok r0) ∨ env.NewSplit r := by
  cases h with
  | grow h => exact h.new hp
  | memo _ h _ => exact .inl (h.package_back hp)
  | learn _ _ h => exact .inl (h.package_back hp)
  | remember _ _ h => exact .inl ⟨r, (h.package p).symm.trans hp⟩

/-- A new entry has grounds. -/
theorem Change.entry_back (h : env.Change after) (he : after.entry c name = some ref) :
    env.entry c name = some ref ∨ ∃ r, env.package c = .ok r ∧ env.Grounds c r name ref := by
  cases h with
  | grow h => exact .inl (h.entry_back he)
  | memo _ h _ => exact .inl ((h.entry c name).symm.trans he)
  | learn hr hg h =>
    rw [h.entry] at he
    split at he
    · next e =>
      obtain ⟨rfl, rfl⟩ := e
      cases he
      exact .inr ⟨_, hr, hg⟩
    · exact .inl he
  | remember _ _ h => exact .inl ((h.entry c name).symm.trans he)

/-- An entry may be replaced, but it is never taken out. -/
theorem Change.entry (h : env.Change after) (he : ∃ ref, env.entry c name = some ref) :
    ∃ ref, after.entry c name = some ref := by
  obtain ⟨ref, he⟩ := he
  cases h with
  | grow h =>
    obtain ⟨r, hr, -⟩ := package_of_entry he
    exact ⟨ref, (h.entry hr name).trans he⟩
  | memo _ h _ => exact ⟨ref, (h.entry c name).trans he⟩
  | learn _ _ h =>
    rw [h.entry]
    split
    · exact ⟨_, rfl⟩
    · exact ⟨ref, he⟩
  | remember _ _ h => exact ⟨ref, (h.entry c name).trans he⟩

/-- A new answer in a view has grounds. -/
theorem Change.seen_back (h : env.Change after) (hs : after.seen m path = some ref) :
    env.seen m path = some ref ∨ env.Sights m path ref := by
  cases h with
  | grow h => exact .inl ((h.seen m path).symm.trans hs)
  | memo _ h _ => exact .inl ((h.seen m path).symm.trans hs)
  | learn _ _ h => exact .inl ((h.seen m path).symm.trans hs)
  | remember _ hsights h =>
    rw [h.seen] at hs
    split at hs
    · next e =>
      obtain ⟨rfl, rfl⟩ := e
      cases hs
      exact .inr hsights
    · exact .inl hs

theorem Changes.single (h : env.Change after) : env.Changes after := .tail .refl h

theorem Changes.trans (h : env.Changes mid) (h2 : mid.Changes after) : env.Changes after := by
  induction h2 with
  | refl => exact h
  | tail _ hs ih => exact .tail ih hs

theorem Changes.keeps (h : env.Changes after) : env.Keeps after := by
  induction h with
  | refl => exact .refl env
  | tail _ hs ih => exact ih.trans hs.keeps

theorem Changes.coherent (h : env.Changes after) (hc : env.Coherent) : after.Coherent := by
  induction h with
  | refl => exact hc
  | tail _ hs ih => exact hs.coherent ih

theorem Changes.seen (h : env.Changes after) (hs : env.seen m path = some ref) :
    after.seen m path = some ref := by
  induction h with
  | refl => exact hs
  | tail _ h ih => exact h.seen ih

theorem Changes.entry (h : env.Changes after) (he : ∃ ref, env.entry c name = some ref) :
    ∃ ref, after.entry c name = some ref := by
  induction h with
  | refl => exact he
  | tail _ h ih => exact h.entry ih

/-- Once all modules of a split have looked at the path, they contribute the same later. -/
theorem Contributed.later (hps : env.Contributed c path ps) (hc : env.Coherent)
    (h : env.Changes after) (hr : env.package c = .ok r) : after.Contributed c path ps := by
  have hseen {d : ModuleId} (hd : d ∈ env.members c) : after.seen d path = env.seen d path := by
    obtain ⟨ref, hs⟩ := hps.1 d hd
    rw [hs, h.seen hs]
  refine ⟨fun d hd => ?_, fun b => ?_⟩
  · rw [h.keeps.members hr] at hd
    rw [hseen hd]
    exact hps.1 d hd
  · rw [hps.2 b, h.keeps.members hr]
    constructor
    · rintro ⟨ht, d, hd, hs⟩
      obtain ⟨rb, hrb, -⟩ := hc.seen hs
      exact ⟨(h.keeps.tainted hrb).trans ht, d, hd, h.seen hs⟩
    · rintro ⟨ht, d, hd, hs⟩
      rw [hseen hd] at hs
      obtain ⟨rb, hrb, -⟩ := hc.seen hs
      exact ⟨(h.keeps.tainted hrb).symm.trans ht, d, hd, hs⟩

theorem Found.later (hf : env.Found c k path q) (hc : env.Coherent) (h : env.Changes after)
    (hr : env.package c = .ok r) : after.Found c k path q := by
  obtain ⟨ps, hps, hf⟩ := hf
  refine ⟨ps, hps.later hc h hr, hf.imp_right fun ⟨hlen, hg⟩ => ⟨hlen, ?_⟩⟩
  exact h.keeps.gathers hg (hps.binds hc)

end SplitPackages.Environment
