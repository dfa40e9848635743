import SplitPackages.Proofs.Growth

/-!
# Filling caches

A lookup stores three kinds of facts. `Learns` stores an entry below a binding,
`Memoizes` the result of a relaxed lookup in a split, and `Remembers` an answer
in the view of a module. Each says where the environments differ, keeps
everything else, and preserves coherence if what is stored binds the right path.
-/

namespace SplitPackages

/-- The last relaxed lookup of a name in a split. -/
def Package.memo (r : Package) (name : String) : Option (List Ref × Option Ref) :=
  r.split?.bind (·.relaxed.get? name)

theorem Package.memo_of_kind {r : Package} {s : Split} (h : r.kind = .split s) (name : String) :
    r.memo name = s.relaxed.get? name := by
  simp only [memo, split?, h, Option.bind_some]

namespace Environment

/-- Only the caches of one binding differ. -/
structure Touches (env : Environment) (c : PackageId) (r r' : Package) (after : Environment) :
    Prop where
  modules : after.modules = env.modules
  types : after.types = env.types
  others : ∀ {q}, q ≠ c → after.package q = env.package q
  before : env.package c = .ok r
  now : after.package c = .ok r'
  bare : r'.bare = r.bare

def Learns (env : Environment) (c : PackageId) (name : String) (ref : Ref) (after : Environment) :
    Prop :=
  ∃ r r', env.Touches c r r' after ∧ r'.known = r.known.insert name ref ∧
    ∀ x v, r'.memo x = some v → r.memo x = some v

def Memoizes (env : Environment) (c : PackageId) (name : String) (v : List Ref × Option Ref)
    (after : Environment) : Prop :=
  ∃ r r', env.Touches c r r' after ∧ r'.known = r.known ∧
    ∀ x w, r'.memo x = some w → x = name ∧ w = v ∨ r.memo x = some w

def Remembers (env : Environment) (m : ModuleId) (path : Path) (ref : Ref) (after : Environment) :
    Prop :=
  env.setModule m (·.remember path ref) = .ok after

variable {env after : Environment} {c p q : PackageId} {m k : ModuleId} {r r' : Package}
  {path other : Path} {name x : String} {ref : Ref} {v : List Ref × Option Ref}

theorem touches_of_setPackage {f : Package → Package} (h : env.setPackage c f = .ok after)
    (hr : env.package c = .ok r) (hb : (f r).bare = r.bare) : env.Touches c r (f r) after where
  modules := modules_setPackage h
  types := types_setPackage h
  others hq := package_setPackage_ne h hq
  before := hr
  now := package_setPackage_self h hr
  bare := hb

theorem Touches.keeps (h : env.Touches c r r' after) : env.Keeps after where
  modules m := by rw [module_congr h.modules]
  size := by rw [h.modules]
  types := h.types
  packages {p r0} hp := by
    by_cases e : p = c
    · subst e
      rw [h.before] at hp
      cases hp
      exact ⟨r', h.now, h.bare⟩
    · exact ⟨r0, (h.others e).trans hp, rfl⟩

theorem Touches.package_back (h : env.Touches c r r' after) {r0 : Package}
    (hp : after.package p = .ok r0) : ∃ r1, env.package p = .ok r1 := by
  by_cases e : p = c
  · exact ⟨r, e ▸ h.before⟩
  · exact ⟨r0, (h.others e).symm.trans hp⟩

theorem Touches.seen (h : env.Touches c r r' after) (m : ModuleId) (path : Path) :
    after.seen m path = env.seen m path := by
  simp only [Environment.seen, module_congr h.modules]

/-- Of the caches of one binding, only the touched ones have to be checked. -/
theorem Touches.coherent (h : env.Touches c r r' after) (hc : env.Coherent)
    (hentry : ∀ {name q}, r'.known.get? name = some (.package q) → env.Binds q (.sub r.path name))
    (hmemo : ∀ {name entries q}, r'.memo name = some (entries, some (.package q)) →
      env.Binds q (.sub r.path name)) : after.Coherent := by
  refine hc.later h.keeps (fun hp => .inl (h.package_back hp)) ?_ ?_ ?_
  · intro p r0 name q hp he
    by_cases e : p = c
    · subst e
      rw [h.now] at hp
      cases hp
      rw [Package.path_eq_of_bare h.bare]
      exact h.keeps.binds (hentry he)
    · rw [h.others e] at hp
      exact h.keeps.binds (hc.entry hp he)
  · intro p r0 s name entries q hp hk he
    by_cases e : p = c
    · subst e
      rw [h.now] at hp
      cases hp
      rw [Package.path_eq_of_bare h.bare]
      exact h.keeps.binds (hmemo ((Package.memo_of_kind hk name).trans he))
    · rw [h.others e] at hp
      exact h.keeps.binds (hc.memo hp hk he)
  · intro m path q hs
    rw [h.seen] at hs
    exact h.keeps.binds (hc.seen hs)

theorem Coherent.memo_binds (hc : env.Coherent) {entries : List Ref} (hr : env.package c = .ok r)
    (h : r.memo name = some (entries, some (.package q))) : env.Binds q (.sub r.path name) := by
  unfold Package.memo Package.split? at h
  split at h
  · next s hk => exact hc.memo hr hk h
  · cases h

/-! ## Entries -/

theorem Learns.keeps (h : env.Learns c name ref after) : env.Keeps after := by
  obtain ⟨r, r', ht, -⟩ := h
  exact ht.keeps

theorem Learns.package_back (h : env.Learns c name ref after) (hp : after.package p = .ok r) :
    ∃ r0, env.package p = .ok r0 := by
  obtain ⟨_, _, ht, -⟩ := h
  exact ht.package_back hp

theorem Learns.seen (h : env.Learns c name ref after) (m : ModuleId) (path : Path) :
    after.seen m path = env.seen m path := by
  obtain ⟨_, _, ht, -⟩ := h
  exact ht.seen m path

theorem Learns.entry (h : env.Learns c name ref after) (p : PackageId) (x : String) :
    after.entry p x = if p = c ∧ x = name then some ref else env.entry p x := by
  obtain ⟨r, r', ht, hk, -⟩ := h
  by_cases e : p = c
  · subst e
    rw [entry_of_package ht.now, entry_of_package ht.before, hk, Table.get?_insert]
    simp only [eq_comm, true_and]
  · rw [if_neg (fun h => e h.1)]
    unfold Environment.entry
    rw [ht.others e]

theorem Learns.coherent (h : env.Learns c name ref after) (hc : env.Coherent)
    (hr : env.package c = .ok r) (hb : ∀ q, ref = .package q → env.Binds q (.sub r.path name)) :
    after.Coherent := by
  obtain ⟨r0, r', ht, hk, hm⟩ := h
  have hr0 := ht.before
  rw [hr] at hr0
  cases hr0
  refine ht.coherent hc ?_ ?_
  · intro x q he
    rw [hk, Table.get?_insert] at he
    split at he
    · next e => subst e; cases he; exact hb q rfl
    · exact hc.entry hr he
  · intro x entries q he
    exact hc.memo_binds hr (hm x _ he)

theorem learns_of_setPackage (h : env.setPackage c (·.learn name ref) = .ok after)
    (hr : env.package c = .ok r) : env.Learns c name ref after :=
  ⟨r, r.learn name ref, touches_of_setPackage h hr rfl, rfl, fun _ _ h => h⟩

/-! ## Memos -/

theorem Memoizes.keeps (h : env.Memoizes c name v after) : env.Keeps after := by
  obtain ⟨r, r', ht, -⟩ := h
  exact ht.keeps

theorem Memoizes.package_back (h : env.Memoizes c name v after) (hp : after.package p = .ok r) :
    ∃ r0, env.package p = .ok r0 := by
  obtain ⟨_, _, ht, -⟩ := h
  exact ht.package_back hp

theorem Memoizes.seen (h : env.Memoizes c name v after) (m : ModuleId) (path : Path) :
    after.seen m path = env.seen m path := by
  obtain ⟨_, _, ht, -⟩ := h
  exact ht.seen m path

theorem Memoizes.entry (h : env.Memoizes c name v after) (p : PackageId) (x : String) :
    after.entry p x = env.entry p x := by
  obtain ⟨r, r', ht, hk, -⟩ := h
  by_cases e : p = c
  · subst e
    rw [entry_of_package ht.now, entry_of_package ht.before, hk]
  · unfold Environment.entry
    rw [ht.others e]

theorem Memoizes.coherent (h : env.Memoizes c name v after) (hc : env.Coherent)
    (hr : env.package c = .ok r) (hb : ∀ q, v.2 = some (.package q) → env.Binds q (.sub r.path name)) :
    after.Coherent := by
  obtain ⟨r0, r', ht, hk, hm⟩ := h
  have hr0 := ht.before
  rw [hr] at hr0
  cases hr0
  refine ht.coherent hc ?_ ?_
  · intro x q he
    rw [hk] at he
    exact hc.entry hr he
  · intro x entries q he
    rcases hm x _ he with ⟨rfl, rfl⟩ | he
    · exact hb q rfl
    · exact hc.memo_binds hr he

/-! ## Views -/

theorem Remembers.modules (h : env.Remembers m path ref after) (k : ModuleId) :
    Module.bare <$> after.module k = Module.bare <$> env.module k := by
  rw [module_setModule h]
  split
  · cases env.module k <;> rfl
  · rfl

theorem Remembers.package (h : env.Remembers m path ref after) (p : PackageId) :
    after.package p = env.package p :=
  package_congr (packages_setModule h) p

theorem Remembers.keeps (h : env.Remembers m path ref after) : env.Keeps after where
  modules := h.modules
  size := size_setModule h
  types := types_setModule h
  packages hp := ⟨_, (h.package _).trans hp, rfl⟩

theorem Remembers.entry (h : env.Remembers m path ref after) (p : PackageId) (x : String) :
    after.entry p x = env.entry p x := by
  unfold Environment.entry
  rw [h.package]

theorem Remembers.seen (h : env.Remembers m path ref after) (k : ModuleId) (other : Path) :
    after.seen k other = if k = m ∧ other = path then some ref else env.seen k other := by
  by_cases e : k = m
  · subst e
    have hlt : k.index < env.modules.size := by
      unfold Remembers setModule at h
      split at h
      · assumption
      · cases h
    obtain ⟨record, hr⟩ := module_of_lt_size hlt
    rw [seen_of_module (module_setModule_self h hr), seen_of_module hr]
    simp only [Module.remember, Table.get?_insert, eq_comm, true_and]
  · rw [if_neg (fun h => e h.1)]
    unfold Environment.seen
    rw [module_setModule_ne h e]

theorem Remembers.coherent (h : env.Remembers m path ref after) (hc : env.Coherent)
    (hb : ∀ q, ref = .package q → env.Binds q path) : after.Coherent := by
  refine hc.later h.keeps (fun hp => .inl ⟨_, (h.package _).symm.trans hp⟩) ?_ ?_ ?_
  · intro p r name q hp he
    rw [h.package] at hp
    exact h.keeps.binds (hc.entry hp he)
  · intro p r s name entries q hp hk he
    rw [h.package] at hp
    exact h.keeps.binds (hc.memo hp hk he)
  · intro k other q hs
    rw [h.seen] at hs
    split at hs
    · next e =>
      cases hs
      rw [e.2]
      exact h.keeps.binds (hb q rfl)
    · exact h.keeps.binds (hc.seen hs)

/-! ## New splits -/

theorem Grows.seen (h : env.Grows after) (m : ModuleId) (path : Path) :
    after.seen m path = env.seen m path := by
  simp only [Environment.seen, module_congr h.modules]

theorem Grows.entry (h : env.Grows after) (hr : env.package p = .ok r) (x : String) :
    after.entry p x = env.entry p x := by
  obtain ⟨r', hr', e⟩ := h.old hr
  rw [entry_of_package hr', entry_of_package hr, Package.known_eq_of_unwrapped e]

/-- Nothing is known below a new split. -/
theorem Grows.entry_back (h : env.Grows after) (he : after.entry p x = some ref) :
    env.entry p x = some ref := by
  obtain ⟨r, hr, hk⟩ := package_of_entry he
  rcases h.new hr with ⟨r0, hr0⟩ | hn
  · rw [← h.entry hr0, he]
  · rw [hn.known] at hk
    cases hk

theorem Grows.entry_eq (h : env.Grows after) (p : PackageId) (x : String) :
    after.entry p x = env.entry p x := by
  cases he : after.entry p x with
  | some ref => exact (h.entry_back he).symm
  | none =>
    cases he' : env.entry p x with
    | none => rfl
    | some ref =>
      obtain ⟨r, hr, -⟩ := package_of_entry he'
      rw [← he, h.entry hr, he']

end Environment

end SplitPackages
