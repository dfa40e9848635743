import SplitPackages.Proofs.Frame

/-!
# Coherent environments

In a coherent environment every identifier that is stored names a record, and
the records fit together: a module declares at most one binding at a path, and
the plain and problem bindings are exactly the declared ones; what is stored
below a binding under a name, or in a view at a path, is a binding of that
path; the incarnations of a split are plain and of its path, and its declaring
modules are their homes; a type is known to the plain binding that its record
names.

A module offers a path to another when it declares the path and the other may
look into it there: `Offers` is what `combineVisible` gathers.
-/

namespace SplitPackages.Environment

def Reads (env : Environment) (m k : ModuleId) : Prop := env.canRead m k = .ok true

def Exposes (env : Environment) (k : ModuleId) (path : Path) : Prop :=
  ∃ record, env.module k = .ok record ∧ record.exposes path = true

def Declares (env : Environment) (k : ModuleId) (path : Path) : Prop :=
  ∃ p, env.declared k path = .ok (some p)

/-- The module may look at the path into `k`: it is `k` itself, or it reads `k` and `k` exposes
the path. -/
def Admits (env : Environment) (m : ModuleId) (path : Path) (k : ModuleId) : Prop :=
  k = m ∨ env.Reads m k ∧ env.Exposes k path

def Offers (env : Environment) (m : ModuleId) (path : Path) (k : ModuleId) : Prop :=
  env.Declares k path ∧ env.Admits m path k

/-- A binding of the path. -/
def Binds (env : Environment) (p : PackageId) (path : Path) : Prop :=
  ∃ r, env.package p = .ok r ∧ r.path = path

/-- The state of a split of the path is sound; a split of problem bindings only is empty. -/
structure SoundSplit (env : Environment) (path : Path) (s : Split) : Prop where
  plain : ∀ {i}, i ∈ s.incarnations → ∃ r, env.package i = .ok r ∧ r.isPlain = true ∧ r.path = path
  declaring : ∀ k, k ∈ s.declaring ↔ ∃ i ∈ s.incarnations, ∃ r, env.package i = .ok r ∧ r.home = k

structure Coherent (env : Environment) : Prop where
  reads : ∀ {m record k}, env.module m = .ok record → k ∈ record.reads.keys →
    ∃ record', env.module k = .ok record'
  declared : ∀ {m path p}, env.declared m path = .ok (some p) →
    ∃ r, env.package p = .ok r ∧ r.path = path ∧ r.home = m ∧ r.isSplit = false
  own : ∀ {p r}, env.package p = .ok r → r.isSplit = false →
    env.declared r.home r.path = .ok (some p)
  home : ∀ {p r}, env.package p = .ok r → ∃ record, env.module r.home = .ok record
  enclosing : ∀ {m path name}, env.Declares m (.sub path name) → env.Declares m path
  split : ∀ {p r s}, env.package p = .ok r → r.kind = .split s → env.SoundSplit r.path s
  entry : ∀ {p r name q}, env.package p = .ok r → r.known.get? name = some (.package q) →
    env.Binds q (.sub r.path name)
  memo : ∀ {p r s name entries q}, env.package p = .ok r → r.kind = .split s →
    s.relaxed.get? name = some (entries, some (.package q)) → env.Binds q (.sub r.path name)
  seen : ∀ {m path q}, env.seen m path = some (.package q) → env.Binds q path
  types : ∀ {p r name t}, env.package p = .ok r → r.types.get? name = some t →
    r.isPlain = true ∧ env.typeRecord t = .ok ⟨name, p, r.home⟩

/-- The modules and incarnations that records name exist; so whoever asks who can read what, or
access it, gets an answer. -/
structure Closed (env : Environment) : Prop where
  reads : ∀ {m record k}, env.module m = .ok record → k ∈ record.reads.keys →
    ∃ record', env.module k = .ok record'
  home : ∀ {p r}, env.package p = .ok r → ∃ record, env.module r.home = .ok record
  incarnations : ∀ {p r i}, env.package p = .ok r → i ∈ r.incarnations →
    ∃ ri, env.package i = .ok ri

variable {env after : Environment} {p q : PackageId} {m k : ModuleId} {r r' : Package}
  {path : Path} {name : String}

theorem exposes_enclosing {record : Module} (h : record.exposes (.sub path name) = true) :
    record.exposes path = true := by
  simp only [Module.exposes, Bool.or_eq_true, List.any_eq_true] at h ⊢
  refine h.imp_right ?_
  rintro ⟨e, he, h⟩
  refine ⟨e, he, ?_⟩
  rw [Path.isPrefixOf_iff] at h ⊢
  exact (List.prefix_append _ _).trans h

theorem Exposes.enclosing (h : env.Exposes k (.sub path name)) : env.Exposes k path := by
  obtain ⟨record, hr, h⟩ := h
  exact ⟨record, hr, exposes_enclosing h⟩

theorem Admits.enclosing (h : env.Admits m (.sub path name) k) : env.Admits m path k :=
  h.imp_right fun h => ⟨h.1, h.2.enclosing⟩

theorem Declares.module (h : env.Declares m path) : ∃ record, env.module m = .ok record := by
  obtain ⟨p, h⟩ := h
  obtain ⟨record, hr, -⟩ := module_of_declared h
  exact ⟨record, hr⟩

theorem Reads.module (h : env.Reads m k) (hne : m ≠ k) : ∃ record, env.module m = .ok record := by
  unfold Reads Environment.canRead at h
  rw [if_neg hne] at h
  cases hm : env.module m with
  | ok record => exact ⟨record, rfl⟩
  | error e => rw [hm] at h; cases h

/-! ## The same questions later -/

theorem Keeps.reads (h : env.Keeps after) : after.Reads m k ↔ env.Reads m k := by
  unfold Reads; rw [h.canRead]

theorem Keeps.exposes (h : env.Keeps after) : after.Exposes k path ↔ env.Exposes k path := by
  constructor
  · rintro ⟨record, hr, hx⟩
    obtain ⟨record', hr', e⟩ := h.module_back hr
    exact ⟨record', hr', by rw [← Module.exposes_eq_of_bare e]; exact hx⟩
  · rintro ⟨record, hr, hx⟩
    obtain ⟨record', hr', e⟩ := h.module hr
    exact ⟨record', hr', by rw [Module.exposes_eq_of_bare e]; exact hx⟩

theorem Keeps.declares (h : env.Keeps after) : after.Declares k path ↔ env.Declares k path := by
  unfold Declares; simp only [h.declared]

theorem Keeps.admits (h : env.Keeps after) : after.Admits m path k ↔ env.Admits m path k := by
  unfold Admits; rw [h.reads, h.exposes]

theorem Keeps.offers (h : env.Keeps after) : after.Offers m path k ↔ env.Offers m path k := by
  unfold Offers; rw [h.declares, h.admits]

theorem Keeps.binds (h : env.Keeps after) (hb : env.Binds p path) : after.Binds p path := by
  obtain ⟨r, hr, e⟩ := hb
  obtain ⟨r', hr', e'⟩ := h.packages hr
  exact ⟨r', hr', (Package.path_eq_of_bare e').trans e⟩

theorem Keeps.soundSplit (h : env.Keeps after) {s s' : Split} (hs : env.SoundSplit path s)
    (hd : s'.declaring = s.declaring) (hi : s'.incarnations = s.incarnations) :
    after.SoundSplit path s' where
  plain {i} hm := by
    rw [hi] at hm
    obtain ⟨r, hr, hp, e⟩ := hs.plain hm
    obtain ⟨r', hr', e'⟩ := h.packages hr
    exact ⟨r', hr', by rw [Package.isPlain_eq_of_bare e', hp],
      (Package.path_eq_of_bare e').trans e⟩
  declaring k := by
    rw [hd, hi, hs.declaring]
    constructor
    · rintro ⟨i, hm, r, hr, hk⟩
      obtain ⟨r', hr', e'⟩ := h.packages hr
      exact ⟨i, hm, r', hr', (Package.home_eq_of_bare e').trans hk⟩
    · rintro ⟨i, hm, r, hr, hk⟩
      obtain ⟨r', hr', -⟩ := hs.plain hm
      obtain ⟨r'', hr'', e⟩ := h.packages hr'
      cases package_unique hr hr''
      exact ⟨i, hm, r', hr', (Package.home_eq_of_bare e).symm.trans hk⟩

/-! ## Consequences of coherence -/

theorem Coherent.closed (h : env.Coherent) : env.Closed where
  reads := h.reads
  home := h.home
  incarnations {p r i} hp hi := by
    unfold Package.incarnations at hi
    split at hi
    · next s hk =>
      obtain ⟨ri, hri, -⟩ := (h.split hp hk).plain hi
      exact ⟨ri, hri⟩
    · cases hi

/-- A search from modules that are there meets no others. -/
theorem Closed.reaches_ok (h : env.Closed) (target : ModuleId) :
    ∀ turns visited queue, (∀ m ∈ queue, ∃ record, env.module m = .ok record) →
      ∃ found, env.reaches target turns visited queue = .ok found
  | _, _, [], _ => ⟨some false, by simp only [Environment.reaches]; rfl⟩
  | 0, _, _ :: _, _ => ⟨none, by simp only [Environment.reaches]; rfl⟩
  | turns + 1, visited, m :: queue, hq => by
    have hqueue : ∀ k ∈ queue, ∃ record, env.module k = .ok record :=
      fun k hk => hq k (List.mem_cons_of_mem _ hk)
    simp only [Environment.reaches]
    split
    · exact ⟨some true, rfl⟩
    split
    · exact h.reaches_ok target turns _ _ hqueue
    · obtain ⟨record, hm⟩ := hq m List.mem_cons_self
      rw [hm]
      refine h.reaches_ok target turns _ _ fun k hk => ?_
      rcases List.mem_append.mp hk with hk | hk
      · exact hqueue k hk
      · exact h.reads hm (Module.mem_keys_of_mem_impliedReads hk)

/-- A module has one plain binding at a path. -/
theorem Coherent.eq_of_home (h : env.Coherent) (hp : env.package p = .ok r)
    (hq : env.package q = .ok r') (hr : r.isSplit = false) (hr' : r'.isSplit = false)
    (hh : r.home = r'.home) (hpath : r.path = r'.path) : p = q := by
  have h1 := h.own hp hr
  have h2 := h.own hq hr'
  rw [hh, hpath, h2] at h1
  injection h1 with h1
  injection h1 with h1
  exact h1.symm

/-- The parts of a binding are plain bindings of its path, and their homes are its members. -/
theorem Coherent.parts (h : env.Coherent) (hp : env.package p = .ok r) {i : PackageId}
    (hi : i ∈ env.parts p) :
    ∃ ri, env.package i = .ok ri ∧ ri.isPlain = true ∧ ri.path = r.path ∧
      ri.home ∈ env.members p := by
  rw [parts_of_package hp] at hi
  rw [members_of_package hp]
  cases hk : r.kind with
  | plain plain =>
    have hpl := Package.isPlain_of_kind hk
    rw [Package.contributors_of_isPlain hpl, List.mem_singleton] at hi
    subst hi
    exact ⟨r, hp, hpl, rfl, by rw [Package.declaring_of_isPlain hpl]; exact List.mem_singleton_self _⟩
  | split s =>
    have hs := h.split hp hk
    simp only [Package.contributors, hk] at hi
    obtain ⟨ri, hri, hpl, hpath⟩ := hs.plain hi
    refine ⟨ri, hri, hpl, hpath, ?_⟩
    simp only [Package.declaring, hk]
    exact (hs.declaring ri.home).mpr ⟨i, hi, ri, hri, rfl⟩
  | problem =>
    simp only [Package.contributors, hk, List.not_mem_nil] at hi

/-- Different parts of a binding have different homes. -/
theorem Coherent.eq_of_parts (h : env.Coherent) (hp : env.package p = .ok r) {i j : PackageId}
    {ri rj : Package} (hi : i ∈ env.parts p) (hj : j ∈ env.parts p) (hri : env.package i = .ok ri)
    (hrj : env.package j = .ok rj) (hh : ri.home = rj.home) : i = j := by
  obtain ⟨ri', hri', hpli, hpathi, -⟩ := h.parts hp hi
  obtain ⟨rj', hrj', hplj, hpathj, -⟩ := h.parts hp hj
  rw [hri] at hri'
  rw [hrj] at hrj'
  cases hri'
  cases hrj'
  exact h.eq_of_home hri hrj (Package.isSplit_of_isPlain hpli) (Package.isSplit_of_isPlain hplj) hh
    (hpathi.trans hpathj.symm)

theorem Coherent.members (h : env.Coherent) (hp : env.package p = .ok r) (hk : k ∈ env.members p) :
    ∃ i ∈ env.parts p, ∃ ri, env.package i = .ok ri ∧ ri.isPlain = true ∧ ri.path = r.path ∧
      ri.home = k := by
  rw [members_of_package hp] at hk
  rw [parts_of_package hp]
  cases hkind : r.kind with
  | plain plain =>
    have hpl := Package.isPlain_of_kind hkind
    rw [Package.declaring_of_isPlain hpl, List.mem_singleton] at hk
    exact ⟨p, by rw [Package.contributors_of_isPlain hpl]; exact List.mem_singleton_self _, r, hp,
      hpl, rfl, hk.symm⟩
  | split s =>
    have hs := h.split hp hkind
    simp only [Package.declaring, hkind] at hk
    obtain ⟨i, hi, ri, hri, e⟩ := (hs.declaring k).mp hk
    obtain ⟨ri', hri', hpl, hpath⟩ := hs.plain hi
    cases package_unique hri hri'
    refine ⟨i, ?_, ri, hri, hpl, hpath, e⟩
    simp only [Package.contributors, hkind]
    exact hi
  | problem =>
    simp only [Package.declaring, hkind, List.not_mem_nil] at hk

/-- The binding that a member declares at the path of a binding is one of its parts. -/
theorem Coherent.mem_parts (h : env.Coherent) (hp : env.package p = .ok r)
    (hk : k ∈ env.members p) (hd : env.declared k r.path = .ok (some q)) : q ∈ env.parts p := by
  obtain ⟨i, hi, ri, hri, hpl, hpath, rfl⟩ := h.members hp hk
  have := h.own hri (Package.isSplit_of_isPlain hpl)
  rw [hpath, hd] at this
  cases this
  exact hi

theorem Coherent.declares_of_mem_members (h : env.Coherent) (hp : env.package p = .ok r)
    (hk : k ∈ env.members p) : env.Declares k r.path := by
  obtain ⟨i, -, ri, hri, hpl, hpath, rfl⟩ := h.members hp hk
  exact ⟨i, hpath ▸ h.own hri (Package.isSplit_of_isPlain hpl)⟩

end SplitPackages.Environment
