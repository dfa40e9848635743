import Mathlib.Logic.Relation
import SplitPackages.Proofs.Extension
import SplitPackages.Proofs.Wrappers

/-!
# What the builders do

`Raise` is one step of a builder: a new module or type, a module that reads or
exports more, a binding whose own part changes, or a new declaration. Every
builder succeeds on modules and bindings that exist, and is a run of such steps
(`Raises`). A step extends the environment and keeps the graph sound
(`Raise.extends`, `Raise.graph`), and so it keeps a coherent environment
coherent (`Raises.built`).

A declaration declares the enclosing packages first, so that a module's
declarations are closed under enclosing packages, and every binding has the
innermost of them as its parent.
-/

namespace SplitPackages

namespace Environment

/-- A module declares, with a fresh binding of its own, a path that it did not declare. -/
structure Inserts (env : Environment) (m : ModuleId) (record : Module) (fresh : Package)
    (after : Environment) : Prop where
  before : env.module m = .ok record
  undeclared : record.declared.get? fresh.path = none
  home : fresh.home = m
  isSplit : fresh.isSplit = false
  known : fresh.known = .empty
  untyped : fresh.types = .empty
  wrappedBy : fresh.wrappedBy = []
  self : after.module m = .ok (record.declare fresh.path ⟨env.packages.size⟩)
  others : ∀ {k}, k ≠ m → after.module k = env.module k
  package : ∀ p, after.package p =
    if p.index = env.packages.size then .ok fresh else env.package p
  types : after.types = env.types

/-- The module's own binding that encloses the path, if there is an enclosing path. -/
def Encloses (env : Environment) (m : ModuleId) : Path → Option PackageId → Prop
  | .top _, parent => parent = none
  | .sub above _, parent => ∃ p, parent = some p ∧ env.declared m above = .ok (some p)

inductive Raise (env : Environment) : Environment → Prop
  | module (name : String) (unnamed : Bool) :
      Raise env { env with modules := env.modules.push (.fresh name unnamed) }
  | type (record : TypeRecord) : Raise env { env with types := env.types.push record }
  | edges {m : ModuleId} {record : Module} {f : Module → Module} {after : Environment} :
      env.module m = .ok record → record.Extends (f record) →
      (f record).declared = record.declared →
      (∀ k ∈ (f record).reads.keys, ∃ record', env.module k = .ok record') →
      env.setModule m f = .ok after → Raise env after
  | own {p : PackageId} {r : Package} {f : Package → Package} {after : Environment} :
      env.package p = .ok r → r.Extends (f r) → r.Alike (f r) → (f r).parent = r.parent →
      (∀ {name t}, (f r).types.get? name = some t →
        r.isPlain = true ∧ env.typeRecord t = .ok ⟨name, p, r.home⟩) →
      env.setPackage p f = .ok after → Raise env after
  | insert {m : ModuleId} {record : Module} {fresh : Package} {after : Environment} :
      env.Inserts m record fresh after → env.Encloses m fresh.path fresh.parent → Raise env after

/-- A run of building steps. -/
abbrev Raises (env after : Environment) : Prop := Relation.ReflTransGen Raise env after

/-- What every builder achieves. -/
def Built (env after : Environment) : Prop := env.Extends after ∧ after.Coherent

variable {env mid after : Environment} {p q : PackageId} {m k target : ModuleId} {r : Package}
  {record : Module} {path : Path} {name : String}

/-! ## Modules -/

theorem module_push (env : Environment) (record : Module) (m : ModuleId) :
    ({ env with modules := env.modules.push record } : Environment).module m =
      if m.index = env.modules.size then .ok record else env.module m := by
  simp only [Environment.module, Array.getElem?_push]
  by_cases h : m.index = env.modules.size
  · rw [if_pos h, if_pos h]
  · rw [if_neg h, if_neg h]

theorem module_push_of_ok (hm : env.module m = .ok record) (fresh : Module) :
    ({ env with modules := env.modules.push fresh } : Environment).module m = .ok record := by
  rw [module_push, if_neg (Nat.ne_of_lt (lt_size_of_module hm)), hm]

theorem push_module (env : Environment) (name : String) (unnamed : Bool) :
    env.Extends { env with modules := env.modules.push (.fresh name unnamed) } ∧
      (env.Graph → Graph { env with modules := env.modules.push (.fresh name unnamed) }) ∧
      env.Clears { env with modules := env.modules.push (.fresh name unnamed) } := by
  generalize hafter : ({ env with modules := env.modules.push (.fresh name unnamed) } : Environment) =
    after
  have hold {m : ModuleId} {record : Module} (hm : env.module m = .ok record) :
      after.module m = .ok record := hafter ▸ module_push_of_ok hm _
  have hnew {m : ModuleId} {record : Module} (hm : after.module m = .ok record) :
      env.module m = .ok record ∨ record = .fresh name unnamed := by
    rw [← hafter, module_push] at hm
    split at hm
    · cases hm; exact .inr rfl
    · exact .inl hm
  have hpkg (p : PackageId) : after.package p = env.package p := package_congr (hafter ▸ rfl) p
  have hdecl {m : ModuleId} {path : Path} {p : PackageId}
      (hd : after.declared m path = .ok (some p)) : env.declared m path = .ok (some p) := by
    obtain ⟨record, hm, hd⟩ := module_of_declared hd
    rcases hnew hm with hm | rfl
    · rw [declared_of_module hm, hd]
    · cases hd
  have he : env.Extends after := by
    refine ⟨fun hm => ⟨_, hold hm, .refl _⟩, fun hm => ?_, fun hp => ⟨_, (hpkg _).trans hp, .refl _⟩,
      fun hp => .inl ⟨_, (hpkg _).symm.trans hp⟩⟩
    rcases hnew hm with hm | rfl
    · exact .inl ⟨_, hm⟩
    · exact .inr rfl
  refine ⟨he, fun hg => he.graph hg hdecl (fun hp => ⟨_, (hpkg _).symm.trans hp⟩) ?_ ?_,
    fun _ _ hp h => ⟨_, (hpkg _).symm.trans hp, h⟩⟩
  · intro m record k hm hk
    rcases hnew hm with hm | rfl
    · exact hg.reads hm hk
    · cases hk
  · intro p r name t hp ht
    rw [hpkg] at hp
    rw [← hafter]
    exact hg.types hp ht

/-- Changing what a module reads or exports. -/
theorem setModule_edges (hm : env.module m = .ok record) {f : Module → Module}
    (he : record.Extends (f record)) (hd : (f record).declared = record.declared)
    (hreads : ∀ k ∈ (f record).reads.keys, ∃ record', env.module k = .ok record')
    (hafter : env.setModule m f = .ok after) :
    env.Extends after ∧ (env.Graph → after.Graph) ∧ env.Clears after := by
  have hold {k : ModuleId} {rk : Module} (hk : env.module k = .ok rk) :
      ∃ rk', after.module k = .ok rk' ∧ rk.Extends rk' ∧ rk'.declared = rk.declared := by
    by_cases e : k = m
    · subst e
      rw [hm] at hk
      cases hk
      exact ⟨_, module_setModule_self hafter hm, he, hd⟩
    · exact ⟨rk, (module_setModule_ne hafter e).trans hk, .refl rk, rfl⟩
  have hback {k : ModuleId} {rk : Module} (hk : after.module k = .ok rk) :
      ∃ rk0, env.module k = .ok rk0 := by
    have hlt := lt_size_of_module hk
    rw [size_setModule hafter] at hlt
    exact module_of_lt_size hlt
  have hpkg (p : PackageId) : after.package p = env.package p :=
    package_congr (packages_setModule hafter) p
  have hdecl {k : ModuleId} {path : Path} {p : PackageId}
      (h : after.declared k path = .ok (some p)) : env.declared k path = .ok (some p) := by
    obtain ⟨rk', hk', h⟩ := module_of_declared h
    obtain ⟨rk, hk⟩ := hback hk'
    obtain ⟨rk'', hk'', -, e⟩ := hold hk
    rw [hk'] at hk''
    cases hk''
    rw [declared_of_module hk, ← e, h]
  have hext : env.Extends after := by
    refine ⟨fun hk => ?_, fun hk => .inl (hback hk), fun hp => ⟨_, (hpkg _).trans hp, .refl _⟩,
      fun hp => .inl ⟨_, (hpkg _).symm.trans hp⟩⟩
    obtain ⟨rk', hk', e, -⟩ := hold hk
    exact ⟨rk', hk', e⟩
  refine ⟨hext, fun hg => hext.graph hg hdecl (fun hp => ⟨_, (hpkg _).symm.trans hp⟩) ?_ ?_,
    fun _ _ hp h => ⟨_, (hpkg _).symm.trans hp, h⟩⟩
  · intro k rk i hk hi
    by_cases e : k = m
    · subst e
      rw [module_setModule_self hafter hm] at hk
      cases hk
      exact hreads i hi
    · rw [module_setModule_ne hafter e] at hk
      exact hg.reads hk hi
  · intro p r name t hp ht
    rw [hpkg] at hp
    obtain ⟨hpl, ht⟩ := hg.types hp ht
    refine ⟨hpl, ?_⟩
    rw [← ht]
    simp only [typeRecord, types_setModule hafter]

theorem mem_keys_insert {κ ν : Type} [DecidableEq κ] {t : Table κ ν} {a b : κ} {v : ν} :
    b ∈ (t.insert a v).keys ↔ b ∈ t.keys ∨ b = a := by
  simp only [Table.mem_keys_iff, Table.get?_insert]
  constructor
  · rintro ⟨w, h⟩
    split at h
    · next e => exact .inr e.symm
    · exact .inl ⟨w, h⟩
  · rintro (⟨w, h⟩ | rfl)
    · by_cases e : a = b
      · exact ⟨v, if_pos e⟩
      · exact ⟨w, by rw [if_neg e, h]⟩
    · exact ⟨v, if_pos rfl⟩

theorem mem_impliedReads : k ∈ record.impliedReads ↔ record.reads.get? k = some true := by
  unfold Module.impliedReads
  rw [Table.get?_eq_some_iff, List.mem_map]
  constructor
  · rintro ⟨⟨k', b⟩, h, rfl⟩
    obtain ⟨h, hb⟩ := List.mem_filter.mp h
    cases (show b = true from hb)
    exact h
  · intro h
    exact ⟨(k, true), List.mem_filter.mpr ⟨h, rfl⟩, rfl⟩

theorem addRead_extends (record : Module) (target : ModuleId) :
    record.Extends (record.addRead target) ∧
      ∀ k ∈ (record.addRead target).reads.keys, k ∈ record.reads.keys ∨ k = target := by
  unfold Module.addRead
  split
  · exact ⟨.refl record, fun k hk => .inl hk⟩
  · next hno =>
    have hno : record.reads.get? target = none := by
      simpa [Table.contains] using hno
    refine ⟨⟨rfl, rfl, fun _ h => h, fun k hk => mem_keys_insert.mpr (.inl hk), fun k hk => ?_,
      fun h => h⟩, fun k hk => mem_keys_insert.mp hk⟩
    rw [mem_impliedReads] at hk ⊢
    rw [Table.get?_insert, if_neg, hk]
    rintro rfl
    rw [hno] at hk
    cases hk

theorem addTransitiveRead_extends (record : Module) (target : ModuleId) :
    record.Extends (record.addTransitiveRead target) ∧
      ∀ k ∈ (record.addTransitiveRead target).reads.keys, k ∈ record.reads.keys ∨ k = target := by
  unfold Module.addTransitiveRead
  refine ⟨⟨rfl, rfl, fun _ h => h, fun k hk => mem_keys_insert.mpr (.inl hk), fun k hk => ?_,
    fun h => h⟩, fun k hk => mem_keys_insert.mp hk⟩
  rw [mem_impliedReads] at hk ⊢
  rw [Table.get?_insert]
  split
  · rfl
  · exact hk

theorem addExport_extends (record : Module) (path : Path) :
    record.Extends (record.addExport path) :=
  ⟨rfl, rfl, fun _ h => OrderedSet.mem_insert.mpr (.inl h), fun _ h => h, fun _ h => h, fun h => h⟩

/-! ## Bindings and types -/

/-- Changing a binding's own part, without its place, contributors or entries. -/
theorem setPackage_own (hr : env.package p = .ok r) {f : Package → Package}
    (he : r.Extends (f r)) (htypes : ∀ {name t}, (f r).types.get? name = some t →
      r.isPlain = true ∧ env.typeRecord t = .ok ⟨name, p, r.home⟩)
    (hafter : env.setPackage p f = .ok after) : env.Extends after ∧ (env.Graph → after.Graph) ∧
      (r.isClear = (f r).isClear → env.Clears after) := by
  have hself := package_setPackage_self hafter hr
  have hmod (k : ModuleId) : after.module k = env.module k :=
    module_congr (modules_setPackage hafter) k
  have hdecl (k : ModuleId) (path : Path) : after.declared k path = env.declared k path := by
    simp only [Environment.declared, hmod]
  have hold {q : PackageId} {rq : Package} (hq : env.package q = .ok rq) :
      ∃ rq', after.package q = .ok rq' ∧ rq.Extends rq' := by
    by_cases e : q = p
    · subst e
      rw [hr] at hq
      cases hq
      exact ⟨_, hself, he⟩
    · exact ⟨rq, (package_setPackage_ne hafter e).trans hq, .refl rq⟩
  have hback {q : PackageId} {rq : Package} (hq : after.package q = .ok rq) :
      ∃ rq0, env.package q = .ok rq0 := by
    by_cases e : q = p
    · exact ⟨r, e ▸ hr⟩
    · exact ⟨rq, (package_setPackage_ne hafter e).symm.trans hq⟩
  have hext : env.Extends after :=
    ⟨fun hm => ⟨_, (hmod _).trans hm, .refl _⟩, fun hm => .inl ⟨_, (hmod _).symm.trans hm⟩,
      hold, fun hq => .inl (hback hq)⟩
  refine ⟨hext, fun hg => hext.graph hg (fun h => (hdecl _ _).symm.trans h) hback ?_ ?_, ?_⟩
  · intro k rk i hk hi
    exact hg.reads ((hmod k).symm.trans hk) hi
  · intro q rq name t hq ht
    have htr (t : TypeId) : after.typeRecord t = env.typeRecord t := by
      simp only [typeRecord, types_setPackage hafter]
    by_cases e : q = p
    · subst e
      rw [hself] at hq
      cases hq
      rw [he.plain, he.home, htr]
      exact htypes ht
    · rw [package_setPackage_ne hafter e] at hq
      rw [htr]
      exact hg.types hq ht
  · intro hclear q rq hq h
    by_cases e : q = p
    · subst e
      rw [hself] at hq
      cases hq
      exact ⟨r, hr, hclear.trans h⟩
    · exact ⟨rq, (package_setPackage_ne hafter e).symm.trans hq, h⟩

theorem push_type (env : Environment) (record : TypeRecord) :
    env.Extends { env with types := env.types.push record } ∧
      (env.Graph → Graph { env with types := env.types.push record }) ∧
      env.Clears { env with types := env.types.push record } := by
  generalize hafter : ({ env with types := env.types.push record } : Environment) = after
  have hmod (k : ModuleId) : after.module k = env.module k := module_congr (hafter ▸ rfl) k
  have hpkg (p : PackageId) : after.package p = env.package p := package_congr (hafter ▸ rfl) p
  have hdecl (k : ModuleId) (path : Path) : after.declared k path = env.declared k path := by
    simp only [Environment.declared, hmod]
  have hext : env.Extends after :=
    ⟨fun hm => ⟨_, (hmod _).trans hm, .refl _⟩, fun hm => .inl ⟨_, (hmod _).symm.trans hm⟩,
      fun hp => ⟨_, (hpkg _).trans hp, .refl _⟩, fun hp => .inl ⟨_, (hpkg _).symm.trans hp⟩⟩
  refine ⟨hext, fun hg => hext.graph hg (fun h => (hdecl _ _).symm.trans h)
    (fun hp => ⟨_, (hpkg _).symm.trans hp⟩) ?_ ?_, fun _ _ hp h => ⟨_, (hpkg _).symm.trans hp, h⟩⟩
  · intro k rk i hk hi
    exact hg.reads ((hmod k).symm.trans hk) hi
  · intro q rq name t hq ht
    rw [hpkg] at hq
    obtain ⟨hpl, ht⟩ := hg.types hq ht
    refine ⟨hpl, ?_⟩
    have hlt : t.index ≠ env.types.size := by
      intro e
      simp [typeRecord, e] at ht
    rw [← hafter, ← ht]
    simp only [typeRecord, Array.getElem?_push, if_neg hlt]

/-! ## Declarations -/

variable {fresh : Package}

theorem Inserts.package_new (h : env.Inserts m record fresh after) :
    after.package ⟨env.packages.size⟩ = .ok fresh := by
  rw [h.package, if_pos rfl]

theorem Inserts.package_old (h : env.Inserts m record fresh after) (hp : env.package p = .ok r) :
    after.package p = .ok r := by
  rw [h.package, if_neg (Nat.ne_of_lt (lt_size_of_package hp)), hp]

theorem Inserts.package_back (h : env.Inserts m record fresh after)
    (hp : after.package p = .ok r) :
    env.package p = .ok r ∨ p = ⟨env.packages.size⟩ ∧ r = fresh := by
  rw [h.package] at hp
  split at hp
  · next e =>
    cases hp
    cases p
    cases e
    exact .inr ⟨rfl, rfl⟩
  · exact .inl hp

theorem Inserts.declared_new (h : env.Inserts m record fresh after) :
    after.declared m fresh.path = .ok (some ⟨env.packages.size⟩) := by
  rw [declared_of_module h.self]
  simp only [Module.declare, Table.get?_insert_self]

theorem Inserts.declared_back (h : env.Inserts m record fresh after)
    (hd : after.declared k path = .ok (some p)) :
    env.declared k path = .ok (some p) ∨ k = m ∧ path = fresh.path ∧ p = ⟨env.packages.size⟩ := by
  by_cases e : k = m
  · subst e
    rw [declared_of_module h.self] at hd
    simp only [Module.declare, Table.get?_insert] at hd
    split at hd
    · next e =>
      cases hd
      exact .inr ⟨rfl, e.symm, rfl⟩
    · rw [declared_of_module h.before]
      exact .inl hd
  · refine .inl ?_
    simpa only [Environment.declared, h.others e] using hd

theorem Inserts.module (h : env.Inserts m record fresh after) {rk : Module}
    (hk : env.module k = .ok rk) : ∃ rk', after.module k = .ok rk' ∧ rk.Extends rk' := by
  by_cases e : k = m
  · subst e
    rw [h.before] at hk
    cases hk
    refine ⟨_, h.self, rfl, rfl, fun _ h => h, fun _ h => h, fun _ h => h, fun {path p} hd => ?_⟩
    simp only [Module.declare, Table.get?_insert]
    rw [if_neg, hd]
    rintro rfl
    rw [h.undeclared] at hd
    cases hd
  · exact ⟨rk, (h.others e).trans hk, .refl rk⟩

theorem Inserts.module_back (h : env.Inserts m record fresh after) {rk : Module}
    (hk : after.module k = .ok rk) : ∃ rk0, env.module k = .ok rk0 ∧ rk.reads = rk0.reads := by
  by_cases e : k = m
  · subst e
    rw [h.self] at hk
    cases hk
    exact ⟨record, h.before, rfl⟩
  · exact ⟨rk, (h.others e).symm.trans hk, rfl⟩

theorem Inserts.extends (h : env.Inserts m record fresh after) : env.Extends after where
  module hk := h.module hk
  newModule hk := by
    obtain ⟨rk0, hk0, -⟩ := h.module_back hk
    exact .inl ⟨rk0, hk0⟩
  package hp := ⟨_, h.package_old hp, .refl _⟩
  newPackage hp := by
    rcases h.package_back hp with hp | ⟨-, rfl⟩
    · exact .inl ⟨_, hp⟩
    · exact .inr ⟨h.known, h.isSplit⟩

theorem Inserts.graph (h : env.Inserts m record fresh after)
    (henc : env.Encloses m fresh.path fresh.parent) (hg : env.Graph) : after.Graph := by
  refine ⟨?_, ?_, ?_, ?_, ?_, ?_⟩
  · intro k rk i hk hi
    obtain ⟨rk0, hk0, e⟩ := h.module_back hk
    obtain ⟨ri, hri⟩ := hg.reads hk0 (e ▸ hi)
    obtain ⟨ri', hri', -⟩ := h.module hri
    exact ⟨ri', hri'⟩
  · intro k path p hd
    rcases h.declared_back hd with hd | ⟨rfl, rfl, rfl⟩
    · obtain ⟨r, hr, hd⟩ := hg.declared hd
      exact ⟨r, h.package_old hr, hd⟩
    · exact ⟨fresh, h.package_new, rfl, h.home, h.isSplit⟩
  · intro p r hp hs
    rcases h.package_back hp with hp | ⟨rfl, rfl⟩
    · exact h.extends.declared (hg.own hp hs)
    · rw [h.home]
      exact h.declared_new
  · intro p r hp
    rcases h.package_back hp with hp | ⟨rfl, rfl⟩
    · obtain ⟨rk, hk⟩ := hg.home hp
      obtain ⟨rk', hk', -⟩ := h.module hk
      exact ⟨rk', hk'⟩
    · rw [h.home]
      exact ⟨_, h.self⟩
  · rintro k path name ⟨p, hd⟩
    rcases h.declared_back hd with hd | ⟨rfl, e, -⟩
    · exact h.extends.declares (hg.enclosing ⟨p, hd⟩)
    · rw [← e] at henc
      obtain ⟨q, -, hd⟩ := henc
      exact h.extends.declares ⟨q, hd⟩
  · intro p r name t hp ht
    rcases h.package_back hp with hp | ⟨rfl, rfl⟩
    · obtain ⟨hpl, ht⟩ := hg.types hp ht
      refine ⟨hpl, ?_⟩
      rw [← ht]
      simp only [typeRecord, h.types]
    · rw [h.untyped] at ht
      cases ht

/-! ## Steps -/

theorem Raise.extends (h : env.Raise after) : env.Extends after := by
  cases h with
  | module name unnamed => exact (push_module env name unnamed).1
  | type record => exact (push_type env record).1
  | edges hm he hd hreads hset => exact (setModule_edges hm he hd hreads hset).1
  | own hr he _ _ ht hset => exact (setPackage_own hr he ht hset).1
  | insert h _ => exact h.extends

theorem Raise.graph (h : env.Raise after) (hg : env.Graph) : after.Graph := by
  cases h with
  | module name unnamed => exact (push_module env name unnamed).2.1 hg
  | type record => exact (push_type env record).2.1 hg
  | edges hm he hd hreads hset => exact (setModule_edges hm he hd hreads hset).2.1 hg
  | own hr he _ _ ht hset => exact (setPackage_own hr he ht hset).2.1 hg
  | insert h henc => exact h.graph henc hg

theorem Raises.extends (h : env.Raises after) : env.Extends after := by
  induction h with
  | refl => exact .refl env
  | tail _ hs ih => exact ih.trans hs.extends

theorem Raises.graph (h : env.Raises after) (hg : env.Graph) : after.Graph := by
  induction h with
  | refl => exact hg
  | tail _ hs ih => exact hs.graph ih

theorem Raises.built (h : env.Raises after) (hc : env.Coherent) : env.Built after :=
  ⟨h.extends, h.extends.coherent hc (h.graph hc.graph)⟩

/-! ## Builders -/

/-- What a module reads or exports is changed in one step. -/
theorem setModule_raises (hm : env.module m = .ok record) {f : Module → Module}
    (he : record.Extends (f record)) (hd : (f record).declared = record.declared)
    (hreads : ∀ k ∈ (f record).reads.keys, ∃ record', env.module k = .ok record') :
    (Update.setModule m f).Ensures env fun _ after => env.Raises after ∧ env.Clears after := by
  obtain ⟨after, hafter⟩ := setModule_ok hm f
  exact ⟨(), after, Update.setModule_ok hafter, .single (.edges hm he hd hreads hafter),
    (setModule_edges hm he hd hreads hafter).2.2⟩

/-- A binding's own part is changed in one step. -/
theorem setPackage_raises (hr : env.package p = .ok r) {f : Package → Package}
    (he : r.Extends (f r)) (ha : r.Alike (f r)) (hparent : (f r).parent = r.parent)
    (htypes : ∀ {name t}, (f r).types.get? name = some t →
      r.isPlain = true ∧ env.typeRecord t = .ok ⟨name, p, r.home⟩) :
    (Update.setPackage p f).Ensures env fun _ after => env.Raises after ∧
      after.package p = .ok (f r) ∧ (r.isClear = (f r).isClear → env.Clears after) := by
  obtain ⟨after, hafter⟩ := setPackage_ok hr f
  exact ⟨(), after, Update.setPackage_ok hafter, .single (.own hr he ha hparent htypes hafter),
    package_setPackage_self hafter hr, (setPackage_own hr he htypes hafter).2.2⟩

theorem addRead_raises (hg : env.Graph) (hm : ∃ record, env.module m = .ok record)
    (ht : ∃ record, env.module target = .ok record) :
    (Update.addRead m target).Ensures env fun _ after => env.Raises after ∧ env.Clears after := by
  obtain ⟨record, hm⟩ := hm
  obtain ⟨he, hreads⟩ := addRead_extends record target
  have hdecl : (record.addRead target).declared = record.declared := by
    unfold Module.addRead
    split <;> rfl
  refine setModule_raises hm he hdecl fun k hk => ?_
  rcases hreads k hk with hk | rfl
  · exact hg.reads hm hk
  · exact ht

theorem addTransitiveRead_raises (hg : env.Graph) (hm : ∃ record, env.module m = .ok record)
    (ht : ∃ record, env.module target = .ok record) :
    (Update.addTransitiveRead m target).Ensures env fun _ after =>
      env.Raises after ∧ env.Clears after := by
  obtain ⟨record, hm⟩ := hm
  obtain ⟨he, hreads⟩ := addTransitiveRead_extends record target
  refine setModule_raises hm he rfl fun k hk => ?_
  rcases hreads k hk with hk | rfl
  · exact hg.reads hm hk
  · exact ht

theorem addExport_raises (hg : env.Graph) (hm : ∃ record, env.module m = .ok record)
    (path : Path) :
    (Update.addExport m path).Ensures env fun _ after => env.Raises after ∧ env.Clears after := by
  obtain ⟨record, hm⟩ := hm
  exact setModule_raises hm (addExport_extends record path) rfl fun k hk => hg.reads hm hk

theorem markMissing_raises (hg : env.Graph) (hr : env.package p = .ok r) :
    (Update.markMissing p).Ensures env fun _ after => env.Raises after := by
  obtain ⟨_, after, hrun, hb, -⟩ := setPackage_raises hr
    (f := fun record => { record with missingType := true }) ⟨rfl, rfl, rfl, rfl, rfl⟩
    ⟨rfl, rfl, rfl, rfl, rfl, rfl⟩ rfl fun ht => hg.types hr ht
  exact ⟨(), after, hrun, hb⟩

theorem insertDeclared_inserts (hm : env.module m = .ok record)
    (hnone : record.declared.get? path = none) (parent : Option PackageId) {kind : Kind}
    (hkind : kind = .problem ∨ ∃ unit, kind = .plain ⟨unit, .empty⟩) :
    ∃ after, Update.insertDeclared m path parent kind env = .ok (⟨env.packages.size⟩, after) ∧
      env.Inserts m record (.fresh path parent m kind) after := by
  let fresh := Package.fresh path parent m kind
  let mid : Environment := { env with packages := env.packages.push fresh }
  have hmid (k : ModuleId) : mid.module k = env.module k := module_congr rfl k
  obtain ⟨after, hafter⟩ := setModule_ok ((hmid m).trans hm) (·.declare path ⟨env.packages.size⟩)
  have h : env.Inserts m record fresh after :=
    { before := hm
      undeclared := hnone
      home := rfl
      isSplit := by rcases hkind with rfl | ⟨unit, rfl⟩ <;> rfl
      known := rfl
      untyped := rfl
      wrappedBy := by rcases hkind with rfl | ⟨unit, rfl⟩ <;> rfl
      self := module_setModule_self hafter ((hmid m).trans hm)
      others := fun hk => (module_setModule_ne hafter hk).trans (hmid _)
      package := fun p =>
        (package_congr (packages_setModule hafter) p).trans (package_push env fresh p)
      types := (types_setModule hafter : after.types = mid.types) }
  have hpush : Update.addPackage fresh env = .ok (⟨env.packages.size⟩, mid) := rfl
  exact ⟨after, Update.bind_ok hpush (Update.bind_ok (Update.setModule_ok hafter) rfl), h⟩

/-- A module declares a path that it does not declare yet; the enclosing one it does. -/
theorem insertDeclared_spec (hm : env.module m = .ok record)
    (hnone : record.declared.get? path = none) {parent : Option PackageId}
    (henc : env.Encloses m path parent) {kind : Kind}
    (hkind : kind = .problem ∨ ∃ unit, kind = .plain ⟨unit, .empty⟩) :
    (Update.insertDeclared m path parent kind).Ensures env fun id after => env.Raises after ∧
      after.package id = .ok (.fresh path parent m kind) ∧
      after.declared m path = .ok (some id) ∧ (kind ≠ .problem → env.Clears after) := by
  obtain ⟨after, hrun, h⟩ := insertDeclared_inserts hm hnone parent hkind
  refine ⟨_, after, hrun, .single (.insert h henc), h.package_new, h.declared_new, ?_⟩
  intro hne p r hp hclear
  rcases h.package_back hp with hp | ⟨-, rfl⟩
  · exact ⟨r, hp, hclear⟩
  · rcases hkind with rfl | ⟨unit, rfl⟩
    · exact absurd rfl hne
    · cases hclear

/-- The enclosing packages of a path are declared, the innermost last. -/
theorem declareEnclosing_spec (hm : ∃ record, env.module m = .ok record) :
    ∀ path, (Update.declareEnclosing m path).Ensures env fun parent after => env.Raises after ∧
      env.Clears after ∧ after.Encloses m path parent
  | .top _ => Update.Ensures.pure ⟨.refl, .refl env, rfl⟩
  | .sub enclosing name => by
    refine (declareEnclosing_spec hm enclosing).bind ?_
    rintro parent mid ⟨hb, hcl, henc⟩
    obtain ⟨record, hrec⟩ := hm
    obtain ⟨record', hrec', -⟩ := hb.extends.module hrec
    have hd : mid.declared m enclosing = .ok (record'.declared.get? enclosing) :=
      declared_of_module hrec'
    refine Update.Ensures.ask hd ?_
    cases hget : record'.declared.get? enclosing with
    | some id =>
      rw [hget] at hd
      exact Update.Ensures.pure ⟨hb, hcl, id, rfl, hd⟩
    | none =>
      refine (insertDeclared_spec hrec' hget henc (.inr ⟨false, rfl⟩)).bind ?_
      rintro id after ⟨hb', -, hid, hcl'⟩
      exact Update.Ensures.pure ⟨hb.trans hb', hcl.trans (hcl' (by simp)), id, rfl, hid⟩

/-- The binding that a successful declaration gives. -/
def IsOwn (env : Environment) (m : ModuleId) (path : Path) (id : PackageId) : Prop :=
  ∃ r, env.package id = .ok r ∧ r.isPlain = true ∧ r.path = path ∧ r.home = m

theorem conflict_spec (hm : ∃ record, env.module m = .ok record) (path : Path) :
    (Update.conflict m path).Ensures env fun _ after => after = env := by
  obtain ⟨record, hm⟩ := hm
  exact Update.Ensures.ask (moduleName_of_module hm) (Update.Ensures.pure rfl)

/-- Giving a plain binding a compilation unit leaves everything else of it alone. -/
theorem mapPlain_hasUnit (hpl : r.isPlain = true) :
    r.Extends (r.mapPlain fun plain => { plain with hasUnit := true }) ∧
      r.Alike (r.mapPlain fun plain => { plain with hasUnit := true }) ∧
      (r.mapPlain fun plain => { plain with hasUnit := true }).parent = r.parent ∧
      (r.mapPlain fun plain => { plain with hasUnit := true }).types = r.types ∧
      (r.mapPlain fun plain => { plain with hasUnit := true }).isClear = r.isClear := by
  obtain ⟨plain, hk⟩ := Package.kind_of_isPlain hpl
  obtain ⟨_, _, _, _, _, _, kind⟩ := r
  cases hk
  exact ⟨⟨rfl, rfl, rfl, rfl, rfl⟩, ⟨rfl, rfl, rfl, rfl, rfl, rfl⟩, rfl, rfl, by
    simp [Package.isClear, Package.isValid, Package.mapPlain]⟩

theorem declarePackage_spec (hg : env.Graph) (hm : ∃ record, env.module m = .ok record)
    (path : Path) : (Update.declarePackage m path).Ensures env fun result after =>
      env.Raises after ∧ env.Clears after ∧ ∀ id, result = .ok id → after.IsOwn m path id := by
  refine (declareEnclosing_spec hm path).bind ?_
  rintro parent mid ⟨hb, hcl, henc⟩
  have hgmid := hb.graph hg
  obtain ⟨record, hrec⟩ := hm
  obtain ⟨record', hrec', -⟩ := hb.extends.module hrec
  have hd : mid.declared m path = .ok (record'.declared.get? path) := declared_of_module hrec'
  refine Update.Ensures.ask hd ?_
  cases hget : record'.declared.get? path with
  | none =>
    refine (insertDeclared_spec hrec' hget henc (.inr ⟨true, rfl⟩)).bind ?_
    rintro id after ⟨hb', hid, -, hcl'⟩
    refine Update.Ensures.pure ⟨hb.trans hb', hcl.trans (hcl' (by simp)), fun id' e => ?_⟩
    cases e
    exact ⟨_, hid, rfl, rfl, rfl⟩
  | some id =>
    rw [hget] at hd
    obtain ⟨r, hr, hpath, hhome, -⟩ := hgmid.declared hd
    refine Update.Ensures.ask hr ?_
    by_cases hpl : r.isPlain = true
    · rw [if_pos hpl]
      obtain ⟨he, ha, hparent, htypes, hclear⟩ := mapPlain_hasUnit hpl
      have hset := setPackage_raises hr he ha hparent fun ht => hgmid.types hr (htypes ▸ ht)
      refine hset.bind ?_
      rintro - after ⟨hb', hid, hcl'⟩
      refine Update.Ensures.pure ⟨hb.trans hb', hcl.trans (hcl' hclear.symm), fun id' e => ?_⟩
      cases e
      exact ⟨_, hid, he.plain.trans hpl, he.path.trans hpath, he.home.trans hhome⟩
    · rw [if_neg hpl]
      refine (conflict_spec ⟨record', hrec'⟩ path).bind fun _ after e => ?_
      subst e
      exact Update.Ensures.pure ⟨hb, hcl, fun id' e => by cases e⟩

theorem declareProblem_spec (hm : ∃ record, env.module m = .ok record) (path : Path) :
    (Update.declareProblem m path).Ensures env fun result after => env.Raises after ∧
      ∀ id, result = .ok id → ∃ r, after.package id = .ok r ∧ r.isSplit = false := by
  refine (declareEnclosing_spec hm path).bind ?_
  rintro parent mid ⟨hb, _, henc⟩
  obtain ⟨record, hrec⟩ := hm
  obtain ⟨record', hrec', -⟩ := hb.extends.module hrec
  refine Update.Ensures.ask (declared_of_module hrec') ?_
  cases hget : record'.declared.get? path with
  | none =>
    refine (insertDeclared_spec hrec' hget henc (.inl rfl)).bind ?_
    rintro id after ⟨hb', hid, -⟩
    refine Update.Ensures.pure ⟨hb.trans hb', fun id' e => ?_⟩
    cases e
    exact ⟨_, hid, rfl⟩
  | some id =>
    refine (conflict_spec ⟨record', hrec'⟩ path).bind fun _ after e => ?_
    subst e
    exact Update.Ensures.pure ⟨hb, fun id' e => by cases e⟩

theorem declareType_spec (hg : env.Graph) (hm : ∃ record, env.module m = .ok record)
    (qualified : String) : (Update.declareType m qualified).Ensures env fun _ after =>
      env.Raises after ∧ env.Clears after := by
  unfold Update.declareType
  split
  · exact Update.Ensures.pure ⟨.refl, .refl env⟩
  · next path name _ =>
    refine (declarePackage_spec hg hm path).bind ?_
    rintro result mid ⟨hb, hcl, hown⟩
    have hgmid := hb.graph hg
    cases result with
    | error e => exact Update.Ensures.pure ⟨hb, hcl⟩
    | ok p =>
      obtain ⟨r, hr, hpl, hpath, hhome⟩ := hown p rfl
      refine Update.Ensures.ask hr ?_
      split
      · obtain ⟨record, hrec⟩ := hm
        obtain ⟨record', hrec', -⟩ := hb.extends.module hrec
        exact Update.Ensures.ask (moduleName_of_module hrec') (Update.Ensures.pure ⟨hb, hcl⟩)
      · -- the new type is the only one that the binding does not have yet
        let typed : Environment := { mid with types := mid.types.push ⟨name, p, m⟩ }
        have hpush : Update.addType ⟨name, p, m⟩ mid = .ok (⟨mid.types.size⟩, typed) := rfl
        have hraise : mid.Raise typed := .type ⟨name, p, m⟩
        have hr1 : typed.package p = .ok r := (package_congr rfl p).trans hr
        have hset := setPackage_raises hr1
          (f := fun record => { record with types := record.types.insert name ⟨mid.types.size⟩ })
          ⟨rfl, rfl, rfl, rfl, rfl⟩ ⟨rfl, rfl, rfl, rfl, rfl, rfl⟩ rfl fun {x t} ht => by
            rw [Table.get?_insert] at ht
            split at ht
            · next e =>
              cases ht
              refine ⟨hpl, ?_⟩
              rw [← e, hhome]
              simp only [typed, typeRecord, Array.getElem?_push, if_true]
            · exact (hraise.graph hgmid).types hr1 ht
        obtain ⟨_, after, hrun, hb2, -, hcl2⟩ := hset
        refine ⟨.ok ⟨mid.types.size⟩, after, Update.bind_ok hpush (Update.bind_ok hrun rfl), ?_, ?_⟩
        · exact (hb.tail hraise).trans hb2
        · exact (hcl.trans (push_type mid _).2.2).trans (hcl2 rfl)

end Environment

end SplitPackages
