import SplitPackages.Package

/-!
# Modules

A `Module` has a name, the modules it reads, the packages it exports and those
it declares, and its own view of packages, filled by lookups. An unnamed module
stands for all code outside the named modules: it reads every module and
exports every package.
-/

namespace SplitPackages

structure Module where
  name : String
  unnamed : Bool
  /-- The modules read directly; the flag says whether readers of this module
  read them too. -/
  reads : Table ModuleId Bool
  exports : OrderedSet Path
  /-- The plain and problem bindings that the module itself declares. -/
  declared : Table Path PackageId
  /-- The packages that the module has looked up. -/
  visible : Table Path Ref
  deriving DecidableEq

namespace Module

def fresh (name : String) (unnamed : Bool) : Module :=
  ⟨name, unnamed, .empty, .empty, .empty, .empty⟩

def addRead (m : Module) (target : ModuleId) : Module :=
  if m.reads.contains target then m else { m with reads := m.reads.insert target false }

def addTransitiveRead (m : Module) (target : ModuleId) : Module :=
  { m with reads := m.reads.insert target true }

def addExport (m : Module) (path : Path) : Module :=
  { m with exports := m.exports.insert path }

/-- The reads that extend to every reader of the module. -/
def impliedReads (m : Module) : List ModuleId :=
  (m.reads.entries.filter fun e => e.2).map Prod.fst

/-- Whether the module exports exactly this package. -/
def exportsPackage (m : Module) (path : Path) : Bool :=
  m.unnamed || path ∈ m.exports

/-- Whether the module exports the package or one below it, so that a lookup
can walk down to it. -/
def exposes (m : Module) (path : Path) : Bool :=
  m.unnamed || m.exports.toList.any path.isPrefixOf

def declare (m : Module) (path : Path) (id : PackageId) : Module :=
  { m with declared := m.declared.insert path id }

def remember (m : Module) (path : Path) (ref : Ref) : Module :=
  { m with visible := m.visible.insert path ref }

theorem mem_keys_of_mem_impliedReads {m : Module} {k : ModuleId} (h : k ∈ m.impliedReads) :
    k ∈ m.reads.keys := by
  obtain ⟨e, he, rfl⟩ := List.mem_map.mp h
  exact List.mem_map_of_mem (List.mem_filter.mp he).1

theorem exposes_of_exportsPackage {m : Module} {path : Path} (h : m.exportsPackage path = true) :
    m.exposes path = true := by
  simp only [exportsPackage, exposes, Bool.or_eq_true, decide_eq_true_eq, List.any_eq_true] at h ⊢
  exact h.imp_right fun h => ⟨path, h, path.isPrefixOf_refl⟩

end Module

end SplitPackages
