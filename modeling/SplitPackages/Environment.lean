import SplitPackages.Module

/-!
# Environments

An `Environment` holds the modules, packages and types of one world, each kind
in order of creation, so that a record's identifier is its position. Records
are never removed. Reading or changing a record that was never created is a
`Fault`.

An `Update` is a change of an environment with a result.
-/

namespace SplitPackages

structure Environment where
  modules : Array Module
  packages : Array Package
  types : Array TypeRecord
  deriving DecidableEq

abbrev Update (α : Type) := StateT Environment (Except Fault) α

namespace Environment

def empty : Environment := ⟨#[], #[], #[]⟩

def module (env : Environment) (m : ModuleId) : Except Fault Module :=
  match env.modules[m.index]? with
  | some record => .ok record
  | none => .error (.module m)

def package (env : Environment) (p : PackageId) : Except Fault Package :=
  match env.packages[p.index]? with
  | some record => .ok record
  | none => .error (.package p)

def typeRecord (env : Environment) (t : TypeId) : Except Fault TypeRecord :=
  match env.types[t.index]? with
  | some record => .ok record
  | none => .error (.type t)

def moduleName (env : Environment) (m : ModuleId) : Except Fault String :=
  (·.name) <$> env.module m

def moduleIds (env : Environment) : List ModuleId :=
  (List.range env.modules.size).map ModuleId.mk

def packageIds (env : Environment) : List PackageId :=
  (List.range env.packages.size).map PackageId.mk

/-- The first module of that name. -/
def moduleNamed (env : Environment) (name : String) : Option ModuleId :=
  (env.modules.findIdx? fun m => m.name = name).map ModuleId.mk

/-- The binding that the module itself declares at the path. -/
def declared (env : Environment) (m : ModuleId) (path : Path) : Except Fault (Option PackageId) :=
  (·.declared.get? path) <$> env.module m

def setModule (env : Environment) (m : ModuleId) (f : Module → Module) :
    Except Fault Environment :=
  if m.index < env.modules.size then
    .ok { env with modules := env.modules.modify m.index f }
  else .error (.module m)

def setPackage (env : Environment) (p : PackageId) (f : Package → Package) :
    Except Fault Environment :=
  if p.index < env.packages.size then
    .ok { env with packages := env.packages.modify p.index f }
  else .error (.package p)

theorem module_setModule {env env' : Environment} {m : ModuleId} {f : Module → Module}
    (h : env.setModule m f = .ok env') (k : ModuleId) :
    env'.module k = if k = m then f <$> env.module k else env.module k := by
  unfold setModule at h
  split at h
  · next hm =>
    cases h
    obtain ⟨i⟩ := k
    obtain ⟨j⟩ := m
    simp only [module, Array.getElem?_modify, ModuleId.mk.injEq]
    by_cases e : j = i
    · subst e
      simp only [if_true]
      cases env.modules[j]? <;> rfl
    · simp [e, Ne.symm e]
  · cases h

theorem package_setPackage {env env' : Environment} {p : PackageId} {f : Package → Package}
    (h : env.setPackage p f = .ok env') (k : PackageId) :
    env'.package k = if k = p then f <$> env.package k else env.package k := by
  unfold setPackage at h
  split at h
  · next hp =>
    cases h
    obtain ⟨i⟩ := k
    obtain ⟨j⟩ := p
    simp only [package, Array.getElem?_modify, PackageId.mk.injEq]
    by_cases e : j = i
    · subst e
      simp only [if_true]
      cases env.packages[j]? <;> rfl
    · simp [e, Ne.symm e]
  · cases h

end Environment

namespace Update

/-- What a question about the environment answers. -/
def ask {α : Type} (f : Environment → Except Fault α) : Update α := do
  f (← get)

def module (m : ModuleId) : Update Module := ask (·.module m)

def package (p : PackageId) : Update Package := ask (·.package p)

def setModule (m : ModuleId) (f : Module → Module) : Update Unit := do
  set (← ask (·.setModule m f))

def setPackage (p : PackageId) (f : Package → Package) : Update Unit := do
  set (← ask (·.setPackage p f))

def addModule (name : String) (unnamed : Bool) : Update ModuleId :=
  modifyGet fun env =>
    (⟨env.modules.size⟩, { env with modules := env.modules.push (.fresh name unnamed) })

def addPackage (record : Package) : Update PackageId :=
  modifyGet fun env => (⟨env.packages.size⟩, { env with packages := env.packages.push record })

def addType (record : TypeRecord) : Update TypeId :=
  modifyGet fun env => (⟨env.types.size⟩, { env with types := env.types.push record })

/-- Makes the first module read the second. -/
def addRead (m target : ModuleId) : Update Unit := setModule m (·.addRead target)

/-- Makes the first module and all its readers read the second. -/
def addTransitiveRead (m target : ModuleId) : Update Unit :=
  setModule m (·.addTransitiveRead target)

def addExport (m : ModuleId) (path : Path) : Update Unit := setModule m (·.addExport path)

/-- Marks a binding below which a type is missing; searches skip it. -/
def markMissing (p : PackageId) : Update Unit :=
  setPackage p fun record => { record with missingType := true }

/-- Records that there is no package `name` below the binding. -/
def learnMissing (p : PackageId) (name : String) : Update Unit :=
  setPackage p (·.learn name .notFound)

end Update

end SplitPackages
