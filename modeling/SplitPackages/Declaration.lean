import SplitPackages.Environment

/-!
# Declarations

Declaring a package in a module declares its enclosing packages too, as plain
bindings without a compilation unit. Declaring a plain package again gives it a
compilation unit; a problem package stands in the way of any other declaration
of its path. Declaring a type declares its package.
-/

namespace SplitPackages.Update

/-- Adds a binding at a path that the module does not declare yet. -/
def insertDeclared (m : ModuleId) (path : Path) (parent : Option PackageId) (kind : Kind) :
    Update PackageId := do
  let id ← addPackage (.fresh path parent m kind)
  setModule m (·.declare path id)
  return id

/-- Declares the enclosing packages of a path, and gives the innermost. -/
def declareEnclosing (m : ModuleId) : Path → Update (Option PackageId)
  | .top _ => return none
  | .sub enclosing _ => do
    let parent ← declareEnclosing m enclosing
    match ← ask (·.declared m enclosing) with
    | some id => return some id
    | none => return some (← insertDeclared m enclosing parent (.plain ⟨false, .empty⟩))

def conflict (m : ModuleId) (path : Path) : Update GraphError :=
  return .packageConflict (← ask (·.moduleName m)) path.text

def declarePackage (m : ModuleId) (path : Path) : Update (Except GraphError PackageId) := do
  let parent ← declareEnclosing m path
  match ← ask (·.declared m path) with
  | none => return .ok (← insertDeclared m path parent (.plain ⟨true, .empty⟩))
  | some id =>
    if (← package id).isPlain then
      setPackage id (·.mapPlain fun plain => { plain with hasUnit := true })
      return .ok id
    else return .error (← conflict m path)

def declareProblem (m : ModuleId) (path : Path) : Update (Except GraphError PackageId) := do
  let parent ← declareEnclosing m path
  match ← ask (·.declared m path) with
  | none => return .ok (← insertDeclared m path parent .problem)
  | some _ => return .error (← conflict m path)

def declareType (m : ModuleId) (qualified : String) : Update (Except GraphError TypeId) := do
  match Path.splitTypeName qualified with
  | .error e => return .error e
  | .ok (path, name) =>
    match ← declarePackage m path with
    | .error e => return .error e
    | .ok p =>
      if (← package p).types.contains name then
        return .error (.duplicateType (← ask (·.moduleName m)) qualified)
      else
        let id ← addType ⟨name, p, m⟩
        setPackage p fun record => { record with types := record.types.insert name id }
        return .ok id

end SplitPackages.Update
