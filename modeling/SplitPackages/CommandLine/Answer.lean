import SplitPackages.CommandLine.Invocation
import SplitPackages.Session

/-!
# The answer of a command

A command looks something up in the environment of a world and answers with
lines of text. It fails if it names an unknown module or a malformed path; a
lookup without result is an answer.
-/

namespace SplitPackages.CommandLine

inductive CommandError where
  | unknownModule (name : String)
  | graph (error : GraphError)
  deriving DecidableEq, Repr

def CommandError.message : CommandError → String
  | unknownModule name => "Unknown module: " ++ name
  | graph error => error.message

/-- A lookup that can fail for the person who asks. -/
abbrev Query (α : Type) := ExceptT CommandError (StateT State (Except Fault)) α

namespace Query

def lookup {α : Type} (act : Lookup α) : Query α := ExceptT.lift act

def accept {α : Type} : Except GraphError α → Query α
  | .ok a => return a
  | .error e => throw (.graph e)

def moduleNamed (name : String) : Query ModuleId := do
  match (← getThe State).env.moduleNamed name with
  | some m => return m
  | none => throw (.unknownModule name)

def display (p : PackageId) : Query String := lookup (.ask (·.display p))

/-- The package and the name of a type, and the module that declares it. -/
def typeLine (t : TypeId) : Query String := lookup do
  let record ← .ask (·.typeRecord t)
  let package ← .package record.package
  let module ← .ask (·.moduleName record.module)
  return "  " ++ package.path.text ++ "." ++ record.name ++ " (in " ++ module ++ ")"

end Query

open Query

def resolveLines (module package : String) : Query (List String) := do
  let m ← moduleNamed module
  let path ← accept (Path.parse package)
  match ← lookup (.resolve m path) with
  | some found => return [← display found]
  | none => return ["not found: " ++ path.text]

def typeLines (module name : String) : Query (List String) := do
  let m ← moduleNamed module
  match ← accept (← lookup (.resolveType m name)) with
  | .found t => return [← typeLine t]
  | .noSuchType p => return ["not found: " ++ (← display p) ++ " has no type " ++ name]
  | .noSuchPackage => return ["not found: no package for " ++ name]
  | .failed (.ambiguous first second) =>
    return ["ambiguous: " ++ name, ← typeLine first, ← typeLine second]
  | .failed (.notAccessible t) => return ["not accessible: " ++ name, ← typeLine t]

def visibleLines (ignoreUnnamed : Bool) (module package : String) (preferLocal : Bool) :
    Query (List String) := do
  let m ← moduleNamed module
  let path ← accept (Path.parse package)
  match ← lookup (.resolve m path) with
  | none => return ["not found: " ++ path.text]
  | some found =>
    match ← lookup (.viewFor ignoreUnnamed found m preferLocal) with
    | none => return ["not visible: " ++ path.text]
    | some p =>
      let record ← lookup (.package p)
      if record.isSplit then return ["conflict: " ++ (← display p)]
      else
        let home ← lookup (.ask (·.moduleName record.home))
        return [(← display p) ++ " (in " ++ home ++ ")"]

/-- The names of the modules read, each with the way it is read. -/
def readNames (env : Environment) : List (ModuleId × Bool) → Except Fault (List String)
  | [] => return []
  | (m, transitive) :: reads => do
    let name ← env.moduleName m
    return (if transitive then name ++ " (transitive)" else name) :: (← readNames env reads)

/-- A line under the name of a module, unless it would be empty. -/
def listLine (label : String) (names : List String) : List String :=
  if names.isEmpty then [] else [label ++ ", ".intercalate names]

def moduleListing (env : Environment) (m : Module) : Except Fault (List String) := do
  let reads ← readNames env m.reads.entries
  return (m.name ++ if m.unnamed then " (unnamed)" else "") ::
    listLine "  reads:   " reads ++
    listLine "  exports: " (m.exports.toList.map (·.text))

def listings (env : Environment) : List Module → Except Fault (List String)
  | [] => return []
  | m :: ms => return (← moduleListing env m) ++ (← listings env ms)

def Command.lines (config : Config) : Command → Query (List String)
  | .resolve module package => resolveLines module package
  | .type module name => typeLines module name
  | .visible module package preferLocal =>
    visibleLines config.ignoreUnnamed module package preferLocal
  | .modules => lookup (.ask fun env => listings env env.modules.toList)

end SplitPackages.CommandLine
