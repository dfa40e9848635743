import SplitPackages.Declaration
import SplitPackages.Session
import SplitPackages.World

/-!
# Building a world

A world becomes an environment: first all its modules, so that the position of
a module in the world is its identifier, and then, module by module, what each
reads, exports and declares. The world need not be valid; building stops at the
first part of it that makes no sense.
-/

namespace SplitPackages

/-- A change of an environment that may find a world inconsistent. -/
abbrev Building (α : Type) := ExceptT WorldError (StateT Environment (Except Fault)) α

namespace Building

def update {α : Type} (u : Update α) : Building α := ExceptT.lift u

/-- An update that must not be refused. -/
def accept {α : Type} (u : Update (Except GraphError α)) : Building α := do
  match ← update u with
  | .ok a => return a
  | .error e => throw (.graph e)

def path (s : String) : Building Path :=
  match Path.parse s with
  | .ok p => return p
  | .error e => throw (.graph e)

/-- The module of that name that comes first in the world. -/
def target (w : World) (reader name : String) : Building ModuleId :=
  match w.modules.findIdx? (·.name = name) with
  | some i => return ⟨i⟩
  | none => throw (.unknownModule reader name)

/-- Marks a package as missing types, and declares it unless it is declared. -/
def markMissing (m : ModuleId) (p : Path) : Building Unit := do
  match ← update (.ask (·.declared m p)) with
  | some id => update (.markMissing id)
  | none => update (.markMissing (← accept (.declarePackage m p)))

def contents (w : World) (e : ModuleEntry) (m : ModuleId) : Building Unit := do
  e.reads.forM fun name => do update (.addRead m (← target w e.name name))
  e.transitiveReads.forM fun name => do update (.addTransitiveRead m (← target w e.name name))
  e.exports.forM fun s => do update (.addExport m (← path s))
  e.packages.forM fun s => do discard <| accept (.declarePackage m (← path s))
  e.problemPackages.forM fun s => do discard <| accept (.declareProblem m (← path s))
  e.types.forM fun s => do discard <| accept (.declareType m s)
  e.missingTypes.forM fun s => do markMissing m (← path s)

def allContents (w : World) (position : Nat) : List ModuleEntry → Building Unit
  | [] => return ()
  | e :: es => do
    contents w e ⟨position⟩
    allContents w (position + 1) es

end Building

namespace World

def populate (w : World) : Building Unit := do
  w.modules.forM fun e => do discard <| Building.update (.addModule e.name e.unnamed)
  Building.allContents w 0 w.modules

def build (w : World) : Except Fault (Except WorldError Environment) := do
  let (result, env) ← w.populate.run Environment.empty
  return result.map fun _ => env

def announceBuilt : Lookup Unit := do
  let env := (← get).env
  Lookup.note (.worldBuilt env.modules.size env.packages.size)

/-- Builds a world, tells about it, and starts a session in it. -/
def start (w : World) (listened : Option Severity) :
    Except Fault (Except WorldError (Outcome Unit × Session)) := do
  match ← w.build with
  | .error e => return .error e
  | .ok env => return .ok (← (Session.mk w.config env).perform listened announceBuilt)

end World

end SplitPackages
