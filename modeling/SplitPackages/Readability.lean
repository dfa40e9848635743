import SplitPackages.Environment

/-!
# Readability and access

A module reads itself, the modules of its direct reads, and everything that
those read transitively; an unnamed module reads every module. `canRead`
searches breadth first. A module enters the queue as often as it is read, and is
marked when it leaves it for the first time; only then do the modules that it
implies enter. So each read is followed at most once, and `turnsLeft` counts the
turns that a search can still take.

A client can access a plain binding of its own, and an exported one of a module
that it reads. It can access a split when it can access an incarnation, and a
problem binding never.
-/

namespace SplitPackages.Environment

/-- Searches the queue and what it implies for the target. There is no answer if
the turns are used up before the queue is empty. -/
def reaches (env : Environment) (target : ModuleId) :
    Nat → (visited queue : List ModuleId) → Except Fault (Option Bool)
  | _, _, [] => return some false
  | 0, _, _ :: _ => return none
  | turns + 1, visited, m :: queue => do
    if m = target then return some true
    if m ∈ visited then reaches env target turns visited queue
    else reaches env target turns (m :: visited) (queue ++ (← env.module m).impliedReads)

/-- The modules that enter the queue when `m` leaves it for the first time. -/
def impliedReads (env : Environment) (m : ModuleId) : List ModuleId :=
  match env.module m with
  | .ok record => record.impliedReads
  | .error _ => []

/-- A search takes a turn for each module that is in the queue or has yet to enter it. -/
def turnsLeft (env : Environment) (visited queue : List ModuleId) : Nat :=
  (queue ++ (env.moduleIds.filter (· ∉ visited)).flatMap env.impliedReads).length

def canRead (env : Environment) (m target : ModuleId) : Except Fault Bool := do
  if m = target then return true
  let record ← env.module m
  if record.unnamed then return true
  let queue := record.reads.keys
  match ← env.reaches target (env.turnsLeft [] queue) [] queue with
  | some found => return found
  | none => throw .spent

/-- Whether the client can access a binding that is not a split. -/
def canAccessOwn (env : Environment) (client : ModuleId) (record : Package) :
    Except Fault Bool := do
  if !record.isValid then return false
  if record.home = client then return true
  if ← env.canRead client record.home then
    return (← env.module record.home).exportsPackage record.path
  else return false

def canAccessAny (env : Environment) (client : ModuleId) : List PackageId → Except Fault Bool
  | [] => return false
  | p :: ps => do
    if ← env.canAccessOwn client (← env.package p) then return true
    else canAccessAny env client ps

def canAccess (env : Environment) (client : ModuleId) (p : PackageId) : Except Fault Bool := do
  let record ← env.package p
  match record.kind with
  | .split split => env.canAccessAny client split.incarnations.toList
  | _ => env.canAccessOwn client record

end SplitPackages.Environment
