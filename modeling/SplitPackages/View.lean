import SplitPackages.Known
import SplitPackages.Readability

/-!
# The packages that a module sees

A module sees, at a path, its own declaration together with those of the
modules that it reads and that expose the path. The answer is kept in the
module's own view and never changes afterwards. The entries of the enclosing
package are consulted and filled only if the module is its home, because a
plain binding's entries record what its home sees.
-/

namespace SplitPackages

namespace Environment

/-- Those of the modules, other than `m`, that expose the path and that `m`
can read. -/
def exposersAmong (env : Environment) (m : ModuleId) (path : Path) :
    List ModuleId → Except Fault (List ModuleId)
  | [] => return []
  | k :: ks => do
    if k = m then env.exposersAmong m path ks
    else if !(← env.module k).exposes path then env.exposersAmong m path ks
    else if ← env.canRead m k then return k :: (← env.exposersAmong m path ks)
    else env.exposersAmong m path ks

end Environment

namespace Lookup

def remember (m : ModuleId) (path : Path) (ref : Ref) : Lookup Ref := do
  update (.setModule m (·.remember path ref))
  return ref

def readableCandidates (path : Path) : List ModuleId → Lookup (List PackageId)
  | [] => return []
  | m :: ms => do
    match ← ask (·.declared m path) with
    | none => readableCandidates path ms
    | some p =>
      note (.readableCandidate m p)
      return p :: (← readableCandidates path ms)

def combineVisible (m : ModuleId) (path : Path) : Lookup (Option Ref) := do
  let own ← ask (·.declared m path)
  let others ← ask fun env => env.exposersAmong m path env.moduleIds
  let candidates := own.toList ++ (← readableCandidates path others)
  let found ← combineAll (candidates.map (some ∘ .package)) m
  note (.viewed m path found)
  return found

/-- The package at a path that the module has not looked up before, whose
enclosing package, if any, is `parent`. -/
def viewBelow (m : ModuleId) (path : Path) (parent : Option PackageId) : Lookup Ref := do
  match ← owned parent with
  | none =>
    match (← combineVisible m path).bind Ref.package? with
    | some p => remember m path (.package p)
    | none => remember m path .notFound
  | some above =>
    match ← strict above path.simpleName with
    | some ref => remember m path ref
    | none =>
      match (← combineVisible m path).bind Ref.package? with
      | some p => remember m path (.package (← addChild above p m))
      | none =>
        update (.learnMissing above path.simpleName)
        remember m path .notFound
where
  /-- The enclosing package, if the module is its home. -/
  owned : Option PackageId → Lookup (Option PackageId)
    | none => return none
    | some p => return if (← package p).home = m then some p else none

/-- The package that the module sees at the path. -/
def view (m : ModuleId) : Path → Lookup Ref
  | .top name => do
    match (← module m).visible.get? (.top name) with
    | some ref => return ref
    | none => viewBelow m (.top name) none
  | .sub enclosing name => do
    match (← module m).visible.get? (.sub enclosing name) with
    | some ref => return ref
    | none =>
      match ← view m enclosing with
      | .notFound => remember m (.sub enclosing name) .notFound
      | .package parent => viewBelow m (.sub enclosing name) (some parent)

end Lookup

end SplitPackages
