import SplitPackages.Lookup

/-!
# Splits

A split is created from one binding and grows by adding others: a plain
binding contributes itself, a split its incarnations, a problem nothing. Three
facts hold throughout: the incarnations of a split are plain; its declaring
modules are their homes; and each of them lists the split among those around
it.
-/

namespace SplitPackages

namespace Environment

/-- The plain binding that exactly this module contributes. -/
def homeIncarnation (env : Environment) (m : ModuleId) :
    List PackageId → Except Fault (Option PackageId)
  | [] => return none
  | p :: ps => do
    if (← env.package p).home = m then return some p else homeIncarnation env m ps

/-- The plain binding that the module contributes to a split; the binding
itself if it is plain and the module's own. -/
def incarnation (env : Environment) (p : PackageId) (m : ModuleId) :
    Except Fault (Option PackageId) := do
  let record ← env.package p
  match record.kind with
  | .split split => env.homeIncarnation m split.incarnations.toList
  | .plain _ => return if record.home = m then some p else none
  | .problem => return none

def isDeclaredIn (env : Environment) (p : PackageId) (m : ModuleId) : Except Fault Bool := do
  return m ∈ (← env.package p).declaring

/-- Whether the first binding covers all that the second contributes. A split
covers a binding of its path whose modules it all has; any other binding covers
itself alone. -/
def subsumes (env : Environment) (p other : PackageId) : Except Fault Bool := do
  let record ← env.package p
  match record.kind with
  | .split split =>
    let target ← env.package other
    if record.path ≠ target.path then return false
    match target.kind with
    | .split inner => return inner.declaring.toList.all (· ∈ split.declaring)
    | _ => return target.home ∈ split.declaring
  | _ => return p = other

end Environment

namespace Update

def wrapAll (split : PackageId) : List PackageId → Update Unit
  | [] => return ()
  | p :: ps => do
    setPackage p (·.mapPlain fun plain => { plain with wrappedBy := plain.wrappedBy.insert split })
    wrapAll split ps

/-- Adds what a binding contributes to a split. Nothing happens to a target
that is not a split. -/
def addToSplit (split other : PackageId) : Update Unit := do
  let source ← package other
  match source.kind with
  | .problem => return ()
  | _ =>
    match (← package split).split? with
    | none => return ()
    | some target =>
      let incarnations := source.contributors other
      setPackage split (·.mapSplit fun s =>
        { s with
          declaring := s.declaring.insertMany source.declaring
          incarnations := s.incarnations.insertMany incarnations })
      wrapAll split (target.incarnations.newIn incarnations)

def addAllToSplit (split : PackageId) : List PackageId → Update Unit
  | [] => return ()
  | p :: ps => do
    addToSplit split p
    addAllToSplit split ps

end Update

namespace Lookup

def newSplit (initial : PackageId) (primary : ModuleId) : Lookup PackageId := do
  let record ← package initial
  let split ← update (.addPackage (.fresh record.path record.parent primary (.split .empty)))
  update (.addToSplit split initial)
  announce split record.path
  return split

/-- The only incarnation of a split that has just one, else the binding. -/
def peel (p : PackageId) : Lookup PackageId := do
  match (← package p).split? with
  | some split =>
    match split.incarnations.toList with
    | [only] =>
      note (.peeled p only)
      return only
    | _ => return p
  | none => return p

end Lookup

end SplitPackages
