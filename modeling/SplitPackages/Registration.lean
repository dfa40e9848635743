import SplitPackages.Combine

/-!
# Registering packages below a package

A plain or problem binding stores a child under its simple name. A split first
enriches the child with the same package from its other modules, merges it with
what it knows under that name already, and stores the part that belongs to the
child's own module below its own incarnation of that module, so that the tree
of each module stays linked. A split is never stored below a plain binding
here.
-/

namespace SplitPackages

namespace Update

def storeChild (parent child : PackageId) : Update Unit := do
  let name := (← package child).path.simpleName
  setPackage parent (·.learn name (.package child))

end Update

namespace Environment

/-- What the homes of the incarnations declare at the path, without the module
that asks and those that contribute to the child already. -/
def siblings (env : Environment) (child : PackageId) (m : ModuleId) (path : Path) :
    List PackageId → Except Fault (List PackageId)
  | [] => return []
  | p :: ps => do
    let home := (← env.package p).home
    if home = m then env.siblings child m path ps
    else if ← env.isDeclaredIn child home then env.siblings child m path ps
    else
      match ← env.declared home path with
      | some next => return next :: (← env.siblings child m path ps)
      | none => env.siblings child m path ps

end Environment

namespace Lookup

def enrich (split child : PackageId) (m : ModuleId) : Lookup PackageId := do
  let record ← package child
  match ← ask (·.siblings child m record.path (← package split).incarnations) with
  | [] => return child
  | siblings =>
    let after ← combineAll ((siblings ++ [child]).map (some ∘ .package)) record.home
    note (.enriched child after)
    return (after.bind Ref.package?).getD child

/-- Stores the part of the child that its own module contributes below that
module's incarnation of the split. -/
def linkIncarnation (split child : PackageId) : Lookup Unit := do
  let home := (← package child).home
  match ← ask (·.incarnation split home) with
  | none => return ()
  | some above =>
    match ← ask (·.incarnation child home) with
    | none => return ()
    | some below => update (.storeChild above below)

def addUnderSplit (split child : PackageId) (m : ModuleId) : Lookup PackageId :=
  within .addPackage do
    let record ← package child
    if record.parent ≠ some split then note (.unexpectedParent child split)
    note (.adding child split m)
    let enriched ← enrich split child m
    let target ← package split
    let name := record.path.simpleName
    let previous := target.known.get? name
    let entry ← combine (some (.package enriched)) previous target.home
    note (.registered entry previous)
    match entry with
    | some ref => update (.setPackage split (·.learn name ref))
    | none => pure ()
    linkIncarnation split enriched
    return enriched

/-- Registers a child below a binding and gives the binding stored for it. -/
def addChild (parent child : PackageId) (m : ModuleId) : Lookup PackageId := do
  if (← package parent).isSplit then addUnderSplit parent child m
  else
    update (.storeChild parent child)
    return child

end Lookup

end SplitPackages
