import SplitPackages.Package

/-!
# Events

An `Event` is something worth telling about a lookup: a choice it made, a
binding it created, or a warning that bindings do not fit together as expected.
A `Step` is a stretch of a lookup inside which events happen.
-/

namespace SplitPackages

/-- The four classes of merge candidates, worst first. -/
inductive Rank where
  | absent
  | notFound
  | problem
  | valid
  deriving DecidableEq, Repr

def Rank.toNat : Rank → Nat
  | absent => 0
  | notFound => 1
  | problem => 2
  | valid => 3

/-- The better of two ranks. -/
def Rank.max (r s : Rank) : Rank := if r.toNat < s.toNat then s else r

inductive Step where
  | combine
  | combineAll
  | addPackage
  | findPackage
  deriving DecidableEq, Repr

inductive Event where
  | combining (previous candidate : Option Ref) (primary : ModuleId)
  | splitMade (split : PackageId)
  | combiningAll (count : Nat) (primary : ModuleId)
  | bestTaken (rank : Rank) (result : Option Ref)
  | combined (rank : Rank) (result : Option Ref)
  | peeled (split incarnation : PackageId)
  | unexpectedParent (child parent : PackageId)
  | adding (child split : PackageId) (module : ModuleId)
  | registered (entry replacing : Option Ref)
  | enriched (before : PackageId) (after : Option Ref)
  | missKnown (name : String) (split : PackageId)
  | entriesMerged (entry : Ref) (parent : PackageId)
  | entryShared (entry : Ref) (incarnation : PackageId)
  | notSplit (package : PackageId)
  | foreignContext (enclosing context : ModuleId)
  | searching (name : String) (split : PackageId) (module : ModuleId)
  | contributed (module : ModuleId) (found : Option Ref)
  | splitLeaked (split : PackageId)
  | searched (result : Option PackageId)
  | foreignResult (result : PackageId) (expected : ModuleId)
  | splitReused (result parent : PackageId)
  | readableCandidate (module : ModuleId) (candidate : PackageId)
  | viewed (module : ModuleId) (path : Path) (result : Option Ref)
  | viewedFor (client : ModuleId) (named : Nat) (unnamed : Bool)
  | worldBuilt (modules packages : Nat)
  deriving DecidableEq, Repr

end SplitPackages
