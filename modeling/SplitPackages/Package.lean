import SplitPackages.OrderedSet
import SplitPackages.Path
import SplitPackages.Table

/-!
# Package bindings

A `Package` binds a path on behalf of one module, its home. There are three
kinds. A plain binding is one module's own declaration of the path. A split
gathers the plain bindings of one path that several modules contribute, its
incarnations. A problem binding is invalid. Bindings refer to each other by
identifier only.

`Ref` is the result of a lookup that has an answer: a binding, or the
knowledge that there is none. A lookup that has no answer yet gives no `Ref`.
-/

namespace SplitPackages

inductive Ref where
  /-- Searched for, and not there. -/
  | notFound
  | package (id : PackageId)
  deriving DecidableEq, Repr

def Ref.package? : Ref → Option PackageId
  | notFound => none
  | package id => some id

structure Plain where
  /-- Whether the module has a compilation unit in the package itself, and not
  only in packages below it. -/
  hasUnit : Bool
  /-- The splits that have this binding as an incarnation. -/
  wrappedBy : OrderedSet PackageId
  deriving DecidableEq

structure Split where
  /-- The homes of the incarnations. -/
  declaring : OrderedSet ModuleId
  incarnations : OrderedSet PackageId
  /-- The last relaxed lookup of a name: the entries of the incarnations that
  it combined, and its result. -/
  relaxed : Table String (List Ref × Option Ref)
  deriving DecidableEq

def Split.empty : Split := ⟨.empty, .empty, .empty⟩

inductive Kind where
  | plain (plain : Plain)
  | split (split : Split)
  | problem
  deriving DecidableEq

structure Package where
  path : Path
  parent : Option PackageId
  /-- The module from which the binding is resolved. -/
  home : ModuleId
  known : Table String Ref
  types : Table String TypeId
  missingType : Bool
  kind : Kind
  deriving DecidableEq

structure TypeRecord where
  name : String
  package : PackageId
  module : ModuleId
  deriving DecidableEq

namespace Package

def fresh (path : Path) (parent : Option PackageId) (home : ModuleId) (kind : Kind) : Package :=
  ⟨path, parent, home, .empty, .empty, false, kind⟩

def plain? (p : Package) : Option Plain :=
  match p.kind with
  | .plain plain => some plain
  | _ => none

def split? (p : Package) : Option Split :=
  match p.kind with
  | .split split => some split
  | _ => none

def isPlain (p : Package) : Bool := p.plain?.isSome

def isSplit (p : Package) : Bool := p.split?.isSome

/-- Only problem bindings are invalid. -/
def isValid (p : Package) : Bool := p.kind ≠ .problem

/-- Only a plain binding can hold a compilation unit. -/
def hasUnit (p : Package) : Bool := p.plain?.any (·.hasUnit)

/-- The incarnations of a split; none for the other kinds. -/
def incarnations (p : Package) : List PackageId :=
  match p.kind with
  | .split split => split.incarnations.toList
  | _ => []

def wrappedBy (p : Package) : List PackageId :=
  match p.kind with
  | .plain plain => plain.wrappedBy.toList
  | _ => []

def declaring (p : Package) : List ModuleId :=
  match p.kind with
  | .plain _ => [p.home]
  | .split split => split.declaring.toList
  | .problem => []

/-- The plain bindings that make up the binding `id`. -/
def contributors (id : PackageId) (p : Package) : List PackageId :=
  match p.kind with
  | .plain _ => [id]
  | .split split => split.incarnations.toList
  | .problem => []

def mapPlain (f : Plain → Plain) (p : Package) : Package :=
  match p.kind with
  | .plain plain => { p with kind := .plain (f plain) }
  | _ => p

def mapSplit (f : Split → Split) (p : Package) : Package :=
  match p.kind with
  | .split split => { p with kind := .split (f split) }
  | _ => p

def learn (name : String) (ref : Ref) (p : Package) : Package :=
  { p with known := p.known.insert name ref }

end Package

end SplitPackages
