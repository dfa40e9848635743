import SplitPackages.Search

/-!
# Resolving packages and types

A path is resolved segment by segment: the top level from the module's view,
each further segment below the binding found so far.

A type in a split is looked up in each incarnation. The first hit is kept until
an accessible one takes its place; a second accessible hit makes the type
ambiguous; a hit that never became accessible is reported as such. A type in a
plain package must be in an accessible package.
-/

namespace SplitPackages

namespace Environment

def typeIn (env : Environment) (p : PackageId) (name : String) : Except Fault (Option TypeId) :=
  (·.types.get? name) <$> env.package p

def anyHasType (env : Environment) (name : String) : List PackageId → Except Fault Bool
  | [] => return false
  | p :: ps => do
    if (← env.package p).types.contains name then return true else env.anyHasType name ps

def knowsType (env : Environment) (p : PackageId) (name : String) : Except Fault Bool := do
  let record ← env.package p
  if record.types.contains name then return true else env.anyHasType name record.incarnations

/-- The type that exactly this module contributes. -/
def typeOfModule (env : Environment) (p : PackageId) (m : ModuleId) (name : String) :
    Except Fault (Option TypeId) := do
  if ← env.isDeclaredIn p m then
    match ← env.incarnation p m with
    | some inc => env.typeIn inc name
    | none => return none
  else return none

/-- Goes through the bindings with the hit kept so far and whether the client
can access it. -/
def typeAmong (env : Environment) (client : ModuleId) (name : String) :
    Option (TypeId × Bool) → List PackageId → Except Fault (Except TypeError (Option TypeId))
  | none, [] => return .ok none
  | some (t, accessible), [] => return if accessible then .ok (some t) else .error (.notAccessible t)
  | kept, p :: ps => do
    match ← env.typeIn p name with
    | none => env.typeAmong client name kept ps
    | some t =>
      let accessible ← env.canAccess client p
      match kept with
      | some (first, true) =>
        if accessible then return .error (.ambiguous first t)
        else env.typeAmong client name kept ps
      | _ => env.typeAmong client name (some (t, accessible)) ps

/-- The type `name` of a package for a client. Only in a split can it fail. -/
def typeFor (env : Environment) (p : PackageId) (name : String) (client : ModuleId) :
    Except Fault (Except TypeError (Option TypeId)) := do
  let record ← env.package p
  if record.isSplit then env.typeAmong client name none record.incarnations
  else return .ok (record.types.get? name)

end Environment

inductive TypeResolution where
  | found (type : TypeId)
  /-- The package is there but does not have the type. -/
  | noSuchType (package : PackageId)
  | noSuchPackage
  | failed (error : TypeError)
  deriving DecidableEq, Repr

namespace Lookup

def resolve (m : ModuleId) : Path → Lookup (Option PackageId)
  | .top name => return (← view m (.top name)).package?
  | .sub enclosing name => do
    match ← resolve m enclosing with
    | none => return none
    | some p => child p name m

def typeOf (m : ModuleId) (p : PackageId) (name : String) : Lookup TypeResolution := do
  match ← ask (·.typeFor p name m) with
  | .error e => return .failed e
  | .ok none => return .noSuchType p
  | .ok (some t) =>
    if (← package p).isSplit then return .found t
    else if ← ask (·.canAccess m p) then return .found t
    else return .failed (.notAccessible t)

def resolveType (m : ModuleId) (qualified : String) :
    Lookup (Except GraphError TypeResolution) := do
  match Path.splitTypeName qualified with
  | .error e => return .error e
  | .ok (path, name) =>
    match ← resolve m path with
    | none => return .ok .noSuchPackage
    | some p => return .ok (← typeOf m p name)

end Lookup

end SplitPackages
