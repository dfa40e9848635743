import SplitPackages.Id

/-!
# Errors

`GraphError` is a malformed request to the graph builders. `TypeError` is one
of the two ways in which a type lookup across modules fails. Absent and
not-found packages are values, not errors. A `Fault` leaves a request without an
answer: it names a record that was never created, or a search has no turns left,
which does not happen.
-/

namespace SplitPackages

inductive GraphError where
  | invalidPath (path : String)
  | invalidTypeName (name : String)
  | packageConflict (module path : String)
  | duplicateType (module name : String)
  deriving DecidableEq, Repr

def GraphError.message : GraphError → String
  | .invalidPath path => "invalid package path: `" ++ path ++ "`"
  | .invalidTypeName name => "invalid qualified type name: `" ++ name ++ "`"
  | .packageConflict module path =>
    "package `" ++ path ++ "` is already declared in module `" ++ module ++ "`"
  | .duplicateType module name =>
    "type `" ++ name ++ "` is already declared in module `" ++ module ++ "`"

inductive TypeError where
  /-- Two modules that the client can access both declare the type. -/
  | ambiguous (first second : TypeId)
  /-- The type exists, but the client can access no module that declares it. -/
  | notAccessible (type : TypeId)
  deriving DecidableEq, Repr

namespace TypeError

/-- The type against which the error is reported. -/
def primary : TypeError → TypeId
  | ambiguous first _ => first
  | notAccessible type => type

def message : TypeError → String
  | ambiguous first second =>
    "type is ambiguous: " ++ first.text ++ " and " ++ second.text ++ " are both accessible"
  | notAccessible type =>
    "type " ++ type.text ++ " is not accessible from the requesting module"

end TypeError

inductive Fault where
  | module (id : ModuleId)
  | package (id : PackageId)
  | type (id : TypeId)
  | spent
  deriving DecidableEq, Repr

end SplitPackages
