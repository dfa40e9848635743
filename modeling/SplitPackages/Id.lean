/-!
# Identifiers

Modules, packages and types are numbered in order of creation, each kind from
zero. An identifier is such a number with its kind; equal identifiers name the
same record.

The numbers have no bound here. With numbers of 32 bits everything is the same
as long as there are fewer than 2 ^ 32 records of each kind.
-/

namespace SplitPackages

structure ModuleId where
  index : Nat
  deriving DecidableEq, Repr

structure PackageId where
  index : Nat
  deriving DecidableEq, Repr

structure TypeId where
  index : Nat
  deriving DecidableEq, Repr

namespace ModuleId

def text (m : ModuleId) : String := "mod" ++ Nat.repr m.index

/-- The form that names the kind in full. -/
def debugText (m : ModuleId) : String := "ModuleId(" ++ Nat.repr m.index ++ ")"

end ModuleId

namespace PackageId

def text (p : PackageId) : String := "pkg" ++ Nat.repr p.index

/-- The form that names the kind in full. -/
def debugText (p : PackageId) : String := "PackageId(" ++ Nat.repr p.index ++ ")"

end PackageId

namespace TypeId

def text (t : TypeId) : String := "type" ++ Nat.repr t.index

/-- The form that names the kind in full. -/
def debugText (t : TypeId) : String := "TypeId(" ++ Nat.repr t.index ++ ")"

end TypeId

end SplitPackages
