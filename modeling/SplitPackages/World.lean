import SplitPackages.Config
import SplitPackages.Error

/-!
# Worlds

A `World` describes a module graph: the modules with what they read, export and
declare, and the configuration of lookups in it. Modules refer to each other by
name, so that a valid world has different names and reads only those. Paths and
type names are not looked at before an environment is built.
-/

namespace SplitPackages

structure ModuleEntry where
  name : String
  unnamed : Bool
  reads : List String
  /-- The modules that are read by all readers of this module too. -/
  transitiveReads : List String
  exports : List String
  /-- The packages that hold a compilation unit. -/
  packages : List String
  /-- The packages declared as invalid bindings. -/
  problemPackages : List String
  types : List String
  /-- The packages below which a type is missing. -/
  missingTypes : List String
  deriving DecidableEq, Repr

structure World where
  config : Config
  modules : List ModuleEntry
  deriving DecidableEq, Repr

inductive WorldError where
  /-- The text is no TOML document, or not one in the shape of a world. -/
  | malformed
  | config (error : ConfigError)
  | duplicateModule (name : String)
  | unknownModule (reader name : String)
  | graph (error : GraphError)
  deriving DecidableEq, Repr

def WorldError.message : WorldError → String
  | malformed => "failed to parse world manifest: not a world in TOML"
  | config error => error.message
  | duplicateModule name => "duplicate module name: " ++ name
  | unknownModule reader name => "module `" ++ reader ++ "` reads unknown module `" ++ name ++ "`"
  | graph error => error.message

namespace ModuleEntry

def named (name : String) : ModuleEntry := ⟨name, false, [], [], [], [], [], [], []⟩

def unknownRead (names : List String) (m : ModuleEntry) : Option String :=
  (m.reads ++ m.transitiveReads).find? (· ∉ names)

end ModuleEntry

namespace World

def names (w : World) : List String := w.modules.map (·.name)

def repeated (seen : List String) : List String → Option String
  | [] => none
  | name :: names => if name ∈ seen then some name else repeated (name :: seen) names

def unknownRead (w : World) : Option (String × String) :=
  w.modules.findSome? fun m => (m.unknownRead w.names).map (m.name, ·)

def validate (w : World) : Except WorldError Unit :=
  match w.config.validate with
  | .error e => .error (.config e)
  | .ok _ =>
    match repeated [] w.names with
    | some name => .error (.duplicateModule name)
    | none =>
      match w.unknownRead with
      | some (reader, name) => .error (.unknownModule reader name)
      | none => .ok ()

end World

end SplitPackages
