import SplitPackages.Text.Blank
import SplitPackages.Text.Pieces
import SplitPackages.Text.Quoted

/-!
# Configuration

A configuration names the task that does the lookups, the tasks whose events
are muted, and whether the unnamed module is ignored when a client sees a split
package in exactly one named module. Environment variables override fields; a
variable with an unusable value changes nothing.
-/

namespace SplitPackages

structure Config where
  ignoreUnnamed : Bool
  task : String
  quietTasks : List String
  deriving DecidableEq, Repr

inductive ConfigError where
  | invalidValue (field reason : String)
  deriving DecidableEq, Repr

def ConfigError.message : ConfigError → String
  | .invalidValue field reason => "invalid configuration for '" ++ field ++ "': " ++ reason

namespace Config

def standard : Config := ⟨false, "main", ["indexing", "reconciler"]⟩

instance : Inhabited Config := ⟨standard⟩

/-- Whether the events of the configured task are muted. -/
def isQuiet (c : Config) : Bool := c.task ∈ c.quietTasks

def validate (c : Config) : Except ConfigError Unit :=
  if Text.trim c.task = "" then .error (.invalidValue "task" "must not be empty") else .ok ()

/-- The configuration, if it is valid. -/
def checked (c : Config) : Except ConfigError Config := do
  c.validate
  return c

/-- A truth value, in upper or lower case letters. -/
def parseFlag (s : String) : Option Bool :=
  let word := s.map Char.toLower
  if word ∈ ["true", "1", "yes", "on"] then some true
  else if word ∈ ["false", "0", "no", "off"] then some false
  else none

/-- The pieces between commas, trimmed, without the empty ones. -/
def parseList (s : String) : List String :=
  ((s.toList.splitOn ',').map fun p => String.ofList (Text.trimChars p)).filter (· ≠ "")

/-- The environment variables that override fields. -/
def variableNames : List String :=
  ["MODLOOKUP_IGNORE_UNNAMED_SPLIT", "MODLOOKUP_TASK", "MODLOOKUP_QUIET_TASKS"]

/-- Overrides the fields whose environment variables are set. -/
def mergeEnv (value : String → Option String) (c : Config) : Config :=
  let ignoreUnnamed :=
    ((value "MODLOOKUP_IGNORE_UNNAMED_SPLIT").bind parseFlag).getD c.ignoreUnnamed
  let task :=
    match (value "MODLOOKUP_TASK").map Text.trim with
    | some task => if task = "" then c.task else task
    | none => c.task
  let quietTasks := ((value "MODLOOKUP_QUIET_TASKS").map parseList).getD c.quietTasks
  ⟨ignoreUnnamed, task, quietTasks⟩

def flagText (b : Bool) : String := if b then "true" else "false"

/-- All fields by name. -/
def debugText (c : Config) : String :=
  "LookupConfig \x7b ignore_unnamed_module_for_split_package: " ++ flagText c.ignoreUnnamed ++
    ", task: " ++ Text.quote c.task ++
    ", quiet_tasks: [" ++ ", ".intercalate (c.quietTasks.map Text.quote) ++ "] \x7d"

end Config

end SplitPackages
