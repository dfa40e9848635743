import SplitPackages.Report
import SplitPackages.Request

/-!
# Sessions

A session is an environment with its configuration. Each request to it gives
an answer, the splits created on the way, and a report of every event that the
listener wants to hear: those of the severity listened to and graver ones,
unless the task is muted. An event that cannot be described is a fault, unless
its task is muted.
-/

namespace SplitPackages

structure Session where
  config : Config
  env : Environment

structure Outcome (α : Type) where
  answer : α
  splits : List (PackageId × Path)
  reports : List Report

namespace Session

def start (config : Config) : Session := ⟨config, .empty⟩

/-- Whether an event is dropped before it is described. -/
def mutes (config : Config) (event : Event) : Bool := config.isQuiet && event.ofTask

/-- The reports that are told; every event that is not muted is described,
whether or not its severity is listened to. -/
def reportAll (config : Config) (listened : Option Severity) :
    List Note → Except Fault (List Report)
  | [] => return []
  | note :: notes => do
    if mutes config note.event then reportAll config listened notes
    else
      let report ← note.report config.task
      let reports ← reportAll config listened notes
      return if listened.any report.severity.reaches then report :: reports else reports

def perform {α : Type} (s : Session) (listened : Option Severity) (act : Lookup α) :
    Except Fault (Outcome α × Session) := do
  let (answer, state) ← act ⟨s.env, .empty⟩
  let reports ← reportAll s.config listened state.journal.notes
  return (⟨answer, state.journal.splits, reports⟩, { s with env := state.env })

def request (s : Session) (listened : Option Severity) (r : Request) :
    Except Fault (Outcome Answer × Session) :=
  s.perform listened (r.run s.config)

/-- The sizes of the environment and the configuration, by name. -/
def debugText (s : Session) : String :=
  "LookupEnvironment \x7b modules: " ++ Nat.repr s.env.modules.size ++
    ", packages: " ++ Nat.repr s.env.packages.size ++
    ", types: " ++ Nat.repr s.env.types.size ++
    ", config: " ++ s.config.debugText ++ " \x7d"

end Session

end SplitPackages
