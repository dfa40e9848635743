import SplitPackages.Description
import SplitPackages.Lookup

/-!
# Reports

A report is an event in words: its severity, a message, and named fields. The
words describe the bindings as they were when the event happened. The fields of
an event may name modules that do not exist; such an event cannot be described.
-/

namespace SplitPackages

/-- How grave an event is; the gravest first. -/
inductive Severity where
  | error
  | warn
  | info
  | debug
  | trace
  deriving DecidableEq, Repr

namespace Severity

def toNat : Severity → Nat
  | error => 0
  | warn => 1
  | info => 2
  | debug => 3
  | trace => 4

def label : Severity → String
  | error => "ERROR"
  | warn => "WARN"
  | info => "INFO"
  | debug => "DEBUG"
  | trace => "TRACE"

/-- Whether an event of this severity is told to someone who listens to the
given severity and all graver ones. -/
def reaches (s listened : Severity) : Bool := s.toNat ≤ listened.toNat

end Severity

def Step.label : Step → String
  | combine => "combine"
  | combineAll => "combine_all"
  | addPackage => "add_package"
  | findPackage => "find_package"

namespace Event

def severity : Event → Severity
  | unexpectedParent .. | entryShared .. | notSplit .. | foreignContext .. | splitLeaked ..
  | foreignResult .. | splitReused .. => .warn
  | contributed .. | readableCandidate .. => .trace
  | _ => .debug

def message : Event → String
  | combining .. => "combine bindings"
  | splitMade .. => "new split binding"
  | combiningAll .. => "combine all bindings"
  | bestTaken .. => "combined all as early singleton"
  | combined .. => "combined all"
  | peeled .. => "peeled singleton split"
  | unexpectedParent .. => "adding child binding with unexpected parent"
  | adding .. => "add package binding"
  | registered .. => "register known package"
  | enriched .. => "enriched sub-binding"
  | missKnown .. => "package not found from cache"
  | entriesMerged .. => "register known package in parent binding"
  | entryShared .. => "adding reference to sub-package already cached by an incarnation"
  | notSplit .. => "find_package on a non-split binding"
  | foreignContext .. => "enclosing module does not match search context"
  | searching .. => "find package"
  | contributed .. => "declaring module contributed"
  | splitLeaked .. => "leaking non-unique split binding"
  | searched .. => "search result"
  | foreignResult .. => "resulting package binding has foreign enclosing module"
  | splitReused .. => "adding non-unique split binding as package"
  | readableCandidate .. => "readable module contributes candidate"
  | viewed .. => "visible package"
  | viewedFor .. => "visible for client"
  | worldBuilt .. => "built world"

/-- Whether the event belongs to a task; the events of a muted task are not
told. -/
def ofTask : Event → Bool
  | worldBuilt .. => false
  | _ => true

/-- The fields of an event, in words. -/
def fields (env : Environment) : Event → Except Fault (List (String × String))
  | combining previous candidate primary =>
    return [("previous", ← env.describe previous), ("candidate", ← env.describe candidate),
      ("primary", ← env.moduleName primary)]
  | splitMade split => return [("split", ← binding split)]
  | combiningAll count primary =>
    return [("count", Nat.repr count), ("primary", ← env.moduleName primary)]
  | bestTaken rank result | combined rank result =>
    return [("rank", Nat.repr rank.toNat), ("result", ← env.describe result)]
  | peeled split incarnation =>
    return [("split", split.text), ("incarnation", incarnation.text)]
  | unexpectedParent child parent =>
    return [("child", ← binding child), ("parent", ← binding parent)]
  | adding child split module =>
    return [("child", ← binding child), ("split", ← binding split),
      ("module", ← env.moduleName module)]
  | registered entry replacing =>
    return [("registered", ← env.describe entry), ("replacing", ← env.describe replacing)]
  | enriched before after => return [("from", ← binding before), ("to", ← env.describe after)]
  | missKnown name split => return [("simple_name", name), ("split", split.text)]
  | entriesMerged entry parent =>
    return [("candidate", ← env.describe entry), ("parent", ← binding parent)]
  | entryShared entry incarnation =>
    return [("candidate", ← env.describe entry), ("incarnation", ← binding incarnation)]
  | notSplit package => return [("package", ← binding package)]
  | foreignContext enclosing context =>
    return [("enclosing", ← env.moduleName enclosing), ("context", ← env.moduleName context)]
  | searching name split module =>
    return [("simple_name", name), ("split", ← binding split), ("module", ← env.moduleName module)]
  | contributed module found =>
    return [("module", ← env.moduleName module), ("candidate", ← env.describe found)]
  | splitLeaked split => return [("split", ← binding split)]
  | searched result => return [("result", ← env.describe (result.map .package))]
  | foreignResult result expected =>
    return [("result", ← binding result), ("expected", ← env.moduleName expected)]
  | splitReused result parent =>
    return [("result", ← binding result), ("parent", ← binding parent)]
  | readableCandidate module candidate =>
    return [("module", ← env.moduleName module), ("candidate", candidate.text)]
  | viewed module path result =>
    return [("module", ← env.moduleName module), ("path", path.text),
      ("result", ← env.describe result)]
  | viewedFor client named unnamed =>
    return [("client", ← env.moduleName client), ("named", Nat.repr named),
      ("unnamed", if unnamed then "true" else "false")]
  | worldBuilt modules packages =>
    return [("modules", Nat.repr modules), ("packages", Nat.repr packages)]
where
  binding (p : PackageId) : Except Fault String := env.describe (some (.package p))

end Event

structure Report where
  severity : Severity
  /-- The steps inside which the event happened, outermost first. -/
  steps : List Step
  message : String
  fields : List (String × String)
  deriving DecidableEq

/-- The report of a note for a task. -/
def Note.report (task : String) (note : Note) : Except Fault Report := do
  let fields ← note.event.fields note.env
  let task := if note.event.ofTask then [("task", task)] else []
  return ⟨note.event.severity, note.steps, note.event.message, task ++ fields⟩

end SplitPackages
