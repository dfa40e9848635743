import SplitPackages.CommandLine.Answer
import SplitPackages.CommandLine.Directory
import SplitPackages.CommandLine.Help
import SplitPackages.World.Build
import SplitPackages.World.Text

/-!
# The program

The program reads a world from a file, merges the environment variables and the
options into its configuration, builds it and carries out one command. It
answers on the output, tells events up to the severity asked for, and ends with
a code: zero, one for a failure, two for arguments that make no sense.
-/

namespace SplitPackages.CommandLine

/-- Why the program failed, with the causes behind it, nearest first. -/
structure Failure where
  message : String
  causes : List String
  deriving DecidableEq, Repr

namespace Failure

def indented (indent : String) (s : String) : String :=
  String.intercalate ("\n" ++ indent) ((s.toList.splitOn '\n').map String.ofList)

/-- A number in a column five characters wide. -/
def column (n : Nat) : String :=
  String.ofList (List.replicate (5 - (Nat.repr n).length) ' ') ++ Nat.repr n

def numbered (n : Nat) : List String → String
  | [] => ""
  | cause :: causes =>
    "\n" ++ column n ++ ": " ++ indented "       " cause ++ numbered (n + 1) causes

/-- The causes, numbered if there is more than one. -/
def causeText : List String → String
  | [] => ""
  | [cause] => "\n\nCaused by:\n    " ++ indented "    " cause
  | causes => "\n\nCaused by:" ++ numbered 0 causes

def text (f : Failure) : String := "Error: " ++ f.message ++ causeText f.causes ++ "\n"

end Failure

structure Conclusion where
  code : Nat
  output : String
  reports : List Report
  /-- What is said about a failure. -/
  complaint : Option String
  deriving DecidableEq

namespace Conclusion

def success (lines : List String) (reports : List Report) : Conclusion :=
  ⟨0, String.join (lines.map (· ++ "\n")), reports, none⟩

def failure (f : Failure) (reports : List Report) : Conclusion := ⟨1, "", reports, some f.text⟩

def misuse (e : UsageError) : Conclusion := ⟨2, "", [], some (e.message ++ "\n")⟩

/-- The environment was asked for a record that does not exist. -/
def breakdown : Conclusion := ⟨101, "", [], some "the environment is damaged\n"⟩

end Conclusion

def Options.listened (o : Options) : Severity :=
  match o.verbosity with
  | 0 => .warn
  | 1 => .debug
  | _ => .trace

def Options.file (o : Options) : String := o.world.getD "world.toml"

def worldCauses : WorldError → List String
  | .malformed => [WorldError.malformed.message, "not a world in TOML"]
  | e => [e.message]

def loadWorld (content : Except FileError String) (file : String) : Except Failure World :=
  let message := "Failed to load world: " ++ file
  match content with
  | .error e => .error ⟨message, ["failed to read world manifest: " ++ e.message, e.message]⟩
  | .ok text =>
    match World.read text with
    | .error e => .error ⟨message, worldCauses e⟩
    | .ok w => .ok w

def configured (value : String → Option String) (o : Options) (w : World) : World :=
  let c := w.config.mergeEnv value
  { w with config := { c with task := o.task.getD c.task } }

def loadedReport (w : World) (file : String) : Report :=
  ⟨.info, [], "Loaded " ++ Nat.repr w.modules.length ++ " modules from " ++ file, []⟩

def execute (listened : Severity) (loaded : List Report) (w : World) (command : Command) :
    Except Fault Conclusion := do
  match ← w.start (some listened) with
  | .error e => return .failure ⟨"Failed to build lookup environment", worldCauses e⟩ loaded
  | .ok (built, session) =>
    let (outcome, _) ← session.perform (some listened) (command.lines w.config).run
    let reports := loaded ++ built.reports ++ outcome.reports
    match outcome.answer with
    | .ok lines => return .success lines reports
    | .error e => return .failure ⟨e.message, []⟩ reports

/-- The run of a command on the contents of the world's file. -/
def runCommand (value : String → Option String) (content : Except FileError String) (o : Options)
    (command : Command) : Conclusion :=
  match loadWorld content o.file with
  | .error f => .failure f []
  | .ok w =>
    let w := configured value o w
    let report := loadedReport w o.file
    let loaded := if report.severity.reaches o.listened then [report] else []
    match execute o.listened loaded w command with
    | .ok conclusion => conclusion
    | .error _ => .breakdown

/-- The run of the program, given the environment variables and how to get the
contents of a file. -/
def Invocation.run (value : String → Option String)
    (content : String → Except FileError String) : Invocation → Conclusion
  | .command o c => runCommand value (content o.file) o c
  | .help topic => .success topic.lines []
  | .version => .success ["modlookup 0.1.0"] []

/-- The run of the program on its arguments. -/
def run (value : String → Option String) (content : String → Except FileError String)
    (args : List String) : Conclusion :=
  match Invocation.parse args with
  | .ok invocation => invocation.run value content
  | .error e => .misuse e

end SplitPackages.CommandLine
