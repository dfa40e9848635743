import SplitPackages.CommandLine.Program

/-!
# The program's connection to the system

Gives the program its arguments, its environment variables and the file of the
world, and prints what it concludes.
-/

namespace SplitPackages.CommandLine

def readVariables : List String → IO (List (String × String))
  | [] => return []
  | name :: names => do
    let rest ← readVariables names
    match ← IO.getEnv name with
    | some value => return (name, value) :: rest
    | none => return rest

def fileError : IO.Error → FileError
  | .noFileOrDirectory .. => .missing
  | .inappropriateType .. => .isDirectory
  | e => .other (toString e)

def readContent (file : String) : IO (Except FileError String) := do
  match ← (IO.FS.readFile file).toBaseIO with
  | .ok text => return .ok text
  | .error e => return .error (fileError e)

def reportLine (r : Report) : String :=
  " ".intercalate (r.severity.label :: r.message :: r.fields.map fun f => f.1 ++ "=" ++ f.2)

def conclude (c : Conclusion) : IO UInt32 := do
  for r in c.reports do IO.eprintln (reportLine r)
  IO.print c.output
  for complaint in c.complaint do IO.eprint complaint
  return UInt32.ofNat c.code

/-- Runs the program on its arguments and gives the code it ends with. -/
def perform (args : List String) : IO UInt32 := do
  let values ← readVariables Config.variableNames
  match Invocation.parse args with
  | .error e => conclude (.misuse e)
  | .ok invocation =>
    let content ← match invocation with
      | .command o _ => readContent o.file
      | _ => pure (.error .missing)
    conclude (invocation.run (fun name => values.lookup name) fun _ => content)

end SplitPackages.CommandLine

def main (args : List String) : IO UInt32 := SplitPackages.CommandLine.perform args
