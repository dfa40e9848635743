/-!
# Arguments

The arguments of the program are read one after the other as items: flags,
settings with their values, and words. Flags with a letter can share one
argument, and a setting takes what is left of its argument or the argument
behind it as its value. Behind `--` every argument is a word.

An argument that means nothing is an item too, so that what stands before it can
be acted on first.
-/

namespace SplitPackages.CommandLine

/-- The options that take a value. -/
inductive Setting where
  | world
  | task
  deriving DecidableEq, Repr

def Setting.flag : Setting → String
  | world => "--world <WORLD>"
  | task => "--task <TASK>"

inductive UsageError where
  | unexpectedArgument (text : String)
  | unexpectedValue (option : String)
  | missingValue (setting : Setting)
  | emptyValue (setting : Setting)
  | repeated (option : String)
  | missingArgument (name : String)
  | unknownCommand (name : String)
  | missingCommand
  deriving DecidableEq, Repr

def UsageError.message : UsageError → String
  | unexpectedArgument text => "error: unexpected argument '" ++ text ++ "' found"
  | unexpectedValue option => "error: unexpected value for '" ++ option ++ "' found"
  | missingValue setting => "error: a value is required for '" ++ setting.flag ++ "'"
  | emptyValue setting => "error: the value for '" ++ setting.flag ++ "' must not be empty"
  | repeated option => "error: the argument '" ++ option ++ "' cannot be used multiple times"
  | missingArgument name => "error: the argument '<" ++ name ++ ">' was not provided"
  | unknownCommand name => "error: unrecognized subcommand '" ++ name ++ "'"
  | missingCommand => "error: a subcommand is required but was not provided"

inductive Item where
  | word (text : String)
  | setting (setting : Setting) (value : String)
  | verbose
  | preferLocal
  | version
  | help
  | separator
  /-- A word behind the separator. -/
  | literal (text : String)
  | refused (error : UsageError)
  deriving DecidableEq, Repr

inductive Reading where
  | separator
  | complete (items : List Item)
  /-- A setting after other items, whose value is the next argument. -/
  | awaiting (items : List Item) (setting : Setting)

namespace Reading

def before (item : Item) : Reading → Reading
  | separator => separator
  | complete items => complete (item :: items)
  | awaiting items setting => awaiting (item :: items) setting

/-- A setting by its letter, with the characters behind it. -/
def attached (setting : Setting) : List Char → Reading
  | [] => awaiting [] setting
  | '=' :: value => complete [.setting setting (String.ofList value)]
  | value => complete [.setting setting (String.ofList value)]

def ofLetters : List Char → Reading
  | [] => complete []
  | c :: cs =>
    if c = 'v' then (ofLetters cs).before .verbose
    else if c = 'V' then (ofLetters cs).before .version
    else if c = 'h' then (ofLetters cs).before .help
    else if c = 'w' then attached .world cs
    else if c = 't' then attached .task cs
    else complete [.refused (.unexpectedArgument (String.ofList ['-', c]))]

/-- A flag by its name, which takes no value. -/
def flag (name : String) (item : Item) (value : Option String) : Reading :=
  complete [if value.isSome then .refused (.unexpectedValue ("--" ++ name)) else item]

def named (setting : Setting) : Option String → Reading
  | none => awaiting [] setting
  | some value => complete [.setting setting value]

def ofName (name : String) (value : Option String) : Reading :=
  if name = "world" then named .world value
  else if name = "task" then named .task value
  else if name = "verbose" then flag name .verbose value
  else if name = "prefer-local" then flag name .preferLocal value
  else if name = "version" then flag name .version value
  else if name = "help" then flag name .help value
  else complete [.refused (.unexpectedArgument ("--" ++ name))]

def ofArgument (arg : String) : Reading :=
  match arg.toList with
  | ['-', '-'] => separator
  | '-' :: '-' :: cs =>
    let name := String.ofList (cs.takeWhile (· ≠ '='))
    match cs.dropWhile (· ≠ '=') with
    | [] => ofName name none
    | _ :: value => ofName name (some (String.ofList value))
  | '-' :: c :: cs => ofLetters (c :: cs)
  | _ => complete [.word arg]

end Reading

/-- Whether an argument can be the value of the setting before it: it may not
look like an option. -/
def isValue (arg : String) : Bool :=
  match arg.toList with
  | '-' :: _ :: _ => false
  | _ => true

def items : List String → List Item
  | [] => []
  | arg :: args =>
    match Reading.ofArgument arg with
    | .separator => .separator :: args.map .literal
    | .complete found => found ++ items args
    | .awaiting found setting =>
      match args with
      | [] => found ++ [.refused (.missingValue setting)]
      | value :: args =>
        if isValue value then found ++ .setting setting value :: items args
        else found ++ [.refused (.missingValue setting)]

end SplitPackages.CommandLine
