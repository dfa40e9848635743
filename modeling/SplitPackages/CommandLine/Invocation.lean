import SplitPackages.CommandLine.Item

/-!
# Invocations

The items of the arguments make an invocation: a command with its arguments and
options, or a request for help or for the version. Options may stand before and
behind the name of the command. Each may be given once on either side, and what
stands behind the name counts; only the flag for more events may be repeated.

Items are acted on in order, so that the first request or error wins.
-/

namespace SplitPackages.CommandLine

inductive Verb where
  | resolve
  | type
  | visible
  | modules
  deriving DecidableEq, Repr

namespace Verb

def name : Verb → String
  | resolve => "resolve"
  | type => "type"
  | visible => "visible"
  | modules => "modules"

def all : List Verb := [resolve, type, visible, modules]

def ofName? (name : String) : Option Verb := all.find? (·.name = name)

/-- The names of the arguments. -/
def arguments : Verb → List String
  | resolve | visible => ["MODULE", "PACKAGE"]
  | type => ["MODULE", "NAME"]
  | modules => []

end Verb

inductive Command where
  /-- Resolve a package path for a module. -/
  | resolve (module package : String)
  /-- Resolve a qualified type name for a module. -/
  | type (module name : String)
  /-- Resolve a package for a module and show the binding that the module sees. -/
  | visible (module package : String) (preferLocal : Bool)
  /-- List the modules with what they read and export. -/
  | modules
  deriving DecidableEq, Repr

structure Options where
  world : Option String
  task : Option String
  /-- How often more events are asked for. -/
  verbosity : Nat
  deriving DecidableEq, Repr

namespace Options

def none : Options := ⟨.none, .none, 0⟩

def give (o : Options) (setting : Setting) (value : String) : Except UsageError Options :=
  match setting with
  | .world =>
    if o.world.isSome then .error (.repeated setting.flag)
    else if value = "" then .error (.emptyValue setting)
    else .ok { o with world := some value }
  | .task =>
    if o.task.isSome then .error (.repeated setting.flag)
    else .ok { o with task := some value }

def moreVerbose (o : Options) : Options := { o with verbosity := o.verbosity + 1 }

/-- The options, with those in their place that are given closer to the command. -/
def override (outer inner : Options) : Options :=
  ⟨inner.world <|> outer.world, inner.task <|> outer.task,
    if inner.verbosity = 0 then outer.verbosity else inner.verbosity⟩

end Options

inductive HelpTopic where
  | program
  | verb (verb : Verb)
  | help
  deriving DecidableEq, Repr

inductive Invocation where
  | command (options : Options) (command : Command)
  | help (topic : HelpTopic)
  | version
  deriving DecidableEq, Repr

/-- What stands behind the name of a command. -/
structure Given where
  options : Options
  preferLocal : Bool
  words : List String
  deriving DecidableEq, Repr

namespace Verb

/-- The first argument that is missing, given how many there are. -/
def missing (verb : Verb) (count : Nat) : UsageError :=
  .missingArgument (verb.arguments[count]?.getD "")

def command (verb : Verb) (g : Given) : Except UsageError Command :=
  match verb, g.words with
  | .resolve, [module, package] => .ok (.resolve module package)
  | .type, [module, name] => .ok (.type module name)
  | .visible, [module, package] => .ok (.visible module package g.preferLocal)
  | .modules, [] => .ok .modules
  | verb, words => .error (verb.missing words.length)

/-- Adds a word, if the command takes one more argument. -/
def addWord (verb : Verb) (g : Given) (text : String) : Except UsageError Given :=
  if g.words.length < verb.arguments.length then .ok { g with words := g.words ++ [text] }
  else .error (.unexpectedArgument text)

def addPreferLocal (verb : Verb) (g : Given) : Except UsageError Given :=
  if verb ≠ .visible then .error (.unexpectedArgument "--prefer-local")
  else if g.preferLocal then .error (.repeated "--prefer-local")
  else .ok { g with preferLocal := true }

end Verb

namespace Invocation

/-- The invocation of a command, from what stands behind its name. -/
def ofArguments (outer : Options) (verb : Verb) (g : Given) :
    List Item → Except UsageError Invocation
  | [] => return .command (outer.override g.options) (← verb.command g)
  | .word text :: items | .literal text :: items => do
    ofArguments outer verb (← verb.addWord g text) items
  | .setting setting value :: items => do
    ofArguments outer verb { g with options := ← g.options.give setting value } items
  | .verbose :: items => ofArguments outer verb { g with options := g.options.moreVerbose } items
  | .preferLocal :: items => do ofArguments outer verb (← verb.addPreferLocal g) items
  | .separator :: items => ofArguments outer verb g items
  | .help :: _ => return .help (.verb verb)
  | .version :: _ => throw (.unexpectedArgument "--version")
  | .refused e :: _ => throw e

/-- What the words behind `help` ask about. -/
def ofHelp : List Item → Except UsageError Invocation
  | [] => return .help .program
  | [.word text] =>
    if text = "help" then return .help .help
    else
      match Verb.ofName? text with
      | some verb => return .help (.verb verb)
      | none => throw (.unknownCommand text)
  | _ => throw (.unexpectedArgument "help")

def ofItems (outer : Options) : List Item → Except UsageError Invocation
  | [] => throw .missingCommand
  | .word text :: items =>
    if text = "help" then ofHelp items
    else
      match Verb.ofName? text with
      | some verb => ofArguments outer verb ⟨.none, false, []⟩ items
      | none => throw (.unknownCommand text)
  | .setting setting value :: items => do ofItems (← outer.give setting value) items
  | .verbose :: items => ofItems outer.moreVerbose items
  | .separator :: items => ofItems outer items
  | .help :: _ => return .help .program
  | .version :: _ => return .version
  | .preferLocal :: _ => throw (.unexpectedArgument "--prefer-local")
  | .literal text :: _ => throw (.unexpectedArgument text)
  | .refused e :: _ => throw e

/-- The invocation that the arguments of the program make. -/
def parse (args : List String) : Except UsageError Invocation := ofItems .none (items args)

end Invocation

end SplitPackages.CommandLine
