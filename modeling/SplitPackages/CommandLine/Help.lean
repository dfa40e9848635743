import SplitPackages.CommandLine.Invocation

/-!
# Help

What the program says about itself: what it is for, how it and its commands are
called, and what the options mean.
-/

namespace SplitPackages.CommandLine

namespace Verb

def about : Verb → String
  | resolve => "Resolve a package path"
  | type => "Resolve a qualified type name"
  | visible => "Resolve a package and show the binding the module sees"
  | modules => "List modules with their reads and exports"

def argumentLines : Verb → List String
  | resolve | visible =>
    ["Arguments:", "  <MODULE>   Requesting module", "  <PACKAGE>  Dotted package path", ""]
  | type =>
    ["Arguments:", "  <MODULE>  Requesting module",
      "  <NAME>    Qualified type name, e.g. com.foo.Bar", ""]
  | modules => []

def ownOptionLines : Verb → List String
  | visible => ["      --prefer-local   Prefer the module's own contribution"]
  | _ => []

def usage (verb : Verb) : String :=
  " ".intercalate (["modlookup", verb.name, "[OPTIONS]"] ++
    verb.arguments.map fun a => "<" ++ a ++ ">")

end Verb

namespace HelpTopic

def optionLines : List String :=
  ["  -w, --world <WORLD>  Path to the world manifest [default: world.toml]",
    "  -t, --task <TASK>    Task name attached to diagnostics (overrides the manifest)",
    "  -v, --verbose...     Increase verbosity (-v debug, -vv trace)",
    "  -h, --help           Print help"]

def lines : HelpTopic → List String
  | program =>
    ["Split-package resolution over a module graph", "",
      "Usage: modlookup [OPTIONS] <COMMAND>", "",
      "Commands:",
      "  resolve  Resolve a package path",
      "  type     Resolve a qualified type name",
      "  visible  Resolve a package and show the binding the module sees",
      "  modules  List modules with their reads and exports",
      "  help     Print this message or the help of the given subcommand(s)", "",
      "Options:"] ++ optionLines ++ ["  -V, --version        Print version"]
  | verb v =>
    [v.about, "", "Usage: " ++ v.usage, ""] ++ v.argumentLines ++ ["Options:"] ++
      v.ownOptionLines ++ optionLines
  | help =>
    ["Print this message or the help of the given subcommand(s)", "",
      "Usage: modlookup help [COMMAND]...", "",
      "Arguments:", "  [COMMAND]...  Print help for the subcommand(s)"]

end HelpTopic

end SplitPackages.CommandLine
