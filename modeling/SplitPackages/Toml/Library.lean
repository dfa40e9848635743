import SplitPackages.Toml.Document
import SplitPackages.Toml.Layout

/-!
# Reading and writing documents

A `Library` reads documents and writes sheets, and may fail at either with an
error of its own. What is said about worlds as text is said of any such library.
`builtin` is the one behind the command line: it tells nothing about what is
wrong with a document, and can write every sheet.
-/

namespace SplitPackages.Toml

structure Library (ε δ : Type) where
  parse : String → Except ε Entries
  /-- The error about a document in which something else was expected. -/
  misfit : Entries → ε
  print : Sheet → Except δ String

def builtin : Library Unit Empty where
  parse text := (parse text).elim (.error ()) .ok
  misfit _ := ()
  print s := .ok s.text

end SplitPackages.Toml
