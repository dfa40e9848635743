import SplitPackages.Toml.Value

/-!
# Sheets

A `Sheet` is what is to be written as a document: tables, and arrays of tables,
under their names. The lines of a table give keys a flag, a text or a list of
texts.
-/

namespace SplitPackages.Toml

inductive Content where
  | flag (value : Bool)
  | text (value : String)
  | texts (values : List String)
  deriving DecidableEq

/-- What a document has for the content. -/
def Content.toValue : Content → Value
  | flag b => .boolean b
  | text s => .string s
  | texts ss => .array (ss.map .string)

abbrev Lines := List (String × Content)

inductive Part where
  | table (lines : Lines)
  | tables (elements : List Lines)
  deriving DecidableEq

/-- The lines of each table of the part. -/
def Part.linesOfTables : Part → List Lines
  | table lines => [lines]
  | tables elements => elements

abbrev Sheet := List (String × Part)

end SplitPackages.Toml
