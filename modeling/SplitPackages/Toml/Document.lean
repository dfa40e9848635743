import SplitPackages.Toml.Statement

/-!
# Documents

The statements of a document fill its table one after the other. A header opens
a table, and the assignments behind it go there until the next header.
-/

namespace SplitPackages.Toml

structure Document where
  entries : Entries
  /-- The path of the open table. -/
  opened : List String

namespace Document

def empty : Document := ⟨[], []⟩

def apply (d : Document) : Statement → Option Document
  | .assign key value => do
    let entries ← d.entries.within .header (fun _ inner => inner.assign key value) d.opened .header
    return { d with entries := entries }
  | .table key => return ⟨← d.entries.openTable key, key.segments⟩
  | .element key => return ⟨← d.entries.openElement key, key.segments⟩

/-- The entries of the document that the statements fill. -/
def ofStatements (statements : List Statement) : Option Entries :=
  (·.entries) <$> statements.foldlM apply empty

/-- Without a byte order mark at the front. -/
def dropOrderMark : List Char → List Char
  | '\ufeff' :: cs => cs
  | cs => cs

end Document

/-- The table that a text writes. -/
def parse (text : String) : Option Entries := do
  let cs := Document.dropOrderMark text.toList
  Document.ofStatements (← statements (cs.length + 1) cs)

end SplitPackages.Toml
