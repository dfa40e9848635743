import SplitPackages.Toml.Datetime
import SplitPackages.Toml.Number

/-!
# Values

A `Value` is what a TOML document can give to a key. A table knows how it was
written, because that decides what may be added to it later in the document. A
`tables` value is an array of tables that grows by headers in double brackets.
-/

namespace SplitPackages.Toml

inductive Origin where
  /-- Named by a header of its own. -/
  | header
  /-- On the way to a table with a header of its own. -/
  | implied
  /-- Made by a dotted key. -/
  | dotted
  /-- Written in braces, and complete. -/
  | inline
  deriving DecidableEq, Repr

inductive Value where
  | string (text : String)
  | integer (value : Int)
  | float (value : Decimal)
  | boolean (value : Bool)
  | datetime (value : Datetime)
  | array (items : List Value)
  | table (origin : Origin) (entries : List (String × Value))
  | tables (elements : List (List (String × Value)))
  deriving Inhabited

/-- The entries of a table, each key at most once. -/
abbrev Entries := List (String × Value)

namespace Entries

def get? (entries : Entries) (key : String) : Option Value := List.lookup key entries

/-- Gives the key a value in place of the one it has, if it has one. -/
def set (entries : Entries) (key : String) (value : Value) : Entries :=
  match entries with
  | [] => [(key, value)]
  | entry :: entries =>
    if entry.1 = key then (key, value) :: entries else entry :: set entries key value

end Entries

namespace Value

def text? : Value → Option String
  | string text => some text
  | _ => none

def flag? : Value → Option Bool
  | boolean value => some value
  | _ => none

def items? : Value → Option (List Value)
  | array items => some items
  | tables elements => some (elements.map (table .header))
  | _ => none

def list? {α : Type} (read : Value → Option α) (v : Value) : Option (List α) := do
  (← v.items?).mapM read

def texts? : Value → Option (List String) := list? text?

end Value

end SplitPackages.Toml
