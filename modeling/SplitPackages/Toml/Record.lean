import SplitPackages.Toml.Sheet

/-!
# Records

A record is a table with known keys. Other keys mean nothing. The words of a key
are joined by hyphens or by underscores, and a table may not have both
spellings of one key.

A record can also be an array of its first fields in order. A date has none of
the known keys, and counts as a record without fields.

A record is written with all its fields, in order, and with hyphens in the keys.
-/

namespace SplitPackages.Toml

def hyphenated (words : List String) : String := "-".intercalate words

def underscored (words : List String) : String := "_".intercalate words

def spellings (words : List String) : List String :=
  if hyphenated words = underscored words then [hyphenated words]
  else [hyphenated words, underscored words]

namespace Value

/-- What a record has for a field, which may be nothing. -/
def field? (position : Nat) (words : List String) : Value → Option (Option Value)
  | table _ entries =>
    match (spellings words).filterMap (Entries.get? entries) with
    | [] => some none
    | [v] => some (some v)
    | _ => none
  | array items => some items[position]?
  | tables elements => some (elements[position]?.map (table .header))
  | datetime _ => some none
  | _ => none

/-- A field that has to be there. -/
def required {α : Type} (read : Value → Option α) (position : Nat) (words : List String)
    (v : Value) : Option α := do
  (← v.field? position words).bind read

/-- A field that may be left out. -/
def optional {α : Type} (read : Value → Option α) (default : α) (position : Nat)
    (words : List String) (v : Value) : Option α := do
  match ← v.field? position words with
  | some v => read v
  | none => some default

end Value

structure Field where
  words : List String
  content : Content
  /-- What the field holds if it is left out; without that it may not be. -/
  default : Option Content

def written (fs : List Field) : Lines := fs.map fun f => (hyphenated f.words, f.content)

end SplitPackages.Toml
