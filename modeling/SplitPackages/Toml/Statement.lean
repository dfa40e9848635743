import SplitPackages.Toml.Table
import SplitPackages.Toml.Word

/-!
# Statements

A document is a sequence of statements, each on lines of its own: a key with
its value, or a header in single or double brackets. Blanks may stand around
every part of a statement; empty lines and comments may stand between
statements and inside of arrays, but not inside of braces.

Arrays and braces may be nested, and keys may have segments, up to a limit of
79. The loops over items and statements count down from the length of the text,
which they never exhaust, because every step reads something.
-/

namespace SplitPackages.Toml

def nestingLimit : Nat := 79

/-! ## Values -/

/-- The items of an array and the closing bracket. -/
def items (item : Reader Value) : Nat → Reader (List Value)
  | 0, _ => none
  | n + 1, cs => do
    match ← skip false cs with
    | ']' :: cs => return ([], cs)
    | cs =>
      let (first, cs) ← item cs
      match ← skip false cs with
      | ']' :: cs => return ([first], cs)
      | ',' :: cs =>
        let (rest, cs) ← items item n cs
        return (first :: rest, cs)
      | _ => none

def assignment (item : Reader Value) : Reader (Key × Value) := fun cs => do
  let (key, cs) ← key nestingLimit cs
  let (value, cs) ← item (skipSpaces (← after '=' cs))
  return ((key, value), cs)

/-- One assignment or more and the closing brace. -/
def assignments (item : Reader Value) : Nat → Reader (List (Key × Value))
  | 0, _ => none
  | n + 1, cs => do
    let (first, cs) ← assignment item cs
    match skipSpaces cs with
    | '\x7d' :: cs => return ([first], cs)
    | ',' :: cs =>
      let (rest, cs) ← assignments item n cs
      return (first :: rest, cs)
    | _ => none

def braces (item : Reader Value) : Reader Value := fun cs => do
  match skipSpaces cs with
  | '\x7d' :: cs => return (.table .inline [], cs)
  | cs =>
    let (entries, cs) ← assignments item cs.length cs
    return (.table .inline (← Entries.ofAssignments entries), cs)

/-- A value with at most so many arrays and braces inside of each other. -/
def value (limit : Nat) : Reader Value := fun cs =>
  match cs with
  | [] => none
  | c :: rest =>
    if c = '"' || c = '\'' then (string? cs).map fun r => (.string (String.ofList r.1), r.2)
    else if c = '[' || c = '\x7b' then
      match limit with
      | 0 => none
      | limit + 1 =>
        if c = '[' then (items (value limit) cs.length rest).map fun r => (.array r.1, r.2)
        else braces (value limit) rest
    else word cs

/-! ## Statements -/

inductive Statement where
  | assign (key : Key) (value : Value)
  | table (key : Key)
  | element (key : Key)

def statement : Reader Statement := fun cs =>
  match cs with
  | '[' :: '[' :: cs => do
    let (key, cs) ← key nestingLimit cs
    return (.element key, ← lineEnd (← after ']' (← after ']' cs)))
  | '[' :: cs => do
    let (key, cs) ← key nestingLimit cs
    return (.table key, ← lineEnd (← after ']' cs))
  | cs => do
    let ((key, value), cs) ← assignment (value nestingLimit) cs
    return (.assign key value, ← lineEnd cs)

def statements : Nat → List Char → Option (List Statement)
  | 0, _ => none
  | n + 1, cs => do
    match ← skip false cs with
    | [] => return []
    | cs =>
      let (first, cs) ← statement cs
      return first :: (← statements n cs)

end SplitPackages.Toml
