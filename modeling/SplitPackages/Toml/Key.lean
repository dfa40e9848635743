import SplitPackages.Toml.Quotation

/-!
# Keys

A key is one segment or several with dots between them. A segment is a bare
word of letters, digits, underscores and hyphens, or a quoted string of one
line. Blanks may stand around every segment.
-/

namespace SplitPackages.Toml

/-- A key with the keys of the tables that it is inside of. -/
structure Key where
  parents : List String
  name : String
  deriving DecidableEq, Repr

def Key.segments (key : Key) : List String := key.parents ++ [key.name]

def isBare (c : Char) : Bool := c.isAlphanum || c = '_' || c = '-'

def segment : Reader String := fun cs =>
  match cs with
  | [] => none
  | c :: _ =>
    if c = '"' || c = '\'' then (line? cs).map fun r => (String.ofList r.1, r.2)
    else if isBare c then some (String.ofList (cs.takeWhile isBare), cs.dropWhile isBare)
    else none

/-- A key of at most so many segments, with the blanks around it. -/
def key : Nat → Reader Key
  | 0, _ => none
  | limit + 1, cs => do
    let (first, cs) ← segment (skipSpaces cs)
    match skipSpaces cs with
    | '.' :: cs =>
      let (rest, cs) ← key limit cs
      return (⟨first :: rest.parents, rest.name⟩, cs)
    | cs => return (⟨[], first⟩, cs)

end SplitPackages.Toml
