/-!
# Readers

A reader takes something off the front of a text and gives the text behind it.
Here are the classes of characters that all of them know, and the readers that
pass over what means nothing: blanks, line ends and comments. A carriage return
is only ever the first half of a line end.
-/

namespace SplitPackages.Toml

/-- Readers give what they read and the text behind it. -/
abbrev Reader (α : Type) := List Char → Option (α × List Char)

/-- A tab or a character that is no control character. -/
def isPrintable (c : Char) : Bool := c = '\t' || (0x20 ≤ c.toNat && c.toNat ≠ 0x7F)

def isSpace (c : Char) : Bool := c = ' ' || c = '\t'

/-- Whether the text goes on with the second half of a line end. -/
def endsLine (cs : List Char) : Bool := cs.head? = some '\n'

def after (c : Char) : List Char → Option (List Char)
  | [] => none
  | d :: cs => if d = c then some cs else none

def skipSpaces (cs : List Char) : List Char := cs.dropWhile isSpace

/-- What follows blanks, line ends and comments. -/
def skip (inComment : Bool) : List Char → Option (List Char)
  | [] => some []
  | c :: cs =>
    if c = '\n' then skip false cs
    else if c = '\r' then if endsLine cs then skip inComment cs else none
    else if inComment then if isPrintable c then skip true cs else none
    else if isSpace c then skip false cs
    else if c = '#' then skip true cs
    else some (c :: cs)

def lineEnd (cs : List Char) : Option (List Char) :=
  match skipSpaces cs with
  | [] => some []
  | c :: cs => if c = '\n' || c = '\r' || c = '#' then skip false (c :: cs) else none

end SplitPackages.Toml
