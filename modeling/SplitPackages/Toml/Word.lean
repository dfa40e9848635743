import SplitPackages.Toml.Reader
import SplitPackages.Toml.Value

/-!
# Words

Truth values, numbers, dates and times have no marks around them. They are read
as words, which go on as far as their characters do; a word that is no such
value is nothing. A date and a time may have a blank between them.
-/

namespace SplitPackages.Toml

/-- Characters of the values that have no marks around them. -/
def isWordChar (c : Char) : Bool :=
  c.isAlphanum || c = '_' || c = '-' || c = '+' || c = '.' || c = ':'

def ofWord (cs : List Char) : Option Value :=
  if cs = ['t', 'r', 'u', 'e'] then some (.boolean true)
  else if cs = ['f', 'a', 'l', 's', 'e'] then some (.boolean false)
  else
    (datetime? cs).map .datetime <|> (float? cs).map .float <|> (integer? cs).map .integer

/-- Whether a word is a date with a time behind a blank. -/
def joinsTime (word cs : List Char) : Bool :=
  match cs with
  | ' ' :: c :: _ => isDigit 10 c && (date? word).any (·.2.isEmpty)
  | _ => false

def word : Reader Value := fun cs =>
  let first := cs.takeWhile isWordChar
  let rest := cs.dropWhile isWordChar
  if joinsTime first rest then
    let time := rest.tail.takeWhile isWordChar
    (ofWord (first ++ ' ' :: time)).map (·, rest.tail.dropWhile isWordChar)
  else (ofWord first).map (·, rest)

end SplitPackages.Toml
