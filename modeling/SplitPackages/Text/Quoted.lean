import SplitPackages.Text.Extending
import SplitPackages.Text.Ignorable
import SplitPackages.Text.Ranges
import SplitPackages.Text.Unprintable

/-!
# Quoted text

`quote` puts a text between double quotes and escapes what would not show as
itself: quotes and backslashes, the common control characters by a letter,
other characters that leave no mark of their own by their number.
-/

namespace SplitPackages.Text

/-- The two voiced sound marks of half width, which extend the character before
them and still take a place of their own. -/
def isSoundMark (c : Char) : Bool := c = '\uff9e' || c = '\uff9f'

/-- Characters that leave no mark of their own: unprintable ones but the space,
ignorable ones, and those that extend the character before them without taking
a place. -/
def isUnmarked (c : Char) : Bool :=
  (covers unprintable c.toNat && c ≠ ' ') || covers ignorable c.toNat ||
    (covers extending c.toNat && !isSoundMark c)

def quoteChar (c : Char) : List Char :=
  if c = '"' then ['\\', '"']
  else if c = '\\' then ['\\', '\\']
  else if c = '\n' then ['\\', 'n']
  else if c = '\t' then ['\\', 't']
  else if c = '\r' then ['\\', 'r']
  else if c.toNat = 0 then ['\\', '0']
  else if isUnmarked c then ['\\', 'u', '\x7b'] ++ Nat.toDigits 16 c.toNat ++ ['\x7d']
  else [c]

def quote (s : String) : String :=
  String.ofList ('"' :: s.toList.flatMap quoteChar ++ ['"'])

end SplitPackages.Text
