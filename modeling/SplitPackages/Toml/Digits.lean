import SplitPackages.Text.Pieces

/-!
# Digits

Numbers are read from digits of a base up to sixteen, with letters of either
case above nine. Underscores may stand between digits, one at a time, and mean
nothing.
-/

namespace SplitPackages.Toml

def digit (base : Nat) (c : Char) : Option Nat :=
  let n := c.toNat
  let value :=
    if 0x30 ≤ n && n ≤ 0x39 then n - 0x30
    else if 0x61 ≤ n && n ≤ 0x66 then n - 0x57
    else if 0x41 ≤ n && n ≤ 0x46 then n - 0x37
    else 16
  if value < base then some value else none

def isDigit (base : Nat) (c : Char) : Bool := (digit base c).isSome

def ofDigits (base : Nat) (cs : List Char) : Option Nat :=
  cs.foldlM (fun n c => (base * n + ·) <$> digit base c) 0

/-- A number of exactly so many decimal digits at the front of a text. -/
def fixed (count : Nat) (cs : List Char) : Option (Nat × List Char) :=
  if (cs.take count).length = count then
    (ofDigits 10 (cs.take count)).map (·, cs.drop count)
  else none

/-- The digits without the underscores between them. -/
def ungrouped (base : Nat) (cs : List Char) : Option (List Char) :=
  let groups := cs.splitOn '_'
  if groups.all fun g => !g.isEmpty && g.all (isDigit base) then some groups.flatten else none

def grouped (base : Nat) (cs : List Char) : Option Nat :=
  (ungrouped base cs).bind (ofDigits base)

/-- Decimal digits that do not start with an idle zero. -/
def canonical (cs : List Char) : Option (List Char) :=
  match ungrouped 10 cs with
  | some ('0' :: _ :: _) => none
  | digits => digits

end SplitPackages.Toml
