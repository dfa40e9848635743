import SplitPackages.Toml.Digits

/-!
# Numbers

Integers have 64 bits and are written in base ten, with an optional sign and no
idle zeros, or in base sixteen, eight or two behind a mark. Floats have a
fraction, an exponent or both. They are kept as written, exactly; a number that
is too large for a double counts as infinite, and only negative ones may.
-/

namespace SplitPackages.Toml

inductive Decimal where
  /-- The digits times the power of ten. -/
  | finite (negative : Bool) (digits : Nat) (exponent : Int)
  | infinite (negative : Bool)
  | nan
  deriving DecidableEq, Repr

/-- A sign, which is positive unless a minus is written, and what follows. -/
def signed : List Char → Bool × List Char
  | '-' :: cs => (true, cs)
  | '+' :: cs => (false, cs)
  | cs => (false, cs)

def withSign (negative : Bool) (n : Nat) : Int := if negative then -n else n

/-- The integer, if it fits in 64 bits. -/
def fit (i : Int) : Option Int :=
  if -Int.pow 2 63 ≤ i ∧ i < Int.pow 2 63 then some i else none

def integer? : List Char → Option Int
  | '0' :: 'x' :: cs => (grouped 16 cs).bind (fit ·)
  | '0' :: 'o' :: cs => (grouped 8 cs).bind (fit ·)
  | '0' :: 'b' :: cs => (grouped 2 cs).bind (fit ·)
  | cs => do
    let (negative, cs) := signed cs
    fit (withSign negative (← ofDigits 10 (← canonical cs)))

/-- The least number that is nearer to two to the power of 1024 than to the
largest finite double, or as near. -/
def overflowBound : Nat := Nat.pow 2 1024 - Nat.pow 2 970

/-- Whether digits and a power of ten make a number too large for a double. The
number has as many digits before the point as the digits and the exponent say
together, which settles all cases but those near the bound. -/
def overflows (digits : Nat) (exponent : Int) : Bool :=
  let places := (Nat.toDigits 10 digits).length + exponent
  if digits = 0 || places < 300 then false
  else if 320 < places then true
  else if 0 ≤ exponent then overflowBound ≤ digits * Nat.pow 10 exponent.toNat
  else overflowBound * Nat.pow 10 (-exponent).toNat ≤ digits

/-- The text before the first character of the class, and the text after it if
there is one. -/
def cutAt (p : Char → Bool) (cs : List Char) : List Char × Option (List Char) :=
  match cs.dropWhile (!p ·) with
  | [] => (cs.takeWhile (!p ·), none)
  | _ :: after => (cs.takeWhile (!p ·), some after)

def exponent? (cs : List Char) : Option Int := do
  let (negative, cs) := signed cs
  return withSign negative (← grouped 10 cs)

def float? (cs : List Char) : Option Decimal := do
  let (negative, cs) := signed cs
  if cs = ['i', 'n', 'f'] then return .infinite negative
  if cs = ['n', 'a', 'n'] then return .nan
  let (mantissa, power) := cutAt (fun c => c = 'e' || c = 'E') cs
  let (whole, fraction) := cutAt (· = '.') mantissa
  if power.isNone && fraction.isNone then none
  let whole ← canonical whole
  let fraction ← fraction.elim (some []) (ungrouped 10)
  let power ← power.elim (some 0) exponent?
  let digits ← ofDigits 10 (whole ++ fraction)
  let exponent := power - fraction.length
  if overflows digits exponent then
    if negative then return .infinite true else none
  return .finite negative digits exponent

end SplitPackages.Toml
