import SplitPackages.Toml.Digits
import SplitPackages.Toml.Reader

/-!
# Quoted strings

A string stands between quotation marks of one kind, one mark or three on each
side. Between double marks a backslash starts an escape; between single marks
every character stands for itself. Between three marks the string may have
several lines, the first of which may be left empty, and a backslash at the end
of a line hides the line end with all blanks and line ends behind it.

`closing` says where a string ends: three marks close a string of several
lines, and up to two more before them belong to it.
-/

namespace SplitPackages.Toml

structure Quotation where
  mark : Char
  escapes : Bool
  lines : Bool
  deriving DecidableEq, Repr

def escaped : Char → Option Char
  | 'b' => some '\x08'
  | 't' => some '\t'
  | 'n' => some '\n'
  | 'f' => some '\x0c'
  | 'r' => some '\r'
  | '"' => some '"'
  | '\\' => some '\\'
  | _ => none

/-- The character of a number, unless it is a surrogate or too large. -/
def ofCode (n : Nat) : Option Char := if n.isValidChar then some (Char.ofNat n) else none

namespace Quotation

def basic : Quotation := ⟨'"', true, false⟩
def basicLines : Quotation := ⟨'"', true, true⟩
def literal : Quotation := ⟨'\'', false, false⟩
def literalLines : Quotation := ⟨'\'', false, true⟩

/-- What ends a string at a mark, given the text behind the mark: marks that
still belong to the string and the text behind the closing ones. -/
def closing (q : Quotation) : Reader (List Char) := fun cs =>
  if q.lines then
    let marks := (cs.take 4).takeWhile (· = q.mark)
    if marks.length < 2 then none else some (marks.drop 2, cs.drop marks.length)
  else some ([], cs)

inductive Place where
  /-- Before a character; `folding` if blanks and line ends are to be hidden. -/
  | text (folding : Bool)
  | escape
  /-- In a character number with so many digits to come. -/
  | code (left number : Nat)
  /-- Behind a backslash and blanks, where the line has to end. -/
  | lineEnd
  deriving DecidableEq, Repr

def read (q : Quotation) : Place → Reader (List Char)
  | _, [] => none
  | .text folding, c :: cs =>
    if folding && (isSpace c || c = '\n' || (c = '\r' && endsLine cs)) then read q (.text true) cs
    else if c = q.mark then
      match q.closing cs with
      | some found => some found
      | none => keep c (read q (.text false) cs)
    else if q.escapes && c = '\\' then read q .escape cs
    else if isPrintable c || (q.lines && c = '\n') then keep c (read q (.text false) cs)
    else if q.lines && c = '\r' && endsLine cs then read q (.text false) cs
    else none
  | .escape, c :: cs =>
    if c = 'u' then read q (.code 4 0) cs
    else if c = 'U' then read q (.code 8 0) cs
    else if q.lines && c = '\n' then read q (.text true) cs
    else if q.lines && (isSpace c || (c = '\r' && endsLine cs)) then read q .lineEnd cs
    else (escaped c).bind fun c => keep c (read q (.text false) cs)
  | .code left number, c :: cs =>
    (digit 16 c).bind fun d =>
      let number := 16 * number + d
      if left ≤ 1 then (ofCode number).bind fun c => keep c (read q (.text false) cs)
      else read q (.code (left - 1) number) cs
  | .lineEnd, c :: cs =>
    if c = '\n' then read q (.text true) cs
    else if isSpace c || (c = '\r' && endsLine cs) then read q .lineEnd cs
    else none
where
  keep (c : Char) (rest : Option (List Char × List Char)) : Option (List Char × List Char) :=
    rest.map fun r => (c :: r.1, r.2)

end Quotation

def dropLineEnd : List Char → List Char
  | '\n' :: cs => cs
  | '\r' :: '\n' :: cs => cs
  | cs => cs

def line? : Reader (List Char)
  | [] => none
  | c :: cs =>
    if c = '"' then Quotation.basic.read (.text false) cs
    else if c = '\'' then Quotation.literal.read (.text false) cs
    else none

def string? : Reader (List Char) := fun cs =>
  if cs.take 3 = ['"', '"', '"'] then
    Quotation.basicLines.read (.text false) (dropLineEnd (cs.drop 3))
  else if cs.take 3 = ['\'', '\'', '\''] then
    Quotation.literalLines.read (.text false) (dropLineEnd (cs.drop 3))
  else line? cs

end SplitPackages.Toml
