import SplitPackages.Toml.Quotation
import SplitPackages.Toml.Sheet

/-!
# Layout

How sheets are written: a line for each key, a header before the lines of a
table, and an empty line between tables. An array of tables has a header for
each element, so that an empty one is a line before the first header. Of an
array of texts each is on a line of its own, if there are several.

A string stands between double marks and is escaped. One with a double mark or
a backslash in it stands between single marks as it is, if it can: if it has no
single mark and no control character but tabs.
-/

namespace SplitPackages.Toml

namespace Layout

def hexDigit (n : Nat) : Char := Nat.digitChar (n % 16) |>.toUpper

/-- A character between double marks. -/
def escapedChar (c : Char) : List Char :=
  if c = '"' then ['\\', '"']
  else if c = '\\' then ['\\', '\\']
  else if c = '\t' then ['\\', 't']
  else if c = '\n' then ['\\', 'n']
  else if c = '\r' then ['\\', 'r']
  else if c = '\x08' then ['\\', 'b']
  else if c = '\x0c' then ['\\', 'f']
  else if isPrintable c then [c]
  else ['\\', 'u', '0', '0', hexDigit (c.toNat / 16), hexDigit c.toNat]

/-- Whether single marks suit a string better than double ones. -/
def prefersLiteral (cs : List Char) : Bool :=
  cs.any (fun c => c = '"' || c = '\\') && cs.all (fun c => isPrintable c && c ≠ '\'')

def string (s : String) : List Char :=
  let cs := s.toList
  if prefersLiteral cs then '\'' :: cs ++ ['\''] else '"' :: cs.flatMap escapedChar ++ ['"']

def flag (b : Bool) : List Char := if b then ['t', 'r', 'u', 'e'] else ['f', 'a', 'l', 's', 'e']

def itemLine (s : String) : List Char := [' ', ' ', ' ', ' '] ++ string s ++ [',', '\n']

def strings : List String → List Char
  | [] => ['[', ']']
  | [s] => '[' :: string s ++ [']']
  | ss => '[' :: '\n' :: ss.flatMap itemLine ++ [']']

def content : Content → List Char
  | .flag b => flag b
  | .text s => string s
  | .texts ss => strings ss

def line (l : String × Content) : List Char :=
  l.1.toList ++ [' ', '=', ' '] ++ content l.2 ++ ['\n']

def header (name : String) : List Char := '[' :: name.toList ++ [']', '\n']

def elementHeader (name : String) : List Char := '[' :: '[' :: name.toList ++ [']', ']', '\n']

end Layout

/-- What the lines behind it belong to. -/
inductive Opening where
  | top
  | table (name : String)
  | element (name : String)

def Opening.text : Opening → List Char
  | top => []
  | table name => Layout.header name
  | element name => Layout.elementHeader name

structure Section where
  opening : Opening
  lines : Lines

def Section.text (s : Section) : List Char := s.opening.text ++ s.lines.flatMap Layout.line

def Part.sections (name : String) : Part → List Section
  | table lines => [⟨.table name, lines⟩]
  | tables elements => elements.map fun lines => ⟨.element name, lines⟩

namespace Sheet

/-- The lines before the first header. -/
def top (s : Sheet) : Lines :=
  s.filterMap fun
    | (name, .tables []) => some (name, .texts [])
    | _ => none

def sections (s : Sheet) : List Section :=
  (if s.top.isEmpty then [] else [⟨.top, s.top⟩]) ++ s.flatMap fun p => p.2.sections p.1

def text (s : Sheet) : String :=
  String.ofList (['\n'].intercalate (s.sections.map Section.text))

end Sheet

end SplitPackages.Toml
