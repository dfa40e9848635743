import Mathlib.Data.List.Forall2
import SplitPackages.Proofs.Statements

/-!
# Faithful libraries

A library is `Faithful` if it can write every plain sheet, and reads what it has
written as a table with the contents of the sheet. In a plain sheet the keys of a
table are different bare words, and the texts have no control characters. How
the text looks is left to the library, and so is everything about other sheets.

`Told` compares a sheet with a table by what the table has for each key. The
order of the entries and the way a table or an array is written do not matter.
-/

namespace SplitPackages.Toml

/-- The characters of the category Cc, the line feed among them. -/
def isControl (c : Char) : Bool := c.toNat < 0x20 || (0x7F ≤ c.toNat && c.toNat < 0xA0)

def isPlainText (s : String) : Bool := s.toList.all fun c => !isControl c

def Content.isPlain : Content → Bool
  | flag _ => true
  | text s => isPlainText s
  | texts ss => ss.all isPlainText

/-- Different bare words are the keys. -/
structure Lines.Keyed (ls : Lines) : Prop where
  distinct : (ls.map Prod.fst).Nodup
  bare : ∀ l ∈ ls, isBareKey l.1 = true

structure Sheet.Keyed (s : Sheet) : Prop where
  distinct : (s.map Prod.fst).Nodup
  bare : ∀ p ∈ s, isBareKey p.1 = true
  lines : ∀ p ∈ s, ∀ ls ∈ p.2.linesOfTables, ls.Keyed

structure Sheet.Plain (s : Sheet) : Prop extends s.Keyed where
  plain : ∀ p ∈ s, ∀ ls ∈ p.2.linesOfTables, ∀ l ∈ ls, l.2.isPlain = true

/-- The table has the contents of the lines under their keys, and no other keys. -/
structure Lines.Told (ls : Lines) (t : Entries) : Prop where
  given : ∀ l ∈ ls, t.get? l.1 = some l.2.toValue
  only : ∀ key, key ∉ ls.map Prod.fst → t.get? key = none

/-- The value is a table with what the lines say. -/
def Lines.ToldBy (ls : Lines) (v : Value) : Prop :=
  ∃ origin inner, v = .table origin inner ∧ ls.Told inner

inductive Part.Told : Part → Value → Prop
  | table {ls : Lines} {v : Value} : ls.ToldBy v → Part.Told (.table ls) v
  | tables {elements : List Lines} {v : Value} {vs : List Value} : v.items? = some vs →
      List.Forall₂ Lines.ToldBy elements vs → Part.Told (.tables elements) v

structure Sheet.Told (s : Sheet) (t : Entries) : Prop where
  given : ∀ p ∈ s, ∃ v, t.get? p.1 = some v ∧ p.2.Told v
  only : ∀ key, key ∉ s.map Prod.fst → t.get? key = none

/-- What is written can be read, and tells what the sheet says. -/
def Library.Faithful {ε δ : Type} (lib : Library ε δ) : Prop :=
  ∀ s : Sheet, s.Plain →
    ∃ text t, lib.print s = .ok text ∧ lib.parse text = .ok t ∧ s.Told t

end SplitPackages.Toml
