import SplitPackages.Toml.Key
import SplitPackages.Toml.Value

/-!
# Filling tables

A document, and a table in braces, is filled entry by entry. A key names the
tables on the way to its entry, which come into being as they are needed.

A header may pass through every table but one in braces, and through the last
element of an array of tables. A dotted key may not pass through a table that a
header has named, and adds entries only to a table that dotted keys have made.
No entry is given twice.
-/

namespace SplitPackages.Toml

inductive Route where
  | header
  | dotted
  deriving DecidableEq, Repr

namespace Route

def passes : Route → Origin → Bool
  | _, .inline => false
  | dotted, .header => false
  | _, _ => true

/-- How the tables come into being that are made on the way. -/
def makes : Route → Origin
  | header => .implied
  | dotted => .dotted

end Route

namespace Entries

/-- Changes the table that a path leads to; the change may depend on how that
table came to be. -/
def within (route : Route) (change : Origin → Entries → Option Entries) :
    List String → Origin → Entries → Option Entries
  | [], origin, entries => change origin entries
  | key :: path, _, entries =>
    match entries.get? key with
    | none => do
      let inner ← within route change path route.makes []
      return entries.set key (.table route.makes inner)
    | some (.table origin inner) => do
      if !route.passes origin then none
      let inner ← within route change path origin inner
      return entries.set key (.table origin inner)
    | some (.tables elements) => do
      let last ← elements.getLast?
      let last ← within route change path .header last
      return entries.set key (.tables (elements.dropLast ++ [last]))
    | some _ => none

def add (key : String) (value : Value) (entries : Entries) : Option Entries :=
  if (entries.get? key).isSome then none else some (entries ++ [(key, value)])

/-- Gives a key, which may be dotted, a value in a table. -/
def assign (key : Key) (value : Value) (entries : Entries) : Option Entries :=
  if key.parents.isEmpty then entries.add key.name value
  else
    entries.within .dotted (fun origin inner =>
      if origin = .dotted then inner.add key.name value else none) key.parents .header

def openTable (key : Key) (entries : Entries) : Option Entries :=
  entries.within .header (fun _ inner =>
    match inner.get? key.name with
    | none => some (inner.set key.name (.table .header []))
    | some (.table .implied below) => some (inner.set key.name (.table .header below))
    | some _ => none) key.parents .header

def openElement (key : Key) (entries : Entries) : Option Entries :=
  entries.within .header (fun _ inner =>
    match inner.get? key.name with
    | none => some (inner.set key.name (.tables [[]]))
    | some (.tables elements) => some (inner.set key.name (.tables (elements ++ [[]])))
    | some _ => none) key.parents .header

def ofAssignments (assignments : List (Key × Value)) : Option Entries :=
  assignments.foldlM (fun entries a => entries.assign a.1 a.2) []

end Entries

end SplitPackages.Toml
