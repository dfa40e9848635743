import SplitPackages.Toml.Library
import SplitPackages.World.Record

/-!
# Worlds as text

A world is read from a TOML document and has to be valid. It is written with
all fields: the options, and then every module. Both are left to a library, and
so are the errors about a text that is no such document. The command line has a
library of its own.
-/

namespace SplitPackages.World

open Toml

variable {ε δ : Type}

/-- The world that a text describes. -/
def load (lib : Library ε δ) (text : String) : Except (ε ⊕ WorldError) World := do
  let entries ← (lib.parse text).mapError .inl
  match ofValue? (.table .header entries) with
  | none => throw (.inl (lib.misfit entries))
  | some w =>
    w.validate.mapError .inr
    return w

/-- The text of a world. -/
def save (lib : Library ε δ) (w : World) : Except δ String := lib.print w.sheet

def read (text : String) : Except WorldError World :=
  (load builtin text).mapError (Sum.elim (fun _ => .malformed) id)

def write (w : World) : String := w.sheet.text

end SplitPackages.World
