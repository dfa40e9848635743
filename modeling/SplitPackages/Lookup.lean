import SplitPackages.Environment
import SplitPackages.Event

/-!
# Lookups

A `Lookup` may change the environment: it fills caches and creates splits. It
also keeps a journal of what happened. The journal only grows and is never
read, so what a lookup answers and what it leaves in the environment do not
depend on it.

A note holds the environment as it was at the event, so that the event can be
described later. The splits in a journal are what an observer of splits is told.
-/

namespace SplitPackages

structure Note where
  event : Event
  /-- The steps that were under way, outermost first. -/
  steps : List Step
  env : Environment
  deriving DecidableEq

structure Journal where
  /-- The steps under way, outermost first. -/
  steps : List Step
  notes : List Note
  /-- The splits created, with their paths. -/
  splits : List (PackageId × Path)
  deriving DecidableEq

def Journal.empty : Journal := ⟨[], [], []⟩

structure State where
  env : Environment
  journal : Journal
  deriving DecidableEq

def State.empty : State := ⟨.empty, .empty⟩

abbrev Lookup (α : Type) := StateT State (Except Fault) α

namespace Lookup

/-- Changes the environment and leaves the journal alone. -/
def update {α : Type} (u : Update α) : Lookup α := fun s => do
  let (a, env) ← u s.env
  return (a, { s with env := env })

instance : MonadLift Update Lookup := ⟨update⟩

def ask {α : Type} (f : Environment → Except Fault α) : Lookup α := do
  f (← get).env

def module (m : ModuleId) : Lookup Module := ask (·.module m)

def package (p : PackageId) : Lookup Package := ask (·.package p)

def note (event : Event) : Lookup Unit :=
  modify fun s =>
    { s with journal.notes := s.journal.notes ++ [⟨event, s.journal.steps, s.env⟩] }

/-- Tells that a split was created. -/
def announce (split : PackageId) (path : Path) : Lookup Unit :=
  modify fun s => { s with journal.splits := s.journal.splits ++ [(split, path)] }

/-- Does a lookup as a step of its own. -/
def within {α : Type} (step : Step) (act : Lookup α) : Lookup α := do
  let steps := (← get).journal.steps
  modify fun s => { s with journal.steps := steps ++ [step] }
  let a ← act
  modify fun s => { s with journal.steps := steps }
  return a

end Lookup

end SplitPackages
