import SplitPackages.Lookup
import SplitPackages.Readability

/-!
# The binding that a client should see

Of a split, only the incarnations with a compilation unit count. If the client
prefers its own and has one, that is the answer. Otherwise a single accessible
incarnation in a named module is, unless one in an unnamed module competes with
it and unnamed modules are not ignored; several named ones give the split
itself. A binding of another kind is its own answer.
-/

namespace SplitPackages

structure Tally where
  /-- How many are in named modules. -/
  named : Nat
  lastNamed : Option PackageId
  lastUnnamed : Option PackageId
  deriving DecidableEq

def Tally.empty : Tally := ⟨0, none, none⟩

def Tally.answer (ignoreUnnamed : Bool) (split : PackageId) (t : Tally) : Option PackageId :=
  match t.named with
  | 0 => t.lastUnnamed
  | 1 => if ignoreUnnamed || t.lastUnnamed.isNone then t.lastNamed else some split
  | _ => some split

/-- Counts the accessible incarnations with a compilation unit, or stops at the
client's own if that is preferred. -/
def Environment.tally (env : Environment) (client : ModuleId) (preferOwn : Bool) :
    Tally → List PackageId → Except Fault (PackageId ⊕ Tally)
  | t, [] => return .inr t
  | t, p :: ps => do
    let record ← env.package p
    if !record.hasUnit then env.tally client preferOwn t ps
    else if preferOwn && record.home = client then return .inl p
    else if ← env.canAccess client p then
      if (← env.module record.home).unnamed then
        env.tally client preferOwn { t with lastUnnamed := some p } ps
      else env.tally client preferOwn { t with named := t.named + 1, lastNamed := some p } ps
    else env.tally client preferOwn t ps

/-- The binding that the client should see for a package. -/
def Lookup.viewFor (ignoreUnnamed : Bool) (p : PackageId) (client : ModuleId) (preferOwn : Bool) :
    Lookup (Option PackageId) := do
  let record ← package p
  if record.isSplit then
    match ← ask (·.tally client preferOwn .empty record.incarnations) with
    | .inl own => return some own
    | .inr t =>
      note (.viewedFor client t.named t.lastUnnamed.isSome)
      return t.answer ignoreUnnamed p
  else return some p

end SplitPackages
