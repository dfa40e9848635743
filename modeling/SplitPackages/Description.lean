import SplitPackages.Environment

/-!
# Bindings in words

`display` gives `com.foo` for a plain binding, `com.foo (from a, b)` for a split
and `com.foo <problem>` for a problem. `describe` adds the kind, the number and
the home, and has words for the absence of a binding.
-/

namespace SplitPackages.Environment

def moduleNames (env : Environment) : List ModuleId → Except Fault (List String)
  | [] => return []
  | m :: ms => return (← env.moduleName m) :: (← env.moduleNames ms)

def displayOf (env : Environment) (record : Package) : Except Fault String := do
  match record.kind with
  | .plain _ => return record.path.text
  | .problem => return record.path.text ++ " <problem>"
  | .split split =>
    return record.path.text ++ " (from " ++
      ", ".intercalate (← env.moduleNames split.declaring.toList) ++ ")"

def display (env : Environment) (p : PackageId) : Except Fault String := do
  env.displayOf (← env.package p)

def kindName : Kind → String
  | .plain _ => "plain"
  | .split _ => "split"
  | .problem => "problem"

def describe (env : Environment) : Option Ref → Except Fault String
  | none => return "<absent>"
  | some .notFound => return "<not found>"
  | some (.package p) => do
    let record ← env.package p
    return kindName record.kind ++ "#" ++ Nat.repr p.index ++ " \x7b" ++ (← env.displayOf record) ++
      "\x7d enclosing " ++ (← env.moduleName record.home)

end SplitPackages.Environment
