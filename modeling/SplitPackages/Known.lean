import SplitPackages.Registration

/-!
# What is known of a package below

These lookups consult what is stored and search nothing. The strict lookup in a
split answers only if every incarnation has an entry for the name; it merges
the entries and stores the result. The relaxed lookup skips the incarnations
without an entry; its result may be incomplete, so it is kept apart from the
split's own entries, and only as long as the merged entries stay the same.
-/

namespace SplitPackages

namespace Environment

/-- The entries of all the bindings for the name, if each has one. -/
def allEntries (env : Environment) (name : String) :
    List PackageId → Except Fault (Option (List Ref))
  | [] => return some []
  | p :: ps => do
    match (← env.package p).known.get? name with
    | none => return none
    | some ref => return (← env.allEntries name ps).map (ref :: ·)

/-- The entries that the bindings have for the name. -/
def someEntries (env : Environment) (name : String) : List PackageId → Except Fault (List Ref)
  | [] => return []
  | p :: ps => do
    match (← env.package p).known.get? name with
    | none => env.someEntries name ps
    | some ref => return ref :: (← env.someEntries name ps)

def holdersOf (env : Environment) (name : String) (ref : Ref) :
    List PackageId → Except Fault (List PackageId)
  | [] => return []
  | p :: ps => do
    if (← env.package p).known.get? name = some ref then
      return p :: (← env.holdersOf name ref ps)
    else env.holdersOf name ref ps

def isSplitRef (env : Environment) : Ref → Except Fault Bool
  | .notFound => return false
  | .package p => return (← env.package p).isSplit

end Environment

namespace Lookup

def noteAll : List Event → Lookup Unit
  | [] => return ()
  | e :: es => do
    note e
    noteAll es

def strictInSplit (split : PackageId) (record : Package) (name : String) :
    Lookup (Option Ref) := do
  match record.known.get? name with
  | some ref =>
    if ref = .notFound then note (.missKnown name split)
    return some ref
  | none =>
    match ← ask (·.allEntries name record.incarnations) with
    | none => return none
    | some entries =>
      match ← combineAll (entries.map some) record.home with
      | none => return none
      | some entry =>
        note (.entriesMerged entry split)
        if ← ask (·.isSplitRef entry) then
          noteAll ((← ask (·.holdersOf name entry record.incarnations)).map (.entryShared entry))
        update (.setPackage split fun r =>
          (r.learn name entry).mapSplit fun s => { s with relaxed := s.relaxed.erase name })
        return some entry

def relaxedInSplit (split : PackageId) (record : Package) (name : String) :
    Lookup (Option Ref) := do
  match record.known.get? name with
  | some ref => return some ref
  | none =>
    let entries ← ask (·.someEntries name record.incarnations)
    match record.split?.bind (·.relaxed.get? name) with
    | some (seen, result) =>
      if seen = entries then return result
      else merge entries
    | none => merge entries
where
  merge (entries : List Ref) : Lookup (Option Ref) := do
    let result ← combineAll (entries.map some) record.home
    update (.setPackage split (·.mapSplit fun s =>
      { s with relaxed := s.relaxed.insert name (entries, result) }))
    return result

/-- What is known of the package `name` below a binding. -/
def strict (p : PackageId) (name : String) : Lookup (Option Ref) := do
  let record ← package p
  if record.isSplit then strictInSplit p record name
  else return record.known.get? name

/-- What is known of it, if need be from some incarnations only. -/
def relaxed (p : PackageId) (name : String) : Lookup (Option Ref) := do
  let record ← package p
  if record.isSplit then relaxedInSplit p record name
  else return record.known.get? name

end Lookup

end SplitPackages
