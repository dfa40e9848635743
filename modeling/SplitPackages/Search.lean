import SplitPackages.View

/-!
# Searching below a package

`search` asks each declaring module of a split what it sees at the child path.
Bindings with a missing type are skipped. One answer is used as it is, several
are merged into a new split; the result is registered below the split, and the
lack of one is recorded. A view never searches, so no search is entered from
within another, and there is no mark on a split that is being searched.

`child` gives the package below a binding as a module sees it: from what is
known, or else by a search in a split, or by the module's own view below a
plain binding. The entries of a plain binding are used and filled for its home
only.
-/

namespace SplitPackages.Lookup

/-- The bindings that the modules see at the path, without those that have a
missing type. -/
def contributions (path : Path) : List ModuleId → Lookup (List PackageId)
  | [] => return []
  | m :: ms => do
    let found ← view m path
    note (.contributed m (some found))
    match found with
    | .notFound => contributions path ms
    | .package p =>
      if (← package p).missingType then contributions path ms
      else return p :: (← contributions path ms)

def mergeFound (home : ModuleId) : List PackageId → Lookup (Option PackageId)
  | [] => return none
  | [only] => do
    if (← package only).isSplit then note (.splitLeaked only)
    return some only
  | first :: rest => do
    let merged ← newSplit first home
    update (.addAllToSplit merged rest)
    return some merged

def search (split : PackageId) (name : String) (m : ModuleId) : Lookup (Option PackageId) :=
  within .findPackage do
    let record ← package split
    if !record.isSplit then
      note (.notSplit split)
      return none
    if m ≠ record.home then note (.foreignContext record.home m)
    note (.searching name split m)
    let candidates := OrderedSet.ofList (← contributions (.sub record.path name) record.declaring)
    let result ← mergeFound record.home candidates.toList
    note (.searched result)
    match result with
    | none => update (.learnMissing split name)
    | some found =>
      let foundRecord ← package found
      if foundRecord.home ≠ record.home then note (.foreignResult found record.home)
      if foundRecord.isSplit ∧ found ∈ candidates then note (.splitReused found split)
      discard (addChild split found m)
    return result

def childOfPlain (parent : PackageId) (record : Package) (name : String) (m : ModuleId) :
    Lookup (Option PackageId) := do
  if record.home = m then
    match record.known.get? name with
    | some ref => return ref.package?
    | none =>
      let found := (← view m (.sub record.path name)).package?
      if ((← package parent).known.get? name).isNone then
        match found with
        | some p => discard (addChild parent p m)
        | none => update (.learnMissing parent name)
      return found
  else return (← view m (.sub record.path name)).package?

/-- The package `name` below a binding, as the module sees it. -/
def child (parent : PackageId) (name : String) (m : ModuleId) : Lookup (Option PackageId) := do
  let record ← package parent
  match record.kind with
  | .problem => return none
  | .plain _ => childOfPlain parent record name m
  | .split _ =>
    match ← strict parent name with
    | some ref => return ref.package?
    | none => search parent name m

end SplitPackages.Lookup
