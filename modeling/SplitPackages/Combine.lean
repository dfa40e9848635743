import SplitPackages.Split

/-!
# Combining candidates

Candidates for one package path are ranked: absent, known not to exist, a
problem, valid. The best rank wins, and only valid candidates are ever merged.
`combine` takes two candidates and keeps one that subsumes the other;
`combineAll` takes any number and gathers the valid ones in one split.
-/

namespace SplitPackages

namespace Environment

def rank (env : Environment) : Option Ref → Except Fault Rank
  | none => return .absent
  | some .notFound => return .notFound
  | some (.package p) => return if (← env.package p).isValid then .valid else .problem

def rankAll (env : Environment) : List (Option Ref) → Except Fault (List (Rank × Option Ref))
  | [] => return []
  | c :: cs => return (← env.rank c, c) :: (← env.rankAll cs)

end Environment

/-- The best of the ranks; `absent` if there are none. -/
def bestRank (ranked : List (Rank × Option Ref)) : Rank :=
  ranked.foldl (fun best c => best.max c.1) .absent

def ofRank (rank : Rank) (ranked : List (Rank × Option Ref)) : List (Option Ref) :=
  (ranked.filter fun c => c.1 = rank).map Prod.snd

def bindings (candidates : List (Option Ref)) : List PackageId :=
  candidates.filterMap fun c => c.bind Ref.package?

namespace Lookup

/-- The better of two candidates; of two valid ones, one that subsumes the
other, or else a new split that starts with `previous` and has `primary` as its
home. -/
def combine (candidate previous : Option Ref) (primary : ModuleId) : Lookup (Option Ref) := do
  let before ← ask (·.rank previous)
  let now ← ask (·.rank candidate)
  if before.toNat < now.toNat then return candidate
  if now.toNat < before.toNat then return previous
  match now, previous, candidate with
  | .valid, some (.package prev), some (.package cur) =>
    if ← ask (·.subsumes prev cur) then return previous
    if ← ask (·.subsumes cur prev) then return candidate
    within .combine do
      note (.combining previous candidate primary)
      let split ← newSplit prev primary
      update (.addToSplit split cur)
      note (.splitMade split)
      return some (.package split)
  | _, _, _ => return previous

/-- One split of several valid bindings, peeled if they turn out to be one. -/
def gather (first : PackageId) (rest : List PackageId) (primary : ModuleId) :
    Lookup PackageId := do
  let split ← newSplit first primary
  update (.addAllToSplit split rest)
  peel split

/-- The first candidate of the best rank, or all of them gathered if they are
valid and more than one. -/
def combineAll (candidates : List (Option Ref)) (primary : ModuleId) : Lookup (Option Ref) :=
  within .combineAll do
    note (.combiningAll candidates.length primary)
    let ranked ← ask (·.rankAll candidates)
    let best := bestRank ranked
    match best, ofRank best ranked with
    | _, [] => return none
    | .valid, first :: second :: rest =>
      match bindings (first :: second :: rest) with
      | [] => return none
      | p :: ps =>
        let result := some (.package (← gather p ps primary))
        note (.combined .valid result)
        return result
    | _, first :: _ =>
      note (.bestTaken best first)
      return first

end Lookup

end SplitPackages
