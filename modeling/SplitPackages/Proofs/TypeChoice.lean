import SplitPackages.Proofs.Questions
import SplitPackages.Proofs.Requests

/-!
# Which type of a split is chosen

The type lookup of a split goes through the incarnations with one hit in hand
and stops early. `typeFor_split` says what it answers without that walk: the
hits are the types that the incarnations have, in order, and the accessible
ones among them decide. Only if there is none does the last hit count.

How many hits there are and how many of them are accessible does not depend on
the order of the incarnations, and so neither does the kind of the answer.
-/

namespace SplitPackages.Environment

variable {env after : Environment} {config : Config} {s p i : PackageId} {m : ModuleId}
  {r : Package} {name : String} {t : TypeId} {ps : List PackageId}

/-- The types `name` of the bindings, in their order. -/
def typesAmong (env : Environment) (name : String) (ps : List PackageId) : List TypeId :=
  ps.filterMap fun p => (env.typeIn p name).toOption.join

/-- Those of them whose binding the module can access. -/
def accessibleTypes (env : Environment) (m : ModuleId) (name : String) (ps : List PackageId) :
    List TypeId :=
  env.typesAmong name (ps.filter fun p => env.canAccess m p = .ok true)

/-- The answer for these hits, of which these are accessible. -/
def verdict (hits accessible : List TypeId) : Except TypeError (Option TypeId) :=
  match accessible, hits.getLast? with
  | first :: second :: _, _ => .error (.ambiguous first second)
  | [only], _ => .ok (some only)
  | [], some last => .error (.notAccessible last)
  | [], none => .ok none

inductive Outcome where
  | absent
  | found
  | ambiguous
  | notAccessible
  deriving DecidableEq, Repr

def outcome : Except TypeError (Option TypeId) → Outcome
  | .ok none => .absent
  | .ok (some _) => .found
  | .error (.ambiguous _ _) => .ambiguous
  | .error (.notAccessible _) => .notAccessible

/-! ## The hits -/

theorem typesAmong_cons (hp : env.package p = .ok r) :
    env.typesAmong name (p :: ps) = (r.types.get? name).toList ++ env.typesAmong name ps := by
  have hjoin : (env.typeIn p name).toOption.join = r.types.get? name := by
    simp only [typeIn, hp]
    rfl
  unfold typesAmong
  rw [List.filterMap_cons, hjoin]
  cases r.types.get? name <;> rfl

theorem accessibleTypes_cons {b : Bool} (hp : env.package p = .ok r)
    (hb : env.canAccess m p = .ok b) :
    env.accessibleTypes m name (p :: ps) =
      (if b then (r.types.get? name).toList else []) ++ env.accessibleTypes m name ps := by
  unfold accessibleTypes
  cases b with
  | true => rw [List.filter_cons_of_pos (by simpa using hb), typesAmong_cons hp]; rfl
  | false => rw [List.filter_cons_of_neg (by simp [hb])]; rfl

/-- Other hits do not matter as long as one is accessible. -/
theorem verdict_of_accessible (hits hits' rest : List TypeId) :
    verdict hits (t :: rest) = verdict hits' (t :: rest) := by
  cases rest <;> rfl

/-- A hit with another one behind it does not matter. -/
theorem verdict_skip (u : TypeId) (hits accessible : List TypeId) :
    verdict (u :: t :: hits) accessible = verdict (t :: hits) accessible := by
  simp only [verdict, List.getLast?_cons_cons]

/-! ## The walk -/

/-- The hit in hand, as a list. -/
def held : Option (TypeId × Bool) → List TypeId
  | some (t, _) => [t]
  | none => []

def heldAccessible : Option (TypeId × Bool) → List TypeId
  | some (t, true) => [t]
  | _ => []

/-- The hit in hand stands for the hits so far: it is the only accessible one of them, or the last
if none is. The accessible ones still to come are put behind it. -/
theorem Closed.typeAmong_eq (hc : env.Closed) (hm : ∃ record, env.module m = .ok record)
    (name : String) : ∀ (ps : List PackageId) (kept : Option (TypeId × Bool)),
      (∀ p ∈ ps, ∃ r, env.package p = .ok r) →
      env.typeAmong m name kept ps = .ok (verdict (held kept ++ env.typesAmong name ps)
        (heldAccessible kept ++ env.accessibleTypes m name ps))
  | [], kept, _ => by rcases kept with _ | ⟨t, _ | _⟩ <;> rfl
  | p :: ps, kept, hall => by
    obtain ⟨r, hr⟩ := hall p List.mem_cons_self
    obtain ⟨b, hb⟩ := hc.canAccess_ok hm hr
    have hnext := fun kept' => hc.typeAmong_eq hm name ps kept'
      fun q hq => hall q (List.mem_cons_of_mem _ hq)
    have htype : env.typeIn p name = .ok (r.types.get? name) := by
      simp only [typeIn, hr]
      rfl
    rw [typesAmong_cons hr, accessibleTypes_cons hr hb]
    unfold typeAmong
    simp only [htype, bind, Except.bind]
    cases hget : r.types.get? name with
    | none => simp [hnext]
    | some t =>
      simp only [hb]
      rcases kept with _ | ⟨first, _ | _⟩
      · -- the first hit is taken in hand
        cases b <;> exact hnext _
      · -- an inaccessible one gives way to any other
        refine (hnext _).trans (congrArg Except.ok ?_)
        cases b <;> exact (verdict_skip first _ _).symm
      · -- an accessible one stays, and a second one ends the walk
        cases b with
        | true => rfl
        | false =>
          exact (hnext _).trans (congrArg Except.ok (verdict_of_accessible _ _ _))

/-! ## The order -/

theorem typesAmong_perm {ps' : List PackageId} (h : ps.Perm ps') :
    (env.typesAmong name ps).Perm (env.typesAmong name ps') :=
  h.filterMap _

theorem accessibleTypes_perm {ps' : List PackageId} (h : ps.Perm ps') :
    (env.accessibleTypes m name ps).Perm (env.accessibleTypes m name ps') :=
  typesAmong_perm (h.filter _)

theorem outcome_verdict : ∀ hits accessible : List TypeId, outcome (verdict hits accessible) =
    if 2 ≤ accessible.length then .ambiguous else if accessible.length = 1 then .found
    else if hits.length = 0 then .absent else .notAccessible
  | _, _ :: _ :: _ => by simp [verdict, outcome]
  | _, [_] => by simp [verdict, outcome]
  | [], [] => rfl
  | t :: hits, [] => by simp [verdict, outcome, List.getLast?_cons]

theorem outcome_verdict_of_length {hits hits' accessible accessible' : List TypeId}
    (hh : hits.length = hits'.length) (ha : accessible.length = accessible'.length) :
    outcome (verdict hits accessible) = outcome (verdict hits' accessible') := by
  rw [outcome_verdict, outcome_verdict, hh, ha]

/-- The search for a module does not look at bindings. -/
theorem canRead_congr (hmods : after.modules = env.modules) (htypes : after.types = env.types)
    (m target : ModuleId) : after.canRead m target = env.canRead m target := by
  -- a state without bindings keeps whatever has the same modules and types
  have hbare : (⟨env.modules, #[], env.types⟩ : Environment).Keeps env :=
    ⟨fun _ => rfl, rfl, rfl, fun hp => absurd (lt_size_of_package hp) (Nat.not_lt_zero _)⟩
  have hbare' : (⟨env.modules, #[], env.types⟩ : Environment).Keeps after :=
    ⟨fun k => congrArg (Module.bare <$> ·) (module_congr hmods k), by rw [hmods], htypes,
      fun hp => absurd (lt_size_of_package hp) (Nat.not_lt_zero _)⟩
  exact (hbare'.canRead m target).trans (hbare.canRead m target).symm

theorem canAccess_congr (hmods : after.modules = env.modules) (htypes : after.types = env.types)
    (hi : env.package i = .ok r) (hi' : after.package i = .ok r) (hplain : r.isPlain = true) :
    after.canAccess m i = env.canAccess m i := by
  obtain ⟨plain, hk⟩ := Package.kind_of_isPlain hplain
  simp only [canAccess, hi, hi', bind, Except.bind, hk, canAccessOwn,
    canRead_congr hmods htypes, module_congr hmods]

theorem typeAmong_congr : ∀ (ps : List PackageId) (kept : Option (TypeId × Bool)),
    (∀ p ∈ ps, after.package p = env.package p ∧ after.canAccess m p = env.canAccess m p) →
    after.typeAmong m name kept ps = env.typeAmong m name kept ps
  | [], kept, _ => by rcases kept with _ | ⟨t, _ | _⟩ <;> rfl
  | p :: ps, kept, hall => by
    obtain ⟨hp, hacc⟩ := hall p List.mem_cons_self
    have hnext := fun kept' => typeAmong_congr ps kept' fun q hq => hall q (List.mem_cons_of_mem _ hq)
    unfold typeAmong
    simp only [typeIn, hp, hacc, hnext]

def reorder (ids : OrderedSet PackageId) (r : Package) : Package :=
  r.mapSplit fun split => { split with incarnations := ids }

theorem isSplit_reorder (ids : OrderedSet PackageId) (hsplit : r.isSplit = true) :
    (reorder ids r).isSplit = true ∧ (reorder ids r).incarnations = ids.toList := by
  obtain ⟨split, hk⟩ := Package.kind_of_isSplit hsplit
  simp [reorder, Package.mapSplit, hk, Package.isSplit, Package.split?, Package.incarnations]

/-- In every state that requests reach, the type lookup of a split answers the only accessible
hit, complains of the first two accessible ones, or of the last hit if none is accessible. With the
incarnations in another order the answer is of the same kind. -/
theorem typeFor_split (h : Environment.empty.Reaches config (fun _ => true) env)
    (hm : m.index < env.modules.size) (hs : env.package s = .ok r) (hsplit : r.isSplit = true)
    (name : String) :
    env.typeFor s name m = .ok (verdict (env.typesAmong name r.incarnations)
      (env.accessibleTypes m name r.incarnations)) ∧
    ∀ {ids : OrderedSet PackageId} {after : Environment}, ids.toList.Perm r.incarnations →
      env.setPackage s (reorder ids) = .ok after →
      ∃ answer, after.typeFor s name m = .ok answer ∧ outcome answer =
        outcome (verdict (env.typesAmong name r.incarnations)
          (env.accessibleTypes m name r.incarnations)) := by
  have ho := h.orderly (orderly_empty .free)
  have hm := module_of_lt_size hm
  have hwalk {ps : List PackageId} (hps : ∀ i ∈ ps, i ∈ r.incarnations) :=
    ho.closed.typeAmong_eq hm name ps none fun i hi => ho.closed.incarnations hs (hps i hi)
  refine ⟨?_, fun {ids after} hperm hset => ?_⟩
  · simp only [typeFor, hs, bind, Except.bind, hsplit, if_true]
    exact hwalk fun _ hi => hi
  · obtain ⟨hsplit', hincs⟩ := isSplit_reorder ids hsplit
    have hs' := package_setPackage_self hset hs
    have hsame : after.typeAmong m name none ids.toList = env.typeAmong m name none ids.toList := by
      refine typeAmong_congr ids.toList none fun i hi => ?_
      obtain ⟨ri, hri, hplain⟩ := ho.wired.plain_of_mem hs (hperm.mem_iff.mp hi)
      have hne : i ≠ s := by
        rintro rfl
        cases package_unique hri hs
        rw [Package.isSplit_of_isPlain hplain] at hsplit
        cases hsplit
      have hsame := package_setPackage_ne hset hne
      exact ⟨hsame, canAccess_congr (modules_setPackage hset) (types_setPackage hset) hri
        (hsame.trans hri) hplain⟩
    refine ⟨_, ?_, outcome_verdict_of_length (typesAmong_perm hperm).length_eq
      (accessibleTypes_perm hperm).length_eq⟩
    simp only [typeFor, hs', bind, Except.bind, hsplit', if_true, hincs, hsame]
    exact hwalk fun _ hi => hperm.mem_iff.mp hi

/-- Four modules have a package with one type, and a fifth reads them all; the first and the
last export it. -/
def alternately : List Request :=
  [.addModule "a" false, .addModule "b" false, .addModule "c" false, .addModule "d" false,
    .addModule "n" false, .declareType ⟨0⟩ "foo.T", .declareType ⟨1⟩ "foo.T",
    .declareType ⟨2⟩ "foo.T", .declareType ⟨3⟩ "foo.T", .addExport ⟨0⟩ (.top "foo"),
    .addExport ⟨3⟩ (.top "foo"), .addRead ⟨4⟩ ⟨0⟩, .addRead ⟨4⟩ ⟨1⟩, .addRead ⟨4⟩ ⟨2⟩,
    .addRead ⟨4⟩ ⟨3⟩, .combine (some (.package ⟨0⟩)) (some (.package ⟨1⟩)) ⟨4⟩,
    .addToSplit ⟨4⟩ ⟨2⟩, .addToSplit ⟨4⟩ ⟨3⟩]

theorem typeFor_split_alternately :
    ∃ env r, Environment.empty.Reaches .standard (fun _ => true) env ∧ 4 < env.modules.size ∧
      env.package ⟨4⟩ = .ok r ∧ r.isSplit = true ∧ r.incarnations = [⟨1⟩, ⟨0⟩, ⟨2⟩, ⟨3⟩] ∧
      env.typeFor ⟨4⟩ "T" ⟨4⟩ = .ok (.error (.ambiguous ⟨0⟩ ⟨3⟩)) ∧
      ∀ {ids : OrderedSet PackageId} {after : Environment},
        ids.toList.Perm [⟨1⟩, ⟨0⟩, ⟨2⟩, ⟨3⟩] → env.setPackage ⟨4⟩ (reorder ids) = .ok after →
        ∃ answer, after.typeFor ⟨4⟩ "T" ⟨4⟩ = .ok answer ∧ outcome answer = .ambiguous := by
  have hrun : (replay .standard (fun _ => true) alternately .empty).any (fun env =>
      4 < env.modules.size ∧ (env.package ⟨4⟩).toOption.any (fun r =>
        r.isSplit ∧ r.incarnations = [⟨1⟩, ⟨0⟩, ⟨2⟩, ⟨3⟩]) ∧
      env.typesAmong "T" [⟨1⟩, ⟨0⟩, ⟨2⟩, ⟨3⟩] = [⟨1⟩, ⟨0⟩, ⟨2⟩, ⟨3⟩] ∧
      env.accessibleTypes ⟨4⟩ "T" [⟨1⟩, ⟨0⟩, ⟨2⟩, ⟨3⟩] = [⟨0⟩, ⟨3⟩]) = true := by decide +kernel
  obtain ⟨env, henv, hall⟩ := (Option.any_eq_true _ _).mp hrun
  obtain ⟨hsize, hany, hhits, hopen⟩ := of_decide_eq_true hall
  obtain ⟨r, hr, hrec⟩ := (Option.any_eq_true _ _).mp hany
  obtain ⟨hsplit, hincs⟩ := of_decide_eq_true hrec
  have hr := package_of_toOption hr
  have hreach := reaches_of_replay henv
  have hanswer := typeFor_split hreach hsize hr hsplit "T"
  rw [hincs, hhits, hopen] at hanswer
  exact ⟨env, r, hreach, hsize, hr, hsplit, hincs, hanswer⟩

end SplitPackages.Environment
