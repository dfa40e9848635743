import SplitPackages.Proofs.Memos

/-!
# Combining two candidates

Candidates are ordered by their rank, and the valid ones among them by the plain
bindings that contribute to them. `combine` gives the join of two candidates in
both respects: the better rank, and the parts of both (`combine_joined`). It
returns one of the two wherever it can, and what is not valid it never merges.

Subsumption compares modules, not bindings. At one path a module has one plain
binding only, so a binding that has all modules of another has all its parts
(`Coherent.parts_of_subsumes`).
-/

namespace SplitPackages

namespace Environment

/-- The result is the join of two candidates of the ranks `before` and `now`. -/
structure Joined (env : Environment) (primary : ModuleId) (candidate previous : Option Ref)
    (before now : Rank) (result : Option Ref) (after : Environment) : Prop where
  rank : after.rank result = .ok (before.max now)
  parts : ∀ i, i ∈ after.partsOf result ↔ i ∈ env.partsOf previous ∨ i ∈ env.partsOf candidate
  better : ¬(before = .valid ∧ now = .valid) →
    result = (if before.toNat < now.toNat then candidate else previous) ∧ after = env
  tie : before = now → now ≠ .valid → result = previous
  merged : before = .valid → now = .valid → ∃ prev cur p, previous = some (.package prev) ∧
    candidate = some (.package cur) ∧ result = some (.package p) ∧
    env.Chooses primary prev cur p after

variable {env after : Environment} {i p q first second : PackageId} {primary : ModuleId}
  {path : Path}

/-- A binding that subsumes another has its parts: of each of its modules it has the only plain
binding at the path. -/
theorem Coherent.parts_of_subsumes (hc : env.Coherent) (hp : env.Binds p path)
    (hq : env.Binds q path) (hsub : env.subsumes p q = .ok true) (hv : env.valid q = true)
    (hi : i ∈ env.parts q) : i ∈ env.parts p := by
  obtain ⟨b, hb, hmembers⟩ := subsumes_ok hp hq
  obtain ⟨rp, hrp, hpath⟩ := hp
  obtain ⟨rq, hrq, hpathq⟩ := hq
  obtain ⟨ri, hri, hpl, hpathi, hhome⟩ := hc.parts hrq hi
  cases hsub.symm.trans hb
  have hown := hc.own hri (Package.isSplit_of_isPlain hpl)
  rw [hpathi, hpathq, ← hpath] at hown
  exact hc.mem_parts hrp (hmembers rfl hv _ hhome) hown

theorem Chooses.mem_parts (h : env.Chooses primary first second q after) (hc : env.Coherent)
    (hfirst : env.Binds first path) (hsecond : env.Binds second path)
    (hv : env.valid first = true) (hv' : env.valid second = true) :
    after.valid q = true ∧ ∀ i, i ∈ after.parts q ↔ i ∈ env.parts first ∨ i ∈ env.parts second := by
  cases h with
  | first hsub =>
    exact ⟨hv, fun i => (or_iff_left_of_imp (hc.parts_of_subsumes hfirst hsecond hsub hv')).symm⟩
  | second _ hsub =>
    exact ⟨hv', fun i => (or_iff_right_of_imp (hc.parts_of_subsumes hsecond hfirst hsub hv)).symm⟩
  | split _ _ _ ha =>
    refine ⟨by rw [valid_of_package ha.record]; rfl, fun i => ?_⟩
    rw [ha.mem_parts]
    simp

end Environment

namespace Lookup

open Environment

variable {env : Environment} {candidate previous : Option Ref} {p prev cur : PackageId}
  {primary : ModuleId} {r : Package} {path : Path}

theorem combine_joined (hc : env.Coherent) (hm : ∃ record, env.module primary = .ok record)
    (hb : ∀ p ∈ bindings [candidate, previous], env.Binds p path) :
    (combine candidate previous primary).Ensures env fun result after => env.Grows after ∧
      (∀ p, result = some (.package p) → after.Binds p path) ∧
      env.Joined primary candidate previous (env.grade previous) (env.grade candidate)
        result after := by
  have hcand (p : PackageId) (e : candidate = some (.package p)) : env.Binds p path :=
    hb p (mem_bindings.mpr (e ▸ List.mem_cons_self))
  have hprev (p : PackageId) (e : previous = some (.package p)) : env.Binds p path :=
    hb p (mem_bindings.mpr (e ▸ List.mem_cons_of_mem _ List.mem_cons_self))
  by_cases hboth : env.grade previous = .valid ∧ env.grade candidate = .valid
  · obtain ⟨prev, rfl, hvp⟩ := eq_package_of_grade hboth.1
    obtain ⟨cur, rfl, hvc⟩ := eq_package_of_grade hboth.2
    have hprev := hprev prev rfl
    have hcur := hcand cur rfl
    refine (combine_chooses hc hprev hcur hvp hvc primary).mono ?_
    rintro _ after ⟨p, rfl, hch⟩
    have hbinds := hch.binds hprev hcur
    obtain ⟨hvalid, hparts⟩ := hch.mem_parts hc hprev hcur hvp hvc
    refine ⟨hch.grows hc hm hprev hcur, by rintro _ ⟨⟩; exact hbinds, ?_, hparts,
      fun hno => absurd hboth hno, fun _ hno => absurd hboth.2 hno,
      fun _ _ => ⟨prev, cur, p, rfl, rfl, rfl, hch⟩⟩
    rw [rank_package hbinds.there, hboth.1, hboth.2]
    exact congrArg Except.ok (grade_valid hvalid)
  · have hbefore := rank_grade fun p e => (hprev p e).there
    have hnow := rank_grade fun p e => (hcand p e).there
    have hgives := combine_better hbefore hnow hboth primary
    refine ⟨_, env, hgives, .refl env, ?_, ?_, ?_, fun _ => ⟨rfl, rfl⟩, ?_, ?_⟩
    · intro p e
      split at e
      · exact hcand p e
      · exact hprev p e
    · unfold Rank.max
      split
      · exact hnow
      · exact hbefore
    · intro i
      -- the candidate that is left out is not valid, so it has no parts
      split
      · next hlt =>
        refine (or_iff_right fun hi => ?_).symm
        rw [grade_of_mem_partsOf hi] at hlt
        rw [eq_valid_of_le (Nat.le_of_lt hlt)] at hlt
        exact Nat.lt_irrefl _ hlt
      · next hge =>
        refine (or_iff_left fun hi => ?_).symm
        have hvalid := grade_of_mem_partsOf hi
        exact hboth ⟨eq_valid_of_le (hvalid ▸ Nat.le_of_not_lt hge), hvalid⟩
    · intro e _
      rw [if_neg (by rw [e]; exact Nat.lt_irrefl _)]
    · exact fun h h' => absurd ⟨h, h'⟩ hboth

end Lookup

namespace Environment

variable {env : Environment} {config : Config} {candidate previous : Option Ref}
  {primary : ModuleId}

/-- In every state that requests reach which respect paths, combining two candidates of one path
gives their join. -/
theorem combine_joins (h : Environment.empty.Develops config Request.RespectsPaths env)
    (hm : ∃ record, env.module primary = .ok record)
    (hb : ∃ path, ∀ p ∈ bindings [candidate, previous], env.Binds p path) :
    ∃ before now, env.rank previous = .ok before ∧ env.rank candidate = .ok now ∧
      (Lookup.combine candidate previous primary).Ensures env fun result after =>
        env.Joined primary candidate previous before now result after := by
  obtain ⟨path, hb⟩ := hb
  have hc := (h.orderly (orderly_empty _)).coherent trivial
  have hthere (p : PackageId) (hp : p ∈ bindings [candidate, previous]) := (hb p hp).there
  exact ⟨env.grade previous, env.grade candidate, rank_of_mem hthere (by simp),
    rank_of_mem hthere (by simp), (Lookup.combine_joined hc hm hb).mono fun _ _ hj => hj.2.2⟩

/-- Three modules share a package; two splits of it have one incarnation in common. -/
def overlappingSplits : List Request :=
  [.addModule "a" false, .addModule "b" false, .addModule "c" false,
    .declarePackage ⟨0⟩ (.top "foo"), .declarePackage ⟨1⟩ (.top "foo"),
    .declarePackage ⟨2⟩ (.top "foo"), .combine (some (.package ⟨1⟩)) (some (.package ⟨0⟩)) ⟨0⟩,
    .combine (some (.package ⟨2⟩)) (some (.package ⟨1⟩)) ⟨2⟩]

theorem combine_joins_overlappingSplits : ∃ env,
    Environment.empty.Develops .standard Request.RespectsPaths env ∧
    (∃ record, env.module ⟨0⟩ = .ok record) ∧
    (∃ path, ∀ p ∈ bindings [some (.package ⟨4⟩), some (.package ⟨3⟩)], env.Binds p path) ∧
    env.parts ⟨3⟩ = [⟨0⟩, ⟨1⟩] ∧ env.parts ⟨4⟩ = [⟨1⟩, ⟨2⟩] ∧
    ∃ before now, env.rank (some (.package ⟨3⟩)) = .ok before ∧
      env.rank (some (.package ⟨4⟩)) = .ok now ∧
      (Lookup.combine (some (.package ⟨4⟩)) (some (.package ⟨3⟩)) ⟨0⟩).Ensures env
        fun result after => env.Joined ⟨0⟩ (some (.package ⟨4⟩)) (some (.package ⟨3⟩))
          before now result after := by
  have hrun : (develop .standard Request.RespectsPaths overlappingSplits .empty).any (fun env =>
      decide (0 < env.modules.size) && env.sharePath [⟨4⟩, ⟨3⟩] &&
        (env.parts ⟨3⟩ == [⟨0⟩, ⟨1⟩]) && (env.parts ⟨4⟩ == [⟨1⟩, ⟨2⟩])) = true := by
    decide +kernel
  obtain ⟨env, henv, hshape⟩ := (Option.any_eq_true _ _).mp hrun
  simp only [Bool.and_eq_true, decide_eq_true_eq, beq_iff_eq] at hshape
  obtain ⟨⟨⟨hmodules, hshare⟩, hparts⟩, hparts'⟩ := hshape
  have hdev := develops_of_develop .refl henv
  have hm : ∃ record, env.module ⟨0⟩ = .ok record := module_of_lt_size hmodules
  have hb := sharePath_iff.mp hshare
  exact ⟨env, hdev, hm, hb, hparts, hparts', combine_joins hdev hm hb⟩

end Environment

end SplitPackages
