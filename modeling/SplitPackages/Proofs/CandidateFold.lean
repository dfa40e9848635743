import SplitPackages.Proofs.CandidateJoin

/-!
# Combining any number of candidates

`combineAll` sorts candidates by rank and gathers the valid ones in one split;
`fold` combines them two at a time. Both are the join of all candidates: the
best rank, and the parts of all (`Sums`). A join depends neither on the order of
the candidates nor on repetitions, so the two agree on every list with the same
members. Which binding they return may differ. `Collects` says which one
`combineAll` returns and what it changes.
-/

namespace SplitPackages

/-- Combining candidates one after the other. -/
def Lookup.fold (candidates : List (Option Ref)) (primary : ModuleId) : Lookup (Option Ref) :=
  candidates.foldlM (fun best candidate => combine candidate best primary) none

namespace Lookup

open Environment

variable {env : Environment} {cs : List (Option Ref)} {primary : ModuleId} {path : Path}

theorem foldlM_sums :
    ∀ (cs : List (Option Ref)) {best : Option Ref} {env : Environment}, env.Coherent →
      (∃ record, env.module primary = .ok record) →
      (∀ p ∈ bindings (best :: cs), env.Binds p path) →
      (cs.foldlM (fun best candidate => combine candidate best primary) best).Ensures env
        fun result after =>
          after.rank result =
            .ok ((env.graded cs).foldl (fun best c => best.max c.1) (env.grade best)) ∧
          ∀ i, i ∈ after.partsOf result ↔ ∃ c ∈ best :: cs, i ∈ env.partsOf c
  | [], best, env, hc, hm, hb => by
    refine Ensures.pure ⟨rank_of_mem (fun p hp => (hb p hp).there) List.mem_cons_self, ?_⟩
    simp
  | c :: cs, best, env, hc, hm, hb => by
    rw [List.foldlM_cons]
    have hin {d : Option Ref} (hd : d ∈ best :: c :: cs) (p : PackageId)
        (e : d = some (.package p)) : env.Binds p path := hb p (mem_bindings.mpr (e ▸ hd))
    have hpair : ∀ p ∈ bindings [c, best], env.Binds p path := by
      intro p hp
      refine hb p (mem_bindings.mpr ?_)
      have hp := mem_bindings.mp hp
      simp only [List.mem_cons, List.not_mem_nil, or_false] at hp ⊢
      tauto
    refine (combine_joined hc hm hpair).bind ?_
    rintro next mid ⟨hg, hnext, hj⟩
    have hk := hg.keeps
    have hrest (d : Option Ref) (hd : d ∈ cs) (p : PackageId) (e : d = some (.package p)) :
        env.Binds p path := hin (List.mem_cons_of_mem _ (List.mem_cons_of_mem _ hd)) p e
    have hgrade : mid.grade next = (env.grade best).max (env.grade c) :=
      Except.ok.inj ((rank_grade fun p e => (hnext p e).there).symm.trans hj.rank)
    have hgraded : mid.graded cs = env.graded cs := List.map_congr_left fun d hd => by
      rw [hk.grade (hrest d hd)]
    refine (foldlM_sums cs (hg.coherent hc) ?_ fun p hp => ?_).mono ?_
    · obtain ⟨record, hm⟩ := hm
      exact ⟨record, (module_congr hg.modules _).trans hm⟩
    · rcases List.mem_cons.mp (mem_bindings.mp hp) with e | hp
      · exact hnext p e.symm
      · exact hk.binds (hrest _ hp p rfl)
    rintro result after ⟨hrank, hparts⟩
    refine ⟨?_, fun i => ?_⟩
    · rw [hrank, hgrade, hgraded]
      rfl
    · rw [hparts]
      simp only [List.exists_mem_cons_iff, hj.parts, or_assoc]
      refine or_congr_right (or_congr_right (exists_congr fun d => and_congr_right fun hd => ?_))
      rw [hk.partsOf (hrest d hd)]

theorem fold_sums (hc : env.Coherent) (hm : ∃ record, env.module primary = .ok record)
    (hb : ∀ p ∈ bindings cs, env.Binds p path) :
    (fold cs primary).Ensures env (env.Sums cs (bestRank (env.graded cs))) := by
  have hnone : ∀ p ∈ bindings (none :: cs), env.Binds p path := hb
  refine (foldlM_sums cs hc hm hnone).mono ?_
  rintro result after ⟨hrank, hparts⟩
  exact ⟨hrank, fun i => by simpa [partsOf] using hparts i⟩

end Lookup

namespace Environment

variable {env : Environment} {config : Config} {cs cs' : List (Option Ref)} {primary : ModuleId}

theorem Sums.congr {best : Rank} {result : Option Ref} {after : Environment}
    (h : env.Sums cs' best result after) (hmem : ∀ c, c ∈ cs' ↔ c ∈ cs) :
    env.Sums cs best result after :=
  ⟨h.rank, fun i => (h.parts i).trans (exists_congr fun c => and_congr_left fun _ => hmem c)⟩

/-- In every state that requests reach which respect paths, combining candidates of one path at
once and combining them one after the other agree in rank and parts, in whatever order and however
often the candidates are listed. -/
theorem combineAll_agrees (h : Environment.empty.Develops config Request.RespectsPaths env)
    (hm : ∃ record, env.module primary = .ok record)
    (hb : ∃ path, ∀ p ∈ bindings cs, env.Binds p path) :
    (Lookup.combineAll cs primary).Ensures env (env.Collects primary cs) ∧
    ∃ best, ∀ cs', (∀ c, c ∈ cs' ↔ c ∈ cs) →
      (Lookup.combineAll cs' primary).Ensures env (env.Sums cs best) ∧
      (Lookup.fold cs' primary).Ensures env (env.Sums cs best) := by
  obtain ⟨path, hb⟩ := hb
  have hc := (h.orderly (orderly_empty _)).coherent trivial
  refine ⟨Lookup.combineAll_collects hc hb primary, bestRank (env.graded cs), ?_⟩
  intro cs' hmem
  have hb' : ∀ p ∈ bindings cs', env.Binds p path := fun p hp =>
    hb p (mem_bindings.mpr ((hmem _).mp (mem_bindings.mp hp)))
  have hbest : bestRank (env.graded cs') = bestRank (env.graded cs) :=
    bestRank_congr fun n => by simp only [hmem]
  rw [← hbest]
  refine ⟨(Lookup.combineAll_collects hc hb' primary).mono fun _ _ h => (h.sums hb').congr hmem, ?_⟩
  exact (Lookup.fold_sums hc hm hb').mono fun _ _ h => h.congr hmem

/-- Candidates of the environment that `overlappingSplits` makes: both splits, one of them twice, a
binding that is in both, and two that are not valid. -/
def mixedCandidates : List (Option Ref) :=
  [none, some (.package ⟨3⟩), some .notFound, some (.package ⟨4⟩), some (.package ⟨1⟩),
    some (.package ⟨3⟩)]

theorem combineAll_agrees_mixedCandidates : ∃ env,
    Environment.empty.Develops .standard Request.RespectsPaths env ∧
    (∃ record, env.module ⟨2⟩ = .ok record) ∧
    (∃ path, ∀ p ∈ bindings mixedCandidates, env.Binds p path) ∧
    env.allParts mixedCandidates = [⟨0⟩, ⟨1⟩, ⟨2⟩] ∧
    (Lookup.combineAll mixedCandidates ⟨2⟩).Ensures env (env.Collects ⟨2⟩ mixedCandidates) ∧
    ∃ best, ∀ cs', (∀ c, c ∈ cs' ↔ c ∈ mixedCandidates) →
      (Lookup.combineAll cs' ⟨2⟩).Ensures env (env.Sums mixedCandidates best) ∧
      (Lookup.fold cs' ⟨2⟩).Ensures env (env.Sums mixedCandidates best) := by
  have hrun : (develop .standard Request.RespectsPaths overlappingSplits .empty).any (fun env =>
      decide (2 < env.modules.size) && env.sharePath (bindings mixedCandidates) &&
        (env.allParts mixedCandidates == [⟨0⟩, ⟨1⟩, ⟨2⟩])) = true := by
    decide +kernel
  obtain ⟨env, henv, hshape⟩ := (Option.any_eq_true _ _).mp hrun
  simp only [Bool.and_eq_true, decide_eq_true_eq, beq_iff_eq] at hshape
  obtain ⟨⟨hmodules, hshare⟩, hparts⟩ := hshape
  have hdev := develops_of_develop .refl henv
  have hm : ∃ record, env.module ⟨2⟩ = .ok record := module_of_lt_size hmodules
  have hb := sharePath_iff.mp hshare
  exact ⟨env, hdev, hm, hb, hparts, combineAll_agrees hdev hm hb⟩

end Environment

end SplitPackages
