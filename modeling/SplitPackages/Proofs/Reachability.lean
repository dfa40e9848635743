import Mathlib.Algebra.BigOperators.Group.List.Basic
import SplitPackages.Proofs.Coherence

/-!
# Who reads whom

`Implies` follows the reads that extend to every reader. `reads_iff`: the
search that decides readability finds exactly the modules that a direct read,
followed by such reads, leads to.

The search ends on every graph, cycles or not, since each turn takes one from
`turnsLeft`: a module that has been visited is dropped, and one that has not
brings just as many modules into the queue as no longer have to come
(`turnsLeft_visit`). So it is never out of turns (`reaches_ne_none`).
-/

namespace SplitPackages.Environment

/-- A chain of reads that each extend to every reader. -/
inductive Implies (env : Environment) : ModuleId → ModuleId → Prop
  | refl (m : ModuleId) : Implies env m m
  | step {m k target : ModuleId} {record : Module} : env.module m = .ok record →
      k ∈ record.impliedReads → Implies env k target → Implies env m target

variable {env : Environment} {m k target : ModuleId} {visited queue : List ModuleId}
  {record : Module} {turns : Nat}

/-! ## Turns -/

theorem mem_moduleIds_of_module (h : env.module m = .ok record) : m ∈ env.moduleIds :=
  List.mem_map.mpr ⟨m.index, List.mem_range.mpr (lt_size_of_module h), rfl⟩

theorem nodup_moduleIds (env : Environment) : env.moduleIds.Nodup :=
  List.Pairwise.map _ (fun _ _ hne e => hne (congrArg ModuleId.index e)) List.nodup_range

theorem turnsLeft_skip (visited queue : List ModuleId) :
    env.turnsLeft visited (m :: queue) = env.turnsLeft visited queue + 1 := rfl

/-- A visit moves what the module implies from the modules to come into the queue. -/
theorem turnsLeft_visit (hm : env.module m = .ok record) (hnew : m ∉ visited) :
    env.turnsLeft visited (m :: queue) =
      env.turnsLeft (m :: visited) (queue ++ record.impliedReads) + 1 := by
  have hmem : m ∈ env.moduleIds.filter (· ∉ visited) :=
    List.mem_filter.mpr ⟨mem_moduleIds_of_module hm, decide_eq_true hnew⟩
  have hrest : env.moduleIds.filter (· ∉ m :: visited) =
      (env.moduleIds.filter (· ∉ visited)).erase m := by
    rw [List.Nodup.erase_eq_filter (env.nodup_moduleIds.filter _), List.filter_filter]
    refine List.filter_congr fun k _ => ?_
    simp only [List.mem_cons, not_or, Bool.decide_and, decide_not]
    rfl
  have himplied : env.impliedReads m = record.impliedReads := by
    simp only [impliedReads, hm]
  have hlength := ((List.perm_cons_erase hmem).flatMap_right env.impliedReads).length_eq
  rw [List.flatMap_cons, himplied, List.length_append] at hlength
  simp only [turnsLeft, hrest, List.length_append, List.length_cons]
  omega

/-- A search that may take all turns that are left does not run out of them. -/
theorem reaches_ne_none (env : Environment) (target : ModuleId) :
    ∀ (turns : Nat) (visited queue : List ModuleId), env.turnsLeft visited queue ≤ turns →
      env.reaches target turns visited queue ≠ .ok none
  | _, _, [], _ => by
    simp only [reaches]
    rintro ⟨⟩
  | 0, visited, m :: queue, hturns => by
    rw [turnsLeft_skip] at hturns
    omega
  | turns + 1, visited, m :: queue, hturns => by
    simp only [reaches]
    split
    · rintro ⟨⟩
    split
    · rw [turnsLeft_skip] at hturns
      exact reaches_ne_none env target turns _ _ (by omega)
    · next hnew =>
      cases hm : env.module m with
      | error e => rintro ⟨⟩
      | ok record =>
        rw [turnsLeft_visit hm hnew] at hturns
        exact reaches_ne_none env target turns _ _ (by omega)

theorem Closed.reaches_ends (h : env.Closed) (hq : ∀ m ∈ queue, ∃ record, env.module m = .ok record)
    (hturns : env.turnsLeft visited queue ≤ turns) (target : ModuleId) :
    ∃ found, env.reaches target turns visited queue = .ok (some found) := by
  obtain ⟨found, hfound⟩ := h.reaches_ok target turns visited queue hq
  cases found with
  | none => exact absurd hfound (reaches_ne_none env target turns visited queue hturns)
  | some found => exact ⟨found, hfound⟩

/-- The search for what a module reads has an answer by the time that it has followed every read
once: it has found its target or has nothing left in the queue. -/
def Finishes (env : Environment) : Prop :=
  ∀ m record target turns, env.module m = .ok record →
    env.turnsLeft [] record.reads.keys ≤ turns →
      ∃ found, env.reaches target turns [] record.reads.keys = .ok (some found)

theorem Closed.finishes (h : env.Closed) : env.Finishes :=
  fun _ _ target _ hm hturns => h.reaches_ends (fun _ hk => h.reads hm hk) hturns target

/-! ## What is found -/

/-- The visited modules are not the target, and what they imply has been visited or is in the
queue. -/
def Followed (env : Environment) (target : ModuleId) (visited queue : List ModuleId) : Prop :=
  ∀ m ∈ visited, m ≠ target ∧
    ∀ record, env.module m = .ok record → ∀ k ∈ record.impliedReads, k ∈ visited ∨ k ∈ queue

/-- A chain from a visited module to the target passes through the queue. -/
theorem Implies.exists_queue (h : env.Implies m target) (hf : env.Followed target visited queue)
    (hm : m ∈ visited) : ∃ q ∈ queue, env.Implies q target := by
  induction h with
  | refl m => exact absurd rfl (hf m hm).1
  | @step m k target record hr hk hrest ih =>
    rcases (hf m hm).2 record hr k hk with hk | hk
    · exact ih hf hk
    · exact ⟨k, hk, hrest⟩

theorem Followed.skip (hf : env.Followed target visited (m :: queue)) (hm : m ∈ visited) :
    env.Followed target visited queue := by
  refine fun i hi => ⟨(hf i hi).1, fun record hr k hk => ?_⟩
  rcases (hf i hi).2 record hr k hk with hk | hk
  · exact .inl hk
  · rcases List.mem_cons.mp hk with rfl | hk
    · exact .inl hm
    · exact .inr hk

theorem Followed.visit (hf : env.Followed target visited (m :: queue)) (hne : m ≠ target)
    (hm : env.module m = .ok record) :
    env.Followed target (m :: visited) (queue ++ record.impliedReads) := by
  intro i hi
  rcases List.mem_cons.mp hi with rfl | hi
  · refine ⟨hne, fun record' hr' k hk => .inr (List.mem_append_right _ ?_)⟩
    rw [hm] at hr'
    cases hr'
    exact hk
  · refine ⟨(hf i hi).1, fun record' hr' k hk => ?_⟩
    rcases (hf i hi).2 record' hr' k hk with hk | hk
    · exact .inl (List.mem_cons_of_mem _ hk)
    · rcases List.mem_cons.mp hk with rfl | hk
      · exact .inl List.mem_cons_self
      · exact .inr (List.mem_append_left _ hk)

/-- The search, as long as nothing has been missed, finds what the queue leads to. -/
theorem reaches_found : ∀ {turns : Nat} {visited queue : List ModuleId} {found : Bool},
    env.reaches target turns visited queue = .ok (some found) →
    env.Followed target visited queue →
    (found = true ↔ ∃ q ∈ queue, env.Implies q target)
  | _, _, [], found, h, _ => by
    simp only [reaches] at h
    cases h
    simp
  | 0, _, _ :: _, _, h, _ => by
    simp only [reaches] at h
    cases h
  | turns + 1, visited, m :: queue, found, h, hf => by
    simp only [reaches] at h
    split at h
    · next e =>
      cases h
      exact ⟨fun _ => ⟨m, List.mem_cons_self, e ▸ .refl m⟩, fun _ => rfl⟩
    · next hne =>
      split at h
      · next hm =>
        rw [reaches_found h (hf.skip hm)]
        constructor
        · rintro ⟨q, hq, hi⟩
          exact ⟨q, List.mem_cons_of_mem _ hq, hi⟩
        · rintro ⟨q, hq, hi⟩
          rcases List.mem_cons.mp hq with rfl | hq
          · exact hi.exists_queue (hf.skip hm) hm
          · exact ⟨q, hq, hi⟩
      · cases hm : env.module m with
        | error e => rw [hm] at h; cases h
        | ok record =>
          rw [hm] at h
          have hf' := hf.visit hne hm
          rw [reaches_found h hf']
          constructor
          · rintro ⟨q, hq, hi⟩
            rcases List.mem_append.mp hq with hq | hq
            · exact ⟨q, List.mem_cons_of_mem _ hq, hi⟩
            · exact ⟨m, List.mem_cons_self, .step hm hq hi⟩
          · rintro ⟨q, hq, hi⟩
            rcases List.mem_cons.mp hq with rfl | hq
            · exact hi.exists_queue hf' List.mem_cons_self
            · exact ⟨q, List.mem_append_left _ hq, hi⟩

theorem Closed.canRead_ok (h : env.Closed) (hm : env.module m = .ok record) (target : ModuleId) :
    ∃ b, env.canRead m target = .ok b := by
  simp only [Environment.canRead]
  split
  · exact ⟨true, rfl⟩
  · rw [hm]
    simp only [bind, Except.bind]
    split
    · exact ⟨true, rfl⟩
    · obtain ⟨found, hfound⟩ := h.finishes m record target _ hm (Nat.le_refl _)
      rw [hfound]
      exact ⟨found, rfl⟩

/-- A module reads itself, what an unnamed module reads is everything, and other modules read what
their direct reads imply. -/
theorem Closed.reads_iff (hc : env.Closed) (hr : env.module m = .ok record) :
    env.Reads m k ↔ m = k ∨ record.unnamed = true ∨
      ∃ d ∈ record.reads.keys, env.Implies d k := by
  unfold Reads Environment.canRead
  by_cases hmk : m = k
  · rw [if_pos hmk]
    exact ⟨fun _ => .inl hmk, fun _ => rfl⟩
  rw [if_neg hmk, hr]
  simp only [bind, Except.bind, hmk, false_or]
  by_cases hu : record.unnamed = true
  · rw [if_pos hu]
    exact ⟨fun _ => .inl hu, fun _ => rfl⟩
  · obtain ⟨found, hfound⟩ := hc.finishes m record k _ hr (Nat.le_refl _)
    have hstart : env.Followed k [] record.reads.keys := fun _ h => nomatch h
    rw [if_neg hu, or_iff_right hu, ← reaches_found hfound hstart, hfound]
    exact ⟨fun h => Except.ok.inj h, fun h => congrArg Except.ok h⟩

end SplitPackages.Environment
