import SplitPackages.Proofs.Questions

/-!
# Which binding of a split a client should see

The tally of a split skips incarnations, counts others and keeps the last of
each kind, and may stop on the way. `viewFor_split` says without that walk what
it comes to: the client's own incarnation if it prefers that, the first one if
there are several; otherwise the incarnations in named modules and those in
unnamed ones that it can access decide, two lists in the order of the split
(`choice`). Only those count that have a compilation unit, so any answer but the
split itself has one, and the client can access it unless it is its own.
-/

namespace SplitPackages

/-- What a client should see of a split of which these incarnations are open to it, in named
modules and in unnamed ones. -/
def choice (ignoreUnnamed : Bool) (split : PackageId) :
    (named unnamed : List PackageId) → Option PackageId
  | [], unnamed => unnamed.getLast?
  | [only], unnamed => if ignoreUnnamed = true ∨ unnamed = [] then some only else some split
  | _ :: _ :: _, _ => some split

/-- The answer of a tally depends on how many named incarnations it has met and on the last of each
kind; that is enough to choose among all of them. -/
theorem Tally.answer_eq_choice {t : Tally} {named unnamed : List PackageId}
    (hcount : t.named = named.length) (hnamed : t.lastNamed = named.getLast?)
    (hunnamed : t.lastUnnamed = unnamed.getLast?) (ignoreUnnamed : Bool) (split : PackageId) :
    t.answer ignoreUnnamed split = choice ignoreUnnamed split named unnamed := by
  unfold answer
  rw [hcount, hnamed, hunnamed]
  match named with
  | [] => rfl
  | [only] =>
    show (if ignoreUnnamed || unnamed.getLast?.isNone then some only else some split) = _
    have hnone : unnamed.getLast?.isNone = true ↔ unnamed = [] := by
      rw [Option.isNone_iff_eq_none, List.getLast?_eq_none_iff]
    simp only [choice, Bool.or_eq_true, hnone]
  | _ :: _ :: _ => rfl

theorem mem_of_choice {ignoreUnnamed : Bool} {split i : PackageId} {named unnamed : List PackageId}
    (h : choice ignoreUnnamed split named unnamed = some i) :
    i = split ∨ i ∈ named ∨ i ∈ unnamed := by
  match named with
  | [] => exact .inr (.inr (List.mem_of_getLast? h))
  | [only] =>
    simp only [choice] at h
    split at h
    · cases h
      exact .inr (.inl (List.mem_singleton_self _))
    · cases h
      exact .inl rfl
  | _ :: _ :: _ =>
    cases h
    exact .inl rfl

namespace Environment

variable {env : Environment} {config : Config} {s i : PackageId} {client : ModuleId} {r : Package}
  {preferOwn unnamed : Bool}

/-- What a client should see of a split: its own incarnation if that is preferred, or else what is
chosen from those that it can access. -/
def shown (env : Environment) (ignoreUnnamed : Bool) (s : PackageId) (client : ModuleId)
    (preferOwn : Bool) (ps : List PackageId) : Option PackageId :=
  (ps.find? (env.prefersOwn client preferOwn)).or
    (choice ignoreUnnamed s (ps.filter (env.showsUnit client false))
      (ps.filter (env.showsUnit client true)))

/-- The binding is worth showing: it has a compilation unit, and the client can access it or has
declared it. -/
def Worthy (env : Environment) (client : ModuleId) (i : PackageId) : Prop :=
  ∃ r, env.package i = .ok r ∧ r.hasUnit = true ∧
    (env.canAccess client i = .ok true ∨ r.home = client)

theorem worthy_of_prefersOwn (h : env.prefersOwn client preferOwn i = true) :
    env.Worthy client i := by
  unfold prefersOwn at h
  split at h
  · next r hr =>
    simp only [Bool.and_eq_true, decide_eq_true_eq] at h
    exact ⟨r, hr, h.1, .inr h.2.2⟩
  · cases h

theorem worthy_of_showsUnit (h : env.showsUnit client unnamed i = true) : env.Worthy client i := by
  unfold showsUnit at h
  split at h
  · next r hr hacc =>
    split at h
    · rw [Bool.and_eq_true] at h
      exact ⟨r, hr, h.1, .inl hacc⟩
    · cases h
  · cases h

theorem worthy_of_shown {ignoreUnnamed : Bool} {ps : List PackageId}
    (h : env.shown ignoreUnnamed s client preferOwn ps = some i) : i = s ∨ env.Worthy client i := by
  unfold shown at h
  rcases Option.or_eq_some_iff.mp h with hown | ⟨-, hchosen⟩
  · exact .inr (worthy_of_prefersOwn (List.find?_some hown))
  · rcases mem_of_choice hchosen with rfl | hnamed | hunnamed
    · exact .inl rfl
    · exact .inr (worthy_of_showsUnit (List.mem_filter.mp hnamed).2)
    · exact .inr (worthy_of_showsUnit (List.mem_filter.mp hunnamed).2)

theorem Closed.viewFor_gives (hc : env.Closed) (hm : ∃ record, env.module client = .ok record)
    (hs : env.package s = .ok r) (hsplit : r.isSplit = true) (ignoreUnnamed preferOwn : Bool) :
    (Lookup.viewFor ignoreUnnamed s client preferOwn).Gives env
      (env.shown ignoreUnnamed s client preferOwn r.incarnations) env := by
  have htally := hc.tally_eq hm preferOwn .empty fun i hi => hc.incarnations hs hi
  unfold Lookup.viewFor
  refine Lookup.Gives.bind (Lookup.Gives.ask hs) ?_
  rw [if_pos hsplit]
  refine Lookup.Gives.bind (Lookup.Gives.ask htally) ?_
  unfold shown
  cases r.incarnations.find? (env.prefersOwn client preferOwn) with
  | some own => exact Lookup.Gives.pure (some own)
  | none =>
    rw [Option.none_or]
    refine Lookup.Gives.bind (Lookup.Gives.note _) ?_
    rw [Tally.answer_eq_choice (Nat.zero_add _) Option.or_none Option.or_none ignoreUnnamed s]
    exact Lookup.Gives.pure _

/-- In every state that requests reach, what a client should see of a split is its own incarnation
if it prefers that and has one with a compilation unit, or else what is chosen from those that it
can access. Any answer but the split has a compilation unit and is accessible or the client's own.
-/
theorem viewFor_split (h : Environment.empty.Reaches config (fun _ => true) env)
    (hm : client.index < env.modules.size) (hs : env.package s = .ok r) (hsplit : r.isSplit = true)
    (ignoreUnnamed preferOwn : Bool) :
    (Lookup.viewFor ignoreUnnamed s client preferOwn).Gives env
        (env.shown ignoreUnnamed s client preferOwn r.incarnations) env ∧
      ∀ i, env.shown ignoreUnnamed s client preferOwn r.incarnations = some i →
        i = s ∨ env.Worthy client i := by
  have ho := h.orderly (orderly_empty .free)
  constructor
  · exact ho.closed.viewFor_gives (module_of_lt_size hm) hs hsplit ignoreUnnamed preferOwn
  · intro i hi
    exact worthy_of_shown hi

/-- Five modules have a package, the second and the third of them unnamed, and the fifth only
encloses another one with it. It reads them all, and the first exports the package. -/
def severalKinds : List Request :=
  [.addModule "a" false, .addModule "u" true, .addModule "v" true, .addModule "b" false,
    .addModule "c" false, .declarePackage ⟨0⟩ (.top "foo"), .declarePackage ⟨1⟩ (.top "foo"),
    .declarePackage ⟨2⟩ (.top "foo"), .declarePackage ⟨3⟩ (.top "foo"),
    .declarePackage ⟨4⟩ (.sub (.top "foo") "bar"), .addExport ⟨0⟩ (.top "foo"),
    .addRead ⟨4⟩ ⟨0⟩, .addRead ⟨4⟩ ⟨1⟩, .addRead ⟨4⟩ ⟨2⟩, .addRead ⟨4⟩ ⟨3⟩,
    .combineAll [some (.package ⟨4⟩), some (.package ⟨3⟩), some (.package ⟨1⟩),
      some (.package ⟨0⟩), some (.package ⟨2⟩)] ⟨4⟩]

theorem viewFor_split_severalKinds :
    ∃ env r, Environment.empty.Reaches .standard (fun _ => true) env ∧ 4 < env.modules.size ∧
      env.package ⟨6⟩ = .ok r ∧ r.isSplit = true ∧
      r.incarnations = [⟨4⟩, ⟨3⟩, ⟨1⟩, ⟨0⟩, ⟨2⟩] ∧
      (Lookup.viewFor true ⟨6⟩ ⟨4⟩ true).Gives env (some ⟨0⟩) env ∧
      ∀ i, some ⟨0⟩ = some i → i = ⟨6⟩ ∨ env.Worthy ⟨4⟩ i := by
  have hrun : (replay .standard (fun _ => true) severalKinds .empty).any (fun env =>
      4 < env.modules.size ∧ (env.package ⟨6⟩).toOption.any (fun r =>
        r.isSplit ∧ r.incarnations = [⟨4⟩, ⟨3⟩, ⟨1⟩, ⟨0⟩, ⟨2⟩]) ∧
      env.shown true ⟨6⟩ ⟨4⟩ true [⟨4⟩, ⟨3⟩, ⟨1⟩, ⟨0⟩, ⟨2⟩] = some ⟨0⟩) = true := by
    decide +kernel
  obtain ⟨env, henv, hall⟩ := (Option.any_eq_true _ _).mp hrun
  obtain ⟨hsize, hany, hshown⟩ := of_decide_eq_true hall
  obtain ⟨r, hr, hrec⟩ := (Option.any_eq_true _ _).mp hany
  obtain ⟨hsplit, hincs⟩ := of_decide_eq_true hrec
  have hr := package_of_toOption hr
  have hreach := reaches_of_replay henv
  have hview := viewFor_split hreach hsize hr hsplit true true
  rw [hincs, hshown] at hview
  exact ⟨env, r, hreach, hsize, hr, hsplit, hincs, hview⟩

end Environment

end SplitPackages
