import SplitPackages.Proofs.RegisteredChild
import SplitPackages.Proofs.Repetition

/-!
# What a search finds

What a search answers is determined by what the modules of the split see after
it, in their order: nothing, the one binding that they see, or a new split of
the bindings that they see. `search_finds` says so, and that a valid answer is
contained in what is stored, whatever the caches held and on whose behalf the
search is done.

A module gives its view once and keeps it, so the views that the search went by
are those that the modules have in the end (`Searches.sees_after`). Neither
merging nor registering changes a view or the parts of a binding.
-/

namespace SplitPackages

namespace OrderedSet

variable {α : Type} [DecidableEq α] {as : List α} {a : α}

theorem toList_ofList_eq_singleton (ha : a ∈ as) (hall : ∀ b ∈ as, b = a) :
    (ofList as).toList = [a] := by
  have hnd : [a].Nodup := by simp
  refine List.perm_singleton.mp ((List.perm_ext_iff_of_nodup (nodup _) hnd).mpr fun b => ?_)
  rw [← mem_def, mem_ofList, List.mem_singleton]
  exact ⟨hall b, fun e => e ▸ ha⟩

end OrderedSet

namespace Environment

/-- A split of the bindings that was not there before and that no module sees. -/
structure NewlyMerged (env : Environment) (home : ModuleId) (path : Path) (ps : List PackageId)
    (split : PackageId) (after : Environment) : Prop where
  unknown : ∀ r, env.package split ≠ .ok r
  unseen : ∀ k other, after.seen k other ≠ some (.package split)
  record : ∃ r, after.package split = .ok r ∧ r.isSplit = true ∧ r.home = home ∧ r.path = path ∧
    r.incarnations = (OrderedSet.ofList (ps.flatMap after.parts)).toList

/-- What a search below the split `s` answers and leaves, if the modules of the split then see the
bindings `ps`. -/
structure FindsBelow (env : Environment) (s : PackageId) (home : ModuleId) (path : Path)
    (name : String) (ps : List PackageId) (answer : Option PackageId) (after : Environment) :
    Prop where
  missed : ps = [] → answer = none ∧ after.entry s name = some .notFound
  same : ∀ q ∈ ps, (∀ p ∈ ps, p = q) → answer = some q
  merged : ∀ p ∈ ps, ∀ q ∈ ps, p ≠ q →
    ∃ split, answer = some split ∧ env.NewlyMerged home path ps split after
  /-- A valid answer is part of what is stored. -/
  stored : ∀ q, answer = some q → after.valid q = true →
    ∃ e, after.entry s name = some (.package e) ∧ after.valid e = true ∧
      ∀ i ∈ after.parts q, i ∈ after.parts e

variable {env asked merged after : Environment} {p q s : PackageId} {m home : ModuleId}
  {r : Package} {path : Path} {name : String} {refs : List Ref} {ps : List PackageId}
  {answer : Option PackageId}

/-! ## The last steps -/

theorem MergesFound.of_distinct (h : env.MergesFound home path ps answer after) (hp : p ∈ ps)
    (hq : q ∈ ps) (hne : p ≠ q) :
    answer = some ⟨env.packages.size⟩ ∧ ∃ parent, env.Allots home path parent ps after := by
  cases h with
  | nothing => cases hp
  | one => exact absurd ((List.mem_singleton.mp hp).trans (List.mem_singleton.mp hq).symm) hne
  | split ha => exact ⟨rfl, _, ha⟩

namespace Concludes

theorem keeps (h : env.Concludes s r name m answer after) : env.Keeps after := by
  cases h with
  | missed hl => exact hl.keeps
  | found hen => exact hen.keeps

theorem seen (h : env.Concludes s r name m answer after) (k : ModuleId) (other : Path) :
    after.seen k other = env.seen k other := by
  cases h with
  | missed hl => exact hl.seen k other
  | found hen => simp only [Environment.seen, Environment.module, hen.modules]

theorem stored (h : env.Concludes s r name m (some q) after) (hc : env.Coherent)
    (hr : env.package s = .ok r) (hs : r.isSplit = true) (hq : env.Binds q (.sub r.path name))
    (hv : after.valid q = true) : ∃ e, after.entry s name = some (.package e) ∧
      after.valid e = true ∧ ∀ i ∈ after.parts q, i ∈ after.parts e := by
  have hk := h.keeps
  obtain ⟨rq, hrq, hpath⟩ := id hq
  rw [hk.valid hrq, valid_of_package hrq] at hv
  cases h with
  | found hen =>
    obtain ⟨e, he, hve, hparts⟩ := hen.stored hc hr hs hrq hpath hv
    refine ⟨e, he, hve, fun i hi => (hparts i).mpr (.inl ?_)⟩
    exact (hen.mem_parts hc hr hq).mpr (.inl (hk.parts hrq ▸ hi))

end Concludes

/-! ## The whole search -/

namespace Searches

theorem keeps (h : env.Searches s r name m refs asked merged answer after) (hc : env.Coherent)
    (hr : env.package s = .ok r) : asked.Keeps after := by
  obtain ⟨r', -, hend⟩ := h.concludes
  exact (h.grows hc hr).keeps.trans hend.keeps

theorem seen (h : env.Searches s r name m refs asked merged answer after) (hc : env.Coherent)
    (hr : env.package s = .ok r) (k : ModuleId) (other : Path) :
    after.seen k other = asked.seen k other := by
  obtain ⟨r', -, hend⟩ := h.concludes
  exact (hend.seen k other).trans ((h.grows hc hr).seen k other)

theorem sees_after (h : env.Searches s r name m refs asked merged answer after) (hc : env.Coherent)
    (hr : env.package s = .ok r) : after.SeesAt (.sub r.path name) (env.members s) refs :=
  h.sees.imp fun k _ hs => (h.seen hc hr k _).trans hs

theorem binds (h : env.Searches s r name m refs asked merged answer after) (hc : env.Coherent)
    (hp : Ref.package p ∈ refs) : asked.Binds p (.sub r.path name) := by
  obtain ⟨k, -, hk⟩ := h.sees.mem_iff.mp hp
  exact (h.changes.coherent hc).seen hk

theorem untainted (h : env.Searches s r name m refs asked merged answer after) (hc : env.Coherent)
    (hr : env.package s = .ok r) : after.untainted refs = asked.untainted refs :=
  (h.keeps hc hr).untainted fun _ hp => (h.binds hc hp).there

/-- What is made of different bindings is a new split. -/
theorem newlyMerged (h : env.Searches s r name m refs asked merged answer after) (hc : env.Coherent)
    (hr : env.package s = .ok r) (hp : p ∈ after.untainted refs) (hq : q ∈ after.untainted refs)
    (hne : p ≠ q) : ∃ split, answer = some split ∧
      env.NewlyMerged r.home (.sub r.path name) (after.untainted refs) split after := by
  have hparts : ∀ x ∈ asked.untainted refs, after.parts x = asked.parts x := fun x hx => by
    obtain ⟨rx, hrx⟩ := (h.binds hc (mem_untainted.mp hx).2).there
    exact (h.keeps hc hr).parts hrx
  rw [h.untainted hc hr] at hp hq ⊢
  obtain ⟨rfl, parent, ha⟩ := h.merges.of_distinct (OrderedSet.mem_ofList.mpr hp)
    (OrderedSet.mem_ofList.mpr hq) hne
  -- nothing that was there when the modules had been asked is the new split
  have hnew := ha.builds.fresh
  obtain ⟨r', -, hend⟩ := h.concludes
  obtain ⟨rs, hrs, e⟩ := hend.keeps.packages ha.record
  refine ⟨_, rfl, fun x hx => ?_, fun k other hk => ?_, rs, hrs,
    (Package.isSplit_eq_of_bare e).trans rfl, (Package.home_eq_of_bare e).trans rfl,
    (Package.path_eq_of_bare e).trans rfl, ?_⟩
  · obtain ⟨x', hx', -⟩ := h.changes.keeps.packages hx
    exact hnew x' hx'
  · rw [h.seen hc hr] at hk
    obtain ⟨x, hx, -⟩ := (h.changes.coherent hc).seen hk
    exact hnew x hx
  · rw [Package.incarnations_eq_of_bare e, List.flatMap_congr hparts]
    have hset := OrderedSet.insertMany_flatMap_ofList asked.parts .empty (asked.untainted refs)
    exact congrArg OrderedSet.toList hset

theorem finds (h : env.Searches s r name m refs asked merged answer after) (hc : env.Coherent)
    (hr : env.package s = .ok r) (hs : r.isSplit = true) :
    env.FindsBelow s r.home (.sub r.path name) name (after.untainted refs) answer after := by
  obtain ⟨r', hr', hend⟩ := h.concludes
  have hmerges := h.merges
  refine ⟨fun hnil => ?_, fun q hq hall => ?_,
    fun p hp q hq hne => h.newlyMerged hc hr hp hq hne, ?_⟩
  · rw [h.untainted hc hr] at hnil
    rw [hnil] at hmerges
    cases hmerges
    cases hend with
    | missed hl => exact ⟨rfl, by rw [hl.entry, if_pos ⟨rfl, rfl⟩]⟩
  · rw [h.untainted hc hr] at hq hall
    rw [OrderedSet.toList_ofList_eq_singleton hq hall] at hmerges
    cases hmerges
    rfl
  · rintro q rfl hv
    have hgrows := h.grows hc hr
    have hasked := h.changes.coherent hc
    obtain ⟨r1, hr1, e⟩ := (h.changes.keeps.trans hgrows.keeps).packages hr
    cases package_unique hr' hr1
    refine hend.stored (hgrows.coherent hasked) hr' ((Package.isSplit_eq_of_bare e).trans hs) ?_ hv
    exact Package.path_eq_of_bare e ▸ h.merges.binds ((h.contributed hr).binds hasked)

end Searches

variable {config : Config}

/-- In every state that requests reach which respect paths, what a search below a split answers and
stores is determined by what the modules of the split see after it. -/
theorem search_finds (h : Environment.empty.Develops config Request.RespectsPaths env)
    (hr : env.package s = .ok r) (hs : r.isSplit = true) (name : String) (m : ModuleId) :
    (Lookup.search s name m).Ensures env fun answer after => ∃ refs,
      List.Forall₂ (fun d ref => (Lookup.view d (.sub r.path name)).Gives after ref after)
        r.declaring refs ∧
      env.FindsBelow s r.home (.sub r.path name) name (after.untainted refs) answer after := by
  have hc := (h.orderly (orderly_empty _)).coherent trivial
  refine (Lookup.search_searches hc hr hs name m).mono ?_
  rintro answer after ⟨refs, asked, merged, h⟩
  refine ⟨refs, ?_, h.finds hc hr hs⟩
  rw [← members_of_package hr]
  exact (h.sees_after hc hr).imp fun d ref hseen => Lookup.view_known hseen

/-- One of the four modules sees a problem below the package, and the others each see what they
declare there themselves. -/
theorem search_finds_sharedBesideProblem : ∃ env r,
    Environment.empty.Develops .standard Request.RespectsPaths env ∧
    env.package ⟨12⟩ = .ok r ∧ r.isSplit = true ∧ r.declaring = [⟨2⟩, ⟨3⟩, ⟨0⟩, ⟨1⟩] ∧
    ∃ after, (Lookup.search ⟨12⟩ "bar" ⟨3⟩).Gives env (some ⟨13⟩) after ∧
      after.parts ⟨13⟩ = [⟨11⟩, ⟨2⟩, ⟨5⟩] ∧ ∃ refs,
        List.Forall₂ (fun d ref => (Lookup.view d (.sub r.path "bar")).Gives after ref after)
          r.declaring refs ∧
        env.FindsBelow ⟨12⟩ r.home (.sub r.path "bar") "bar" (after.untainted refs)
          (some ⟨13⟩) after := by
  have hrun : (develop .standard Request.RespectsPaths sharedBesideProblem .empty).any (fun env =>
      (env.package ⟨12⟩).toOption.any fun r =>
        (Lookup.search ⟨12⟩ "bar" ⟨3⟩ ⟨env, .empty⟩).toOption.any fun result =>
          r.isSplit ∧ r.declaring = [⟨2⟩, ⟨3⟩, ⟨0⟩, ⟨1⟩] ∧ result.1 = some ⟨13⟩ ∧
            result.2.env.parts ⟨13⟩ = [⟨11⟩, ⟨2⟩, ⟨5⟩]) = true := by
    decide +kernel
  obtain ⟨env, henv, hany⟩ := (Option.any_eq_true _ _).mp hrun
  obtain ⟨r, hr, hany⟩ := (Option.any_eq_true _ _).mp hany
  obtain ⟨⟨answer, last⟩, hresult, hshape⟩ := (Option.any_eq_true _ _).mp hany
  obtain ⟨hs, hdeclaring, rfl, hparts⟩ := of_decide_eq_true hshape
  have hr := package_of_toOption hr
  have hdev := develops_of_develop .refl henv
  obtain ⟨answer, after, hg, hfinds⟩ := search_finds hdev hr hs "bar" ⟨3⟩
  obtain ⟨j, hj⟩ := hg .empty
  rw [hj] at hresult
  cases hresult
  exact ⟨env, r, hdev, hr, hs, hdeclaring, after, hg, hparts, hfinds⟩

end Environment

end SplitPackages
