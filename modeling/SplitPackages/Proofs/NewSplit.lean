import SplitPackages.Proofs.Wrappers

/-!
# The exact effect of making a split

A split is made empty, and then bindings are added to it one after another.
`Allots` says what holds in between as well as in the end: which record the split
has, and that of the other records only those of its parts have changed, which
list the split among those around them. Each step of making a split keeps it
(`Allots.add`), and it is all that callers need to know (`newSplit_allots`,
`Allots.addAll`). In a coherent environment what is made is sound
(`Allots.grows`).
-/

namespace SplitPackages

namespace Environment

/-- One split of the bindings `ps` was made. Of what was there before only their parts differ: they
list the split among those around them. -/
structure Allots (env : Environment) (primary : ModuleId) (path : Path)
    (parent : Option PackageId) (ps : List PackageId) (after : Environment) : Prop where
  modules : after.modules = env.modules
  types : after.types = env.types
  size : after.packages.size = env.packages.size + 1
  record : after.package ⟨env.packages.size⟩ =
    .ok (splitRecord path parent primary (ps.flatMap env.members) (ps.flatMap env.parts))
  others : ∀ p, p ≠ ⟨env.packages.size⟩ → after.package p =
    if p ∈ ps.flatMap env.parts then Package.wrap ⟨env.packages.size⟩ <$> env.package p
    else env.package p

variable {env mid after : Environment} {i p q : PackageId} {primary : ModuleId} {r : Package}
  {path : Path} {parent : Option PackageId} {ps : List PackageId}

theorem allots_push (env : Environment) (primary : ModuleId) (path : Path)
    (parent : Option PackageId) :
    env.Allots primary path parent []
      { env with packages := env.packages.push (splitRecord path parent primary [] []) } where
  modules := rfl
  types := rfl
  size := Array.size_push _
  record := by rw [package_push, if_pos rfl, List.flatMap_nil, List.flatMap_nil]
  others p hne := by
    rw [package_push, if_neg fun e => hne (congrArg PackageId.mk e), List.flatMap_nil,
      if_neg List.not_mem_nil]

namespace Allots

/-- Of what was there only wrappers differ. -/
theorem old (h : env.Allots primary path parent ps after) (hr : env.package p = .ok r) :
    ∃ r', after.package p = .ok r' ∧ r'.unwrapped = r.unwrapped := by
  have hne : p ≠ ⟨env.packages.size⟩ := by
    rintro rfl
    exact Nat.lt_irrefl _ (lt_size_of_package hr)
  rw [h.others p hne, hr]
  split
  · exact ⟨_, rfl, Package.unwrapped_mapPlain r _⟩
  · exact ⟨r, rfl, rfl⟩

theorem builds (h : env.Allots primary path parent ps after) :
    env.Builds ⟨env.packages.size⟩
      (splitRecord path parent primary (ps.flatMap env.members) (ps.flatMap env.parts)) after where
  modules := h.modules
  types := h.types
  fresh r0 h0 := Nat.lt_irrefl _ (lt_size_of_package h0)
  old := h.old
  record := h.record
  only {p r'} hp := by
    by_cases e : p = ⟨env.packages.size⟩
    · exact .inl e
    · refine .inr (package_of_lt_size ?_)
      have hlt := lt_size_of_package hp
      rw [h.size] at hlt
      exact Nat.lt_of_le_of_ne (Nat.le_of_lt_succ hlt) fun e' => e (congrArg PackageId.mk e')

/-- What is made of bindings of one path is a sound split of the path. -/
theorem grows (h : env.Allots primary path parent ps after) (hc : env.Coherent)
    (hm : ∃ record, env.module primary = .ok record) (hps : ∀ p ∈ ps, env.Binds p path) :
    env.Grows after :=
  h.builds.grows (newSplit_splitRecord hc hm hps)

theorem mem_parts (h : env.Allots primary path parent ps after) :
    i ∈ after.parts ⟨env.packages.size⟩ ↔ ∃ p ∈ ps, i ∈ env.parts p := by
  rw [parts_of_package h.record, ← List.mem_flatMap]
  exact OrderedSet.mem_ofList

/-- One more binding is added to the split. -/
theorem add (h : env.Allots primary path parent ps mid) (hc : env.Coherent)
    (hr : env.package q = .ok r) :
    ∃ after, Update.addToSplit ⟨env.packages.size⟩ q mid = .ok ((), after) ∧
      env.Allots primary path parent (ps ++ [q]) after := by
  obtain ⟨ro, hro, e⟩ := h.old hr
  have e := Package.bare_eq_of_unwrapped e
  have hparts := contributors_of_bare hr e
  have hmembers := declaring_of_bare hr e
  obtain ⟨after, hafter, hj⟩ := addToSplit_joins h.record rfl hro fun i hi => by
    obtain ⟨ri, hri, -⟩ := hc.parts hr (hparts ▸ hi)
    obtain ⟨ri', hri', -⟩ := h.old hri
    exact ⟨ri', hri'⟩
  refine ⟨after, hafter, hj.modules.trans h.modules, hj.types.trans h.types,
    hj.size.trans h.size, ?_, fun p hne => ?_⟩
  · rw [hj.now, hparts, hmembers]
    simp only [splitRecord, Package.fresh, OrderedSet.ofList, ← OrderedSet.insertMany_append,
      List.flatMap_append, List.flatMap_cons, List.flatMap_nil, List.append_nil]
  · rw [hj.others hne, h.others p hne, hparts]
    simp only [OrderedSet.mem_newIn, OrderedSet.mem_ofList, List.flatMap_append, List.mem_append,
      List.flatMap_cons, List.flatMap_nil, List.append_nil]
    by_cases hold : p ∈ ps.flatMap env.parts
    · simp only [hold, not_true_eq_false, false_and, true_or, if_false, if_true]
    · simp only [hold, not_false_eq_true, true_and, false_or, if_false]

theorem addAll (hc : env.Coherent) : ∀ (qs : List PackageId) {ps : List PackageId}
    {mid : Environment}, env.Allots primary path parent ps mid →
    (∀ q ∈ qs, ∃ r, env.package q = .ok r) →
    ∃ after, Update.addAllToSplit ⟨env.packages.size⟩ qs mid = .ok ((), after) ∧
      env.Allots primary path parent (ps ++ qs) after
  | [], ps, mid, h, _ => ⟨mid, rfl, by rwa [List.append_nil]⟩
  | q :: qs, ps, mid, h, hqs => by
    obtain ⟨r, hr⟩ := hqs q List.mem_cons_self
    obtain ⟨next, hnext, h1⟩ := h.add hc hr
    obtain ⟨after, hafter, h2⟩ := addAll hc qs h1 fun p hp => hqs p (List.mem_cons_of_mem _ hp)
    refine ⟨after, Update.bind_ok hnext hafter, ?_⟩
    rwa [List.append_assoc] at h2

end Allots

end Environment

namespace Lookup

open Environment

variable {env : Environment} {p : PackageId} {r : Package}

theorem newSplit_allots (hc : env.Coherent) (hr : env.package p = .ok r) (primary : ModuleId) :
    (newSplit p primary).Ensures env fun split after =>
      split = ⟨env.packages.size⟩ ∧ env.Allots primary r.path r.parent [p] after := by
  obtain ⟨after, hafter, ha⟩ := (allots_push env primary r.path r.parent).add hc hr
  have hpush : Update.addPackage (splitRecord r.path r.parent primary [] []) env =
    .ok (⟨env.packages.size⟩, _) := rfl
  refine ⟨_, after, (Gives.ask hr).bind ((Gives.update hpush).bind ?_), rfl, ha⟩
  exact (Gives.update hafter).bind ((Gives.announce _ _).bind (Gives.pure _))

end Lookup

end SplitPackages
