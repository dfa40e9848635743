import SplitPackages.Proofs.Grounds

/-!
# Who contributes

`sources` are the modules that contribute to a reference. For each way in which
bindings come up there is one lemma that says whose bindings are among them:
merging neither loses nor adds anyone, what a module is offered comes from the
modules that it may look into, enriching adds modules of the split, and a
search gathers what the declaring modules see.
-/

namespace SplitPackages.Environment

variable {env after : Environment} {b c child e p q : PackageId} {m k primary : ModuleId}
  {r : Package} {path : Path} {name : String} {ref : Ref} {refs : List Ref} {ps : List PackageId}

theorem valid_of_mem_members (h : k ∈ env.members p) : env.valid p = true := by
  obtain ⟨r, hr, hk⟩ := package_of_mem_members h
  rw [valid_of_package hr]
  cases hv : r.isValid with
  | true => rfl
  | false =>
    rw [Package.declaring_of_not_isValid hv] at hk
    cases hk

theorem mem_sources : k ∈ env.sources ref ↔ ∃ p, ref = .package p ∧ k ∈ env.members p := by
  cases ref with
  | notFound => simp [sources]
  | package p => simp [sources]

theorem exists_mem_sources_map :
    (∃ ref ∈ ps.map Ref.package, k ∈ env.sources ref) ↔ ∃ p ∈ ps, k ∈ env.members p := by
  constructor
  · rintro ⟨ref, href, hk⟩
    obtain ⟨p, hp, rfl⟩ := List.mem_map.mp href
    exact ⟨p, hp, hk⟩
  · rintro ⟨p, hp, hk⟩
    exact ⟨_, List.mem_map_of_mem hp, hk⟩

theorem Merges.mem_sources (h : env.Merges primary path refs ref) (hc : env.Coherent)
    (hb : env.AllBind path refs) :
    k ∈ env.sources ref ↔ ∃ ref' ∈ refs, k ∈ env.sources ref' := by
  -- only the valid references have members
  have hvalid : (∃ ref' ∈ refs, k ∈ env.sources ref') ↔ ∃ p ∈ env.validOf refs, k ∈ env.members p := by
    constructor
    · rintro ⟨ref', href', hk⟩
      obtain ⟨p, rfl, hk⟩ := Environment.mem_sources.mp hk
      exact ⟨p, mem_validOf.mpr ⟨href', valid_of_mem_members hk⟩, hk⟩
    · rintro ⟨p, hp, hk⟩
      exact ⟨_, (mem_validOf.mp hp).1, hk⟩
  rw [hvalid]
  cases h with
  | worse hnone href =>
    rw [hnone]
    constructor
    · intro hk
      obtain ⟨p, rfl, hk⟩ := Environment.mem_sources.mp hk
      have := mem_validOf.mpr ⟨href, valid_of_mem_members hk⟩
      rw [hnone] at this
      cases this
    · rintro ⟨p, hp, -⟩
      cases hp
  | one hone =>
    rw [hone]
    simp only [List.mem_singleton, exists_eq_left]
    exact Iff.rfl
  | many hmany hg _ =>
    rw [hmany]
    exact hg.members hc fun p hp => hb.validOf p (hmany ▸ hp)

/-- The members of a declared binding: the module that declares it, if the binding is valid. -/
theorem Coherent.members_of_declared (hc : env.Coherent) {d : ModuleId}
    (hd : env.declared d path = .ok (some b)) : k ∈ env.members b ↔ k = d ∧ env.valid b = true := by
  obtain ⟨r, hr, -, hhome, hs⟩ := hc.declared hd
  rw [members_of_package hr, valid_of_package hr]
  cases hv : r.isValid with
  | true =>
    rw [Package.declaring_of_isPlain (Package.isPlain_of_isValid hv hs), List.mem_singleton, hhome]
    simp
  | false =>
    rw [Package.declaring_of_not_isValid hv]
    simp

theorem Offered.mem_sources (h : env.Offered m path ref) (hc : env.Coherent) :
    k ∈ env.sources ref ↔
      ∃ b, env.declared k path = .ok (some b) ∧ env.valid b = true ∧ env.Admits m path k := by
  obtain ⟨ps, hps, h⟩ := h
  have hcand : (∃ b, env.declared k path = .ok (some b) ∧ env.valid b = true ∧ env.Admits m path k) ↔
      ∃ b ∈ ps, k ∈ env.members b := by
    constructor
    · rintro ⟨b, hd, hv, ha⟩
      exact ⟨b, (hps b).mpr ⟨k, hd, ha⟩, (hc.members_of_declared hd).mpr ⟨rfl, hv⟩⟩
    · rintro ⟨b, hb, hk⟩
      obtain ⟨d, hd, ha⟩ := (hps b).mp hb
      obtain ⟨rfl, hv⟩ := (hc.members_of_declared hd).mp hk
      exact ⟨b, hd, hv, ha⟩
  rw [hcand]
  rcases h with ⟨rfl, rfl⟩ | h
  · simp [sources]
  · rw [h.mem_sources hc (allBind_map (hps.binds hc)), exists_mem_sources_map]

/-- Enriching adds the modules of the split that declare the path. -/
theorem Enriched.mem_members (h : env.Enriched c child m path e) (hc : env.Coherent)
    (hb : env.Binds child path) : k ∈ env.members e ↔ k ∈ env.members child ∨
      k ∈ env.members c ∧ k ≠ m ∧ ∃ b, env.declared k path = .ok (some b) ∧ env.valid b = true := by
  obtain ⟨ps, hps, h⟩ := h
  have hsib : k ∈ env.members child ∨ (k ∈ env.members c ∧ k ≠ m ∧
      ∃ b, env.declared k path = .ok (some b) ∧ env.valid b = true) ↔
      k ∈ env.members child ∨ ∃ b ∈ ps, k ∈ env.members b := by
    by_cases hin : k ∈ env.members child
    · simp [hin]
    · refine or_congr_right ?_
      constructor
      · rintro ⟨hk, hne, b, hd, hv⟩
        exact ⟨b, (hps b).mpr ⟨k, hk, hne, hin, hd⟩, (hc.members_of_declared hd).mpr ⟨rfl, hv⟩⟩
      · rintro ⟨b, hb, hk⟩
        obtain ⟨d, hd, hne, -, hdecl⟩ := (hps b).mp hb
        obtain ⟨rfl, hv⟩ := (hc.members_of_declared hdecl).mp hk
        exact ⟨hd, hne, b, hdecl, hv⟩
  rw [hsib]
  rcases h with ⟨rfl, rfl⟩ | ⟨-, rc, -, h⟩
  · simp
  · have hmem : k ∈ env.members e ↔ ∃ b ∈ ps ++ [child], k ∈ env.members b :=
      (h.mem_sources hc (hps.with_child_binds hc hb)).trans exists_mem_sources_map
    rw [hmem]
    constructor
    · rintro ⟨b, hb, hk⟩
      rcases List.mem_append.mp hb with hb | hb
      · exact .inr ⟨b, hb, hk⟩
      · exact .inl (List.mem_singleton.mp hb ▸ hk)
    · rintro (hk | ⟨b, hb, hk⟩)
      · exact ⟨child, List.mem_append_right _ (List.mem_singleton_self child), hk⟩
      · exact ⟨b, List.mem_append_left _ hb, hk⟩

theorem Found.mem_members {home : ModuleId} (h : env.Found c home path q) (hc : env.Coherent) :
    k ∈ env.members q ↔ ∃ d ∈ env.members c, ∃ b, env.seen d path = some (.package b) ∧
      env.tainted b = false ∧ k ∈ env.members b := by
  obtain ⟨ps, hps, h⟩ := h
  have hmem : k ∈ env.members q ↔ ∃ b ∈ ps, k ∈ env.members b := by
    rcases h with rfl | ⟨-, hg⟩
    · simp
    · exact hg.members hc (hps.binds hc)
  rw [hmem]
  constructor
  · rintro ⟨b, hb, hk⟩
    obtain ⟨ht, d, hd, hs⟩ := (hps.2 b).mp hb
    exact ⟨d, hd, b, hs, ht, hk⟩
  · rintro ⟨d, hd, b, hs, ht, hk⟩
    exact ⟨b, (hps.2 b).mpr ⟨ht, d, hd, hs⟩, hk⟩

/-- Nobody is lost in combining, and nobody comes in. -/
theorem Combines.mem_sources {previous : Option Ref}
    (h : env.Combines primary path e previous ref) (hc : env.Coherent) (he : env.Binds e path)
    (hprev : ∀ prev, previous = some (.package prev) → env.Binds prev path) :
    (k ∈ env.members e → k ∈ env.sources ref) ∧
      (k ∈ env.sources ref → k ∈ env.members e ∨
        ∃ prev, previous = some prev ∧ k ∈ env.sources prev) := by
  cases h with
  | fresh => exact ⟨id, .inl⟩
  | kept hp hsub =>
    exact ⟨fun hk => hsub (valid_of_mem_members hk) k hk, fun hk => .inr ⟨_, hp, hk⟩⟩
  | @joined prev result hp _ _ hg =>
    have hmem := hg.members (k := k) hc fun p hp' => by
      rcases List.mem_cons.mp hp' with rfl | hp'
      · exact hprev p hp
      · rw [List.mem_singleton.mp hp']
        exact he
    simp only [List.mem_cons, List.not_mem_nil, or_false, exists_eq_or_imp, exists_eq_left] at hmem
    rw [show k ∈ env.sources (.package result) ↔ k ∈ env.members result from Iff.rfl, hmem]
    exact ⟨.inr, fun hk => hk.symm.imp_right fun hk => ⟨_, hp, hk⟩⟩

/-- The entries of the incarnations of a split, together. -/
theorem Merges.mem_sources_of_entries {s : Split} (h : env.Merges primary (.sub r.path name) refs ref)
    (hc : env.Coherent) (hr : env.package c = .ok r) (hk : r.kind = .split s)
    (hrefs : s.incarnations.toList.map (env.entry · name) = refs.map some) :
    k ∈ env.sources ref ↔
      ∃ i ∈ s.incarnations, ∃ ref', env.entry i name = some ref' ∧ k ∈ env.sources ref' := by
  rw [h.mem_sources hc (hc.incarnations_allBind hr hk hrefs)]
  constructor
  · rintro ⟨ref', href', hk⟩
    have hin := List.mem_map_of_mem (f := some) href'
    rw [← hrefs] at hin
    obtain ⟨i, hi, he⟩ := List.mem_map.mp hin
    exact ⟨i, hi, ref', he, hk⟩
  · rintro ⟨i, hi, ref', he, hk⟩
    have hin : some ref' ∈ s.incarnations.toList.map (env.entry · name) :=
      he ▸ List.mem_map_of_mem hi
    rw [hrefs] at hin
    obtain ⟨ref'', href'', e⟩ := List.mem_map.mp hin
    cases e
    exact ⟨ref', href'', hk⟩

theorem sources_eq (h : ∀ {p r}, env.package p = .ok r → after.members p = env.members p)
    (hb : ∀ q, ref = .package q → env.Binds q path) : after.sources ref = env.sources ref := by
  cases ref with
  | notFound => rfl
  | package q =>
    obtain ⟨r, hr, -⟩ := hb q rfl
    exact h hr

theorem Keeps.sources (h : env.Keeps after) (hb : ∀ q, ref = .package q → env.Binds q path) :
    after.sources ref = env.sources ref :=
  sources_eq h.members hb

end SplitPackages.Environment
