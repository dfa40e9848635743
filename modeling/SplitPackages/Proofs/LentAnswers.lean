import SplitPackages.Proofs.Isolation

/-!
# What modules lend each other

The graph alone says whom a module should see: whoever offers it the path and,
below a split of its own, whoever declares the path next to them (`Sees`). A
split answers for all its modules, so a module can also be handed what the others
have found for themselves, once each of them has an answer at the path. Those
bindings are `Lent`, and so are the siblings that only a split made of them has.

`Attributed` is the invariant: whoever contributes to what a module sees has
offered it the path, is a sibling or is lent. So whoever contributes and is not
lent is seen by the graph.
-/

namespace SplitPackages.Environment

/-- The module is offered the path by `k`, or has seen a binding there to which `k` contributes. -/
def Knows (env : Environment) (m : ModuleId) (path : Path) (k : ModuleId) : Prop :=
  env.Offers m path k ∨ ∃ ref, env.seen m path = some ref ∧ k ∈ env.sources ref

/-- The module has looked at the path, or something is stored there below its own binding. -/
def Answered (env : Environment) (m : ModuleId) (path : Path) : Prop :=
  (∃ ref, env.seen m path = some ref) ∨ ∃ above name i ref, path = .sub above name ∧
    env.declared m above = .ok (some i) ∧ env.entry i name = some ref

def SeesOwn (env : Environment) (m : ModuleId) (path : Path) (c : PackageId) : Prop :=
  env.seen m path = some (.package c) ∧
    ∃ r, env.package c = .ok r ∧ r.home = m ∧ r.isSplit = true

/-- A module of the split that declares the path, next to one that offers it to `m`. -/
structure Sibling (env : Environment) (c : PackageId) (m : ModuleId) (path : Path) (k : ModuleId) :
    Prop where
  member : k ∈ env.members c
  declares : env.Declares k path
  offered : ∃ j, env.Offers m path j

/-- All modules of the split have an answer at the path, and one of them other than `m` knows
of `k`. -/
structure Lends (env : Environment) (c : PackageId) (m : ModuleId) (path : Path) (k : ModuleId) :
    Prop where
  answered : ∀ d ∈ env.members c, env.Answered d path
  knows : ∃ d ∈ env.members c, d ≠ m ∧ env.Knows d path k

/-- The split that the module sees above lends it `k`, or has `k` as a sibling although the graph
does not give the module this split, or not with `k`. -/
def Lent (env : Environment) (m : ModuleId) : Path → ModuleId → Prop
  | .top _, _ => False
  | .sub above name, k => ∃ c, env.SeesOwn m above c ∧
      (env.Lends c m (.sub above name) k ∨
        env.Sibling c m (.sub above name) k ∧ (¬ env.Leads m above ∨ Lent env m above k))

/-- Whence the contributors to what is stored in a split, or seen below one, may come. -/
def Pooled (env : Environment) (c : PackageId) (m : ModuleId) (path : Path) (k : ModuleId) : Prop :=
  env.Sibling c m path k ∨ env.Lends c m path k

structure Attributed (env : Environment) : Prop where
  seen : ∀ {m path ref k}, env.seen m path = some ref → k ∈ env.sources ref →
    env.Offers m path k ∨ ∃ above name c, path = .sub above name ∧ env.SeesOwn m above c ∧
      env.Pooled c m path k
  entry : ∀ {c r name ref k}, env.package c = .ok r → env.entry c name = some ref →
    k ∈ env.sources ref → env.Knows r.home (.sub r.path name) k ∨
      r.isSplit = true ∧ env.Pooled c r.home (.sub r.path name) k

variable {env mid after : Environment} {b c child e p q : PackageId} {m k d home : ModuleId}
  {r : Package} {path : Path} {name : String} {ref : Ref}

theorem Declares.knows (h : env.Declares k path) : env.Knows k path k := .inl h.offers

/-! ## Later environments -/

theorem Later.declares (h : env.Later after) (hd : env.Declares m path) : after.Declares m path :=
  hd.imp fun _ => h.declared

theorem Later.offers (h : env.Later after) (ho : env.Offers m path k) : after.Offers m path k :=
  ⟨h.declares ho.1, h.admits ho.2⟩

theorem Later.knows (h : env.Later after) (hc : env.Coherent) (hk : env.Knows m path k) :
    after.Knows m path k := by
  refine hk.imp h.offers ?_
  rintro ⟨ref, hs, hk⟩
  have hb : ∀ q, ref = .package q → env.Binds q path := fun q e => hc.seen (e ▸ hs)
  exact ⟨ref, h.seen hs, by rwa [h.sources hb]⟩

theorem Later.answered (h : env.Later after) (ha : env.Answered m path) : after.Answered m path := by
  refine ha.imp (fun ⟨ref, hs⟩ => ⟨ref, h.seen hs⟩) ?_
  rintro ⟨above, name, i, ref, e, hd, he⟩
  obtain ⟨ref', he⟩ := h.entry he
  exact ⟨above, name, i, ref', e, h.declared hd, he⟩

theorem Later.seesOwn (h : env.Later after) (ho : env.SeesOwn m path c) :
    after.SeesOwn m path c := by
  obtain ⟨hs, r, hr, hhome, hsplit⟩ := ho
  obtain ⟨r', hr', -, e1, e2, -⟩ := h.package hr
  exact ⟨h.seen hs, r', hr', e1.trans hhome, e2.trans hsplit⟩

theorem Later.pooled (h : env.Later after) (hc : env.Coherent) (hr : env.package c = .ok r)
    (hp : env.Pooled c m path k) : after.Pooled c m path k := by
  have hmem : after.members c = env.members c := h.members hr
  refine hp.imp (fun hs => ?_) fun hl => ?_
  · exact ⟨hmem ▸ hs.member, h.declares hs.declares, hs.offered.imp fun _ => h.offers⟩
  · refine ⟨fun d hd => h.answered (hl.answered d (hmem ▸ hd)), ?_⟩
    obtain ⟨d, hd, hne, hk⟩ := hl.knows
    exact ⟨d, hmem ▸ hd, hne, h.knows hc hk⟩

/-- The invariant has to be shown of what is new only. -/
theorem Attributed.later (h : env.Attributed) (hc : env.Coherent) (hl : env.Later after)
    (hseen : ∀ {m path ref}, after.seen m path = some ref → env.seen m path = some ref ∨
      (∀ q, ref = .package q → env.Binds q path) ∧ ∀ k ∈ env.sources ref, env.Offers m path k ∨
        ∃ above name c, path = .sub above name ∧ env.SeesOwn m above c ∧ env.Pooled c m path k)
    (hentry : ∀ {c name ref}, after.entry c name = some ref → env.entry c name = some ref ∨
      ∃ r, env.package c = .ok r ∧ (∀ q, ref = .package q → env.Binds q (.sub r.path name)) ∧
        ∀ k ∈ env.sources ref, env.Knows r.home (.sub r.path name) k ∨
          r.isSplit = true ∧ env.Pooled c r.home (.sub r.path name) k) :
    after.Attributed where
  seen {m path ref k} hs hk := by
    have hold : (∀ q, ref = .package q → env.Binds q path) ∧ ∀ k ∈ env.sources ref,
        env.Offers m path k ∨
          ∃ above name c, path = .sub above name ∧ env.SeesOwn m above c ∧ env.Pooled c m path k := by
      rcases hseen hs with hs | hnew
      · exact ⟨fun q e => hc.seen (e ▸ hs), fun k hk => h.seen hs hk⟩
      · exact hnew
    rw [hl.sources hold.1] at hk
    refine (hold.2 k hk).imp hl.offers ?_
    rintro ⟨above, name, c, e, ho, hp⟩
    obtain ⟨-, r, hr, -⟩ := id ho
    exact ⟨above, name, c, e, hl.seesOwn ho, hl.pooled hc hr hp⟩
  entry {c r name ref k} hr he hk := by
    have hold : ∃ r, env.package c = .ok r ∧
        (∀ q, ref = .package q → env.Binds q (.sub r.path name)) ∧
        ∀ k ∈ env.sources ref, env.Knows r.home (.sub r.path name) k ∨
          r.isSplit = true ∧ env.Pooled c r.home (.sub r.path name) k := by
      rcases hentry he with he | hnew
      · obtain ⟨r0, hr0, -⟩ := package_of_entry he
        exact ⟨r0, hr0, fun q e => hc.binds_of_entry hr0 (e ▸ he), fun k hk => h.entry hr0 he hk⟩
      · exact hnew
    obtain ⟨r0, hr0, hb, hall⟩ := hold
    obtain ⟨r', hr', e1, e2, e3, -⟩ := hl.package hr0
    cases package_unique hr hr'
    rw [hl.sources hb] at hk
    rw [e1, e2, e3]
    exact (hall k hk).imp (hl.knows hc) fun ⟨hs, hp⟩ => ⟨hs, hl.pooled hc hr0 hp⟩

/-! ## What is stored on good grounds -/

theorem Offered.offers_of_mem (ho : env.Offered m path ref) (hc : env.Coherent)
    (hk : k ∈ env.sources ref) : env.Offers m path k := by
  obtain ⟨b, hd, -, ha⟩ := (ho.mem_sources hc).mp hk
  exact ⟨⟨b, hd⟩, ha⟩

/-- The home of the split knows of whatever another member knows, or is lent it. -/
theorem pooled_of_knows (hall : ∀ d ∈ env.members c, env.Answered d path)
    (hd : d ∈ env.members c) (hk : env.Knows d path k) :
    env.Knows home path k ∨ env.Pooled c home path k := by
  by_cases hne : d = home
  · exact .inl (hne ▸ hk)
  · exact .inr (.inr ⟨hall, d, hd, hne, hk⟩)

theorem Attributed.merged (h : env.Attributed) (hc : env.Coherent) {s : Split} {refs : List Ref}
    (hr : env.package c = .ok r) (hk : r.kind = .split s)
    (hrefs : s.incarnations.toList.map (env.entry · name) = refs.map some)
    (hm : env.Merges r.home (.sub r.path name) refs ref) (hin : k ∈ env.sources ref) :
    env.Knows r.home (.sub r.path name) k ∨ env.Pooled c r.home (.sub r.path name) k := by
  have hmem (d : ModuleId) :
      d ∈ env.members c ↔ ∃ i ∈ s.incarnations, ∃ ri, env.package i = .ok ri ∧ ri.home = d := by
    rw [members_of_package hr]
    simp only [Package.declaring, hk]
    exact (hc.split hr hk).declaring d
  have hall : ∀ d ∈ env.members c, env.Answered d (.sub r.path name) := by
    intro d hd
    obtain ⟨i, hi, ri, hri, rfl⟩ := (hmem d).mp hd
    obtain ⟨ri', hri', hpl, hpath⟩ := (hc.split hr hk).plain hi
    cases package_unique hri hri'
    have hin := List.mem_map_of_mem (f := (env.entry · name)) hi
    rw [hrefs] at hin
    obtain ⟨ref', -, e⟩ := List.mem_map.mp hin
    exact .inr ⟨r.path, name, i, ref', rfl,
      hpath ▸ hc.own hri (Package.isSplit_of_isPlain hpl), e.symm⟩
  obtain ⟨i, hi, ref', he, hin⟩ := (hm.mem_sources_of_entries hc hr hk hrefs).mp hin
  obtain ⟨ri, hri, hpl, hpath⟩ := (hc.split hr hk).plain hi
  rcases h.entry hri he hin with hknows | ⟨hs, -⟩
  · exact pooled_of_knows hall ((hmem _).mpr ⟨i, hi, ri, hri, rfl⟩) (hpath ▸ hknows)
  · rw [Package.isSplit_of_isPlain hpl] at hs
    cases hs

theorem Contributed.answered {ps : List PackageId} (h : env.Contributed c path ps) :
    ∀ d ∈ env.members c, env.Answered d path := fun d hd => .inl (h.1 d hd)

/-- What a search finds, and the siblings that come with it, the members know of. -/
theorem Found.pooled (hf : env.Found c home path q) (he : env.Enriched c q m path e)
    (hc : env.Coherent) (hk : k ∈ env.members e) :
    env.Knows home path k ∨ env.Pooled c home path k := by
  obtain ⟨ps, hps, -⟩ := id hf
  rcases (he.mem_members hc (hf.binds hc)).mp hk with hk | ⟨hk, -, b, hd, -⟩
  · obtain ⟨d, hd, b, hs, -, hk⟩ := (hf.mem_members hc).mp hk
    exact pooled_of_knows hps.answered hd (.inr ⟨_, hs, hk⟩)
  · exact pooled_of_knows hps.answered hk (Declares.knows ⟨b, hd⟩)

theorem Grounds.attributed (hg : env.Grounds c r name ref) (h : env.Attributed) (hc : env.Coherent)
    (hr : env.package c = .ok r) (hk : k ∈ env.sources ref) :
    env.Knows r.home (.sub r.path name) k ∨
      r.isSplit = true ∧ env.Pooled c r.home (.sub r.path name) k := by
  cases hg with
  | own _ hd =>
    obtain ⟨rfl, -⟩ := (hc.members_of_declared hd).mp hk
    exact .inl (Declares.knows ⟨_, hd⟩)
  | merged hkind hrefs hm =>
    exact (h.merged hc hr hkind hrefs hm hk).imp_right fun hp => ⟨Package.isSplit_of_kind hkind, hp⟩
  | offered _ _ _ ho => exact .inl (.inl (ho.offers_of_mem hc hk))
  | enriched hs _ ho he =>
    rcases (he.mem_members hc (ho.binds hc)).mp hk with hk | ⟨hk, -, b, hd, -⟩
    · exact .inl (.inl (ho.offers_of_mem hc hk))
    · exact .inr ⟨hs, .inl ⟨hk, ⟨b, hd⟩, ho.exists_offers⟩⟩
  | seen _ hs => exact .inl (.inr ⟨_, hs, hk⟩)
  | searched hs hf he hcomb =>
    rcases (hcomb.mem_sources hc (he.binds hc (hf.binds hc)) fun prev hp =>
      hc.binds_of_entry hr hp).2 hk with hk | ⟨prev, hp, hk⟩
    · exact (hf.pooled he hc hk).imp_right fun hp => ⟨hs, hp⟩
    · exact h.entry hr hp hk
  | vain => cases hk

/-- Where the module has not looked yet, it knows only what it is offered. -/
theorem Sights.attributed (hs : env.Sights m path ref) (h : env.Attributed) (hc : env.Coherent)
    (hnone : env.seen m path = none) (hk : k ∈ env.sources ref) : env.Offers m path k ∨
      ∃ above name c, path = .sub above name ∧ env.SeesOwn m above c ∧ env.Pooled c m path k := by
  cases hs with
  | below => cases hk
  | top ho => exact .inl (ho.offers_of_mem hc hk)
  | foreign _ _ _ ho => exact .inl (ho.offers_of_mem hc hk)
  | @stored above name c r _ hs hr hhome he =>
    obtain ⟨r', hr', hpath⟩ := hc.seen hs
    cases package_unique hr hr'
    subst hhome hpath
    rcases h.entry hr he hk with (ho | ⟨ref', hs', -⟩) | ⟨hsplit, hp⟩
    · exact .inl ho
    · rw [hnone] at hs'
      cases hs'
    · exact .inr ⟨_, name, c, rfl, ⟨hs, r, hr, rfl, hsplit⟩, hp⟩

theorem Attributed.change (h : env.Attributed) (hc : env.Coherent) (hch : env.Change after) :
    after.Attributed := by
  refine h.later hc hch.later (fun {m path ref} hs => ?_) fun {c name ref} he => ?_
  · by_cases hnone : env.seen m path = none
    · refine (hch.seen_back hs).imp_right fun hsi => ?_
      exact ⟨fun q e => (e ▸ hsi).binds hc, fun k hk => hsi.attributed h hc hnone hk⟩
    · obtain ⟨ref', hs'⟩ := Option.ne_none_iff_exists'.mp hnone
      exact .inl (hs'.trans ((hch.seen hs').symm.trans hs))
  · refine (hch.entry_back he).imp_right ?_
    rintro ⟨r, hr, hg⟩
    exact ⟨r, hr, fun q e => (e ▸ hg).binds hc hr, fun k hk => hg.attributed h hc hr hk⟩

theorem Attributed.built (h : env.Attributed) (hc : env.Coherent) (hb : env.Built after) :
    after.Attributed := by
  refine h.later hc (hb.later hc) (fun hs => .inl ?_) fun he => .inl ?_
  · rw [← hb.1.seen, hs]
  · rw [← hb.1.entry, he]

/-- Nothing is lent for want of one answer, where the graph gives the module its split. -/
theorem not_lent (hs : env.seen m path = some (.package c)) (hd : d ∈ env.members c)
    (hans : ¬ env.Answered d (.sub path name)) (hlead : env.Leads m path)
    (habove : ¬ env.Lent m path k) : ¬ env.Lent m (.sub path name) k := by
  rintro ⟨c', ⟨hs', -⟩, hlends | ⟨-, hno | hlent⟩⟩
  · rw [hs] at hs'
    cases hs'
    exact hans (hlends.answered d hd)
  · exact hno hlead
  · exact habove hlent

variable {config : Config}

section Decidable

instance : Decidable (env.Declares k path) :=
  decidable_of_iff (∃ p ∈ (env.declared k path).toOption.join, True) (by
    unfold Declares
    cases env.declared k path <;> simp [Except.toOption])

instance : Decidable (env.Exposes k path) :=
  decidable_of_iff (∃ record ∈ (env.module k).toOption, record.exposes path = true) (by
    unfold Exposes
    cases env.module k <;> simp [Except.toOption])

instance : Decidable (env.Reads m k) := inferInstanceAs (Decidable (_ = _))

instance : Decidable (env.Admits m path k) := inferInstanceAs (Decidable (_ ∨ _))

instance : Decidable (env.Offers m path k) := inferInstanceAs (Decidable (_ ∧ _))

instance : Decidable (env.Answered m (.sub path name)) :=
  decidable_of_iff ((∃ ref ∈ env.seen m (.sub path name), True) ∨
      ∃ i ∈ (env.declared m path).toOption.join, ∃ ref ∈ env.entry i name, True) (by
    unfold Answered
    cases hd : env.declared m path <;> simp [Except.toOption, hd])

end Decidable

/-- Whether the third module sees `com.bar` of the second one, into which it may not look there, and
the second one, next to the first in a split of `com`, has no answer of its own. -/
def ShowsSibling (env : Environment) (q : PackageId) : Prop :=
  (∃ i ∈ env.parts q, ∃ ri ∈ (env.package i).toOption, ri.home = ⟨1⟩) ∧
    ¬ env.Admits ⟨2⟩ (.sub (.top "com") "bar") ⟨1⟩ ∧
    ¬ env.Answered ⟨1⟩ (.sub (.top "com") "bar") ∧
    (∃ c ∈ (env.seen ⟨2⟩ (.top "com")).bind Ref.package?, ⟨1⟩ ∈ env.members c) ∧
    env.Offers ⟨2⟩ (.top "com") ⟨0⟩ ∧ env.Offers ⟨2⟩ (.top "com") ⟨1⟩

instance (q : PackageId) : Decidable (env.ShowsSibling q) := inferInstanceAs (Decidable (_ ∧ _))

/-- The part of the second module, and that the graph gives it to the third one. -/
theorem ShowsSibling.part (h : env.ShowsSibling q) : ∃ i ∈ env.parts q, ∃ ri,
    env.package i = .ok ri ∧ ri.home = ⟨1⟩ ∧ ¬ env.Admits ⟨2⟩ (.sub (.top "com") "bar") ⟨1⟩ ∧
      ¬ env.Lent ⟨2⟩ (.sub (.top "com") "bar") ⟨1⟩ := by
  obtain ⟨⟨i, hi, ri, hri, hhome⟩, hnot, hans, ⟨c, hc, hd⟩, ha, hb⟩ := h
  have hri : env.package i = .ok ri := by
    cases hp : env.package i <;> simp_all [Except.toOption]
  have hseen : env.seen ⟨2⟩ (.top "com") = some (.package c) := by
    obtain ⟨ref, hs, e⟩ := Option.bind_eq_some_iff.mp hc
    cases ref <;> cases e
    exact hs
  exact ⟨i, hi, ri, hri, hhome, hnot,
    not_lent hseen hd hans (.inr ⟨⟨0⟩, ⟨1⟩, by decide, ha, hb⟩) id⟩

end SplitPackages.Environment
