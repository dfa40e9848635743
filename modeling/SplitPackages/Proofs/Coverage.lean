import SplitPackages.Proofs.Links

/-!
# What every answer covers

Where no binding is invalid or tainted, no cache forgets a module that it
should have. `Covers` says it of an answer for a module: everyone who offers
the path contributes to it, and if it is a split that has another home, nobody
but that home offers the path. The entries of a plain binding and those of a
split cover less (`CoversOwn`, `CoversSplit`), but each enough to be an answer
for a module that came by the binding rightly.

`Covering` is the invariant, and every step keeps it.
-/

namespace SplitPackages

theorem Package.isClear_eq_of_bare {r r' : Package} (h : r'.bare = r.bare) :
    r'.isClear = r.isClear := by
  simp only [isClear, isValid_eq_of_bare h, missingType_eq_of_bare h]

namespace Environment

/-- No binding is invalid or tainted. -/
def Clear (env : Environment) : Prop := ∀ p r, env.package p = .ok r → r.isClear = true

/-- The home of the split that a reference names. -/
def splitHome (env : Environment) : Ref → Option ModuleId
  | .notFound => none
  | .package p =>
    match env.package p with
    | .ok r => if r.isSplit then some r.home else none
    | .error _ => none

structure Covers (env : Environment) (m : ModuleId) (path : Path) (ref : Ref) : Prop where
  offered : ∀ {k}, env.Offers m path k → k ∈ env.sources ref
  home : ∀ {h}, env.splitHome ref = some h → h = m ∨ ∀ k, env.Offers m path k → k = h

/-- The reference covers what the module itself declares. -/
structure CoversOwn (env : Environment) (d : ModuleId) (path : Path) (ref : Ref) : Prop where
  own : env.Declares d path → d ∈ env.sources ref
  home : ∀ {h}, env.Declares d path → env.splitHome ref = some h → h = d

/-- The reference covers what the members of the split declare, or the home of the split is offered
nothing. -/
structure CoversSplit (env : Environment) (c : PackageId) (home : ModuleId) (path : Path)
    (ref : Ref) : Prop where
  members : (ref = .notFound ∧ ∀ k, ¬ env.Offers home path k) ∨
    ∀ k ∈ env.members c, env.Declares k path → k ∈ env.sources ref
  home : ∀ {h}, env.splitHome ref = some h →
    h = home ∨ ∀ k ∈ env.members c, env.Offers home path k → k = h

/-- What an entry below the binding covers. -/
structure CoversBelow (env : Environment) (c : PackageId) (r : Package) (name : String)
    (ref : Ref) : Prop where
  plain : r.isSplit = false → env.CoversOwn r.home (.sub r.path name) ref
  split : r.isSplit = true → env.CoversSplit c r.home (.sub r.path name) ref

structure Covering (env : Environment) : Prop where
  clear : env.Clear
  seen : ∀ {m path ref}, env.seen m path = some ref → env.Covers m path ref
  entry : ∀ {c r name ref}, env.package c = .ok r → env.entry c name = some ref →
    env.CoversBelow c r name ref
  /-- Below a split of its own the module sees what its siblings declare. -/
  siblings : ∀ {m path name ref c r}, env.seen m (.sub path name) = some ref →
    env.seen m path = some (.package c) → env.package c = .ok r → r.home = m →
    r.isSplit = true → (∃ j, env.Offers m (.sub path name) j) →
    ∀ k ∈ env.members c, env.Declares k (.sub path name) → k ∈ env.sources ref

variable {env mid after : Environment} {b c child e p q : PackageId} {m k d h primary : ModuleId}
  {r : Package} {path : Path} {name : String} {ref : Ref} {refs : List Ref} {ps : List PackageId}

theorem Offers.enclosing (hc : env.Coherent) (h : env.Offers m (.sub path name) k) :
    env.Offers m path k :=
  ⟨hc.enclosing h.1, h.2.enclosing⟩

theorem Declares.offers (h : env.Declares d path) : env.Offers d path d := ⟨h, .inl rfl⟩

/-! ## Clear environments -/

theorem Clear.valid (h : env.Clear) (hr : env.package p = .ok r) : env.valid p = true := by
  have := h p r hr
  rw [Package.isClear, Bool.and_eq_true] at this
  rw [valid_of_package hr, this.1]

theorem Clear.tainted (h : env.Clear) (hr : env.package p = .ok r) : env.tainted p = false := by
  have := h p r hr
  rw [Package.isClear, Bool.and_eq_true, Bool.not_eq_true'] at this
  rw [tainted_of_package hr, this.2]

theorem Clear.validOf (h : env.Clear) (hb : ∀ p ∈ ps, env.Binds p path) :
    env.validOf (ps.map .package) = ps := by
  unfold Environment.validOf
  rw [List.filterMap_map, List.filter_eq_self.mpr]
  · exact List.filterMap_some
  · intro p hp
    obtain ⟨p, hp, e⟩ := List.mem_filterMap.mp hp
    cases e
    obtain ⟨r, hr, -⟩ := hb p hp
    exact h.valid hr

theorem Clear.change (h : env.Clear) (hs : env.Change after) : after.Clear := by
  intro p r hr
  rcases hs.package_back hr with ⟨r0, hr0⟩ | hn
  · obtain ⟨r', hr', e⟩ := hs.keeps.packages hr0
    cases package_unique hr hr'
    rw [Package.isClear_eq_of_bare e]
    exact h p r0 hr0
  · obtain ⟨s, hk, -⟩ := hn.kind
    rw [Package.isClear, Package.isValid_of_isSplit (Package.isSplit_of_kind hk), hn.missingType]
    rfl

/-- A module is offered a path by exactly the modules that contribute to the offer. -/
theorem Offered.mem_sources_of_clear (h : env.Offered m path ref) (hc : env.Coherent)
    (hcl : env.Clear) : k ∈ env.sources ref ↔ env.Offers m path k := by
  rw [h.mem_sources hc]
  constructor
  · rintro ⟨b, hd, -, ha⟩
    exact ⟨⟨b, hd⟩, ha⟩
  · rintro ⟨⟨b, hd⟩, ha⟩
    obtain ⟨r, hr, -⟩ := hc.declared hd
    exact ⟨b, hd, hcl.valid hr, ha⟩

theorem Enriched.mem_members_of_clear (h : env.Enriched c child m path e) (hc : env.Coherent)
    (hcl : env.Clear) (hb : env.Binds child path) : k ∈ env.members e ↔ k ∈ env.members child ∨
      k ∈ env.members c ∧ k ≠ m ∧ env.Declares k path := by
  rw [h.mem_members hc hb]
  refine or_congr_right (and_congr_right fun _ => and_congr_right fun _ => ?_)
  constructor
  · rintro ⟨b, hd, -⟩
    exact ⟨b, hd⟩
  · rintro ⟨b, hd⟩
    obtain ⟨r, hr, -⟩ := hc.declared hd
    exact ⟨b, hd, hcl.valid hr⟩

/-! ## Homes of splits -/

theorem splitHome_of_package (hr : env.package p = .ok r) :
    env.splitHome (.package p) = if r.isSplit then some r.home else none := by
  simp only [splitHome, hr]

theorem package_of_splitHome (hh : env.splitHome ref = some h) :
    ∃ p r, ref = .package p ∧ env.package p = .ok r ∧ r.isSplit = true ∧ r.home = h := by
  unfold splitHome at hh
  split at hh
  · cases hh
  · next p =>
    split at hh
    · next r hr =>
      split at hh
      · next hs =>
        cases hh
        exact ⟨p, r, rfl, hr, hs, rfl⟩
      · cases hh
    · cases hh

theorem Keeps.splitHome (h : env.Keeps after) (hb : ∀ q, ref = .package q → env.Binds q path) :
    after.splitHome ref = env.splitHome ref := by
  cases ref with
  | notFound => rfl
  | package q =>
    obtain ⟨r, hr, -⟩ := hb q rfl
    obtain ⟨r', hr', e⟩ := h.packages hr
    rw [splitHome_of_package hr', splitHome_of_package hr, Package.isSplit_eq_of_bare e,
      Package.home_eq_of_bare e]

/-- A declared binding is not a split. -/
theorem Coherent.splitHome_of_declared (hc : env.Coherent)
    (hd : env.declared d path = .ok (some b)) : env.splitHome (.package b) = none := by
  obtain ⟨r, hr, -, -, hs⟩ := hc.declared hd
  rw [splitHome_of_package hr, hs]
  rfl

theorem Gathers.splitHome (hg : env.Gathers primary path ps q)
    (hh : env.splitHome (.package q) = some h) : h = primary := by
  obtain ⟨r, hr, -, -, hprimary⟩ := hg.binds
  obtain ⟨_, r', e, hr', hs, rfl⟩ := package_of_splitHome hh
  cases e
  cases package_unique hr hr'
  exact hprimary hs

/-- A split that merging gives is a peeled one of the primary module, or was the only valid
candidate. -/
theorem Merges.splitHome (hm : env.Merges primary path refs ref)
    (hh : env.splitHome ref = some h) : h = primary ∧ (∀ q, ref = .package q → env.Peeled q) ∨
      ∃ p, env.validOf refs = [p] ∧ ref = .package p := by
  cases hm with
  | worse hnone href =>
    obtain ⟨p, r, rfl, hr, hs, -⟩ := package_of_splitHome hh
    have : p ∈ env.validOf refs :=
      mem_validOf.mpr ⟨href, by rw [valid_of_package hr, Package.isValid_of_isSplit hs]⟩
    rw [hnone] at this
    cases this
  | one hone => exact .inr ⟨_, hone, rfl⟩
  | many _ hg hpeel =>
    refine .inl ⟨hg.splitHome hh, fun q e => ?_⟩
    cases e
    exact hpeel

/-- A split that a module is offered has the module as its home. -/
theorem Offered.splitHome (ho : env.Offered m path ref) (hc : env.Coherent)
    (hh : env.splitHome ref = some h) : h = m ∧ ∀ q, ref = .package q → env.Peeled q := by
  obtain ⟨ps, hps, ⟨-, rfl⟩ | hm⟩ := ho
  · cases hh
  · rcases hm.splitHome hh with hnew | ⟨p, hone, rfl⟩
    · exact hnew
    · have hp : p ∈ env.validOf (ps.map .package) := by rw [hone]; exact List.mem_singleton_self p
      obtain ⟨q, hq, e⟩ := List.mem_map.mp (mem_validOf.mp hp).1
      cases e
      obtain ⟨d, hd, -⟩ := (hps p).mp hq
      rw [hc.splitHome_of_declared hd] at hh
      cases hh

theorem eq_home_of_mem_members (hr : env.package p = .ok r) (hs : r.isSplit = false)
    (hk : k ∈ env.members p) : k = r.home := by
  rw [members_of_package hr] at hk
  cases hv : r.isValid with
  | true =>
    rw [Package.declaring_of_isPlain (Package.isPlain_of_isValid hv hs)] at hk
    exact List.mem_singleton.mp hk
  | false =>
    rw [Package.declaring_of_not_isValid hv] at hk
    cases hk

/-! ## Covering later -/

theorem Covers.keeps (hk : env.Keeps after) (hb : ∀ q, ref = .package q → env.Binds q path)
    (hv : env.Covers m path ref) : after.Covers m path ref where
  offered ho := by
    rw [hk.sources hb]
    exact hv.offered (hk.offers.mp ho)
  home hh := by
    rw [hk.splitHome hb] at hh
    exact (hv.home hh).imp_right fun hall k ho => hall k (hk.offers.mp ho)

theorem CoversOwn.keeps (hk : env.Keeps after) (hb : ∀ q, ref = .package q → env.Binds q path)
    (hv : env.CoversOwn d path ref) : after.CoversOwn d path ref where
  own hd := by
    rw [hk.sources hb]
    exact hv.own (hk.declares.mp hd)
  home hd hh := by
    rw [hk.splitHome hb] at hh
    exact hv.home (hk.declares.mp hd) hh

theorem CoversSplit.keeps (hk : env.Keeps after) (hr : env.package c = .ok r)
    (hb : ∀ q, ref = .package q → env.Binds q path) (hv : env.CoversSplit c d path ref) :
    after.CoversSplit c d path ref where
  members := by
    rw [hk.members hr, hk.sources hb]
    refine hv.members.imp ?_ ?_
    · exact fun ⟨e, hno⟩ => ⟨e, fun k ho => hno k (hk.offers.mp ho)⟩
    · exact fun hall k hm hd => hall k hm (hk.declares.mp hd)
  home hh := by
    rw [hk.splitHome hb] at hh
    rw [hk.members hr]
    exact (hv.home hh).imp_right fun hall k hm ho => hall k hm (hk.offers.mp ho)

theorem CoversBelow.keeps {r' : Package} (hk : env.Keeps after) (hr : env.package c = .ok r)
    (hr' : after.package c = .ok r')
    (hb : ∀ q, ref = .package q → env.Binds q (.sub r.path name))
    (hv : env.CoversBelow c r name ref) : after.CoversBelow c r' name ref := by
  obtain ⟨r0, hr0, e⟩ := hk.packages hr
  cases package_unique hr' hr0
  constructor
  · intro hs
    rw [Package.home_eq_of_bare e, Package.path_eq_of_bare e]
    exact (hv.plain ((Package.isSplit_eq_of_bare e).symm.trans hs)).keeps hk hb
  · intro hs
    rw [Package.home_eq_of_bare e, Package.path_eq_of_bare e]
    exact (hv.split ((Package.isSplit_eq_of_bare e).symm.trans hs)).keeps hk hr hb

theorem CoversOwn.below (hs : r.isSplit = false)
    (hv : env.CoversOwn r.home (.sub r.path name) ref) : env.CoversBelow c r name ref :=
  ⟨fun _ => hv, fun hs' => absurd (hs.symm.trans hs') Bool.false_ne_true⟩

theorem CoversSplit.below (hs : r.isSplit = true)
    (hv : env.CoversSplit c r.home (.sub r.path name) ref) : env.CoversBelow c r name ref :=
  ⟨fun hs' => absurd (hs'.symm.trans hs) Bool.false_ne_true, fun _ => hv⟩

/-! ## From what is stored to what is seen -/

theorem Covers.own (hv : env.Covers d path ref) : env.CoversOwn d path ref where
  own hd := hv.offered hd.offers
  home hd hh := by
    rcases hv.home hh with e | hall
    · exact e
    · exact (hall d hd.offers).symm

/-- The home of what the module has is the module itself, or the only one to offer the path. -/
theorem Covers.home_of_package (hv : env.Covers m path (.package c)) (hr : env.package c = .ok r) :
    r.home = m ∨ ∀ k, env.Offers m path k → k = r.home := by
  by_cases hs : r.isSplit = true
  · exact hv.home (by rw [splitHome_of_package hr, if_pos hs])
  · exact .inr fun k ho => eq_home_of_mem_members hr (by simpa using hs) (hv.offered ho)

theorem Covers.below (hv : env.Covers m path .notFound) (hc : env.Coherent) :
    env.Covers m (.sub path name) .notFound where
  offered ho := hv.offered (ho.enclosing hc)
  home hh := by cases hh

/-- Below a plain binding of its own a module is offered at most what it declares itself. -/
theorem CoversOwn.covers (hv : env.CoversOwn m (.sub path name) ref) (hc : env.Coherent)
    (habove : env.Covers m path (.package c)) (hr : env.package c = .ok r)
    (hs : r.isSplit = false) (hhome : r.home = m) : env.Covers m (.sub path name) ref := by
  have hone {k : ModuleId} (ho : env.Offers m (.sub path name) k) : k = m :=
    (eq_home_of_mem_members hr hs (habove.offered (ho.enclosing hc))).trans hhome
  refine ⟨fun {k} ho => ?_, fun {h} hh => ?_⟩
  · have hkm := hone ho
    subst hkm
    exact hv.own ho.1
  · by_cases hex : ∃ k, env.Offers m (.sub path name) k
    · obtain ⟨k, ho⟩ := hex
      exact .inl (hv.home (hone ho ▸ ho.1) hh)
    · exact .inr fun k ho => absurd ⟨k, ho⟩ hex

/-- Whoever came by a split rightly gets a right answer from its entries. -/
theorem CoversSplit.covers (hv : env.CoversSplit c r.home (.sub path name) ref) (hc : env.Coherent)
    (habove : env.Covers m path (.package c)) (hr : env.package c = .ok r) :
    env.Covers m (.sub path name) ref := by
  have hmem {k : ModuleId} (ho : env.Offers m (.sub path name) k) : k ∈ env.members c :=
    habove.offered (ho.enclosing hc)
  -- whatever the module is offered below, the home of the split is offered too
  have hto {k : ModuleId} (ho : env.Offers m (.sub path name) k) :
      env.Offers r.home (.sub path name) k := by
    rcases habove.home_of_package hr with e | hall
    · rw [e]
      exact ho
    · have hk := hall k (ho.enclosing hc)
      rw [← hk]
      exact ho.1.offers
  refine ⟨fun {k} ho => ?_, fun {h} hh => ?_⟩
  · rcases hv.members with ⟨-, hno⟩ | hall
    · exact absurd (hto ho) (hno k)
    · exact hall k (hmem ho) ho.1
  · rcases hv.home hh with rfl | hall
    · exact (habove.home_of_package hr).imp_right fun hall k ho => hall k (ho.enclosing hc)
    · exact .inr fun k ho => hall k (hmem ho) (hto ho)

/-! ## Grounds for an entry -/

theorem Offered.covers (ho : env.Offered m path ref) (hc : env.Coherent) (hcl : env.Clear) :
    env.Covers m path ref :=
  ⟨fun hk => (ho.mem_sources_of_clear hc hcl).mpr hk, fun hh => .inl (ho.splitHome hc hh).1⟩

/-- A member that declares the path contributes to what it sees there. -/
theorem Contributed.shown (h : env.Contributed c path ps) (hv : env.Covering) (hc : env.Coherent)
    (hk : k ∈ env.members c) (hd : env.Declares k path) :
    ∃ b ∈ ps, env.seen k path = some (.package b) ∧ k ∈ env.members b := by
  obtain ⟨ref, hs⟩ := h.1 k hk
  obtain ⟨b, rfl, hkb⟩ := mem_sources.mp ((hv.seen hs).offered hd.offers)
  obtain ⟨r, hr, -⟩ := hc.seen hs
  exact ⟨b, (h.2 b).mpr ⟨hv.clear.tainted hr, k, hk, hs⟩, hs, hkb⟩

/-- Every member that declares the path contributes to what a search finds. -/
theorem Found.mem_of_declares (h : env.Found c d path q) (hv : env.Covering) (hc : env.Coherent)
    (hk : k ∈ env.members c) (hd : env.Declares k path) : k ∈ env.members q := by
  obtain ⟨ps, hps, h'⟩ := id h
  obtain ⟨b, -, hs, hkb⟩ := hps.shown hv hc hk hd
  obtain ⟨r, hr, -⟩ := hc.seen hs
  exact (h.mem_members hc).mpr ⟨k, hk, b, hs, hv.clear.tainted hr, hkb⟩

theorem Found.splitHome (hf : env.Found c d path q) (hv : env.Covering) (hc : env.Coherent)
    (hh : env.splitHome (.package q) = some h) :
    h = d ∨ ∀ k ∈ env.members c, env.Declares k path → k = h := by
  obtain ⟨ps, hps, rfl | ⟨-, hg⟩⟩ := hf
  · refine .inr fun k hk hd => ?_
    obtain ⟨b, hb, hs, -⟩ := hps.shown hv hc hk hd
    rw [List.mem_singleton.mp hb] at hs
    rcases (hv.seen hs).home hh with e | hall
    · exact e.symm
    · exact hall k hd.offers
  · exact .inl (hg.splitHome hh)

/-- There is nobody left to enrich with. -/
theorem Enriched.eq_child (h : env.Enriched c child m path e)
    (hall : ∀ k ∈ env.members c, env.Declares k path → k ∈ env.members child) : e = child := by
  obtain ⟨ps, hps, ⟨-, rfl⟩ | ⟨hne, -⟩⟩ := h
  · rfl
  · obtain ⟨b, hb⟩ := List.exists_mem_of_ne_nil ps hne
    obtain ⟨k, hk, -, hno, hd⟩ := (hps b).mp hb
    exact absurd (hall k hk ⟨b, hd⟩) hno

/-- A split that enriching gives is the child, or takes the home of the child. -/
theorem Enriched.splitHome (he : env.Enriched c b m path e) (hc : env.Coherent)
    (hcl : env.Clear) (hb : env.Binds b path) (hh : env.splitHome (.package e) = some h) :
    e = b ∨ ∃ rb, env.package b = .ok rb ∧ rb.home = h := by
  obtain ⟨ps, hps, ⟨-, rfl⟩ | ⟨hne, rb, hrb, hm⟩⟩ := he
  · exact .inl rfl
  · rcases hm.splitHome hh with ⟨rfl, -⟩ | ⟨p, hone, -⟩
    · exact .inr ⟨rb, hrb, rfl⟩
    · -- the child and its siblings are more than one
      have hall (q : PackageId) (hq : q ∈ ps ++ [b]) : env.Binds q path :=
        hps.with_child_binds hc hb q (List.mem_map_of_mem hq)
      rw [hcl.validOf hall] at hone
      cases ps with
      | nil => exact absurd rfl hne
      | cons a as => simp at hone

/-- Enriching what the home of a split is offered. -/
theorem Enriched.coversSplit (he : env.Enriched c b m path e) (hc : env.Coherent)
    (hcl : env.Clear) (ho : env.Offered m path (.package b)) :
    env.CoversSplit c m path (.package e) where
  members := by
    refine .inr fun k hk hd => (he.mem_members_of_clear hc hcl (ho.binds hc)).mpr ?_
    by_cases hkm : k = m
    · subst hkm
      exact .inl ((ho.mem_sources_of_clear hc hcl).mpr hd.offers)
    · exact .inr ⟨hk, hkm, hd⟩
  home hh := by
    have hv := ho.covers hc hcl
    rcases he.splitHome hc hcl (ho.binds hc) hh with rfl | ⟨rb, hrb, rfl⟩
    · exact (hv.home hh).imp_right fun hall k _ hk => hall k hk
    · exact (hv.home_of_package hrb).imp_right fun hall k _ hk => hall k hk

/-- The entries of the incarnations of a split, merged. -/
theorem Merges.coversSplit {s : Split} (hm : env.Merges r.home (.sub r.path name) refs ref)
    (hv : env.Covering) (hc : env.Coherent) (hr : env.package c = .ok r) (hk : r.kind = .split s)
    (hrefs : s.incarnations.toList.map (env.entry · name) = refs.map some) :
    env.CoversSplit c r.home (.sub r.path name) ref := by
  -- the entry of each incarnation covers what its home declares
  have hentry {k : ModuleId} (hkc : k ∈ env.members c) : ∃ i ∈ s.incarnations, ∃ ref' ∈ refs,
      env.entry i name = some ref' ∧ env.CoversOwn k (.sub r.path name) ref' := by
    rw [members_of_package hr] at hkc
    simp only [Package.declaring, hk] at hkc
    obtain ⟨i, hi, ri, hri, rfl⟩ := ((hc.split hr hk).declaring _).mp hkc
    obtain ⟨ri', hri', hpl, hpath⟩ := (hc.split hr hk).plain hi
    cases package_unique hri hri'
    have hin := List.mem_map_of_mem (f := (env.entry · name)) hi
    rw [hrefs] at hin
    obtain ⟨ref', href', he⟩ := List.mem_map.mp hin
    rw [← hpath]
    exact ⟨i, hi, ref', href', he.symm, (hv.entry hri he.symm).plain (Package.isSplit_of_isPlain hpl)⟩
  refine ⟨.inr fun k hkc hd => ?_, fun {h} hh => ?_⟩
  · obtain ⟨i, hi, ref', -, he, hown⟩ := hentry hkc
    exact (hm.mem_sources_of_entries hc hr hk hrefs).mpr ⟨i, hi, ref', he, hown.own hd⟩
  · rcases hm.splitHome hh with ⟨rfl, -⟩ | ⟨p, hone, rfl⟩
    · exact .inl rfl
    · refine .inr fun k hkc ho => ?_
      obtain ⟨i, -, ref', href', -, hown⟩ := hentry hkc
      -- the entry that has `k` is valid, and so the only valid one
      obtain ⟨p', rfl, hkp⟩ := Environment.mem_sources.mp (hown.own ho.1)
      have hp' := mem_validOf.mpr ⟨href', valid_of_mem_members hkp⟩
      rw [hone, List.mem_singleton] at hp'
      rw [← hp'] at hh
      exact (hown.home ho.1 hh).symm

/-- The result of a search, before it is combined with the entry that it replaces. -/
theorem Found.coversSplit (hf : env.Found c d path q) (hv : env.Covering) (hc : env.Coherent) :
    env.CoversSplit c d path (.package q) where
  members := .inr fun _ hk hd => hf.mem_of_declares hv hc hk hd
  home hh := (hf.splitHome hv hc hh).imp_right fun hall k hk ho => hall k hk ho.1

/-- A search is in vain only if no member declares the path. -/
theorem Contributed.coversSplit (h : env.Contributed c path []) (hv : env.Covering)
    (hc : env.Coherent) : env.CoversSplit c d path .notFound where
  members := by
    refine .inr fun k hk hd => ?_
    obtain ⟨b, hb, -⟩ := h.shown hv hc hk hd
    cases hb
  home hh := by cases hh

theorem Combines.coversSplit (hcomb : env.Combines d path q (env.entry c name) ref)
    (hc : env.Coherent) (hq : env.CoversSplit c d path (.package q)) (hb : env.Binds q path)
    (hbound : ∀ prev, env.entry c name = some (.package prev) → env.Binds prev path)
    (hprev : ∀ prev, env.entry c name = some prev → env.CoversSplit c d path prev) :
    env.CoversSplit c d path ref where
  members := by
    rcases hq.members with ⟨e, -⟩ | hall
    · cases e
    · exact .inr fun k hk hd => (hcomb.mem_sources hc hb hbound).1 (hall k hk hd)
  home hh := by
    cases hcomb with
    | fresh => exact hq.home hh
    | kept hp _ => exact (hprev _ hp).home hh
    | joined _ _ _ hg => exact .inl (hg.splitHome hh)

/-- Entries cover as much as the caches that they come from. -/
theorem Grounds.covers (hg : env.Grounds c r name ref) (hv : env.Covering) (hc : env.Coherent)
    (hr : env.package c = .ok r) : env.CoversBelow c r name ref := by
  cases hg with
  | own hpl hd =>
    refine CoversOwn.below (Package.isSplit_of_isPlain hpl) ⟨fun _ => ?_, fun _ hh => ?_⟩
    · obtain ⟨rb, hrb, -⟩ := hc.declared hd
      exact (hc.members_of_declared hd).mpr ⟨rfl, hv.clear.valid hrb⟩
    · rw [hc.splitHome_of_declared hd] at hh
      cases hh
  | merged hk hrefs hm =>
    exact CoversSplit.below (Package.isSplit_of_kind hk) (hm.coversSplit hv hc hr hk hrefs)
  | offered hwhy _ _ ho =>
    have hown := ho.covers hc hv.clear
    rcases hwhy with hs | rfl
    · exact hown.own.below hs
    · exact ⟨fun _ => hown.own, fun _ => ⟨.inl ⟨rfl, fun k hk => List.not_mem_nil (hown.offered hk)⟩,
        fun hh => by cases hh⟩⟩
  | enriched hs _ ho he => exact (he.coversSplit hc hv.clear ho).below hs
  | seen hs hseen => exact (hv.seen hseen).own.below hs
  | searched hs hf he hcomb =>
    cases he.eq_child fun k hk hd => hf.mem_of_declares hv hc hk hd
    exact (hcomb.coversSplit hc (hf.coversSplit hv hc) (hf.binds hc)
      (fun prev hp => hc.binds_of_entry hr hp) fun prev hp => (hv.entry hr hp).split hs).below hs
  | vain hs hvain => exact (hvain.coversSplit hv hc).below hs

theorem Covering.covers_of_entry (hv : env.Covering) (hc : env.Coherent)
    (hseen : env.seen m path = some (.package c)) (hr : env.package c = .ok r) (hhome : r.home = m)
    (he : env.entry c name = some ref) : env.Covers m (.sub path name) ref := by
  obtain ⟨r', hr', rfl⟩ := hc.seen hseen
  cases package_unique hr hr'
  by_cases hs : r.isSplit = true
  · exact ((hv.entry hr he).split hs).covers hc (hv.seen hseen) hr
  · have hs : r.isSplit = false := by simpa using hs
    exact (hhome ▸ (hv.entry hr he).plain hs).covers hc (hv.seen hseen) hr hs hhome

/-- Answers cover as much as the caches that they come from. -/
theorem Sights.covers (hs : env.Sights m path ref) (hv : env.Covering) (hc : env.Coherent) :
    env.Covers m path ref := by
  cases hs with
  | below hseen => exact (hv.seen hseen).below hc
  | top ho => exact ho.covers hc hv.clear
  | foreign _ _ _ ho => exact ho.covers hc hv.clear
  | stored hseen hr hhome he => exact hv.covers_of_entry hc hseen hr hhome he

/-- A new answer below a split of one's own. -/
theorem Sights.siblings (hs : env.Sights m (.sub path name) ref) (hv : env.Covering)
    (hc : env.Coherent) (hseen : env.seen m path = some (.package c))
    (hr : env.package c = .ok r) (hhome : r.home = m) (hsplit : r.isSplit = true)
    (hex : ∃ j, env.Offers m (.sub path name) j) (hk : k ∈ env.members c)
    (hd : env.Declares k (.sub path name)) : k ∈ env.sources ref := by
  cases hs with
  | below hseen' =>
    rw [hseen] at hseen'
    cases hseen'
  | foreign hseen' hr' hne _ =>
    rw [hseen] at hseen'
    cases hseen'
    cases package_unique hr hr'
    exact absurd hhome hne
  | stored hseen' _ _ he =>
    rw [hseen] at hseen'
    cases hseen'
    obtain ⟨r', hr', rfl⟩ := hc.seen hseen
    cases package_unique hr hr'
    rcases ((hv.entry hr he).split hsplit).members with ⟨-, hno⟩ | hall
    · obtain ⟨j, hj⟩ := hex
      exact absurd (hhome ▸ hj) (hno j)
    · exact hall k hk hd

theorem Covering.change (hv : env.Covering) (hs : env.Sighted) (hc : env.Coherent)
    (h : env.Change after) : after.Covering where
  clear := hv.clear.change h
  seen hseen := by
    rcases h.seen_back hseen with hold | hnew
    · exact (hv.seen hold).keeps h.keeps fun q e => hc.seen (e ▸ hold)
    · exact (hnew.covers hv hc).keeps h.keeps fun q e => (e ▸ hnew).binds hc
  entry {c r name ref} hr he := by
    rcases h.entry_back he with hold | ⟨r0, hr0, hg⟩
    · obtain ⟨r0, hr0, -⟩ := package_of_entry hold
      exact (hv.entry hr0 hold).keeps h.keeps hr0 hr fun q e => hc.binds_of_entry hr0 (e ▸ hold)
    · exact (hg.covers hv hc hr0).keeps h.keeps hr0 hr fun q e => (e ▸ hg).binds hc hr0
  siblings {m path name ref c r} hseen habove hr hhome hsplit hex k hk hd := by
    obtain ⟨j, hj⟩ := hex
    have hj := h.keeps.offers.mp hj
    have hd := h.keeps.declares.mp hd
    -- the answer above is an old one
    obtain ⟨ref', habove'⟩ : ∃ ref', env.seen m path = some ref' := by
      rcases h.seen_back hseen with hold | hnew
      · exact hs.above hold
      · exact hnew.above
    have e := h.seen habove'
    rw [habove] at e
    cases e
    obtain ⟨r0, hr0, -⟩ := hc.seen habove'
    obtain ⟨r', hr', e⟩ := h.keeps.packages hr0
    cases package_unique hr hr'
    rw [h.keeps.members hr0] at hk
    rw [Package.home_eq_of_bare e] at hhome
    rw [Package.isSplit_eq_of_bare e] at hsplit
    rcases h.seen_back hseen with hold | hnew
    · rw [h.keeps.sources fun q e => hc.seen (e ▸ hold)]
      exact hv.siblings hold habove' hr0 hhome hsplit ⟨j, hj⟩ k hk hd
    · rw [h.keeps.sources fun q e => (e ▸ hnew).binds hc]
      exact hnew.siblings hv hc habove' hr0 hhome hsplit ⟨j, hj⟩ hk hd

/-! ## Histories -/

/-- Nothing has been looked up, and no binding is invalid or tainted. -/
structure Blank (env : Environment) : Prop where
  seen : ∀ m path, env.seen m path = none
  entry : ∀ p name, env.entry p name = none
  split : ∀ {p r}, env.package p = .ok r → r.isSplit = false
  clear : env.Clear

theorem blank_empty : Environment.empty.Blank where
  seen _ _ := rfl
  entry _ _ := rfl
  split hp := by cases hp
  clear _ _ hp := by cases hp

theorem Blank.built (h : env.Blank) (hb : env.Built after) (hcl : env.Clears after) :
    after.Blank where
  seen m path := (hb.1.seen m path).trans (h.seen m path)
  entry p name := (hb.1.entry p name).trans (h.entry p name)
  split {p r} hp := by
    rcases hb.1.newPackage hp with ⟨r0, hr0⟩ | ⟨-, hs⟩
    · obtain ⟨r', hr', e⟩ := hb.1.package hr0
      cases package_unique hp hr'
      rw [e.isSplit, h.split hr0]
    · exact hs
  clear p r hp := by
    cases hclear : r.isClear with
    | true => rfl
    | false =>
      obtain ⟨r0, hr0, hno⟩ := hcl p r hp hclear
      rw [h.clear p r0 hr0] at hno
      cases hno

theorem Blank.sighted (h : env.Blank) : env.Sighted where
  above hs := by rw [h.seen] at hs; cases hs
  seen hs := by rw [h.seen] at hs; cases hs
  entry _ _ he := by rw [h.entry] at he; cases he
  split _ _ he := by rw [h.entry] at he; cases he

theorem Blank.covering (h : env.Blank) : env.Covering where
  clear := h.clear
  seen hs := by rw [h.seen] at hs; cases hs
  entry _ he := by rw [h.entry] at he; cases he
  siblings hs := by rw [h.seen] at hs; cases hs

variable {config : Config}

theorem Reaches.blank (h : Environment.empty.Reaches config Request.buildsClear env) :
    env.Coherent ∧ env.Blank := by
  induction h with
  | refl => exact ⟨coherent_empty, blank_empty⟩
  | tail _ ha hn hr ih =>
    obtain ⟨hraises, hcl, -⟩ :=
      (Request.builds_spec config (Request.builds_of_buildsClear ha) hn ih.1.graph).of_run hr
    have hb := hraises.built ih.1
    exact ⟨hb.2, ih.2.built hb (hcl ha)⟩

theorem Changes.covering (h : env.Changes after) (hc : env.Coherent) (hs : env.Sighted)
    (hv : env.Covering) : after.Sighted ∧ after.Covering :=
  h.induction (I := fun env => env.Sighted ∧ env.Covering) hc ⟨hs, hv⟩
    fun hc hstep ⟨hs, hv⟩ => ⟨hs.change hc hstep, hv.change hs hc hstep⟩

end Environment

end SplitPackages
