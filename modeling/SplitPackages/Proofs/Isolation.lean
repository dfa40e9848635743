import SplitPackages.Proofs.Coverage

/-!
# What earlier lookups change

`Sees` says by the graph alone what a module sees in a graph on which nothing
has been looked up: what it is offered, and below a split of its own also what
the other modules of the split declare. After lookups a module still sees all
that (`Sees.mem_sources`), but it may see more: the entries of the incarnations
of its split may hold what their homes have found for themselves.
`view_after_lookups` compares the two answers: they agree exactly when nobody
contributes to the later one whom the module does not see by the graph. That can
only be otherwise for a module that leads above the path (`LeadsOver`).
-/

namespace SplitPackages

/-- Views and resolutions on behalf of other modules. -/
def Request.looksWithout (m : ModuleId) : Request → Bool
  | view k _ => k ≠ m
  | resolve k _ => k ≠ m
  | _ => false

namespace Environment

/-- A split that the module sees at the path is its own. -/
def Leads (env : Environment) (m : ModuleId) (path : Path) : Prop :=
  env.Declares m path ∨ ∃ j k, j ≠ k ∧ env.Offers m path j ∧ env.Offers m path k

def Sees (env : Environment) (m : ModuleId) : Path → ModuleId → Prop
  | .top name, k => env.Offers m (.top name) k
  | .sub path name, k => env.Offers m (.sub path name) k ∨
      env.Leads m path ∧ (∃ j, env.Offers m (.sub path name) j) ∧ Sees env m path k ∧
        env.Declares k (.sub path name)

/-- The module leads at a path that encloses the path. -/
def LeadsOver (env : Environment) (m : ModuleId) : Path → Prop
  | .top _ => False
  | .sub path _ => env.Leads m path ∨ LeadsOver env m path

/-- The plain bindings that contribute to a reference. -/
def contributors (env : Environment) : Ref → List PackageId
  | .notFound => []
  | .package p => env.parts p

/-- The answers have the same rank and the same contributors. -/
def Agree (env after : Environment) (ref ref' : Ref) : Prop :=
  after.rank (some ref') = env.rank (some ref) ∧
    ∀ i, i ∈ after.contributors ref' ↔ i ∈ env.contributors ref

/-- The module sees what the graph says, and leads where it sees a split of its own. -/
structure Alone (env : Environment) (m : ModuleId) (path : Path) (ref : Ref) : Prop where
  sources : ∀ k, k ∈ env.sources ref ↔ env.Sees m path k
  leads : env.splitHome ref = some m → env.Leads m path

/-- Every binding that is stored has members. -/
structure Peopled (env : Environment) : Prop where
  seen : ∀ {m path q}, env.seen m path = some (.package q) → ∃ k, k ∈ env.members q
  entry : ∀ {c name q}, env.entry c name = some (.package q) → ∃ k, k ∈ env.members q

/-- Whoever sees a split of its own leads there or above. -/
def Led (env : Environment) : Prop :=
  ∀ m path ref, env.seen m path = some ref → env.splitHome ref = some m →
    env.Leads m path ∨ env.LeadsOver m path

variable {env mid after : Environment} {b c e p q : PackageId} {m k primary : ModuleId}
  {r : Package} {path : Path} {name : String} {ref : Ref} {refs : List Ref}

/-! ## What the graph says -/

theorem Offers.sees (h : env.Offers m path k) : env.Sees m path k := by
  cases path with
  | top name => exact h
  | sub path name => exact .inl h

theorem Keeps.leads (h : env.Keeps after) : after.Leads m path ↔ env.Leads m path := by
  unfold Leads
  simp only [h.declares, h.offers]

theorem Keeps.sees (h : env.Keeps after) : after.Sees m path k ↔ env.Sees m path k := by
  induction path with
  | top name => exact h.offers
  | sub path name ih => simp only [Sees, h.offers, h.leads, h.declares, ih]

theorem Keeps.leadsOver (h : env.Keeps after) : after.LeadsOver m path ↔ env.LeadsOver m path := by
  induction path with
  | top name => exact Iff.rfl
  | sub path name ih => simp only [LeadsOver, h.leads, ih]

/-- A module that leads is the home of what it sees. -/
theorem Covers.home_of_leads (hv : env.Covers m path (.package c)) (hr : env.package c = .ok r)
    (hl : env.Leads m path) : r.home = m := by
  rcases hv.home_of_package hr with e | hall
  · exact e
  rcases hl with hd | ⟨j, k, hne, hj, hk⟩
  · exact (hall m hd.offers).symm
  · exact absurd ((hall j hj).trans (hall k hk).symm) hne

/-- Nobody is missing from what a module sees. -/
theorem Sees.mem_sources (h : env.Sees m path k) (hc : env.Coherent) (hs : env.Sighted)
    (hv : env.Covering) (hseen : env.seen m path = some ref) : k ∈ env.sources ref := by
  induction path generalizing ref with
  | top name => exact (hv.seen hseen).offered h
  | sub path name ih =>
    rcases h with h | ⟨hl, hex, hk, hd⟩
    · exact (hv.seen hseen).offered h
    · obtain ⟨ref', habove⟩ := hs.above hseen
      obtain ⟨c, rfl, hkc⟩ := Environment.mem_sources.mp (ih hk habove)
      obtain ⟨r, hr, -⟩ := hc.seen habove
      have hhome := (hv.seen habove).home_of_leads hr hl
      by_cases hsplit : r.isSplit = true
      · exact hv.siblings hseen habove hr hhome hsplit hex k hkc hd
      · have hkm := (eq_home_of_mem_members hr (by simpa using hsplit) hkc).trans hhome
        subst hkm
        exact (hv.seen hseen).offered hd.offers

/-! ## Where nothing is stored -/

theorem Offered.exists_offers (ho : env.Offered m path (.package b)) :
    ∃ k, env.Offers m path k := by
  obtain ⟨ps, hps, ⟨-, e⟩ | hm⟩ := ho
  · cases e
  · have hne : ps ≠ [] := by
      rintro rfl
      cases hm <;> simp_all [validOf]
    obtain ⟨p, hp⟩ := List.exists_mem_of_ne_nil ps hne
    obtain ⟨k, hd, ha⟩ := (hps p).mp hp
    exact ⟨k, ⟨p, hd⟩, ha⟩

/-- A split that was peeled has two members. -/
theorem Coherent.two_members (hc : env.Coherent) (hr : env.package q = .ok r)
    (hs : r.isSplit = true) (hpeel : env.Peeled q) (hk : k ∈ env.members q) :
    ∃ i j, i ≠ j ∧ i ∈ env.members q ∧ j ∈ env.members q := by
  obtain ⟨s, hkind⟩ := Package.kind_of_isSplit hs
  have hparts : env.parts q = s.incarnations.toList := by
    rw [parts_of_package hr]
    simp only [Package.contributors, hkind]
  obtain ⟨i, hi, -⟩ := hc.members hr hk
  have hnodup := s.incarnations.nodup
  rw [← hparts] at hnodup
  cases hl : env.parts q with
  | nil =>
    rw [hl] at hi
    cases hi
  | cons a rest =>
    have ha : a ∈ env.parts q := hl ▸ List.mem_cons_self
    obtain ⟨ra, hra, hpla, -, hka⟩ := hc.parts hr ha
    cases rest with
    | nil =>
      have e := hpeel a hl
      subst e
      cases package_unique hr hra
      rw [Package.isSplit_of_isPlain hpla] at hs
      cases hs
    | cons b rest =>
      have hb : b ∈ env.parts q := hl ▸ List.mem_cons_of_mem _ List.mem_cons_self
      obtain ⟨rb, hrb, -, -, hkb⟩ := hc.parts hr hb
      refine ⟨ra.home, rb.home, fun e => ?_, hka, hkb⟩
      rw [hl, hc.eq_of_parts hr ha hb hra hrb e] at hnodup
      exact (List.nodup_cons.mp hnodup).1 List.mem_cons_self

/-- A split is offered by two modules. -/
theorem Offered.leads (ho : env.Offered m path ref) (hc : env.Coherent) (hcl : env.Clear)
    (hh : env.splitHome ref = some k) : env.Leads m path := by
  obtain ⟨q, r, rfl, hr, hs, -⟩ := package_of_splitHome hh
  obtain ⟨l, hl⟩ := ho.exists_offers
  have hsources {j : ModuleId} := ho.mem_sources_of_clear (k := j) hc hcl
  obtain ⟨i, j, hne, hi, hj⟩ :=
    hc.two_members hr hs ((ho.splitHome hc hh).2 q rfl) (hsources.mpr hl)
  exact .inr ⟨i, j, hne, hsources.mp hi, hsources.mp hj⟩

theorem Sights.led (hs : env.Sights m path ref) (hc : env.Coherent) (hcl : env.Clear)
    (h : env.Led) (hh : env.splitHome ref = some m) : env.Leads m path ∨ env.LeadsOver m path := by
  cases hs with
  | below _ => cases hh
  | top ho => exact .inl (ho.leads hc hcl hh)
  | foreign _ _ _ ho => exact .inl (ho.leads hc hcl hh)
  | @stored above name c r _ hseen hr hhome _ =>
    refine .inr ?_
    by_cases hsplit : r.isSplit = true
    · exact h m above _ hseen (by rw [splitHome_of_package hr, if_pos hsplit, hhome])
    · -- a plain binding of its own the module declares
      obtain ⟨r', hr', hpath⟩ := hc.seen hseen
      cases package_unique hr hr'
      have hown := hc.own hr (by simpa using hsplit)
      rw [hhome, hpath] at hown
      exact .inl (.inl ⟨c, hown⟩)

theorem Led.change (h : env.Led) (hc : env.Coherent) (hcl : env.Clear) (hch : env.Change after) :
    after.Led := by
  intro m path ref hs hh
  rw [hch.keeps.leads, hch.keeps.leadsOver]
  rcases hch.seen_back hs with hold | hnew
  · rw [hch.keeps.splitHome fun q e => hc.seen (e ▸ hold)] at hh
    exact h m path ref hold hh
  · rw [hch.keeps.splitHome fun q e => (e ▸ hnew).binds hc] at hh
    exact hnew.led hc hcl h hh

theorem Blank.led (h : env.Blank) : env.Led := by
  intro m path ref hs
  rw [h.seen] at hs
  cases hs

theorem Changes.led (hch : env.Changes after) (hc : env.Coherent) (hcl : env.Clear)
    (h : env.Led) : after.Led :=
  (hch.induction (I := fun env => env.Clear ∧ env.Led) hc ⟨hcl, h⟩
    fun hc hstep hi => ⟨hi.1.change hstep, hi.2.change hc hi.1 hstep⟩).2

theorem OwnSplitAbove.leadsOver (ho : env.OwnSplitAbove m path) (h : env.Led) :
    env.LeadsOver m path := by
  obtain ⟨above, name, c, r, rfl, hseen, hr, hhome, hsplit⟩ := ho
  exact h m above _ hseen (by rw [splitHome_of_package hr, if_pos hsplit, hhome])

/-- What was found without help is what the graph says, if that is so at the enclosing path. -/
theorem Unaided.alone (h : env.Unaided m path ref) (hc : env.Coherent) (hv : env.Covering)
    (habove : ∀ above name, path = .sub above name →
      ∃ c, env.seen m above = some (.package c) ∧ env.Alone m above (.package c)) :
    env.Alone m path ref := by
  cases h with
  | offered ho hown =>
    have hsources {k : ModuleId} := ho.mem_sources_of_clear (k := k) hc hv.clear
    refine ⟨fun k => ⟨fun hk => (hsources.mp hk).sees, fun hk => hsources.mpr ?_⟩, ?_⟩
    · cases path with
      | top name => exact hk
      | sub above name =>
        rcases hk with hk | ⟨hl, ⟨j, hj⟩, hk, hd⟩
        · exact hk
        · obtain ⟨c, hseen, halone⟩ := habove above name rfl
          obtain ⟨r, hr, -⟩ := hc.seen hseen
          have hhome := (hv.seen hseen).home_of_leads hr hl
          have hkc : k ∈ env.members c := (halone.sources k).mpr hk
          by_cases hs : r.isSplit = true
          · -- below a split of its own the module would have enriched what it is offered
            have e := hown above name c r rfl hseen hr hhome hs
            subst e
            have := hsources.mpr hj
            cases this
          · have hkm := (eq_home_of_mem_members hr (by simpa using hs) hkc).trans hhome
            subst hkm
            exact hd.offers
    · exact fun hh => ho.leads hc hv.clear hh
  | @enriched above name b c e r hseen hr hhome hs ho he =>
    obtain ⟨c', hseen', halone⟩ := habove above name rfl
    rw [hseen] at hseen'
    cases hseen'
    have hsources {k : ModuleId} := ho.mem_sources_of_clear (k := k) hc hv.clear
    have hlead : env.Leads m above := halone.leads (by rw [splitHome_of_package hr, if_pos hs, hhome])
    refine ⟨fun k => ?_, fun hh => ?_⟩
    · refine (he.mem_members_of_clear hc hv.clear (ho.binds hc)).trans ?_
      constructor
      · rintro (hk | ⟨hk, -, hd⟩)
        · exact .inl (hsources.mp hk)
        · exact .inr ⟨hlead, ho.exists_offers, (halone.sources k).mp hk, hd⟩
      · rintro (hk | ⟨-, -, hk, hd⟩)
        · exact .inl (hsources.mpr hk)
        · by_cases hkm : k = m
          · subst hkm
            exact .inl (hsources.mpr hd.offers)
          · exact .inr ⟨(halone.sources k).mpr hk, hkm, hd⟩
    · rcases he.splitHome hc hv.clear (ho.binds hc) hh with rfl | ⟨rb, hrb, hhome⟩
      · exact ho.leads hc hv.clear hh
      · by_cases hsb : rb.isSplit = true
        · exact ho.leads hc hv.clear (splitHome_of_package hrb ▸ if_pos hsb)
        · obtain ⟨k, hk⟩ := ho.exists_offers
          have hkm := eq_home_of_mem_members hrb (by simpa using hsb) (hsources.mpr hk)
          rw [hhome] at hkm
          exact .inl (hkm ▸ hk.1)

/-- Nothing is known below the bindings of a path after a look at that path. -/
theorem Looks.not_aided (hl : env.Looks m path after) (hblank : env.Blank) (hc : after.Coherent)
    (hr : after.package c = .ok r) (hpath : r.path = path) : ¬ after.Aided c r name := by
  have hnone {p : PackageId} (hp : after.Binds p path) : after.entry p name = none := by
    cases he : after.entry p name with
    | none => rfl
    | some ref =>
      rcases hl.entry he with hold | ⟨rp, hrp, hpre, -⟩
      · rw [hblank.entry] at hold
        cases hold
      · obtain ⟨rp', hrp', hp'⟩ := hp
        cases package_unique hrp hrp'
        rw [hp', not_isPrefixOf_sub] at hpre
        cases hpre
  rintro (hne | ⟨s, refs, hk, hne, hrefs⟩)
  · exact hne (hnone ⟨r, hr, hpath⟩)
  · obtain ⟨ref, href⟩ := List.exists_mem_of_ne_nil refs hne
    have hin := List.mem_map_of_mem (f := some) href
    rw [← hrefs] at hin
    obtain ⟨i, hi, he⟩ := List.mem_map.mp hin
    obtain ⟨ri, hri, -, hpi⟩ := (hc.split hr hk).plain hi
    rw [hnone ⟨ri, hri, hpi.trans hpath⟩] at he
    cases he

theorem Alone.keeps (hk : env.Keeps after) (hb : ∀ q, ref = .package q → env.Binds q path)
    (h : env.Alone m path ref) : after.Alone m path ref where
  sources k := by
    rw [hk.sources hb, hk.sees]
    exact h.sources k
  leads hh := by
    rw [hk.splitHome hb] at hh
    exact hk.leads.mpr (h.leads hh)

/-- Nobody is seen below a path at which nobody is seen. -/
theorem Alone.below (h : env.Alone m path .notFound) (hc : env.Coherent) :
    env.Alone m (.sub path name) .notFound where
  sources k := by
    refine ⟨fun hk => (by cases hk), fun hk => ?_⟩
    rcases hk with hk | ⟨-, -, hk, -⟩
    · exact (h.sources k).mpr (hk.enclosing hc).sees
    · exact (h.sources k).mpr hk
  leads hh := by cases hh

/-! ## Members -/

theorem Offered.peopled (ho : env.Offered m path (.package q)) (hc : env.Coherent)
    (hcl : env.Clear) : ∃ k, k ∈ env.members q := by
  obtain ⟨k, hk⟩ := ho.exists_offers
  exact ⟨k, (ho.mem_sources_of_clear hc hcl).mpr hk⟩

theorem Merges.peopled (hm : env.Merges primary path refs (.package q)) (hc : env.Coherent)
    (hb : env.AllBind path refs)
    (hrefs : ∀ p, .package p ∈ refs → ∃ k, k ∈ env.members p) : ∃ k, k ∈ env.members q := by
  obtain ⟨p, hp⟩ : ∃ p, .package p ∈ refs := by
    cases hm with
    | worse _ href => exact ⟨q, href⟩
    | one hone => exact ⟨q, (mem_validOf.mp (hone ▸ List.mem_singleton_self q)).1⟩
    | many hmany _ _ => exact ⟨_, (mem_validOf.mp (hmany ▸ List.mem_cons_self)).1⟩
  obtain ⟨k, hk⟩ := hrefs p hp
  exact ⟨k, (hm.mem_sources hc hb).mpr ⟨_, hp, hk⟩⟩

theorem Found.peopled (hf : env.Found c k path q) (hc : env.Coherent) (h : env.Peopled) :
    ∃ k, k ∈ env.members q := by
  obtain ⟨ps, hps, rfl | ⟨hlen, hg⟩⟩ := hf
  · obtain ⟨-, d, -, hs⟩ := (hps.2 q).mp (List.mem_singleton_self q)
    exact h.seen hs
  · obtain ⟨b, hb⟩ : ∃ b, b ∈ ps := by
      cases ps with
      | nil => simp at hlen
      | cons b _ => exact ⟨b, List.mem_cons_self⟩
    obtain ⟨-, d, -, hs⟩ := (hps.2 b).mp hb
    obtain ⟨l, hl⟩ := h.seen hs
    exact ⟨l, (hg.members hc (hps.binds hc)).mpr ⟨b, hb, hl⟩⟩

theorem Grounds.peopled (hg : env.Grounds c r name (.package q)) (hc : env.Coherent)
    (hcl : env.Clear) (h : env.Peopled) (hr : env.package c = .ok r) :
    ∃ k, k ∈ env.members q := by
  cases hg with
  | own _ hd =>
    obtain ⟨rb, hrb, -⟩ := hc.declared hd
    exact ⟨r.home, (hc.members_of_declared hd).mpr ⟨rfl, hcl.valid hrb⟩⟩
  | merged hk hrefs hm =>
    refine hm.peopled hc (hc.incarnations_allBind hr hk hrefs) fun p hp => ?_
    have hin := List.mem_map_of_mem (f := some) hp
    rw [← hrefs] at hin
    obtain ⟨i, -, he⟩ := List.mem_map.mp hin
    exact h.entry he
  | offered _ _ _ ho => exact ho.peopled hc hcl
  | enriched _ _ ho he =>
    obtain ⟨k, hk⟩ := ho.peopled hc hcl
    exact ⟨k, (he.mem_members_of_clear hc hcl (ho.binds hc)).mpr (.inl hk)⟩
  | seen _ hs => exact h.seen hs
  | searched _ hf he hcomb =>
    obtain ⟨k, hk⟩ := hf.peopled hc h
    have hke := (he.mem_members_of_clear hc hcl (hf.binds hc)).mpr (.inl hk)
    exact ⟨k, (hcomb.mem_sources hc (he.binds hc (hf.binds hc)) fun prev hp =>
      hc.binds_of_entry hr hp).1 hke⟩

theorem Sights.peopled (hs : env.Sights m path (.package q)) (hc : env.Coherent)
    (hcl : env.Clear) (h : env.Peopled) : ∃ k, k ∈ env.members q := by
  cases hs with
  | top ho => exact ho.peopled hc hcl
  | foreign _ _ _ ho => exact ho.peopled hc hcl
  | stored _ _ _ he => exact h.entry he

theorem Peopled.change (h : env.Peopled) (hc : env.Coherent) (hcl : env.Clear)
    (hch : env.Change after) : after.Peopled where
  seen {m path q} hs := by
    have hb : env.Binds q path ∧ ∃ k, k ∈ env.members q := by
      rcases hch.seen_back hs with hold | hnew
      · exact ⟨hc.seen hold, h.seen hold⟩
      · exact ⟨hnew.binds hc, hnew.peopled hc hcl h⟩
    obtain ⟨⟨r, hr, -⟩, hk⟩ := hb
    rw [hch.keeps.members hr]
    exact hk
  entry {c name q} he := by
    have hb : (∃ path, env.Binds q path) ∧ ∃ k, k ∈ env.members q := by
      rcases hch.entry_back he with hold | ⟨r, hr, hnew⟩
      · obtain ⟨r, hr, -⟩ := package_of_entry hold
        exact ⟨⟨_, hc.binds_of_entry hr hold⟩, h.entry hold⟩
      · exact ⟨⟨_, hnew.binds hc hr⟩, hnew.peopled hc hcl h hr⟩
    obtain ⟨⟨path, r, hr, -⟩, hk⟩ := hb
    rw [hch.keeps.members hr]
    exact hk

theorem Blank.peopled (h : env.Blank) : env.Peopled where
  seen hs := by rw [h.seen] at hs; cases hs
  entry he := by rw [h.entry] at he; cases he

theorem Changes.peopled (hch : env.Changes after) (hc : env.Coherent) (hcl : env.Clear)
    (h : env.Peopled) : after.Peopled :=
  (hch.induction (I := fun env => env.Clear ∧ env.Peopled) hc ⟨hcl, h⟩
    fun hc hstep hi => ⟨hi.1.change hstep, hi.2.change hc hi.1 hstep⟩).2

/-! ## Comparing answers -/

theorem mem_contributors (hc : env.Coherent) (hb : ∀ q, ref = .package q → env.Binds q path)
    {i : PackageId} : i ∈ env.contributors ref ↔
      ∃ k ∈ env.sources ref, env.declared k path = .ok (some i) := by
  cases ref with
  | notFound => simp [contributors, sources]
  | package q =>
    obtain ⟨r, hr, rfl⟩ := hb q rfl
    constructor
    · intro hi
      obtain ⟨ri, hri, hpl, hpath, hk⟩ := hc.parts hr hi
      exact ⟨ri.home, hk, hpath ▸ hc.own hri (Package.isSplit_of_isPlain hpl)⟩
    · rintro ⟨k, hk, hd⟩
      exact hc.mem_parts hr hk hd

/-- In a clear environment an answer ranks by whether anyone contributes to it. -/
theorem rank_eq (hcl : env.Clear) (hb : ∀ q, ref = .package q → env.Binds q path)
    (hk : ∀ q, ref = .package q → ∃ k, k ∈ env.members q) :
    env.rank (some ref) = .ok (if env.sources ref = [] then .notFound else .valid) := by
  cases ref with
  | notFound => rfl
  | package q =>
    obtain ⟨r, hr, -⟩ := hb q rfl
    obtain ⟨k, hk⟩ := hk q rfl
    have hne : env.sources (.package q) ≠ [] := List.ne_nil_of_mem hk
    have hv := hcl.valid hr
    rw [valid_of_package hr] at hv
    rw [if_neg hne]
    simp only [rank, hr, bind, Except.bind, hv, if_true]
    rfl

/-- Answers on the same graph agree if the same modules contribute to them. -/
theorem agree_iff {ref' : Ref} (hc : env.Coherent) (hc' : after.Coherent) (hcl : env.Clear)
    (hcl' : after.Clear) (hp : env.Peopled) (hp' : after.Peopled)
    (hd : ∀ {k id}, after.declared k path = .ok id ↔ env.declared k path = .ok id)
    (hs : env.seen m path = some ref) (hs' : after.seen m path = some ref') :
    env.Agree after ref ref' ↔ ∀ k, k ∈ after.sources ref' ↔ k ∈ env.sources ref := by
  have hb (q : PackageId) (e : ref = .package q) : env.Binds q path := hc.seen (e ▸ hs)
  have hb' (q : PackageId) (e : ref' = .package q) : after.Binds q path := hc'.seen (e ▸ hs')
  have hof {env : Environment} {ref : Ref} (hc : env.Coherent)
      (hb : ∀ q, ref = .package q → env.Binds q path) {k : ModuleId} (hk : k ∈ env.sources ref) :
      ∃ i, env.declared k path = .ok (some i) := by
    obtain ⟨q, rfl, hk⟩ := mem_sources.mp hk
    obtain ⟨r, hr, rfl⟩ := hb q rfl
    exact hc.declares_of_mem_members hr hk
  have honly {k l : ModuleId} {i : PackageId} (hk : env.declared k path = .ok (some i))
      (hl : env.declared l path = .ok (some i)) : k = l := by
    obtain ⟨r, hr, -, rfl, -⟩ := hc.declared hk
    obtain ⟨r', hr', -, rfl, -⟩ := hc.declared hl
    cases package_unique hr hr'
    rfl
  constructor
  · rintro ⟨-, hall⟩ k
    constructor
    · intro hk
      obtain ⟨i, hi⟩ := hof hc' hb' hk
      obtain ⟨l, hl, hli⟩ := (mem_contributors hc hb).mp
        ((hall i).mp ((mem_contributors hc' hb').mpr ⟨k, hk, hi⟩))
      rw [honly (hd.mp hi) hli]
      exact hl
    · intro hk
      obtain ⟨i, hi⟩ := hof hc hb hk
      obtain ⟨l, hl, hli⟩ := (mem_contributors hc' hb').mp
        ((hall i).mpr ((mem_contributors hc hb).mpr ⟨k, hk, hi⟩))
      rw [honly hi (hd.mp hli)]
      exact hl
  · intro hall
    refine ⟨?_, fun i => ?_⟩
    · rw [rank_eq hcl hb fun q e => hp.seen (e ▸ hs), rank_eq hcl' hb' fun q e => hp'.seen (e ▸ hs')]
      have hnil : after.sources ref' = [] ↔ env.sources ref = [] := by
        simp only [List.eq_nil_iff_forall_not_mem, hall]
      simp only [hnil]
    · rw [mem_contributors hc' hb', mem_contributors hc hb]
      exact exists_congr fun k => and_congr (hall k) hd

theorem Keeps.linked (hk : env.Keeps after) (h : after.Linked path m k) :
    env.Linked path m k := by
  induction h with
  | own path m => exact .own path m
  | exposed hr hx => exact .exposed (hk.reads.mp hr) (hk.exposes.mp hx)
  | through _ _ ih1 ih2 => exact .through ih1 ih2

end Environment

namespace Lookup

open Environment

variable {env : Environment} {m : ModuleId}

/-- Where nothing has been looked up, a module sees what the graph says. -/
theorem view_alone (hc : env.Coherent) (hblank : env.Blank)
    (hm : ∃ record, env.module m = .ok record) : ∀ path,
      (view m path).Ensures env fun ref after => env.Changes after ∧ env.Looks m path after ∧
        after.seen m path = some ref ∧ after.Alone m path ref
  | .top name => by
    obtain ⟨record, hrec⟩ := id hm
    have hnone := hblank.seen m (.top name)
    refine Ensures.step (Gives.ask hrec) ?_
    rw [← seen_of_module hrec, hnone]
    refine (viewBelow_spec hc hm hnone rfl).mono ?_
    rintro ref after ⟨hch, hl, hs, hun | ⟨_, _, e, -⟩⟩
    · obtain ⟨-, hv⟩ := hch.covering hc hblank.sighted hblank.covering
      exact ⟨hch, hl, hs, hun.alone (hch.coherent hc) hv fun _ _ e => by cases e⟩
    · cases e
  | .sub above name => by
    obtain ⟨record, hrec⟩ := id hm
    have hnone := hblank.seen m (.sub above name)
    refine Ensures.step (Gives.ask hrec) ?_
    rw [← seen_of_module hrec, hnone]
    refine (view_alone hc hblank hm above).bind ?_
    rintro ref1 env1 ⟨hch1, hl1, hs1, ha1⟩
    have hc1 := hch1.coherent hc
    have hm1 := hch1.keeps.module_ok hm
    have hnone1 := (hl1.seen_sub name).trans hnone
    cases ref1 with
    | notFound =>
      refine (remember_spec hm1 hnone1 (.below hs1)).mono ?_
      rintro ref after ⟨rfl, hch, hl, hs, -⟩
      exact ⟨hch1.trans hch, (hl1.below name).trans hch hl, hs,
        (ha1.below hc1).keeps hch.keeps fun q e => by cases e⟩
    | package c =>
      refine (viewBelow_spec hc1 hm1 hnone1 ⟨c, rfl, hs1⟩).mono ?_
      rintro ref after ⟨hch, hl, hs, hwhy⟩
      have hch' := hch1.trans hch
      refine ⟨hch', (hl1.below name).trans hch hl, hs, ?_⟩
      rcases hwhy with hun | ⟨c', r, e, hr, -, haid⟩
      · obtain ⟨-, hv⟩ := hch'.covering hc hblank.sighted hblank.covering
        refine hun.alone (hch'.coherent hc) hv fun above' name' e => ?_
        cases e
        exact ⟨c, hch.seen hs1, ha1.keeps hch.keeps fun q e => hc1.seen (e ▸ hs1)⟩
      · cases e
        obtain ⟨r', hr', hpath⟩ := hc1.seen hs1
        cases package_unique hr hr'
        exact absurd haid (hl1.not_aided hblank hc1 hr hpath)

end Lookup

namespace Environment

variable {built env : Environment} {config : Config} {m : ModuleId}

/-- The answer of a module after any lookups, next to its answer on the graph as it was built.
Nothing is lost. The two agree exactly when the graph lets the module see everyone who contributes
to the later one. Whoever else contributes is linked to the module, below a split of its own; so
nothing changes for a module that leads nowhere above the path. -/
theorem view_after_lookups
    (hbuild : Environment.empty.Reaches config Request.buildsClear built)
    (hlook : built.Reaches config Request.looks env) (hm : m.index < built.modules.size)
    (path : Path) :
    ∃ alone fresh ref after, (Lookup.view m path).Gives built alone fresh ∧
      (Lookup.view m path).Gives env ref after ∧
      (∀ i ∈ fresh.contributors alone, i ∈ after.contributors ref) ∧
      (fresh.Agree after alone ref ↔ ∀ k ∈ after.sources ref, built.Sees m path k) ∧
      ∀ k ∈ after.sources ref, built.Sees m path k ∨
        built.Linked path m k ∧ after.OwnSplitAbove m path ∧ built.LeadsOver m path := by
  obtain ⟨hcb, hblank⟩ := hbuild.blank
  have hch := hlook.changes hcb
  have hc := hch.coherent hcb
  have hmb := module_of_lt_size hm
  have hm := hch.keeps.module_ok hmb
  obtain ⟨alone, fresh, hgives, hch0, -, hs0, halone⟩ := Lookup.view_alone hcb hblank hmb path
  obtain ⟨ref, after, hgives', hch1, -, hs1⟩ := Lookup.view_spec hc hm path
  -- both answers come by steps from the graph as it was built
  have hch1 := hch.trans hch1
  have hc0 := hch0.coherent hcb
  have hc1 := hch1.coherent hcb
  obtain ⟨-, hv0⟩ := hch0.covering hcb hblank.sighted hblank.covering
  obtain ⟨hsight, hv1⟩ := hch1.covering hcb hblank.sighted hblank.covering
  have hp0 := hch0.peopled hcb hblank.clear hblank.peopled
  have hp1 := hch1.peopled hcb hblank.clear hblank.peopled
  have hdecl {k : ModuleId} {id : Option PackageId} :
      after.declared k path = .ok id ↔ fresh.declared k path = .ok id := by
    rw [hch1.keeps.declared, hch0.keeps.declared]
  have hsees (k : ModuleId) : k ∈ fresh.sources alone ↔ built.Sees m path k :=
    (halone.sources k).trans hch0.keeps.sees
  have hkept (k : ModuleId) (hk : built.Sees m path k) : k ∈ after.sources ref :=
    (hch1.keeps.sees.mpr hk).mem_sources hc1 hsight hv1 hs1
  refine ⟨alone, fresh, ref, after, hgives, hgives', fun i hi => ?_, ?_, fun k hk => ?_⟩
  · obtain ⟨k, hk, hi⟩ := (mem_contributors hc0 fun q e => hc0.seen (e ▸ hs0)).mp hi
    exact (mem_contributors hc1 fun q e => hc1.seen (e ▸ hs1)).mpr
      ⟨k, hkept k ((hsees k).mp hk), hdecl.mpr hi⟩
  · rw [agree_iff hc0 hc1 hv0.clear hv1.clear hp0 hp1 hdecl hs0 hs1]
    constructor
    · exact fun hall k hk => (hsees k).mp ((hall k).mp hk)
    · exact fun hall k => ⟨fun hk => (hsees k).mpr (hall k hk), fun hk => hkept k ((hsees k).mp hk)⟩
  · obtain ⟨hlinked, hwhy⟩ := hsight.seen hs1 k hk
    rcases hwhy with ha | hown
    · obtain ⟨q, rfl, hk⟩ := mem_sources.mp hk
      obtain ⟨r, hr, rfl⟩ := hc1.seen hs1
      have hoffers : after.Offers m r.path k := ⟨hc1.declares_of_mem_members hr hk, ha⟩
      exact .inl (hch1.keeps.offers.mp hoffers).sees
    · have hlead := hown.leadsOver (hch1.led hcb hblank.clear hblank.led)
      exact .inr ⟨hch1.keeps.linked hlinked, hown, hch1.keeps.leadsOver.mp hlead⟩

/-- Two modules share a package that both export to a third, and one that neither does. -/
def sharedSecret : List Request :=
  [.addModule "a" false, .addModule "b" false, .addModule "n" false,
    .declarePackage ⟨0⟩ (.sub (.top "com") "foo"), .declarePackage ⟨0⟩ (.sub (.top "com") "secret"),
    .declarePackage ⟨1⟩ (.sub (.top "com") "foo"), .declarePackage ⟨1⟩ (.sub (.top "com") "secret"),
    .addExport ⟨0⟩ (.sub (.top "com") "foo"), .addExport ⟨1⟩ (.sub (.top "com") "foo"),
    .addRead ⟨2⟩ ⟨0⟩, .addRead ⟨2⟩ ⟨1⟩]

/-- Both owners look at what they share. -/
def looksByOwners : List Request :=
  [.view ⟨0⟩ (.sub (.top "com") "secret"), .view ⟨1⟩ (.sub (.top "com") "secret")]

theorem view_after_lookups_sharedSecret :
    ∃ built env, Environment.empty.Reaches .standard Request.buildsClear built ∧
      built.Reaches .standard Request.looks env ∧ 2 < built.modules.size ∧
      ∃ alone fresh ref after,
        (Lookup.view ⟨2⟩ (.sub (.top "com") "secret")).Gives built alone fresh ∧
        (Lookup.view ⟨2⟩ (.sub (.top "com") "secret")).Gives env ref after ∧
        (∀ i ∈ fresh.contributors alone, i ∈ after.contributors ref) ∧
        (fresh.Agree after alone ref ↔
          ∀ k ∈ after.sources ref, built.Sees ⟨2⟩ (.sub (.top "com") "secret") k) ∧
        ∀ k ∈ after.sources ref, built.Sees ⟨2⟩ (.sub (.top "com") "secret") k ∨
          built.Linked (.sub (.top "com") "secret") ⟨2⟩ k ∧
            after.OwnSplitAbove ⟨2⟩ (.sub (.top "com") "secret") ∧
            built.LeadsOver ⟨2⟩ (.sub (.top "com") "secret") := by
  have hrun : (replay .standard Request.buildsClear sharedSecret .empty).any (fun built =>
      2 < built.modules.size && (replay .standard Request.looks looksByOwners built).isSome) =
        true := by decide +kernel
  obtain ⟨built, hbuilt, hrun⟩ := (Option.any_eq_true _ _).mp hrun
  rw [Bool.and_eq_true] at hrun
  obtain ⟨env, henv⟩ := Option.isSome_iff_exists.mp hrun.2
  have hbuild := reaches_of_replay hbuilt
  have hlook := reaches_of_replay henv
  have hsize : 2 < built.modules.size := of_decide_eq_true hrun.1
  exact ⟨built, env, hbuild, hlook, hsize, view_after_lookups hbuild hlook hsize _⟩

/-- Whether the module sees a package at the path. -/
def seesPackage (m : ModuleId) (path : Path) (env : Environment) : Bool :=
  match Lookup.view m path ⟨env, .empty⟩ with
  | .ok (.package _, _) => true
  | _ => false

theorem rank_package_ne (p : PackageId) : env.rank (some (.package p)) ≠ .ok .notFound := by
  intro h
  cases hp : env.package p with
  | error e =>
    simp only [rank, hp, bind, Except.bind] at h
    cases h
  | ok r =>
    simp only [rank, hp, bind, Except.bind, pure, Except.pure, Except.ok.injEq] at h
    split at h <;> cases h

/-- Lookups of other modules can change what a module sees. -/
theorem view_not_isolated :
    ¬ ∀ {config : Config} {built env : Environment} {m : ModuleId} (path : Path),
      Environment.empty.Reaches config Request.buildsClear built →
      built.Reaches config (Request.looksWithout m) env → m.index < built.modules.size →
      ∃ alone fresh ref after, (Lookup.view m path).Gives built alone fresh ∧
        (Lookup.view m path).Gives env ref after ∧ fresh.Agree after alone ref := by
  intro h
  have hrun : (replay .standard Request.buildsClear sharedSecret .empty).any (fun built =>
      2 < built.modules.size && !seesPackage ⟨2⟩ (.sub (.top "com") "secret") built &&
        (replay .standard (Request.looksWithout ⟨2⟩) looksByOwners built).any
          (seesPackage ⟨2⟩ (.sub (.top "com") "secret"))) = true := by decide +kernel
  obtain ⟨built, hbuilt, hrun⟩ := (Option.any_eq_true _ _).mp hrun
  rw [Bool.and_eq_true, Bool.and_eq_true, Bool.not_eq_true'] at hrun
  obtain ⟨env, henv, hsees⟩ := (Option.any_eq_true _ _).mp hrun.2
  obtain ⟨alone, fresh, ref, after, hgives, hgives', hrank, -⟩ := h (.sub (.top "com") "secret")
    (reaches_of_replay hbuilt) (reaches_of_replay henv) (of_decide_eq_true hrun.1.1)
  obtain ⟨_, hrun0⟩ := hgives .empty
  obtain ⟨_, hrun1⟩ := hgives' .empty
  have halone := hrun.1.2
  unfold seesPackage at halone hsees
  rw [hrun0] at halone
  rw [hrun1] at hsees
  cases alone with
  | package p => cases halone
  | notFound =>
    cases ref with
    | notFound => cases hsees
    | package p => exact rank_package_ne p hrank

end Environment

end SplitPackages
