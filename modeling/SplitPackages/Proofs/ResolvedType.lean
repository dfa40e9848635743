import SplitPackages.Proofs.Coverage

/-!
# Which type a lookup finds

In a graph without invalid or tainted bindings, what a path resolves to covers
everyone who offers the path (`Resolved.covers`). Whoever declares a type that
the module can access offers the path of its package. So a type lookup sees all
those types, and only the graph decides what it answers: `resolveType_decided`.
-/

namespace SplitPackages

namespace Environment

/-- The module `k` has this type of that name at the path, and `m` can access it. -/
def Provides (env : Environment) (m : ModuleId) (path : Path) (name : String) (k : ModuleId)
    (t : TypeId) : Prop :=
  ∃ p, env.declared k path = .ok (some p) ∧ env.HasType p name t ∧
    (k = m ∨ env.Reads m k ∧ ∃ record, env.module k = .ok record ∧
      record.exportsPackage path = true)

/-- The answer is as many as the types that are provided: one found, or an ambiguity of two. -/
structure Decided (env : Environment) (m : ModuleId) (path : Path) (name : String)
    (resolution : TypeResolution) : Prop where
  found : ∀ t, resolution = .found t ↔
    ∃ k, env.Provides m path name k t ∧ ∀ l u, env.Provides m path name l u → l = k
  ambiguous : (∃ t u, resolution = .failed (.ambiguous t u)) ↔
    ∃ k t l u, k ≠ l ∧ env.Provides m path name k t ∧ env.Provides m path name l u
  named : ∀ t u, resolution = .failed (.ambiguous t u) →
    ∃ k l, k ≠ l ∧ env.Provides m path name k t ∧ env.Provides m path name l u

variable {env after : Environment} {c i j p : PackageId} {m k l : ModuleId} {r ri : Package}
  {path : Path} {name : String} {ref : Ref} {t u : TypeId}

/-! ## What a path resolves to -/

theorem ChildAnswer.covers {answer : Option PackageId} (h : ChildAnswer env c r name m after answer)
    (hch : env.Changes after) (hc : env.Coherent) (hs : env.Sighted) (hv : env.Covering)
    (hr : env.package c = .ok r) (habove : env.Covers m r.path (.package c)) :
    ∃ ref, answer = ref.package? ∧ after.Covers m (.sub r.path name) ref := by
  have hafter := hch.coherent hc
  have hv' := (hch.covering hc hs hv).2
  have hbound (q : PackageId) (e : Ref.package c = .package q) : env.Binds q r.path := by
    cases e
    exact ⟨r, hr, rfl⟩
  cases h with
  | problem hk =>
    have := hv.clear c r hr
    simp [Package.isClear, Package.isValid, hk] at this
  | @stored ref hwhy he =>
    refine ⟨ref, rfl, ?_⟩
    obtain ⟨r', hr', e⟩ := hch.keeps.packages hr
    have habove' := habove.keeps hch.keeps hbound
    have hbelow := hv'.entry hr' he
    rw [← Package.path_eq_of_bare e] at habove' ⊢
    rcases hwhy with hsplit | ⟨hpl, hhome⟩
    · refine (hbelow.split ?_).covers hafter habove' hr'
      rw [Package.isSplit_eq_of_bare e, hsplit]
    · have hs' : r'.isSplit = false := by
        rw [Package.isSplit_eq_of_bare e, Package.isSplit_of_isPlain hpl]
      have hhome' : r'.home = m := (Package.home_eq_of_bare e).trans hhome
      exact (hhome' ▸ hbelow.plain hs').covers hafter habove' hr' hs' hhome'
  | @seen ref _ hseen => exact ⟨ref, rfl, hv'.seen hseen⟩
  | @searched mid _ _ h1 h2 hsearch =>
    have hmid := h1.coherent hc
    have hvm := (h1.covering hc hs hv).2
    obtain ⟨rm, hrm, e⟩ := h1.keeps.packages hr
    have habove' := habove.keeps h1.keeps hbound
    rw [← Package.path_eq_of_bare e] at habove' hsearch ⊢
    rw [← Package.home_eq_of_bare e] at hsearch
    rcases hsearch with ⟨rfl, hvain⟩ | ⟨q, rfl, hf⟩
    · refine ⟨.notFound, rfl, Covers.keeps h2.keeps (fun q e => by cases e) ?_⟩
      exact (hvain.coversSplit hvm hmid).covers hmid habove' hrm
    · refine ⟨.package q, rfl, Covers.keeps h2.keeps (fun q e => ?_) ?_⟩
      · cases e
        exact hf.binds hmid
      · exact (hf.coversSplit hvm hmid).covers hmid habove' hrm

/-- A resolved package covers the path, and if there is none, nobody offers it. -/
theorem Resolved.covers {answer : Option PackageId} (h : env.Resolved m path after answer)
    (hc : env.Coherent) (hs : env.Sighted) (hv : env.Covering) :
    ∃ ref, answer = ref.package? ∧ after.Covers m path ref := by
  induction h with
  | top hch hseen => exact ⟨_, rfl, (hch.covering hc hs hv).2.seen hseen⟩
  | lost h ih =>
    obtain ⟨ref, e, habove⟩ := ih
    cases ref with
    | notFound => exact ⟨.notFound, rfl, habove.below (h.changes.coherent hc)⟩
    | package p => cases e
  | @child path name mid after c r answer h1 hr hch hanswer ih =>
    obtain ⟨ref, e, habove⟩ := ih
    obtain rfl := package?_eq_some.mp e.symm
    obtain ⟨r', hr', rfl⟩ := h1.binds hc
    cases package_unique hr hr'
    obtain ⟨hs1, hv1⟩ := h1.changes.covering hc hs hv
    exact hanswer.covers hch (h1.changes.coherent hc) hs1 hv1 hr habove

/-! ## Types -/

theorem Provides.offers (h : env.Provides m path name k t) : env.Offers m path k := by
  obtain ⟨p, hd, -, ha⟩ := h
  refine ⟨⟨p, hd⟩, ha.imp_right fun ⟨hr, record, hrec, hx⟩ => ⟨hr, record, hrec, ?_⟩⟩
  exact Module.exposes_of_exportsPackage hx

/-- The types that the module can access in what it has are those that are provided. -/
theorem Coherent.provides_iff (hc : env.Coherent) (hv : env.Covers m r.path (.package p))
    (hr : env.package p = .ok r) : env.Provides m r.path name k t ↔
      ∃ i ∈ env.parts p, ∃ ri, env.package i = .ok ri ∧ ri.home = k ∧ env.HasType i name t ∧
        env.Accesses m i := by
  constructor
  · intro h
    have hmem : k ∈ env.members p := hv.offered h.offers
    obtain ⟨i, hd, ht, ha⟩ := h
    have hi := hc.mem_parts hr hmem hd
    obtain ⟨ri, hri, hpl, hpath, -⟩ := hc.parts hr hi
    obtain ⟨ri', hri', -, rfl, -⟩ := hc.declared hd
    cases package_unique hri hri'
    refine ⟨i, hi, ri, hri, rfl, ht, (accesses_plain hri hpl).mpr ?_⟩
    rw [hpath]
    exact ha
  · rintro ⟨i, hi, ri, hri, rfl, ht, ha⟩
    obtain ⟨ri', hri', hpl, hpath, -⟩ := hc.parts hr hi
    cases package_unique hri hri'
    have hd := hc.own hri (Package.isSplit_of_isPlain hpl)
    rw [hpath] at hd
    rw [accesses_plain hri hpl, hpath] at ha
    exact ⟨i, hd, ht, ha⟩

theorem Provides.unique (h : env.Provides m path name k t) (h' : env.Provides m path name k u) :
    t = u := by
  obtain ⟨p, hd, ht, -⟩ := h
  obtain ⟨q, hd', hu, -⟩ := h'
  rw [hd] at hd'
  cases hd'
  rw [HasType, ht] at hu
  cases hu
  rfl

theorem Decided.of_none {resolution : TypeResolution} (hno : ∀ k t, ¬ env.Provides m path name k t)
    (hfound : ∀ t, resolution ≠ .found t)
    (hamb : ∀ t u, resolution ≠ .failed (.ambiguous t u)) :
    env.Decided m path name resolution where
  found t := ⟨fun e => absurd e (hfound t), fun ⟨k, h, _⟩ => absurd h (hno k t)⟩
  ambiguous := ⟨fun ⟨t, u, e⟩ => absurd e (hamb t u), fun ⟨k, t, _, _, _, h, _⟩ => absurd h (hno k t)⟩
  named t u e := absurd e (hamb t u)

theorem TypeAnswer.decided {resolution : TypeResolution}
    (h : env.TypeAnswer m p name resolution) (hc : env.Coherent)
    (hv : env.Covers m r.path (.package p)) (hr : env.package p = .ok r) :
    env.Decided m r.path name resolution := by
  have hprov {k : ModuleId} {t : TypeId} : env.Provides m r.path name k t ↔
      ∃ i ∈ env.parts p, ∃ ri, env.package i = .ok ri ∧ ri.home = k ∧ env.HasType i name t ∧
        env.Accesses m i := hc.provides_iff hv hr
  have hof {i : PackageId} {t : TypeId} (hi : i ∈ env.parts p) (ht : env.HasType i name t)
      (ha : env.Accesses m i) :
      ∃ ri, env.package i = .ok ri ∧ env.Provides m r.path name ri.home t := by
    obtain ⟨ri, hri, -⟩ := hc.parts hr hi
    exact ⟨ri, hri, hprov.mpr ⟨i, hi, ri, hri, rfl, ht, ha⟩⟩
  cases h with
  | @found i t hi ht ha hone =>
    obtain ⟨ri, hri, hp⟩ := hof hi ht ha
    have honly (l : ModuleId) (u : TypeId) (hl : env.Provides m r.path name l u) : l = ri.home := by
      obtain ⟨j, hj, rj, hrj, rfl, hu, haj⟩ := hprov.mp hl
      cases hone j hj u hu haj
      cases package_unique hri hrj
      rfl
    refine ⟨fun t' => ⟨?_, ?_⟩, ⟨?_, ?_⟩, ?_⟩
    · intro e
      cases e
      exact ⟨ri.home, hp, honly⟩
    · rintro ⟨k, hk, -⟩
      cases honly k t' hk
      rw [hk.unique hp]
    · rintro ⟨t, u, e⟩
      cases e
    · rintro ⟨k, _, l, _, hne, hk, hl⟩
      exact absurd ((honly k _ hk).trans (honly l _ hl).symm) hne
    · intro t u e
      cases e
  | @ambiguous i j t u hi hj hne ht hu hai haj =>
    obtain ⟨ri, hri, hpi⟩ := hof hi ht hai
    obtain ⟨rj, hrj, hpj⟩ := hof hj hu haj
    have hhomes : ri.home ≠ rj.home := fun e => hne (hc.eq_of_parts hr hi hj hri hrj e)
    refine ⟨fun t' => ⟨fun e => (by cases e), ?_⟩, ⟨?_, ?_⟩, ?_⟩
    · rintro ⟨k, -, honly⟩
      exact absurd ((honly _ _ hpi).trans (honly _ _ hpj).symm) hhomes
    · exact fun _ => ⟨_, _, _, _, hhomes, hpi, hpj⟩
    · exact fun _ => ⟨t, u, rfl⟩
    · intro t' u' e
      cases e
      exact ⟨_, _, hhomes, hpi, hpj⟩
  | hidden _ _ hall =>
    refine Decided.of_none (fun k t' h => ?_) (fun t e => by cases e) fun t u e => by cases e
    obtain ⟨j, hj, _, _, _, hu, ha⟩ := hprov.mp h
    rw [Accesses, hall j hj t' hu] at ha
    cases ha
  | missing hno =>
    refine Decided.of_none (fun k t' h => ?_) (fun t e => by cases e) fun t u e => by cases e
    obtain ⟨j, hj, _, _, _, hu, -⟩ := hprov.mp h
    exact hno j hj t' hu

theorem Keeps.provides (hk : env.Keeps after) (hc : env.Coherent) :
    after.Provides m path name k t ↔ env.Provides m path name k t := by
  have htype {p : PackageId} (hd : env.declared k path = .ok (some p)) :
      after.HasType p name t ↔ env.HasType p name t := by
    obtain ⟨r, hr, -⟩ := hc.declared hd
    obtain ⟨r', hr', e⟩ := hk.packages hr
    rw [hasType_of_package hr', hasType_of_package hr, Package.types_eq_of_bare e]
  have hexports : (∃ record, after.module k = .ok record ∧ record.exportsPackage path = true) ↔
      ∃ record, env.module k = .ok record ∧ record.exportsPackage path = true := by
    constructor
    · rintro ⟨record, hrec, hx⟩
      obtain ⟨record', hrec', e⟩ := hk.module_back hrec
      exact ⟨record', hrec', by rw [← Module.exportsPackage_eq_of_bare e, hx]⟩
    · rintro ⟨record, hrec, hx⟩
      obtain ⟨record', hrec', e⟩ := hk.module hrec
      exact ⟨record', hrec', by rw [Module.exportsPackage_eq_of_bare e, hx]⟩
  unfold Provides
  rw [hk.reads, hexports]
  refine exists_congr fun p => ?_
  rw [hk.declared]
  exact and_congr_right fun hd => and_congr_left fun _ => htype hd

theorem Decided.keeps {resolution : TypeResolution} (hk : env.Keeps after) (hc : env.Coherent)
    (h : after.Decided m path name resolution) : env.Decided m path name resolution where
  found := by simpa only [hk.provides hc] using h.found
  ambiguous := by simpa only [hk.provides hc] using h.ambiguous
  named := by simpa only [hk.provides hc] using h.named

variable {built : Environment} {config : Config}

/-- Whatever lookups are done on a graph without invalid or tainted bindings, by whom and in what
order, a type lookup finds the type that is provided if there is one only, and is ambiguous if
there are more; and the graph that was built says which are provided. -/
theorem resolveType_decided {qualified : String}
    (hbuild : Environment.empty.Reaches config Request.buildsClear built)
    (hlook : built.Reaches config Request.looks env) (hm : m.index < env.modules.size)
    (hq : Path.splitTypeName qualified = .ok (path, name)) :
    (∀ k t, env.Provides m path name k t ↔ built.Provides m path name k t) ∧
      (Lookup.resolveType m qualified).Ensures env fun answer _ =>
        ∃ resolution, answer = .ok resolution ∧ env.Decided m path name resolution := by
  obtain ⟨hcb, hblank⟩ := hbuild.blank
  have hch := hlook.changes hcb
  have hc := hch.coherent hcb
  obtain ⟨hs, hv⟩ := hch.covering hcb hblank.sighted hblank.covering
  refine ⟨fun k t => hch.keeps.provides hcb, ?_⟩
  refine (Lookup.resolveType_spec hc (module_of_lt_size hm) hq).mono ?_
  rintro answer after ⟨resolution, resolved, rfl, hres, h⟩
  have hafter := hres.changes.coherent hc
  obtain ⟨ref, e, hcov⟩ := hres.covers hc hs hv
  refine ⟨resolution, rfl, Decided.keeps hres.changes.keeps hc ?_⟩
  cases resolved with
  | none =>
    cases h
    have hno (k : ModuleId) (t : TypeId) : ¬ after.Provides m path name k t := by
      intro h
      have hk := hcov.offered h.offers
      cases ref with
      | notFound => cases hk
      | package p => cases e
    exact Decided.of_none hno (fun t e => by cases e) fun t u e => by cases e
  | some p =>
    obtain rfl := package?_eq_some.mp e.symm
    obtain ⟨r, hr, rfl⟩ := hres.binds hc
    exact h.decided hafter hcov hr

/-- Two modules export a package with the same type to a third. -/
def twoTypes : List Request :=
  [.addModule "a" false, .addModule "b" false, .addModule "n" false,
    .declareType ⟨0⟩ "com.foo.T", .addExport ⟨0⟩ (.sub (.top "com") "foo"),
    .declareType ⟨1⟩ "com.foo.T", .addExport ⟨1⟩ (.sub (.top "com") "foo"),
    .addRead ⟨2⟩ ⟨0⟩, .addRead ⟨2⟩ ⟨1⟩]

theorem resolveType_decided_twoTypes :
    ∃ built env, Environment.empty.Reaches .standard Request.buildsClear built ∧
      built.Reaches .standard Request.looks env ∧ 2 < env.modules.size ∧
      Path.splitTypeName "com.foo.T" = .ok (.sub (.top "com") "foo", "T") ∧
      (∀ k t, env.Provides ⟨2⟩ (.sub (.top "com") "foo") "T" k t ↔
        built.Provides ⟨2⟩ (.sub (.top "com") "foo") "T" k t) ∧
      (Lookup.resolveType ⟨2⟩ "com.foo.T").Ensures env fun answer _ => ∃ resolution,
        answer = .ok resolution ∧ env.Decided ⟨2⟩ (.sub (.top "com") "foo") "T" resolution := by
  have hrun : (replay .standard Request.buildsClear twoTypes .empty).any (fun built =>
      (replay .standard Request.looks [.view ⟨0⟩ (.sub (.top "com") "foo"),
        .resolveType ⟨2⟩ "com.foo.T"] built).any fun env => 2 < env.modules.size) = true := by
    decide +kernel
  obtain ⟨built, hbuilt, hrun⟩ := (Option.any_eq_true _ _).mp hrun
  obtain ⟨env, henv, hsize⟩ := (Option.any_eq_true _ _).mp hrun
  have hbuild := reaches_of_replay hbuilt
  have hlook := reaches_of_replay henv
  have hsize : 2 < env.modules.size := of_decide_eq_true hsize
  have hq : Path.splitTypeName "com.foo.T" = .ok (.sub (.top "com") "foo", "T") := by cbv
  exact ⟨built, env, hbuild, hlook, hsize, hq, resolveType_decided hbuild hlook hsize hq⟩

end Environment

end SplitPackages
