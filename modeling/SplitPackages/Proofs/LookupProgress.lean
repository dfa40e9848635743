import SplitPackages.Proofs.CacheOrder
import SplitPackages.Proofs.Views
import SplitPackages.Resolution

/-!
# What lookups keep in order

Each lookup goes on from an orderly environment to an orderly one, and what it
answers fits. A look at a path changes the module's own view only, there and
above (`Views`). A search asks the members of a split; it alone of the lookups
registers a child where an entry can be, and `child` searches only where there
is none. So `resolve` leaves what the splits know as it is (`resolve_proceeds`).
-/

namespace SplitPackages

open Environment

variable {env mid after : Environment} {d : Discipline} {c p q : PackageId} {m k : ModuleId}
  {r : Package} {path : Path} {name : String} {ref : Ref}

namespace Environment

/-- A look of the module at the path: its view alone may change, and only there and above. -/
structure Views (env : Environment) (d : Discipline) (m : ModuleId) (path : Path) (ref : Ref)
    (after : Environment) : Prop where
  proceeds : env.Proceeds d none after
  answer : after.seen m path = some ref
  others : ∀ k other,
    after.seen k other = env.seen k other ∨ k = m ∧ other.isPrefixOf path = true

theorem Views.fits (h : env.Views d m path ref after) :
    after.AllFit d path (bindings [some ref]) := by
  intro q hq
  cases List.mem_singleton.mp (mem_bindings.mp hq)
  exact h.proceeds.orderly.seen h.answer

end Environment

namespace Lookup

/-! ## Seeing -/

theorem readableCandidates_fit (ho : env.Orderly d) (path : Path) : ∀ ks : List ModuleId,
    (readableCandidates path ks).Allows env fun ps after => after = env ∧ env.AllFit d path ps
  | [] => Allows.pure ⟨rfl, fun p hp => absurd hp List.not_mem_nil⟩
  | k :: ks => by
    refine Allows.ask fun own hown => ?_
    cases own with
    | none => exact readableCandidates_fit ho path ks
    | some p =>
      refine Allows.note (Allows.bind (readableCandidates_fit ho path ks) ?_)
      rintro ps _ ⟨rfl, hps⟩
      refine Allows.pure ⟨rfl, fun q hq => ?_⟩
      rcases List.mem_cons.mp hq with rfl | hq
      · exact ho.fits_declared hown
      · exact hps q hq

theorem combineVisible_stores (ho : env.Orderly d) (hm : ∃ record, env.module m = .ok record)
    (path : Path) : (combineVisible m path).Allows env fun found after =>
      env.Stores d none after ∧ after.AllFit d path (bindings [found]) := by
  refine Allows.ask fun own hown => Allows.ask fun others _ => ?_
  refine Allows.bind (readableCandidates_fit ho path others) ?_
  rintro ps _ ⟨rfl, hps⟩
  refine Allows.bind (combineAll_stores ho hm fun q hq => ?_) fun found after h =>
    Allows.note (Allows.pure h)
  obtain ⟨q', hq', e⟩ := List.mem_map.mp (mem_bindings.mp hq)
  cases e
  rcases List.mem_append.mp hq' with hq' | hq'
  · rw [Option.mem_toList.mp hq'] at hown
    exact ho.fits_declared hown
  · exact hps q hq'

theorem remember_views (h : env.Stores d none mid) (hm : ∃ record, env.module m = .ok record)
    (hnone : env.seen m path = none) (hfit : mid.AllFit d path (bindings [some ref]))
    (habove : ∀ above name q, path = .sub above name → ref = .package q →
      ∃ c, env.seen m above = some (.package c)) :
    (remember m path ref).Allows mid fun ref' after => ref' = ref ∧ env.Views d m path ref after := by
  obtain ⟨record, hrec⟩ := h.module hm
  obtain ⟨after, hset⟩ := Environment.setModule_ok hrec (·.remember path ref)
  have hr : mid.Remembers m path ref after := hset
  refine Allows.step (.update (Update.setModule_ok hset)) (Allows.pure ⟨rfl, ?_, ?_, fun k other => ?_⟩)
  · refine h.toProceeds.trans (hr.proceeds h.orderly ((h.seen m path).trans hnone) hfit ?_)
    intro above name q e e'
    obtain ⟨c, hc⟩ := habove above name q e e'
    exact ⟨c, (h.seen m above).trans hc⟩
  · rw [hr.seen, if_pos ⟨rfl, rfl⟩]
  · rw [hr.seen, h.seen]
    split
    · next e => exact .inr ⟨e.1, e.2 ▸ Path.isPrefixOf_refl path⟩
    · exact .inl rfl

/-- What the module sees without the help of the enclosing package. -/
theorem viewUnowned_views (ho : env.Orderly d) (hm : ∃ record, env.module m = .ok record)
    (hnone : env.seen m path = none)
    (habove : ∀ above name, path = .sub above name → ∃ c, env.seen m above = some (.package c)) :
    (do
      match (← combineVisible m path).bind Ref.package? with
      | some p => remember m path (.package p)
      | none => remember m path .notFound).Allows env fun ref after => env.Views d m path ref after := by
  refine Allows.bind (combineVisible_stores ho hm path) fun found mid ⟨h, hf⟩ => ?_
  have hend (ref : Ref) (hfit : mid.AllFit d path (bindings [some ref])) :
      (remember m path ref).Allows mid fun ref after => env.Views d m path ref after :=
    (remember_views h hm hnone hfit fun above name _ e _ => habove above name e).mono
      fun ref' after ⟨e, hv⟩ => e ▸ hv
  split
  · next p hp =>
    refine hend _ (hf.mono fun c hc => ?_)
    obtain ⟨ref, hfound, hp⟩ := Option.bind_eq_some_iff.mp hp
    rw [List.mem_singleton.mp hc, hfound]
    cases ref with
    | notFound => cases hp
    | package q => cases hp; exact List.mem_cons_self
  · exact hend .notFound fun q hq => absurd hq List.not_mem_nil

/-- Below a binding of its own the module consults and fills what is stored there. -/
theorem viewOwned_views {above : Path} (ho : env.Orderly d)
    (hm : ∃ record, env.module m = .ok record) (hnone : env.seen m (.sub above name) = none)
    (hseen : env.seen m above = some (.package c)) :
    (do
      match ← strict c name with
      | some ref => remember m (.sub above name) ref
      | none =>
        match (← combineVisible m (.sub above name)).bind Ref.package? with
        | some p => remember m (.sub above name) (.package (← addChild c p m))
        | none =>
          update (.learnMissing c name)
          remember m (.sub above name) .notFound).Allows env fun ref after =>
        env.Views d m (.sub above name) ref after := by
  obtain ⟨r, hr, hpath, -⟩ := ho.seen hseen
  have hcast : d.paths → Path.sub r.path name = .sub above name := fun hd => by rw [hpath hd]
  have hend {mid : Environment} (h : env.Stores d none mid) (ref : Ref)
      (hfit : mid.AllFit d (.sub above name) (bindings [some ref])) :
      (remember m (.sub above name) ref).Allows mid fun ref after =>
        env.Views d m (.sub above name) ref after := by
    refine (remember_views h hm hnone hfit ?_).mono fun ref' after ⟨e, hv⟩ => e ▸ hv
    intro above' name' q e _
    cases e
    exact ⟨c, hseen⟩
  refine Allows.bind (strict_stores ho hr name) fun answer env1 ⟨h1, hf1, hent⟩ => ?_
  cases answer with
  | some ref => exact hend h1 ref (hf1.cast hcast)
  | none =>
    have hent := hent rfl
    refine Allows.bind (combineVisible_stores h1.orderly (h1.module hm) _)
      fun found env2 ⟨h2, hf2⟩ => ?_
    have h12 := h1.trans h2
    obtain ⟨r2, hr2, e2⟩ := h12.advances.package hr
    split
    · next p hp =>
      have hfp : env2.Fits d (.sub r2.path name) p := by
        rw [e2.path]
        refine (hf2 p (mem_bindings.mpr (List.mem_singleton.mpr ?_))).cast fun hd => (hcast hd).symm
        obtain ⟨ref, rfl, hp⟩ := Option.bind_eq_some_iff.mp hp
        cases ref with
        | notFound => cases hp
        | package q => cases hp; rfl
      refine Allows.bind (addChild_stores h12.orderly hr2 hfp m) fun e env3 ⟨h3, hf3⟩ => ?_
      refine hend ((h12.weaken.trans h3).fresh hent) _ (allFit_singleton.mpr (hf3.cast ?_))
      rw [e2.path]
      exact hcast
    · obtain ⟨env3, hafter, h3⟩ := learnMissing_stores h12.orderly hr2 name
      exact Allows.step (.update hafter) (hend ((h12.weaken.trans h3).fresh hent) .notFound
        fun q hq => absurd hq List.not_mem_nil)

theorem viewBelow_views (ho : env.Orderly d) (hm : ∃ record, env.module m = .ok record)
    (hnone : env.seen m path = none) {parent : Option PackageId}
    (habove : env.Above m path parent) :
    (viewBelow m path parent).Allows env fun ref after => env.Views d m path ref after := by
  cases path with
  | top name =>
    cases habove
    exact Allows.step (.pure none) (viewUnowned_views ho hm hnone fun above name e => by cases e)
  | sub above name =>
    obtain ⟨c, rfl, hseen⟩ := habove
    refine Allows.bind (P := fun owner after => after = env ∧ (owner = none ∨ owner = some c)) ?_ ?_
    · refine Allows.package fun r _ => ?_
      split
      · exact Allows.pure ⟨rfl, .inr rfl⟩
      · exact Allows.pure ⟨rfl, .inl rfl⟩
    · rintro owner _ ⟨rfl, rfl | rfl⟩
      · refine viewUnowned_views ho hm hnone fun above' name' e => ?_
        cases e
        exact ⟨c, hseen⟩
      · exact viewOwned_views ho hm hnone hseen

/-- What a module sees at a path goes into its view. -/
theorem view_views (ho : env.Orderly d) : ∀ path,
    (view m path).Allows env fun ref after => env.Views d m path ref after
  | .top name => by
    refine Allows.module fun record hrec => ?_
    have hseen : env.seen m (.top name) = record.visible.get? (.top name) := seen_of_module hrec
    cases hget : record.visible.get? (.top name) with
    | some ref => exact Allows.pure ⟨ho.proceeds, hseen.trans hget, fun _ _ => .inl rfl⟩
    | none => exact viewBelow_views ho ⟨record, hrec⟩ (hseen.trans hget) rfl
  | .sub above name => by
    refine Allows.module fun record hrec => ?_
    have hseen : env.seen m (.sub above name) = record.visible.get? (.sub above name) :=
      seen_of_module hrec
    cases hget : record.visible.get? (.sub above name) with
    | some ref => exact Allows.pure ⟨ho.proceeds, hseen.trans hget, fun _ _ => .inl rfl⟩
    | none =>
      refine Allows.bind (view_views ho above) fun ref1 env1 ⟨h1, hs1, hframe⟩ => ?_
      have hm1 := h1.advances.module_ok ⟨record, hrec⟩
      have hnone : env1.seen m (.sub above name) = none := by
        rcases hframe m (.sub above name) with e | ⟨-, e⟩
        · exact e.trans (hseen.trans hget)
        · rw [not_isPrefixOf_sub] at e
          cases e
      -- the look at the enclosing path comes first
      have hend {ref : Ref} {after : Environment} (hv : env1.Views d m (.sub above name) ref after) :
          env.Views d m (.sub above name) ref after := by
        refine ⟨h1.trans hv.proceeds, hv.answer, fun k other => ?_⟩
        rcases hv.others k other with e | e
        · rw [e]
          exact (hframe k other).imp_right fun e => ⟨e.1, isPrefixOf_sub e.2 name⟩
        · exact .inr e
      cases ref1 with
      | notFound =>
        refine (remember_views h1.orderly.stores hm1 hnone
          (fun q hq => absurd hq List.not_mem_nil) fun _ _ _ _ e => by cases e).mono ?_
        rintro ref after ⟨rfl, hv⟩
        exact hend hv
      | package c =>
        exact (viewBelow_views h1.orderly hm1 hnone ⟨c, rfl, hs1⟩).mono fun _ _ hv => hend hv

/-! ## Searching -/

theorem contributions_proceeds (path : Path) : ∀ (ks : List ModuleId) {env : Environment},
    env.Orderly d → (contributions path ks).Allows env fun ps after => env.Proceeds d none after ∧
      ∀ p ∈ ps, ∃ k ∈ ks, after.seen k path = some (.package p)
  | [], env, ho => Allows.pure ⟨ho.proceeds, fun p hp => absurd hp List.not_mem_nil⟩
  | k :: ks, env, ho => by
    refine Allows.bind (view_views ho path) fun ref mid hv => Allows.note ?_
    have ih := contributions_proceeds path ks hv.proceeds.orderly
    have hskip {ps : List PackageId} {after : Environment} (h : mid.Proceeds d none after)
        (hps : ∀ p ∈ ps, ∃ k ∈ ks, after.seen k path = some (.package p)) :
        env.Proceeds d none after ∧ ∀ p ∈ ps, ∃ k' ∈ k :: ks, after.seen k' path = some (.package p) := by
      refine ⟨hv.proceeds.trans h, fun p hp => ?_⟩
      obtain ⟨k', hk', e⟩ := hps p hp
      exact ⟨k', List.mem_cons_of_mem _ hk', e⟩
    cases ref with
    | notFound => exact ih.mono fun ps after h => hskip h.1 h.2
    | package p =>
      refine Allows.package fun rp _ => ?_
      split
      · exact ih.mono fun ps after h => hskip h.1 h.2
      · refine Allows.bind ih fun ps after h => Allows.pure ⟨hv.proceeds.trans h.1, fun q hq => ?_⟩
        rcases List.mem_cons.mp hq with rfl | hq
        · exact ⟨k, List.mem_cons_self, h.1.advances.seen hv.answer⟩
        · exact (hskip h.1 h.2).2 q hq

theorem mergeFound_stores (ho : env.Orderly d) (hr : env.package c = .ok r) (hs : r.isSplit = true)
    {ps : List PackageId} (hnd : ps.Nodup)
    (hseen : ∀ p ∈ ps, ∃ k ∈ r.declaring, env.seen k (.sub r.path name) = some (.package p)) :
    (mergeFound r.home ps).Allows env fun result after => env.Stores d none after ∧
      ∀ q, result = some q → after.Fits d (.sub r.path name) q := by
  have hf : env.AllFit d (.sub r.path name) ps := by
    intro p hp
    obtain ⟨k, -, e⟩ := hseen p hp
    exact ho.seen e
  match ps, hnd, hseen, hf with
  | [], _, _, _ => exact Allows.pure ⟨ho.stores, fun q e => by cases e⟩
  | [only], _, _, hf =>
    refine Allows.package fun ro _ => Allows.noteIf (Allows.pure ⟨ho.stores, ?_⟩)
    rintro q ⟨⟩
    exact hf only List.mem_cons_self
  | first :: second :: rest, hnd, hseen, hf =>
    refine Allows.bind (newSplit_pools ho (ho.graph.home hr) (hf first List.mem_cons_self))
      fun split mid h => ?_
    obtain ⟨after, hafter, h⟩ := h.addAll (second :: rest) fun p hp =>
      hf p (List.mem_cons_of_mem _ hp)
    refine Allows.step (.update hafter) (Allows.pure ⟨h.stores, ?_⟩)
    rintro q ⟨⟩
    exact h.fits_of_seen hr hs hnd (by simp) hseen hf

/-- A search may replace what the split knows under the name that is searched. -/
theorem search_proceeds (ho : env.Orderly d) (hr : env.package c = .ok r) (name : String)
    (m : ModuleId) : (search c name m).Allows env fun answer after =>
      env.Proceeds d (some (c, name)) after ∧
        ∀ q, answer = some q → after.Fits d (.sub r.path name) q := by
  refine Allows.within (Allows.step (.ask hr) ?_)
  by_cases hs : r.isSplit = true
  · simp only [hs, Bool.not_true, Bool.false_eq_true, if_false]
    refine Allows.noteIf (Allows.note ?_)
    refine Allows.bind (contributions_proceeds (.sub r.path name) r.declaring ho)
      fun ps env1 ⟨h1, hseen⟩ => ?_
    obtain ⟨r1, hr1, e1⟩ := h1.advances.package hr
    have hs1 := e1.isSplit.trans hs
    rw [← e1.home, ← e1.path] at *
    have hmembers : ∀ p ∈ (OrderedSet.ofList ps).toList,
        ∃ k ∈ r1.declaring, env1.seen k (.sub r1.path name) = some (.package p) := by
      intro p hp
      obtain ⟨k, hk, e⟩ := hseen p (OrderedSet.mem_ofList.mp hp)
      exact ⟨k, e1.declaring k hk, e⟩
    refine Allows.bind (mergeFound_stores h1.orderly hr1 hs1 (OrderedSet.nodup _) hmembers)
      fun result env2 ⟨h2, hf2⟩ => Allows.note ?_
    have h12 : env.Proceeds d (some (c, name)) env2 := (h1.trans h2.toProceeds).weaken
    obtain ⟨r2, hr2, e2⟩ := h2.advances.package hr1
    cases result with
    | none =>
      obtain ⟨env3, hafter, h3⟩ := learnMissing_stores h2.orderly hr2 name
      exact Allows.step (.update hafter)
        (Allows.pure ⟨h12.trans h3.toProceeds, fun q e => by cases e⟩)
    | some found =>
      refine Allows.package fun rf _ => Allows.noteIf (Allows.noteIf ?_)
      have hfound := hf2 found rfl
      refine Allows.bind (Allows.discard (Q := fun _ env3 => env2.Stores d (some (c, name)) env3)
        (addChild_stores h2.orderly hr2 (e2.path.symm ▸ hfound) m) fun _ _ h => h.1)
        fun _ env3 h3 => Allows.pure ⟨h12.trans h3.toProceeds, ?_⟩
      rintro q ⟨⟩
      exact hfound.later h3.advances
  · simp only [hs, Bool.not_false, if_true]
    exact Allows.note (Allows.pure ⟨ho.proceeds, fun q e => by cases e⟩)

theorem childOfPlain_proceeds (ho : env.Orderly d) (hr : env.package c = .ok r)
    (hs : r.isSplit = false) (name : String) (m : ModuleId) :
    (childOfPlain c r name m).Allows env fun answer after => env.Proceeds d none after ∧
      ∀ q, answer = some q → after.Fits d (.sub r.path name) q := by
  have hfound {ref : Ref} {after : Environment}
      (hf : after.AllFit d (.sub r.path name) (bindings [some ref])) :
      ∀ q, ref.package? = some q → after.Fits d (.sub r.path name) q := by
    intro q e
    cases ref with
    | notFound => cases e
    | package p => cases e; exact allFit_singleton.mp hf
  unfold childOfPlain
  split
  · cases hget : r.known.get? name with
    | some ref =>
      refine Allows.pure ⟨ho.proceeds, hfound fun q hq => ?_⟩
      cases List.mem_singleton.mp (mem_bindings.mp hq)
      exact ho.entry hr hget
    | none =>
      refine Allows.bind (view_views ho (.sub r.path name)) fun ref env1 hv => ?_
      have hf1 := hfound hv.fits
      refine Allows.package fun r1 hr1 => ?_
      have e1 := hv.proceeds.advances.record hr hr1
      have hs1 := e1.isSplit.trans hs
      rw [← e1.path] at hf1 ⊢
      -- whatever is stored below a plain binding, the splits stay as they are
      have hend {after : Environment} (h : env1.Stores d (some (c, name)) after) :
          env.Proceeds d none after ∧
            ∀ q, ref.package? = some q → after.Fits d (.sub r1.path name) q :=
        ⟨hv.proceeds.trans (h.single hr1 hs1).toProceeds, fun q e => (hf1 q e).later h.advances⟩
      split
      · cases hp : ref.package? with
        | none =>
          obtain ⟨env2, hafter, h2⟩ := learnMissing_stores hv.proceeds.orderly hr1 name
          exact Allows.step (.update hafter) (Allows.pure (hp ▸ hend h2))
        | some p =>
          refine Allows.bind (Allows.discard (Q := fun _ env2 => env1.Stores d (some (c, name)) env2)
            (addChild_stores hv.proceeds.orderly hr1 (hf1 p hp) m) fun _ _ h => h.1)
            fun _ env2 h2 => Allows.pure (hp ▸ hend h2)
      · exact Allows.pure (hend hv.proceeds.orderly.stores)
  · exact Allows.bind (view_views ho (.sub r.path name)) fun ref env1 hv =>
      Allows.pure ⟨hv.proceeds, hfound hv.fits⟩

theorem child_proceeds (ho : env.Orderly d) (hr : env.package c = .ok r) (name : String)
    (m : ModuleId) : (child c name m).Allows env fun answer after => env.Proceeds d none after ∧
      ∀ q, answer = some q → after.Fits d (.sub r.path name) q := by
  refine Allows.step (.ask hr) ?_
  cases hk : r.kind with
  | problem => exact Allows.pure ⟨ho.proceeds, fun q e => by cases e⟩
  | plain plain =>
    exact childOfPlain_proceeds ho hr (Package.isSplit_of_isPlain (Package.isPlain_of_kind hk)) name m
  | split s =>
    refine Allows.bind (strict_stores ho hr name) fun answer mid ⟨h, hf, hent⟩ => ?_
    cases answer with
    | some ref =>
      refine Allows.pure ⟨h.toProceeds, fun q e => ?_⟩
      cases ref with
      | notFound => cases e
      | package p => cases e; exact allFit_singleton.mp hf
    | none =>
      obtain ⟨r', hr', e⟩ := h.advances.package hr
      refine (search_proceeds h.orderly hr' name m).mono fun answer after ⟨h', hf'⟩ => ?_
      exact ⟨(h.toProceeds.weaken.trans h').fresh (hent rfl), e.path ▸ hf'⟩

/-! ## Resolving -/

theorem resolve_proceeds (ho : env.Orderly d) : ∀ path,
    (resolve m path).Allows env fun answer after => env.Proceeds d none after ∧
      ∀ q, answer = some q → after.Fits d path q
  | .top name => by
    refine Allows.bind (view_views ho (.top name)) fun ref after hv =>
      Allows.pure ⟨hv.proceeds, fun q e => ?_⟩
    cases ref with
    | notFound => cases e
    | package p => cases e; exact allFit_singleton.mp hv.fits
  | .sub path name => by
    refine Allows.bind (resolve_proceeds ho path) fun answer mid ⟨h, hf⟩ => ?_
    cases answer with
    | none => exact Allows.pure ⟨h, fun q e => by cases e⟩
    | some c =>
      obtain ⟨r, hr, hpath, -⟩ := hf c rfl
      refine (child_proceeds h.orderly hr name m).mono fun answer after ⟨h', hf'⟩ => ?_
      exact ⟨h.trans h', fun q e => (hf' q e).cast fun hd => by rw [hpath hd]⟩

/-- The lookup of a type asks questions only. -/
theorem typeOf_same (m : ModuleId) (p : PackageId) (name : String) :
    (typeOf m p name).Allows env fun answer after =>
      after = env ∧ ∀ q, answer = .noSuchType q → q = p := by
  refine Allows.ask fun o _ => ?_
  split
  · exact Allows.pure ⟨rfl, fun q e => by cases e⟩
  · refine Allows.pure ⟨rfl, ?_⟩
    rintro q ⟨⟩
    rfl
  · refine Allows.package fun r _ => ?_
    split
    · exact Allows.pure ⟨rfl, fun q e => by cases e⟩
    · refine Allows.ask fun b _ => ?_
      cases b <;> exact Allows.pure ⟨rfl, fun q e => by cases e⟩

theorem resolveType_proceeds (ho : env.Orderly d) (qualified : String) :
    (resolveType m qualified).Allows env fun answer after => env.Proceeds d none after ∧
      ∀ q, answer = .ok (.noSuchType q) → ∃ path, after.Fits d path q := by
  unfold resolveType
  split
  · exact Allows.pure ⟨ho.proceeds, fun q e => by cases e⟩
  · next path name _ =>
    refine Allows.bind (resolve_proceeds ho path) fun answer mid ⟨h, hf⟩ => ?_
    cases answer with
    | none => exact Allows.pure ⟨h, fun q e => by cases e⟩
    | some p =>
      refine Allows.bind (typeOf_same m p name) ?_
      rintro resolution _ ⟨rfl, hres⟩
      refine Allows.pure ⟨h, fun q e => ⟨path, ?_⟩⟩
      cases hres q (Except.ok.inj e)
      exact hf p rfl

end Lookup

end SplitPackages
