import SplitPackages.Known
import SplitPackages.Proofs.Registration

/-!
# Consulting what is known

The strict lookup in a split answers with the entry that it finds or makes, and
what it makes merges the entries of all incarnations; without an answer it
changes nothing of note. The relaxed lookup fills memos only.
-/

namespace SplitPackages

namespace Environment

variable {env : Environment} {path : Path} {name : String} {ref : Ref}

theorem allEntries_ok (name : String) : ∀ ps : List PackageId,
    (∀ p ∈ ps, ∃ r, env.package p = .ok r) →
    ∃ o, env.allEntries name ps = .ok o ∧ ∀ refs, o = some refs →
      ps.map (env.entry · name) = refs.map some
  | [], _ => ⟨some [], rfl, by simp⟩
  | p :: ps, h => by
    obtain ⟨r, hr⟩ := h p List.mem_cons_self
    obtain ⟨o, ho, hrefs⟩ := allEntries_ok name ps fun q hq => h q (List.mem_cons_of_mem _ hq)
    simp only [allEntries, hr, bind, Except.bind]
    cases hk : r.known.get? name with
    | none => exact ⟨none, rfl, by simp⟩
    | some ref =>
      simp only [ho]
      refine ⟨o.map (ref :: ·), rfl, fun refs e => ?_⟩
      cases o with
      | none => cases e
      | some rest =>
        cases e
        rw [List.map_cons, List.map_cons, hrefs rest rfl, entry_of_package hr, hk]

theorem someEntries_eq (name : String) : ∀ ps : List PackageId,
    (∀ p ∈ ps, ∃ r, env.package p = .ok r) →
    env.someEntries name ps = .ok (ps.filterMap (env.entry · name))
  | [], _ => rfl
  | p :: ps, h => by
    obtain ⟨r, hr⟩ := h p List.mem_cons_self
    have hrest := someEntries_eq name ps fun q hq => h q (List.mem_cons_of_mem _ hq)
    simp only [someEntries, hr, bind, Except.bind, List.filterMap_cons, entry_of_package hr]
    cases r.known.get? name with
    | none => exact hrest
    | some ref =>
      rw [hrest]
      rfl

theorem someEntries_ok (name : String) (ps : List PackageId)
    (h : ∀ p ∈ ps, ∃ r, env.package p = .ok r) :
    ∃ refs, env.someEntries name ps = .ok refs ∧
      ∀ ref ∈ refs, ∃ p ∈ ps, env.entry p name = some ref :=
  ⟨_, someEntries_eq name ps h, fun _ href => List.mem_filterMap.mp href⟩

/-- Entries of the incarnations of a split bind the path. -/
theorem Coherent.entries_allBind (hc : env.Coherent) {s : PackageId} {r : Package} {refs : List Ref}
    (hr : env.package s = .ok r)
    (hrefs : ∀ ref ∈ refs, ∃ i ∈ r.incarnations, env.entry i name = some ref) :
    env.AllBind (.sub r.path name) refs := by
  intro q hq
  obtain ⟨i, hi, he⟩ := hrefs _ hq
  obtain ⟨ri, hri, -, hpath, -⟩ := hc.parts hr (i := i)
    (by rw [parts_of_package hr]; exact Package.mem_contributors.mpr (.inr hi))
  rw [← hpath]
  exact hc.binds_of_entry hri he

theorem holdersOf_ok (name : String) (ref : Ref) : ∀ ps : List PackageId,
    (∀ p ∈ ps, ∃ r, env.package p = .ok r) →
    ∃ qs, env.holdersOf name ref ps = .ok qs ∧ ∀ q ∈ qs, q ∈ ps
  | [], _ => ⟨[], rfl, fun _ hq => hq⟩
  | p :: ps, h => by
    obtain ⟨r, hr⟩ := h p List.mem_cons_self
    obtain ⟨qs, hqs, hsub⟩ := holdersOf_ok name ref ps fun q hq => h q (List.mem_cons_of_mem _ hq)
    simp only [holdersOf, hr, bind, Except.bind]
    split
    · rw [hqs]
      exact ⟨p :: qs, rfl, List.forall_mem_cons.mpr ⟨List.mem_cons_self, fun q hq =>
        List.mem_cons_of_mem _ (hsub q hq)⟩⟩
    · exact ⟨qs, hqs, fun q hq => List.mem_cons_of_mem _ (hsub q hq)⟩

theorem isSplitRef_ok (hr : ∀ q, ref = .package q → ∃ r, env.package q = .ok r) :
    ∃ b, env.isSplitRef ref = .ok b := by
  cases ref with
  | notFound => exact ⟨false, rfl⟩
  | package q =>
    obtain ⟨r, hr⟩ := hr q rfl
    simp only [isSplitRef, hr, bind, Except.bind]
    exact ⟨_, rfl⟩

end Environment

namespace Lookup

open Environment

variable {env after : Environment} {c p q : PackageId} {m : ModuleId} {r : Package}
  {path : Path} {name : String} {ref : Ref}

theorem noteAll_gives (env : Environment) : ∀ es : List Event, (noteAll es).Gives env () env
  | [] => Gives.pure ()
  | e :: es => (Gives.note e).bind (noteAll_gives env es)

/-- What a strict lookup finds: an entry that is there afterwards, and was there before or has been
merged from the entries of all incarnations. -/
def Consulted (env : Environment) (p : PackageId) (r : Package) (name : String)
    (after : Environment) (ref : Ref) : Prop :=
  after.entry p name = some ref ∧ (env.entry p name = some ref ∨
    ∃ s refs, r.kind = .split s ∧ refs ≠ [] ∧
      s.incarnations.toList.map (env.entry · name) = refs.map some)

/-- Storing what the entries make drops the memo for the name. -/
theorem learns_of_learnMerged {s : Split} (hr : env.package p = .ok r) (hk : r.kind = .split s)
    (hafter : env.setPackage p (fun r => (r.learn name ref).mapSplit fun s =>
      { s with relaxed := s.relaxed.erase name }) = .ok after) : env.Learns p name ref after := by
  refine ⟨r, _, touches_of_setPackage hafter hr ?_, ?_, ?_⟩
  · simp only [Package.learn, Package.mapSplit, hk, Package.bare, Kind.bare]
  · simp only [Package.learn, Package.mapSplit, hk]
  · intro x v hv
    simp only [Package.memo, Package.learn, Package.mapSplit, hk, Package.split?,
      Option.bind_some, Table.get?_erase] at hv ⊢
    split at hv
    · cases hv
    · exact hv

/-- What the entries of all incarnations make can be stored in the split. -/
theorem learnMerged_gives {s : Split} {refs : List Ref} (hr : env.package p = .ok r)
    (hk : r.kind = .split s) (hrefs : s.incarnations.toList.map (env.entry · name) = refs.map some)
    (hm : env.Merges r.home (.sub r.path name) refs ref) :
    ∃ after, (update (.setPackage p fun r => (r.learn name ref).mapSplit fun s =>
        { s with relaxed := s.relaxed.erase name })).Gives env () after ∧
      env.Changes after ∧ env.Fills p name r.path after ∧ after.entry p name = some ref := by
  obtain ⟨after, hafter⟩ := Environment.setPackage_ok hr fun r =>
    (r.learn name ref).mapSplit fun s => { s with relaxed := s.relaxed.erase name }
  have hl := learns_of_learnMerged hr hk hafter
  exact ⟨after, Gives.update (Update.setPackage_ok hafter),
    .single (.learn hr (.merged hk hrefs hm) hl), hl.fills hr (.inl rfl),
    by rw [hl.entry, if_pos ⟨rfl, rfl⟩]⟩

theorem strictInSplit_spec (hc : env.Coherent) (hr : env.package p = .ok r) {s : Split}
    (hk : r.kind = .split s) (name : String) :
    (strictInSplit p r name).Ensures env fun answer after =>
      env.Changes after ∧ env.Fills p name r.path after ∧
        (answer = none ∧ env.Grows after ∧ env.entry p name = none ∨
          ∃ ref, answer = some ref ∧ Consulted env p r name after ref) := by
  have hent : env.entry p name = r.known.get? name := entry_of_package hr
  unfold strictInSplit
  cases hget : r.known.get? name with
  | some ref =>
    refine Ensures.noteIf (Ensures.pure ⟨.refl, .refl env _ _ _, .inr ⟨ref, rfl, ?_⟩⟩)
    rw [hget] at hent
    exact ⟨hent, .inl hent⟩
  | none =>
    rw [hget] at hent
    have hinc : r.incarnations = s.incarnations.toList := by simp only [Package.incarnations, hk]
    have halloc : ∀ i ∈ r.incarnations, ∃ ri, env.package i = .ok ri := fun i hi => by
      obtain ⟨ri, hri, -⟩ := (hc.split hr hk).plain (hinc ▸ hi : i ∈ s.incarnations.toList)
      exact ⟨ri, hri⟩
    obtain ⟨o, ho, hrefs⟩ := allEntries_ok name _ halloc
    refine Ensures.step (Gives.ask ho) ?_
    cases o with
    | none => exact Ensures.pure ⟨.refl, .refl env _ _ _, .inl ⟨rfl, .refl env, hent⟩⟩
    | some refs =>
      have hrefs := hinc ▸ hrefs refs rfl
      have hall := hc.incarnations_allBind hr hk hrefs
      refine (combineAll_spec hc (hc.home hr) hall).bind ?_
      rintro result mid ⟨hg, hm⟩
      rcases hm with ⟨rfl, -⟩ | ⟨ref, rfl, hm⟩
      · exact Ensures.pure ⟨.single (.grow hg), hg.fills _ _ _, .inl ⟨rfl, hg, hent⟩⟩
      · have hne : refs ≠ [] := by
          rintro rfl
          cases hm with
          | worse _ h => cases h
          | one h => cases h
          | many h _ _ => cases h
        obtain ⟨r', hr', e⟩ := hg.old hr
        rw [Package.eq_of_unwrapped e (Package.isSplit_of_kind hk)] at hr'
        have hmid := hg.coherent hc
        have hrefs' : s.incarnations.toList.map (mid.entry · name) = refs.map some := by
          rw [← hrefs]
          refine List.map_congr_left fun i hi => ?_
          obtain ⟨ri, hri⟩ := halloc i (hinc ▸ hi)
          exact hg.entry hri name
        have hbinds : ∀ q, ref = .package q → mid.Binds q (.sub r.path name) := fun q e =>
          (e ▸ hm).binds (hg.keeps.allBind hall)
        obtain ⟨b, hb⟩ := isSplitRef_ok fun q e => (hbinds q e).imp fun _ => And.left
        obtain ⟨qs, hqs, -⟩ := holdersOf_ok name ref r.incarnations fun i hi => by
          obtain ⟨ri, hri⟩ := halloc i hi
          obtain ⟨ri', hri', -⟩ := hg.old hri
          exact ⟨ri', hri'⟩
        obtain ⟨last, hset, hch, hf, hlast⟩ := learnMerged_gives hr' hk hrefs' hm
        have hend : env.Changes last ∧ env.Fills p name r.path last ∧
            (some ref = none ∧ env.Grows last ∧ env.entry p name = none ∨
              ∃ ref', some ref = some ref' ∧ Consulted env p r name last ref') := by
          refine ⟨(Changes.single (.grow hg)).trans hch, (hg.fills _ _ _).trans hch.keeps hf, ?_⟩
          exact .inr ⟨ref, rfl, hlast, .inr ⟨s, refs, hk, hne, hrefs⟩⟩
        refine Ensures.step (Gives.note _) (Ensures.step (Gives.ask hb) ?_)
        cases b with
        | true =>
          exact Ensures.step (Gives.ask hqs) (Ensures.step (noteAll_gives mid _)
            (Ensures.step hset (Ensures.pure hend)))
        | false => exact Ensures.step hset (Ensures.pure hend)

theorem strict_spec (hc : env.Coherent) (hr : env.package p = .ok r) (name : String) :
    (strict p name).Ensures env fun answer after =>
      env.Changes after ∧ env.Fills p name r.path after ∧
        (answer = none ∧ env.Grows after ∧ env.entry p name = none ∨
          ∃ ref, answer = some ref ∧ Consulted env p r name after ref) := by
  refine Ensures.step (Gives.ask hr) ?_
  by_cases hs : r.isSplit = true
  · obtain ⟨s, hk⟩ := Package.kind_of_isSplit hs
    rw [if_pos hs]
    exact strictInSplit_spec hc hr hk name
  · rw [if_neg hs]
    have hent : env.entry p name = r.known.get? name := entry_of_package hr
    refine Ensures.pure ⟨.refl, .refl env _ _ _, ?_⟩
    cases hget : r.known.get? name with
    | none => exact .inl ⟨rfl, .refl env, hent.trans hget⟩
    | some ref => exact .inr ⟨ref, rfl, hent.trans hget, .inl (hent.trans hget)⟩

theorem relaxedMerge_spec (hc : env.Coherent) (hr : env.package p = .ok r) {s : Split}
    (hk : r.kind = .split s) {refs : List Ref} (hall : env.AllBind (.sub r.path name) refs) :
    (relaxedInSplit.merge p r name refs).Ensures env fun answer after =>
      env.Changes after ∧ ∀ q, answer = some (.package q) → after.Binds q (.sub r.path name) := by
  unfold relaxedInSplit.merge
  refine (combineAll_spec hc (hc.home hr) hall).bind ?_
  rintro result mid ⟨hg, hm⟩
  obtain ⟨r', hr', e⟩ := hg.old hr
  rw [Package.eq_of_unwrapped e (Package.isSplit_of_kind hk)] at hr'
  have hbinds : ∀ q, result = some (.package q) → mid.Binds q (.sub r.path name) := by
    rintro q rfl
    rcases hm with ⟨e, -⟩ | ⟨ref, e, hm⟩
    · cases e
    · cases e
      exact hm.binds (hg.keeps.allBind hall)
  obtain ⟨last, hlast⟩ := Environment.setPackage_ok hr' (·.mapSplit fun s =>
    { s with relaxed := s.relaxed.insert name (refs, result) })
  have hmemo : mid.Memoizes p name (refs, result) last := by
    refine ⟨r, _, touches_of_setPackage hlast hr' ?_, ?_, ?_⟩
    · simp only [Package.mapSplit, hk, Package.bare, Kind.bare]
    · simp only [Package.mapSplit, hk]
    · intro x w hw
      simp only [Package.memo, Package.mapSplit, hk, Package.split?, Option.bind_some,
        Table.get?_insert] at hw ⊢
      split at hw
      · next e => cases hw; exact .inl ⟨e.symm, rfl⟩
      · exact .inr hw
  refine Ensures.step (Gives.update (Update.setPackage_ok hlast)) (Ensures.pure ⟨?_, ?_⟩)
  · exact (Changes.single (.grow hg)).trans (.single (.memo hr' hmemo hbinds))
  · intro q e
    exact hmemo.keeps.binds (hbinds q e)

theorem relaxed_spec (hc : env.Coherent) (hr : env.package p = .ok r) (name : String) :
    (relaxed p name).Ensures env fun answer after =>
      env.Changes after ∧ ∀ q, answer = some (.package q) → after.Binds q (.sub r.path name) := by
  refine Ensures.step (Gives.ask hr) ?_
  by_cases hs : r.isSplit = true
  · obtain ⟨s, hk⟩ := Package.kind_of_isSplit hs
    rw [if_pos hs]
    unfold relaxedInSplit
    cases hget : r.known.get? name with
    | some ref =>
      refine Ensures.pure ⟨.refl, fun q e => ?_⟩
      cases e
      exact hc.entry hr hget
    | none =>
      obtain ⟨refs, hrefs, hmem⟩ := someEntries_ok name r.incarnations
        fun i hi => hc.closed.incarnations hr hi
      have hall := hc.entries_allBind hr hmem
      refine Ensures.step (Gives.ask hrefs) ?_
      split
      · next entries result hmemo =>
        split
        · refine Ensures.pure ⟨.refl, fun q e => ?_⟩
          subst e
          exact hc.memo_binds hr hmemo
        · exact relaxedMerge_spec hc hr hk hall
      · exact relaxedMerge_spec hc hr hk hall
  · rw [if_neg hs]
    refine Ensures.pure ⟨.refl, fun q e => hc.entry hr e⟩

end Lookup

end SplitPackages
