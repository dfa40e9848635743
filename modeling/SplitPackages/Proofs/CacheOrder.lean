import SplitPackages.Proofs.KnownEntries
import SplitPackages.Proofs.Pools

/-!
# Filling caches in order

Registering a child below a binding and consulting what is known there keep an
environment orderly, and what they give fits if what they are given does. What
they store comes from a declaration, from an entry or from one of the
combinations of `Pools`; they change no view. A split gets another entry for a
name than the one it has only by registering a child under that name.
-/

namespace SplitPackages

open Environment

variable {env : Environment} {d : Discipline} {c child : PackageId} {r : Package} {path : Path}
  {name : String} {ref : Ref}

namespace Environment

/-! ## Entries -/

theorem learn_stores (ho : env.Orderly d) (hr : env.package c = .ok r)
    (hf : env.AllFit d (.sub r.path name) (bindings [some ref])) :
    ∃ after, env.setPackage c (·.learn name ref) = .ok after ∧ env.Stores d (some (c, name)) after := by
  obtain ⟨after, hset⟩ := setPackage_ok hr (·.learn name ref)
  have ht : env.Touches c r (r.learn name ref) after := touches_of_setPackage hset hr rfl
  refine ⟨after, hset, ht.stores ho rfl ?_ (fun he => ho.memo hr he) fun _ => ?_⟩
  · intro x q he
    rw [Package.learn, Table.get?_insert] at he
    split at he
    · next e =>
      cases he
      exact e ▸ allFit_singleton.mp hf
    · exact ho.entry hr he
  · intro c' r' x ref' _ _ hslot he
    rw [(learns_of_setPackage hset hr).entry, if_neg, he]
    rintro ⟨rfl, rfl⟩
    exact hslot rfl

theorem learnMissing_stores (ho : env.Orderly d) (hr : env.package c = .ok r) (name : String) :
    ∃ after, Update.learnMissing c name env = .ok ((), after) ∧
      env.Stores d (some (c, name)) after := by
  have hmiss : env.AllFit d (.sub r.path name) (bindings [some .notFound]) :=
    fun p hp => absurd hp List.not_mem_nil
  obtain ⟨after, hset, h⟩ := learn_stores ho hr hmiss
  exact ⟨after, Update.setPackage_ok hset, h⟩

theorem storeChild_stores (ho : env.Orderly d) (hr : env.package c = .ok r)
    (hf : env.Fits d (.sub r.path name) child) :
    ∃ after, Update.storeChild c child env = .ok ((), after) ∧
      env.Stores d (some (c, name)) after := by
  obtain ⟨rc, hrc, -⟩ := id hf
  have hname := hf.name_eq hrc
  have hcast : env.Fits d (.sub r.path rc.path.simpleName) child :=
    hf.cast fun hd => by rw [hname hd]
  obtain ⟨after, hset, h⟩ := learn_stores ho hr (allFit_singleton.mpr hcast)
  exact ⟨after, Update.bind_ok (Update.ask_ok hrc) (Update.setPackage_ok hset), h.rename hname⟩

/-- What the entries of the incarnations make is stored in place of the memo for the name. -/
theorem learnMerged_stores (ho : env.Orderly d) (hr : env.package c = .ok r)
    (hs : r.isSplit = true) (hf : env.AllFit d (.sub r.path name) (bindings [some ref])) :
    ∃ after, Update.setPackage c (fun r => (r.learn name ref).mapSplit fun s =>
        { s with relaxed := s.relaxed.erase name }) env = .ok ((), after) ∧
      env.Stores d (some (c, name)) after := by
  obtain ⟨s, hk⟩ := Package.kind_of_isSplit hs
  let f : Package → Package := fun r =>
    (r.learn name ref).mapSplit fun s => { s with relaxed := s.relaxed.erase name }
  have hf' : f r = { r with
      known := r.known.insert name ref
      kind := .split { s with relaxed := s.relaxed.erase name } } := by
    simp only [f, Package.learn, Package.mapSplit, hk]
  obtain ⟨after, hset⟩ := setPackage_ok hr f
  have ht := touches_of_setPackage hset hr (by rw [hf']; simp only [Package.bare, hk, Kind.bare])
  rw [hf'] at ht
  refine ⟨after, Update.setPackage_ok hset, ht.stores ho ?_ ?_ ?_ fun _ => ?_⟩
  · simp only [Package.wrappedBy, hk]
  · intro x q he
    rw [Table.get?_insert] at he
    split at he
    · next e =>
      cases he
      exact e ▸ allFit_singleton.mp hf
    · exact ho.entry hr he
  · intro x refs result he
    refine ho.memo hr ?_
    rw [Package.memo_of_kind rfl, Table.get?_erase] at he
    rw [Package.memo_of_kind hk]
    split at he
    · cases he
    · exact he
  · intro c' r' x ref' _ _ hslot he
    by_cases hc : c' = c
    · subst hc
      rw [entry_of_package ht.now, Table.get?_insert, if_neg, ← entry_of_package hr, he]
      rintro rfl
      exact hslot rfl
    · unfold entry
      rw [ht.others hc]
      exact he

/-- The entries of the incarnations fit where those of the split do. -/
theorem Orderly.fits_entries (ho : env.Orderly d) (hr : env.package c = .ok r) {refs : List Ref}
    (hrefs : ∀ ref ∈ refs, ∃ i ∈ r.incarnations, env.entry i name = some ref) :
    env.AllFit d (.sub r.path name) (bindings (refs.map some)) := by
  intro q hq
  obtain ⟨ref, href, e⟩ := List.mem_map.mp (mem_bindings.mp hq)
  cases e
  obtain ⟨i, hi, he⟩ := hrefs _ href
  obtain ⟨ri, hri, hk⟩ := package_of_entry he
  exact (ho.entry hri hk).cast fun hd => by rw [ho.placed hd hr hi hri]

end Environment

namespace Lookup

/-! ## Registering -/

theorem enrich_stores (ho : env.Orderly d) (hf : env.Fits d path child) (m : ModuleId) :
    (enrich c child m).Allows env fun e after =>
      env.Stores d none after ∧ after.Fits d path e := by
  refine Allows.package fun rc hrc => Allows.package fun r hr => Allows.ask fun sibs hsibs => ?_
  obtain ⟨sibs', hsibs', hmem⟩ := siblings_ok hrc m rc.path r.incarnations fun i hi => by
    obtain ⟨ri, hri, -⟩ := ho.wired.plain_of_mem hr hi
    obtain ⟨record, hrec⟩ := ho.graph.home hri
    exact ⟨ri, record, hri, hrec⟩
  rw [hsibs] at hsibs'
  cases hsibs'
  cases sibs with
  | nil => exact Allows.pure ⟨ho.stores, hf⟩
  | cons b bs =>
    have hall : env.AllFit d path (bindings ((b :: bs ++ [child]).map (some ∘ .package))) := by
      intro q hq
      obtain ⟨q', hq', e⟩ := List.mem_map.mp (mem_bindings.mp hq)
      cases e
      rcases List.mem_append.mp hq' with hq' | hq'
      · obtain ⟨_, _, _, _, _, _, hd⟩ := (hmem q).mp hq'
        exact (ho.fits_declared hd).cast (hf.path_eq hrc)
      · rw [List.mem_singleton.mp hq']
        exact hf
    refine Allows.bind (combineAll_stores ho (ho.graph.home hrc) hall) fun result after h => ?_
    refine Allows.note (Allows.pure ⟨h.1, ?_⟩)
    cases hres : result.bind Ref.package? with
    | none => exact hf.later h.1.advances
    | some e =>
      refine h.2 e ?_
      rw [mem_bindings, List.mem_singleton]
      obtain ⟨ref, rfl, hres⟩ := Option.bind_eq_some_iff.mp hres
      cases ref with
      | notFound => cases hres
      | package q => cases hres; rfl

/-- The part of a child is stored below a plain binding. -/
theorem linkIncarnation_stores (ho : env.Orderly d) (hr : env.package c = .ok r)
    (hs : r.isSplit = true) (hf : env.Fits d (.sub r.path name) child) :
    (linkIncarnation c child).Allows env fun _ after => env.Stores d none after := by
  refine Allows.package fun rc hrc => Allows.ask fun above habove => ?_
  obtain ⟨_, habove', -, hin⟩ := ho.wired.incarnation_iff hr rc.home
  rw [habove] at habove'
  cases habove'
  cases above with
  | none => exact Allows.pure ho.stores
  | some above =>
    obtain ⟨hmem, ra, hra, -⟩ := hin above rfl
    refine Allows.ask fun below hbelow => ?_
    obtain ⟨_, hbelow', -, hin'⟩ := ho.wired.incarnation_iff hrc rc.home
    rw [hbelow] at hbelow'
    cases hbelow'
    cases below with
    | none => exact Allows.pure ho.stores
    | some below =>
      obtain ⟨hmem', -⟩ := hin' below rfl
      obtain ⟨ra', hra', hpl⟩ := ho.wired.plain_of_mem_contributors hr hmem
      cases package_unique hra hra'
      have hpath : d.paths → rc.path = .sub ra.path name := by
        intro hd
        rw [Package.contributors_of_isSplit hs] at hmem
        rw [ho.placed hd hr hmem hra, hf.path_eq hrc hd]
      obtain ⟨after, hafter, h⟩ :=
        storeChild_stores ho hra ((ho.fits_contributor hrc hmem').cast hpath)
      exact Gives.allows (.update hafter) (h.single hra (Package.isSplit_of_isPlain hpl))

theorem addUnderSplit_stores (ho : env.Orderly d) (hr : env.package c = .ok r)
    (hs : r.isSplit = true) (hf : env.Fits d (.sub r.path name) child) (m : ModuleId) :
    (addUnderSplit c child m).Allows env fun e after =>
      env.Stores d (some (c, name)) after ∧ after.Fits d (.sub r.path name) e := by
  refine Allows.within (Allows.package fun rc hrc => Allows.noteIf (Allows.note ?_))
  have hname := hf.name_eq hrc
  refine Allows.bind (enrich_stores ho hf m) fun e env1 ⟨h1, hf1⟩ => Allows.package fun r1 hr1 => ?_
  have e1 := h1.advances.record hr hr1
  have hs1 : r1.isSplit = true := e1.isSplit.trans hs
  rw [← e1.path] at hf1 ⊢
  -- what is stored is stored under the last segment of the path of the child
  have hcast : d.paths → (Path.sub r1.path name) = .sub r1.path rc.path.simpleName :=
    fun hd => by rw [hname hd]
  have hboth : env1.AllFit d (.sub r1.path rc.path.simpleName)
      (bindings [some (.package e), r1.known.get? rc.path.simpleName]) := by
    intro q hq
    rcases List.mem_cons.mp (mem_bindings.mp hq) with e | hq
    · cases e
      exact hf1.cast hcast
    · exact h1.orderly.entry hr1 (List.mem_singleton.mp hq).symm
  refine Allows.bind (combine_stores h1.orderly (h1.orderly.graph.home hr1) hboth)
    fun entry env2 ⟨h2, hf2⟩ => Allows.note ?_
  obtain ⟨r2, hr2, e2⟩ := h2.advances.package hr1
  have hs2 := e2.isSplit.trans hs1
  have h12 : env.Stores d (some (c, name)) env2 := (h1.trans h2).weaken
  -- the part of the child's own module comes last
  have hlink {env3 : Environment} (h3 : env2.Stores d (some (c, name)) env3) :
      (do linkIncarnation c e; pure e).Allows env3 fun e after =>
        env.Stores d (some (c, name)) after ∧ after.Fits d (.sub r1.path name) e := by
    obtain ⟨r3, hr3, e3⟩ := h3.advances.package hr2
    have hpath3 : r3.path = r1.path := e3.path.trans e2.path
    have hf3 := (hf1.later h2.advances).later h3.advances
    refine Allows.bind (linkIncarnation_stores h3.orderly hr3 (e3.isSplit.trans hs2)
      (hpath3.symm ▸ hf3)) fun _ after h => Allows.pure ?_
    exact ⟨(h12.trans h3).trans h.weaken, hf3.later h.advances⟩
  cases entry with
  | none => exact hlink h2.orderly.stores
  | some ref =>
    rw [← e2.path] at hf2
    obtain ⟨env3, hset, h3⟩ := learn_stores h2.orderly hr2 hf2
    exact Allows.step (.update (Update.setPackage_ok hset)) (hlink (h3.rename hname))

theorem addChild_stores (ho : env.Orderly d) (hr : env.package c = .ok r)
    (hf : env.Fits d (.sub r.path name) child) (m : ModuleId) :
    (addChild c child m).Allows env fun e after =>
      env.Stores d (some (c, name)) after ∧ after.Fits d (.sub r.path name) e := by
  refine Allows.step (.ask hr) ?_
  by_cases hs : r.isSplit = true
  · rw [if_pos hs]
    exact addUnderSplit_stores ho hr hs hf m
  · rw [if_neg hs]
    obtain ⟨after, hafter, h⟩ := storeChild_stores ho hr hf
    exact Allows.step (.update hafter) (Allows.pure ⟨h, hf.later h.advances⟩)

/-! ## Consulting -/

theorem strictInSplit_stores (ho : env.Orderly d) (hr : env.package c = .ok r)
    (hs : r.isSplit = true) (name : String) :
    (strictInSplit c r name).Allows env fun answer after => env.Stores d none after ∧
      after.AllFit d (.sub r.path name) (bindings [answer]) ∧
      (answer = none → env.entry c name = none) := by
  have hent : env.entry c name = r.known.get? name := entry_of_package hr
  unfold strictInSplit
  cases hget : r.known.get? name with
  | some ref =>
    refine Allows.noteIf (Allows.pure ⟨ho.stores, ?_, fun e => by cases e⟩)
    intro q hq
    cases List.mem_singleton.mp (mem_bindings.mp hq)
    exact ho.entry hr hget
  | none =>
    rw [hget] at hent
    obtain ⟨s, hk⟩ := Package.kind_of_isSplit hs
    obtain ⟨o, hall, hrefs⟩ := allEntries_ok name r.incarnations fun i hi => by
      obtain ⟨ri, hri, -⟩ := ho.wired.plain_of_mem hr hi
      exact ⟨ri, hri⟩
    refine Allows.step (.ask hall) ?_
    cases o with
    | none => exact Allows.pure ⟨ho.stores, by simp [AllFit, bindings], fun _ => hent⟩
    | some refs =>
      have hentries : ∀ ref ∈ refs, ∃ i ∈ r.incarnations, env.entry i name = some ref := by
        intro ref href
        have hin : some ref ∈ r.incarnations.map (env.entry · name) := by
          rw [hrefs refs rfl]
          exact List.mem_map_of_mem href
        exact List.mem_map.mp hin
      refine Allows.bind (combineAll_stores ho (ho.graph.home hr) (ho.fits_entries hr hentries)) ?_
      rintro result mid ⟨h, hf⟩
      cases result with
      | none => exact Allows.pure ⟨h, hf, fun _ => hent⟩
      | some ref =>
        refine Allows.note (Allows.ask fun b _ => ?_)
        obtain ⟨rm, hrm, e⟩ := h.advances.package hr
        obtain ⟨last, hlast, h2⟩ := learnMerged_stores h.orderly hrm (e.isSplit.trans hs) (e.path ▸ hf)
        have hend : env.Stores d none last ∧ last.AllFit d (.sub r.path name) (bindings [some ref]) ∧
            (some ref = none → env.entry c name = none) :=
          ⟨(h.weaken.trans h2).fresh hent, hf.later h2.advances, fun e => by cases e⟩
        cases b with
        | true =>
          exact Allows.ask fun _ _ => Allows.step (noteAll_gives mid _)
            (Allows.step (.update hlast) (Allows.pure hend))
        | false => exact Allows.step (.update hlast) (Allows.pure hend)

theorem strict_stores (ho : env.Orderly d) (hr : env.package c = .ok r) (name : String) :
    (strict c name).Allows env fun answer after => env.Stores d none after ∧
      after.AllFit d (.sub r.path name) (bindings [answer]) ∧
      (answer = none → env.entry c name = none) := by
  refine Allows.step (.ask hr) ?_
  by_cases hs : r.isSplit = true
  · rw [if_pos hs]
    exact strictInSplit_stores ho hr hs name
  · rw [if_neg hs]
    refine Allows.pure ⟨ho.stores, fun q hq => ?_, fun e => (entry_of_package hr).trans e⟩
    exact ho.entry hr (List.mem_singleton.mp (mem_bindings.mp hq)).symm

/-- The memo of a relaxed lookup holds what it has combined, and the result. -/
theorem relaxedMerge_stores (ho : env.Orderly d) (hr : env.package c = .ok r)
    (hs : r.isSplit = true) {refs : List Ref}
    (hf : env.AllFit d (.sub r.path name) (bindings (refs.map some))) :
    (relaxedInSplit.merge c r name refs).Allows env fun answer after => env.Stores d none after ∧
      after.AllFit d (.sub r.path name) (bindings [answer]) := by
  unfold relaxedInSplit.merge
  refine Allows.bind (combineAll_stores ho (ho.graph.home hr) hf) fun result mid ⟨h, hres⟩ => ?_
  obtain ⟨rm, hrm, e⟩ := h.advances.package hr
  obtain ⟨s, hk⟩ := Package.kind_of_isSplit (e.isSplit.trans hs)
  let f : Package → Package := (·.mapSplit fun s =>
    { s with relaxed := s.relaxed.insert name (refs, result) })
  have hf' : f rm = { rm with kind := .split { s with
      relaxed := s.relaxed.insert name (refs, result) } } := by
    simp only [f, Package.mapSplit, hk]
  obtain ⟨last, hset⟩ := Environment.setPackage_ok hrm f
  have ht := touches_of_setPackage hset hrm (by rw [hf']; simp only [Package.bare, hk, Kind.bare])
  rw [hf'] at ht
  have hlast : mid.Stores d none last := by
    refine ht.stores h.orderly ?_ (fun he => h.orderly.entry hrm he) ?_ fun _ => ?_
    · simp only [Package.wrappedBy, hk]
    · intro x refs' result' he
      rw [Package.memo_of_kind rfl, Table.get?_insert] at he
      split at he
      · next ex =>
        cases he
        rw [← ex, e.path]
        intro q hq
        rcases List.mem_cons.mp (mem_bindings.mp hq) with hq | hq
        · exact hres q (mem_bindings.mpr (List.mem_singleton.mpr hq))
        · exact (hf q (mem_bindings.mpr hq)).later h.advances
      · exact h.orderly.memo hrm (by rw [Package.memo_of_kind hk, he])
    · intro c' r' x ref' _ _ _ he
      by_cases hc : c' = c
      · subst hc
        rw [entry_of_package ht.now, ← entry_of_package hrm]
        exact he
      · unfold Environment.entry
        rw [ht.others hc]
        exact he
  exact Allows.step (.update (Update.setPackage_ok hset))
    (Allows.pure ⟨h.trans hlast, hres.later hlast.advances⟩)

theorem relaxed_stores (ho : env.Orderly d) (hr : env.package c = .ok r) (name : String) :
    (relaxed c name).Allows env fun answer after => env.Stores d none after ∧
      after.AllFit d (.sub r.path name) (bindings [answer]) := by
  refine Allows.step (.ask hr) ?_
  by_cases hs : r.isSplit = true
  · rw [if_pos hs]
    unfold relaxedInSplit
    cases hget : r.known.get? name with
    | some ref =>
      refine Allows.pure ⟨ho.stores, fun q hq => ?_⟩
      cases List.mem_singleton.mp (mem_bindings.mp hq)
      exact ho.entry hr hget
    | none =>
      obtain ⟨refs, hrefs, hmem⟩ := someEntries_ok name r.incarnations fun i hi => by
        obtain ⟨ri, hri, -⟩ := ho.wired.plain_of_mem hr hi
        exact ⟨ri, hri⟩
      have hf := ho.fits_entries hr hmem
      refine Allows.step (.ask hrefs) ?_
      split
      · next entries result hmemo =>
        split
        · refine Allows.pure ⟨ho.stores, (ho.memo hr hmemo).mono fun c' hc' => ?_⟩
          rw [List.mem_singleton.mp hc']
          exact List.mem_cons_self
        · exact relaxedMerge_stores ho hr hs hf
      · exact relaxedMerge_stores ho hr hs hf
  · rw [if_neg hs]
    refine Allows.pure ⟨ho.stores, fun q hq => ?_⟩
    exact ho.entry hr (List.mem_singleton.mp (mem_bindings.mp hq)).symm

end Lookup

end SplitPackages
