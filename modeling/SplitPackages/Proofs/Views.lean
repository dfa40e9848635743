import SplitPackages.Proofs.KnownEntries
import SplitPackages.Proofs.Reachability
import SplitPackages.View

/-!
# What looking at a path does

`view_spec`: a module that exists gets an answer at every path, keeps it in its
view, and reaches it by steps that have grounds. Only its own view changes, and
only at the path and above it; new entries are below bindings of the enclosing
paths, and a split has a new one only if the module, whose own it is, sees the
split at its path and the entry below it (`Looks`).

An answer is `Unaided` if it is what the module finds where nothing is stored.
`viewBelow_spec` tells such answers from those that the stored entries give.
-/

namespace SplitPackages

namespace Environment

/-- What a look of the module at the path may change. -/
structure Looks (env : Environment) (m : ModuleId) (path : Path) (after : Environment) : Prop where
  seen : ∀ k other, after.seen k other = env.seen k other ∨ k = m ∧ other.isPrefixOf path = true
  entry : ∀ {p name ref}, after.entry p name = some ref → env.entry p name = some ref ∨
    ∃ r, after.package p = .ok r ∧ (Path.sub r.path name).isPrefixOf path = true ∧
      (r.isSplit = true → r.home = m ∧ after.seen m r.path = some (.package p) ∧
        after.seen m (.sub r.path name) = some ref)

/-- The binding that encloses the path in the view of the module, if there is an enclosing path. -/
def Above (env : Environment) (m : ModuleId) : Path → Option PackageId → Prop
  | .top _, parent => parent = none
  | .sub path _, parent => ∃ c, parent = some c ∧ env.seen m path = some (.package c)

inductive Unaided (env : Environment) (m : ModuleId) : Path → Ref → Prop
  | offered {path : Path} {ref : Ref} : env.Offered m path ref →
      (∀ above name c r, path = .sub above name → env.seen m above = some (.package c) →
        env.package c = .ok r → r.home = m → r.isSplit = true → ref = .notFound) →
      Unaided env m path ref
  | enriched {above : Path} {name : String} {b c e : PackageId} {r : Package} :
      env.seen m above = some (.package c) → env.package c = .ok r → r.home = m →
      r.isSplit = true → env.Offered m (.sub above name) (.package b) →
      env.Enriched c b m (.sub above name) e → Unaided env m (.sub above name) (.package e)

/-- The entry for the name was there, or the incarnations had entries that make it. -/
def Aided (env : Environment) (c : PackageId) (r : Package) (name : String) : Prop :=
  env.entry c name ≠ none ∨
    ∃ s refs, r.kind = .split s ∧ refs ≠ [] ∧
      s.incarnations.toList.map (env.entry · name) = refs.map some

variable {env mid after : Environment} {c q : PackageId} {m k : ModuleId} {r : Package}
  {path other : Path} {name : String} {ref : Ref}

theorem Looks.refl (env : Environment) (m : ModuleId) (path : Path) : env.Looks m path env :=
  ⟨fun _ _ => .inl rfl, fun h => .inl h⟩

theorem Looks.trans (h : env.Looks m path mid) (hch : mid.Changes after)
    (h2 : mid.Looks m path after) : env.Looks m path after where
  seen k other := by
    rcases h2.seen k other with e | e
    · rw [e]
      exact h.seen k other
    · exact .inr e
  entry he := by
    rcases h2.entry he with he | hnew
    · refine (h.entry he).imp_right ?_
      rintro ⟨r, hr, hpre, hown⟩
      obtain ⟨r', hr', e⟩ := hch.keeps.packages hr
      refine ⟨r', hr', by rw [Package.path_eq_of_bare e, hpre], fun hs => ?_⟩
      obtain ⟨hhome, habove, hseen⟩ := hown ((Package.isSplit_eq_of_bare e).symm.trans hs)
      rw [Package.home_eq_of_bare e, Package.path_eq_of_bare e]
      exact ⟨hhome, hch.seen habove, hch.seen hseen⟩
    · exact .inr hnew

/-- A module that fills a binding of its own goes on to see what is stored there. -/
theorem Fills.looks (h : env.Fills c name r.path mid) (hr : mid.package c = .ok r)
    (hhome : r.home = m) (habove : mid.seen m r.path = some (.package c))
    (he : mid.entry c name = some ref) (hch : mid.Changes after)
    (hl : mid.Looks m (.sub r.path name) after) (hs : after.seen m (.sub r.path name) = some ref) :
    env.Looks m (.sub r.path name) after where
  seen k other := (hl.seen k other).imp_left (·.trans (h.seen k other))
  entry {p x ref'} he' := by
    rcases hl.entry he' with hold | hnew
    · refine (h.entry hold).imp_right ?_
      rintro ⟨rfl, rp, hrp, hpath, hwhich⟩
      obtain ⟨rp', hrp', e⟩ := hch.keeps.packages hrp
      refine ⟨rp', hrp', ?_, fun hsplit => ?_⟩
      · rw [Package.path_eq_of_bare e, hpath, Path.isPrefixOf_refl]
      · rcases hwhich with rfl | hpl
        · cases package_unique hr hrp
          rw [Package.home_eq_of_bare e, Package.path_eq_of_bare e]
          exact ⟨hhome, hch.seen habove, hs.trans (he.symm.trans hold)⟩
        · rw [Package.isSplit_eq_of_bare e, Package.isSplit_of_isPlain hpl] at hsplit
          cases hsplit
    · exact .inr hnew

theorem Remembers.looks (h : env.Remembers m path ref after) : env.Looks m path after where
  seen k other := by
    rw [h.seen]
    split
    · next e => exact .inr ⟨e.1, e.2 ▸ Path.isPrefixOf_refl path⟩
    · exact .inl rfl
  entry he := by
    rw [h.entry] at he
    exact .inl he

theorem isPrefixOf_sub (h : other.isPrefixOf path = true) (name : String) :
    other.isPrefixOf (.sub path name) = true := by
  simp only [Path.isPrefixOf, h, Bool.or_true]

theorem Looks.below (h : env.Looks m path after) (name : String) :
    env.Looks m (.sub path name) after where
  seen k other := (h.seen k other).imp_right fun e => ⟨e.1, isPrefixOf_sub e.2 name⟩
  entry he := by
    refine (h.entry he).imp_right ?_
    rintro ⟨r, hr, hpre, hown⟩
    exact ⟨r, hr, isPrefixOf_sub hpre name, hown⟩

/-- A path is not below itself. -/
theorem not_isPrefixOf_sub (path : Path) (name : String) :
    (Path.sub path name).isPrefixOf path = false := by
  rw [Bool.eq_false_iff, ne_eq, Path.isPrefixOf_iff]
  intro h
  have := h.length_le
  rw [Path.length_segments, Path.length_segments, Path.length] at this
  omega

/-- A look does not touch the view below the path. -/
theorem Looks.seen_sub (h : env.Looks m path after) (name : String) :
    after.seen m (.sub path name) = env.seen m (.sub path name) := by
  rcases h.seen m (.sub path name) with e | ⟨-, e⟩
  · exact e
  · rw [not_isPrefixOf_sub] at e
    cases e

theorem Unaided.keeps (hc : env.Coherent) (hk : env.Keeps after)
    (hs : ∀ above name, path = .sub above name → after.seen m above = env.seen m above)
    (h : env.Unaided m path ref) : after.Unaided m path ref := by
  cases h with
  | offered ho hown =>
    refine .offered (ho.keeps hc hk) fun above name c r e hc' hr hhome hsplit => ?_
    rw [hs above name e] at hc'
    obtain ⟨r0, hr0, -⟩ := hc.seen hc'
    obtain ⟨r', hr', e'⟩ := hk.packages hr0
    cases package_unique hr hr'
    exact hown above name c r0 e hc' hr0 ((Package.home_eq_of_bare e').symm.trans hhome)
      ((Package.isSplit_eq_of_bare e').symm.trans hsplit)
  | enriched hc' hr hhome hsplit ho he =>
    obtain ⟨r', hr', e'⟩ := hk.packages hr
    exact .enriched ((hs _ _ rfl).trans hc') hr' ((Package.home_eq_of_bare e').trans hhome)
      ((Package.isSplit_eq_of_bare e').trans hsplit) (ho.keeps hc hk)
      (he.keeps hc hk hr (ho.binds hc))

/-! ## Candidates -/

theorem Closed.exposersAmong_ok (hc : env.Closed) (hm : ∃ record, env.module m = .ok record)
    (path : Path) : ∀ ks : List ModuleId, (∀ k ∈ ks, ∃ record, env.module k = .ok record) →
      ∃ found, env.exposersAmong m path ks = .ok found ∧
        ∀ k, k ∈ found ↔ k ∈ ks ∧ k ≠ m ∧ env.Exposes k path ∧ env.Reads m k
  | [], _ => ⟨[], rfl, by simp⟩
  | k :: ks, h => by
    obtain ⟨record, hrec⟩ := h k List.mem_cons_self
    obtain ⟨found, hfound, hmem⟩ := hc.exposersAmong_ok hm path ks
      fun q hq => h q (List.mem_cons_of_mem _ hq)
    have hskip (hno : ¬ (k ≠ m ∧ env.Exposes k path ∧ env.Reads m k)) (i : ModuleId) :
        i ∈ found ↔ i ∈ k :: ks ∧ i ≠ m ∧ env.Exposes i path ∧ env.Reads m i := by
      rw [hmem i, List.mem_cons]
      refine ⟨fun h => ⟨.inr h.1, h.2⟩, fun h => ⟨h.1.resolve_left ?_, h.2⟩⟩
      rintro rfl
      exact hno h.2
    simp only [exposersAmong]
    by_cases hkm : k = m
    · rw [if_pos hkm]
      exact ⟨found, hfound, hskip fun h => h.1 hkm⟩
    rw [if_neg hkm, hrec]
    simp only [bind, Except.bind]
    by_cases hx : record.exposes path = true
    · obtain ⟨record', hm⟩ := hm
      obtain ⟨b, hb⟩ := hc.canRead_ok hm k
      simp only [hx, Bool.not_true, Bool.false_eq_true, if_false, hb]
      cases b with
      | false =>
        refine ⟨found, hfound, hskip fun h => ?_⟩
        have := h.2.2
        rw [Reads, hb] at this
        cases this
      | true =>
        simp only [if_true, hfound]
        refine ⟨k :: found, rfl, fun i => ?_⟩
        rw [List.mem_cons, List.mem_cons, hmem i]
        constructor
        · rintro (rfl | h)
          · exact ⟨.inl rfl, hkm, ⟨record, hrec, hx⟩, hb⟩
          · exact ⟨.inr h.1, h.2⟩
        · rintro ⟨rfl | h, h2⟩
          · exact .inl rfl
          · exact .inr ⟨h, h2⟩
    · simp only [Bool.not_eq_true] at hx
      simp only [hx, Bool.not_false, if_true]
      refine ⟨found, hfound, hskip fun h => ?_⟩
      obtain ⟨record', hrec', hx'⟩ := h.2.1
      rw [hrec] at hrec'
      cases hrec'
      rw [hx] at hx'
      cases hx'

theorem mem_moduleIds : k ∈ env.moduleIds ↔ ∃ record, env.module k = .ok record := by
  unfold moduleIds
  rw [List.mem_map]
  constructor
  · rintro ⟨i, hi, rfl⟩
    exact module_of_lt_size (List.mem_range.mp hi)
  · rintro ⟨record, h⟩
    exact ⟨k.index, List.mem_range.mpr (lt_size_of_module h), rfl⟩

end Environment

namespace Lookup

open Environment

variable {env mid after : Environment} {c p q : PackageId} {m k : ModuleId} {r : Package}
  {path : Path} {name : String} {ref : Ref}

theorem readableCandidates_gives (path : Path) : ∀ ks : List ModuleId,
    (∀ k ∈ ks, ∃ record, env.module k = .ok record) →
    ∃ ps, (readableCandidates path ks).Gives env ps env ∧
      ∀ b, b ∈ ps ↔ ∃ k ∈ ks, env.declared k path = .ok (some b)
  | [], _ => ⟨[], Gives.pure [], by simp⟩
  | k :: ks, hall => by
    obtain ⟨record, hrec⟩ := hall k List.mem_cons_self
    have hd : env.declared k path = .ok (record.declared.get? path) := declared_of_module hrec
    obtain ⟨ps, hgives, hps⟩ := readableCandidates_gives path ks
      fun q hq => hall q (List.mem_cons_of_mem _ hq)
    cases hget : record.declared.get? path with
    | none =>
      rw [hget] at hd
      refine ⟨ps, (Gives.ask (a := none) hd).bind hgives, fun b => ?_⟩
      rw [hps b]
      constructor
      · rintro ⟨i, hi, h⟩
        exact ⟨i, List.mem_cons_of_mem _ hi, h⟩
      · rintro ⟨i, hi, h⟩
        rcases List.mem_cons.mp hi with rfl | hi
        · rw [hd] at h
          cases h
        · exact ⟨i, hi, h⟩
    | some p =>
      rw [hget] at hd
      refine ⟨p :: ps, (Gives.ask (a := some p) hd).bind ?_, fun b => ?_⟩
      · exact (Gives.note _).bind (hgives.bind (Gives.pure (p :: ps)))
      rw [List.mem_cons, hps b]
      constructor
      · rintro (rfl | ⟨i, hi, h⟩)
        · exact ⟨k, List.mem_cons_self, hd⟩
        · exact ⟨i, List.mem_cons_of_mem _ hi, h⟩
      · rintro ⟨i, hi, h⟩
        rcases List.mem_cons.mp hi with rfl | hi
        · rw [hd] at h
          cases h
          exact .inl rfl
        · exact .inr ⟨i, hi, h⟩

/-- What the module sees is what combining its candidates gives. -/
theorem combineVisible_steps (hc : env.Closed) (hm : ∃ record, env.module m = .ok record)
    (path : Path) {Q : Option Ref → Environment → Prop}
    (hall : ∀ ps, env.Candidates m path ps →
      (combineAll (ps.map (some ∘ Ref.package)) m).Ensures env Q) :
    (combineVisible m path).Ensures env Q := by
  obtain ⟨record, hrec⟩ := id hm
  have hd : env.declared m path = .ok (record.declared.get? path) := declared_of_module hrec
  obtain ⟨others, hothers, hmem⟩ := hc.exposersAmong_ok hm path env.moduleIds
    fun k hk => mem_moduleIds.mp hk
  obtain ⟨ps, hgives, hps⟩ := readableCandidates_gives path others
    fun k hk => mem_moduleIds.mp ((hmem k).mp hk).1
  refine Ensures.step (Gives.ask hd) (Ensures.step (Gives.ask hothers) (Ensures.step hgives ?_))
  have hcand : env.Candidates m path ((record.declared.get? path).toList ++ ps) := by
    intro b
    rw [List.mem_append, Option.mem_toList, hps b]
    constructor
    · rintro (h | ⟨k, hk, h⟩)
      · exact ⟨m, by rw [hd, h], .inl rfl⟩
      · obtain ⟨-, -, hx, hr⟩ := (hmem k).mp hk
        exact ⟨k, h, .inr ⟨hr, hx⟩⟩
    · rintro ⟨k, h, hk⟩
      by_cases e : k = m
      · subst e
        rw [hd] at h
        injection h with h
        exact .inl h
      · obtain ⟨hr, hx⟩ := hk.resolve_left e
        have hk : ∃ record, env.module k = .ok record := Declares.module ⟨b, h⟩
        exact .inr ⟨k, (hmem k).mpr ⟨mem_moduleIds.mpr hk, e, hx, hr⟩, h⟩
  refine (hall _ hcand).bind fun found after hq => ?_
  exact Ensures.step (Gives.note _) (Ensures.pure hq)

theorem combineVisible_spec (hc : env.Coherent) (hm : ∃ record, env.module m = .ok record)
    (path : Path) : (combineVisible m path).Ensures env fun found after =>
      env.Grows after ∧ ∃ ref, found.bind Ref.package? = ref.package? ∧ after.Offered m path ref := by
  refine combineVisible_steps hc.closed hm path fun ps hcand => ?_
  rw [← List.map_map]
  refine (combineAll_spec hc hm (allBind_map (hcand.binds hc))).mono ?_
  rintro result after ⟨hg, hres⟩
  refine ⟨hg, ?_⟩
  rcases hres with ⟨rfl, hnil⟩ | ⟨ref, rfl, hmer⟩
  · exact ⟨.notFound, rfl, _, hcand.keeps hg.keeps, .inl ⟨List.map_eq_nil_iff.mp hnil, rfl⟩⟩
  · exact ⟨ref, rfl, _, hcand.keeps hg.keeps, .inr hmer⟩

/-! ## Answers -/

theorem remember_spec (hm : ∃ record, env.module m = .ok record) (hnone : env.seen m path = none)
    (hs : env.Sights m path ref) : (remember m path ref).Ensures env fun ref' after =>
      ref' = ref ∧ env.Changes after ∧ env.Looks m path after ∧ after.seen m path = some ref ∧
        ∀ above x, path = .sub above x → after.seen m above = env.seen m above := by
  obtain ⟨record, hrec⟩ := hm
  obtain ⟨after, hafter⟩ := Environment.setModule_ok hrec (·.remember path ref)
  have hr : env.Remembers m path ref after := hafter
  refine Ensures.step (Gives.update (Update.setModule_ok hafter)) (Ensures.pure ⟨rfl, ?_⟩)
  refine ⟨.single (.remember hnone hs hr), hr.looks, by rw [hr.seen, if_pos ⟨rfl, rfl⟩], ?_⟩
  rintro above x rfl
  rw [hr.seen, if_neg]
  rintro ⟨-, e⟩
  have := congrArg Path.length e
  rw [Path.length] at this
  omega

/-- The outcome of a look below `parent`, in terms of what there was. -/
def Below (env : Environment) (m : ModuleId) (path : Path) (parent : Option PackageId) (ref : Ref)
    (after : Environment) : Prop :=
  env.Changes after ∧ env.Looks m path after ∧ after.seen m path = some ref ∧
    (after.Unaided m path ref ∨ ∃ c r, parent = some c ∧ env.package c = .ok r ∧ r.home = m ∧
      env.Aided c r path.simpleName)

/-- What the module sees is all that it goes by. -/
theorem viewUnowned_spec (hc : env.Coherent) (hm : ∃ record, env.module m = .ok record)
    (hnone : env.seen m path = none) {parent : Option PackageId}
    (hsights : ∀ mid ref, env.Grows mid → mid.Offered m path ref → mid.Sights m path ref)
    (hown : ∀ mid, env.Grows mid → ∀ above name c r, path = .sub above name →
      mid.seen m above = some (.package c) → mid.package c = .ok r → r.home = m → False) :
    (do
      match (← combineVisible m path).bind Ref.package? with
      | some p => remember m path (.package p)
      | none => remember m path .notFound).Ensures env fun ref after =>
        Below env m path parent ref after := by
  refine (combineVisible_spec hc hm path).bind ?_
  rintro found mid ⟨hg, ref, hfound, ho⟩
  have hm' := hg.keeps.module_ok hm
  have hun : mid.Unaided m path ref := .offered ho fun above name c r e hs hr hhome _ =>
    absurd hhome fun hhome => hown mid hg above name c r e hs hr hhome
  have hmid := hg.coherent hc
  have hend : (remember m path ref).Ensures mid fun ref after => Below env m path parent ref after := by
    refine (remember_spec hm' ((hg.seen _ _).trans hnone) (hsights mid ref hg ho)).mono ?_
    rintro ref' after ⟨rfl, hch, hl, hs, habove⟩
    have hlook : env.Looks m path mid := ⟨fun k other => .inl (hg.seen k other),
      fun he => .inl (hg.entry_back he)⟩
    exact ⟨(Changes.single (.grow hg)).trans hch, hlook.trans hch hl, hs,
      .inl (hun.keeps hmid hch.keeps habove)⟩
  rw [hfound]
  cases ref with
  | notFound => exact hend
  | package p => exact hend

/-- Below a binding of its own the module stores the package that it is offered, and enriches it
first if the binding is a split. -/
theorem addChild_offered (hc : env.Coherent) (hr : env.package c = .ok r)
    (hnone : env.entry c name = none) (hseen : env.seen r.home r.path = some (.package c))
    (hbelow : env.seen r.home (.sub r.path name) = none)
    (ho : env.Offered r.home (.sub r.path name) (.package p)) :
    (addChild c p r.home).Ensures env fun e after => env.Changes after ∧
      env.Fills c name r.path after ∧ after.entry c name = some (.package e) ∧
      after.Unaided r.home (.sub r.path name) (.package e) := by
  have hb := ho.binds hc
  by_cases hs : r.isSplit = true
  · -- where nothing is stored, what is combined is the enriched package itself
    have hfresh {mid : Environment} {e : PackageId} {ref : Ref}
        (h : mid.Combines r.home (.sub r.path name) e (env.entry c name) ref) :
        ref = .package e := by
      rw [hnone] at h
      cases h with
      | fresh => rfl
      | kept h => cases h
      | joined h => cases h
    refine (addChild_split hr hs (addUnderSplit_spec hc hr hs hb r.home ?_)).mono ?_
    · intro mid e ref hg he hcomb
      obtain rfl := hfresh hcomb
      exact .enriched hs ((hg.seen _ _).trans hseen) (ho.keeps hc hg.keeps) he
    · rintro e after ⟨hch, hf, mid, ref, hg, he, hcomb, hk, hent⟩
      obtain rfl := hfresh hcomb
      refine ⟨hch, hf, hent, ?_⟩
      obtain ⟨r', hr', e'⟩ := hch.keeps.packages hr
      obtain ⟨rm, hrm, -⟩ := hg.keeps.packages hr
      have hmid := hg.coherent hc
      exact .enriched ((hf.seen _ _).trans hseen) hr' (Package.home_eq_of_bare e')
        ((Package.isSplit_eq_of_bare e').trans hs) (ho.keeps hc hch.keeps)
        (he.keeps hmid hk hrm ((ho.keeps hc hg.keeps).binds hmid))
  · have hs : r.isSplit = false := by simpa using hs
    refine (addChild_spec hr hs hb r.home (.offered (.inl hs) hseen hbelow ho)).mono ?_
    rintro e after ⟨rfl, hch, hf, hent⟩
    refine ⟨hch, hf, hent, .offered (ho.keeps hc hch.keeps) ?_⟩
    intro above' name' c' r' e hseen' hr' _ hsplit
    cases e
    rw [hf.seen, hseen] at hseen'
    cases hseen'
    obtain ⟨r'', hr'', e⟩ := hch.keeps.packages hr
    rw [hr'] at hr''
    cases hr''
    rw [Package.isSplit_eq_of_bare e, hs] at hsplit
    cases hsplit

/-- Below a binding of its own the module consults and fills what is stored there. -/
theorem viewOwned_spec {above : Path} (hc : env.Coherent)
    (hm : ∃ record, env.module m = .ok record) (hnone : env.seen m (.sub above name) = none)
    (habove : env.seen m above = some (.package c)) (hr : env.package c = .ok r)
    (hhome : r.home = m) :
    (do
      match ← strict c name with
      | some ref => remember m (.sub above name) ref
      | none =>
        match (← combineVisible m (.sub above name)).bind Ref.package? with
        | some p => remember m (.sub above name) (.package (← addChild c p m))
        | none =>
          update (.learnMissing c name)
          remember m (.sub above name) .notFound).Ensures env fun ref after =>
        Below env m (.sub above name) (some c) ref after := by
  obtain ⟨r', hr', rfl⟩ := hc.seen habove
  cases package_unique hr hr'
  subst hhome
  -- what is remembered is what is stored by then
  have hend {mid : Environment} {ref : Ref} (hch : env.Changes mid) (hf : env.Fills c name r.path mid)
      (he : mid.entry c name = some ref)
      (hwhy : mid.Unaided r.home (.sub r.path name) ref ∨ env.Aided c r name) :
      (remember r.home (.sub r.path name) ref).Ensures mid fun ref after =>
        Below env r.home (.sub r.path name) (some c) ref after := by
    obtain ⟨r', hr', e⟩ := hch.keeps.packages hr
    refine (remember_spec (hch.keeps.module_ok hm) ((hf.seen _ _).trans hnone) (.stored
      ((hf.seen _ _).trans habove) hr' (Package.home_eq_of_bare e) he)).mono ?_
    rintro ref' after ⟨rfl, hch', hl, hs, hkeep⟩
    have hpath := Package.path_eq_of_bare e
    have habove' := (hf.seen _ _).trans habove
    rw [← hpath] at hf hl hs habove'
    have hlook := hf.looks hr' (Package.home_eq_of_bare e) habove' he hch' hl hs
    rw [hpath] at hlook hs
    refine ⟨hch.trans hch', hlook, hs, hwhy.imp ?_ ?_⟩
    · exact fun h => h.keeps (hch.coherent hc) hch'.keeps hkeep
    · exact fun h => ⟨c, r, rfl, hr, rfl, h⟩
  refine (strict_spec hc hr name).bind ?_
  rintro answer env1 ⟨hch1, hf1, ⟨rfl, hg1, hent⟩ | ⟨ref, rfl, he, hwhy⟩⟩
  · have hc1 := hg1.coherent hc
    have hm1 := hg1.keeps.module_ok hm
    refine (combineVisible_spec hc1 hm1 _).bind ?_
    rintro found env2 ⟨hg2, ref, hfound, ho⟩
    have hg := hg1.trans hg2
    have hc2 := hg2.coherent hc1
    obtain ⟨r2, hr2, e2⟩ := hg.keeps.packages hr
    have hch2 : env.Changes env2 := .single (.grow hg)
    have hf2 : env.Fills c name r.path env2 := hg.fills c name r.path
    have hent2 : env2.entry c name = none := (hg.entry hr name).trans hent
    have hseen2 := (hg.seen r.home r.path).trans habove
    have hbelow2 := (hg.seen r.home (.sub r.path name)).trans hnone
    rw [← Package.home_eq_of_bare e2, ← Package.path_eq_of_bare e2] at hseen2 hbelow2 ho hend ⊢
    rw [← Package.path_eq_of_bare e2] at hf2
    rw [hfound]
    cases ref with
    | notFound =>
      obtain ⟨env3, h3, hch3, hf3, he3⟩ := learnMissing_gives hr2 (.offered (.inr rfl) hseen2 hbelow2 ho)
      refine Ensures.step h3 (hend (hch2.trans hch3) (hf2.trans hch3.keeps hf3) he3 (.inl ?_))
      exact .offered (ho.keeps hc2 hch3.keeps) fun _ _ _ _ _ _ _ _ _ => rfl
    | package b =>
      refine (addChild_offered hc2 hr2 hent2 hseen2 hbelow2 ho).bind ?_
      rintro e env3 ⟨hch3, hf3, hent3, hun⟩
      exact hend (hch2.trans hch3) (hf2.trans hch3.keeps hf3) hent3 (.inl hun)
  · exact hend hch1 hf1 he (.inr (hwhy.imp_left fun h => by rw [h]; exact Option.some_ne_none ref))

theorem viewBelow_spec (hc : env.Coherent) (hm : ∃ record, env.module m = .ok record)
    (hnone : env.seen m path = none) {parent : Option PackageId}
    (habove : env.Above m path parent) :
    (viewBelow m path parent).Ensures env fun ref after => Below env m path parent ref after := by
  cases path with
  | top name =>
    cases habove
    refine Ensures.step (Gives.pure none) (viewUnowned_spec hc hm hnone ?_ ?_)
    · exact fun mid ref _ ho => .top ho
    · intro _ _ _ _ _ _ e
      cases e
  | sub above name =>
    obtain ⟨c, rfl, hseen⟩ := habove
    obtain ⟨r, hr, hpath⟩ := hc.seen hseen
    by_cases hhome : r.home = m
    · have howned : (viewBelow.owned m (some c)).Gives env (some c) env := by
        refine (Gives.ask hr).bind ?_
        rw [if_pos hhome]
        exact Gives.pure _
      exact Ensures.step howned (viewOwned_spec hc hm hnone hseen hr hhome)
    · have howned : (viewBelow.owned m (some c)).Gives env none env := by
        refine (Gives.ask hr).bind ?_
        rw [if_neg hhome]
        exact Gives.pure _
      refine Ensures.step howned (viewUnowned_spec hc hm hnone ?_ ?_)
      · intro mid ref hg ho
        obtain ⟨r', hr', e⟩ := hg.keeps.packages hr
        exact .foreign ((hg.seen _ _).trans hseen) hr'
          (fun h => hhome ((Package.home_eq_of_bare e).symm.trans h)) ho
      · intro mid hg above' name' c' r' e hs' hr' hhome'
        cases e
        rw [hg.seen, hseen] at hs'
        cases hs'
        obtain ⟨r'', hr'', e⟩ := hg.keeps.packages hr
        rw [hr'] at hr''
        cases hr''
        exact hhome ((Package.home_eq_of_bare e).symm.trans hhome')

/-- What a module that exists sees at a path. -/
theorem view_spec (hc : env.Coherent) (hm : ∃ record, env.module m = .ok record) :
    ∀ path, (view m path).Ensures env fun ref after =>
      env.Changes after ∧ env.Looks m path after ∧ after.seen m path = some ref
  | .top name => by
    obtain ⟨record, hrec⟩ := id hm
    have hseen : env.seen m (.top name) = record.visible.get? (.top name) := seen_of_module hrec
    refine Ensures.step (Gives.ask hrec) ?_
    cases hget : record.visible.get? (.top name) with
    | some ref => exact Ensures.pure ⟨.refl, .refl env m _, hseen.trans hget⟩
    | none =>
      refine (viewBelow_spec hc hm (hseen.trans hget) rfl).mono ?_
      exact fun ref after h => ⟨h.1, h.2.1, h.2.2.1⟩
  | .sub above name => by
    obtain ⟨record, hrec⟩ := id hm
    have hseen : env.seen m (.sub above name) = record.visible.get? (.sub above name) :=
      seen_of_module hrec
    refine Ensures.step (Gives.ask hrec) ?_
    cases hget : record.visible.get? (.sub above name) with
    | some ref => exact Ensures.pure ⟨.refl, .refl env m _, hseen.trans hget⟩
    | none =>
      refine (view_spec hc hm above).bind ?_
      rintro ref1 env1 ⟨hch1, hl1, hs1⟩
      have hc1 := hch1.coherent hc
      have hm1 := hch1.keeps.module_ok hm
      have hnone := (hl1.seen_sub name).trans (hseen.trans hget)
      cases ref1 with
      | notFound =>
        refine (remember_spec hm1 hnone (.below hs1)).mono ?_
        rintro ref after ⟨rfl, hch, hl, hs, -⟩
        exact ⟨hch1.trans hch, (hl1.below name).trans hch hl, hs⟩
      | package c =>
        refine (viewBelow_spec hc1 hm1 hnone ⟨c, rfl, hs1⟩).mono ?_
        rintro ref after ⟨hch, hl, hs, -⟩
        exact ⟨hch1.trans hch, (hl1.below name).trans hch hl, hs⟩

end Lookup

end SplitPackages
