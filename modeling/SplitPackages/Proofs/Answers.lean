import SplitPackages.Proofs.Questions

/-!
# Lookups have answers

`Answers act env`: from `env` the lookup `act` gives an answer, whatever was
journaled before, and every event that it notes belongs to a task and can be put
into words in the environment in which it happened (`Event.Told`). In an orderly
environment every lookup of modules and packages that are there answers. What a
lookup comes upon on the way is there because the environment stays orderly
after each of its parts, which is what `LookupProgress` says.
-/

namespace SplitPackages

namespace Lookup

open Environment

def Answers {α : Type} (act : Lookup α) (env : Environment) : Prop :=
  ∀ j, ∃ a s, act ⟨env, j⟩ = .ok (a, s) ∧
    ∀ n ∈ s.journal.notes, n ∈ j.notes ∨ n.event.Told n.env

section Rules

variable {α β : Type} {act : Lookup α} {f : α → Lookup β} {env mid : Environment} {a : α}
  {P : α → Environment → Prop}

theorem Answers.pure (a : α) : (Pure.pure a : Lookup α).Answers env :=
  fun j => ⟨a, ⟨env, j⟩, rfl, fun _ hn => .inl hn⟩

/-- What every run of the first part satisfies, the second part may rely on. -/
theorem Answers.bind (h : act.Answers env) (hp : act.Allows env P)
    (h2 : ∀ a mid, P a mid → (f a).Answers mid) : (act >>= f).Answers env := by
  intro j
  obtain ⟨a, s, hrun, hnotes⟩ := h j
  obtain ⟨b, s', hrun', hnotes'⟩ := h2 a s.env (hp j a s hrun) s.journal
  refine ⟨b, s', by simp only [Bind.bind, StateT.bind, Except.bind, hrun, hrun'], fun n hn => ?_⟩
  exact (hnotes' n hn).elim (hnotes n) .inr

theorem ask_run {g : Environment → Except Fault α} (h : g env = .ok a) (j : Journal) :
    Lookup.ask g ⟨env, j⟩ = .ok (a, ⟨env, j⟩) := by
  simp only [Lookup.ask, Lookup.update, Bind.bind, StateT.bind, get, getThe, MonadStateOf.get,
    StateT.get, Except.bind, Pure.pure, Except.pure, liftM, monadLift, MonadLift.monadLift,
    StateT.lift, h]

theorem Answers.ask {g : Environment → Except Fault α} (h : g env = .ok a)
    (h2 : (f a).Answers env) : (Lookup.ask g >>= f).Answers env := by
  have hask : (Lookup.ask g).Answers env :=
    fun j => ⟨a, ⟨env, j⟩, ask_run h j, fun n hn => .inl hn⟩
  refine hask.bind ((Gives.ask h).allows (P := fun b after => b = a ∧ after = env) ⟨rfl, rfl⟩) ?_
  rintro _ _ ⟨rfl, rfl⟩
  exact h2

theorem Answers.of_update {u : Update α} (h : u env = .ok (a, mid)) :
    (Lookup.update u).Answers env := fun j =>
  ⟨a, ⟨mid, j⟩, by simp only [Lookup.update, Bind.bind, Except.bind, Pure.pure, Except.pure, h],
    fun n hn => .inl hn⟩

theorem Answers.update {u : Update α} (h : u env = .ok (a, mid)) (h2 : (f a).Answers mid) :
    (Lookup.update u >>= f).Answers env := by
  refine (of_update h).bind
    ((Gives.update h).allows (P := fun b after => b = a ∧ after = mid) ⟨rfl, rfl⟩) ?_
  rintro _ _ ⟨rfl, rfl⟩
  exact h2

/-- A change that succeeds answers, whatever else is known of it. -/
theorem Answers.build {u : Update α} {g : α → β} {Q : β → Environment → Prop}
    (h : (g <$> Lookup.update u).Ensures env Q) : (g <$> Lookup.update u).Answers env := by
  obtain ⟨b, after, hg, -⟩ := h
  obtain ⟨j, hj⟩ := hg .empty
  cases hu : u env with
  | ok p =>
    exact .bind (P := fun _ _ => True) (of_update hu) (fun _ _ _ _ => trivial) fun _ _ _ => .pure _
  | error e =>
    simp only [Lookup.update, Functor.map, StateT.map, Bind.bind, Except.bind, hu] at hj
    cases hj

theorem Answers.announce {p : PackageId} {path : Path} {f : Unit → Lookup β}
    (h : (f ()).Answers env) : (Lookup.announce p path >>= f).Answers env := by
  have ha : (Lookup.announce p path).Answers env := fun j => ⟨(), _, rfl, fun n hn => .inl hn⟩
  refine ha.bind ((Gives.announce p path).allows (P := fun _ after => after = env) rfl) ?_
  rintro _ _ rfl
  exact h

theorem Answers.note {e : Event} {f : Unit → Lookup β} (he : e.Told env)
    (h : (f ()).Answers env) : (Lookup.note e >>= f).Answers env := by
  have ha : (Lookup.note e).Answers env := by
    refine fun j => ⟨(), _, rfl, fun n hn => ?_⟩
    rcases List.mem_append.mp hn with hn | hn
    · exact .inl hn
    · rw [List.mem_singleton.mp hn]
      exact .inr he
  refine ha.bind ((Gives.note e).allows (P := fun _ after => after = env) rfl) ?_
  rintro _ _ rfl
  exact h

theorem Answers.noteIf {c : Prop} [Decidable c] {e : Event} {f : Unit → Lookup β}
    (he : e.Told env) (h : (f ()).Answers env) :
    (if c then (do let u ← Lookup.note e; f u) else f ()).Answers env := by
  split
  · exact Answers.note he h
  · exact h

theorem Answers.within {step : Step} (h : act.Answers env) : (within step act).Answers env := by
  intro j
  obtain ⟨a, s, hrun, hnotes⟩ := h { j with steps := j.steps ++ [step] }
  have hall : Lookup.within step act ⟨env, j⟩ =
      (act ⟨env, { j with steps := j.steps ++ [step] }⟩).bind fun p =>
        .ok (p.1, { p.2 with journal.steps := j.steps }) := rfl
  exact ⟨a, { s with journal.steps := j.steps }, by rw [hall, hrun]; rfl, hnotes⟩

theorem Answers.map {g : α → β} (h : act.Answers env) : (g <$> act).Answers env :=
  h.bind (P := fun _ _ => True) (fun _ _ _ _ => trivial) fun a _ _ => .pure (g a)

end Rules

end Lookup

namespace Environment

variable {env : Environment} {p : PackageId} {r : Package} {path path' : Path}
  {ps : List PackageId}

/-- Without a discipline every binding that is there fits everywhere. -/
theorem fits_free (hr : env.package p = .ok r) : env.Fits .free path p :=
  ⟨r, hr, fun hd => hd.elim, fun hd => hd.elim⟩

theorem AllFit.free (h : env.AllFit .free path ps) : env.AllFit .free path' ps :=
  h.cast fun hd => hd.elim

end Environment

namespace Lookup

open Environment

variable {env : Environment} {c p below : PackageId} {m k : ModuleId}
  {r rc : Package} {path : Path} {name : String} {ps : List PackageId}

/-! ## Merging -/

theorem newSplit_answers (ho : env.Orderly .free) (hm : ∃ record, env.module m = .ok record)
    (hf : env.Fits .free path p) : (newSplit p m).Answers env := by
  obtain ⟨r, hr, -⟩ := id hf
  obtain ⟨after, hafter, -⟩ := allot_pools ho hm hf hr
  have hadd : Update.addPackage (.fresh r.path r.parent m (.split .empty)) env =
    .ok (⟨env.packages.size⟩, _) := rfl
  exact .ask hr (.update hadd (.update hafter (.announce (.pure _))))

theorem peel_answers (h : env.Pools .free path ps p mid) : (peel p).Answers mid := by
  obtain ⟨r, hr, -⟩ := h.record
  refine .ask hr ?_
  split
  · split
    · exact .note ⟨rfl, _, rfl⟩ (.pure _)
    · exact .pure _
  · exact .pure _

theorem gather_answers (ho : env.Orderly .free) (hm : ∃ record, env.module m = .ok record)
    (hps : env.AllFit .free path (p :: ps)) : (gather p ps m).Answers env := by
  have hp := hps p List.mem_cons_self
  refine .bind (newSplit_answers ho hm hp) (newSplit_pools ho hm hp) fun split mid h => ?_
  obtain ⟨next, hnext, h⟩ := h.addAll ps fun q hq => hps q (List.mem_cons_of_mem _ hq)
  exact .update hnext (peel_answers h)

theorem combineAll_answers (ho : env.Orderly .free) (hm : ∃ record, env.module m = .ok record)
    {cs : List (Option Ref)} (hf : env.AllFit .free path (bindings cs)) :
    (combineAll cs m).Answers env := by
  refine .within (.note (ho.told rfl (by simp [Event.packages]) (by simpa [Event.modules] using hm))
    (.ask (rankAll_graded hf.there) ?_))
  have hmem {c : Option Ref} (hc : c ∈ ofRank (bestRank (env.graded cs)) (env.graded cs)) :=
    mem_ofRank_graded hc
  dsimp only
  split
  · exact .pure _
  · next first second rest hbest heq =>
    rw [heq, hbest] at hmem
    split
    · exact .pure _
    · next p ps hps =>
      have hin (q : PackageId) (hq : q ∈ p :: ps) := hmem (mem_bindings.mp (hps ▸ hq))
      have hall : env.AllFit .free path (p :: ps) := fun q hq => hf q (mem_bindings.mpr (hin q hq).1)
      obtain ⟨_, ⟨⟩, hv⟩ := eq_package_of_grade (hin p List.mem_cons_self).2
      obtain ⟨r, hr⟩ := hall.there p List.mem_cons_self
      rw [valid_of_package hr] at hv
      refine .bind (gather_answers ho hm hall) (gather_stores ho hm hall hr hv)
        fun result after ⟨h, hres⟩ => .note (h.orderly.told rfl ?_ (by simp [Event.modules])) (.pure _)
      exact (allFit_singleton.mpr hres).there
  · next first rest heq _ =>
    have hfirst : env.AllFit .free path (bindings [first]) := hf.mono fun c hc => by
      rw [List.mem_singleton.mp hc]
      exact (hmem (heq ▸ List.mem_cons_self)).1
    exact .note (ho.told rfl hfirst.there (by simp [Event.modules])) (.pure _)

theorem combine_answers (ho : env.Orderly .free) (hm : ∃ record, env.module m = .ok record)
    {candidate previous : Option Ref} (hf : env.AllFit .free path (bindings [candidate, previous])) :
    (combine candidate previous m).Answers env := by
  have hcand : env.AllFit .free path (bindings [candidate]) := hf.mono (by simp)
  have hprev : env.AllFit .free path (bindings [previous]) := hf.mono (by simp)
  refine .ask (rank_of_mem hf.there (by simp)) (.ask (rank_of_mem hf.there (by simp)) ?_)
  split
  · exact .pure _
  split
  · exact .pure _
  split
  · next prev cur =>
    have hfp := allFit_singleton.mp hprev
    have hfc := allFit_singleton.mp hcand
    obtain ⟨rp, hrp, -⟩ := id hfp
    obtain ⟨rc, hrc, -⟩ := id hfc
    obtain ⟨b, hb⟩ := subsumes_total hrp hrc
    obtain ⟨b', hb'⟩ := subsumes_total hrc hrp
    refine .ask hb ?_
    split
    · exact .pure _
    refine .ask hb' ?_
    split
    · exact .pure _
    refine .within (.note (ho.told rfl ?_ (by simpa [Event.modules] using hm)) ?_)
    · exact (hf.mono (by simp)).there
    refine .bind (newSplit_answers ho hm hfp) (newSplit_pools ho hm hfp) fun split mid h => ?_
    obtain ⟨after, hafter, h⟩ := h.add hfc
    obtain ⟨rs, hrs, -⟩ := h.record
    exact .update hafter (.note (h.stores.orderly.told rfl (by simp [Event.packages, hrs])
      (by simp [Event.modules])) (.pure _))
  · exact .pure _

/-! ## Registering -/

theorem enrich_answers (ho : env.Orderly .free) (hr : env.package c = .ok r)
    (hf : env.Fits .free path below) (m : ModuleId) : (enrich c below m).Answers env := by
  obtain ⟨rc, hrc, -⟩ := id hf
  obtain ⟨sibs, hsibs, hmem⟩ := siblings_ok hrc m rc.path r.incarnations fun i hi => by
    obtain ⟨ri, hri, -⟩ := ho.wired.plain_of_mem hr hi
    obtain ⟨record, hrec⟩ := ho.graph.home hri
    exact ⟨ri, record, hri, hrec⟩
  refine .ask hrc (.ask hr (.ask hsibs ?_))
  cases sibs with
  | nil => exact .pure _
  | cons b bs =>
    have hall : env.AllFit .free path (bindings ((b :: bs ++ [below]).map (some ∘ .package))) := by
      intro q hq
      obtain ⟨q', hq', e⟩ := List.mem_map.mp (mem_bindings.mp hq)
      cases e
      rcases List.mem_append.mp hq' with hq' | hq'
      · obtain ⟨_, _, _, _, _, _, hd⟩ := (hmem q).mp hq'
        exact (ho.fits_declared hd).cast fun h => h.elim
      · exact List.mem_singleton.mp hq' ▸ hf
    have hhome := ho.graph.home hrc
    refine .bind (combineAll_answers ho hhome hall) (combineAll_stores ho hhome hall)
      fun result after ⟨h, hres⟩ => .note (h.orderly.told rfl ?_ (by simp [Event.modules])) (.pure _)
    obtain ⟨rc', hrc', -⟩ := h.advances.package hrc
    exact List.forall_mem_cons.mpr ⟨⟨rc', hrc'⟩, hres.there⟩

theorem linkIncarnation_answers (ho : env.Orderly .free) (hr : env.package c = .ok r)
    (hrc : env.package below = .ok rc) : (linkIncarnation c below).Answers env := by
  obtain ⟨above, habove, -, hin⟩ := ho.wired.incarnation_iff hr rc.home
  obtain ⟨under, hbelow, -, hin'⟩ := ho.wired.incarnation_iff hrc rc.home
  refine .ask hrc (.ask habove ?_)
  cases above with
  | none => exact .pure _
  | some above =>
    refine .ask hbelow ?_
    cases under with
    | none => exact .pure _
    | some under =>
      obtain ⟨-, ra, hra, -⟩ := hin above rfl
      obtain ⟨-, rb, hrb, -⟩ := hin' under rfl
      have hf : env.Fits .free (.sub ra.path "") under := fits_free hrb
      obtain ⟨after, hafter, -⟩ := storeChild_stores ho hra hf
      exact .of_update hafter

theorem addUnderSplit_answers (ho : env.Orderly .free) (hr : env.package c = .ok r)
    (hrc : env.package below = .ok rc) (hm : ∃ record, env.module m = .ok record) :
    (addUnderSplit c below m).Answers env := by
  have hf : env.Fits .free (.sub r.path "") below := fits_free hrc
  refine .within (.ask hrc (.noteIf (ho.told rfl ?_ (by simp [Event.modules]))
    (.note (ho.told rfl ?_ (by simpa [Event.modules] using hm)) ?_)))
  · simp [Event.packages, hr, hrc]
  · simp [Event.packages, hr, hrc]
  refine .bind (enrich_answers ho hr hf m) (enrich_stores ho hf m) fun e env1 ⟨h1, hf1⟩ => ?_
  obtain ⟨r1, hr1, -⟩ := h1.advances.package hr
  have hboth : env1.AllFit .free (.sub r.path "")
      (bindings [some (.package e), r1.known.get? rc.path.simpleName]) := by
    intro q hq
    rcases List.mem_cons.mp (mem_bindings.mp hq) with e | hq
    · cases e
      exact hf1
    · exact (h1.orderly.entry hr1 (List.mem_singleton.mp hq).symm).cast fun h => h.elim
  have hhome := h1.orderly.graph.home hr1
  refine .ask hr1 (.bind (combine_answers h1.orderly hhome hboth)
    (combine_stores h1.orderly hhome hboth) fun entry env2 ⟨h2, hf2⟩ =>
      .note (h2.orderly.told rfl ?_ (by simp [Event.modules])) ?_)
  · intro q hq
    rcases List.mem_cons.mp (mem_bindings.mp hq) with e | hq
    · exact hf2.there q (mem_bindings.mpr (e ▸ List.mem_cons_self))
    · exact (hboth.later h2.advances).there q (mem_bindings.mpr (List.mem_cons_of_mem _ hq))
  obtain ⟨r2, hr2, -⟩ := h2.advances.package hr1
  -- the part of the child's own module comes last
  have hlink {env3 : Environment} (h3 : env2.Stores .free (some (c, rc.path.simpleName)) env3) :
      (do linkIncarnation c e; pure e).Answers env3 := by
    obtain ⟨r3, hr3, -⟩ := h3.advances.package hr2
    obtain ⟨re, hre, -⟩ := (hf1.later h2.advances).later h3.advances
    exact .bind (P := fun _ _ => True) (linkIncarnation_answers h3.orderly hr3 hre)
      (fun _ _ _ _ => trivial) fun _ _ _ => .pure e
  cases entry with
  | none => exact hlink h2.orderly.stores
  | some ref =>
    obtain ⟨env3, hset, h3⟩ := learn_stores h2.orderly hr2 hf2.free
    exact .update (Update.setPackage_ok hset) (hlink h3)

theorem addChild_answers (ho : env.Orderly .free) (hr : env.package c = .ok r)
    (hrc : env.package below = .ok rc) (hm : ∃ record, env.module m = .ok record) :
    (addChild c below m).Answers env := by
  refine .ask hr ?_
  split
  · exact addUnderSplit_answers ho hr hrc hm
  · have hf : env.Fits .free (.sub r.path "") below := fits_free hrc
    obtain ⟨after, hafter, -⟩ := storeChild_stores ho hr hf
    exact .update hafter (.pure below)

/-! ## Consulting -/

theorem noteAll_answers : ∀ {es : List Event}, (∀ e ∈ es, e.Told env) → (noteAll es).Answers env
  | [], _ => .pure ()
  | e :: _, h =>
    .note (h e List.mem_cons_self) (noteAll_answers fun e he => h e (List.mem_cons_of_mem _ he))

theorem strictInSplit_answers (ho : env.Orderly .free) (hr : env.package c = .ok r)
    (hs : r.isSplit = true) (name : String) : (strictInSplit c r name).Answers env := by
  unfold strictInSplit
  split
  · exact .noteIf ⟨rfl, _, rfl⟩ (.pure _)
  have hincs (i : PackageId) (hi : i ∈ r.incarnations) : ∃ ri, env.package i = .ok ri :=
    ho.closed.incarnations hr hi
  obtain ⟨o, hall, hrefs⟩ := allEntries_ok name r.incarnations hincs
  refine .ask hall ?_
  cases o with
  | none => exact .pure _
  | some refs =>
    have hentries : ∀ ref ∈ refs, ∃ i ∈ r.incarnations, env.entry i name = some ref := by
      intro ref href
      have hin : some ref ∈ r.incarnations.map (env.entry · name) := by
        rw [hrefs refs rfl]
        exact List.mem_map_of_mem href
      exact List.mem_map.mp hin
    have hf := ho.fits_entries hr hentries
    have hhome := ho.graph.home hr
    refine .bind (combineAll_answers ho hhome hf) (combineAll_stores ho hhome hf)
      fun result mid ⟨h, hres⟩ => ?_
    cases result with
    | none => exact .pure _
    | some ref =>
      obtain ⟨rm, hrm, e⟩ := h.advances.package hr
      have hlater (i : PackageId) (hi : i ∈ r.incarnations) : ∃ ri, mid.package i = .ok ri :=
        h.orderly.closed.incarnations hrm (e.incarnations i hi)
      obtain ⟨b, hb⟩ : ∃ b, mid.isSplitRef ref = .ok b := isSplitRef_ok fun q e =>
        hres.there q (mem_bindings.mpr (e ▸ List.mem_cons_self))
      obtain ⟨last, hlast, -⟩ := learnMerged_stores h.orderly hrm (e.isSplit.trans hs) hres.free
      have htold {e : Event} (he : e.ofTask = true) {i : PackageId} {ri : Package}
          (hri : mid.package i = .ok ri) (hp : e.packages = i :: bindings [some ref])
          (hm : e.modules = []) : e.Told mid :=
        h.orderly.told he (hp ▸ List.forall_mem_cons.mpr ⟨⟨ri, hri⟩, hres.there⟩) (by simp [hm])
      refine .note (htold rfl hrm rfl rfl) (.ask hb ?_)
      cases b with
      | false => exact .update hlast (.pure _)
      | true =>
        obtain ⟨holders, hholders, hin⟩ := holdersOf_ok name ref r.incarnations hlater
        refine .ask hholders (.bind (noteAll_answers ?_)
          ((noteAll_gives mid _).allows (P := fun _ after => after = mid) rfl) ?_)
        · intro e he
          obtain ⟨i, hi, rfl⟩ := List.mem_map.mp he
          obtain ⟨ri, hri⟩ := hlater i (hin i hi)
          exact htold rfl hri rfl rfl
        · rintro _ _ rfl
          exact .update hlast (.pure _)

theorem strict_answers (ho : env.Orderly .free) (hr : env.package c = .ok r) (name : String) :
    (strict c name).Answers env := by
  refine .ask hr ?_
  split
  · next hs => exact strictInSplit_answers ho hr hs name
  · exact .pure _

theorem relaxedMerge_answers (ho : env.Orderly .free) (hr : env.package c = .ok r)
    {refs : List Ref} (hf : env.AllFit .free path (bindings (refs.map some))) (name : String) :
    (relaxedInSplit.merge c r name refs).Answers env := by
  have hhome := ho.graph.home hr
  refine .bind (combineAll_answers ho hhome hf) (combineAll_stores ho hhome hf)
    fun result mid ⟨h, _⟩ => ?_
  obtain ⟨rm, hrm, -⟩ := h.advances.package hr
  obtain ⟨last, hset⟩ := Environment.setPackage_ok hrm (·.mapSplit fun s =>
    { s with relaxed := s.relaxed.insert name (refs, result) })
  exact .update (Update.setPackage_ok hset) (.pure _)

theorem relaxed_answers (ho : env.Orderly .free) (hr : env.package c = .ok r) (name : String) :
    (relaxed c name).Answers env := by
  refine .ask hr ?_
  split
  · unfold relaxedInSplit
    split
    · exact .pure _
    · obtain ⟨refs, hrefs, hmem⟩ := someEntries_ok name r.incarnations
        fun i hi => ho.closed.incarnations hr hi
      have hmerge := relaxedMerge_answers ho hr (ho.fits_entries hr hmem) name
      refine .ask hrefs ?_
      split
      · split
        · exact .pure _
        · exact hmerge
      · exact hmerge
  · exact .pure _

/-! ## Seeing -/

theorem remember_answers (hm : ∃ record, env.module m = .ok record) (path : Path) (ref : Ref) :
    (remember m path ref).Answers env := by
  obtain ⟨record, hm⟩ := hm
  obtain ⟨after, hset⟩ := Environment.setModule_ok hm (·.remember path ref)
  exact .update (Update.setModule_ok hset) (.pure ref)

theorem readableCandidates_answers (ho : env.Orderly .free) (path : Path) : ∀ {ks : List ModuleId},
    (∀ k ∈ ks, ∃ record, env.module k = .ok record) → (readableCandidates path ks).Answers env
  | [], _ => .pure _
  | k :: ks, h => by
    obtain ⟨record, hk⟩ := h k List.mem_cons_self
    have hrest : (readableCandidates path ks).Answers env :=
      readableCandidates_answers ho path fun q hq => h q (List.mem_cons_of_mem _ hq)
    refine .ask (declared_of_module hk) ?_
    split
    · exact hrest
    · refine .note (ho.told rfl (by simp [Event.packages]) (by simp [Event.modules, hk])) ?_
      exact .bind (P := fun _ _ => True) hrest (fun _ _ _ _ => trivial) fun _ _ _ => .pure _

theorem combineVisible_answers (ho : env.Orderly .free) (hm : ∃ record, env.module m = .ok record)
    (path : Path) : (combineVisible m path).Answers env := by
  obtain ⟨record, hrec⟩ := id hm
  have hown : env.declared m path = .ok (record.declared.get? path) := declared_of_module hrec
  obtain ⟨others, hothers, hmem⟩ := ho.closed.exposersAmong_ok hm path env.moduleIds
    fun k hk => mem_moduleIds.mp hk
  refine .ask hown (.ask hothers ?_)
  refine .bind (readableCandidates_answers ho path fun k hk => mem_moduleIds.mp ((hmem k).mp hk).1)
    (readableCandidates_fit ho path others) ?_
  rintro ps env ⟨rfl, hps⟩
  have hf : env.AllFit .free path (bindings
      (((record.declared.get? path).toList ++ ps).map (some ∘ .package))) := by
    intro q hq
    obtain ⟨q', hq', e⟩ := List.mem_map.mp (mem_bindings.mp hq)
    cases e
    rcases List.mem_append.mp hq' with hq' | hq'
    · exact ho.fits_declared (Option.mem_toList.mp hq' ▸ hown)
    · exact hps q hq'
  refine .bind (combineAll_answers ho hm hf) (combineAll_stores ho hm hf) fun found after ⟨h, hres⟩ =>
    .note (h.orderly.told rfl hres.there ?_) (.pure _)
  simpa [Event.modules] using h.module hm

/-- What the module owns of the enclosing package is that package or nothing. -/
theorem owned_answers {parent : Option PackageId}
    (hparent : ∀ c ∈ parent, ∃ r, env.package c = .ok r) :
    (viewBelow.owned m parent).Answers env ∧ (viewBelow.owned m parent).Allows env
      fun owner after => after = env ∧ ∀ c ∈ owner, ∃ r, env.package c = .ok r := by
  cases parent with
  | none => exact ⟨.pure none, Allows.pure ⟨rfl, hparent⟩⟩
  | some c =>
    obtain ⟨r, hr⟩ := hparent c rfl
    refine ⟨.ask hr (.pure _), Allows.step (.ask hr) ?_⟩
    split
    · exact Allows.pure ⟨rfl, hparent⟩
    · exact Allows.pure ⟨rfl, by simp⟩

theorem viewBelow_answers (ho : env.Orderly .free) (hm : ∃ record, env.module m = .ok record)
    {parent : Option PackageId} (hparent : ∀ c ∈ parent, ∃ r, env.package c = .ok r)
    (path : Path) : (viewBelow m path parent).Answers env := by
  obtain ⟨howned, hallows⟩ := owned_answers (m := m) hparent
  refine .bind howned hallows ?_
  rintro owner env ⟨rfl, howner⟩
  cases owner with
  | none =>
    refine .bind (combineVisible_answers ho hm path) (combineVisible_stores ho hm path)
      fun found mid ⟨h, _⟩ => ?_
    split <;> exact remember_answers (h.module hm) path _
  | some c =>
    obtain ⟨r, hr⟩ := howner c rfl
    refine .bind (strict_answers ho hr path.simpleName) (strict_stores ho hr path.simpleName)
      fun answer env1 ⟨h1, _⟩ => ?_
    have hm1 := h1.module hm
    cases answer with
    | some ref => exact remember_answers hm1 path ref
    | none =>
      refine .bind (combineVisible_answers h1.orderly hm1 path)
        (combineVisible_stores h1.orderly hm1 path) fun found env2 ⟨h2, hf2⟩ => ?_
      obtain ⟨r2, hr2, -⟩ := (h1.trans h2).advances.package hr
      have hm2 := h2.module hm1
      split
      · next p hp =>
        obtain ⟨ref, rfl, hp⟩ := Option.bind_eq_some_iff.mp hp
        cases ref with
        | notFound => cases hp
        | package q =>
          cases hp
          have hfp := allFit_singleton.mp hf2
          obtain ⟨rp, hrp, -⟩ := id hfp
          have hf : env2.Fits .free (.sub r2.path "") p := fits_free hrp
          exact .bind (addChild_answers h2.orderly hr2 hrp hm2) (addChild_stores h2.orderly hr2 hf m)
            fun e env3 ⟨h3, _⟩ => remember_answers (h3.module hm2) path _
      · obtain ⟨env3, hafter, h3⟩ := learnMissing_stores h2.orderly hr2 path.simpleName
        exact .update hafter (remember_answers (h3.module hm2) path _)

theorem view_answers (ho : env.Orderly .free) (hm : ∃ record, env.module m = .ok record) :
    ∀ path, (view m path).Answers env
  | .top name => by
    obtain ⟨record, hrec⟩ := id hm
    refine .ask hrec ?_
    split
    · exact .pure _
    · exact viewBelow_answers ho hm (by simp) _
  | .sub above name => by
    obtain ⟨record, hrec⟩ := id hm
    refine .ask hrec ?_
    split
    · exact .pure _
    · refine .bind (view_answers ho hm above) (view_views ho above) fun ref mid hv => ?_
      have hm1 := hv.proceeds.advances.module_ok hm
      cases ref with
      | notFound => exact remember_answers hm1 _ _
      | package c =>
        obtain ⟨r, hr, -⟩ := hv.fits c List.mem_cons_self
        exact viewBelow_answers hv.proceeds.orderly hm1 (by simp [hr]) _

/-! ## Searching -/

theorem contributions_answers (path : Path) : ∀ {ks : List ModuleId} {env : Environment},
    env.Orderly .free → (∀ k ∈ ks, ∃ record, env.module k = .ok record) →
    (contributions path ks).Answers env
  | [], _, _, _ => .pure _
  | k :: ks, env, ho, h => by
    have hk := h k List.mem_cons_self
    refine .bind (view_answers ho hk path) (view_views ho path) fun ref mid hv => ?_
    have hadv := hv.proceeds.advances
    have hrest : (contributions path ks).Answers mid := contributions_answers path
      hv.proceeds.orderly fun q hq => hadv.module_ok (h q (List.mem_cons_of_mem _ hq))
    refine .note (hv.proceeds.orderly.told rfl hv.fits.there ?_) ?_
    · simpa [Event.modules] using hadv.module_ok hk
    cases ref with
    | notFound => exact hrest
    | package p =>
      obtain ⟨rp, hrp, -⟩ := hv.fits p List.mem_cons_self
      refine .ask hrp ?_
      split
      · exact hrest
      · exact .bind (P := fun _ _ => True) hrest (fun _ _ _ _ => trivial) fun _ _ _ => .pure _

theorem mergeFound_answers (ho : env.Orderly .free) (hm : ∃ record, env.module m = .ok record)
    {ps : List PackageId} (hf : env.AllFit .free path ps) : (mergeFound m ps).Answers env := by
  match ps, hf with
  | [], _ => exact .pure _
  | [only], hf =>
    obtain ⟨r, hr, -⟩ := hf only List.mem_cons_self
    exact .ask hr (.noteIf (ho.told rfl (by simp [Event.packages, hr]) (by simp [Event.modules]))
      (.pure _))
  | first :: second :: rest, hf =>
    have hfirst := hf first List.mem_cons_self
    refine .bind (newSplit_answers ho hm hfirst) (newSplit_pools ho hm hfirst) fun split mid h => ?_
    obtain ⟨after, hafter, -⟩ := h.addAll (second :: rest) fun p hp =>
      hf p (List.mem_cons_of_mem _ hp)
    exact .update hafter (.pure _)

theorem search_answers (ho : env.Orderly .free) (hr : env.package c = .ok r) (name : String)
    (hm : ∃ record, env.module m = .ok record) : (search c name m).Answers env := by
  refine .within (.ask hr ?_)
  by_cases hs : r.isSplit = true
  · simp only [hs, Bool.not_true, Bool.false_eq_true, if_false]
    have hhome := ho.graph.home hr
    refine .noteIf (ho.told rfl (by simp [Event.packages]) (by simp [Event.modules, hm, hhome])) ?_
    refine .note (ho.told rfl (by simp [Event.packages, hr]) (by simpa [Event.modules] using hm)) ?_
    refine .bind (contributions_answers _ ho fun k hk => ho.module_of_declaring hr hk)
      (contributions_proceeds (.sub r.path name) r.declaring ho) fun ps env1 ⟨h1, hseen⟩ => ?_
    obtain ⟨r1, hr1, e1⟩ := h1.advances.package hr
    have hs1 := e1.isSplit.trans hs
    have hm1 := h1.advances.module_ok hm
    have hhome1 := h1.advances.module_ok hhome
    rw [← e1.path] at hseen
    have hmembers : ∀ p ∈ (OrderedSet.ofList ps).toList,
        ∃ k ∈ r1.declaring, env1.seen k (.sub r1.path name) = some (.package p) := by
      intro p hp
      obtain ⟨k, hk, e⟩ := hseen p (OrderedSet.mem_ofList.mp hp)
      exact ⟨k, e1.declaring k hk, e⟩
    have hf : env1.AllFit .free (.sub r1.path name) (OrderedSet.ofList ps).toList := by
      intro p hp
      obtain ⟨k, -, e⟩ := hmembers p hp
      exact h1.orderly.seen e
    refine .bind (mergeFound_answers h1.orderly hhome1 hf)
      (e1.home ▸ mergeFound_stores h1.orderly hr1 hs1 (OrderedSet.nodup _) hmembers)
      fun result env2 ⟨h2, hf2⟩ => ?_
    obtain ⟨r2, hr2, -⟩ := h2.advances.package hr1
    have hm2 := h2.module hm1
    have hhome2 := h2.module hhome1
    cases result with
    | none =>
      obtain ⟨env3, hafter, -⟩ := learnMissing_stores h2.orderly hr2 name
      exact .note (h2.orderly.told rfl (by simp [Event.packages]) (by simp [Event.modules]))
        (.update hafter (.pure _))
    | some found =>
      obtain ⟨rf, hrf, -⟩ := hf2 found rfl
      have hboth : ∀ p ∈ [found, c], ∃ r, env2.package p = .ok r := by simp [hrf, hr2]
      refine .note (h2.orderly.told rfl (by simp [Event.packages, hrf]) (by simp [Event.modules])) ?_
      refine .ask hrf (.noteIf (h2.orderly.told rfl (by simp [Event.packages, hrf])
        (by simpa [Event.modules] using hhome2)) ?_)
      refine .noteIf (h2.orderly.told rfl hboth (by simp [Event.modules])) ?_
      exact .bind (P := fun _ _ => True) (.map (addChild_answers h2.orderly hr2 hrf hm2))
        (fun _ _ _ _ => trivial) fun _ _ _ => .pure _
  · simp only [hs, Bool.not_false, if_true]
    exact .note (ho.told rfl (by simp [Event.packages, hr]) (by simp [Event.modules])) (.pure _)

theorem childOfPlain_answers (ho : env.Orderly .free) (hr : env.package c = .ok r)
    (hm : ∃ record, env.module m = .ok record) (name : String) :
    (childOfPlain c r name m).Answers env := by
  unfold childOfPlain
  split
  · split
    · exact .pure _
    · refine .bind (view_answers ho hm _) (view_views ho (.sub r.path name)) fun ref mid hv => ?_
      obtain ⟨r1, hr1, -⟩ := hv.proceeds.advances.package hr
      have hm1 := hv.proceeds.advances.module_ok hm
      refine .ask hr1 ?_
      split
      · cases ref with
        | notFound =>
          obtain ⟨after, hafter, -⟩ := learnMissing_stores hv.proceeds.orderly hr1 name
          exact .update hafter (.pure _)
        | package p =>
          obtain ⟨rp, hrp, -⟩ := hv.fits p List.mem_cons_self
          exact .bind (P := fun _ _ => True)
            (.map (addChild_answers hv.proceeds.orderly hr1 hrp hm1)) (fun _ _ _ _ => trivial)
            fun _ _ _ => .pure _
      · exact .pure _
  · exact .bind (view_answers ho hm _) (view_views ho (.sub r.path name)) fun _ _ _ => .pure _

theorem child_answers (ho : env.Orderly .free) (hr : env.package c = .ok r) (name : String)
    (hm : ∃ record, env.module m = .ok record) : (child c name m).Answers env := by
  refine .ask hr ?_
  split
  · exact .pure _
  · exact childOfPlain_answers ho hr hm name
  · refine .bind (strict_answers ho hr name) (strict_stores ho hr name) fun answer mid ⟨h, _⟩ => ?_
    obtain ⟨r', hr', -⟩ := h.advances.package hr
    cases answer with
    | some ref => exact .pure _
    | none => exact search_answers h.orderly hr' name (h.module hm)

/-! ## Resolving -/

theorem resolve_answers (ho : env.Orderly .free) (hm : ∃ record, env.module m = .ok record) :
    ∀ path, (resolve m path).Answers env
  | .top name => .bind (view_answers ho hm _) (view_views ho (.top name)) fun _ _ _ => .pure _
  | .sub path name => by
    refine .bind (resolve_answers ho hm path) (resolve_proceeds ho path) fun answer mid ⟨h, hf⟩ => ?_
    cases answer with
    | none => exact .pure _
    | some p =>
      obtain ⟨r, hr, -⟩ := hf p rfl
      exact child_answers h.orderly hr name (h.advances.module_ok hm)

theorem typeOf_answers (ho : env.Orderly .free) (hm : ∃ record, env.module m = .ok record)
    (hr : env.package p = .ok r) (name : String) : (typeOf m p name).Answers env := by
  obtain ⟨o, ho'⟩ := ho.typeFor_ok hm hr name
  refine .ask ho' ?_
  split
  · exact .pure _
  · exact .pure _
  · refine .ask hr ?_
    split
    · exact .pure _
    · obtain ⟨b, hb⟩ := ho.closed.canAccess_ok hm hr
      refine .ask hb ?_
      split <;> exact .pure _

theorem resolveType_answers (ho : env.Orderly .free) (hm : ∃ record, env.module m = .ok record)
    (qualified : String) : (resolveType m qualified).Answers env := by
  unfold resolveType
  split
  · exact .pure _
  · next path name _ =>
    refine .bind (resolve_answers ho hm path) (resolve_proceeds ho path) fun answer mid ⟨h, hf⟩ => ?_
    cases answer with
    | none => exact .pure _
    | some p =>
      obtain ⟨r, hr, -⟩ := hf p rfl
      exact .bind (P := fun _ _ => True)
        (typeOf_answers h.orderly (h.advances.module_ok hm) hr name) (fun _ _ _ _ => trivial)
        fun _ _ _ => .pure _

theorem viewFor_answers (ho : env.Orderly .free) (hm : ∃ record, env.module m = .ok record)
    (hr : env.package p = .ok r) (ignoreUnnamed preferOwn : Bool) :
    (viewFor ignoreUnnamed p m preferOwn).Answers env := by
  refine .ask hr ?_
  split
  · refine .ask (ho.closed.tally_eq hm preferOwn .empty fun i hi => ho.closed.incarnations hr hi) ?_
    split
    · exact .pure _
    · exact .note (ho.told rfl (by simp [Event.packages]) (by simpa [Event.modules] using hm)) (.pure _)
  · exact .pure _

end Lookup

namespace Request

open Environment Lookup

variable {env : Environment} {r : Request}

/-- The types that a request names. -/
def types : Request → List TypeId
  | type t => [t]
  | _ => []

theorem ask_answers {α β : Type} {f : Environment → Except Fault α} {g : α → β}
    (h : ∃ a, f env = .ok a) : (ask f >>= fun x => pure (g x)).Answers env := by
  obtain ⟨a, ha⟩ := h
  exact .ask ha (.pure _)

theorem lookup_answers (config : Config) (hl : r.looks = true) (hn : r.Names env)
    (ho : env.Orderly .free) : (r.run config).Answers env := by
  cases r with
  | view m path => exact .map (view_answers ho (hn.module (by simp [modules])) path)
  | child p m name =>
    obtain ⟨rp, hrp⟩ := hn.package (p := p) (by simp [packages])
    exact .map (child_answers ho hrp name (hn.module (by simp [modules])))
  | strict p name =>
    obtain ⟨rp, hrp⟩ := hn.package (p := p) (by simp [packages])
    exact .map (strict_answers ho hrp name)
  | relaxed p name =>
    obtain ⟨rp, hrp⟩ := hn.package (p := p) (by simp [packages])
    exact .map (relaxed_answers ho hrp name)
  | search p m name =>
    obtain ⟨rp, hrp⟩ := hn.package (p := p) (by simp [packages])
    exact .map (search_answers ho hrp name (hn.module (by simp [modules])))
  | resolve m path => exact .map (resolve_answers ho (hn.module (by simp [modules])) path)
  | resolveType m qualified =>
    exact .map (resolveType_answers ho (hn.module (by simp [modules])) qualified)
  | _ => cases hl

theorem addToSplit_answers (config : Config) {p other : PackageId}
    (hn : (addToSplit p other).Names env) (ho : env.Orderly .free) :
    ((addToSplit p other).run config).Answers env := by
  obtain ⟨rp, hrp⟩ := hn.package (p := p) (by simp [packages])
  obtain ⟨ro, hro⟩ := hn.package (p := other) (by simp [packages])
  by_cases hs : rp.isSplit = true
  · obtain ⟨s, hk⟩ := Package.kind_of_isSplit hs
    obtain ⟨after, hafter, hj⟩ := ho.wired.joins hrp hk hro
    obtain ⟨rp', hrp', -⟩ := (hj.stores ho fun hd => hd.elim).advances.package hrp
    exact .update hafter (.ask hrp' (.pure _))
  · exact .update (addToSplit_same hrp (by simpa using hs) hro) (.ask hrp (.pure _))

/-- Where the modules, packages and types that it names are there, every request is answered. -/
theorem run_answers (config : Config) (hn : r.Names env)
    (ht : ∀ t ∈ r.types, t.index < env.types.size) (ho : env.Orderly .free) :
    (r.run config).Answers env := by
  have hmodule {m : ModuleId} (h : m ∈ r.modules) := hn.module h
  have hpackage {p : PackageId} (h : p ∈ r.packages) := hn.package h
  by_cases hl : r.looks = true
  · exact lookup_answers config hl hn ho
  cases r with
  | view | child | strict | relaxed | search | resolve | resolveType => exact absurd rfl hl
  | addModule | addRead | addTransitiveRead | addExport | declarePackage | declareProblem
    | declareType | markMissing => exact .build (builds_spec config rfl hn ho.graph)
  | addChild p below m =>
    obtain ⟨rp, hrp⟩ := hpackage (p := p) (by simp [packages])
    obtain ⟨rb, hrb⟩ := hpackage (p := below) (by simp [packages])
    exact .map (addChild_answers ho hrp hrb (hmodule (by simp [modules])))
  | learnMissing p name =>
    obtain ⟨rp, hrp⟩ := hpackage (p := p) (by simp [packages])
    obtain ⟨after, hafter, -⟩ := learnMissing_stores ho hrp name
    exact .map (.of_update hafter)
  | combine candidate previous m =>
    have hf : env.AllFit .free (.top "") (bindings [candidate, previous]) := fun p hp =>
      fits_free (hpackage hp).choose_spec
    exact .map (combine_answers ho (hmodule (by simp [modules])) hf)
  | combineAll candidates m =>
    have hf : env.AllFit .free (.top "") (bindings candidates) := fun p hp =>
      fits_free (hpackage hp).choose_spec
    exact .map (combineAll_answers ho (hmodule (by simp [modules])) hf)
  | addToSplit p other => exact addToSplit_answers config hn ho
  | viewFor p client preferOwn =>
    obtain ⟨rp, hrp⟩ := hpackage (p := p) (by simp [packages])
    exact .map (viewFor_answers ho (hmodule (by simp [modules])) hrp _ preferOwn)
  | canRead m target =>
    obtain ⟨record, hm⟩ := hmodule (m := m) (by simp [modules])
    exact ask_answers (ho.closed.canRead_ok hm target)
  | canAccess m p =>
    obtain ⟨rp, hrp⟩ := hpackage (p := p) (by simp [packages])
    exact ask_answers (ho.closed.canAccess_ok (hmodule (by simp [modules])) hrp)
  | exportsPackage m path | module m => exact ask_answers (hmodule (by simp [modules]))
  | moduleName m => exact ask_answers (moduleName_ok (hmodule (by simp [modules])))
  | moduleNamed name => exact fun j => ⟨_, _, rfl, fun n hn => .inl hn⟩
  | declared m path =>
    obtain ⟨record, hm⟩ := hmodule (m := m) (by simp [modules])
    exact ask_answers ⟨_, declared_of_module hm⟩
  | known p name | declaring p | package p => exact ask_answers (hpackage (by simp [packages]))
  | rank candidate => exact ask_answers ⟨_, rank_of_mem (fun p hp => hpackage hp) List.mem_cons_self⟩
  | subsumes p other =>
    obtain ⟨rp, hrp⟩ := hpackage (p := p) (by simp [packages])
    obtain ⟨ro, hro⟩ := hpackage (p := other) (by simp [packages])
    exact ask_answers (subsumes_total hrp hro)
  | incarnation p m =>
    obtain ⟨rp, hrp⟩ := hpackage (p := p) (by simp [packages])
    obtain ⟨o, ho', -⟩ := ho.wired.incarnation_iff hrp m
    exact ask_answers ⟨o, ho'⟩
  | isDeclaredIn p m =>
    obtain ⟨rp, hrp⟩ := hpackage (p := p) (by simp [packages])
    exact ask_answers ⟨_, isDeclaredIn_ok hrp m⟩
  | typeIn p name =>
    obtain ⟨rp, hrp⟩ := hpackage (p := p) (by simp [packages])
    exact ask_answers ⟨_, typeIn_ok hrp name⟩
  | knowsType p name =>
    obtain ⟨rp, hrp⟩ := hpackage (p := p) (by simp [packages])
    exact ask_answers (ho.knowsType_ok hrp name)
  | typeOfModule p m name =>
    obtain ⟨rp, hrp⟩ := hpackage (p := p) (by simp [packages])
    exact ask_answers (ho.typeOfModule_ok hrp m name)
  | typeFor p m name =>
    obtain ⟨rp, hrp⟩ := hpackage (p := p) (by simp [packages])
    exact ask_answers (ho.typeFor_ok (hmodule (by simp [modules])) hrp name)
  | type t => exact ask_answers (typeRecord_of_lt_size (ht t (by simp [types])))
  | display p =>
    obtain ⟨rp, hrp⟩ := hpackage (p := p) (by simp [packages])
    exact ask_answers (ho.display_ok hrp)
  | describe binding => exact ask_answers (ho.describe_ok fun p hp => hpackage hp)

end Request

end SplitPackages
