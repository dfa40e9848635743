import SplitPackages.Lookup

/-!
# Outcomes of lookups

`Gives act env a after`: from `env` the lookup `act` answers `a` and leaves
`after`, whatever was journaled before. `Ensures act env Q`: it gives an answer
and an environment that satisfy `Q`. Both are total: a lookup that meets a
fault ensures nothing. `Allows act env Q` is the partial form: if there is an
answer at all, it satisfies `Q`. It takes from a run what that run has found to
be there, where `Ensures` has to show it first. The lemmas here take a lookup
apart at its binds, and a change of the environment likewise.
-/

namespace SplitPackages

namespace Update

variable {α β : Type}

theorem bind_ok {u : Update α} {f : α → Update β} {env mid after : Environment} {a : α} {b : β}
    (h : u env = .ok (a, mid)) (h2 : f a mid = .ok (b, after)) :
    (u >>= f) env = .ok (b, after) := by
  simp only [bind, StateT.bind, Except.bind, h, h2]

theorem ask_ok {f : Environment → Except Fault α} {env : Environment} {a : α}
    (h : f env = .ok a) : ask f env = .ok (a, env) := by
  simp only [ask, bind, StateT.bind, get, getThe, MonadStateOf.get, StateT.get, Except.bind, pure,
    Except.pure, liftM, monadLift, MonadLift.monadLift, StateT.lift, h]

/-- A change that succeeds, with a result and an environment that satisfy `Q`. -/
def Ensures (u : Update α) (env : Environment) (Q : α → Environment → Prop) : Prop :=
  ∃ a after, u env = .ok (a, after) ∧ Q a after

variable {u : Update α} {f : α → Update β} {env mid : Environment} {a : α}
  {P : α → Environment → Prop} {Q : β → Environment → Prop}

theorem Ensures.pure (h : P a env) : (Pure.pure a : Update α).Ensures env P :=
  ⟨a, env, rfl, h⟩

theorem Ensures.mono {P' : α → Environment → Prop} (h : u.Ensures env P)
    (hp : ∀ a after, P a after → P' a after) : u.Ensures env P' := by
  obtain ⟨a, after, hu, h⟩ := h
  exact ⟨a, after, hu, hp a after h⟩

/-- What is ensured in two ways is ensured of the same outcome. -/
theorem Ensures.and {P' : α → Environment → Prop} (h : u.Ensures env P) (h' : u.Ensures env P') :
    u.Ensures env fun a after => P a after ∧ P' a after := by
  obtain ⟨a, after, hu, hp⟩ := h
  obtain ⟨b, after', hu', hp'⟩ := h'
  rw [hu] at hu'
  cases hu'
  exact ⟨a, after, hu, hp, hp'⟩

theorem Ensures.bind (h : u.Ensures env P) (h2 : ∀ a mid, P a mid → (f a).Ensures mid Q) :
    (u >>= f).Ensures env Q := by
  obtain ⟨a, mid, hu, hp⟩ := h
  obtain ⟨b, after, hf, hq⟩ := h2 a mid hp
  exact ⟨b, after, bind_ok hu hf, hq⟩

theorem Ensures.ask {g : Environment → Except Fault α} (h : g env = .ok a)
    (h2 : (f a).Ensures env Q) : (Update.ask g >>= f).Ensures env Q := by
  obtain ⟨b, after, hf, hq⟩ := h2
  exact ⟨b, after, bind_ok (ask_ok h) hf, hq⟩

theorem setModule_ok {env after : Environment} {m : ModuleId} {f : Module → Module}
    (h : env.setModule m f = .ok after) : setModule m f env = .ok ((), after) :=
  bind_ok (ask_ok h) rfl

theorem setPackage_ok {env after : Environment} {p : PackageId} {f : Package → Package}
    (h : env.setPackage p f = .ok after) : setPackage p f env = .ok ((), after) :=
  bind_ok (ask_ok h) rfl

end Update

namespace Lookup

variable {α β : Type} {act : Lookup α} {f : α → Lookup β} {env mid after : Environment} {a : α}
  {b : β}

def Gives (act : Lookup α) (env : Environment) (a : α) (after : Environment) : Prop :=
  ∀ j, ∃ j', act ⟨env, j⟩ = .ok (a, ⟨after, j'⟩)

def Ensures (act : Lookup α) (env : Environment) (Q : α → Environment → Prop) : Prop :=
  ∃ a after, act.Gives env a after ∧ Q a after

/-- What a run from a particular journal does is what the lookup gives. -/
theorem Gives.of_run {a' : α} {s : State} {j : Journal} (h : act.Gives env a after)
    (hr : act ⟨env, j⟩ = .ok (a', s)) : a' = a ∧ s.env = after := by
  obtain ⟨j', hj⟩ := h j
  rw [hj] at hr
  cases hr
  exact ⟨rfl, rfl⟩

theorem Gives.pure (a : α) : (pure a : Lookup α).Gives env a env := fun j => ⟨j, rfl⟩

theorem Gives.bind (h : act.Gives env a mid) (h2 : (f a).Gives mid b after) :
    (act >>= f).Gives env b after := by
  intro j
  obtain ⟨j1, h1⟩ := h j
  obtain ⟨j2, h2⟩ := h2 j1
  exact ⟨j2, by simp only [Bind.bind, StateT.bind, Except.bind, h1, h2]⟩

theorem Gives.map {g : α → β} (h : act.Gives env a after) : (g <$> act).Gives env (g a) after :=
  Gives.bind (f := fun a => Pure.pure (g a)) h (Gives.pure (g a))

theorem Gives.update {u : Update α} (h : u env = .ok (a, after)) :
    (update u).Gives env a after :=
  fun j => ⟨j, by simp only [Lookup.update, Bind.bind, Except.bind, Pure.pure, Except.pure, h]⟩

theorem Gives.ask {f : Environment → Except Fault α} (h : f env = .ok a) :
    (ask f).Gives env a env := by
  intro j
  refine ⟨j, ?_⟩
  simp only [Lookup.ask, Lookup.update, Bind.bind, StateT.bind, get, getThe, MonadStateOf.get,
    StateT.get, Except.bind, Pure.pure, Except.pure, liftM, monadLift, MonadLift.monadLift,
    StateT.lift, h]

theorem Gives.note (e : Event) : (note e).Gives env () env := fun _ => ⟨_, rfl⟩

theorem Gives.announce (p : PackageId) (path : Path) : (announce p path).Gives env () env :=
  fun _ => ⟨_, rfl⟩

theorem Gives.within {step : Step} (h : act.Gives env a after) :
    (within step act).Gives env a after := by
  intro j
  obtain ⟨j', h⟩ := h { j with steps := j.steps ++ [step] }
  have hrun : Lookup.within step act ⟨env, j⟩ =
      (act ⟨env, { j with steps := j.steps ++ [step] }⟩).bind fun p =>
        .ok (p.1, { p.2 with journal.steps := j.steps }) := rfl
  exact ⟨{ j' with steps := j.steps }, by rw [hrun, h]; rfl⟩

variable {P : α → Environment → Prop} {Q : β → Environment → Prop}

theorem Ensures.mono {P' : α → Environment → Prop} (h : act.Ensures env P)
    (hp : ∀ a after, P a after → P' a after) : act.Ensures env P' := by
  obtain ⟨a, after, hg, h⟩ := h
  exact ⟨a, after, hg, hp a after h⟩

theorem Ensures.pure (h : P a env) : (Pure.pure a : Lookup α).Ensures env P :=
  ⟨a, env, .pure a, h⟩

theorem Ensures.bind (h : act.Ensures env P) (h2 : ∀ a mid, P a mid → (f a).Ensures mid Q) :
    (act >>= f).Ensures env Q := by
  obtain ⟨a, mid, hg, hp⟩ := h
  obtain ⟨b, after, hg2, hq⟩ := h2 a mid hp
  exact ⟨b, after, hg.bind hg2, hq⟩

/-- The first part of a lookup has a known outcome. -/
theorem Ensures.step (h : act.Gives env a mid) (h2 : (f a).Ensures mid Q) :
    (act >>= f).Ensures env Q := by
  obtain ⟨b, after, hg, hq⟩ := h2
  exact ⟨b, after, h.bind hg, hq⟩

/-- A note that is made in some cases only does not matter. -/
theorem Ensures.noteIf {c : Prop} [Decidable c] {e : Event} {f : Unit → Lookup β}
    (h : (f ()).Ensures env Q) :
    (if c then (do let u ← Lookup.note e; f u) else f ()).Ensures env Q := by
  split
  · exact Ensures.step (.note e) h
  · exact h

theorem Ensures.map {g : α → β} (h : act.Ensures env fun a after => Q (g a) after) :
    (g <$> act).Ensures env Q :=
  Ensures.bind h fun _ _ hq => Ensures.pure hq

theorem Ensures.discard {Q : Unit → Environment → Prop} (h : act.Ensures env P)
    (hq : ∀ a after, P a after → Q () after) : (Functor.discard act).Ensures env Q :=
  Ensures.map (h.mono hq)

theorem Ensures.update {u : Update α} (h : u.Ensures env P) : (Lookup.update u).Ensures env P := by
  obtain ⟨a, after, hu, h⟩ := h
  exact ⟨a, after, .update hu, h⟩

theorem Ensures.within {step : Step} (h : act.Ensures env P) : (within step act).Ensures env P := by
  obtain ⟨a, after, hg, hp⟩ := h
  exact ⟨a, after, hg.within, hp⟩

/-- What holds of the outcome of a lookup holds of every run of it. -/
theorem Ensures.of_run {s : State} {j : Journal} (h : act.Ensures env P)
    (hr : act ⟨env, j⟩ = .ok (a, s)) : P a s.env := by
  obtain ⟨a', after, hg, hp⟩ := h
  obtain ⟨rfl, rfl⟩ := hg.of_run hr
  exact hp

/-! ## If there is an answer -/

/-- Every run that gives an answer gives one that, with the environment it leaves, satisfies `Q`. -/
def Allows (act : Lookup α) (env : Environment) (Q : α → Environment → Prop) : Prop :=
  ∀ j a s, act ⟨env, j⟩ = .ok (a, s) → Q a s.env

theorem Ensures.allows (h : act.Ensures env P) : act.Allows env P :=
  fun _ _ _ hr => h.of_run hr

theorem Gives.allows (h : act.Gives env a after) (hp : P a after) : act.Allows env P :=
  Ensures.allows ⟨a, after, h, hp⟩

/-- What every run satisfies, the outcome satisfies. -/
theorem Gives.allowed (h : act.Gives env a after) (hp : act.Allows env P) : P a after := by
  obtain ⟨j', hj⟩ := h .empty
  exact hp _ _ _ hj

theorem Allows.mono {P' : α → Environment → Prop} (h : act.Allows env P)
    (hp : ∀ a after, P a after → P' a after) : act.Allows env P' :=
  fun j a s hr => hp _ _ (h j a s hr)

theorem Allows.pure (h : P a env) : (Pure.pure a : Lookup α).Allows env P := by
  intro j a' s hr
  cases hr
  exact h

theorem Allows.bind (h : act.Allows env P) (h2 : ∀ a mid, P a mid → (f a).Allows mid Q) :
    (act >>= f).Allows env Q := by
  intro j b s hr
  cases ha : act ⟨env, j⟩ with
  | error e => simp only [Bind.bind, StateT.bind, Except.bind, ha] at hr; cases hr
  | ok p =>
    simp only [Bind.bind, StateT.bind, Except.bind, ha] at hr
    exact h2 p.1 p.2.env (h _ _ _ ha) _ _ _ hr

/-- The first part of a lookup has a known outcome. -/
theorem Allows.step (h : act.Gives env a mid) (h2 : (f a).Allows mid Q) :
    (act >>= f).Allows env Q :=
  Allows.bind (P := fun a' mid' => a' = a ∧ mid' = mid) (fun _ _ _ hr => h.of_run hr)
    fun _ _ ⟨ea, em⟩ => ea ▸ em ▸ h2

theorem Allows.ask {g : Environment → Except Fault α}
    (h : ∀ a, g env = .ok a → (f a).Allows env Q) : (Lookup.ask g >>= f).Allows env Q := by
  cases ha : g env with
  | error e =>
    intro j b s hr
    simp only [Lookup.ask, Bind.bind, StateT.bind, get, getThe, MonadStateOf.get, StateT.get,
      Except.bind, Pure.pure, Except.pure, liftM, monadLift, MonadLift.monadLift, ha] at hr
    cases hr
  | ok a => exact Allows.step (.ask ha) (h a ha)

theorem Allows.package {p : PackageId} {f : Package → Lookup β}
    (h : ∀ r, env.package p = .ok r → (f r).Allows env Q) : (Lookup.package p >>= f).Allows env Q :=
  Allows.ask h

theorem Allows.module {m : ModuleId} {f : Module → Lookup β}
    (h : ∀ r, env.module m = .ok r → (f r).Allows env Q) : (Lookup.module m >>= f).Allows env Q :=
  Allows.ask h

theorem Allows.note {e : Event} {f : Unit → Lookup β} (h : (f ()).Allows env Q) :
    (Lookup.note e >>= f).Allows env Q :=
  Allows.step (.note e) h

theorem Allows.noteIf {c : Prop} [Decidable c] {e : Event} {f : Unit → Lookup β}
    (h : (f ()).Allows env Q) :
    (if c then (do let u ← Lookup.note e; f u) else f ()).Allows env Q := by
  split
  · exact Allows.note h
  · exact h

theorem Allows.map {g : α → β} (h : act.Allows env fun a after => Q (g a) after) :
    (g <$> act).Allows env Q :=
  Allows.bind h fun _ _ hq => Allows.pure hq

theorem Allows.discard {Q : Unit → Environment → Prop} (h : act.Allows env P)
    (hq : ∀ a after, P a after → Q () after) : (Functor.discard act).Allows env Q :=
  Allows.map (h.mono hq)

theorem Allows.within {step : Step} (h : act.Allows env P) : (within step act).Allows env P := by
  intro j a s hr
  have hrun : Lookup.within step act ⟨env, j⟩ =
      (act ⟨env, { j with steps := j.steps ++ [step] }⟩).bind fun p =>
        .ok (p.1, { p.2 with journal.steps := j.steps }) := rfl
  rw [hrun] at hr
  cases ha : act ⟨env, { j with steps := j.steps ++ [step] }⟩ with
  | error e => rw [ha] at hr; cases hr
  | ok p =>
    rw [ha] at hr
    cases hr
    have hp : P p.1 p.2.env := h _ _ _ ha
    exact hp

end Lookup

end SplitPackages
