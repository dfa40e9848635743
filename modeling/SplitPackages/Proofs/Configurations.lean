import SplitPackages.Proofs.Sessions

/-!
# What a configuration decides

Two sessions that begin empty and are asked the same things agree after every
step on the environment, on the splits created and on the answer
(`sessions_agree`), whatever their configurations and whoever listens. There is
one exception, and it is exact: whether unnamed modules are ignored decides what
a client should see of a split of which it can access one incarnation in a named
module and some in unnamed ones (`Contested`). A muted session reports nothing.
-/

namespace SplitPackages

namespace Environment

/-- Of the incarnations with a compilation unit that the client can access, one is in a named module
and some are in unnamed ones; and none is taken because it is the client's own. -/
structure Contested (env : Environment) (p : PackageId) (client : ModuleId) (preferOwn : Bool)
    (r : Package) : Prop where
  package : env.package p = .ok r
  split : r.isSplit = true
  own : ∀ i ∈ r.incarnations, env.prefersOwn client preferOwn i = false
  named : (r.incarnations.filter (env.showsUnit client false)).length = 1
  unnamed : r.incarnations.filter (env.showsUnit client true) ≠ []

variable {env : Environment} {p : PackageId} {m : ModuleId} {r : Package}

theorem answer_ne_iff {t : Tally} {split : PackageId} (hlast : t.lastNamed ≠ some split) :
    t.answer true split ≠ t.answer false split ↔ t.named = 1 ∧ t.lastUnnamed ≠ none := by
  unfold Tally.answer
  split
  · next h => simp [h]
  · next h => cases hu : t.lastUnnamed <;> simp [h, hlast]
  · next h1 => exact ⟨fun h => absurd rfl h, fun h => absurd h.1 h1⟩

theorem contested_iff (ho : env.Orderly .free) (hr : env.package p = .ok r) (hs : r.isSplit = true)
    {preferOwn : Bool} (hown : r.incarnations.find? (env.prefersOwn m preferOwn) = none) :
    (env.tallied m .empty r.incarnations).answer true p ≠
        (env.tallied m .empty r.incarnations).answer false p ↔
      env.Contested p m preferOwn r := by
  have hlast : (env.tallied m .empty r.incarnations).lastNamed ≠ some p := by
    intro e
    simp only [tallied, Tally.empty, Option.or_none] at e
    obtain ⟨ri, hri, hpl⟩ := ho.wired.plain_of_mem hr (List.mem_filter.mp (List.mem_of_getLast? e)).1
    cases package_unique hr hri
    rw [Package.isSplit_of_isPlain hpl] at hs
    cases hs
  rw [answer_ne_iff hlast]
  have hnone (i : PackageId) (hi : i ∈ r.incarnations) : env.prefersOwn m preferOwn i = false := by
    simpa using List.find?_eq_none.mp hown i hi
  simp only [tallied, Tally.empty, Nat.zero_add, Option.or_none, ne_eq, List.getLast?_eq_none_iff]
  exact ⟨fun h => ⟨hr, hs, hnone, h.1, h.2⟩, fun h => ⟨h.named, h.unnamed⟩⟩

end Environment

namespace Lookup

open Environment

variable {env : Environment} {p : PackageId} {m : ModuleId}

theorem bind_run {α β : Type} {act : Lookup α} {f : α → Lookup β} {s s' : State} {a : α}
    (h : act s = .ok (a, s')) : (act >>= f) s = f a s' := by
  simp only [Bind.bind, StateT.bind, Except.bind, h]

theorem package_run {r : Package} (hr : env.package p = .ok r) (j : Journal) :
    package p ⟨env, j⟩ = .ok (r, ⟨env, j⟩) :=
  ask_run hr j

/-- What a client should see depends on whether unnamed modules are ignored if it is contested, and
on nothing else of the configuration. -/
theorem viewFor_runs (ho : env.Orderly .free) (hm : ∃ record, env.module m = .ok record)
    {r : Package} (hr : env.package p = .ok r) (preferOwn : Bool) :
    ∃ (answer : Bool → Option PackageId) (journal : Journal),
      (∀ ignore, viewFor ignore p m preferOwn ⟨env, .empty⟩ =
        .ok (answer ignore, ⟨env, journal⟩)) ∧
      (answer true ≠ answer false ↔ env.Contested p m preferOwn r) := by
  by_cases hs : r.isSplit = true
  · have htally := ho.closed.tally_eq hm preferOwn .empty fun i hi => ho.closed.incarnations hr hi
    cases hown : r.incarnations.find? (env.prefersOwn m preferOwn) with
    | some own =>
      refine ⟨fun _ => some own, .empty, fun ignore => ?_, fun h => absurd rfl h, fun h => ?_⟩
      · rw [hown] at htally
        unfold viewFor
        rw [bind_run (package_run hr _), if_pos hs, bind_run (ask_run htally _)]
        rfl
      · have hfalse := h.own own (List.mem_of_find?_eq_some hown)
        rw [List.find?_some hown] at hfalse
        cases hfalse
    | none =>
      let t := env.tallied m .empty r.incarnations
      refine ⟨fun ignore => t.answer ignore p,
        ⟨[], [⟨.viewedFor m t.named t.lastUnnamed.isSome, [], env⟩], []⟩,
        fun ignore => ?_, contested_iff ho hr hs hown⟩
      rw [hown] at htally
      unfold viewFor
      rw [bind_run (package_run hr _), if_pos hs, bind_run (ask_run htally _)]
      rfl
  · refine ⟨fun _ => some p, .empty, fun ignore => ?_, fun h => absurd rfl h,
      fun h => absurd h.split hs⟩
    unfold viewFor
    rw [bind_run (package_run hr _), if_neg hs]
    rfl

end Lookup

namespace Request

theorem run_eq (config config' : Config) {r : Request}
    (h : ∀ p client preferOwn, r ≠ .viewFor p client preferOwn) : r.run config = r.run config' := by
  cases r with
  | viewFor p client preferOwn => exact absurd rfl (h p client preferOwn)
  | _ => rfl

/-- What the answers to a request may differ in, if they come from different configurations. -/
def Decided (config config' : Config) (env : Environment) (r : Request) : Prop :=
  config.ignoreUnnamed ≠ config'.ignoreUnnamed ∧
    ∃ p client preferOwn record, r = .viewFor p client preferOwn ∧
      env.Contested p client preferOwn record

end Request

namespace Session

open Environment Lookup

variable (config config' : Config) (listened listened' : Option Severity) {env : Environment}
  {r : Request}

/-- Two sessions have taken the same step for a request: what it has changed, the splits that an
observer is told of, and the answer. -/
structure SameStep (r : Request)
    (step step' : Outcome Answer × Session) : Prop where
  env : step'.2.env = step.2.env
  splits : step'.1.splits = step.1.splits
  answer : step'.1.answer ≠ step.1.answer ↔ r.Decided config config' step.2.env
  muted : config.isQuiet = true → step.1.reports = []
  muted' : config'.isQuiet = true → step'.1.reports = []

theorem request_agrees (hs : env.Sound) (hr : r.Finds env) :
    ∃ o o' after, (⟨config, env⟩ : Session).request listened r = .ok (o, ⟨config, after⟩) ∧
      (⟨config', env⟩ : Session).request listened' r = .ok (o', ⟨config', after⟩) ∧
      after.Sound ∧ SameStep config config' r (o, ⟨config, after⟩) (o', ⟨config', after⟩) := by
  obtain ⟨a, state, reports, hrun, hreq, hsound, hquiet⟩ :=
    request_ok (s := ⟨config, env⟩) hs hr listened
  obtain ⟨a', state', reports', hrun', hreq', -, hquiet'⟩ :=
    request_ok (s := ⟨config', env⟩) hs hr listened'
  -- the state does not depend on the configuration, and the answer only where it is decided
  obtain ⟨rfl, hanswer⟩ : state' = state ∧ (a' ≠ a ↔ r.Decided config config' state.env) := by
    by_cases hview : ∃ p client preferOwn, r = .viewFor p client preferOwn
    · obtain ⟨p, client, preferOwn, rfl⟩ := hview
      obtain ⟨rp, hrp⟩ := hr.1.package (p := p) (by simp [Request.packages])
      have hm := hr.1.module (m := client) (by simp [Request.modules])
      obtain ⟨answer, journal, hruns, hiff⟩ := viewFor_runs hs.orderly hm hrp preferOwn
      have hgive (config : Config) : (Request.viewFor p client preferOwn).run config ⟨env, .empty⟩ =
          .ok (.package? (answer config.ignoreUnnamed), ⟨env, journal⟩) := by
        simp only [Request.run, Functor.map, StateT.map, hruns]
        rfl
      rw [hgive] at hrun hrun'
      cases hrun
      cases hrun'
      refine ⟨rfl, ?_⟩
      have hne : answer config'.ignoreUnnamed ≠ answer config.ignoreUnnamed ↔
          config.ignoreUnnamed ≠ config'.ignoreUnnamed ∧ answer true ≠ answer false := by
        cases config.ignoreUnnamed <;> cases config'.ignoreUnnamed <;> simp [eq_comm]
      rw [ne_eq, Answer.package?.injEq, ← ne_eq, hne, hiff]
      constructor
      · rintro ⟨hignore, hcontested⟩
        exact ⟨hignore, p, client, preferOwn, rp, rfl, hcontested⟩
      · rintro ⟨hignore, _, _, _, record, e, hcontested⟩
        cases e
        cases package_unique hcontested.package hrp
        exact ⟨hignore, hcontested⟩
    · have hnot (p client preferOwn) : r ≠ .viewFor p client preferOwn :=
        fun e => hview ⟨p, client, preferOwn, e⟩
      rw [Request.run_eq config' config hnot] at hrun'
      simp only at hrun
      rw [hrun] at hrun'
      cases hrun'
      refine ⟨rfl, fun h => absurd rfl h, ?_⟩
      rintro ⟨-, p, client, preferOwn, -, e, -⟩
      exact absurd e (hnot p client preferOwn)
  exact ⟨_, _, _, hreq, hreq', hsound, rfl, rfl, hanswer, hquiet, hquiet'⟩

theorem traces_agree : ∀ {rs : List Request} {env : Environment}, env.Sound →
    Admits listened rs ⟨config, env⟩ →
    ∃ steps steps', trace listened rs ⟨config, env⟩ = .ok steps ∧
      trace listened' rs ⟨config', env⟩ = .ok steps' ∧ steps.length = rs.length ∧
      steps'.length = rs.length ∧
      ∀ x ∈ rs.zip (steps.zip steps'), SameStep config config' x.1 x.2.1 x.2.2
  | [], _, _, _ => ⟨[], [], rfl, rfl, rfl, rfl, by simp⟩
  | r :: rs, env, hs, ⟨hr, hrest⟩ => by
    obtain ⟨o, o', after, hreq, hreq', hsound, hsame⟩ :=
      request_agrees config config' listened listened' hs hr
    rw [hreq] at hrest
    obtain ⟨steps, steps', hsteps, hsteps', hlen, hlen', hall⟩ := traces_agree hsound hrest
    refine ⟨(o, ⟨config, after⟩) :: steps, (o', ⟨config', after⟩) :: steps', ?_, ?_,
      congrArg Nat.succ hlen, congrArg Nat.succ hlen', ?_⟩
    · simp only [trace, hreq, hsteps, bind, Except.bind]
      rfl
    · simp only [trace, hreq', hsteps', bind, Except.bind]
      rfl
    · exact List.forall_mem_cons.mpr ⟨hsame, hall⟩

/-- Two sessions that begin empty agree after every step, unless the step asks what the
configurations decide. -/
theorem sessions_agree {rs : List Request} (h : Admits listened rs (start config)) :
    ∃ steps steps', trace listened rs (start config) = .ok steps ∧
      trace listened' rs (start config') = .ok steps' ∧ steps.length = rs.length ∧
      steps'.length = rs.length ∧
      ∀ x ∈ rs.zip (steps.zip steps'), SameStep config config' x.1 x.2.1 x.2.2 :=
  traces_agree config config' listened listened' sound_empty h

def muted : Config := ⟨true, "reconciler", ["reconciler"]⟩

/-- A named and an unnamed module share a package, and a client asks which of them it should see. -/
def namedBesideUnnamed : List Request :=
  [.addModule "a" false, .addModule "u" true, .addModule "c" false, .addRead ⟨2⟩ ⟨0⟩,
    .addRead ⟨2⟩ ⟨1⟩, .declarePackage ⟨0⟩ (.top "foo"), .declarePackage ⟨1⟩ (.top "foo"),
    .addExport ⟨0⟩ (.top "foo"), .view ⟨2⟩ (.top "foo"), .viewFor ⟨2⟩ ⟨2⟩ false]

theorem sessions_agree_namedBesideUnnamed :
    Admits (some .debug) namedBesideUnnamed (start .standard) ∧
      ∃ steps steps', trace (some .debug) namedBesideUnnamed (start .standard) = .ok steps ∧
        trace none namedBesideUnnamed (start muted) = .ok steps' ∧
        steps.length = namedBesideUnnamed.length ∧ steps'.length = namedBesideUnnamed.length ∧
        ∀ x ∈ namedBesideUnnamed.zip (steps.zip steps'),
          SameStep .standard muted x.1 x.2.1 x.2.2 :=
  have h : Admits (some .debug) namedBesideUnnamed (start .standard) := by decide +kernel
  ⟨h, sessions_agree .standard muted (some .debug) none h⟩

example : [Config.standard, muted].map (fun config =>
    ((trace none namedBesideUnnamed (start config)).toOption.getD []).getLast?.map (·.1.answer)) =
      [some (.package? (some ⟨2⟩)), some (.package? (some ⟨0⟩))] := by decide +kernel

end Session

end SplitPackages
