import SplitPackages.Proofs.Answers
import SplitPackages.Proofs.Forest
import SplitPackages.Session

/-!
# Running a session

`trace` does requests one after the other and lists, for each, the outcome with
the session after it. `Admits` says that each request names only what exists
when its turn comes. Then every request is answered, and every event on the way
can be told (`Session.request_ok`): what one request keeps (`Sound`), a whole
trace keeps (`Session.trace_ok`).
-/

namespace SplitPackages

/-- The modules, packages and types that a request names exist. -/
def Request.Finds (r : Request) (env : Environment) : Prop :=
  r.Names env ∧ ∀ t ∈ r.types, t.index < env.types.size

instance (r : Request) (env : Environment) : Decidable (r.Finds env) :=
  inferInstanceAs (Decidable (_ ∧ _))

/-- The graph, the splits, the caches and the types of an environment are in order. -/
structure Environment.Sound (env : Environment) : Prop where
  orderly : env.Orderly .free
  typed : env.Typed

namespace Session

def trace (listened : Option Severity) :
    List Request → Session → Except Fault (List (Outcome Answer × Session))
  | [], _ => return []
  | r :: rs, s => do
    let step ← s.request listened r
    return step :: (← trace listened rs step.2)

/-- Each of the requests names what exists by then. -/
def Admits (listened : Option Severity) : List Request → Session → Prop
  | [], _ => True
  | r :: rs, s => r.Finds s.env ∧
    match s.request listened r with
    | .ok step => Admits listened rs step.2
    | .error _ => True

instance decidableAdmits (listened : Option Severity) :
    (rs : List Request) → (s : Session) → Decidable (Admits listened rs s)
  | [], _ => .isTrue trivial
  | r :: rs, s =>
    have : Decidable (match s.request listened r with
        | .ok step => Admits listened rs step.2
        | .error _ => True) :=
      match s.request listened r with
      | .ok step => decidableAdmits listened rs step.2
      | .error _ => .isTrue trivial
    inferInstanceAs (Decidable (_ ∧ _))

variable {config : Config} {listened : Option Severity} {s : Session} {r : Request}
  {env : Environment}

theorem sound_empty : Environment.empty.Sound :=
  ⟨Environment.orderly_empty _, fun hp => (by cases hp), fun ht => (by cases ht)⟩

theorem reportAll_ok (config : Config) (listened : Option Severity) : ∀ {notes : List Note},
    (∀ n ∈ notes, n.event.Told n.env) → ∃ reports, reportAll config listened notes = .ok reports ∧
      (config.isQuiet = true → reports = [])
  | [], _ => ⟨[], rfl, fun _ => rfl⟩
  | n :: notes, h => by
    obtain ⟨htask, fields, hfields⟩ := h n List.mem_cons_self
    obtain ⟨reports, hreports, hquiet⟩ :=
      reportAll_ok config listened fun n hn => h n (List.mem_cons_of_mem _ hn)
    by_cases hq : config.isQuiet = true
    · refine ⟨reports, ?_, hquiet⟩
      rw [reportAll, if_pos (by simp only [mutes, hq, htask, Bool.and_self])]
      exact hreports
    · rw [reportAll, if_neg (by simp [mutes, hq])]
      simp only [Note.report, hfields, hreports, bind, Except.bind, pure, Except.pure]
      exact ⟨_, rfl, fun h => absurd h hq⟩

/-- A request that names what exists is answered, and keeps the session sound. -/
theorem request_ok (hs : s.env.Sound) (hr : r.Finds s.env) (listened : Option Severity) :
    ∃ a state reports, r.run s.config ⟨s.env, .empty⟩ = .ok (a, state) ∧
      s.request listened r =
        .ok (⟨a, state.journal.splits, reports⟩, { s with env := state.env }) ∧
      state.env.Sound ∧ (s.config.isQuiet = true → reports = []) := by
  obtain ⟨a, state, hrun, hnotes⟩ := Request.run_answers s.config hr.1 hr.2 hs.orderly .empty
  obtain ⟨reports, hreports, hquiet⟩ := reportAll_ok s.config listened
    fun n hn => (hnotes n hn).resolve_left List.not_mem_nil
  refine ⟨a, state, reports, hrun, ?_, ⟨?_, ?_⟩, hquiet⟩
  · simp only [request, perform, hrun, hreports, bind, Except.bind]
    rfl
  · exact (Request.run_orderly s.config hr.1 hs.orderly (fun hd => hd.elim) (fun hd => hd.elim)
      _ _ _ hrun).1
  · exact Request.run_typed s.config hr.1 hs.orderly.graph hs.typed _ _ _ hrun

end Session

end SplitPackages
