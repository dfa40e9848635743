import SplitPackages.Proofs.Declarations
import SplitPackages.Proofs.Resolution
import SplitPackages.Request

/-!
# Histories

`Reaches config allowed env after`: a sequence of requests of the allowed kind
leads from `env` to `after`. Each request names only records that exist, and is
run as a session runs it, with an empty journal. `replay` does a list of requests.

Three kinds of requests matter here. `builds` are the builders, `buildsClear`
those of them that make no binding invalid or tainted, and `looks` the lookups
that walk the graph. A builder is a run of building steps and a lookup a run of
steps (`builds_spec`, `looks_spec`); so a property that every extension and
every step keeps holds of every state that such requests reach.
-/

namespace SplitPackages

namespace Request

def modules : Request → List ModuleId
  | addRead m target => [m, target]
  | addTransitiveRead m target => [m, target]
  | addExport m _ => [m]
  | declarePackage m _ => [m]
  | declareProblem m _ => [m]
  | declareType m _ => [m]
  | view m _ => [m]
  | child _ m _ => [m]
  | search _ m _ => [m]
  | addChild _ _ m => [m]
  | combine _ _ m => [m]
  | combineAll _ m => [m]
  | viewFor _ client _ => [client]
  | resolve m _ => [m]
  | resolveType m _ => [m]
  | canRead m target => [m, target]
  | canAccess m _ => [m]
  | exportsPackage m _ => [m]
  | module m => [m]
  | moduleName m => [m]
  | declared m _ => [m]
  | incarnation _ m => [m]
  | isDeclaredIn _ m => [m]
  | typeOfModule _ m _ => [m]
  | typeFor _ m _ => [m]
  | _ => []

def packages : Request → List PackageId
  | markMissing p => [p]
  | child p _ _ => [p]
  | strict p _ => [p]
  | relaxed p _ => [p]
  | search p _ _ => [p]
  | addChild p below _ => [p, below]
  | learnMissing p _ => [p]
  | combine candidate previous _ => bindings [candidate, previous]
  | combineAll candidates _ => bindings candidates
  | addToSplit p other => [p, other]
  | viewFor p _ _ => [p]
  | canAccess _ p => [p]
  | known p _ => [p]
  | rank candidate => bindings [candidate]
  | subsumes p other => [p, other]
  | incarnation p _ => [p]
  | isDeclaredIn p _ => [p]
  | declaring p => [p]
  | typeIn p _ => [p]
  | knowsType p _ => [p]
  | typeOfModule p _ _ => [p]
  | typeFor p _ _ => [p]
  | package p => [p]
  | display p => [p]
  | describe binding => bindings [binding]
  | _ => []

/-- Every module and package that the request names exists. -/
def Names (r : Request) (env : Environment) : Prop :=
  (∀ m ∈ r.modules, m.index < env.modules.size) ∧ ∀ p ∈ r.packages, p.index < env.packages.size

instance (r : Request) (env : Environment) : Decidable (r.Names env) :=
  inferInstanceAs (Decidable (_ ∧ _))

/-- Builders that make no binding invalid or tainted. -/
def buildsClear : Request → Bool
  | addModule _ _ => true
  | addRead _ _ => true
  | addTransitiveRead _ _ => true
  | addExport _ _ => true
  | declarePackage _ _ => true
  | declareType _ _ => true
  | _ => false

def builds : Request → Bool
  | declareProblem _ _ => true
  | markMissing _ => true
  | r => r.buildsClear

/-- Lookups that walk the graph. -/
def looks : Request → Bool
  | view _ _ => true
  | child _ _ _ => true
  | strict _ _ => true
  | relaxed _ _ => true
  | search _ _ _ => true
  | resolve _ _ => true
  | resolveType _ _ => true
  | _ => false

end Request

/-- The packages that an answer hands out. -/
def Answer.packages : Answer → List PackageId
  | package id => [id]
  | package? id => id.toList
  | ref found => bindings [found]
  | resolution (.noSuchType p) => [p]
  | _ => []

namespace Environment

inductive Reaches (config : Config) (allowed : Request → Bool) (env : Environment) :
    Environment → Prop
  | refl : Reaches config allowed env env
  | tail {mid : Environment} {r : Request} {a : Answer} {s : State} :
      Reaches config allowed env mid → allowed r = true → r.Names mid →
      r.run config ⟨mid, .empty⟩ = .ok (a, s) → Reaches config allowed env s.env

variable {env mid after : Environment} {config : Config} {allowed : Request → Bool}

/-- Does the requests one after the other, as long as they are allowed and name what exists. -/
def replay (config : Config) (allowed : Request → Bool) : List Request → Environment →
    Option Environment
  | [], env => some env
  | r :: rs, env =>
    if allowed r = true ∧ r.Names env then
      match r.run config ⟨env, .empty⟩ with
      | .ok (_, s) => replay config allowed rs s.env
      | .error _ => none
    else none

theorem reaches_of_replay {rs : List Request} (h : replay config allowed rs env = some after) :
    env.Reaches config allowed after := by
  -- the requests already done are a history of their own
  suffices hgo : ∀ rs mid, env.Reaches config allowed mid →
      replay config allowed rs mid = some after → env.Reaches config allowed after from
    hgo rs env .refl h
  intro rs
  induction rs with
  | nil =>
    intro mid hmid h
    cases h
    exact hmid
  | cons r rs ih =>
    intro mid hmid h
    rw [replay] at h
    split at h
    · next hr =>
      split at h
      · next a s hrun => exact ih s.env (.tail hmid hr.1 hr.2 hrun) h
      · cases h
    · cases h

theorem coherent_empty : Environment.empty.Coherent where
  reads hm := by cases hm
  declared hd := by cases hd
  own hp := by cases hp
  home hp := by cases hp
  enclosing hd := by
    obtain ⟨p, hd⟩ := hd
    cases hd
  split hp := by cases hp
  entry hp := by cases hp
  memo hp := by cases hp
  seen hs := by cases hs
  types hp := by cases hp

end Environment

namespace Request

open Environment Lookup

variable {env after : Environment} {r : Request}

theorem Names.module (h : r.Names env) {m : ModuleId} (hm : m ∈ r.modules) :
    ∃ record, env.module m = .ok record :=
  module_of_lt_size (h.1 m hm)

theorem Names.package (h : r.Names env) {p : PackageId} (hp : p ∈ r.packages) :
    ∃ record, env.package p = .ok record :=
  package_of_lt_size (h.2 p hp)

theorem builds_of_buildsClear (h : r.buildsClear = true) : r.builds = true := by
  cases r <;> first | rfl | exact h

/-- A builder is a run of building steps; what it gives is a binding that it declared. -/
theorem builds_spec (config : Config) (hb : r.builds = true) (hn : r.Names env)
    (hg : env.Graph) : (r.run config).Ensures env fun a after => env.Raises after ∧
      (r.buildsClear = true → env.Clears after) ∧
      ∀ p ∈ a.packages, ∃ r, after.package p = .ok r ∧ r.isSplit = false := by
  cases r with
  | addModule name unnamed =>
    have hrun : Update.addModule name unnamed env = .ok (⟨env.modules.size⟩,
      { env with modules := env.modules.push (.fresh name unnamed) }) := rfl
    exact Ensures.map ⟨_, _, .update hrun, .single (.module name unnamed),
      fun _ => (push_module env name unnamed).2.2, by simp [Answer.packages]⟩
  | addRead m target =>
    have hspec := addRead_raises hg (hn.module (m := m) (by simp [modules]))
      (hn.module (m := target) (by simp [modules]))
    exact Ensures.map ((Ensures.update hspec).mono fun _ _ h =>
      ⟨h.1, fun _ => h.2, by simp [Answer.packages]⟩)
  | addTransitiveRead m target =>
    have hspec := addTransitiveRead_raises hg (hn.module (m := m) (by simp [modules]))
      (hn.module (m := target) (by simp [modules]))
    exact Ensures.map ((Ensures.update hspec).mono fun _ _ h =>
      ⟨h.1, fun _ => h.2, by simp [Answer.packages]⟩)
  | addExport m path =>
    have hspec := addExport_raises hg (hn.module (m := m) (by simp [modules])) path
    exact Ensures.map ((Ensures.update hspec).mono fun _ _ h =>
      ⟨h.1, fun _ => h.2, by simp [Answer.packages]⟩)
  | declarePackage m path =>
    have hspec := declarePackage_spec hg (hn.module (m := m) (by simp [modules])) path
    refine Ensures.map ((Ensures.update hspec).mono fun result _ h => ⟨h.1, fun _ => h.2.1, ?_⟩)
    intro p hp
    cases result with
    | error e => simp [Answer.ofGraph, Answer.packages] at hp
    | ok id =>
      obtain ⟨r, hr, hpl, -⟩ := h.2.2 id rfl
      simp only [Answer.ofGraph, Answer.packages, List.mem_singleton] at hp
      exact ⟨r, hp ▸ hr, Package.isSplit_of_isPlain hpl⟩
  | declareProblem m path =>
    have hspec := declareProblem_spec (hn.module (m := m) (by simp [modules])) path
    refine Ensures.map ((Ensures.update hspec).mono fun result _ h =>
      ⟨h.1, fun hno => (by cases hno), ?_⟩)
    intro p hp
    cases result with
    | error e => simp [Answer.ofGraph, Answer.packages] at hp
    | ok id =>
      simp only [Answer.ofGraph, Answer.packages, List.mem_singleton] at hp
      exact hp ▸ h.2 id rfl
  | declareType m qualified =>
    have hspec := declareType_spec hg (hn.module (m := m) (by simp [modules])) qualified
    refine Ensures.map ((Ensures.update hspec).mono fun result _ h => ⟨h.1, fun _ => h.2, ?_⟩)
    cases result <;> simp [Answer.ofGraph, Answer.packages]
  | markMissing p =>
    obtain ⟨r, hr⟩ := hn.package (p := p) (by simp [packages])
    exact Ensures.map ((Ensures.update (markMissing_raises hg hr)).mono fun _ _ h =>
      ⟨h, fun hno => (by cases hno), by simp [Answer.packages]⟩)
  | _ => cases hb

/-- A lookup is a run of steps. -/
theorem looks_spec (config : Config) (hl : r.looks = true) (hn : r.Names env)
    (hc : env.Coherent) : (r.run config).Ensures env fun _ after => env.Changes after := by
  cases r with
  | view m path =>
    have hm := hn.module (m := m) (by simp [modules])
    exact Ensures.map ((view_spec hc hm path).mono fun _ _ h => h.1)
  | child p m name =>
    have hm := hn.module (m := m) (by simp [modules])
    obtain ⟨r, hr⟩ := hn.package (p := p) (by simp [packages])
    exact Ensures.map ((child_spec hc hr hm name).mono fun _ _ h => h.1)
  | strict p name =>
    obtain ⟨r, hr⟩ := hn.package (p := p) (by simp [packages])
    exact Ensures.map ((strict_spec hc hr name).mono fun _ _ h => h.1)
  | relaxed p name =>
    obtain ⟨r, hr⟩ := hn.package (p := p) (by simp [packages])
    exact Ensures.map ((relaxed_spec hc hr name).mono fun _ _ h => h.1)
  | search p m name =>
    obtain ⟨r, hr⟩ := hn.package (p := p) (by simp [packages])
    exact Ensures.map ((search_spec hc hr name m).mono fun _ _ h => h.1)
  | resolve m path =>
    have hm := hn.module (m := m) (by simp [modules])
    exact Ensures.map ((resolve_spec hc hm path).mono fun _ _ h => h.changes)
  | resolveType m qualified =>
    have hm := hn.module (m := m) (by simp [modules])
    refine Ensures.map ?_
    cases hq : Path.splitTypeName qualified with
    | error e =>
      unfold Lookup.resolveType
      rw [hq]
      exact Ensures.pure .refl
    | ok parts =>
      obtain ⟨path, name⟩ := parts
      exact (resolveType_spec hc hm hq).mono fun _ _ ⟨_, _, _, h, _⟩ => h.changes
  | _ => cases hl

end Request

namespace Environment

variable {env mid after : Environment} {config : Config}

theorem Changes.induction {I : Environment → Prop} (h : env.Changes after) (hc : env.Coherent)
    (h0 : I env) (hstep : ∀ {env after}, env.Coherent → env.Change after → I env → I after) :
    I after := by
  induction h with
  | refl => exact h0
  | tail hch hs ih => exact hstep (hch.coherent hc) hs ih

/-- What every extension and every step keeps holds in every state that builders and lookups
reach. -/
theorem Reaches.induction {I : Environment → Prop}
    (h : env.Reaches config (fun r => r.builds || r.looks) after) (hc : env.Coherent) (h0 : I env)
    (hbuild : ∀ {env after}, env.Coherent → env.Built after → I env → I after)
    (hlook : ∀ {env after}, env.Coherent → env.Change after → I env → I after) :
    after.Coherent ∧ I after := by
  induction h with
  | refl => exact ⟨hc, h0⟩
  | tail _ ha hn hr ih =>
    obtain ⟨hc1, h1⟩ := ih
    rw [Bool.or_eq_true] at ha
    rcases ha with ha | ha
    · have hb := ((Request.builds_spec config ha hn hc1.graph).of_run hr).1.built hc1
      exact ⟨hb.2, hbuild hc1 hb h1⟩
    · have hch := (Request.looks_spec config ha hn hc1).of_run hr
      exact ⟨hch.coherent hc1, hch.induction hc1 h1 hlook⟩

theorem Reaches.changes (h : env.Reaches config Request.looks after) (hc : env.Coherent) :
    env.Changes after := by
  induction h with
  | refl => exact .refl
  | tail _ ha hn hr ih =>
    exact ih.trans ((Request.looks_spec config ha hn (ih.coherent hc)).of_run hr)

theorem Reaches.coherent (h : env.Reaches config (fun r => r.builds || r.looks) after)
    (hc : env.Coherent) : after.Coherent :=
  (h.induction (I := fun _ => True) hc trivial (fun _ _ _ => trivial) fun _ _ _ => trivial).1

end Environment

end SplitPackages
