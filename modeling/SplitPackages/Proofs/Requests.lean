import SplitPackages.Proofs.Histories
import SplitPackages.Proofs.LookupProgress

/-!
# Requests of every kind

Every request keeps an orderly environment orderly and hands out packages that
fit (`run_orderly`), if it keeps to the discipline: if paths matter, it combines
bindings of one path and registers a child below a binding of the enclosing
path (`RespectsPaths`); if the number of incarnations matters, it names packages
that have been handed out.

So three kinds of histories are orderly: all of them under no discipline
(`Reaches.orderly`), those whose requests respect paths (`Develops`), and those
that name only packages that were handed out before (`Serves`). Whether a request
respects paths can be decided (`respectsPaths_iff`), so that `develop` makes such
requests one after the other.
-/

namespace SplitPackages

/-- Bindings are combined with bindings of their path, and a child is registered below a binding of
the enclosing path. -/
def Request.RespectsPaths (env : Environment) : Request → Prop
  | combine candidate previous _ =>
    ∃ path, ∀ p ∈ bindings [candidate, previous], env.Binds p path
  | combineAll candidates _ => ∃ path, ∀ p ∈ bindings candidates, env.Binds p path
  | addToSplit p other => ∃ path, env.Binds p path ∧ env.Binds other path
  | addChild p below _ => ∃ path name, env.Binds p path ∧ env.Binds below (.sub path name)
  | _ => True

namespace Environment

def path? (env : Environment) (p : PackageId) : Option Path :=
  match env.package p with
  | .ok r => some r.path
  | .error _ => none

def sharePath (env : Environment) : List PackageId → Bool
  | [] => true
  | p :: ps => (env.path? p).any fun path => ps.all fun q => env.path? q = some path

theorem path?_eq_some {env : Environment} {p : PackageId} {path : Path} :
    env.path? p = some path ↔ env.Binds p path := by
  unfold path? Binds
  cases env.package p with
  | ok r => simp
  | error e => simp

theorem sharePath_iff {env : Environment} {ps : List PackageId} :
    env.sharePath ps = true ↔ ∃ path, ∀ p ∈ ps, env.Binds p path := by
  cases ps with
  | nil => exact iff_of_true rfl ⟨.top "", fun p hp => absurd hp List.not_mem_nil⟩
  | cons p ps =>
    simp only [sharePath, Option.any_eq_true, List.all_eq_true, decide_eq_true_eq, path?_eq_some,
      List.forall_mem_cons]

end Environment

/-- Whether a request respects paths. -/
def Request.respectsPaths (env : Environment) : Request → Bool
  | combine candidate previous _ => env.sharePath (bindings [candidate, previous])
  | combineAll candidates _ => env.sharePath (bindings candidates)
  | addToSplit p other => env.sharePath [p, other]
  | addChild p below _ =>
    match env.path? p, env.path? below with
    | some path, some (.sub above _) => above = path
    | _, _ => false
  | _ => true

theorem Request.respectsPaths_iff {env : Environment} {r : Request} :
    r.respectsPaths env = true ↔ r.RespectsPaths env := by
  cases r with
  | combine | combineAll => exact Environment.sharePath_iff
  | addToSplit p other =>
    simp [respectsPaths, RespectsPaths, Environment.sharePath_iff]
  | addChild p below m =>
    simp only [respectsPaths, RespectsPaths, ← Environment.path?_eq_some]
    split
    · next path above name hp hb =>
      simp [hp, hb, eq_comm]
    · next hno =>
      refine iff_of_false Bool.false_ne_true ?_
      rintro ⟨path, name, hp, hb⟩
      exact hno path path name hp hb
  | _ => exact iff_of_true rfl trivial

instance (env : Environment) (r : Request) : Decidable (r.RespectsPaths env) :=
  decidable_of_iff _ Request.respectsPaths_iff

/-- The bindings that were met last are in the list. -/
structure Tally.Among (all : List PackageId) (t : Tally) : Prop where
  named : ∀ p, t.lastNamed = some p → p ∈ all
  unnamed : ∀ p, t.lastUnnamed = some p → p ∈ all

/-- The outcome of a tally picks from the list. -/
def PicksAmong (all : List PackageId) : PackageId ⊕ Tally → Prop
  | .inl own => own ∈ all
  | .inr t => Tally.Among all t

namespace Environment

/-- Requests of which each is of the allowed kind when it is made lead from `env` to `after`. -/
inductive Develops (config : Config) (allowed : Environment → Request → Prop) (env : Environment) :
    Environment → Prop
  | refl : Develops config allowed env env
  | tail {mid : Environment} {r : Request} {a : Answer} {s : State} :
      Develops config allowed env mid → allowed mid r → r.Names mid →
      r.run config ⟨mid, .empty⟩ = .ok (a, s) → Develops config allowed env s.env

/-- Requests that name no package but those that were handed out lead to the environment, and
these are the packages that have been handed out. -/
inductive Serves (config : Config) : Environment → List PackageId → Prop
  | start : Serves config .empty []
  | request {env : Environment} {handed : List PackageId} {r : Request} {a : Answer} {s : State} :
      Serves config env handed → r.Names env → (∀ p ∈ r.packages, p ∈ handed) →
      r.run config ⟨env, .empty⟩ = .ok (a, s) → Serves config s.env (handed ++ a.packages)

variable {env after : Environment} {d : Discipline} {config : Config} {p : PackageId} {m : ModuleId}

theorem orderly_empty (d : Discipline) : Environment.empty.Orderly d where
  graph := coherent_empty.graph
  hung p r hp := by cases hp
  wired := by
    refine ⟨fun hi => ?_, fun hp => (by cases hp), fun s i => ⟨fun hs => ?_, fun hi => ?_⟩⟩
    · obtain ⟨r, hr, -⟩ := package_of_mem_incarnationsOf hi
      cases hr
    · obtain ⟨r, hr, -⟩ := package_of_mem_wrappersOf hs
      cases hr
    · obtain ⟨r, hr, -⟩ := package_of_mem_incarnationsOf hi
      cases hr
  placed _ _ _ _ _ hp := by cases hp
  entry hp := by cases hp
  memo hp := by cases hp
  seen hs := by cases hs
  enclosed hs := by cases hs

theorem tally_among (all : List PackageId) (client : ModuleId) (preferOwn : Bool) :
    ∀ {ps : List PackageId} {t : Tally} {o : PackageId ⊕ Tally}, (∀ p ∈ ps, p ∈ all) →
      Tally.Among all t → env.tally client preferOwn t ps = .ok o → PicksAmong all o
  | [], t, o, _, ht, h => by
    cases h
    exact ht
  | q :: ps, t, o, hall, ht, h => by
    have hq := hall q List.mem_cons_self
    have hrest {t' : Tally} (ht' : Tally.Among all t')
        (h : env.tally client preferOwn t' ps = .ok o) : PicksAmong all o :=
      tally_among all client preferOwn (fun p hp => hall p (List.mem_cons_of_mem _ hp)) ht' h
    unfold tally at h
    cases hr : env.package q with
    | error e => simp only [hr, bind, Except.bind] at h; cases h
    | ok r =>
      simp only [hr, bind, Except.bind] at h
      split at h
      · exact hrest ht h
      split at h
      · cases h
        exact hq
      cases ha : env.canAccess client q with
      | error e => rw [ha] at h; cases h
      | ok b =>
        rw [ha] at h
        cases b with
        | false => exact hrest ht h
        | true =>
          cases hm : env.module r.home with
          | error e => simp only [hm] at h; cases h
          | ok record =>
            simp only [hm, if_true] at h
            split at h
            · refine hrest ?_ h
              exact ⟨ht.named, fun p e => Option.some.inj e ▸ hq⟩
            · refine hrest ?_ h
              exact ⟨fun p e => Option.some.inj e ▸ hq, ht.unnamed⟩

end Environment

namespace Lookup

open Environment

variable {env : Environment}

theorem viewFor_same (ignoreUnnamed : Bool) (p : PackageId) (client : ModuleId) (preferOwn : Bool) :
    (viewFor ignoreUnnamed p client preferOwn).Allows env fun answer after => after = env ∧
      ∀ q, answer = some q → q = p ∨ q ∈ env.incarnationsOf p := by
  refine Allows.package fun r hr => ?_
  rw [incarnationsOf_of_package hr]
  split
  · refine Allows.ask fun o ho => ?_
    have hempty : Tally.empty.Among r.incarnations :=
      ⟨fun p e => (by cases e), fun p e => (by cases e)⟩
    have hpick := tally_among r.incarnations client preferOwn (fun _ hp => hp) hempty ho
    cases o with
    | inl own =>
      refine Allows.pure ⟨rfl, ?_⟩
      rintro q ⟨⟩
      exact .inr hpick
    | inr t =>
      refine Allows.note (Allows.pure ⟨rfl, fun q hq => ?_⟩)
      unfold Tally.answer at hq
      split at hq
      · exact .inr (hpick.unnamed q hq)
      · split at hq
        · exact .inr (hpick.named q hq)
        · exact .inl (Option.some.inj hq).symm
      · exact .inl (Option.some.inj hq).symm
  · refine Allows.pure ⟨rfl, ?_⟩
    rintro q ⟨⟩
    exact .inl rfl

end Lookup

namespace Request

open Environment Lookup

variable {env after : Environment} {d : Discipline} {r : Request}

/-- What a request leaves, and what it hands out. -/
def Kept (env : Environment) (d : Discipline) (a : Answer) (after : Environment) : Prop :=
  after.Orderly d ∧ env.Advances after ∧ ∀ p ∈ a.packages, ∃ path, after.Fits d path p

theorem Kept.of_proceeds {slot : Option (PackageId × String)} {a : Answer}
    (h : env.Proceeds d slot after) (hf : ∀ p ∈ a.packages, ∃ path, after.Fits d path p) :
    Kept env d a after :=
  ⟨h.orderly, h.advances, hf⟩

theorem ask_kept {α : Type} (ho : env.Orderly d) {f : Environment → Except Fault α}
    {g : α → Answer} (hg : ∀ x, (g x).packages = []) :
    (ask f >>= fun x => pure (g x)).Allows env fun a after => Kept env d a after :=
  Allows.ask fun x _ => Allows.pure ⟨ho, .refl env, by simp [hg]⟩

theorem optional_fits {path : Path} {answer : Option PackageId}
    (hf : ∀ q, answer = some q → after.Fits d path q) :
    ∀ p ∈ (Answer.package? answer).packages, ∃ path, after.Fits d path p :=
  fun p hp => ⟨path, hf p (Option.mem_toList.mp hp)⟩

/-- The packages that a request names fit at one path, if they have one path. -/
theorem allFit_of_binds {ps : List PackageId} (hn : ∀ p ∈ ps, ∃ rp, env.package p = .ok rp)
    (hfull : d.full → ∀ p ∈ ps, env.Full p ∨ env.Hollow)
    (hpaths : d.paths → ∃ path, ∀ p ∈ ps, env.Binds p path) : ∃ path, env.AllFit d path ps := by
  by_cases hd : d.paths
  · obtain ⟨path, hb⟩ := hpaths hd
    refine ⟨path, fun p hp => ?_⟩
    obtain ⟨rp, hrp, hpath⟩ := hb p hp
    exact ⟨rp, hrp, fun _ => hpath, fun hd => hfull hd p hp⟩
  · refine ⟨.top "", fun p hp => ?_⟩
    obtain ⟨rp, hrp⟩ := hn p hp
    exact ⟨rp, hrp, fun h => absurd h hd, fun hd => hfull hd p hp⟩

theorem Names.fits {p : PackageId} (hn : r.Names env)
    (hfull : d.full → ∀ p ∈ r.packages, env.Full p ∨ env.Hollow) (hp : p ∈ r.packages) :
    ∃ rp, env.package p = .ok rp ∧ env.Fits d rp.path p := by
  obtain ⟨rp, hrp⟩ := hn.package hp
  exact ⟨rp, hrp, rp, hrp, fun _ => rfl, fun hd => hfull hd p hp⟩

theorem builds_kept (config : Config) (hb : r.builds = true) (hn : r.Names env)
    (ho : env.Orderly d) : (r.run config).Allows env fun a after => Kept env d a after := by
  refine (builds_spec config hb hn ho.graph).allows.mono fun a after ⟨hraises, _, hnew⟩ => ?_
  obtain ⟨ho', ha⟩ := hraises.orderly ho
  refine ⟨ho', ha, fun p hp => ?_⟩
  obtain ⟨rp, hrp, hs⟩ := hnew p hp
  exact ⟨rp.path, fits_of_single hrp hs fun _ => rfl⟩

theorem looks_kept (config : Config) (hl : r.looks = true) (hn : r.Names env)
    (ho : env.Orderly d) : (r.run config).Allows env fun a after => Kept env d a after := by
  cases r with
  | view m path =>
    exact Allows.map ((view_views ho path).mono fun ref after hv =>
      .of_proceeds hv.proceeds fun p hp => ⟨path, hv.fits p hp⟩)
  | child p m name =>
    obtain ⟨rp, hrp⟩ := hn.package (p := p) (by simp [packages])
    exact Allows.map ((child_proceeds ho hrp name m).mono fun answer after h =>
      .of_proceeds h.1 (optional_fits h.2))
  | strict p name =>
    obtain ⟨rp, hrp⟩ := hn.package (p := p) (by simp [packages])
    exact Allows.map ((strict_stores ho hrp name).mono fun answer after h =>
      .of_proceeds h.1.toProceeds fun q hq => ⟨_, h.2.1 q hq⟩)
  | relaxed p name =>
    obtain ⟨rp, hrp⟩ := hn.package (p := p) (by simp [packages])
    exact Allows.map ((relaxed_stores ho hrp name).mono fun answer after h =>
      .of_proceeds h.1.toProceeds fun q hq => ⟨_, h.2 q hq⟩)
  | search p m name =>
    obtain ⟨rp, hrp⟩ := hn.package (p := p) (by simp [packages])
    exact Allows.map ((search_proceeds ho hrp name m).mono fun answer after h =>
      .of_proceeds h.1 (optional_fits h.2))
  | resolve m path =>
    exact Allows.map ((resolve_proceeds ho path).mono fun answer after h =>
      .of_proceeds h.1 (optional_fits h.2))
  | resolveType m qualified =>
    refine Allows.map ((resolveType_proceeds ho qualified).mono fun answer after h =>
      .of_proceeds h.1 fun q hq => ?_)
    cases answer with
    | error e => exact absurd hq List.not_mem_nil
    | ok resolution =>
      cases resolution with
      | noSuchType p =>
        cases List.mem_singleton.mp hq
        exact h.2 q rfl
      | _ => exact absurd hq List.not_mem_nil
  | _ => cases hl

theorem addChild_kept (config : Config) {p below : PackageId} {m : ModuleId}
    (hn : (addChild p below m).Names env) (ho : env.Orderly d)
    (hpaths : d.paths → (addChild p below m).RespectsPaths env)
    (hfull : d.full → ∀ q ∈ (addChild p below m).packages, env.Full q ∨ env.Hollow) :
    ((addChild p below m).run config).Allows env fun a after => Kept env d a after := by
  obtain ⟨rp, hrp⟩ := hn.package (p := p) (by simp [packages])
  obtain ⟨rb, hrb, hf⟩ := hn.fits hfull (p := below) (by simp [packages])
  have hbelow : ∃ name, env.Fits d (.sub rp.path name) below := by
    by_cases hd : d.paths
    · obtain ⟨path, name, ⟨rp', hrp', rfl⟩, rb', hrb', hpathb⟩ := hpaths hd
      cases package_unique hrp hrp'
      cases package_unique hrb hrb'
      exact ⟨name, hf.cast fun _ => hpathb⟩
    · exact ⟨"", hf.cast fun h => absurd h hd⟩
  obtain ⟨name, hbelow⟩ := hbelow
  refine Allows.map ((addChild_stores ho hrp hbelow m).mono fun e after h =>
    .of_proceeds h.1.toProceeds fun q hq => ?_)
  exact ⟨_, List.mem_singleton.mp hq ▸ h.2⟩

theorem addToSplit_kept (config : Config) {p other : PackageId}
    (hn : (addToSplit p other).Names env) (ho : env.Orderly d)
    (hpaths : d.paths → (addToSplit p other).RespectsPaths env) :
    ((addToSplit p other).run config).Allows env fun a after => Kept env d a after := by
  obtain ⟨rp, hrp⟩ := hn.package (p := p) (by simp [packages])
  obtain ⟨ro, hro⟩ := hn.package (p := other) (by simp [packages])
  have hend {after : Environment} (h : Update.addToSplit p other env = .ok ((), after))
      (hst : env.Stores d none after) :
      ((addToSplit p other).run config).Allows env fun a after => Kept env d a after :=
    Allows.step (.update h) (Allows.package fun _ _ => Allows.pure
      (.of_proceeds hst.toProceeds fun q hq => absurd hq List.not_mem_nil))
  by_cases hs : rp.isSplit = true
  · obtain ⟨s, hk⟩ := Package.kind_of_isSplit hs
    obtain ⟨after, hafter, hj⟩ := ho.wired.joins hrp hk hro
    refine hend hafter (hj.stores ho fun hd => ?_)
    obtain ⟨path, ⟨rp', hrp', e⟩, ro', hro', e'⟩ := hpaths hd
    cases package_unique hrp hrp'
    cases package_unique hro hro'
    exact e'.trans e.symm
  · exact hend (addToSplit_same hrp (by simpa using hs) hro) ho.stores

theorem viewFor_kept (config : Config) {p : PackageId} {client : ModuleId} {preferOwn : Bool}
    (hn : (viewFor p client preferOwn).Names env) (ho : env.Orderly d)
    (hfull : d.full → ∀ q ∈ (viewFor p client preferOwn).packages, env.Full q ∨ env.Hollow) :
    ((viewFor p client preferOwn).run config).Allows env fun a after => Kept env d a after := by
  obtain ⟨rp, hrp, hf⟩ := hn.fits hfull (p := p) (by simp [packages])
  refine Allows.map ((viewFor_same config.ignoreUnnamed p client preferOwn).mono ?_)
  rintro answer env ⟨rfl, hq⟩
  have hfits : ∀ q, answer = some q → env.Fits d rp.path q := by
    intro q e
    rcases hq q e with rfl | hin
    · exact hf
    · rw [incarnationsOf_of_package hrp] at hin
      exact ho.fits_contributor hrp (Package.mem_contributors.mpr (.inr hin))
  exact ⟨ho, .refl _, optional_fits hfits⟩

/-- Every request keeps what is orderly orderly and hands out packages that fit. -/
theorem run_orderly (config : Config) (hn : r.Names env) (ho : env.Orderly d)
    (hpaths : d.paths → r.RespectsPaths env)
    (hfull : d.full → ∀ p ∈ r.packages, env.Full p ∨ env.Hollow) :
    (r.run config).Allows env fun a after => Kept env d a after := by
  by_cases hb : r.builds = true
  · exact builds_kept config hb hn ho
  by_cases hl : r.looks = true
  · exact looks_kept config hl hn ho
  cases r with
  | addModule | addRead | addTransitiveRead | addExport | declarePackage | declareProblem
    | declareType | markMissing => exact absurd rfl hb
  | view | child | strict | relaxed | search | resolve | resolveType => exact absurd rfl hl
  | addChild p below m => exact addChild_kept config hn ho hpaths hfull
  | learnMissing p name =>
    obtain ⟨rp, hrp⟩ := hn.package (p := p) (by simp [packages])
    obtain ⟨after, hafter, h⟩ := learnMissing_stores ho hrp name
    exact Allows.map (Gives.allows (.update hafter)
      (.of_proceeds h.toProceeds fun q hq => absurd hq List.not_mem_nil))
  | combine candidate previous m =>
    have hm := hn.module (m := m) (by simp [modules])
    obtain ⟨path, hf⟩ := allFit_of_binds (fun p hp => hn.package hp) hfull hpaths
    exact Allows.map ((combine_stores ho hm hf).mono fun answer after h =>
      .of_proceeds h.1.toProceeds fun q hq => ⟨path, h.2 q hq⟩)
  | combineAll candidates m =>
    have hm := hn.module (m := m) (by simp [modules])
    obtain ⟨path, hf⟩ := allFit_of_binds (fun p hp => hn.package hp) hfull hpaths
    exact Allows.map ((combineAll_stores ho hm hf).mono fun answer after h =>
      .of_proceeds h.1.toProceeds fun q hq => ⟨path, h.2 q hq⟩)
  | addToSplit p other => exact addToSplit_kept config hn ho hpaths
  | viewFor p client preferOwn => exact viewFor_kept config hn ho hfull
  | declared m path =>
    refine Allows.ask fun own hown => Allows.pure ⟨ho, .refl env, ?_⟩
    exact optional_fits fun q e => ho.fits_declared (e ▸ hown)
  | known p name =>
    refine Allows.package fun rp hrp => Allows.pure ⟨ho, .refl env, fun q hq => ?_⟩
    exact ⟨_, ho.entry hrp (List.mem_singleton.mp (mem_bindings.mp hq)).symm⟩
  | incarnation p m =>
    obtain ⟨rp, hrp⟩ := hn.package (p := p) (by simp [packages])
    refine Allows.ask fun o hinc => Allows.pure ⟨ho, .refl env, ?_⟩
    obtain ⟨_, ho', -, hin⟩ := ho.wired.incarnation_iff hrp m
    rw [hinc] at ho'
    cases ho'
    exact optional_fits fun q e => ho.fits_contributor hrp (hin q e).1
  | moduleNamed name =>
    intro j a s hr
    cases hr
    exact ⟨ho, .refl env, fun q hq => absurd hq List.not_mem_nil⟩
  | typeFor p m name =>
    refine ask_kept ho fun x => ?_
    cases x <;> rfl
  | _ => exact ask_kept ho fun _ => rfl

end Request

namespace Discipline

/-- Requests keep to nothing. -/
def free : Discipline := ⟨False, False⟩

/-- Requests respect paths. -/
def pathwise : Discipline := ⟨True, False⟩

/-- Requests pass on what was handed out. -/
def handing : Discipline := ⟨False, True⟩

end Discipline

namespace Environment

variable {env after : Environment} {config : Config} {allowed : Request → Bool}
  {handed : List PackageId}

theorem Reaches.orderly (h : env.Reaches config allowed after) (ho : env.Orderly .free) :
    after.Orderly .free := by
  induction h with
  | refl => exact ho
  | tail _ _ hn hr ih =>
    exact (Request.run_orderly config hn ih (fun hd => hd.elim) (fun hd => hd.elim) _ _ _ hr).1

theorem Develops.orderly (h : env.Develops config Request.RespectsPaths after)
    (ho : env.Orderly .pathwise) : after.Orderly .pathwise := by
  induction h with
  | refl => exact ho
  | tail _ hpaths hn hr ih =>
    exact (Request.run_orderly config hn ih (fun _ => hpaths) (fun hd => hd.elim) _ _ _ hr).1

/-- Does the requests one after the other, as long as each is allowed when it is made and names what
exists. -/
def develop (config : Config) (allowed : Environment → Request → Prop)
    [∀ env r, Decidable (allowed env r)] : List Request → Environment → Option Environment
  | [], env => some env
  | r :: rs, env =>
    if allowed env r ∧ r.Names env then
      match r.run config ⟨env, .empty⟩ with
      | .ok (_, s) => develop config allowed rs s.env
      | .error _ => none
    else none

theorem develops_of_develop {first : Environment} {allowed : Environment → Request → Prop}
    [∀ env r, Decidable (allowed env r)] : ∀ {rs : List Request} {env : Environment},
      first.Develops config allowed env → develop config allowed rs env = some after →
      first.Develops config allowed after
  | [], env, h0, h => by
    cases h
    exact h0
  | r :: rs, env, h0, h => by
    rw [develop] at h
    split at h
    · next hr =>
      split at h
      · next a s hrun => exact develops_of_develop (.tail h0 hr.1 hr.2 hrun) h
      · cases h
    · cases h

/-- Builders and lookups that walk the graph respect paths. -/
theorem Reaches.develops (h : env.Reaches config (fun r => r.builds || r.looks) after) :
    env.Develops config Request.RespectsPaths after := by
  induction h with
  | refl => exact .refl
  | @tail mid r a s _ ha hn hr ih =>
    refine .tail ih ?_ hn hr
    cases r <;> first | exact trivial | cases ha

theorem Serves.orderly (h : Serves config env handed) :
    env.Orderly .handing ∧ ∀ p ∈ handed, ∃ path, env.Fits .handing path p := by
  induction h with
  | start => exact ⟨orderly_empty _, fun p hp => absurd hp List.not_mem_nil⟩
  | @request env handed r a s _ hn hin hr ih =>
    obtain ⟨ho, hfit⟩ := ih
    obtain ⟨ho', ha, hnew⟩ := Request.run_orderly config hn ho (fun hd => hd.elim)
      (fun hd p hp => by
        obtain ⟨path, rp, hrp, -, hfull⟩ := hfit p (hin p hp)
        exact hfull hd) _ _ _ hr
    refine ⟨ho', fun p hp => ?_⟩
    rcases List.mem_append.mp hp with hp | hp
    · obtain ⟨path, hf⟩ := hfit p hp
      exact ⟨path, hf.later ha⟩
    · exact hnew p hp

/-- Does the requests one after the other, as long as they name what exists and was handed out. -/
def serve (config : Config) : List Request → Environment → List PackageId →
    Option (Environment × List PackageId)
  | [], env, handed => some (env, handed)
  | r :: rs, env, handed =>
    if r.Names env ∧ ∀ p ∈ r.packages, p ∈ handed then
      match r.run config ⟨env, .empty⟩ with
      | .ok (a, s) => serve config rs s.env (handed ++ a.packages)
      | .error _ => none
    else none

theorem serves_of_serve : ∀ {rs : List Request} {env : Environment} {handed : List PackageId}
    {last : Environment × List PackageId}, Serves config env handed →
    serve config rs env handed = some last → Serves config last.1 last.2
  | [], env, handed, last, h0, h => by
    cases h
    exact h0
  | r :: rs, env, handed, last, h0, h => by
    rw [serve] at h
    split at h
    · next hr =>
      split at h
      · next a s hrun => exact serves_of_serve (.request h0 hr.1 hr.2 hrun) h
      · cases h
    · cases h

end Environment

end SplitPackages
