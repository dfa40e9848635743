import SplitPackages.Proofs.Stock
import SplitPackages.World.Build

/-!
# Which worlds can be built

Every part of building is shown to do to the declarations of a module what the entry's lists do to
a `Stock` (`Follows`): it goes on if and only if the stock does, and the shapes afterwards are those
of the new stock. The parts are put together as building puts them together, by sequence
(`Follows.bind`) and in loops (`Follows.forM`), so that the contents of a module follow
`ModuleEntry.fill` (`contents_follows`) and leave all other modules alone.

So a world can be built if and only if each of its entries is consistent, and the modules are then
what their entries say (`build_ok_iff_consistent`).
-/

namespace SplitPackages

open Environment

namespace World

/-- The modules of the world are there, under their positions. -/
structure Ready (w : World) (env : Environment) : Prop where
  graph : env.Graph
  names : ∀ i e, w.modules[i]? = some e → env.moduleName ⟨i⟩ = .ok e.name

variable {w : World} {env after : Environment}

theorem Ready.later {m : ModuleId} {S : Shapes} (h : w.Ready env) (hb : env.Raises after)
    (hre : env.Reshapes m S after) : w.Ready after where
  graph := hb.graph h.graph
  names i e he := (hre.names _).trans (h.names i e he)

theorem Ready.module (h : w.Ready env) {i : Nat} (hi : i < w.modules.length) :
    ∃ record, env.module ⟨i⟩ = .ok record := by
  have hname := h.names i _ (List.getElem?_eq_getElem hi)
  unfold moduleName at hname
  cases hm : env.module ⟨i⟩ with
  | error e => rw [hm] at hname; cases hname
  | ok record => exact ⟨record, rfl⟩

end World

namespace Building

variable {α β : Type} {w : World} {m : ModuleId} {env mid after : Environment}

/-- What the building does to a module whose declarations are as in a stock is what the step does
to the stock. -/
def Follows (w : World) (m : ModuleId) (act : Building α) (step : Stock → Option Stock) : Prop :=
  ∀ env K, w.Ready env → (∃ record, env.module m = .ok record) → env.shape? m = K.shapes →
    Update.Ensures act.run env fun result after =>
      env.Raises after ∧ env.Meets m ((step K).map Stock.shapes) result after

theorem ensures_bind {act : Building α} {f : α → Building β}
    {P : Except WorldError α → Environment → Prop} {Q : Except WorldError β → Environment → Prop}
    (h : Update.Ensures act.run env P)
    (hok : ∀ a mid, P (.ok a) mid → Update.Ensures (f a).run mid Q)
    (herror : ∀ e mid, P (.error e) mid → Q (.error e) mid) :
    Update.Ensures (act >>= f).run env Q := by
  refine Update.Ensures.bind h fun result mid hp => ?_
  cases result with
  | ok a => exact hok a mid hp
  | error e => exact Update.Ensures.pure (herror e mid hp)

theorem ensures_update {u : Update α} {P : α → Environment → Prop} (h : u.Ensures env P) :
    Update.Ensures (update u).run env fun result after => ∃ a, result = .ok a ∧ P a after :=
  Update.Ensures.bind h fun a _ hp => Update.Ensures.pure ⟨a, rfl, hp⟩

theorem ensures_accept {u : Update (Except GraphError α)}
    {P : Except GraphError α → Environment → Prop} {Q : Except WorldError α → Environment → Prop}
    (h : u.Ensures env P) (hok : ∀ a after, P (.ok a) after → Q (.ok a) after)
    (herror : ∀ e after, P (.error e) after → Q (.error (.graph e)) after) :
    Update.Ensures (accept u).run env Q := by
  refine ensures_bind (ensures_update h) ?_ ?_
  · rintro result mid ⟨_, ⟨⟩, hp⟩
    cases result with
    | ok a => exact Update.Ensures.pure (hok a mid hp)
    | error e => exact Update.Ensures.pure (herror e mid hp)
  · rintro e mid ⟨_, ⟨⟩, -⟩

variable {act : Building α} {f : α → Building β} {step step' : Stock → Option Stock}

theorem Follows.bind (h : Follows w m act step) (h2 : ∀ a, Follows w m (f a) step') :
    Follows w m (act >>= f) fun K => (step K).bind step' := by
  intro env K hw hm hK
  show Update.Ensures _ env fun result after =>
    env.Raises after ∧ env.Meets m (((step K).bind step').map Stock.shapes) result after
  refine ensures_bind (h env K hw hm hK) ?_ ?_
  · rintro a mid ⟨hb, S, hS, hre⟩
    obtain ⟨K', hK', rfl⟩ := Option.map_eq_some_iff.mp hS
    obtain ⟨record, hrec⟩ := hm
    obtain ⟨record', hrec', -⟩ := hb.extends.module hrec
    obtain ⟨result, after, hrun, hb', hmeets⟩ :=
      h2 a mid K' (hw.later hb hre) ⟨record', hrec'⟩ hre.self
    rw [hK']
    exact ⟨result, after, hrun, hb.trans hb', Meets.trans hre hmeets⟩
  · rintro e mid ⟨hb, hnone⟩
    have hnone : step K = none := Option.map_eq_none_iff.mp hnone
    exact ⟨hb, by rw [hnone]; rfl⟩

theorem Follows.pure (a : α) : Follows w m (Pure.pure a) some := fun _ _ _ _ hK =>
  Update.Ensures.pure ⟨.refl, _, rfl, hK ▸ reshapes_of_same (fun _ => rfl) fun _ _ => rfl⟩

theorem Follows.throw (e : WorldError) :
    Follows w m (MonadExcept.throw e : Building α) fun _ => none := fun _ _ _ _ _ =>
  Update.Ensures.pure ⟨.refl, rfl⟩

theorem Follows.discard (h : Follows w m act step) :
    Follows w m (Functor.discard act : Building PUnit) step := by
  have hact : (Functor.discard act : Building PUnit) = act >>= fun _ => Pure.pure ⟨⟩ := rfl
  have hstep : (fun K => (step K).bind some) = step := funext fun K => Option.bind_fun_some _
  rw [hact, ← hstep]
  exact h.bind fun _ => Follows.pure PUnit.unit

/-- A change that leaves the shapes alone. -/
theorem Follows.update {u : Update α} (h : ∀ env, w.Ready env →
    (∃ record, env.module m = .ok record) → u.Ensures env fun _ after =>
      env.Raises after ∧ env.Reshapes m (env.shape? m) after) :
    Follows w m (update u) some := by
  intro env K hw hm hK
  obtain ⟨_, after, hrun, a, rfl, hb, hre⟩ := ensures_update (h env hw hm)
  exact ⟨_, after, hrun, hb, _, rfl, hK ▸ hre⟩

theorem Follows.accept {u : Update (Except GraphError α)} (h : ∀ env K, env.Graph →
    (∃ record, env.module m = .ok record) → env.shape? m = K.shapes →
    u.Ensures env fun result after =>
      env.Raises after ∧ env.Meets m ((step K).map Stock.shapes) result after) :
    Follows w m (accept u) step := fun env K hw hm hK =>
  ensures_accept (h env K hw.graph hm hK) (fun _ _ hr => hr) fun _ _ hr => hr

theorem Follows.path {f : Path → Building β} {s : String} {step : Stock → Path → Option Stock}
    (h : ∀ p, Follows w m (f p) fun K => step K p) :
    Follows w m (Building.path s >>= f) fun K => (Path.parse? s).bind (step K) := by
  unfold Building.path Path.parse?
  cases Path.parse s with
  | ok p => exact h p
  | error e => exact Follows.throw (.graph e)

theorem Follows.target {f : ModuleId → Building β} {reader name : String}
    (h : ∀ i, i < w.modules.length → Follows w m (f ⟨i⟩) step) :
    Follows w m (Building.target w reader name >>= f) fun K =>
      (w.position? name).bind fun _ => step K := by
  unfold Building.target World.position?
  cases hi : w.modules.findIdx? (·.name = name) with
  | some i => exact h i (List.findIdx?_eq_some_iff_findIdx_eq.mp hi).1
  | none => exact Follows.throw (.unknownModule reader name)

/-- A loop over texts goes through them as the stock does. -/
theorem Follows.forM {act : String → Building PUnit} {read : String → Option α}
    {step : Stock → α → Option Stock}
    (h : ∀ text, Follows w m (act text) fun K => (read text).bind (step K)) (texts : List String) :
    Follows w m (texts.forM act) fun K => K.each read step texts := by
  induction texts with
  | nil => exact Follows.pure _
  | cons text texts ih => exact (h text).bind fun _ => ih

/-- A package that is accepted is there under the identifier that is given for it. -/
theorem acceptPackage_ensures (hg : env.Graph) (hm : ∃ record, env.module m = .ok record)
    (p : Path) : Update.Ensures (accept (.declarePackage m p)).run env fun result mid =>
      env.Raises mid ∧ env.Meets m ((env.shape? m).package p) result mid ∧
        ∀ id, result = .ok id → mid.IsOwn m p id := by
  refine ensures_accept ((declarePackage_meets hg hm p).and (declarePackage_spec hg hm p)) ?_ ?_
  · rintro id mid ⟨hmeets, hb, -, hown⟩
    exact ⟨hb, hmeets, fun id' e => hown id' (by cases e; rfl)⟩
  · rintro e mid ⟨hmeets, hb, -⟩
    exact ⟨hb, hmeets, fun id' e => by cases e⟩

/-- A package is declared, and marked as missing types. -/
theorem markFresh_meets (hg : env.Graph) (hm : ∃ record, env.module m = .ok record) (p : Path)
    (hnone : env.shape? m p = none) : Update.Ensures
      (ExceptT.run (do update (.markMissing (← accept (.declarePackage m p))) : Building Unit)) env
      fun result after =>
        env.Raises after ∧ env.Meets m ((env.shape? m).missing p) result after := by
  rw [Shapes.missing, if_neg (by rw [hnone]; exact Bool.false_ne_true)]
  refine ensures_bind (acceptPackage_ensures hg hm p) ?_ ?_
  · rintro id mid ⟨hb, ⟨T, hT, hre⟩, hown⟩
    have hgmid := hb.graph hg
    obtain ⟨r, hd, hr⟩ := hgmid.declared_of_isOwn (hown id rfl)
    obtain ⟨_, after, hrun, _, rfl, hb', hre'⟩ := ensures_update (markMissing_places hgmid hd hr)
    have h := hre.trans hre'
    rw [hre.self] at h
    exact ⟨_, after, hrun, hb.trans hb', _, by rw [hT, Option.map_some], h⟩
  · rintro e mid ⟨hb, hT, -⟩
    exact ⟨hb, Option.map_eq_none_iff.mpr hT⟩

theorem markMissing_follows (m : ModuleId) (p : Path) :
    Follows w m (Building.markMissing m p) fun K => K.missing p := by
  intro env K hw hm hK
  rw [← Stock.missing_shapes, ← hK]
  obtain ⟨record, hrec⟩ := id hm
  have hd : env.declared m p = .ok (record.declared.get? p) := declared_of_module hrec
  refine ensures_bind (ensures_update (P := fun id mid => id = record.declared.get? p ∧ env = mid)
    ⟨_, env, Update.ask_ok hd, rfl, rfl⟩) ?_ ?_
  · rintro id _ ⟨_, ⟨⟩, rfl, rfl⟩
    cases hget : record.declared.get? p with
    | some id =>
      rw [hget] at hd
      obtain ⟨r, hr, -⟩ := hw.graph.declared hd
      obtain ⟨_, after, hrun, _, rfl, hb, hre⟩ :=
        ensures_update (markMissing_places hw.graph hd hr)
      exact ⟨_, after, hrun, hb, _, if_pos (by rw [shape?_of_declared hd hr]; rfl), hre⟩
    | none => exact markFresh_meets hw.graph hm p (shape?_of_undeclared (hget ▸ hd))
  · rintro e _ ⟨_, ⟨⟩, -⟩

/-- Reading a module, in either way, needs one of that name and declares nothing. -/
theorem reads_follow {u : ModuleId → Update Unit} (hu : ∀ env, env.Graph →
      (∃ record, env.module m = .ok record) → ∀ target, (∃ record, env.module target = .ok record) →
      (u target).Ensures env fun _ after => env.Raises after ∧ env.Reshapes m (env.shape? m) after)
    (reader : String) (names : List String) : Follows w m
      (names.forM fun name => do Building.update (u (← Building.target w reader name)))
      fun K => K.each w.position? (fun K _ => some K) names :=
  Follows.forM (fun _ => Follows.target fun _ hi =>
    Follows.update fun env hw hm => hu env hw.graph hm _ (hw.module hi)) names

theorem exports_follow (texts : List String) : Follows w m
    (texts.forM fun s => do Building.update (.addExport m (← Building.path s)))
    fun K => K.each Path.parse? (fun K _ => some K) texts :=
  Follows.forM (fun _ => Follows.path fun p => Follows.update fun _ hw hm =>
    ((addExport_raises hw.graph hm p).and (addExport_reshapes hm p)).mono fun _ _ h => ⟨h.1.1, h.2⟩)
    texts

theorem packages_follow (texts : List String) : Follows w m
    (texts.forM fun s => do discard <| Building.accept (.declarePackage m (← Building.path s)))
    fun K => K.each Path.parse? Stock.package texts := by
  refine Follows.forM (fun _ => Follows.path fun p => (Follows.accept ?_).discard) texts
  intro env K hg hm hK
  have h := declarePackage_meets hg hm p
  rw [hK, Stock.package_shapes] at h
  exact (h.and (declarePackage_spec hg hm p)).mono fun _ _ h => ⟨h.2.1, h.1⟩

theorem problems_follow (texts : List String) : Follows w m
    (texts.forM fun s => do discard <| Building.accept (.declareProblem m (← Building.path s)))
    fun K => K.each Path.parse? Stock.problem texts := by
  refine Follows.forM (fun _ => Follows.path fun p => (Follows.accept ?_).discard) texts
  intro env K hg hm hK
  have h := declareProblem_meets hg hm p
  rw [hK, Stock.problem_shapes] at h
  exact (h.and (declareProblem_spec hm p)).mono fun _ _ h => ⟨h.2.1, h.1⟩

theorem types_follow (texts : List String) : Follows w m
    (texts.forM fun s => do discard <| Building.accept (.declareType m s))
    fun K => K.each Path.splitTypeName? Stock.type texts := by
  refine Follows.forM (fun s => (Follows.accept ?_).discard) texts
  intro env K hg hm hK
  have h := declareType_meets hg hm s
  have htypes : (Path.splitTypeName s).toOption.bind (env.shape? m).type =
      ((Path.splitTypeName? s).bind K.type).map Stock.shapes := by
    unfold Path.splitTypeName?
    cases (Path.splitTypeName s).toOption with
    | none => rfl
    | some t => rw [Option.bind_some, Option.bind_some, hK, Stock.type_shapes]
  rw [htypes] at h
  exact (h.and (declareType_spec hg hm s)).mono fun _ _ h => ⟨h.2.1, h.1⟩

/-- The contents of a module are declared just as the lists of the entry fill a stock. -/
theorem contents_follows (w : World) (e : ModuleEntry) (m : ModuleId) :
    Follows w m (contents w e m) (e.fill w) := by
  have hreads := reads_follow (w := w) (m := m) (u := .addRead m) (fun env hg hm target ht =>
    ((addRead_raises hg hm ht).and (addRead_reshapes hm target)).mono fun _ _ h => ⟨h.1.1, h.2⟩)
    e.name e.reads
  have htransitive := reads_follow (w := w) (m := m) (u := .addTransitiveRead m)
    (fun env hg hm target ht => ((addTransitiveRead_raises hg hm ht).and
      (addTransitiveRead_reshapes hm target)).mono fun _ _ h => ⟨h.1.1, h.2⟩)
    e.name e.transitiveReads
  have hmissing : Follows w m
      (e.missingTypes.forM fun s => do Building.markMissing m (← Building.path s))
      fun K => K.each Path.parse? Stock.missing e.missingTypes :=
    Follows.forM (fun _ => Follows.path (markMissing_follows m)) e.missingTypes
  exact hreads.bind fun _ => htransitive.bind fun _ => (exports_follow e.exports).bind fun _ =>
    (packages_follow e.packages).bind fun _ => (problems_follow e.problemPackages).bind fun _ =>
      (types_follow e.types).bind fun _ => hmissing

/-- What comes of the contents of the modules from a position on. -/
def Fills (w : World) (position : Nat) (es : List ModuleEntry) (env : Environment) :
    Except WorldError Unit → Environment → Prop
  | .ok _, after => w.Ready after ∧ (∀ i, i < position → after.shape? ⟨i⟩ = env.shape? ⟨i⟩) ∧
      ∀ i e, es[i]? = some e → ∃ K, e.stock? w = some K ∧ after.shape? ⟨position + i⟩ = K.shapes
  | .error _, _ => ∃ e ∈ es, e.stock? w = none

theorem allContents_fills (es : List ModuleEntry) (position : Nat) (hw : w.Ready env)
    (hes : ∀ i e, es[i]? = some e → w.modules[position + i]? = some e)
    (hempty : ∀ i, i < es.length → env.shape? ⟨position + i⟩ = Stock.empty.shapes) :
    Update.Ensures (allContents w position es).run env (Fills w position es env) := by
  induction es generalizing position env with
  | nil => exact Update.Ensures.pure ⟨hw, fun _ _ => rfl, fun i e h => by cases h⟩
  | cons e es ih =>
    have hposition : position < w.modules.length :=
      (List.getElem?_eq_some_iff.mp (hes 0 e rfl)).1
    refine ensures_bind (contents_follows w e ⟨position⟩ env .empty hw (hw.module hposition)
      (hempty 0 (by simp))) ?_ ?_
    · rintro - mid ⟨hb, S, hS, hre⟩
      obtain ⟨K, hK, rfl⟩ := Option.map_eq_some_iff.mp hS
      have hnext (i : Nat) : position + 1 + i = position + (i + 1) := by omega
      have hother (i : Nat) (h : i ≠ position) : mid.shape? ⟨i⟩ = env.shape? ⟨i⟩ :=
        hre.others _ fun e => h (congrArg ModuleId.index e)
      obtain ⟨result, after, hrun, h⟩ := ih (position + 1) (hw.later hb hre)
        (fun i e' h => hnext i ▸ hes (i + 1) e' h) fun i hi => by
          rw [hnext, hother _ (by omega)]
          exact hempty (i + 1) (by simpa using hi)
      refine ⟨result, after, hrun, ?_⟩
      cases result with
      | error err =>
        obtain ⟨e', he', hnone⟩ := h
        exact ⟨e', List.mem_cons_of_mem _ he', hnone⟩
      | ok _ =>
        obtain ⟨hready, hbefore, hfilled⟩ := h
        refine ⟨hready, fun i hi => ?_, fun i e' he' => ?_⟩
        · rw [hbefore i (by omega), hother i (by omega)]
        · cases i with
          | zero =>
            cases he'
            exact ⟨K, hK, (hbefore position (by omega)).trans hre.self⟩
          | succ i =>
            obtain ⟨K', hK', hshape⟩ := hfilled i e' he'
            exact ⟨K', hK', hnext i ▸ hshape⟩
    · rintro err mid ⟨-, hnone⟩
      exact ⟨e, List.mem_cons_self, Option.map_eq_none_iff.mp hnone⟩

/-- First all modules are there, and declare nothing. -/
theorem addModules_ensures (es : List ModuleEntry) : Update.Ensures
    (ExceptT.run (es.forM fun e => do
      discard <| Building.update (.addModule e.name e.unnamed) : Building PUnit)) env
    fun result after => (∃ u, result = .ok u) ∧ env.Raises after ∧
      after.modules = env.modules ++ (es.map fun e => Module.fresh e.name e.unnamed).toArray := by
  induction es generalizing env with
  | nil => exact Update.Ensures.pure ⟨⟨_, rfl⟩, .refl, by simp⟩
  | cons e es ih =>
    let mid : Environment := { env with modules := env.modules.push (.fresh e.name e.unnamed) }
    obtain ⟨result, after, hrun, hok, hb, hmodules⟩ := @ih mid
    refine ⟨result, after, hrun, hok, .head (.module e.name e.unnamed) hb, ?_⟩
    rw [hmodules]
    simp [mid]

end Building

namespace ModuleEntry

/-- The module has been built as the entry says. -/
structure Realized (e : ModuleEntry) (env : Environment) (m : ModuleId) : Prop where
  name : env.moduleName m = .ok e.name
  declares : ∀ q, env.Declares m q ↔
    ∃ p ∈ e.packagePaths ++ e.problemPaths ++ e.typePaths ++ e.missingPaths, q.isPrefixOf p = true
  problem : ∀ q, (∃ r, env.own? m q = some r ∧ r.kind = .problem) ↔ q ∈ e.problemPaths
  tainted : ∀ q, (∃ r, env.own? m q = some r ∧ r.missingType = true) ↔ q ∈ e.missingPaths
  unit : ∀ q r, env.own? m q = some r → r.isPlain = true →
    (r.hasUnit = true ↔ q ∈ e.packagePaths ∨ q ∈ e.typePaths ∨ e.Introduces q)

variable {w : World} {e : ModuleEntry} {env : Environment} {m : ModuleId} {K : Stock} {q : Path}

theorem introduces_iff : e.declarations.Introduces e.missingPaths q ↔ e.Introduces q := by
  unfold Stock.Introduces Introduces
  refine exists_congr fun before => exists_congr fun after => and_congr_right fun _ => ?_
  simp only [Stock.covers_eq_false, Stock.roots, declarations, ModuleEntry.typePaths,
    List.forall_mem_append]
  tauto

theorem mem_missingPaths (h : e.Introduces q) : q ∈ e.missingPaths := by
  obtain ⟨before, after, hm, -⟩ := h
  simp [hm]

theorem stock?_realized (hg : env.Graph) (hname : env.moduleName m = .ok e.name)
    (hK : e.stock? w = some K) (hshape : env.shape? m = K.shapes) : e.Realized env m := by
  obtain ⟨units, hKe, hunits⟩ := (e.stock?_spec w).2 K hK
  simp only [introduces_iff] at hunits
  have hroots (p : Path) : p ∈ K.roots ↔
      p ∈ e.packagePaths ++ e.problemPaths ++ e.typePaths ++ e.missingPaths := by
    have := @mem_missingPaths e p
    rw [Stock.mem_roots, hKe]
    simp only [declarations, List.mem_append, hunits, typePaths]
    tauto
  have hcovers {p : Path} (h : p ∈ e.problemPaths ∨ p ∈ e.missingPaths) : K.covers p = true :=
    Stock.covers_of_mem ((hroots p).mpr (by simp only [List.mem_append]; tauto))
  have hdetail {q : Path} {r : Package} (hr : env.own? m q = some r) :
      r.isSplit = false ∧ r.shape = K.detail q := (Stock.own?_of_shapes hg hshape q).2 r hr
  refine ⟨hname, fun q => ?_, fun q => ?_, fun q => ?_, fun q r hr hpl => ?_⟩
  · rw [← hg.shape?_isSome, hshape, Stock.isSome_shapes, Stock.covers_iff]
    simp only [hroots]
  · refine Stock.exists_own?_iff hg hshape (fun hq => hcovers (.inl hq)) fun r hr => ?_
    have hplain : r.isPlain = (K.detail q).plain := congrArg Shape.plain (hdetail hr).2
    rw [Package.kind_eq_problem_iff (hdetail hr).1, hplain, hKe]
    simp [Stock.detail, declarations]
  · refine Stock.exists_own?_iff hg hshape (fun hq => hcovers (.inr hq)) fun r hr => ?_
    have htainted : r.missingType = (K.detail q).tainted := congrArg Shape.tainted (hdetail hr).2
    rw [htainted, hKe]
    simp [Stock.detail]
  · have hunit : r.hasUnit = (K.detail q).unit := congrArg Shape.unit (hdetail hr).2
    rw [hunit, hKe]
    simp [Stock.detail, declarations, hunits]

end ModuleEntry

namespace World

theorem populate_fills (w : World) : Update.Ensures w.populate.run .empty
    (Building.Fills w 0 w.modules .empty) := by
  refine Building.ensures_bind (Building.addModules_ensures w.modules) ?_ ?_
  · rintro _ mid ⟨-, hb, hmodules⟩
    have hmodule {i : Nat} {e : ModuleEntry} (he : w.modules[i]? = some e) :
        mid.module ⟨i⟩ = .ok (.fresh e.name e.unnamed) := by
      simp [Environment.module, hmodules, Environment.empty, he]
    have hready : w.Ready mid :=
      ⟨hb.graph coherent_empty.graph, fun i e he => moduleName_of_module (hmodule he)⟩
    obtain ⟨result, after, hrun, h⟩ := Building.allContents_fills w.modules 0 hready
      (fun i e he => by rwa [Nat.zero_add]) fun i hi => by
        funext q
        rw [Nat.zero_add, shape?_of_undeclared
          (declared_of_module (hmodule (List.getElem?_eq_getElem hi)))]
        rfl
    refine ⟨result, after, hrun, ?_⟩
    cases result with
    | ok _ => exact ⟨h.1, fun i hi => absurd hi (Nat.not_lt_zero i), h.2.2⟩
    | error _ => exact h
  · rintro err mid ⟨⟨_, ⟨⟩⟩, -⟩

/-- Building never faults. It succeeds if and only if every entry of the world is consistent, and
then every module is as its entry says. -/
theorem build_ok_iff_consistent (w : World) : ∃ result, w.build = .ok result ∧
    ((∃ env, result = .ok env) ↔ ∀ e ∈ w.modules, e.Consistent w) ∧
    ∀ env, result = .ok env → ∀ (i : Nat) (e : ModuleEntry), w.modules[i]? = some e →
      e.Realized env ⟨i⟩ := by
  obtain ⟨result, after, hrun, hfills⟩ := w.populate_fills
  have hbuild : w.build = .ok (result.map fun _ => after) := by
    unfold build
    rw [hrun]
    rfl
  refine ⟨_, hbuild, ?_, ?_⟩
  · cases result with
    | ok _ =>
      refine iff_of_true ⟨after, rfl⟩ fun e he => ?_
      obtain ⟨i, hi⟩ := List.mem_iff_getElem?.mp he
      obtain ⟨K, hK, -⟩ := hfills.2.2 i e hi
      exact (e.stock?_spec w).1.mp (by rw [hK]; rfl)
    | error err =>
      obtain ⟨e, he, hnone⟩ := hfills
      refine iff_of_false (by rintro ⟨env, ⟨⟩⟩) fun h => ?_
      have hsome := (e.stock?_spec w).1.mpr (h e he)
      rw [hnone] at hsome
      cases hsome
  · cases result with
    | ok _ =>
      rintro env ⟨⟩ i e he
      obtain ⟨hready, -, hstock⟩ := hfills
      obtain ⟨K, hK, hshape⟩ := hstock i e he
      rw [Nat.zero_add] at hshape
      exact ModuleEntry.stock?_realized hready.graph (hready.names i e he) hK hshape
    | error err => rintro env ⟨⟩

/-- A world of one module with these problems. -/
def ofProblems (paths : List String) : World :=
  ⟨.standard, [{ ModuleEntry.named "a" with problemPackages := paths }]⟩

/-- A problem may be declared below another one, but not above it. -/
example : (ofProblems ["com", "com.foo"]).build.toOption.map Except.isOk = some true ∧
    (ofProblems ["com.foo", "com"]).build.toOption.map Except.isOk = some false := by
  decide +kernel

end World

end SplitPackages
