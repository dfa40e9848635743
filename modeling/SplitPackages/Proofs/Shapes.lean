import SplitPackages.Proofs.Forest

/-!
# What declarations make of bindings

The `Shape` of a binding is the part of it that declarations decide: whether it is plain, whether
it has a compilation unit, whether it is tainted, and the types in it. `shape?` gives the shape of
the binding that a module itself declares at a path.

A declaration changes the shapes of one module only, and in one way (`place`): the enclosing paths
that were not declared become placeholders, and the shape at the path itself is changed, that of a
placeholder if nothing was there. Whether it is refused depends on the shape at the path alone.
-/

namespace SplitPackages

structure Shape where
  plain : Bool
  unit : Bool
  tainted : Bool
  types : List String

/-- The shapes of the bindings that one module declares. -/
abbrev Shapes := Path → Option Shape

def Package.shape (r : Package) : Shape := ⟨r.isPlain, r.hasUnit, r.missingType, r.types.keys⟩

theorem Package.kind_eq_problem_iff {r : Package} (hs : r.isSplit = false) :
    r.kind = .problem ↔ r.isPlain = false := by
  obtain ⟨_, _, _, _, _, _, kind⟩ := r
  cases kind with
  | plain plain => simp [isPlain, plain?]
  | split split => cases hs
  | problem => simp [isPlain, plain?]

namespace Shape

/-- An enclosing package that is there only for what is below it. -/
def placeholder : Shape := ⟨true, false, false, []⟩

def withUnit (s : Shape) : Shape := { s with unit := true }

def asProblem (s : Shape) : Shape := { s with plain := false }

def withType (name : String) (s : Shape) : Shape := { s with types := s.types ++ [name] }

def asTainted (s : Shape) : Shape := { s with tainted := true }

end Shape

namespace Shapes

/-- With placeholders for what encloses the path. -/
def enclose (S : Shapes) (path : Path) : Shapes := fun q =>
  (S q).or (if q.isPrefixOf path && q ≠ path then some .placeholder else none)

/-- With one more declaration of the path, that changes its shape. -/
def place (S : Shapes) (path : Path) (f : Shape → Shape) : Shapes := fun q =>
  if q = path then some (f ((S path).getD .placeholder)) else S.enclose path q

/-- Only a plain binding can be declared as a package. -/
def package (S : Shapes) (path : Path) : Option Shapes :=
  if (S path).all (·.plain) then some (S.place path .withUnit) else none

/-- Nothing that is declared can be declared as a problem. -/
def problem (S : Shapes) (path : Path) : Option Shapes :=
  if (S path).isNone then some (S.place path .asProblem) else none

/-- A type declares its package, that must not have one of its name. -/
def type (S : Shapes) (t : Path × String) : Option Shapes :=
  (S.package t.1).bind fun T =>
    if t.2 ∈ ((T t.1).getD .placeholder).types then none else some (T.place t.1 (.withType t.2))

/-- A binding that is declared only now has a compilation unit. -/
def missing (S : Shapes) (path : Path) : Option Shapes :=
  if (S path).isSome then some (S.place path .asTainted)
  else (S.package path).map fun T => T.place path .asTainted

variable {S : Shapes} {path : Path} {f : Shape → Shape}

theorem enclose_self : S.enclose path path = S path := by
  simp [enclose]

theorem place_self : S.place path f path = some (f ((S path).getD .placeholder)) := if_pos rfl

theorem place_ne {q : Path} (h : q ≠ path) : S.place path f q = S.enclose path q := if_neg h

theorem enclose_enclose : (S.enclose path).enclose path = S.enclose path := by
  funext q
  unfold enclose
  split
  · cases S q <;> rfl
  · rw [Option.or_none, Option.or_none]

theorem place_enclose : (S.enclose path).place path f = S.place path f := by
  unfold place
  rw [enclose_enclose, enclose_self]

theorem enclose_of_enclosed
    (h : ∀ q : Path, q.isPrefixOf path = true → q ≠ path → (S q).isSome = true) :
    S.enclose path = S := by
  funext q
  unfold enclose
  split
  · next hq =>
    rw [Bool.and_eq_true, decide_eq_true_eq] at hq
    obtain ⟨s, hs⟩ := Option.isSome_iff_exists.mp (h q hq.1 hq.2)
    rw [hs, Option.some_or]
  · rw [Option.or_none]

/-- To enclose a path is to enclose the next one up, and to have that one too. -/
theorem enclose_sub (above : Path) (name : String) (q : Path) :
    S.enclose (.sub above name) q =
      if q = above then some ((S above).getD .placeholder) else S.enclose above q := by
  have hne : above ≠ .sub above name := fun e =>
    absurd (congrArg Path.length e) (by simp [Path.length])
  unfold enclose
  by_cases e : q = above
  · subst e
    rw [if_pos rfl, if_pos (by simp [Path.isPrefixOf, Path.isPrefixOf_refl, hne])]
    cases S q <;> rfl
  · rw [if_neg e]
    congr 2
    by_cases e' : q = .sub above name
    · subst e'
      have hlong : (Path.sub above name).isPrefixOf above = false := by
        rw [← Bool.not_eq_true, Path.isPrefixOf_iff]
        intro h
        have := h.length_le
        simp only [Path.length_segments, Path.length] at this
        omega
      simp [hlong]
    · simp [Path.isPrefixOf, e, e']

end Shapes

namespace Environment

/-- The record of the binding that the module itself declares at the path. -/
def own? (env : Environment) (m : ModuleId) (path : Path) : Option Package :=
  match env.declared m path with
  | .ok (some p) => (env.package p).toOption
  | _ => none

def shape? (env : Environment) (m : ModuleId) : Shapes := fun path =>
  (env.own? m path).map Package.shape

/-- The module's own declarations have come to have these shapes, and nothing else that is declared
has another shape. -/
structure Reshapes (env : Environment) (m : ModuleId) (shapes : Shapes) (after : Environment) :
    Prop where
  names : ∀ k, after.moduleName k = env.moduleName k
  self : after.shape? m = shapes
  others : ∀ k, k ≠ m → after.shape? k = env.shape? k

/-- The outcome is the expected one: new shapes, or a refusal. -/
def Meets (env : Environment) (m : ModuleId) (expected : Option Shapes) {ε α : Type} :
    Except ε α → Environment → Prop
  | .ok _, after => ∃ shapes, expected = some shapes ∧ env.Reshapes m shapes after
  | .error _, _ => expected = none

/-- What a module declares at the path in `mid` has the shape that it had in `env`. -/
def Finds (env : Environment) (m : ModuleId) (path : Path) (mid : Environment) :
    Option PackageId → Prop
  | none => mid.declared m path = .ok none ∧ env.shape? m path = none
  | some id => ∃ r, mid.declared m path = .ok (some id) ∧ mid.package id = .ok r ∧
      env.shape? m path = some r.shape

variable {env mid after : Environment} {m k : ModuleId} {path q : Path} {p : PackageId}
  {r fresh : Package} {record : Module} {S T : Shapes}

/-! ## Records by module and path -/

theorem own?_of_declared (hd : env.declared m path = .ok (some p)) (hr : env.package p = .ok r) :
    env.own? m path = some r := by
  simp only [own?, hd, hr]
  rfl

theorem own?_eq_some : env.own? m path = some r ↔
    ∃ p, env.declared m path = .ok (some p) ∧ env.package p = .ok r := by
  constructor
  · intro h
    unfold own? at h
    split at h
    · next p hd =>
      cases hp : env.package p with
      | error e => rw [hp] at h; cases h
      | ok r' => rw [hp] at h; cases h; exact ⟨p, hd, hp⟩
    · cases h
  · rintro ⟨p, hd, hr⟩
    exact own?_of_declared hd hr

theorem own?_of_not_declares (h : ¬ env.Declares m path) : env.own? m path = none := by
  refine Option.eq_none_iff_forall_ne_some.mpr fun r hr => h ?_
  obtain ⟨p, hd, -⟩ := own?_eq_some.mp hr
  exact ⟨p, hd⟩

theorem Graph.own?_isSome (hg : env.Graph) :
    (env.own? m path).isSome = true ↔ env.Declares m path := by
  constructor
  · intro h
    obtain ⟨r, hr⟩ := Option.isSome_iff_exists.mp h
    obtain ⟨p, hd, -⟩ := own?_eq_some.mp hr
    exact ⟨p, hd⟩
  · rintro ⟨p, hd⟩
    obtain ⟨r, hr, -⟩ := hg.declared hd
    rw [own?_of_declared hd hr]
    rfl

theorem shape?_of_declared (hd : env.declared m path = .ok (some p)) (hr : env.package p = .ok r) :
    env.shape? m path = some r.shape := by
  rw [shape?, own?_of_declared hd hr]
  rfl

theorem shape?_of_undeclared (hd : env.declared m path = .ok none) : env.shape? m path = none := by
  rw [shape?, own?_of_not_declares]
  · rfl
  · rintro ⟨p, hp⟩
    rw [hd] at hp
    cases hp

theorem Graph.shape?_isSome (hg : env.Graph) :
    (env.shape? m path).isSome = true ↔ env.Declares m path := by
  rw [shape?, Option.isSome_map, hg.own?_isSome]

/-- What encloses something declared is declared. -/
theorem Graph.enclose_shape? (hg : env.Graph) (hd : env.Declares m path) :
    (env.shape? m).enclose path = env.shape? m :=
  Shapes.enclose_of_enclosed fun q hq _ => hg.shape?_isSome.mpr (hg.declares_of_prefix hd q hq)

theorem Graph.declared_of_isOwn (hg : env.Graph) (h : env.IsOwn m path p) :
    ∃ r, env.declared m path = .ok (some p) ∧ env.package p = .ok r := by
  obtain ⟨r, hr, hpl, rfl, rfl⟩ := h
  exact ⟨r, hg.own hr (Package.isSplit_of_isPlain hpl), hr⟩

/-! ## Elementary changes -/

theorem Reshapes.trans (h : env.Reshapes m S mid) (h2 : mid.Reshapes m T after) :
    env.Reshapes m T after where
  names k := (h2.names k).trans (h.names k)
  self := h2.self
  others k hk := (h2.others k hk).trans (h.others k hk)

theorem Meets.trans {ε α : Type} {expected : Option Shapes} {result : Except ε α}
    (hre : env.Reshapes m S mid) (h : mid.Meets m expected result after) :
    env.Meets m expected result after := by
  cases result with
  | error e => exact h
  | ok a =>
    obtain ⟨T, hT, h⟩ := h
    exact ⟨T, hT, hre.trans h⟩

/-- Of the declarations only that of one path has another shape. -/
theorem reshapes_of_update {s : Shape} (hnames : ∀ k, after.moduleName k = env.moduleName k)
    (hself : after.own? m path = some r) (hs : r.shape = s)
    (hothers : ∀ k q, ¬ (k = m ∧ q = path) → after.own? k q = env.own? k q) :
    env.Reshapes m (fun q => if q = path then some s else env.shape? m q) after where
  names := hnames
  self := by
    funext q
    by_cases e : q = path
    · rw [if_pos e, shape?, e, hself, ← hs]
      rfl
    · rw [if_neg e, shape?, hothers m q (fun h => e h.2), shape?]
  others k hk := by
    funext q
    rw [shape?, hothers k q (fun h => hk h.1), shape?]

theorem reshapes_of_same (hnames : ∀ k, after.moduleName k = env.moduleName k)
    (hown : ∀ k q, after.own? k q = env.own? k q) : env.Reshapes m (env.shape? m) after where
  names := hnames
  self := by
    funext q
    rw [shape?, hown, shape?]
  others k _ := by
    funext q
    rw [shape?, hown, shape?]

theorem own?_congr (hd : after.declared m path = env.declared m path)
    (hp : after.packages = env.packages) : after.own? m path = env.own? m path := by
  simp only [own?, hd, package_congr hp]

/-- What a module reads or exports has no part in the shapes. -/
theorem setModule_reshapes (hm : ∃ record, env.module m = .ok record) {f : Module → Module}
    (hname : ∀ record, (f record).name = record.name)
    (hdecl : ∀ record, (f record).declared = record.declared) (k : ModuleId) :
    (Update.setModule m f).Ensures env fun _ after => env.Reshapes k (env.shape? k) after := by
  obtain ⟨record, hrec⟩ := hm
  obtain ⟨after, hset⟩ := setModule_ok hrec f
  have hself : after.module m = .ok (f record) := module_setModule_self hset hrec
  have hne {k : ModuleId} (hk : k ≠ m) : after.module k = env.module k :=
    module_setModule_ne hset hk
  refine ⟨(), after, Update.setModule_ok hset, reshapes_of_same (fun k => ?_) fun k q => ?_⟩
  · by_cases hk : k = m
    · rw [hk, moduleName_of_module hself, moduleName_of_module hrec, hname]
    · simp only [moduleName, hne hk]
  · refine own?_congr ?_ (packages_setModule hset)
    by_cases hk : k = m
    · rw [hk, declared_of_module hself, declared_of_module hrec, hdecl]
    · simp only [declared, hne hk]

theorem addRead_reshapes (hm : ∃ record, env.module m = .ok record) (target : ModuleId) :
    (Update.addRead m target).Ensures env fun _ after => env.Reshapes m (env.shape? m) after := by
  refine setModule_reshapes hm (fun record => ?_) (fun record => ?_) m
  · unfold Module.addRead
    split <;> rfl
  · unfold Module.addRead
    split <;> rfl

theorem addTransitiveRead_reshapes (hm : ∃ record, env.module m = .ok record) (target : ModuleId) :
    (Update.addTransitiveRead m target).Ensures env fun _ after =>
      env.Reshapes m (env.shape? m) after :=
  setModule_reshapes hm (f := (·.addTransitiveRead target)) (fun _ => rfl) (fun _ => rfl) m

theorem addExport_reshapes (hm : ∃ record, env.module m = .ok record) (path : Path) :
    (Update.addExport m path).Ensures env fun _ after => env.Reshapes m (env.shape? m) after :=
  setModule_reshapes hm (f := (·.addExport path)) (fun _ => rfl) (fun _ => rfl) m

/-- The binding at one path is changed. -/
theorem setPackage_reshapes (hg : env.Graph) (hd : env.declared m path = .ok (some p))
    (hr : env.package p = .ok r) (f : Package → Package) :
    (Update.setPackage p f).Ensures env fun _ after => env.Reshapes m
      (fun q => if q = path then some (f r).shape else env.shape? m q) after := by
  obtain ⟨after, hset⟩ := setPackage_ok hr f
  have hmod (k : ModuleId) : after.module k = env.module k :=
    module_congr (modules_setPackage hset) k
  have hdecl (k : ModuleId) (q : Path) : after.declared k q = env.declared k q := by
    simp only [declared, hmod]
  refine ⟨(), after, Update.setPackage_ok hset, reshapes_of_update (fun k => ?_)
    (own?_of_declared ((hdecl m path).trans hd) (package_setPackage_self hset hr)) rfl
    fun k q hne => ?_⟩
  · simp only [moduleName, hmod]
  · unfold own?
    rw [hdecl]
    cases hk : env.declared k q with
    | error e => rfl
    | ok id =>
      cases id with
      | none => rfl
      | some p' =>
        -- no other module and path have the same binding
        have hpp : p' ≠ p := by
          rintro rfl
          obtain ⟨r', hr', hpath, hhome, -⟩ := hg.declared hk
          obtain ⟨r'', hr'', hpath', hhome', -⟩ := hg.declared hd
          cases package_unique hr' hr''
          exact hne ⟨hhome.symm.trans hhome', hpath.symm.trans hpath'⟩
        simp only [package_setPackage_ne hset hpp]

/-- The binding at a path that is declared is changed. -/
theorem setPackage_places (hg : env.Graph) (hd : env.declared m path = .ok (some p))
    (hr : env.package p = .ok r) {f : Package → Package} {g : Shape → Shape}
    (hfg : (f r).shape = g r.shape) :
    (Update.setPackage p f).Ensures env fun _ after =>
      env.Reshapes m ((env.shape? m).place path g) after := by
  obtain ⟨_, after, hrun, h⟩ := setPackage_reshapes hg hd hr f
  refine ⟨(), after, hrun, h.names, ?_, h.others⟩
  rw [h.self, hfg]
  unfold Shapes.place
  rw [hg.enclose_shape? ⟨p, hd⟩, shape?_of_declared hd hr]
  rfl

theorem Inserts.reshapes (h : env.Inserts m record fresh after) (hg : env.Graph) :
    env.Reshapes m
      (fun q => if q = fresh.path then some fresh.shape else env.shape? m q) after := by
  refine reshapes_of_update (fun k => ?_) (own?_of_declared h.declared_new h.package_new) rfl
    fun k q hne => ?_
  · by_cases hk : k = m
    · rw [hk, moduleName_of_module h.self, moduleName_of_module h.before]
      rfl
    · simp only [moduleName, h.others hk]
  · have hdecl : after.declared k q = env.declared k q := by
      by_cases hk : k = m
      · subst hk
        rw [declared_of_module h.self, declared_of_module h.before, Module.declare,
          Table.get?_insert, if_neg]
        exact fun e => hne ⟨rfl, e.symm⟩
      · simp only [declared, h.others hk]
    unfold own?
    rw [hdecl]
    cases hk : env.declared k q with
    | error e => rfl
    | ok id =>
      cases id with
      | none => rfl
      | some p =>
        obtain ⟨r, hr, -⟩ := hg.declared hk
        simp only [h.package_old hr, hr]

/-! ## Declarations -/

theorem declareEnclosing_reshapes (hg : env.Graph) (hm : ∃ record, env.module m = .ok record) :
    ∀ path, (Update.declareEnclosing m path).Ensures env fun _ after =>
      env.Reshapes m ((env.shape? m).enclose path) after
  | .top name => by
    have hsame : (env.shape? m).enclose (.top name) = env.shape? m :=
      Shapes.enclose_of_enclosed fun q hq hne => absurd (of_decide_eq_true hq) hne
    rw [hsame]
    exact Update.Ensures.pure (reshapes_of_same (fun _ => rfl) fun _ _ => rfl)
  | .sub above name => by
    refine ((declareEnclosing_reshapes hg hm above).and (declareEnclosing_spec hm above)).bind ?_
    rintro parent mid ⟨hre, hb, -, -⟩
    have hgmid := hb.graph hg
    obtain ⟨record, hrec⟩ := hm
    obtain ⟨record', hrec', -⟩ := hb.extends.module hrec
    have hself : mid.shape? m above = env.shape? m above := by
      rw [hre.self, Shapes.enclose_self]
    have hd : mid.declared m above = .ok (record'.declared.get? above) := declared_of_module hrec'
    refine Update.Ensures.ask hd ?_
    cases hget : record'.declared.get? above with
    | some id =>
      rw [hget] at hd
      obtain ⟨r, hr, -⟩ := hgmid.declared hd
      refine Update.Ensures.pure ⟨hre.names, ?_, hre.others⟩
      funext q
      rw [hre.self, Shapes.enclose_sub]
      split
      · next e =>
        rw [e, Shapes.enclose_self, ← hself, shape?_of_declared hd hr]
        rfl
      · rfl
    | none =>
      rw [hget] at hd
      obtain ⟨after, hrun, h⟩ := insertDeclared_inserts hrec' hget parent (.inr ⟨false, rfl⟩)
      have h' := hre.trans (h.reshapes hgmid)
      refine ⟨_, after, Update.bind_ok hrun rfl, h'.names, ?_, h'.others⟩
      funext q
      rw [h'.self, Shapes.enclose_sub, hre.self, ← hself, shape?_of_undeclared hd]
      rfl

/-- Once all that encloses a path is declared, what is found there has been there before. -/
theorem declareEnclosing_finds (hg : env.Graph) (hm : ∃ record, env.module m = .ok record)
    (path : Path) : (Update.declareEnclosing m path).Ensures env fun _ mid => env.Raises mid ∧
      env.Reshapes m ((env.shape? m).enclose path) mid ∧
      ∃ found, mid.declared m path = .ok found ∧ env.Finds m path mid found := by
  refine ((declareEnclosing_reshapes hg hm path).and (declareEnclosing_spec hm path)).mono ?_
  rintro parent mid ⟨hre, hb, -, -⟩
  obtain ⟨record, hrec⟩ := hm
  obtain ⟨record', hrec', -⟩ := hb.extends.module hrec
  have hd : mid.declared m path = .ok (record'.declared.get? path) := declared_of_module hrec'
  have hself : mid.shape? m path = env.shape? m path := by
    rw [hre.self, Shapes.enclose_self]
  refine ⟨hb, hre, _, hd, ?_⟩
  cases hget : record'.declared.get? path with
  | none =>
    rw [hget] at hd
    exact ⟨hd, hself ▸ shape?_of_undeclared hd⟩
  | some id =>
    rw [hget] at hd
    obtain ⟨r, hr, -⟩ := (hb.graph hg).declared hd
    exact ⟨r, hd, hr, hself ▸ shape?_of_declared hd hr⟩

/-- A binding that the module does not declare yet. -/
theorem insertDeclared_places (hg : mid.Graph)
    (hre : env.Reshapes m ((env.shape? m).enclose path) mid) (hfinds : env.Finds m path mid none)
    (parent : Option PackageId) {kind : Kind}
    (hkind : kind = .problem ∨ ∃ unit, kind = .plain ⟨unit, .empty⟩) {f : Shape → Shape}
    (hf : (Package.fresh path parent m kind).shape = f .placeholder) :
    (Update.insertDeclared m path parent kind).Ensures mid
      fun _ after => env.Reshapes m ((env.shape? m).place path f) after := by
  obtain ⟨hd, hnone⟩ := hfinds
  obtain ⟨record, hrec, hget⟩ := module_of_declared hd
  obtain ⟨after, hrun, h⟩ := insertDeclared_inserts hrec hget parent hkind
  have h' := hre.trans (h.reshapes hg)
  refine ⟨_, after, hrun, h'.names, ?_, h'.others⟩
  rw [h'.self, hre.self, hf]
  funext q
  unfold Shapes.place
  rw [hnone]
  rfl

theorem shape_mapPlain (hpl : r.isPlain = true) :
    (r.mapPlain fun plain => { plain with hasUnit := true }).shape = r.shape.withUnit := by
  obtain ⟨plain, hk⟩ := Package.kind_of_isPlain hpl
  obtain ⟨_, _, _, _, _, _, kind⟩ := r
  cases hk
  rfl

theorem declarePackage_meets (hg : env.Graph) (hm : ∃ record, env.module m = .ok record)
    (path : Path) : (Update.declarePackage m path).Ensures env
      (env.Meets m ((env.shape? m).package path)) := by
  refine (declareEnclosing_finds hg hm path).bind ?_
  rintro parent mid ⟨hb, hre, found, hd, hfinds⟩
  refine Update.Ensures.ask hd ?_
  cases found with
  | none =>
    have hexpected : (env.shape? m).package path = some ((env.shape? m).place path .withUnit) :=
      if_pos (by rw [hfinds.2]; rfl)
    exact (insertDeclared_places (hb.graph hg) hre hfinds parent (.inr ⟨true, rfl⟩) rfl).bind
      fun id after h => Update.Ensures.pure ⟨_, hexpected, h⟩
  | some id =>
    obtain ⟨r, -, hr, hshape⟩ := hfinds
    refine Update.Ensures.ask hr ?_
    by_cases hpl : r.isPlain = true
    · rw [if_pos hpl]
      refine (setPackage_places (hb.graph hg) hd hr (shape_mapPlain hpl)).bind fun _ after h => ?_
      have h' := hre.trans h
      rw [hre.self, Shapes.place_enclose] at h'
      exact Update.Ensures.pure ⟨_, if_pos (hshape ▸ hpl), h'⟩
    · rw [if_neg hpl]
      refine (conflict_spec (Declares.module ⟨id, hd⟩) path).bind fun _ after e =>
        Update.Ensures.pure ?_
      exact if_neg (by rw [hshape]; exact hpl)

theorem declareProblem_meets (hg : env.Graph) (hm : ∃ record, env.module m = .ok record)
    (path : Path) : (Update.declareProblem m path).Ensures env
      (env.Meets m ((env.shape? m).problem path)) := by
  refine (declareEnclosing_finds hg hm path).bind ?_
  rintro parent mid ⟨hb, hre, found, hd, hfinds⟩
  refine Update.Ensures.ask hd ?_
  cases found with
  | none =>
    have hexpected : (env.shape? m).problem path = some ((env.shape? m).place path .asProblem) :=
      if_pos (by rw [hfinds.2]; rfl)
    exact (insertDeclared_places (hb.graph hg) hre hfinds parent (.inl rfl) rfl).bind
      fun id after h => Update.Ensures.pure ⟨_, hexpected, h⟩
  | some id =>
    obtain ⟨r, -, -, hshape⟩ := hfinds
    refine (conflict_spec (Declares.module ⟨id, hd⟩) path).bind fun _ after e =>
      Update.Ensures.pure ?_
    exact if_neg (by rw [hshape]; exact Bool.false_ne_true)

/-- A binding that does not know a type of that name is given one. -/
theorem addType_places {name : String} (hg : env.Graph) (hd : env.declared m path = .ok (some p))
    (hr : env.package p = .ok r) (hnew : name ∉ r.types.keys) :
    ∃ mid after, Update.addType ⟨name, p, m⟩ env = .ok (⟨env.types.size⟩, mid) ∧
      Update.setPackage p (fun record =>
        { record with types := record.types.insert name ⟨env.types.size⟩ }) mid = .ok ((), after) ∧
      env.Reshapes m ((env.shape? m).place path (.withType name)) after := by
  let mid : Environment := { env with types := env.types.push ⟨name, p, m⟩ }
  have hpush : Update.addType ⟨name, p, m⟩ env = .ok (⟨env.types.size⟩, mid) := rfl
  have hgmid : mid.Graph := (Raise.type ⟨name, p, m⟩).graph hg
  have hsame : env.Reshapes m (env.shape? m) mid :=
    reshapes_of_same (fun _ => rfl) fun _ _ => rfl
  obtain ⟨_, after, hrun, hre⟩ := setPackage_places hgmid hd ((package_congr rfl p).trans hr)
    (f := fun record => { record with types := record.types.insert name ⟨env.types.size⟩ })
    (g := .withType name) (by
      simp only [Package.shape, Shape.withType, Table.keys_insert, if_neg hnew]
      rfl)
  have h := hsame.trans hre
  rw [hsame.self] at h
  exact ⟨mid, after, hpush, hrun, h⟩

theorem declareType_meets (hg : env.Graph) (hm : ∃ record, env.module m = .ok record)
    (qualified : String) : (Update.declareType m qualified).Ensures env
      (env.Meets m ((Path.splitTypeName qualified).toOption.bind (env.shape? m).type)) := by
  unfold Update.declareType
  split
  · next e hs => exact Update.Ensures.pure (by rw [hs]; rfl)
  · next path name hs =>
    rw [hs]
    show Update.Ensures _ env (env.Meets m ((env.shape? m).type (path, name)))
    refine ((declarePackage_meets hg hm path).and (declarePackage_spec hg hm path)).bind ?_
    rintro result mid ⟨hmeets, hb, -, hown⟩
    cases result with
    | error e =>
      have hrefused : (env.shape? m).package path = none := hmeets
      exact Update.Ensures.pure (by rw [Shapes.type, hrefused]; rfl)
    | ok p =>
      obtain ⟨T, hT, hre⟩ := hmeets
      have hgmid := hb.graph hg
      obtain ⟨r, hd, hr⟩ := hgmid.declared_of_isOwn (hown p rfl)
      have htypes : ((T path).getD .placeholder).types = r.types.keys := by
        rw [← hre.self, shape?_of_declared hd hr]
        rfl
      have htype : (env.shape? m).type (path, name) = if name ∈ r.types.keys then none else
          some (T.place path (.withType name)) := by
        rw [Shapes.type, hT, Option.bind_some, htypes]
      have hcontains : r.types.contains name = true ↔ name ∈ r.types.keys := by
        rw [Table.mem_keys_iff, Table.contains, Option.isSome_iff_exists]
      refine Update.Ensures.ask hr ?_
      split
      · next hhas =>
        obtain ⟨record, hrec⟩ := hm
        obtain ⟨record', hrec', -⟩ := hb.extends.module hrec
        refine Update.Ensures.ask (moduleName_of_module hrec') (Update.Ensures.pure ?_)
        exact htype.trans (if_pos (hcontains.mp hhas))
      · next hno =>
        have hnew : name ∉ r.types.keys := fun h => hno (hcontains.mpr h)
        obtain ⟨typed, after, hadd, hset, hre2⟩ := addType_places hgmid hd hr hnew
        have h := hre.trans hre2
        rw [hre.self] at h
        exact ⟨_, after, Update.bind_ok hadd (Update.bind_ok hset rfl), _,
          htype.trans (if_neg hnew), h⟩

theorem markMissing_places (hg : env.Graph) (hd : env.declared m path = .ok (some p))
    (hr : env.package p = .ok r) : (Update.markMissing p).Ensures env fun _ after =>
      env.Raises after ∧ env.Reshapes m ((env.shape? m).place path .asTainted) after :=
  (markMissing_raises hg hr).and (setPackage_places hg hd hr rfl)

end Environment

end SplitPackages
