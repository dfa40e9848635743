import SplitPackages.Proofs.Shapes
import SplitPackages.World

/-!
# Declarations in lists

A `Stock` lists what a module has declared, kind by kind. It tells all shapes (`Stock.shapes`): what
is declared is what encloses a listed path, and the lists that a path is in say what its shape is.
One more declaration adds to the lists, unless they say that it is refused, and to the shapes it
does what declarations do (`package_shapes`, `problem_shapes`, `type_shapes`, `missing_shapes`).

A module entry declares its packages, problems, types and missing types one after the other
(`ModuleEntry.stock?`). All of them are accepted if and only if the entry is `Consistent`
(`stock?_spec`), a condition on the lists as a whole; the stock at the end then holds what the
entry lists.
-/

namespace SplitPackages

open Environment

/-- The paths that a module has declared by kind, each kind in the order of the declarations. -/
structure Stock where
  units : List Path
  problems : List Path
  types : List (Path × String)
  tainted : List Path

namespace Stock

def empty : Stock := ⟨[], [], [], []⟩

/-- All that is listed. -/
def roots (K : Stock) : List Path := K.units ++ K.problems ++ K.types.map Prod.fst ++ K.tainted

/-- Whether the path is declared: it is listed or encloses what is. -/
def covers (K : Stock) (path : Path) : Bool := K.roots.any path.isPrefixOf

/-- What the lists say of a path. -/
def detail (K : Stock) (path : Path) : Shape :=
  ⟨!K.problems.contains path, K.units.contains path, K.tainted.contains path,
    (K.types.filter (·.1 = path)).map Prod.snd⟩

def shapes (K : Stock) : Shapes := fun path => if K.covers path then some (K.detail path) else none

def package (K : Stock) (path : Path) : Option Stock :=
  if path ∈ K.problems then none else some { K with units := K.units ++ [path] }

def problem (K : Stock) (path : Path) : Option Stock :=
  if K.covers path then none else some { K with problems := K.problems ++ [path] }

def type (K : Stock) (t : Path × String) : Option Stock :=
  (K.package t.1).bind fun K =>
    if t ∈ K.types then none else some { K with types := K.types ++ [t] }

def taint (K : Stock) (path : Path) : Stock := { K with tainted := K.tainted ++ [path] }

def missing (K : Stock) (path : Path) : Option Stock :=
  if K.covers path then some (K.taint path) else (K.package path).map (·.taint path)

variable {K K' : Stock} {path p q : Path}

/-! ## Shapes -/

theorem mem_roots : path ∈ K.roots ↔ path ∈ K.units ∨ path ∈ K.problems ∨
    path ∈ K.types.map Prod.fst ∨ path ∈ K.tainted := by
  simp only [roots, List.mem_append, or_assoc]

theorem covers_iff : K.covers q = true ↔ ∃ p ∈ K.roots, q.isPrefixOf p = true := List.any_eq_true

theorem covers_eq_false : K.covers q = false ↔ ∀ p ∈ K.roots, q.isPrefixOf p = false := by
  simp [covers]

theorem covers_of_mem (h : path ∈ K.roots) : K.covers path = true :=
  covers_iff.mpr ⟨path, h, path.isPrefixOf_refl⟩

/-- Nothing is said of what is not declared. -/
theorem detail_of_not_covers (h : K.covers path = false) : K.detail path = .placeholder := by
  have hno : path ∉ K.roots := fun hm => by
    rw [covers_of_mem hm] at h
    cases h
  rw [mem_roots, not_or, not_or, not_or] at hno
  obtain ⟨hunits, hproblems, htypes, htainted⟩ := hno
  have hfilter : K.types.filter (·.1 = path) = [] := by
    rw [List.filter_eq_nil_iff]
    rintro t ht e
    exact htypes (List.mem_map.mpr ⟨t, ht, of_decide_eq_true e⟩)
  simp [detail, Shape.placeholder, hunits, hproblems, htainted, hfilter]

theorem getD_shapes (K : Stock) (path : Path) :
    (K.shapes path).getD .placeholder = K.detail path := by
  unfold shapes
  split
  · rfl
  · next h => exact (detail_of_not_covers (Bool.eq_false_iff.mpr h)).symm

theorem isSome_shapes : (K.shapes path).isSome = K.covers path := by
  unfold shapes
  cases K.covers path <;> rfl

theorem covers_eq (hroots : ∀ r, r ∈ K'.roots ↔ r ∈ K.roots ∨ r = path) (q : Path) :
    K'.covers q = (K.covers q || q.isPrefixOf path) := by
  rw [Bool.eq_iff_iff, Bool.or_eq_true, covers_iff, covers_iff]
  constructor
  · rintro ⟨r, hr, hq⟩
    rcases (hroots r).mp hr with hr | rfl
    · exact .inl ⟨r, hr, hq⟩
    · exact .inr hq
  · rintro (⟨r, hr, hq⟩ | hq)
    · exact ⟨r, (hroots r).mpr (.inl hr), hq⟩
    · exact ⟨path, (hroots path).mpr (.inr rfl), hq⟩

/-- To list a path is to declare it. -/
theorem shapes_place {f : Shape → Shape} (hroots : ∀ r, r ∈ K'.roots ↔ r ∈ K.roots ∨ r = path)
    (hothers : ∀ q, q ≠ path → K'.detail q = K.detail q)
    (hself : K'.detail path = f (K.detail path)) : K'.shapes = K.shapes.place path f := by
  funext q
  by_cases e : q = path
  · subst e
    rw [Shapes.place_self, getD_shapes, ← hself, shapes,
      if_pos (covers_of_mem ((hroots q).mpr (.inr rfl)))]
  · rw [Shapes.place_ne e, Shapes.enclose, shapes, shapes, covers_eq hroots, hothers q e]
    cases hq : K.covers q with
    | true => rfl
    | false => simp [e, detail_of_not_covers hq]

theorem package_shapes (K : Stock) (path : Path) :
    K.shapes.package path = (K.package path).map shapes := by
  have hplain : (K.shapes path).all (·.plain) = true ↔ path ∉ K.problems := by
    unfold shapes
    split
    · simp [detail]
    · next h => exact iff_of_true rfl fun hm => h (covers_of_mem (mem_roots.mpr (by simp [hm])))
  unfold Shapes.package package
  by_cases h : path ∈ K.problems
  · rw [if_pos h, if_neg (fun hp => hplain.mp hp h)]
    rfl
  · rw [if_neg h, if_pos (hplain.mpr h), Option.map_some]
    refine congrArg some (shapes_place (fun r => ?_) (fun q hq => ?_) ?_).symm
    · simp only [mem_roots, List.mem_append, List.mem_singleton]
      grind
    · simp [detail, hq]
    · simp [detail, Shape.withUnit]

theorem problem_shapes (K : Stock) (path : Path) :
    K.shapes.problem path = (K.problem path).map shapes := by
  unfold Shapes.problem problem
  rw [← Option.not_isSome, isSome_shapes]
  cases h : K.covers path with
  | true => rfl
  | false =>
    refine congrArg some (shapes_place (fun r => ?_) (fun q hq => ?_) ?_).symm
    · simp only [mem_roots, List.mem_append, List.mem_singleton]
      grind
    · simp [detail, hq]
    · simp [detail, Shape.asProblem]

theorem taint_shapes (K : Stock) (path : Path) :
    (K.taint path).shapes = K.shapes.place path .asTainted := by
  refine shapes_place (fun r => ?_) (fun q hq => ?_) ?_
  · simp only [taint, mem_roots, List.mem_append, List.mem_singleton]
    grind
  · simp [taint, detail, hq]
  · simp [taint, detail, Shape.asTainted]

theorem missing_shapes (K : Stock) (path : Path) :
    K.shapes.missing path = (K.missing path).map shapes := by
  unfold Shapes.missing missing
  rw [isSome_shapes]
  split
  · rw [← taint_shapes]
    rfl
  · rw [package_shapes]
    cases K.package path with
    | none => rfl
    | some K' => simp only [Option.map_some, taint_shapes]

theorem type_shapes (K : Stock) (t : Path × String) :
    K.shapes.type t = (K.type t).map shapes := by
  unfold Shapes.type type
  rw [package_shapes]
  cases K.package t.1 with
  | none => rfl
  | some K' =>
    have hmem : t.2 ∈ ((K'.shapes t.1).getD .placeholder).types ↔ t ∈ K'.types := by
      rw [getD_shapes]
      simp [detail]
    simp only [Option.map_some, Option.bind_some, hmem]
    split
    · rfl
    · refine congrArg some (shapes_place (fun r => ?_) (fun q hq => ?_) ?_).symm
      · simp only [mem_roots, List.map_append, List.mem_append, List.map_cons, List.map_nil,
          List.mem_singleton]
        grind
      · simp [detail, List.filter_append, Ne.symm hq]
      · simp [detail, Shape.withType, List.filter_append]

/-- What is declared in a module is what is listed in the stock, with the same shape. -/
theorem own?_of_shapes {env : Environment} {m : ModuleId} (hg : env.Graph)
    (hshape : env.shape? m = K.shapes) (q : Path) :
    (K.covers q = true → ∃ r, env.own? m q = some r) ∧
    ∀ r, env.own? m q = some r → r.isSplit = false ∧ r.shape = K.detail q := by
  have hq : (env.own? m q).map Package.shape = if K.covers q then some (K.detail q) else none :=
    congrFun hshape q
  refine ⟨fun hcovers => ?_, fun r hr => ?_⟩
  · rw [if_pos hcovers] at hq
    obtain ⟨r, hr, -⟩ := Option.map_eq_some_iff.mp hq
    exact ⟨r, hr⟩
  · obtain ⟨p, hd, hp⟩ := own?_eq_some.mp hr
    obtain ⟨r', hr', -, -, hs⟩ := hg.declared hd
    cases package_unique hp hr'
    refine ⟨hs, ?_⟩
    rw [hr] at hq
    split at hq
    · exact Option.some_inj.mp hq
    · cases hq

theorem exists_own?_iff {env : Environment} {m : ModuleId} (hg : env.Graph)
    (hshape : env.shape? m = K.shapes) {q : Path} {P : Package → Prop} {c : Prop}
    (hcovers : c → K.covers q = true) (hiff : ∀ r, env.own? m q = some r → (P r ↔ c)) :
    (∃ r, env.own? m q = some r ∧ P r) ↔ c := by
  constructor
  · rintro ⟨r, hr, h⟩
    exact (hiff r hr).mp h
  · intro h
    obtain ⟨r, hr⟩ := (own?_of_shapes hg hshape q).1 (hcovers h)
    exact ⟨r, hr, (hiff r hr).mpr h⟩

/-! ## Several declarations -/

theorem package_eq_some : K.package path = some K' ↔
    path ∉ K.problems ∧ K' = { K with units := K.units ++ [path] } := by
  rw [package, Option.ite_none_left_eq_some, Option.some_inj, eq_comm (a := K')]

theorem problem_eq_some : K.problem path = some K' ↔
    K.covers path = false ∧ K' = { K with problems := K.problems ++ [path] } := by
  rw [problem, Option.ite_none_left_eq_some, Option.some_inj, Bool.not_eq_true, eq_comm (a := K')]

theorem type_eq_some {t : Path × String} : K.type t = some K' ↔ t.1 ∉ K.problems ∧ t ∉ K.types ∧
    K' = { K with units := K.units ++ [t.1], types := K.types ++ [t] } := by
  rw [type, package, Option.bind_eq_some_iff]
  simp only [Option.ite_none_left_eq_some, Option.some_inj]
  constructor
  · rintro ⟨_, ⟨hp, rfl⟩, ht, rfl⟩
    exact ⟨hp, ht, rfl⟩
  · rintro ⟨hp, ht, rfl⟩
    exact ⟨_, ⟨hp, rfl⟩, ht, rfl⟩

theorem foldlM_package {ps : List Path} : ps.foldlM package K = some K' ↔
    (∀ p ∈ ps, p ∉ K.problems) ∧ K' = { K with units := K.units ++ ps } := by
  induction ps generalizing K with
  | nil => simpa using eq_comm
  | cons p ps ih =>
    rw [List.foldlM_cons, Option.bind_eq_bind, Option.bind_eq_some_iff]
    constructor
    · rintro ⟨K1, h, hrest⟩
      obtain ⟨hp, rfl⟩ := package_eq_some.mp h
      obtain ⟨hps, rfl⟩ := ih.mp hrest
      exact ⟨List.forall_mem_cons.mpr ⟨hp, hps⟩, by simp⟩
    · rintro ⟨h, rfl⟩
      obtain ⟨hp, hps⟩ := List.forall_mem_cons.mp h
      exact ⟨_, package_eq_some.mpr ⟨hp, rfl⟩, ih.mpr ⟨hps, by simp⟩⟩

theorem covers_problem : ({ K with problems := K.problems ++ [path] } : Stock).covers q =
    (K.covers q || q.isPrefixOf path) :=
  covers_eq (fun r => by simp only [mem_roots, List.mem_append, List.mem_singleton]; grind) q

/-- Problems are accepted unless one encloses what is declared already, be it an earlier problem. -/
theorem foldlM_problem {ps : List Path} : ps.foldlM problem K = some K' ↔
    (∀ p ∈ ps, K.covers p = false) ∧
      (ps.Pairwise fun earlier later => later.isPrefixOf earlier = false) ∧
      K' = { K with problems := K.problems ++ ps } := by
  induction ps generalizing K with
  | nil =>
    simp only [List.foldlM_nil, List.append_nil, List.Pairwise.nil, List.not_mem_nil, false_implies,
      implies_true, true_and]
    exact Option.some_inj.trans eq_comm
  | cons p ps ih =>
    rw [List.foldlM_cons, Option.bind_eq_bind, Option.bind_eq_some_iff]
    constructor
    · rintro ⟨K1, h, hrest⟩
      obtain ⟨hp, rfl⟩ := problem_eq_some.mp h
      obtain ⟨hps, hpairs, rfl⟩ := ih.mp hrest
      simp only [covers_problem, Bool.or_eq_false_iff] at hps
      exact ⟨List.forall_mem_cons.mpr ⟨hp, fun q hq => (hps q hq).1⟩,
        List.pairwise_cons.mpr ⟨fun q hq => (hps q hq).2, hpairs⟩, by simp⟩
    · rintro ⟨h, hpairs, rfl⟩
      obtain ⟨hp, hps⟩ := List.forall_mem_cons.mp h
      obtain ⟨hfirst, hpairs⟩ := List.pairwise_cons.mp hpairs
      refine ⟨_, problem_eq_some.mpr ⟨hp, rfl⟩, ih.mpr ⟨fun q hq => ?_, hpairs, by simp⟩⟩
      rw [covers_problem, hps q hq, hfirst q hq]
      rfl

theorem foldlM_type {ts : List (Path × String)} : ts.foldlM type K = some K' ↔
    (∀ t ∈ ts, t.1 ∉ K.problems ∧ t ∉ K.types) ∧ ts.Nodup ∧
      K' = { K with units := K.units ++ ts.map Prod.fst, types := K.types ++ ts } := by
  induction ts generalizing K with
  | nil => simpa using eq_comm
  | cons t ts ih =>
    rw [List.foldlM_cons, Option.bind_eq_bind, Option.bind_eq_some_iff]
    constructor
    · rintro ⟨K1, h, hrest⟩
      obtain ⟨hp, ht, rfl⟩ := type_eq_some.mp h
      obtain ⟨hts, hnodup, rfl⟩ := ih.mp hrest
      simp only [List.mem_append, List.mem_singleton, not_or] at hts
      refine ⟨List.forall_mem_cons.mpr ⟨⟨hp, ht⟩, fun u hu => ⟨(hts u hu).1, (hts u hu).2.1⟩⟩,
        List.nodup_cons.mpr ⟨fun hmem => (hts t hmem).2.2 rfl, hnodup⟩, by simp⟩
    · rintro ⟨h, hnodup, rfl⟩
      obtain ⟨⟨hp, ht⟩, hts⟩ := List.forall_mem_cons.mp h
      obtain ⟨hfirst, hnodup⟩ := List.nodup_cons.mp hnodup
      refine ⟨_, type_eq_some.mpr ⟨hp, ht, rfl⟩, ih.mpr ⟨fun u hu => ⟨(hts u hu).1, ?_⟩, hnodup,
        by simp⟩⟩
      simp only [List.mem_append, List.mem_singleton, not_or]
      exact ⟨(hts u hu).2, fun e => hfirst (e ▸ hu)⟩

/-- A missing type is always accepted; it gives a path that is not declared a compilation unit. -/
theorem missing_eq (K : Stock) (path : Path) :
    K.missing path = some { K with
      units := K.units ++ if K.covers path then [] else [path]
      tainted := K.tainted ++ [path] } := by
  unfold missing
  cases h : K.covers path with
  | true => simp [taint]
  | false =>
    have hno : path ∉ K.problems := fun hm => by
      rw [covers_of_mem (mem_roots.mpr (.inr (.inl hm)))] at h
      cases h
    simp [package, hno, taint]

/-- Which of the paths are not declared when they are reached. -/
def Introduces (K : Stock) (ps : List Path) (q : Path) : Prop :=
  ∃ before after, ps = before ++ q :: after ∧ K.covers q = false ∧
    ∀ p ∈ before, q.isPrefixOf p = false

theorem introduces_cons {ps : List Path}
    (hcovers : ∀ q, K'.covers q = (K.covers q || q.isPrefixOf p)) :
    K.Introduces (p :: ps) q ↔ (K.covers p = false ∧ q = p) ∨ K'.Introduces ps q := by
  constructor
  · rintro ⟨before, after, e, hq, hbefore⟩
    cases before with
    | nil =>
      cases e
      exact .inl ⟨hq, rfl⟩
    | cons b before =>
      cases e
      obtain ⟨hb, hbefore⟩ := List.forall_mem_cons.mp hbefore
      exact .inr ⟨before, after, rfl, by rw [hcovers, hq, hb]; rfl, hbefore⟩
  · rintro (⟨hp, rfl⟩ | ⟨before, after, rfl, hq, hbefore⟩)
    · exact ⟨[], ps, rfl, hp, fun p h => by cases h⟩
    · rw [hcovers, Bool.or_eq_false_iff] at hq
      exact ⟨p :: before, after, rfl, hq.1, List.forall_mem_cons.mpr ⟨hq.2, hbefore⟩⟩

theorem foldlM_missing (K : Stock) (ps : List Path) : ∃ units,
    ps.foldlM missing K = some { K with units := K.units ++ units, tainted := K.tainted ++ ps } ∧
      ∀ q, q ∈ units ↔ K.Introduces ps q := by
  induction ps generalizing K with
  | nil =>
    refine ⟨[], by simp, fun q => iff_of_false (by simp) ?_⟩
    rintro ⟨before, after, e, -⟩
    simp at e
  | cons p ps ih =>
    rw [List.foldlM_cons, missing_eq]
    generalize hK' : ({ K with
      units := K.units ++ if K.covers p then [] else [p]
      tainted := K.tainted ++ [p] } : Stock) = K'
    have hcovers (q : Path) : K'.covers q = (K.covers q || q.isPrefixOf p) := by
      refine covers_eq (fun r => ?_) q
      subst hK'
      simp only [mem_roots, List.mem_append, List.mem_singleton]
      split <;> grind
    obtain ⟨units, hfold, hunits⟩ := ih K'
    refine ⟨(if K.covers p then [] else [p]) ++ units, ?_, fun q => ?_⟩
    · rw [Option.bind_eq_bind, Option.bind_some, hfold]
      subst hK'
      simp
    · rw [introduces_cons hcovers, ← hunits q, List.mem_append]
      refine or_congr_left ?_
      cases K.covers p <;> simp

/-! ## Declarations in texts -/

/-- One declaration for each text, in order, of what it reads as. -/
def each {α : Type} (read : String → Option α) (step : Stock → α → Option Stock)
    (texts : List String) (K : Stock) : Option Stock :=
  texts.foldlM (fun K text => (read text).bind (step K)) K

theorem each_eq_some {α : Type} {read : String → Option α} {step : Stock → α → Option Stock}
    {texts : List String} : K.each read step texts = some K' ↔
      (∀ text ∈ texts, (read text).isSome = true) ∧
        (texts.filterMap read).foldlM step K = some K' := by
  unfold each
  induction texts generalizing K with
  | nil => simp
  | cons text texts ih =>
    rw [List.foldlM_cons, List.forall_mem_cons]
    cases hread : read text with
    | none => simp
    | some a =>
      rw [List.filterMap_cons_some hread, List.foldlM_cons, Option.bind_some]
      cases hstep : step K a with
      | none => simp
      | some K1 => simp [ih]

/-- What is only read declares nothing. -/
theorem each_keep {α : Type} {read : String → Option α} {texts : List String} :
    K.each read (fun K _ => some K) texts = some K' ↔
      (∀ text ∈ texts, (read text).isSome = true) ∧ K' = K := by
  rw [each_eq_some]
  refine and_congr_right fun _ => ?_
  induction texts.filterMap read with
  | nil => exact Option.some_inj.trans eq_comm
  | cons a as ih => exact ih

end Stock

/-- The position of the first module of that name. -/
def World.position? (w : World) (name : String) : Option Nat :=
  w.modules.findIdx? (·.name = name)

theorem World.isSome_position? {w : World} {name : String} :
    (w.position? name).isSome = true ↔ name ∈ w.names := by
  simp [position?, names, List.findIdx?_isSome]

def Path.parse? (dotted : String) : Option Path := (Path.parse dotted).toOption

def Path.splitTypeName? (qualified : String) : Option (Path × String) :=
  (Path.splitTypeName qualified).toOption

theorem Path.isSome_parse? {dotted : String} :
    (parse? dotted).isSome = true ↔ ∃ path, parse dotted = .ok path := by
  unfold parse?
  cases parse dotted <;> simp [Except.toOption]

theorem Path.isSome_splitTypeName? {qualified : String} :
    (splitTypeName? qualified).isSome = true ↔ ∃ t, splitTypeName qualified = .ok t := by
  unfold splitTypeName?
  cases splitTypeName qualified <;> simp [Except.toOption]

namespace ModuleEntry

def packagePaths (e : ModuleEntry) : List Path := e.packages.filterMap Path.parse?

def problemPaths (e : ModuleEntry) : List Path := e.problemPackages.filterMap Path.parse?

/-- The types, each with its package. -/
def typeNames (e : ModuleEntry) : List (Path × String) := e.types.filterMap Path.splitTypeName?

def typePaths (e : ModuleEntry) : List Path := e.typeNames.map Prod.fst

def missingPaths (e : ModuleEntry) : List Path := e.missingTypes.filterMap Path.parse?

/-- The path is listed among the missing types, and neither it nor a path below it is listed before
that: not among the packages, problems and types, nor earlier among the missing types. -/
def Introduces (e : ModuleEntry) (q : Path) : Prop :=
  ∃ before after, e.missingPaths = before ++ q :: after ∧
    ∀ p ∈ e.packagePaths ++ e.problemPaths ++ e.typePaths ++ before, q.isPrefixOf p = false

/-- Everything that the entry lists can be read and declared. -/
structure Consistent (w : World) (e : ModuleEntry) : Prop where
  reads : ∀ name ∈ e.reads ++ e.transitiveReads, name ∈ w.names
  paths : ∀ text ∈ e.exports ++ e.packages ++ e.problemPackages ++ e.missingTypes,
    ∃ path, Path.parse text = .ok path
  types : ∀ text ∈ e.types, ∃ t, Path.splitTypeName text = .ok t
  problems : ∀ p ∈ e.problemPaths, ∀ q ∈ e.packagePaths, p.isPrefixOf q = false
  problemOrder : e.problemPaths.Pairwise fun earlier later => later.isPrefixOf earlier = false
  typePaths : ∀ t ∈ e.typeNames, t.1 ∉ e.problemPaths
  typeNames : e.typeNames.Nodup

/-- The stock that the declarations of the entry lead to. -/
def fill (w : World) (e : ModuleEntry) (K : Stock) : Option Stock := do
  let K ← K.each w.position? (fun K _ => some K) e.reads
  let K ← K.each w.position? (fun K _ => some K) e.transitiveReads
  let K ← K.each Path.parse? (fun K _ => some K) e.exports
  let K ← K.each Path.parse? Stock.package e.packages
  let K ← K.each Path.parse? Stock.problem e.problemPackages
  let K ← K.each Path.splitTypeName? Stock.type e.types
  K.each Path.parse? Stock.missing e.missingTypes

def stock? (w : World) (e : ModuleEntry) : Option Stock := e.fill w .empty

variable {w : World} {e : ModuleEntry} {K : Stock} {q : Path}

/-- What has been declared before the missing types are. -/
def declarations (e : ModuleEntry) : Stock :=
  ⟨e.packagePaths ++ e.typePaths, e.problemPaths, e.typeNames, []⟩

/-- The packages, problems and types are accepted just if they do not get into each other's way. -/
theorem declarations_iff : (∃ K1, Stock.empty.each Path.parse? Stock.package e.packages = some K1 ∧
      ∃ K2, K1.each Path.parse? Stock.problem e.problemPackages = some K2 ∧
        K2.each Path.splitTypeName? Stock.type e.types = some K) ↔
    ((∀ text ∈ e.packages, (Path.parse? text).isSome = true) ∧
      (∀ text ∈ e.problemPackages, (Path.parse? text).isSome = true) ∧
      (∀ text ∈ e.types, (Path.splitTypeName? text).isSome = true) ∧
      (∀ p ∈ e.problemPaths, ∀ q ∈ e.packagePaths, p.isPrefixOf q = false) ∧
      (e.problemPaths.Pairwise fun earlier later => later.isPrefixOf earlier = false) ∧
      (∀ t ∈ e.typeNames, t.1 ∉ e.problemPaths) ∧ e.typeNames.Nodup) ∧ K = e.declarations := by
  have hcovers (p : Path) :
      ({ Stock.empty with units := e.packagePaths } : Stock).covers p = false ↔
        ∀ q ∈ e.packagePaths, p.isPrefixOf q = false := by
    simp [Stock.covers_eq_false, Stock.roots, Stock.empty]
  simp only [Stock.each_eq_some, Stock.foldlM_package, Stock.foldlM_problem, Stock.foldlM_type]
  constructor
  · rintro ⟨_, ⟨hpackages, -, rfl⟩, _, ⟨hproblems, hfree, horder, rfl⟩, htypes, hplaced, hnodup,
      rfl⟩
    exact ⟨⟨hpackages, hproblems, htypes, fun p hp => (hcovers p).mp (hfree p hp), horder,
      fun t ht => (hplaced t ht).1, hnodup⟩, rfl⟩
  · rintro ⟨⟨hpackages, hproblems, htypes, hfree, horder, hplaced, hnodup⟩, rfl⟩
    exact ⟨_, ⟨hpackages, fun p _ h => (by cases h), rfl⟩, _, ⟨hproblems,
      fun p hp => (hcovers p).mpr (hfree p hp), horder, rfl⟩, htypes,
      fun t ht => ⟨hplaced t ht, fun h => (by cases h)⟩, hnodup, rfl⟩

theorem consistent_iff : e.Consistent w ↔
    (∀ name ∈ e.reads, (w.position? name).isSome = true) ∧
    (∀ name ∈ e.transitiveReads, (w.position? name).isSome = true) ∧
    (∀ text ∈ e.exports, (Path.parse? text).isSome = true) ∧
    (∃ K, ∃ K1, Stock.empty.each Path.parse? Stock.package e.packages = some K1 ∧
      ∃ K2, K1.each Path.parse? Stock.problem e.problemPackages = some K2 ∧
        K2.each Path.splitTypeName? Stock.type e.types = some K) ∧
    ∀ text ∈ e.missingTypes, (Path.parse? text).isSome = true := by
  simp only [declarations_iff, exists_and_left, exists_eq, and_true, World.isSome_position?,
    Path.isSome_parse?, Path.isSome_splitTypeName?]
  constructor
  · rintro ⟨hreads, hpaths, htypes, hfree, horder, hplaced, hnodup⟩
    simp only [List.forall_mem_append] at hreads hpaths
    obtain ⟨⟨⟨hexports, hpackages⟩, hproblems⟩, hmissing⟩ := hpaths
    exact ⟨hreads.1, hreads.2, hexports,
      ⟨hpackages, hproblems, htypes, hfree, horder, hplaced, hnodup⟩, hmissing⟩
  · rintro ⟨hreads, htransitive, hexports,
      ⟨hpackages, hproblems, htypes, hfree, horder, hplaced, hnodup⟩, hmissing⟩
    refine ⟨List.forall_mem_append.mpr ⟨hreads, htransitive⟩, ?_, htypes, hfree, horder, hplaced,
      hnodup⟩
    simp only [List.forall_mem_append]
    exact ⟨⟨⟨hexports, hpackages⟩, hproblems⟩, hmissing⟩

/-- An entry is accepted if and only if it is consistent, and what it leads to then is listed in
it. -/
theorem stock?_spec (w : World) (e : ModuleEntry) : ((e.stock? w).isSome = true ↔ e.Consistent w) ∧
    ∀ K, e.stock? w = some K → ∃ units,
      K = { e.declarations with
        units := e.declarations.units ++ units
        tainted := e.missingPaths } ∧
      ∀ q, q ∈ units ↔ e.declarations.Introduces e.missingPaths q := by
  obtain ⟨units, hfold, hunits⟩ := e.declarations.foldlM_missing e.missingPaths
  rw [Option.isSome_iff_exists, consistent_iff]
  simp only [stock?, fill, Option.bind_eq_bind, Option.bind_eq_some_iff, Stock.each_keep]
  refine ⟨⟨?_, ?_⟩, ?_⟩
  · rintro ⟨K, _, ⟨hreads, rfl⟩, _, ⟨htransitive, rfl⟩, _, ⟨hexports, rfl⟩, K1, h1, K2, h2, K3, h3,
      hmissing⟩
    exact ⟨hreads, htransitive, hexports, ⟨K3, K1, h1, K2, h2, h3⟩,
      (Stock.each_eq_some.mp hmissing).1⟩
  · rintro ⟨hreads, htransitive, hexports, ⟨K3, K1, h1, K2, h2, h3⟩, hmissing⟩
    obtain ⟨-, rfl⟩ := declarations_iff.mp ⟨K1, h1, K2, h2, h3⟩
    exact ⟨_, _, ⟨hreads, rfl⟩, _, ⟨htransitive, rfl⟩, _, ⟨hexports, rfl⟩, K1, h1, K2, h2, _, h3,
      Stock.each_eq_some.mpr ⟨hmissing, hfold⟩⟩
  · rintro K ⟨_, ⟨-, rfl⟩, _, ⟨-, rfl⟩, _, ⟨-, rfl⟩, K1, h1, K2, h2, K3, h3, hmissing⟩
    obtain ⟨-, rfl⟩ := declarations_iff.mp ⟨K1, h1, K2, h2, h3⟩
    obtain ⟨-, h⟩ := Stock.each_eq_some.mp hmissing
    exact ⟨units, Option.some_inj.mp (h.symm.trans hfold), hunits⟩

end ModuleEntry

end SplitPackages
