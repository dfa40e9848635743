import SplitPackages.Proofs.Repetition

/-!
# Splits below plain bindings

Registering a child below a split stores nothing but plain bindings below the
incarnations. Yet a plain binding can come to know a split, in two ways: its home
looks at the path and sees the plain binding itself at the enclosing one, or it
asks the binding for a child at whose path it sees a split.

In both ways the split is what the home sees. `Lodged` says so of every binding
that is not a split, in the form that every step keeps: between storing a child
and remembering it, the home has not seen the path yet, and would take the child
from there (`HomeTold`). So the home is told that split when it asks for the path,
and every split that it sees can be brought below its binding (`split_below_plain`).
-/

namespace SplitPackages

open Lookup

namespace Environment

/-- The home of the binding `c` sees `q` at the path of the child, or it does not see anything
there yet and sees `c` itself above. -/
def HomeTold (env : Environment) (c : PackageId) (r : Package) (name : String) (q : PackageId) :
    Prop :=
  env.seen r.home (.sub r.path name) = some (.package q) ∨
    env.seen r.home (.sub r.path name) = none ∧ env.seen r.home r.path = some (.package c)

/-- A binding that is not a split knows those splits only that its home is told. -/
def Lodged (env : Environment) : Prop :=
  ∀ c r name q rq, env.package c = .ok r → r.isSplit = false →
    env.entry c name = some (.package q) → env.package q = .ok rq → rq.isSplit = true →
    env.HomeTold c r name q

def knowsSplit (env : Environment) (p : PackageId) (name : String) (q : PackageId) : Bool :=
  match env.package p, env.package q with
  | .ok r, .ok rq => r.isPlain && env.entry p name = some (.package q) && rq.isSplit
  | _, _ => false

variable {env after : Environment} {c p q : PackageId} {m : ModuleId} {r r' rq : Package}
  {path : Path} {name : String} {config : Config}

/-! ## What steps keep -/

/-- Of the grounds for an entry of such a binding only two can be for a split. -/
theorem Grounds.homeTold (hg : env.Grounds c r name (.package q)) (hc : env.Coherent)
    (hs : r.isSplit = false) (hq : env.package q = .ok rq) (hsq : rq.isSplit = true) :
    env.HomeTold c r name q := by
  cases hg with
  | own _ hd =>
    obtain ⟨r', hr', -, -, hs'⟩ := hc.declared hd
    rw [package_unique hq hr', hs'] at hsq
    cases hsq
  | offered _ habove hnone _ => exact .inr ⟨hnone, habove⟩
  | seen _ hseen => exact .inl hseen
  | merged hk _ _ =>
    rw [Package.isSplit_of_kind hk] at hs
    cases hs
  | enriched hs' _ _ _ | searched hs' _ _ _ =>
    rw [hs'] at hs
    cases hs

theorem HomeTold.of_seen (h : env.HomeTold c r name q)
    (hseen : ∀ m path, after.seen m path = env.seen m path) (hpath : r'.path = r.path)
    (hhome : r'.home = r.home) : after.HomeTold c r' name q := by
  unfold HomeTold
  rw [hpath, hhome, hseen, hseen]
  exact h

/-- What the home remembers at the path of a child that it has not seen yet is that child. -/
theorem HomeTold.remember {ref : Ref} (h : env.HomeTold c r name q)
    (hnone : env.seen m path = none) (hsights : env.Sights m path ref)
    (hrem : env.Remembers m path ref after) (hr : env.package c = .ok r)
    (he : env.entry c name = some (.package q)) : after.HomeTold c r name q := by
  have hkeep {k : ModuleId} {other : Path} {ref' : Ref} (hs : env.seen k other = some ref') :
      after.seen k other = some ref' := Change.seen (.remember hnone hsights hrem) hs
  rcases h with hs | ⟨hunseen, habove⟩
  · exact .inl (hkeep hs)
  by_cases hat : r.home = m ∧ Path.sub r.path name = path
  · obtain ⟨rfl, rfl⟩ := hat
    refine .inl ?_
    rw [hrem.seen, if_pos ⟨rfl, rfl⟩]
    cases hsights with
    | below hmiss => rw [habove] at hmiss; cases hmiss
    | foreign hc' hr' hne _ =>
      rw [habove] at hc'
      cases hc'
      rw [package_unique hr hr'] at hne
      exact absurd rfl hne
    | stored hc' _ _ he' =>
      rw [habove] at hc'
      cases hc'
      rw [← he', he]
  · refine .inr ⟨?_, hkeep habove⟩
    rw [hrem.seen, if_neg hat]
    exact hunseen

theorem Built.lodged (h : env.Built after) (hl : env.Lodged) : after.Lodged := by
  intro c r name q rq hr hs he hq hsq
  rw [h.1.entry] at he
  obtain ⟨r0, hr0, -⟩ := package_of_entry he
  obtain ⟨r', hr', e⟩ := h.1.package hr0
  cases package_unique hr hr'
  obtain ⟨rq0, hrq0, eq⟩ := h.1.package_split hq hsq
  have hold := hl c r0 name q rq0 hr0 (e.isSplit.symm.trans hs) he hrq0 (eq.isSplit.symm.trans hsq)
  exact hold.of_seen h.1.seen e.path e.home

theorem Change.lodged (h : env.Change after) (hc : env.Coherent) (hl : env.Lodged) :
    after.Lodged := by
  intro c r name q rq hr hs he hq hsq
  -- the binding and the child are there before the step
  obtain ⟨r0, hr0⟩ : ∃ r0, env.package c = .ok r0 := by
    refine (h.package_back hr).elim id fun hnew => ?_
    obtain ⟨s, hk, -⟩ := hnew.kind
    rw [Package.isSplit_of_kind hk] at hs
    cases hs
  obtain ⟨r', hr', e⟩ := h.keeps.packages hr0
  cases package_unique hr hr'
  have hs0 : r0.isSplit = false := (Package.isSplit_eq_of_bare e).symm.trans hs
  have hpath := Package.path_eq_of_bare e
  have hhome := Package.home_eq_of_bare e
  have hsplit {rq0 : Package} (hrq0 : env.package q = .ok rq0) : rq0.isSplit = true := by
    obtain ⟨rq', hrq', eq⟩ := h.keeps.packages hrq0
    rw [← package_unique hq hrq'] at eq
    exact (Package.isSplit_eq_of_bare eq).symm.trans hsq
  have hold (he : env.entry c name = some (.package q)) : env.HomeTold c r0 name q := by
    obtain ⟨rq0, hrq0, -⟩ := hc.binds_of_entry hr0 he
    exact hl c r0 name q rq0 hr0 hs0 he hrq0 (hsplit hrq0)
  cases h with
  | grow h => exact (hold (h.entry_back he)).of_seen h.seen hpath hhome
  | memo _ h _ => exact (hold ((h.entry c name).symm.trans he)).of_seen h.seen hpath hhome
  | learn hrl hg h =>
    rw [h.entry] at he
    split at he
    · next e =>
      obtain ⟨rfl, rfl⟩ := e
      cases he
      cases package_unique hr0 hrl
      obtain ⟨rq0, hrq0, -⟩ := hg.binds hc hr0
      exact (hg.homeTold hc hs0 hrq0 (hsplit hrq0)).of_seen h.seen hpath hhome
    · exact (hold he).of_seen h.seen hpath hhome
  | remember hnone hsights hrem =>
    have he0 := (hrem.entry c name).symm.trans he
    have htold := (hold he0).remember hnone hsights hrem hr0 he0
    unfold HomeTold at htold ⊢
    rwa [hpath, hhome]

theorem Reaches.lodged
    (h : Environment.empty.Reaches config (fun r => r.builds || r.looks) env) :
    env.Coherent ∧ env.Lodged :=
  h.induction (I := Lodged) coherent_empty (fun _ _ _ _ _ hr => by cases hr)
    (fun _ hb hl => hb.lodged hl) fun hc hs hl => hs.lodged hc hl

/-! ## What the home is told -/

theorem HomeTold.view (h : env.HomeTold c r name q) (hc : env.Coherent)
    (hr : env.package c = .ok r) (hs : r.isSplit = false)
    (he : env.entry c name = some (.package q)) :
    ∃ after, (Lookup.view r.home (.sub r.path name)).Gives env (.package q) after := by
  rcases h with hseen | ⟨hunseen, habove⟩
  · exact ⟨env, view_known hseen⟩
  obtain ⟨record, hrec⟩ := hc.home hr
  obtain ⟨after, hset⟩ := Environment.setModule_ok hrec (·.remember (.sub r.path name) (.package q))
  rw [seen_of_module hrec] at hunseen
  rw [entry_of_package hr] at he
  -- the entry of the enclosing binding is taken over
  have howned : (viewBelow.owned r.home (some c)).Gives env (some c) env := by
    refine (Gives.ask hr).bind ?_
    rw [if_pos rfl]
    exact Gives.pure _
  have hstrict : (strict c name).Gives env (some (.package q)) env := by
    refine (Gives.ask hr).bind ?_
    rw [hs, he]
    exact Gives.pure _
  have hbelow : (viewBelow r.home (.sub r.path name) (some c)).Gives env (.package q) after :=
    howned.bind (hstrict.bind ((Gives.update (Update.setModule_ok hset)).bind (Gives.pure _)))
  refine ⟨after, (Gives.ask hrec).bind ?_⟩
  rw [hunseen]
  exact (view_known habove).bind hbelow

/-- A plain binding knows a split only if its home is told that split at the path; and if its home
sees a package there of which the binding knows nothing, asking for the child stores it. -/
theorem split_below_plain
    (h : Environment.empty.Reaches config (fun r => r.builds || r.looks) env)
    (hr : env.package p = .ok r) (hpl : r.isPlain = true) :
    (∀ name q rq, env.entry p name = some (.package q) → env.package q = .ok rq →
      rq.isSplit = true →
      ∃ after, (Lookup.view r.home (.sub r.path name)).Gives env (.package q) after) ∧
    ∀ name q, env.seen r.home (.sub r.path name) = some (.package q) → env.entry p name = none →
      ∃ after, (Lookup.child p name r.home).Gives env (some q) after ∧
        after.entry p name = some (.package q) := by
  obtain ⟨hc, hl⟩ := h.lodged
  have hs := Package.isSplit_of_isPlain hpl
  constructor
  · intro name q rq he hq hsq
    exact (hl p r name q rq hr hs he hq hsq).view hc hr hs he
  · intro name q hseen hnone
    obtain ⟨e, after, hadd, rfl, -, -, hent⟩ :=
      addChild_spec hr hs (hc.seen hseen) r.home (.seen hs hseen)
    refine ⟨after, ?_, hent⟩
    obtain ⟨plain, hk⟩ := Package.kind_of_isPlain hpl
    rw [entry_of_package hr] at hnone
    refine (Gives.ask hr).bind ?_
    rw [hk]
    unfold childOfPlain
    rw [if_pos rfl, hnone]
    refine (view_known hseen).bind ((Gives.ask hr).bind ?_)
    rw [hnone]
    have hstore : (Functor.discard (addChild p e r.home)).Gives env () after :=
      Gives.bind (f := fun _ => pure ()) hadd (Gives.pure ())
    exact hstore.bind (Gives.pure _)

theorem exists_of_knowsSplit (h : env.knowsSplit p name q = true) : ∃ r rq,
    env.package p = .ok r ∧ r.isPlain = true ∧ env.entry p name = some (.package q) ∧
      env.package q = .ok rq ∧ rq.isSplit = true := by
  unfold knowsSplit at h
  split at h
  · next r rq hr hq =>
    rw [Bool.and_eq_true, Bool.and_eq_true, decide_eq_true_eq] at h
    exact ⟨r, rq, hr, h.1.1, h.1.2, hq, h.2⟩
  · cases h

/-- Two modules share a package below one that a third declares and that reads both. The third
asks its own binding for it. -/
def sharedBelowOwn : List Request :=
  [.addModule "m" false, .addModule "a" false, .addModule "b" false,
    .declarePackage ⟨0⟩ (.sub (.top "com") "foo"),
    .declarePackage ⟨1⟩ (.sub (.sub (.top "com") "foo") "bar"),
    .declarePackage ⟨2⟩ (.sub (.sub (.top "com") "foo") "bar"),
    .addExport ⟨1⟩ (.sub (.sub (.top "com") "foo") "bar"),
    .addExport ⟨2⟩ (.sub (.sub (.top "com") "foo") "bar"),
    .addRead ⟨0⟩ ⟨1⟩, .addRead ⟨0⟩ ⟨2⟩, .child ⟨1⟩ ⟨0⟩ "bar"]

theorem split_below_plain_sharedBelowOwn : ∃ env r,
    Environment.empty.Reaches .standard (fun r => r.builds || r.looks) env ∧
    env.package ⟨1⟩ = .ok r ∧ r.isPlain = true ∧ env.knowsSplit ⟨1⟩ "bar" ⟨10⟩ = true ∧
    ∃ after, (Lookup.view r.home (.sub r.path "bar")).Gives env (.package ⟨10⟩) after := by
  have hrun : (replay .standard (fun r => r.builds || r.looks) sharedBelowOwn .empty).any
      (fun env => env.knowsSplit ⟨1⟩ "bar" ⟨10⟩) = true := by
    decide +kernel
  obtain ⟨env, henv, hknows⟩ := (Option.any_eq_true _ _).mp hrun
  have hreach := reaches_of_replay henv
  obtain ⟨r, rq, hr, hpl, he, hq, hsq⟩ := exists_of_knowsSplit hknows
  exact ⟨env, r, hreach, hr, hpl, hknows,
    (split_below_plain hreach hr hpl).1 "bar" ⟨10⟩ rq he hq hsq⟩

/-- Of a package that two modules share, one of them sees its own binding alone, since the other's
is a problem; and then it looks at the package below, which they share too. -/
def problemBesideOwn : List Request :=
  [.addModule "a" false, .addModule "b" false,
    .declarePackage ⟨0⟩ (.sub (.sub (.top "com") "foo") "bar"),
    .declareProblem ⟨1⟩ (.sub (.top "com") "foo"),
    .declarePackage ⟨1⟩ (.sub (.sub (.top "com") "foo") "bar"),
    .addExport ⟨1⟩ (.sub (.sub (.top "com") "foo") "bar"), .addRead ⟨0⟩ ⟨1⟩,
    .view ⟨0⟩ (.sub (.top "com") "foo"), .view ⟨0⟩ (.sub (.sub (.top "com") "foo") "bar")]

theorem plain_knows_split :
    ¬ ∀ env, Environment.empty.Reaches .standard (fun r => r.builds || r.looks) env →
      ∀ p r name q rq, env.package p = .ok r → r.isPlain = true →
        env.entry p name = some (.package q) → env.package q = .ok rq → rq.isSplit = false := by
  intro hnever
  have hrun : (replay .standard (fun r => r.builds || r.looks) problemBesideOwn .empty).any
      (fun env => env.knowsSplit ⟨1⟩ "bar" ⟨7⟩) = true := by
    decide +kernel
  obtain ⟨env, henv, hknows⟩ := (Option.any_eq_true _ _).mp hrun
  obtain ⟨r, rq, hr, hpl, he, hq, hsq⟩ := exists_of_knowsSplit hknows
  rw [hnever env (reaches_of_replay henv) ⟨1⟩ r "bar" ⟨7⟩ rq hr hpl he hq] at hsq
  cases hsq

end Environment

end SplitPackages
