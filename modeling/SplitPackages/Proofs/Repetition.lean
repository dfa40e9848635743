import SplitPackages.Proofs.Requests

/-!
# Resolving again

A resolution that meets in the caches what it answered before changes nothing.
`Recalls` says that a path can be resolved so; whether it can is seen from the
environment alone. A resolution leaves entries of its own below the packages
that it comes through, but what it answers is not always what it stores there. A
search answers with the binding that it merged, while the split keeps that
binding enriched and combined with what it knew by then; and below a declaration
of the module itself the entry may come from a child that was registered in a
split around it. So a second resolution gives the same answer and changes
nothing, or the first one strayed from its entries (`resolve_again_or_strays`).
-/

namespace SplitPackages

namespace Environment

/-- What is stored answers for the path. -/
inductive Recalls (env : Environment) (m : ModuleId) : Path → Option PackageId → Prop
  | top {name : String} {ref : Ref} : env.seen m (.top name) = some ref →
      Recalls env m (.top name) ref.package?
  | lost {path : Path} {name : String} : Recalls env m path none →
      Recalls env m (.sub path name) none
  | problem {path : Path} {name : String} {c : PackageId} {r : Package} :
      Recalls env m path (some c) → env.package c = .ok r → r.isValid = false →
      Recalls env m (.sub path name) none
  | entry {path : Path} {name : String} {c : PackageId} {r : Package} {ref : Ref} :
      Recalls env m path (some c) → env.package c = .ok r → r.EntriesFor m →
      env.entry c name = some ref → Recalls env m (.sub path name) ref.package?
  | seen {path : Path} {name : String} {c : PackageId} {r : Package} {ref : Ref} :
      Recalls env m path (some c) → env.package c = .ok r → r.isPlain = true → r.home ≠ m →
      env.seen m (.sub r.path name) = some ref → Recalls env m (.sub path name) ref.package?

/-- Resolving the path comes through a package below which it finds something else than what is
stored there later. It does so only below a split that had no entry for the name, or below a
declaration of the module itself. -/
inductive Strays (env : Environment) (m : ModuleId) (path : Path) (later : Environment) : Prop
  | below {above : Path} {name : String} {mid after : Environment} {c : PackageId} {r : Package}
      {answer : Option PackageId} {ref : Ref} :
      (Path.sub above name).isPrefixOf path = true →
      (Lookup.resolve m above).Gives env (some c) mid → mid.package c = .ok r →
      (r.isSplit = true ∧ mid.entry c name = none ∨ r.isPlain = true ∧ r.home = m) →
      (Lookup.child c name m).Gives mid answer after →
      later.entry c name = some ref → ref.package? ≠ answer → Strays env m path later

/-- Lookups that respect paths lead from `env` to `after`. -/
structure Continues (env after : Environment) : Prop extends env.Proceeds .pathwise none after where
  changes : env.Changes after

variable {env mid after later : Environment} {c p q : PackageId} {m k : ModuleId} {r : Package}
  {path : Path} {name : String} {ref : Ref} {answer : Option PackageId} {config : Config}

theorem Continues.refl (ho : env.Orderly .pathwise) : env.Continues env := ⟨ho.proceeds, .refl⟩

theorem Continues.trans (h : env.Continues mid) (h2 : mid.Continues after) : env.Continues after :=
  ⟨h.toProceeds.trans h2.toProceeds, h.changes.trans h2.changes⟩

theorem Strays.deeper (h : env.Strays m path later) : env.Strays m (.sub path name) later := by
  obtain ⟨hpre, hg, hr, hkind, hchild, he, hne⟩ := h
  exact .below (by rw [Path.isPrefixOf, hpre, Bool.or_true]) hg hr hkind hchild he hne

end Environment

namespace Lookup

open Environment

variable {env mid after later : Environment} {c p q : PackageId} {m k : ModuleId} {r : Package}
  {path : Path} {name : String} {ref : Ref} {answer : Option PackageId}

/-! ## From the caches alone -/

theorem view_known (hs : env.seen m path = some ref) : (view m path).Gives env ref env := by
  obtain ⟨record, hrec⟩ : ∃ record, env.module m = .ok record := by
    cases hm : env.module m with
    | error e => simp only [seen, hm, reduceCtorEq] at hs
    | ok record => exact ⟨record, rfl⟩
  rw [seen_of_module hrec] at hs
  cases path <;> exact (Gives.ask hrec).bind (by rw [hs]; exact Gives.pure ref)

theorem strict_known (hr : env.package c = .ok r) (hs : r.isSplit = true)
    (he : env.entry c name = some ref) : (strict c name).Gives env (some ref) env := by
  rw [entry_of_package hr] at he
  refine (Gives.ask hr).bind ?_
  rw [if_pos hs]
  unfold strictInSplit
  rw [he]
  by_cases hmiss : ref = .notFound
  · simp only [hmiss, if_true]
    exact (Gives.note _).bind (Gives.pure _)
  · simp only [hmiss, if_false]
    exact Gives.pure _

theorem child_known (hr : env.package c = .ok r) (hfor : r.EntriesFor m)
    (he : env.entry c name = some ref) : (child c name m).Gives env ref.package? env := by
  refine (Gives.ask hr).bind ?_
  rcases hfor with hs | ⟨hpl, hhome⟩
  · obtain ⟨s, hk⟩ := Package.kind_of_isSplit hs
    rw [hk]
    exact (strict_known hr hs he).bind (Gives.pure _)
  · obtain ⟨plain, hk⟩ := Package.kind_of_isPlain hpl
    rw [entry_of_package hr] at he
    rw [hk]
    unfold childOfPlain
    rw [if_pos hhome, he]
    exact Gives.pure _

theorem resolve_known (h : env.Recalls m path answer) :
    (resolve m path).Gives env answer env := by
  induction h with
  | top hs => exact (view_known hs).bind (Gives.pure _)
  | lost _ ih => exact ih.bind (Gives.pure _)
  | @problem path name c r _ hr hv ih =>
    refine ih.bind ((Gives.ask hr).bind ?_)
    have hk : r.kind = .problem := by simpa [Package.isValid] using hv
    rw [hk]
    exact Gives.pure _
  | entry _ hr hfor he ih => exact ih.bind (child_known hr hfor he)
  | @seen path name c r ref _ hr hpl hhome hs ih =>
    refine ih.bind ((Gives.ask hr).bind ?_)
    obtain ⟨plain, hk⟩ := Package.kind_of_isPlain hpl
    rw [hk]
    unfold childOfPlain
    rw [if_neg hhome]
    exact (view_known hs).bind (Gives.pure _)

/-! ## After a resolution -/

/-- What a step down leaves answers for it from then on, or the step strayed. -/
theorem child_recalls (hc : mid.Coherent) (ho : mid.Orderly .pathwise)
    (hm : ∃ record, mid.module m = .ok record) (hr : mid.package c = .ok r) (name : String) :
    (child c name m).Ensures mid fun answer after => mid.Continues after ∧
      ∀ later, after.Continues later → later.Recalls m path (some c) →
        later.Recalls m (.sub path name) answer ∨
          (r.isSplit = true ∧ mid.entry c name = none ∨ r.isPlain = true ∧ r.home = m) ∧
            ∃ ref, later.entry c name = some ref ∧ ref.package? ≠ answer := by
  obtain ⟨answer, after, hg, hch, hans, hent⟩ := child_spec hc hr hm name
  have hlater : mid.Continues after := ⟨(hg.allowed (child_proceeds ho hr name m)).1, hch⟩
  refine ⟨answer, after, hg, hlater, fun later hl hrec => ?_⟩
  obtain ⟨r', hr', e⟩ := (hlater.trans hl).changes.keeps.packages hr
  have hhome : r'.home = r.home := Package.home_eq_of_bare e
  by_cases hfor : r.EntriesFor m
  · have hfor' : r'.EntriesFor m := by
      rw [Package.EntriesFor, Package.isSplit_eq_of_bare e, Package.isPlain_eq_of_bare e, hhome]
      exact hfor
    obtain ⟨ref, he⟩ := hl.changes.entry (hent hfor)
    by_cases heq : ref.package? = answer
    · exact .inl (heq ▸ .entry hrec hr' hfor' he)
    refine .inr ⟨hfor.imp_left fun hs => ⟨hs, ?_⟩, ref, he, heq⟩
    -- a split that had an entry still has it
    cases hold : mid.entry c name with
    | none => rfl
    | some ref0 =>
      have he' := (hlater.trans hl).settles trivial c r name ref0 hr hs (Option.some_ne_none _).symm
        hold
      rw [he] at he'
      cases he'
      obtain ⟨j', hj⟩ := hg .empty
      exact absurd ((child_known hr (.inl hs) hold).of_run hj).1.symm heq
  · refine .inl ?_
    cases hans with
    | problem hk =>
      refine .problem hrec hr' ?_
      rw [Package.isValid_eq_of_bare e]
      simp [Package.isValid, hk]
    | stored hfor' _ => exact absurd hfor' hfor
    | @seen ref hpl hs =>
      refine .seen hrec hr' ((Package.isPlain_eq_of_bare e).trans hpl) ?_ ?_
      · rw [hhome]
        exact fun h => hfor (.inr ⟨hpl, h⟩)
      · rw [Package.path_eq_of_bare e]
        exact hl.changes.seen hs
    | searched hs => exact absurd (.inl hs) hfor

/-- What a resolution leaves answers for the path from then on, or it strayed. -/
theorem resolve_recalls (hc : env.Coherent) (ho : env.Orderly .pathwise)
    (hm : ∃ record, env.module m = .ok record) : ∀ path,
    (resolve m path).Ensures env fun answer after => env.Continues after ∧
      ∀ later, after.Continues later → later.Recalls m path answer ∨ env.Strays m path later
  | .top name => by
    obtain ⟨ref, after, hg, hch, -, hs⟩ := view_spec hc hm (.top name)
    refine ⟨ref.package?, after, hg.bind (Gives.pure _), ⟨?_, hch⟩, fun later hl => ?_⟩
    · exact (hg.allowed (view_views ho (.top name))).proceeds
    · exact .inl (.top (hl.changes.seen hs))
  | .sub above name => by
    obtain ⟨a, mid, hg, hmid, habove⟩ := resolve_recalls hc ho hm above
    cases a with
    | none =>
      refine ⟨none, mid, hg.bind (Gives.pure _), hmid, fun later hl => ?_⟩
      exact (habove later hl).imp .lost .deeper
    | some c =>
      obtain ⟨r, hr, -⟩ := (hg.allowed (resolve_proceeds ho above)).2 c rfl
      obtain ⟨answer, after, hg', hafter, hrec⟩ := child_recalls (hmid.changes.coherent hc)
        hmid.orderly (hmid.changes.keeps.module_ok hm) hr name
      refine ⟨answer, after, hg.bind hg', hmid.trans hafter, fun later hl => ?_⟩
      rcases habove later (hafter.trans hl) with h | h
      · refine (hrec later hl h).imp_right fun ⟨hkind, ref, he, hne⟩ => ?_
        exact .below (Path.isPrefixOf_refl _) hg hr hkind hg' he hne
      · exact .inr h.deeper

end Lookup

namespace Environment

open Lookup

variable {env : Environment} {config : Config} {m : ModuleId}

/-- Where builders and lookups lead, a module that resolves a path twice gets the same answer
without any change the second time, or strayed the first time. -/
theorem resolve_again_or_strays
    (h : Environment.empty.Reaches config (fun r => r.builds || r.looks) env)
    (hm : m.index < env.modules.size) (path : Path) :
    ∃ answer after, (resolve m path).Gives env answer after ∧
      ((resolve m path).Gives after answer after ∨ env.Strays m path after) := by
  obtain ⟨answer, after, hg, hlater, hrec⟩ := resolve_recalls (h.coherent coherent_empty)
    (h.develops.orderly (orderly_empty _)) (module_of_lt_size hm) path
  exact ⟨answer, after, hg, (hrec after (.refl hlater.orderly)).imp_left resolve_known⟩

def answersTwice (m : ModuleId) (path : Path) (env : Environment) :
    Option (Option PackageId × Option PackageId) :=
  match resolve m path ⟨env, .empty⟩ with
  | .error _ => none
  | .ok (first, s) =>
    match resolve m path ⟨s.env, .empty⟩ with
    | .error _ => none
    | .ok (second, _) => some (first, second)

theorem answersTwice_of_gives {path : Path} {first second : Option PackageId}
    {mid after : Environment} (h : (resolve m path).Gives env first mid)
    (h2 : (resolve m path).Gives mid second after) :
    env.answersTwice m path = some (first, second) := by
  obtain ⟨_, hrun⟩ := h .empty
  obtain ⟨_, hrun2⟩ := h2 .empty
  simp only [answersTwice, hrun, hrun2]

/-- Two modules share a package and a package below it, and a third module reads both. -/
def sharedTwice : List Request :=
  [.addModule "a" false, .addModule "b" false, .addModule "n" false,
    .declarePackage ⟨0⟩ (.sub (.sub (.top "com") "foo") "bar"),
    .declarePackage ⟨1⟩ (.sub (.sub (.top "com") "foo") "bar"),
    .addExport ⟨0⟩ (.sub (.top "com") "foo"), .addExport ⟨1⟩ (.sub (.top "com") "foo"),
    .addRead ⟨2⟩ ⟨0⟩, .addRead ⟨2⟩ ⟨1⟩]

theorem resolve_again_or_strays_sharedTwice :
    ∃ env, Environment.empty.Reaches .standard (fun r => r.builds || r.looks) env ∧
      2 < env.modules.size ∧
      env.answersTwice ⟨2⟩ (.sub (.sub (.top "com") "foo") "bar") = some (some ⟨8⟩, some ⟨8⟩) ∧
      ∃ answer after,
        (resolve ⟨2⟩ (.sub (.sub (.top "com") "foo") "bar")).Gives env answer after ∧
        ((resolve ⟨2⟩ (.sub (.sub (.top "com") "foo") "bar")).Gives after answer after ∨
          env.Strays ⟨2⟩ (.sub (.sub (.top "com") "foo") "bar") after) := by
  have hrun : (replay .standard (fun r => r.builds || r.looks) sharedTwice .empty).any (fun env =>
      2 < env.modules.size && env.answersTwice ⟨2⟩ (.sub (.sub (.top "com") "foo") "bar") =
        some (some ⟨8⟩, some ⟨8⟩)) = true := by decide +kernel
  obtain ⟨env, henv, hrun⟩ := (Option.any_eq_true _ _).mp hrun
  obtain ⟨hsize, htwice⟩ := (Bool.and_eq_true _ _).mp hrun
  have hreach := reaches_of_replay henv
  have hsize : 2 < env.modules.size := of_decide_eq_true hsize
  exact ⟨env, hreach, hsize, of_decide_eq_true htwice, resolve_again_or_strays hreach hsize _⟩

/-- A module declares a package of which it also reads and sees an exported part. -/
def exportedPart : List Request :=
  [.addModule "m" false, .addModule "k" false, .declarePackage ⟨0⟩ (.sub (.top "com") "foo"),
    .declarePackage ⟨1⟩ (.sub (.top "com") "foo"), .addExport ⟨1⟩ (.sub (.top "com") "foo"),
    .addRead ⟨0⟩ ⟨1⟩]

theorem resolve_again_differs :
    ¬ ∀ {config : Config} {env : Environment} {m : ModuleId} (path : Path),
      Environment.empty.Reaches config Request.builds env → m.index < env.modules.size →
      ∃ answer mid after, (resolve m path).Gives env answer mid ∧
        (resolve m path).Gives mid answer after ∧ after.packages.size = mid.packages.size := by
  intro h
  have hrun : (replay .standard Request.builds exportedPart .empty).any (fun env =>
      0 < env.modules.size && env.answersTwice ⟨0⟩ (.sub (.top "com") "foo") =
        some (some ⟨6⟩, some ⟨5⟩)) = true := by decide +kernel
  obtain ⟨env, henv, hrun⟩ := (Option.any_eq_true _ _).mp hrun
  obtain ⟨hsize, htwice⟩ := (Bool.and_eq_true _ _).mp hrun
  obtain ⟨answer, mid, after, hfirst, hsecond, -⟩ := h (.sub (.top "com") "foo")
    (reaches_of_replay henv) (of_decide_eq_true hsize)
  rw [answersTwice_of_gives hfirst hsecond] at htwice
  cases of_decide_eq_true htwice

end Environment

end SplitPackages
