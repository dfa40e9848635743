import SplitPackages.Proofs.Requests

/-!
# How splits are represented

What makes up a split is told three times: by its incarnations, by its declaring
modules and by what the incarnations say of the splits around them. In every
state that requests reach the three agree (`represents_of_reaches`), also if
bindings of different paths, splits or a split and itself are combined. So the
ways to ask whether a module contributes to a binding have the same answer.
-/

namespace SplitPackages.Environment

structure Represents (env : Environment) : Prop where
  distinct : ∀ {s rs}, env.package s = .ok rs → rs.isSplit = true → rs.incarnations.Nodup
  plain : ∀ {s rs i}, env.package s = .ok rs → rs.isSplit = true → i ∈ rs.incarnations →
    ∃ r, env.package i = .ok r ∧ r.isPlain = true
  /-- The homes of the incarnations, at their first occurrences. -/
  declaring : ∀ {s rs}, env.package s = .ok rs → rs.isSplit = true →
    rs.declaring = (OrderedSet.ofList (env.homes rs.incarnations)).toList
  /-- A plain binding lists just the splits that list it. -/
  wrapped : ∀ {p r} (s), env.package p = .ok r → r.isPlain = true →
    (s ∈ r.wrappedBy ↔ ∃ rs, env.package s = .ok rs ∧ rs.isSplit = true ∧ p ∈ rs.incarnations)
  /-- The questions about a module are answered, and alike, for a binding of any kind. -/
  contributes : ∀ {b r} (m), env.package b = .ok r → ∃ declared incarnation,
    env.isDeclaredIn b m = .ok declared ∧ env.incarnation b m = .ok incarnation ∧
      (declared = true ↔ m ∈ r.declaring) ∧ (incarnation.isSome = true ↔ m ∈ r.declaring)

variable {env : Environment} {config : Config} {p : PackageId}

theorem Wired.represents (hw : env.Wired) : env.Represents where
  distinct {s rs} _ _ := rs.incarnations_nodup
  plain hs _ hi := hw.plain_of_mem hs hi
  declaring hs hsplit := hw.declaring hs hsplit
  wrapped {p r} s hp _ := by
    rw [← wrappersOf_of_package hp, hw.wrapped]
    constructor
    · intro hi
      obtain ⟨rs, hrs, hi⟩ := package_of_mem_incarnationsOf hi
      refine ⟨rs, hrs, ?_, hi⟩
      cases hs : rs.isSplit with
      | true => rfl
      | false =>
        rw [Package.incarnations_of_not_isSplit hs] at hi
        cases hi
    · rintro ⟨rs, hrs, -, hi⟩
      rwa [incarnationsOf_of_package hrs]
  contributes {b r} m hb := by
    obtain ⟨incarnation, hinc, hinc', -⟩ := hw.incarnation_iff hb m
    exact ⟨_, incarnation, isDeclaredIn_ok hb m, hinc, decide_eq_true_iff, hinc'⟩

/-- Whatever is asked of an environment, the three accounts of its splits agree. -/
theorem represents_of_reaches (h : Environment.empty.Reaches config (fun _ => true) env) :
    env.Represents :=
  (h.orderly (orderly_empty _)).wired.represents

/-- Two modules share a package; to the split of it a package of another path is added, and then
the split itself. -/
def mixedSplit : List Request :=
  [.addModule "a" false, .addModule "b" false, .declarePackage ⟨0⟩ (.top "foo"),
    .declarePackage ⟨1⟩ (.top "foo"), .declarePackage ⟨1⟩ (.top "bar"),
    .combine (some (.package ⟨1⟩)) (some (.package ⟨0⟩)) ⟨0⟩, .addToSplit ⟨3⟩ ⟨2⟩,
    .addToSplit ⟨3⟩ ⟨3⟩]

theorem represents_mixedSplit :
    ∃ env, Environment.empty.Reaches .standard (fun _ => true) env ∧
      env.incarnationsOf ⟨3⟩ = [⟨0⟩, ⟨1⟩, ⟨2⟩] ∧ env.Represents := by
  have hrun : (replay .standard (fun _ => true) mixedSplit .empty).any (fun env =>
      env.incarnationsOf ⟨3⟩ = [⟨0⟩, ⟨1⟩, ⟨2⟩]) = true := by decide +kernel
  obtain ⟨env, henv, hsplit⟩ := (Option.any_eq_true _ _).mp hrun
  have hreach := reaches_of_replay henv
  exact ⟨env, hreach, of_decide_eq_true hsplit, represents_of_reaches hreach⟩

end SplitPackages.Environment
