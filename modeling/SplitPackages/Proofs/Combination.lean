import SplitPackages.Combine
import SplitPackages.Proofs.NewSplit

/-!
# The outcome of combining candidates

In a coherent environment it is fixed what `combine` and `combineAll` return for
candidates of one path, and what they change. `Chooses` is the outcome for two
valid bindings (`combine_chooses`); of other pairs the better one is taken
(`combine_better`). `Collects` is the outcome for any number of candidates
(`combineAll_collects`). A new split is the only change, and it is sound, so the
environment grows.

A candidate is ranked by `grade` and has the plain bindings `partsOf`. Only what
is valid has parts.
-/

namespace SplitPackages

namespace Environment

/-- The plain bindings that contribute to a candidate. -/
def partsOf (env : Environment) : Option Ref → List PackageId
  | some (.package p) => env.parts p
  | _ => []

/-- The rank of a reference that names a record. -/
def rankOf (env : Environment) : Ref → Rank
  | .notFound => .notFound
  | .package p => if env.valid p then .valid else .problem

/-- The rank of a candidate whose binding, if it has one, exists. -/
def grade (env : Environment) : Option Ref → Rank
  | none => .absent
  | some ref => env.rankOf ref

def graded (env : Environment) (cs : List (Option Ref)) : List (Rank × Option Ref) :=
  cs.map fun c => (env.grade c, c)

/-- The valid bindings among the candidates. -/
def validAmong (env : Environment) (cs : List (Option Ref)) : List PackageId :=
  (bindings cs).filter env.valid

/-- The plain bindings that make up the candidates, in order of first occurrence. -/
def allParts (env : Environment) (cs : List (Option Ref)) : List PackageId :=
  (OrderedSet.ofList (cs.flatMap env.partsOf)).toList

/-- The result has the rank `best` and the parts of all candidates. -/
structure Sums (env : Environment) (cs : List (Option Ref)) (best : Rank) (result : Option Ref)
    (after : Environment) : Prop where
  rank : after.rank result = .ok best
  parts : ∀ i, i ∈ after.partsOf result ↔ ∃ c ∈ cs, i ∈ env.partsOf c

/-- What becomes of two valid bindings: one that subsumes the other is taken, the second one only if
the first does not subsume it; otherwise both make up a new split. -/
inductive Chooses (env : Environment) (primary : ModuleId) (first second : PackageId) :
    PackageId → Environment → Prop
  | first : env.subsumes first second = .ok true → env.Chooses primary first second first env
  | second : env.subsumes first second = .ok false → env.subsumes second first = .ok true →
      env.Chooses primary first second second env
  | split {r : Package} {after : Environment} : env.subsumes first second = .ok false →
      env.subsumes second first = .ok false → env.package first = .ok r →
      env.Allots primary r.path r.parent [first, second] after →
      env.Chooses primary first second ⟨env.packages.size⟩ after

/-- What becomes of candidates that are combined at once. -/
inductive Collects (env : Environment) (primary : ModuleId) (cs : List (Option Ref)) :
    Option Ref → Environment → Prop
  | nothing : cs = [] → env.Collects primary cs none env
  /-- None is valid: the first one of the best rank. -/
  | first {before rest : List (Option Ref)} {c : Option Ref} {best : Rank} :
      cs = before ++ c :: rest → env.rank c = .ok best → best ≠ .valid →
      (∀ b ∈ before, env.rank b ≠ .ok best) →
      (∀ d ∈ cs, ∃ other, env.rank d = .ok other ∧ other.toNat ≤ best.toNat) →
      env.Collects primary cs c env
  | one {p : PackageId} : env.validAmong cs = [p] →
      env.Collects primary cs (some (.package p)) env
  /-- Several are valid, but they are made of one plain binding: the split that was made of them
  is left behind. -/
  | peeled {p q i : PackageId} {ps : List PackageId} {r ri : Package} {after : Environment} :
      env.validAmong cs = p :: q :: ps → env.allParts cs = [i] → env.package i = .ok ri →
      ri.isPlain = true → env.package p = .ok r →
      env.Allots primary r.path r.parent (p :: q :: ps) after →
      env.Collects primary cs (some (.package i)) after
  | split {p q : PackageId} {ps : List PackageId} {r : Package} {after : Environment} :
      env.validAmong cs = p :: q :: ps → (∀ i, env.allParts cs ≠ [i]) → env.package p = .ok r →
      env.Allots primary r.path r.parent (p :: q :: ps) after →
      after.incarnationsOf ⟨env.packages.size⟩ = env.allParts cs →
      env.Collects primary cs (some (.package ⟨env.packages.size⟩)) after

variable {env after : Environment} {c result : Option Ref} {cs : List (Option Ref)} {ref : Ref}
  {i p q : PackageId} {primary : ModuleId} {r : Package} {path : Path} {best : Rank}
  {ps : List PackageId}

theorem Binds.there (h : env.Binds p path) : ∃ r, env.package p = .ok r :=
  h.imp fun _ => And.left

theorem mem_bindings : p ∈ bindings cs ↔ some (.package p) ∈ cs := by
  unfold bindings
  rw [List.mem_filterMap]
  constructor
  · rintro ⟨c, hc, h⟩
    obtain ⟨ref, rfl, h⟩ := Option.bind_eq_some_iff.mp h
    cases ref with
    | notFound => cases h
    | package q => cases h; exact hc
  · exact fun h => ⟨_, h, rfl⟩

theorem bindings_map (ps : List PackageId) :
    bindings (ps.map fun p => some (.package p)) = ps := by
  induction ps with
  | nil => rfl
  | cons p ps ih => simpa [bindings, Ref.package?] using ih

/-! ## Ranks -/

theorem toNat_max (a b : Rank) : (a.max b).toNat = Max.max a.toNat b.toNat := by
  cases a <;> cases b <;> rfl

theorem toNat_inj {a b : Rank} (h : a.toNat = b.toNat) : a = b := by
  cases a <;> cases b <;> first | rfl | cases h

theorem eq_valid_of_le {a : Rank} (h : Rank.valid.toNat ≤ a.toNat) : a = .valid := by
  cases a <;> first | rfl | exact absurd h (by decide)

theorem rank_package (hp : ∃ r, env.package p = .ok r) :
    env.rank (some (.package p)) = .ok (env.rankOf (.package p)) := by
  obtain ⟨r, hr⟩ := hp
  simp only [rank, rankOf, valid, hr, bind, Except.bind]
  rfl

theorem rank_grade (h : ∀ p, c = some (.package p) → ∃ r, env.package p = .ok r) :
    env.rank c = .ok (env.grade c) := by
  rcases c with _ | _ | p
  · rfl
  · rfl
  · exact rank_package (h p rfl)

theorem rank_of_mem (h : ∀ p ∈ bindings cs, ∃ r, env.package p = .ok r) (hc : c ∈ cs) :
    env.rank c = .ok (env.grade c) :=
  rank_grade fun p e => h p (mem_bindings.mpr (e ▸ hc))

theorem rankAll_graded (h : ∀ p ∈ bindings cs, ∃ r, env.package p = .ok r) :
    env.rankAll cs = .ok (env.graded cs) := by
  induction cs with
  | nil => rfl
  | cons c cs ih =>
    have hrank := rank_of_mem h List.mem_cons_self
    have ih := ih fun p hp => h p (mem_bindings.mpr (List.mem_cons_of_mem _ (mem_bindings.mp hp)))
    simp only [rankAll, hrank, ih, bind, Except.bind]
    rfl

/-- A candidate of the best rank is a valid binding. -/
theorem eq_package_of_grade (h : env.grade c = .valid) :
    ∃ p, c = some (.package p) ∧ env.valid p = true := by
  rcases c with _ | _ | p
  · cases h
  · cases h
  · by_cases hv : env.valid p = true
    · exact ⟨p, rfl, hv⟩
    · simp [grade, rankOf, hv] at h

theorem grade_valid (h : env.valid p = true) : env.grade (some (.package p)) = .valid := by
  simp only [grade, rankOf, h, if_true]

/-! ### The best rank -/

theorem foldl_max_le (best : Rank) (ranked : List (Rank × Option Ref)) (n : Nat) :
    (ranked.foldl (fun best c => best.max c.1) best).toNat ≤ n ↔
      best.toNat ≤ n ∧ ∀ c ∈ ranked, c.1.toNat ≤ n := by
  induction ranked generalizing best with
  | nil => simp
  | cons c ranked ih =>
    rw [List.foldl_cons, ih, toNat_max, Nat.max_le, List.forall_mem_cons, and_assoc]

theorem foldl_max_mem (best : Rank) (ranked : List (Rank × Option Ref)) :
    ranked.foldl (fun best c => best.max c.1) best = best ∨
      ∃ c ∈ ranked, c.1 = ranked.foldl (fun best c => best.max c.1) best := by
  induction ranked generalizing best with
  | nil => exact .inl rfl
  | cons c ranked ih =>
    rw [List.foldl_cons]
    rcases ih (best.max c.1) with h | ⟨d, hd, h⟩
    · rw [h]
      unfold Rank.max
      split
      · exact .inr ⟨c, List.mem_cons_self, rfl⟩
      · exact .inl rfl
    · exact .inr ⟨d, List.mem_cons_of_mem _ hd, h⟩

/-- The best rank is the least bound of the ranks. -/
theorem bestRank_le (n : Nat) :
    (bestRank (env.graded cs)).toNat ≤ n ↔ ∀ c ∈ cs, (env.grade c).toNat ≤ n := by
  rw [bestRank, foldl_max_le, graded, List.forall_mem_map]
  exact and_iff_right (Nat.zero_le n)

theorem le_bestRank (hc : c ∈ cs) : (env.grade c).toNat ≤ (bestRank (env.graded cs)).toNat :=
  (bestRank_le _).mp (Nat.le_refl _) c hc

theorem exists_bestRank (env : Environment) (hne : cs ≠ []) :
    ∃ c ∈ cs, env.grade c = bestRank (env.graded cs) := by
  rcases foldl_max_mem .absent (env.graded cs) with h | ⟨_, hranked, h⟩
  · -- no rank is worse than `absent`
    obtain ⟨c, hc⟩ := List.exists_mem_of_ne_nil _ hne
    have hle : (env.grade c).toNat ≤ (bestRank (env.graded cs)).toNat := le_bestRank hc
    rw [bestRank, h] at hle
    refine ⟨c, hc, toNat_inj ?_⟩
    rw [bestRank, h]
    exact Nat.le_zero.mp hle
  · obtain ⟨c, hc, rfl⟩ := List.mem_map.mp hranked
    exact ⟨c, hc, h⟩

/-- Two lists whose ranks have the same bounds have the same best rank. -/
theorem bestRank_congr {env' : Environment} {cs' : List (Option Ref)}
    (h : ∀ n, (∀ c ∈ cs', (env'.grade c).toNat ≤ n) ↔ ∀ c ∈ cs, (env.grade c).toNat ≤ n) :
    bestRank (env'.graded cs') = bestRank (env.graded cs) := by
  have hle (n : Nat) := (bestRank_le n).trans ((h n).trans (bestRank_le n).symm)
  exact toNat_inj (Nat.le_antisymm ((hle _).mpr (Nat.le_refl _)) ((hle _).mp (Nat.le_refl _)))

/-! ## The valid candidates and their parts -/

theorem mem_validAmong : p ∈ env.validAmong cs ↔ some (.package p) ∈ cs ∧ env.valid p = true := by
  rw [validAmong, List.mem_filter, mem_bindings]

/-- The candidates of the rank of valid bindings are those bindings. -/
theorem ofRank_graded (env : Environment) (cs : List (Option Ref)) :
    ofRank .valid (env.graded cs) = (env.validAmong cs).map fun p => some (.package p) := by
  induction cs with
  | nil => rfl
  | cons c cs ih =>
    unfold ofRank graded validAmong bindings at ih ⊢
    rcases c with _ | _ | p
    · exact ih
    · exact ih
    · by_cases hv : env.valid p = true <;> simpa [grade, rankOf, Ref.package?, hv] using ih

theorem mem_ofRank_graded (h : c ∈ ofRank best (env.graded cs)) :
    c ∈ cs ∧ env.grade c = best := by
  obtain ⟨_, hd, rfl⟩ := List.mem_map.mp h
  obtain ⟨hd, hbest⟩ := List.mem_filter.mp hd
  obtain ⟨c, hc, rfl⟩ := List.mem_map.mp hd
  exact ⟨hc, of_decide_eq_true hbest⟩

/-- Some candidate has the best rank, if there is any. -/
theorem eq_nil_of_ofRank (h : ofRank (bestRank (env.graded cs)) (env.graded cs) = []) :
    cs = [] := by
  refine Decidable.byContradiction fun hne => ?_
  obtain ⟨c, hc, hbest⟩ := exists_bestRank env hne
  refine List.not_mem_nil (a := c) (h ▸ List.mem_map.mpr ⟨(env.grade c, c), ?_, rfl⟩)
  exact List.mem_filter.mpr ⟨List.mem_map_of_mem hc, decide_eq_true hbest⟩

/-- The first of the candidates of a rank, with those before it. -/
theorem ofRank_eq_cons {rest : List (Option Ref)} (h : ofRank best (env.graded cs) = c :: rest) :
    ∃ before later, cs = before ++ c :: later ∧ env.grade c = best ∧
      ∀ b ∈ before, env.grade b ≠ best := by
  unfold ofRank at h
  obtain ⟨⟨rank, c'⟩, kept, hfilter, rfl, -⟩ := List.map_eq_cons_iff.mp h
  obtain ⟨before, later, hgraded, hbefore, hbest, -⟩ := List.filter_eq_cons_iff.mp hfilter
  obtain ⟨before', later', hcs, rfl, hlater⟩ := List.map_eq_append_iff.mp hgraded
  obtain ⟨c, rest', rfl, hc, -⟩ := List.map_eq_cons_iff.mp hlater
  cases hc
  refine ⟨before', rest', hcs, of_decide_eq_true hbest, fun b hb e => ?_⟩
  exact hbefore _ (List.mem_map_of_mem hb) (decide_eq_true e)

theorem valid_of_mem_parts (h : i ∈ env.parts p) : env.valid p = true := by
  unfold Environment.parts at h
  split at h
  · next r hr =>
    rw [valid_of_package hr, Package.isValid]
    cases hk : r.kind with
    | plain plain => rfl
    | split s => rfl
    | problem => simp [Package.contributors, hk] at h
  · cases h

theorem grade_of_mem_partsOf (h : i ∈ env.partsOf c) : env.grade c = .valid := by
  rcases c with _ | _ | p
  · cases h
  · cases h
  · exact grade_valid (valid_of_mem_parts h)

theorem flatMap_partsOf (env : Environment) (cs : List (Option Ref)) :
    cs.flatMap env.partsOf = (env.validAmong cs).flatMap env.parts := by
  induction cs with
  | nil => rfl
  | cons c cs ih =>
    rw [List.flatMap_cons, ih]
    rcases c with _ | _ | p
    · rfl
    · rfl
    · unfold validAmong bindings
      by_cases hv : env.valid p = true
      · simp [partsOf, Ref.package?, hv]
      · have hnone : env.parts p = [] :=
          List.eq_nil_iff_forall_not_mem.mpr fun i hi => hv (valid_of_mem_parts hi)
        simp [partsOf, Ref.package?, hv, hnone]

theorem mem_allParts : i ∈ env.allParts cs ↔ ∃ c ∈ cs, i ∈ env.partsOf c := by
  rw [allParts, ← OrderedSet.mem_def, OrderedSet.mem_ofList, List.mem_flatMap]

theorem allParts_eq (h : env.validAmong cs = ps) :
    env.allParts cs = (OrderedSet.ofList (ps.flatMap env.parts)).toList := by
  rw [allParts, flatMap_partsOf, h]

theorem binds_of_mem_validAmong (hb : ∀ p ∈ bindings cs, env.Binds p path)
    (hp : p ∈ env.validAmong cs) : env.Binds p path :=
  hb p (List.mem_filter.mp hp).1

/-! ## Subsumption -/

theorem subsumes_ok (hp : env.Binds p path) (hq : env.Binds q path) :
    ∃ b, env.subsumes p q = .ok b ∧
      (b = true → env.valid q = true → ∀ k ∈ env.members q, k ∈ env.members p) := by
  obtain ⟨r, hr, hpath⟩ := hp
  obtain ⟨rq, hrq, hpathq⟩ := hq
  unfold subsumes
  simp only [hr, hrq, bind, Except.bind]
  by_cases hs : r.isSplit = true
  · obtain ⟨s, hk⟩ := Package.kind_of_isSplit hs
    simp only [hk, hpath, hpathq, ne_eq, not_true_eq_false, if_false]
    rw [valid_of_package hrq, members_of_package hrq, members_of_package hr]
    simp only [Package.declaring, hk]
    cases hkq : rq.kind with
    | split inner =>
      refine ⟨_, rfl, fun h _ k hk => ?_⟩
      exact of_decide_eq_true (List.all_eq_true.mp h k hk)
    | plain plain =>
      refine ⟨_, rfl, fun h _ k hk => ?_⟩
      rw [List.mem_singleton.mp hk]
      exact of_decide_eq_true h
    | problem =>
      exact ⟨_, rfl, fun _ _ k hk => absurd hk List.not_mem_nil⟩
  · refine ⟨decide (p = q), ?_, fun h _ k hk => ?_⟩
    · cases hk : r.kind with
      | split s => exact absurd (Package.isSplit_of_kind hk) hs
      | plain plain => rfl
      | problem => rfl
    · rw [of_decide_eq_true h]
      exact hk

/-! ## What the outcomes have in common -/

namespace Chooses

variable {first second : PackageId}

theorem grows (h : env.Chooses primary first second q after) (hc : env.Coherent)
    (hm : ∃ record, env.module primary = .ok record) (hfirst : env.Binds first path)
    (hsecond : env.Binds second path) : env.Grows after := by
  cases h with
  | first => exact .refl env
  | second => exact .refl env
  | split _ _ hr ha =>
    obtain ⟨r, hr', rfl⟩ := hfirst
    cases package_unique hr hr'
    exact ha.grows hc hm (by simp [hsecond, show env.Binds first _ from ⟨_, hr, rfl⟩])

theorem binds (h : env.Chooses primary first second q after) (hfirst : env.Binds first path)
    (hsecond : env.Binds second path) : after.Binds q path := by
  cases h with
  | first => exact hfirst
  | second => exact hsecond
  | split _ _ hr ha =>
    obtain ⟨r, hr', rfl⟩ := hfirst
    cases package_unique hr hr'
    exact ⟨_, ha.record, rfl⟩

end Chooses

/-- A valid binding with all parts has the best rank if any candidate is valid. -/
theorem sums_of_valid (hp : p ∈ env.validAmong cs) (hq : after.Binds q path)
    (hv : after.valid q = true) (hparts : ∀ i, i ∈ after.parts q ↔ i ∈ env.allParts cs) :
    env.Sums cs (bestRank (env.graded cs)) (some (.package q)) after where
  rank := by
    obtain ⟨hmem, hvp⟩ := mem_validAmong.mp hp
    have hbest : bestRank (env.graded cs) = .valid :=
      eq_valid_of_le (grade_valid hvp ▸ le_bestRank hmem)
    rw [rank_package hq.there, hbest]
    exact congrArg Except.ok (grade_valid hv)
  parts i := (hparts i).trans mem_allParts

/-- If the best rank is worse than that of valid bindings, no candidate has parts. -/
theorem sums_of_worse (h : ∀ p ∈ bindings cs, ∃ r, env.package p = .ok r) (hc : c ∈ cs)
    (hbest : env.rank c = .ok best) (hne : best ≠ .valid)
    (hmax : ∀ d ∈ cs, ∃ other, env.rank d = .ok other ∧ other.toNat ≤ best.toNat) :
    env.Sums cs (bestRank (env.graded cs)) c env := by
  have hle (d : Option Ref) (hd : d ∈ cs) : (env.grade d).toNat ≤ best.toNat := by
    obtain ⟨other, ho, hle⟩ := hmax d hd
    rw [rank_of_mem h hd] at ho
    cases ho
    exact hle
  have hgrade : env.grade c = best := Except.ok.inj ((rank_of_mem h hc).symm.trans hbest)
  have hall : bestRank (env.graded cs) = best :=
    toNat_inj (Nat.le_antisymm ((bestRank_le _).mpr hle) (hgrade ▸ le_bestRank hc))
  have hnone (d : Option Ref) (hd : d ∈ cs) (i : PackageId) : i ∉ env.partsOf d := by
    intro hi
    have hd := hle d hd
    rw [grade_of_mem_partsOf hi] at hd
    exact hne (eq_valid_of_le hd)
  refine ⟨hall ▸ hbest, fun i => iff_of_false (hnone c hc i) ?_⟩
  rintro ⟨d, hd, hi⟩
  exact hnone d hd i hi

namespace Collects

theorem grows (h : env.Collects primary cs result after) (hc : env.Coherent)
    (hm : ∃ record, env.module primary = .ok record) (hb : ∀ p ∈ bindings cs, env.Binds p path) :
    env.Grows after := by
  cases h with
  | nothing => exact .refl env
  | first => exact .refl env
  | one => exact .refl env
  | @peeled p q i ps r ri after hmany _ _ _ hr ha =>
    have hps (x : PackageId) (hx : x ∈ p :: q :: ps) : env.Binds x path :=
      binds_of_mem_validAmong hb (hmany ▸ hx)
    obtain ⟨r', hr', rfl⟩ := hps p List.mem_cons_self
    cases package_unique hr hr'
    exact ha.grows hc hm hps
  | @split p q ps r after hmany _ hr ha =>
    have hps (x : PackageId) (hx : x ∈ p :: q :: ps) : env.Binds x path :=
      binds_of_mem_validAmong hb (hmany ▸ hx)
    obtain ⟨r', hr', rfl⟩ := hps p List.mem_cons_self
    cases package_unique hr hr'
    exact ha.grows hc hm hps

/-- Whichever candidate or split is returned, it has the best rank and all parts. -/
theorem sums (h : env.Collects primary cs result after)
    (hb : ∀ p ∈ bindings cs, env.Binds p path) :
    env.Sums cs (bestRank (env.graded cs)) result after := by
  cases h with
  | nothing e =>
    subst e
    exact ⟨rfl, fun i => by simp [partsOf]⟩
  | @first before rest _ best hcs hbest hne _ hmax =>
    exact sums_of_worse (fun p hp => (hb p hp).there) (by simp [hcs]) hbest hne hmax
  | @one p hone =>
    have hp : p ∈ env.validAmong cs := hone ▸ List.mem_singleton_self p
    refine sums_of_valid hp (binds_of_mem_validAmong hb hp) (mem_validAmong.mp hp).2 fun i => ?_
    rw [allParts_eq hone, ← OrderedSet.mem_def, OrderedSet.mem_ofList, List.flatMap_singleton]
  | @peeled p q i ps r ri after hmany honly hri hpl _ ha =>
    obtain ⟨ri', hri', e⟩ := ha.old hri
    have hpl' : ri'.isPlain = true :=
      (Package.isPlain_eq_of_bare (Package.bare_eq_of_unwrapped e)).trans hpl
    refine sums_of_valid (hmany ▸ List.mem_cons_self) ⟨ri', hri', rfl⟩ ?_ fun j => ?_
    · rw [valid_of_package hri', Package.isValid_of_isPlain hpl']
    · rw [honly, parts_of_package hri', Package.contributors_of_isPlain hpl']
  | @split p q ps r after hmany _ hr ha _ =>
    refine sums_of_valid (hmany ▸ List.mem_cons_self) ⟨_, ha.record, rfl⟩ ?_ fun j => ?_
    · rw [valid_of_package ha.record]
      rfl
    · rw [allParts_eq hmany, ← OrderedSet.mem_def, OrderedSet.mem_ofList, List.mem_flatMap]
      exact ha.mem_parts

end Collects

theorem Keeps.grade (h : env.Keeps after) (hb : ∀ p, c = some (.package p) → env.Binds p path) :
    after.grade c = env.grade c := by
  rcases c with _ | _ | p
  · rfl
  · rfl
  · obtain ⟨r, hr, -⟩ := hb p rfl
    simp only [Environment.grade, rankOf, h.valid hr]

theorem Keeps.partsOf (h : env.Keeps after)
    (hb : ∀ p, c = some (.package p) → env.Binds p path) :
    after.partsOf c = env.partsOf c := by
  rcases c with _ | _ | p
  · rfl
  · rfl
  · obtain ⟨r, hr, -⟩ := hb p rfl
    exact h.parts hr

end Environment

namespace Lookup

open Environment

variable {env : Environment} {candidate previous : Option Ref} {cs : List (Option Ref)}
  {p prev cur : PackageId} {primary : ModuleId} {r : Package} {path : Path} {ps : List PackageId}

/-! ## Two candidates -/

/-- Of two valid bindings one that subsumes the other is chosen, or else a split of both. -/
theorem combine_chooses (hc : env.Coherent) (hprev : env.Binds prev path)
    (hcur : env.Binds cur path) (hvp : env.valid prev = true) (hvc : env.valid cur = true)
    (primary : ModuleId) :
    (combine (some (.package cur)) (some (.package prev)) primary).Ensures env fun result after =>
      ∃ p, result = some (.package p) ∧ env.Chooses primary prev cur p after := by
  refine Ensures.step (Gives.ask (rank_package hprev.there)) ?_
  refine Ensures.step (Gives.ask (rank_package hcur.there)) ?_
  simp only [rankOf, hvp, hvc, if_true, Nat.lt_irrefl, if_false]
  obtain ⟨b, hb, -⟩ := subsumes_ok hprev hcur
  refine Ensures.step (Gives.ask hb) ?_
  cases b with
  | true => exact Ensures.pure ⟨prev, rfl, .first hb⟩
  | false =>
    obtain ⟨b', hb', -⟩ := subsumes_ok hcur hprev
    refine Ensures.step (Gives.ask hb') ?_
    cases b' with
    | true => exact Ensures.pure ⟨cur, rfl, .second hb hb'⟩
    | false =>
      obtain ⟨r, hr, -⟩ := hprev
      obtain ⟨rc, hrc, -⟩ := hcur
      refine Ensures.within (Ensures.step (Gives.note _) ?_)
      refine (newSplit_allots hc hr primary).bind ?_
      rintro split mid ⟨rfl, ha⟩
      obtain ⟨after, hafter, ha⟩ := ha.add hc hrc
      refine Ensures.step (Gives.update hafter) (Ensures.step (Gives.note _) (Ensures.pure ?_))
      exact ⟨_, rfl, .split hb hb' hr ha⟩

/-- Where not both candidates are valid, the better one is taken, the previous one if they tie. -/
theorem combine_better {before now : Rank} (hbefore : env.rank previous = .ok before)
    (hnow : env.rank candidate = .ok now) (hno : ¬(before = .valid ∧ now = .valid))
    (primary : ModuleId) :
    (combine candidate previous primary).Gives env
      (if before.toNat < now.toNat then candidate else previous) env := by
  refine (Gives.ask hbefore).bind ((Gives.ask hnow).bind ?_)
  split
  · exact Gives.pure _
  split
  · exact Gives.pure _
  next hle hge =>
  have htie : before = now := toNat_inj (by omega)
  subst htie
  split
  · exact absurd ⟨rfl, rfl⟩ hno
  · exact Gives.pure _

/-! ## Any number of candidates -/

/-- Gathering bindings makes one split, which is left behind if it has one incarnation only. -/
theorem gather_allots (hc : env.Coherent) (hr : env.package p = .ok r)
    (hps : ∀ q ∈ ps, ∃ r, env.package q = .ok r) (primary : ModuleId) :
    (gather p ps primary).Ensures env fun q after =>
      env.Allots primary r.path r.parent (p :: ps) after ∧
        ((∃ i, q = i ∧ (OrderedSet.ofList ((p :: ps).flatMap env.parts)).toList = [i]) ∨
          q = ⟨env.packages.size⟩ ∧
            ∀ i, (OrderedSet.ofList ((p :: ps).flatMap env.parts)).toList ≠ [i]) := by
  refine (newSplit_allots hc hr primary).bind ?_
  rintro split mid ⟨rfl, ha⟩
  obtain ⟨after, hafter, ha⟩ := ha.addAll hc ps hps
  refine Ensures.step (Gives.update hafter) (Ensures.step (Gives.ask ha.record) ?_)
  simp only [splitRecord, Package.fresh, Package.split?, List.singleton_append]
  split
  · next i hi => exact Ensures.step (Gives.note _) (Ensures.pure ⟨ha, .inl ⟨i, rfl, hi⟩⟩)
  · next hmany => exact Ensures.pure ⟨ha, .inr ⟨rfl, hmany⟩⟩

theorem gather_collects {q : PackageId} (hc : env.Coherent)
    (hb : ∀ p ∈ bindings cs, env.Binds p path) (hmany : env.validAmong cs = p :: q :: ps)
    (primary : ModuleId) :
    (gather p (q :: ps) primary).Ensures env fun x after =>
      env.Collects primary cs (some (.package x)) after := by
  have hpkg (x : PackageId) (hx : x ∈ p :: q :: ps) : env.Binds x path :=
    binds_of_mem_validAmong hb (hmany ▸ hx)
  obtain ⟨r, hr, -⟩ := hpkg p List.mem_cons_self
  refine (gather_allots hc hr (fun x hx => ?_) primary).mono ?_
  · obtain ⟨rx, hrx, -⟩ := hpkg x (List.mem_cons_of_mem _ hx)
    exact ⟨rx, hrx⟩
  rintro x after ⟨ha, hres⟩
  rw [← allParts_eq hmany] at hres
  rcases hres with ⟨i, rfl, honly⟩ | ⟨rfl, hno⟩
  · obtain ⟨c, hcs, hi⟩ := mem_allParts.mp (honly ▸ List.mem_singleton_self x)
    obtain ⟨p', rfl, -⟩ := eq_package_of_grade (grade_of_mem_partsOf hi)
    obtain ⟨r', hr', -⟩ := hb p' (mem_bindings.mpr hcs)
    obtain ⟨ri, hri, hpl, -⟩ := hc.parts hr' hi
    exact .peeled hmany honly hri hpl hr ha
  · refine .split hmany hno hr ha ?_
    rw [incarnationsOf_of_package ha.record, allParts_eq hmany]
    rfl

theorem combineAll_collects (hc : env.Coherent)
    (hb : ∀ p ∈ bindings cs, env.Binds p path) (primary : ModuleId) :
    (combineAll cs primary).Ensures env (env.Collects primary cs) := by
  have hthere : ∀ p ∈ bindings cs, ∃ r, env.package p = .ok r := fun p hp => (hb p hp).there
  refine Ensures.within (Ensures.step (Gives.note _) ?_)
  refine Ensures.step (Gives.ask (rankAll_graded hthere)) ?_
  simp only []
  split
  · next hnone => exact Ensures.pure (.nothing (eq_nil_of_ofRank hnone))
  · next first second rest hbest heq =>
    rw [hbest, ofRank_graded] at heq
    obtain ⟨p, ps', hmany, rfl, heq'⟩ := List.map_eq_cons_iff.mp heq
    obtain ⟨q, ps, rfl, rfl, rfl⟩ := List.map_eq_cons_iff.mp heq'
    have hbs := bindings_map (p :: q :: ps)
    simp only [List.map_cons] at hbs
    rw [hbs]
    refine (gather_collects hc hb hmany primary).bind fun x after h => ?_
    exact Ensures.step (Gives.note _) (Ensures.pure h)
  · next first rest hno heq =>
    refine Ensures.step (Gives.note _) (Ensures.pure ?_)
    by_cases hv : bestRank (env.graded cs) = .valid
    · rw [hv, ofRank_graded] at hno
      obtain ⟨p, ps, hone, rfl, hrest⟩ := List.map_eq_cons_iff.mp hno
      cases ps with
      | nil => exact .one hone
      | cons q ps =>
        rw [List.map_cons] at hrest
        exact absurd hrest.symm (heq _ _ hv)
    · obtain ⟨before, later, hcs, hgrade, hbefore⟩ := ofRank_eq_cons hno
      have hfirst : env.rank first = .ok (env.grade first) := rank_of_mem hthere (by simp [hcs])
      refine .first hcs (hfirst.trans (congrArg _ hgrade)) hv (fun b hb' e => ?_)
        fun d hd => ⟨_, rank_of_mem hthere hd, le_bestRank hd⟩
      rw [rank_of_mem hthere (by simp [hcs, hb'])] at e
      exact hbefore b hb' (Except.ok.inj e)

end Lookup

end SplitPackages
