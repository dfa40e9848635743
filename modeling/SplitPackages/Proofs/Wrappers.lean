import Mathlib.Data.List.Basic
import SplitPackages.Proofs.Growth

/-!
# Splits, incarnations and wrappers

Which modules contribute to a split, which plain bindings make it up, and which
splits are around a plain binding is kept in three places. `Wired` says that
they agree: the incarnations are plain, the declaring modules are their homes
in order of first occurrence, and a binding lists a split among those around it
just when the split lists the binding.

`Joins` is the effect of adding any binding to any split. It is the only change
of these lists, and it keeps them in agreement (`Joins.wired`). In a wired
environment the questions who contributes to a binding, and with what, always
have the same answer (`isDeclaredIn_ok`, `Wired.incarnation_iff`).
-/

namespace SplitPackages

namespace OrderedSet

variable {α β : Type} [DecidableEq α] [DecidableEq β]

theorem mem_newIn {s : OrderedSet α} {as : List α} {a : α} : a ∈ s.newIn as ↔ a ∉ s ∧ a ∈ as := by
  have hall : a ∈ s.insertMany as ↔ a ∈ s ∨ a ∈ s.newIn as := by
    rw [mem_def, toList_insertMany, List.mem_append, mem_def]
  have hnd := (s.insertMany as).nodup
  rw [toList_insertMany, List.nodup_append] at hnd
  constructor
  · exact fun h => ⟨fun hs => hnd.2.2 a hs a h rfl, mem_of_mem_newIn h⟩
  · rintro ⟨hs, h⟩
    exact (hall.mp (mem_insertMany.mpr (.inr h))).resolve_left hs

theorem insertMany_of_subset {s : OrderedSet α} {as : List α} (h : ∀ a ∈ as, a ∈ s) :
    s.insertMany as = s := by
  induction as with
  | nil => rfl
  | cons a as ih =>
    rw [insertMany_cons, insert_of_mem (h a List.mem_cons_self)]
    exact ih fun b hb => h b (List.mem_cons_of_mem _ hb)

theorem newIn_of_subset {s : OrderedSet α} {as : List α} (h : ∀ a ∈ as, a ∈ s) :
    s.newIn as = [] := by
  apply List.eq_nil_iff_forall_not_mem.mpr
  intro a ha
  obtain ⟨hnew, hin⟩ := mem_newIn.mp ha
  exact hnew (h a hin)

theorem newIn_append (s : OrderedSet α) (as bs : List α) :
    s.newIn (as ++ bs) = s.newIn as ++ (s.insertMany as).newIn bs := by
  have h := toList_insertMany s (as ++ bs)
  rw [insertMany_append, toList_insertMany, toList_insertMany, List.append_assoc] at h
  exact (List.append_cancel_left h).symm

/-- Of elements that stand for others, only those count that are new: what the others stand for is
there. -/
theorem insertMany_flatMap_newIn (f : α → List β) {s : OrderedSet β} {t : OrderedSet α} (as : List α)
    (h : ∀ a ∈ t, ∀ b ∈ f a, b ∈ s) :
    s.insertMany ((t.newIn as).flatMap f) = s.insertMany (as.flatMap f) := by
  induction as generalizing s t with
  | nil => rfl
  | cons a as ih =>
    unfold newIn
    split
    · next hin => rw [ih h, List.flatMap_cons, insertMany_append, insertMany_of_subset (h a hin)]
    · rw [List.flatMap_cons, List.flatMap_cons, insertMany_append, insertMany_append]
      -- what `a` stands for is in the set by then
      refine ih fun x hx y hy => mem_insertMany.mpr ?_
      rcases mem_insert.mp hx with hx | rfl
      · exact .inl (h x hx y hy)
      · exact .inr hy

theorem insertMany_filterMap_newIn (f : α → Option β) {s : OrderedSet β} {t : OrderedSet α}
    (as : List α) (h : ∀ a ∈ t, ∀ b, f a = some b → b ∈ s) :
    s.insertMany ((t.newIn as).filterMap f) = s.insertMany (as.filterMap f) := by
  rw [List.filterMap_eq_flatMap_toList, List.filterMap_eq_flatMap_toList]
  exact insertMany_flatMap_newIn _ as fun a ha b hb => h a ha b (Option.mem_toList.mp hb)

/-- What the elements of a set stand for is what those of the list do that it was made of. -/
theorem insertMany_flatMap_ofList (f : α → List β) (s : OrderedSet β) (as : List α) :
    s.insertMany ((ofList as).toList.flatMap f) = s.insertMany (as.flatMap f) := by
  rw [ofList, toList_insertMany, toList_empty, List.nil_append]
  exact insertMany_flatMap_newIn f as fun a ha => by cases ha

/-- Adding the elements of a set is adding those of the list that it was made of. -/
theorem insertMany_ofList (s : OrderedSet α) (as : List α) :
    s.insertMany (ofList as).toList = s.insertMany as := by
  have h := insertMany_flatMap_ofList (fun a => [a]) s as
  rwa [List.flatMap_singleton', List.flatMap_singleton'] at h

end OrderedSet

namespace Environment

def home? (env : Environment) (p : PackageId) : Option ModuleId :=
  match env.package p with
  | .ok r => some r.home
  | .error _ => none

/-- The modules that the bindings belong to. -/
def homes (env : Environment) (ps : List PackageId) : List ModuleId := ps.filterMap env.home?

/-- The incarnations of a split; none for the other kinds. -/
def incarnationsOf (env : Environment) (p : PackageId) : List PackageId :=
  match env.package p with
  | .ok r => r.incarnations
  | .error _ => []

/-- The splits around a plain binding; none for the other kinds. -/
def wrappersOf (env : Environment) (p : PackageId) : List PackageId :=
  match env.package p with
  | .ok r => r.wrappedBy
  | .error _ => []

structure Wired (env : Environment) : Prop where
  plain : ∀ {s i}, i ∈ env.incarnationsOf s → ∃ r, env.package i = .ok r ∧ r.isPlain = true
  declaring : ∀ {p r}, env.package p = .ok r → r.isSplit = true →
    r.declaring = (OrderedSet.ofList (env.homes r.incarnations)).toList
  wrapped : ∀ s i, s ∈ env.wrappersOf i ↔ i ∈ env.incarnationsOf s

/-- The effect of adding the binding `other`, with the record `ro`, to the split `split`, with the
record `rs` and the state `s`. -/
structure Joins (env : Environment) (split other : PackageId) (rs ro : Package) (s : Split)
    (after : Environment) : Prop where
  target : env.package split = .ok rs
  kind : rs.kind = .split s
  source : env.package other = .ok ro
  modules : after.modules = env.modules
  types : after.types = env.types
  now : after.package split = .ok { rs with kind := .split { s with
    declaring := s.declaring.insertMany ro.declaring
    incarnations := s.incarnations.insertMany (ro.contributors other) } }
  others : ∀ {p}, p ≠ split → after.package p =
    if p ∈ s.incarnations.newIn (ro.contributors other) then Package.wrap split <$> env.package p
    else env.package p

end Environment

/-- The two records belong to the same module, are of the same kind and have the same ties. -/
structure Package.Alike (r r' : Package) : Prop where
  home : r'.home = r.home
  isPlain : r'.isPlain = r.isPlain
  isSplit : r'.isSplit = r.isSplit
  incarnations : r'.incarnations = r.incarnations
  declaring : r'.declaring = r.declaring
  wrappedBy : r'.wrappedBy = r.wrappedBy

theorem Package.Alike.refl (r : Package) : r.Alike r := ⟨rfl, rfl, rfl, rfl, rfl, rfl⟩

namespace Package

variable {r : Package} {split : PackageId}

theorem wrap_of_not_isPlain (h : r.isPlain = false) : r.wrap split = r := by
  obtain ⟨_, _, _, _, _, _, kind⟩ := r
  cases kind with
  | plain plain => cases h
  | split s => rfl
  | problem => rfl

/-- A wrapped binding differs in what is around it. -/
theorem wrap_eq (split : PackageId) (r : Package) : (r.wrap split).path = r.path ∧
    (r.wrap split).parent = r.parent ∧ (r.wrap split).home = r.home ∧
    (r.wrap split).known = r.known ∧ (r.wrap split).types = r.types ∧
    (r.wrap split).isPlain = r.isPlain ∧ (r.wrap split).split? = r.split? := by
  obtain ⟨_, _, _, _, _, _, kind⟩ := r
  cases kind <;> exact ⟨rfl, rfl, rfl, rfl, rfl, rfl, rfl⟩

theorem incarnations_wrap (split : PackageId) (r : Package) :
    (r.wrap split).incarnations = r.incarnations := by
  obtain ⟨_, _, _, _, _, _, kind⟩ := r
  cases kind <;> rfl

theorem mem_wrappedBy_wrap {q : PackageId} (h : r.isPlain = true) :
    q ∈ (r.wrap split).wrappedBy ↔ q ∈ r.wrappedBy ∨ q = split := by
  obtain ⟨plain, hk⟩ := kind_of_isPlain h
  simp only [wrap, mapPlain, hk, wrappedBy]
  exact OrderedSet.mem_insert

theorem incarnations_of_not_isSplit (h : r.isSplit = false) : r.incarnations = [] := by
  unfold isSplit split? at h
  unfold incarnations
  cases hk : r.kind <;> simp_all

theorem contributors_of_isSplit {id : PackageId} (h : r.isSplit = true) :
    r.contributors id = r.incarnations := by
  obtain ⟨s, hk⟩ := kind_of_isSplit h
  simp only [contributors, incarnations, hk]

theorem incarnations_nodup (r : Package) : r.incarnations.Nodup := by
  unfold incarnations
  split
  · exact OrderedSet.nodup _
  · exact List.nodup_nil

end Package

namespace Environment

variable {env after : Environment} {i p q split other : PackageId} {m : ModuleId}
  {r rs ro : Package} {s : Split}

theorem incarnationsOf_of_package (h : env.package p = .ok r) :
    env.incarnationsOf p = r.incarnations := by
  simp only [incarnationsOf, h]

theorem wrappersOf_of_package (h : env.package p = .ok r) : env.wrappersOf p = r.wrappedBy := by
  simp only [wrappersOf, h]

theorem home?_of_package (h : env.package p = .ok r) : env.home? p = some r.home := by
  simp only [home?, h]

theorem package_of_mem_incarnationsOf (h : i ∈ env.incarnationsOf p) :
    ∃ r, env.package p = .ok r ∧ i ∈ r.incarnations := by
  unfold incarnationsOf at h
  split at h
  · next r hr => exact ⟨r, hr, h⟩
  · cases h

theorem package_of_mem_wrappersOf (h : i ∈ env.wrappersOf p) :
    ∃ r, env.package p = .ok r ∧ i ∈ r.wrappedBy := by
  unfold wrappersOf at h
  split at h
  · next r hr => exact ⟨r, hr, h⟩
  · cases h

theorem homes_congr {ps : List PackageId} (h : ∀ p ∈ ps, after.home? p = env.home? p) :
    after.homes ps = env.homes ps := by
  induction ps with
  | nil => rfl
  | cons p ps ih =>
    have ih := ih fun q hq => h q (List.mem_cons_of_mem _ hq)
    unfold homes at ih ⊢
    rw [List.filterMap_cons, List.filterMap_cons, h p List.mem_cons_self, ih]

theorem homes_append (env : Environment) (ps qs : List PackageId) :
    env.homes (ps ++ qs) = env.homes ps ++ env.homes qs :=
  List.filterMap_append

theorem mem_homes {ps : List PackageId} :
    m ∈ env.homes ps ↔ ∃ p ∈ ps, ∃ r, env.package p = .ok r ∧ r.home = m := by
  simp only [homes, List.mem_filterMap]
  refine exists_congr fun p => and_congr_right fun _ => ?_
  cases h : env.package p with
  | error e => simp [home?, h]
  | ok r => simp [home?, h]

/-- The homes of a growing set of bindings grow alike. -/
theorem insertMany_homes {ks : OrderedSet ModuleId} {ps : OrderedSet PackageId}
    (h : ks = .ofList (env.homes ps.toList)) (qs : List PackageId) :
    ks.insertMany (OrderedSet.ofList (env.homes qs)).toList =
      .ofList (env.homes (ps.insertMany qs).toList) := by
  -- the homes of bindings that are not new are there already
  have hthere : ∀ p ∈ ps, ∀ k, env.home? p = some k → k ∈ ks := by
    intro p hp k hk
    rw [h, OrderedSet.mem_ofList]
    exact List.mem_filterMap.mpr ⟨p, hp, hk⟩
  rw [OrderedSet.insertMany_ofList, OrderedSet.toList_insertMany, homes_append, OrderedSet.ofList,
    OrderedSet.insertMany_append, ← OrderedSet.ofList, ← h]
  exact (OrderedSet.insertMany_filterMap_newIn _ _ hthere).symm

/-! ## The ties of a binding -/

theorem isDeclaredIn_ok (hp : env.package p = .ok r) (m : ModuleId) :
    env.isDeclaredIn p m = .ok (decide (m ∈ r.declaring)) := by
  simp only [isDeclaredIn, hp, bind, Except.bind]
  rfl

theorem homeIncarnation_ok (m : ModuleId) : ∀ ps : List PackageId,
    (∀ p ∈ ps, ∃ r, env.package p = .ok r) → ∃ o, env.homeIncarnation m ps = .ok o ∧
      (o.isSome = true ↔ ∃ p ∈ ps, ∃ r, env.package p = .ok r ∧ r.home = m) ∧
      ∀ i, o = some i → i ∈ ps ∧ ∃ r, env.package i = .ok r ∧ r.home = m
  | [], _ => ⟨none, rfl, by simp, by simp⟩
  | p :: ps, h => by
    obtain ⟨r, hr⟩ := h p List.mem_cons_self
    simp only [homeIncarnation, hr, bind, Except.bind]
    split
    · next e =>
      refine ⟨some p, rfl, ⟨fun _ => ⟨p, List.mem_cons_self, r, hr, e⟩, fun _ => rfl⟩, ?_⟩
      rintro i ⟨⟩
      exact ⟨List.mem_cons_self, r, hr, e⟩
    · next hne =>
      obtain ⟨o, ho, hiff, hin⟩ := homeIncarnation_ok m ps
        fun q hq => h q (List.mem_cons_of_mem _ hq)
      refine ⟨o, ho, hiff.trans ⟨?_, ?_⟩, fun i hi => ?_⟩
      · rintro ⟨q, hq, h⟩
        exact ⟨q, List.mem_cons_of_mem _ hq, h⟩
      · rintro ⟨q, hq, rq, hrq, e⟩
        rcases List.mem_cons.mp hq with rfl | hq
        · cases package_unique hr hrq
          exact absurd e hne
        · exact ⟨q, hq, rq, hrq, e⟩
      · obtain ⟨hmem, h⟩ := hin i hi
        exact ⟨List.mem_cons_of_mem _ hmem, h⟩

namespace Wired

theorem plain_of_mem (hw : env.Wired) (hp : env.package p = .ok r) (hi : i ∈ r.incarnations) :
    ∃ ri, env.package i = .ok ri ∧ ri.isPlain = true :=
  hw.plain (incarnationsOf_of_package hp ▸ hi)

/-- The parts of a binding are plain. -/
theorem plain_of_mem_contributors (hw : env.Wired) (hp : env.package p = .ok r)
    (hi : i ∈ r.contributors p) : ∃ ri, env.package i = .ok ri ∧ ri.isPlain = true := by
  cases hk : r.kind with
  | plain plain =>
    rw [Package.contributors_of_isPlain (Package.isPlain_of_kind hk), List.mem_singleton] at hi
    exact ⟨r, hi ▸ hp, Package.isPlain_of_kind hk⟩
  | split s =>
    rw [Package.contributors_of_isSplit (Package.isSplit_of_kind hk)] at hi
    exact hw.plain_of_mem hp hi
  | problem => simp only [Package.contributors, hk, List.not_mem_nil] at hi

/-- The declaring modules of a binding are the homes of its parts, in order. -/
theorem declaring_eq (hw : env.Wired) (hp : env.package p = .ok r) :
    r.declaring = (OrderedSet.ofList (env.homes (r.contributors p))).toList := by
  cases hk : r.kind with
  | plain plain =>
    have hpl := Package.isPlain_of_kind hk
    have hhomes : env.homes [p] = [r.home] := by
      simp only [homes, List.filterMap_cons, home?_of_package hp, List.filterMap_nil]
    rw [Package.declaring_of_isPlain hpl, Package.contributors_of_isPlain hpl, hhomes]
    rfl
  | split s =>
    have hs := Package.isSplit_of_kind hk
    rw [hw.declaring hp hs, Package.contributors_of_isSplit hs]
  | problem =>
    simp only [Package.declaring, Package.contributors, hk]
    rfl

theorem mem_declaring_iff (hw : env.Wired) (hp : env.package p = .ok r) :
    m ∈ r.declaring ↔ ∃ i ∈ r.contributors p, ∃ ri, env.package i = .ok ri ∧ ri.home = m := by
  rw [hw.declaring_eq hp, ← OrderedSet.mem_def, OrderedSet.mem_ofList, mem_homes]

/-- A binding has an incarnation for just the modules that contribute to it. -/
theorem incarnation_iff (hw : env.Wired) (hp : env.package p = .ok r) (m : ModuleId) :
    ∃ o, env.incarnation p m = .ok o ∧ (o.isSome = true ↔ m ∈ r.declaring) ∧
      ∀ i, o = some i → i ∈ r.contributors p ∧ ∃ ri, env.package i = .ok ri ∧ ri.home = m := by
  simp only [incarnation, hp, bind, Except.bind]
  cases hk : r.kind with
  | plain plain =>
    have hpl := Package.isPlain_of_kind hk
    rw [Package.declaring_of_isPlain hpl, Package.contributors_of_isPlain hpl, List.mem_singleton]
    refine ⟨_, rfl, ?_⟩
    split
    · next e =>
      refine ⟨by simp [e], ?_⟩
      rintro i ⟨⟩
      exact ⟨List.mem_singleton_self p, r, hp, e⟩
    · next e => exact ⟨by simp [Ne.symm e], by simp⟩
  | problem => exact ⟨none, rfl, by simp [Package.declaring, hk], by simp⟩
  | split s =>
    have hcontr : r.contributors p = s.incarnations.toList := by
      simp only [Package.contributors, hk]
    rw [hw.mem_declaring_iff hp, hcontr]
    refine homeIncarnation_ok m s.incarnations.toList fun i hi => ?_
    obtain ⟨ri, hri, -⟩ := hw.plain_of_mem_contributors hp (hcontr ▸ hi)
    exact ⟨ri, hri⟩

end Wired

/-! ## What leaves the ties alone -/

/-- Old records have kept their ties, and new ones have none. -/
theorem Wired.of_alike (hw : env.Wired)
    (old : ∀ {p r}, env.package p = .ok r → ∃ r', after.package p = .ok r' ∧ r.Alike r')
    (new : ∀ {p r}, after.package p = .ok r → (∃ r0, env.package p = .ok r0) ∨
      r.incarnations = [] ∧ r.wrappedBy = [] ∧ (r.isSplit = true → r.declaring = [])) :
    after.Wired := by
  have hback {p : PackageId} {r : Package} (hp : after.package p = .ok r) :
      (∃ r0, env.package p = .ok r0 ∧ r0.Alike r) ∨
        r.incarnations = [] ∧ r.wrappedBy = [] ∧ (r.isSplit = true → r.declaring = []) := by
    refine (new hp).imp_left ?_
    rintro ⟨r0, hr0⟩
    obtain ⟨r', hr', h⟩ := old hr0
    cases package_unique hp hr'
    exact ⟨r0, hr0, h⟩
  have hincs (p i : PackageId) : i ∈ after.incarnationsOf p ↔ i ∈ env.incarnationsOf p := by
    constructor
    · intro hi
      obtain ⟨r, hr, hi⟩ := package_of_mem_incarnationsOf hi
      rcases hback hr with ⟨r0, hr0, h⟩ | ⟨h, -⟩
      · rw [incarnationsOf_of_package hr0, ← h.incarnations]
        exact hi
      · rw [h] at hi
        cases hi
    · intro hi
      obtain ⟨r, hr, hi⟩ := package_of_mem_incarnationsOf hi
      obtain ⟨r', hr', h⟩ := old hr
      rw [incarnationsOf_of_package hr', h.incarnations]
      exact hi
  have hwraps (p s : PackageId) : s ∈ after.wrappersOf p ↔ s ∈ env.wrappersOf p := by
    constructor
    · intro hs
      obtain ⟨r, hr, hs⟩ := package_of_mem_wrappersOf hs
      rcases hback hr with ⟨r0, hr0, h⟩ | ⟨-, h, -⟩
      · rw [wrappersOf_of_package hr0, ← h.wrappedBy]
        exact hs
      · rw [h] at hs
        cases hs
    · intro hs
      obtain ⟨r, hr, hs⟩ := package_of_mem_wrappersOf hs
      obtain ⟨r', hr', h⟩ := old hr
      rw [wrappersOf_of_package hr', h.wrappedBy]
      exact hs
  refine ⟨fun {s i} hi => ?_, fun {p r} hp hs => ?_, fun s i => ?_⟩
  · obtain ⟨r, hr, hpl⟩ := hw.plain ((hincs s i).mp hi)
    obtain ⟨r', hr', h⟩ := old hr
    exact ⟨r', hr', h.isPlain.trans hpl⟩
  · rcases hback hp with ⟨r0, hr0, h⟩ | ⟨hnil, -, hdecl⟩
    · rw [h.declaring, h.incarnations, hw.declaring hr0 (h.isSplit.symm.trans hs)]
      refine congrArg (OrderedSet.toList ∘ OrderedSet.ofList) (homes_congr fun i hi => ?_).symm
      obtain ⟨ri, hri, -⟩ := hw.plain_of_mem hr0 hi
      obtain ⟨ri', hri', h'⟩ := old hri
      rw [home?_of_package hri, home?_of_package hri', h'.home]
    · rw [hdecl hs, hnil]
      rfl
  · rw [hwraps, hincs, hw.wrapped]

/-! ## Adding to a split -/

theorem addToSplit_joins (hs : env.package split = .ok rs) (hk : rs.kind = .split s)
    (ho : env.package other = .ok ro)
    (hparts : ∀ i ∈ ro.contributors other, ∃ ri, env.package i = .ok ri) :
    ∃ after, Update.addToSplit split other env = .ok ((), after) ∧
      env.Joins split other rs ro s after := by
  by_cases hval : ro.isValid = true
  · let f : Package → Package := (·.mapSplit fun s =>
      { s with
        declaring := s.declaring.insertMany ro.declaring
        incarnations := s.incarnations.insertMany (ro.contributors other) })
    obtain ⟨grown, hgrown⟩ := setPackage_ok hs f
    have hself := package_setPackage_self hgrown hs
    have hnew : ∀ p ∈ s.incarnations.newIn (ro.contributors other),
        ∃ r, grown.package p = .ok r := by
      intro p hp
      obtain ⟨ri, hri⟩ := hparts p (OrderedSet.mem_of_mem_newIn hp)
      rw [package_setPackage hgrown, hri]
      split <;> exact ⟨_, rfl⟩
    obtain ⟨after, hafter, hw, hpkg⟩ := wrapAll_ok split _ hnew
    have hrun : (Update.setPackage split f >>= fun _ =>
        Update.wrapAll split (s.incarnations.newIn (ro.contributors other))) env = .ok ((), after) :=
      Update.bind_ok (Update.setPackage_ok hgrown) hafter
    have htarget : rs.split? = some s := by simp only [Package.split?, hk]
    refine ⟨after, Update.bind_ok (Update.ask_ok ho) ?_, ?_⟩
    · cases hko : ro.kind with
      | problem => simp [Package.isValid, hko] at hval
      | plain plain =>
        refine Update.bind_ok (Update.ask_ok hs) ?_
        rw [htarget]
        exact hrun
      | split so =>
        refine Update.bind_ok (Update.ask_ok hs) ?_
        rw [htarget]
        exact hrun
    · have hf : f rs = { rs with kind := .split { s with
          declaring := s.declaring.insertMany ro.declaring
          incarnations := s.incarnations.insertMany (ro.contributors other) } } := by
        simp only [f, Package.mapSplit, hk]
      refine ⟨hs, hk, ho, hw.modules.trans (modules_setPackage hgrown),
        hw.types.trans (types_setPackage hgrown), ?_, fun hne => ?_⟩
      · rw [hpkg, hself, hf]
        split
        · exact congrArg Except.ok (Package.wrap_of_not_isPlain rfl)
        · rfl
      · rw [hpkg, package_setPackage_ne hgrown hne]
  · -- a problem binding contributes nothing
    have hko : ro.kind = .problem := by
      unfold Package.isValid at hval
      simpa using hval
    refine ⟨env, Update.bind_ok (Update.ask_ok ho) (by rw [hko]; rfl), hs, hk, ho, rfl, rfl, ?_, ?_⟩
    · simp only [Package.declaring, Package.contributors, hko, OrderedSet.insertMany_nil, hs, ← hk]
    · intro p _
      simp only [Package.contributors, hko, OrderedSet.newIn, List.not_mem_nil, if_false]

/-- Any binding can be added to a split: what it is made of is there. -/
theorem Wired.joins (hw : env.Wired) (hs : env.package split = .ok rs) (hk : rs.kind = .split s)
    (ho : env.package other = .ok ro) :
    ∃ after, Update.addToSplit split other env = .ok ((), after) ∧
      env.Joins split other rs ro s after := by
  apply addToSplit_joins hs hk ho
  intro i hi
  obtain ⟨ri, hri, -⟩ := hw.plain_of_mem_contributors ho hi
  exact ⟨ri, hri⟩

/-- Nothing is added to what is not a split. -/
theorem addToSplit_same (hs : env.package split = .ok rs) (hno : rs.isSplit = false)
    (ho : env.package other = .ok ro) : Update.addToSplit split other env = .ok ((), env) := by
  have htarget := Package.split?_of_not_isSplit hno
  refine Update.bind_ok (Update.ask_ok ho) ?_
  cases hko : ro.kind with
  | problem => rfl
  | plain plain =>
    refine Update.bind_ok (Update.ask_ok hs) ?_
    rw [htarget]
    rfl
  | split so =>
    refine Update.bind_ok (Update.ask_ok hs) ?_
    rw [htarget]
    rfl

namespace Joins

/-- Of the records beside the split only wrappers differ. -/
theorem beside (h : env.Joins split other rs ro s after) (hne : p ≠ split) :
    after.package p = env.package p ∨
      ∃ r, env.package p = .ok r ∧ after.package p = .ok (r.wrap split) := by
  rw [h.others hne]
  split
  · cases hp : env.package p with
    | error e => exact .inl rfl
    | ok r => exact .inr ⟨r, rfl, rfl⟩
  · exact .inl rfl

theorem package_back (h : env.Joins split other rs ro s after) (hp : after.package p = .ok r) :
    ∃ r0, env.package p = .ok r0 := by
  by_cases hne : p = split
  · exact ⟨rs, hne ▸ h.target⟩
  · rcases h.beside hne with e | ⟨r0, hr0, -⟩
    · exact ⟨r, e.symm.trans hp⟩
    · exact ⟨r0, hr0⟩

/-- No record is added. -/
theorem size (h : env.Joins split other rs ro s after) :
    after.packages.size = env.packages.size := by
  refine size_packages_eq fun p => ⟨fun ⟨r, hr⟩ => h.package_back hr, fun ⟨r, hr⟩ => ?_⟩
  by_cases hne : p = split
  · exact ⟨_, hne ▸ h.now⟩
  · rcases h.beside hne with e | ⟨r0, -, e⟩
    · exact ⟨r, e.trans hr⟩
    · exact ⟨_, e⟩

theorem incarnationsOf_split (h : env.Joins split other rs ro s after) :
    after.incarnationsOf split = (s.incarnations.insertMany (ro.contributors other)).toList :=
  incarnationsOf_of_package h.now

theorem incarnationsOf_ne (h : env.Joins split other rs ro s after) (hne : p ≠ split) :
    after.incarnationsOf p = env.incarnationsOf p := by
  rcases h.beside hne with e | ⟨r, hr, e⟩
  · simp only [incarnationsOf, e]
  · rw [incarnationsOf_of_package e, incarnationsOf_of_package hr, Package.incarnations_wrap]

theorem home? (h : env.Joins split other rs ro s after) (p : PackageId) :
    after.home? p = env.home? p := by
  by_cases hne : p = split
  · rw [hne, home?_of_package h.now, home?_of_package h.target]
  · rcases h.beside hne with e | ⟨r, hr, e⟩
    · simp only [Environment.home?, e]
    · rw [home?_of_package e, home?_of_package hr, (Package.wrap_eq split r).2.2.1]

/-- The incarnations of the split are the old ones and the parts of what was added. -/
theorem mem_incarnationsOf (h : env.Joins split other rs ro s after) :
    i ∈ after.incarnationsOf split ↔ i ∈ env.incarnationsOf split ∨ i ∈ ro.contributors other := by
  have hold : env.incarnationsOf split = s.incarnations.toList := by
    rw [incarnationsOf_of_package h.target]
    simp only [Package.incarnations, h.kind]
  rw [h.incarnationsOf_split, hold, ← OrderedSet.mem_def, OrderedSet.mem_insertMany,
    OrderedSet.mem_def]

theorem isPlain_split (h : env.Joins split other rs ro s after) : rs.isPlain = false := by
  simp only [Package.isPlain, Package.plain?, h.kind, Option.isSome_none]

/-- A plain binding stays plain. -/
theorem plain (h : env.Joins split other rs ro s after)
    (hi : ∃ r, env.package i = .ok r ∧ r.isPlain = true) :
    ∃ r, after.package i = .ok r ∧ r.isPlain = true := by
  obtain ⟨r, hr, hpl⟩ := hi
  have hne : i ≠ split := by
    rintro rfl
    cases package_unique h.target hr
    rw [h.isPlain_split] at hpl
    cases hpl
  rcases h.beside hne with e | ⟨r', hr', e⟩
  · exact ⟨r, e.trans hr, hpl⟩
  · cases package_unique hr hr'
    exact ⟨_, e, (Package.wrap_eq split r).2.2.2.2.2.1.trans hpl⟩

/-- All incarnations were plain bindings before. -/
theorem plain_of_mem (h : env.Joins split other rs ro s after) (hw : env.Wired)
    (hi : i ∈ after.incarnationsOf p) : ∃ r, env.package i = .ok r ∧ r.isPlain = true := by
  by_cases hp : p = split
  · subst hp
    rcases h.mem_incarnationsOf.mp hi with hi | hi
    · exact hw.plain hi
    · exact hw.plain_of_mem_contributors h.source hi
  · exact hw.plain (h.incarnationsOf_ne hp ▸ hi)

theorem declaring (h : env.Joins split other rs ro s after) (hw : env.Wired)
    (hp : after.package p = .ok r) (hs : r.isSplit = true) :
    r.declaring = (OrderedSet.ofList (after.homes r.incarnations)).toList := by
  rw [homes_congr fun p _ => h.home? p]
  by_cases hne : p = split
  · subst hne
    cases package_unique h.now hp
    have hold : s.declaring = OrderedSet.ofList (env.homes s.incarnations.toList) := by
      refine OrderedSet.ext ?_
      have := hw.declaring h.target (Package.isSplit_of_kind h.kind)
      simpa only [Package.declaring, Package.incarnations, h.kind] using this
    show (s.declaring.insertMany ro.declaring).toList = (OrderedSet.ofList
      (env.homes (s.incarnations.insertMany (ro.contributors other)).toList)).toList
    rw [hw.declaring_eq h.source, insertMany_homes hold]
  · rcases h.beside hne with e | ⟨r0, hr0, e⟩
    · exact hw.declaring (e.symm.trans hp) hs
    · cases package_unique hp e
      have hpl : r0.isPlain = false := by
        rw [← (Package.wrap_eq split r0).2.2.2.2.2.1]
        cases hpl : (r0.wrap split).isPlain with
        | false => rfl
        | true =>
          rw [Package.isSplit_of_isPlain hpl] at hs
          cases hs
      rw [Package.wrap_of_not_isPlain hpl] at hs ⊢
      exact hw.declaring hr0 hs

/-- Only the new incarnations have learned of a split, and only of this one. -/
theorem wrapped (h : env.Joins split other rs ro s after) (hw : env.Wired) (p i : PackageId) :
    p ∈ after.wrappersOf i ↔ i ∈ after.incarnationsOf p := by
  by_cases hi : i = split
  · subst hi
    refine ⟨fun hp => ?_, fun hp => ?_⟩
    · rw [wrappersOf_of_package h.now] at hp
      cases hp
    · obtain ⟨ri, hri, hpl⟩ := h.plain_of_mem hw hp
      cases package_unique h.target hri
      rw [h.isPlain_split] at hpl
      cases hpl
  have hmem : i ∈ after.incarnationsOf p ↔ i ∈ env.incarnationsOf p ∨
      p = split ∧ i ∈ s.incarnations.newIn (ro.contributors other) := by
    by_cases hp : p = split
    · subst hp
      rw [h.mem_incarnationsOf, incarnationsOf_of_package h.target, OrderedSet.mem_newIn]
      simp only [Package.incarnations, h.kind, ← OrderedSet.mem_def]
      by_cases hin : i ∈ s.incarnations <;> simp [hin]
    · simp only [h.incarnationsOf_ne hp, hp, false_and, or_false]
  rw [hmem, ← hw.wrapped]
  by_cases hnew : i ∈ s.incarnations.newIn (ro.contributors other)
  · obtain ⟨ri, hri, hpl⟩ :=
      hw.plain_of_mem_contributors h.source (OrderedSet.mem_of_mem_newIn hnew)
    have hri' := h.others hi
    rw [if_pos hnew, hri] at hri'
    rw [wrappersOf_of_package hri', wrappersOf_of_package hri, Package.mem_wrappedBy_wrap hpl]
    simp only [hnew, and_true]
  · have hsame : after.wrappersOf i = env.wrappersOf i := by
      unfold wrappersOf
      rw [h.others hi, if_neg hnew]
    simp only [hsame, hnew, and_false, or_false]

theorem wired (h : env.Joins split other rs ro s after) (hw : env.Wired) : after.Wired :=
  ⟨fun hi => h.plain (h.plain_of_mem hw hi), h.declaring hw, h.wrapped hw⟩

end Joins

end Environment

end SplitPackages
