import SplitPackages.Proofs.Memos
import SplitPackages.Proofs.Repetition

/-!
# Strict lookups in a split

The strict lookup answers from the entry of the split, or merges the entries of
its incarnations if all of them have one. If one has none, the entries that were
collected before it leave no trace (`strict_missing`). The merge is written to
one place only (`Adopts`), and from then on the relaxed lookup gives it too.

Of the requests that respect paths only three kinds write to an entry that a
split has: those that register something for that very name below that very
split (`run_settles`).
-/

namespace SplitPackages

/-- The request registers something for the name below the binding. -/
def Request.Registers (s : PackageId) (name : String) (env : Environment) : Request → Prop
  | search p _ x => p = s ∧ x = name
  | addChild p below _ => p = s ∧ ∃ r, env.package below = .ok r ∧ r.path.simpleName = name
  | learnMissing p x => p = s ∧ x = name
  | _ => False

namespace Environment

/-- Both lookups of the name give the reference, and change nothing. -/
structure Repeats (env : Environment) (s : PackageId) (name : String) (ref : Ref) : Prop where
  strict : (Lookup.strict s name).Gives env (some ref) env
  relaxed : (Lookup.relaxed s name).Gives env (some ref) env

/-- What a strict lookup leaves that has made an entry of those of the incarnations. -/
structure Adopted (config : Config) (env : Environment) (s : PackageId) (name : String) (ref : Ref)
    (after : Environment) : Prop where
  rank : after.rank (some ref) = .ok (bestRank (env.ranked (env.entriesBelow s name)))
  parts : after.Unites (env.entriesBelow s name) (some ref)
  /-- Nothing else is written, and no binding has other parts than before. -/
  entry : ∀ p x, after.entry p x = if p = s ∧ x = name then some ref else env.entry p x
  modules : after.modules = env.modules
  keeps : env.Keeps after
  repeats : ∀ later : Environment, later.entry s name = some ref → later.Repeats s name ref
  lasts : ∀ later, after.Develops config
    (fun env q => q.RespectsPaths env ∧ ¬ q.Registers s name env) later → later.Repeats s name ref

/-- The split has combined the entries of its incarnations and stored the result. -/
structure Adopts (env : Environment) (s : PackageId) (r : Package) (name : String) (ref : Ref)
    (mid after : Environment) : Prop where
  combined : (Lookup.combineAll ((env.entriesBelow s name).map some) r.home).Gives env
    (some ref) mid
  grows : env.Grows mid
  learns : mid.Learns s name ref after

variable {env after : Environment} {p : PackageId} {name : String}

/-! ## The entries of the incarnations -/

theorem allEntries_missing : ∀ {ps : List PackageId}, (∀ p ∈ ps, ∃ r, env.package p = .ok r) →
    (∃ p ∈ ps, env.entry p name = none) → env.allEntries name ps = .ok none
  | [], _, hno => by simp at hno
  | p :: ps, hall, hno => by
    obtain ⟨r, hr⟩ := hall p List.mem_cons_self
    simp only [allEntries, hr, bind, Except.bind]
    cases hk : r.known.get? name with
    | none => rfl
    | some ref =>
      have hrest : ∃ q ∈ ps, env.entry q name = none := by
        obtain ⟨q, hq, he⟩ := hno
        rcases List.mem_cons.mp hq with rfl | hq
        · rw [entry_of_package hr, hk] at he
          cases he
        · exact ⟨q, hq, he⟩
      rw [allEntries_missing (fun q hq => hall q (List.mem_cons_of_mem _ hq)) hrest]
      rfl

theorem allEntries_full : ∀ {ps : List PackageId}, (∀ p ∈ ps, env.entry p name ≠ none) →
    env.allEntries name ps = .ok (some (ps.filterMap (env.entry · name)))
  | [], _ => rfl
  | p :: ps, hall => by
    obtain ⟨ref, he⟩ := Option.ne_none_iff_exists'.mp (hall p List.mem_cons_self)
    obtain ⟨r, hr, hk⟩ := package_of_entry he
    have hrest := allEntries_full fun q hq => hall q (List.mem_cons_of_mem _ hq)
    simp only [allEntries, hr, hk, hrest, bind, Except.bind, List.filterMap_cons, he]
    rfl

theorem exists_of_rank {refs : List Ref} {result : Option Ref} (hne : refs ≠ [])
    (hrank : after.rank result = .ok (bestRank (env.ranked refs))) : ∃ ref, result = some ref := by
  cases result with
  | some ref => exact ⟨ref, rfl⟩
  | none =>
    obtain ⟨c, hc, hbest⟩ := exists_bestRank env (mt List.map_eq_nil_iff.mp hne)
    obtain ⟨ref, -, rfl⟩ := List.mem_map.mp hc
    rw [graded_map, ← Except.ok.inj hrank] at hbest
    -- the rank of a reference is at least that it is known not to exist
    cases ref with
    | notFound => cases hbest
    | package p =>
      simp only [grade, rankOf] at hbest
      split at hbest <;> cases hbest

theorem package_of_rank {best : Rank} (h : env.rank (some (.package p)) = .ok best) :
    ∃ r, env.package p = .ok r := by
  cases hp : env.package p with
  | ok r => exact ⟨r, rfl⟩
  | error e =>
    simp only [rank, hp, bind, Except.bind] at h
    cases h

end Environment

namespace Lookup

open Environment

variable {env mid after : Environment} {s : PackageId} {r : Package} {name : String} {ref : Ref}

theorem repeats_of_entry (he : env.entry s name = some ref) : env.Repeats s name ref := by
  obtain ⟨r, hr, hk⟩ := package_of_entry he
  by_cases hs : r.isSplit = true
  · refine ⟨strict_known hr hs he, (Gives.ask hr).bind ?_⟩
    rw [if_pos hs]
    unfold relaxedInSplit
    rw [hk]
    exact Gives.pure _
  · refine ⟨(Gives.ask hr).bind ?_, (Gives.ask hr).bind ?_⟩
    all_goals
      rw [if_neg hs, hk]
      exact Gives.pure _

theorem combineAll_nil (m : ModuleId) : (combineAll [] m).Gives env none env := by
  have hranked : env.rankAll [] = .ok [] := rfl
  refine Gives.within ((Gives.note _).bind ((Gives.ask hranked).bind ?_))
  exact Gives.pure _

/-- Without an entry of its own, and without one of every incarnation, a split has no answer. -/
theorem strict_missing (hc : env.Coherent) (hr : env.package s = .ok r) (hs : r.isSplit = true)
    (hnone : env.entry s name = none)
    (hno : r.incarnations = [] ∨ ∃ i ∈ r.incarnations, env.entry i name = none) :
    (strict s name).Gives env none env := by
  refine (Gives.ask hr).bind ?_
  rw [if_pos hs]
  unfold strictInSplit
  rw [entry_of_package hr] at hnone
  rw [hnone]
  rcases hno with hnil | hno
  · have hempty : env.allEntries name r.incarnations = .ok (some []) := by rw [hnil]; rfl
    refine (Gives.ask hempty).bind ((combineAll_nil _).bind ?_)
    exact Gives.pure _
  · have hmiss := allEntries_missing (fun i hi => hc.closed.incarnations hr hi) hno
    exact (Gives.ask hmiss).bind (Gives.pure _)

theorem strict_adopts (hc : env.Coherent) (hr : env.package s = .ok r) (hs : r.isSplit = true)
    (hnone : env.entry s name = none) (hne : r.incarnations ≠ [])
    (hall : ∀ i ∈ r.incarnations, env.entry i name ≠ none) :
    (strict s name).Ensures env fun answer after =>
      ∃ ref mid, answer = some ref ∧ env.Adopts s r name ref mid after := by
  obtain ⟨split, hk⟩ := Package.kind_of_isSplit hs
  have hfull : env.allEntries name r.incarnations = .ok (some (env.entriesBelow s name)) := by
    rw [allEntries_full hall, entriesBelow_of_package hr]
  have hentries : env.entriesBelow s name ≠ [] := by
    obtain ⟨i, hi⟩ := List.exists_mem_of_ne_nil _ hne
    obtain ⟨ref, he⟩ := Option.ne_none_iff_exists'.mp (hall i hi)
    rw [entriesBelow_of_package hr]
    exact List.ne_nil_of_mem (List.mem_filterMap.mpr ⟨i, hi, he⟩)
  obtain ⟨result, mid, hgives, hg, hrank, -⟩ := combineAll_unites hc (hc.home hr)
    (hc.entriesBelow_allBind hr name)
  obtain ⟨ref, rfl⟩ := exists_of_rank hentries hrank
  obtain ⟨r', hr', e⟩ := hg.old hr
  rw [Package.eq_of_unwrapped e hs] at hr'
  obtain ⟨after, hset⟩ := Environment.setPackage_ok hr' fun r =>
    (r.learn name ref).mapSplit fun s => { s with relaxed := s.relaxed.erase name }
  obtain ⟨shared, hshared⟩ := isSplitRef_ok fun q (e : ref = .package q) =>
    package_of_rank (e ▸ hrank)
  have hthere : ∀ i ∈ r.incarnations, ∃ ri, mid.package i = .ok ri := fun i hi => by
    obtain ⟨ri, hri⟩ := hc.closed.incarnations hr hi
    exact (hg.old hri).imp fun _ => And.left
  obtain ⟨holders, hholders, -⟩ := holdersOf_ok name ref r.incarnations hthere
  have hstore := Gives.update (Update.setPackage_ok hset)
  refine ⟨some ref, after, (Gives.ask hr).bind ?_, ref, mid, rfl, hgives, hg,
    learns_of_learnMerged hr' hk hset⟩
  rw [if_pos hs]
  unfold strictInSplit
  rw [entry_of_package hr] at hnone
  rw [hnone]
  refine (Gives.ask hfull).bind (hgives.bind ((Gives.note _).bind ((Gives.ask hshared).bind ?_)))
  cases shared with
  | true =>
    exact (Gives.ask hholders).bind ((noteAll_gives mid _).bind (hstore.bind (Gives.pure _)))
  | false => exact hstore.bind (Gives.pure _)

end Lookup

namespace Environment

variable {env mid after : Environment} {s : PackageId} {r : Package} {name : String} {ref : Ref}

/-! ## What is written -/

namespace Adopts

theorem modules (h : env.Adopts s r name ref mid after) : after.modules = env.modules := by
  obtain ⟨_, _, ht, -⟩ := h.learns
  exact ht.modules.trans h.grows.modules

theorem entry (h : env.Adopts s r name ref mid after) (p : PackageId) (x : String) :
    after.entry p x = if p = s ∧ x = name then some ref else env.entry p x := by
  rw [h.learns.entry, h.grows.entry_eq]

theorem keeps (h : env.Adopts s r name ref mid after) : env.Keeps after :=
  h.grows.keeps.trans h.learns.keeps

theorem joins (h : env.Adopts s r name ref mid after) (hc : env.Coherent)
    (hr : env.package s = .ok r) :
    after.rank (some ref) = .ok (bestRank (env.ranked (env.entriesBelow s name))) ∧
      after.Unites (env.entriesBelow s name) (some ref) := by
  obtain ⟨_, _, ht, -⟩ := h.learns
  have hunites := combineAll_unites hc (hc.home hr) (hc.entriesBelow_allBind hr name)
  obtain ⟨-, hrank, hparts⟩ := h.combined.allowed hunites.allows
  exact ⟨(ht.rank _).trans hrank, hparts.later fun p _ i => by rw [ht.parts]⟩

end Adopts

end Environment

/-! ## Who writes -/

namespace Request

open Environment Lookup

variable {env after : Environment} {s : PackageId} {rs : Package} {name : String} {ref : Ref}
  {r : Request}

theorem ask_leaves {α : Type} {f : Environment → Except Fault α} {g : α → Answer}
    {P : Environment → Prop} (h : P env) :
    (ask f >>= fun x => pure (g x)).Allows env fun _ after => P after :=
  Allows.ask fun _ _ => Allows.pure h

theorem addChild_settles (config : Config) {p below : PackageId} {m : ModuleId}
    (hn : (addChild p below m).Names env) (ho : env.Orderly .pathwise)
    (hpaths : (addChild p below m).RespectsPaths env)
    (hno : ¬ (addChild p below m).Registers s name env) (hs : env.package s = .ok rs)
    (hsplit : rs.isSplit = true) (he : env.entry s name = some ref) :
    ((addChild p below m).run config).Allows env fun _ after => after.entry s name = some ref := by
  obtain ⟨path, x, ⟨rp, hrp, rfl⟩, rb, hrb, hpath⟩ := hpaths
  have hfits : env.Fits .pathwise (.sub rp.path x) below :=
    ⟨rb, hrb, fun _ => hpath, fun hd => hd.elim⟩
  refine Allows.map ((addChild_stores ho hrp hfits m).mono fun e after h => ?_)
  refine h.1.settles trivial s rs name ref hs hsplit ?_ he
  rintro ⟨⟩
  exact hno ⟨rfl, rb, hrb, by rw [hpath]; rfl⟩

/-- A request that respects paths and does not register anything for the name below the split
leaves the entry alone that the split has for it. -/
theorem run_settles (config : Config) (hn : r.Names env) (ho : env.Orderly .pathwise)
    (hpaths : r.RespectsPaths env) (hno : ¬ r.Registers s name env) (hs : env.package s = .ok rs)
    (hsplit : rs.isSplit = true) (he : env.entry s name = some ref) :
    (r.run config).Allows env fun _ after => after.entry s name = some ref := by
  by_cases hb : r.builds = true
  · exact (builds_spec config hb hn ho.graph).allows.mono fun _ _ h =>
      (h.1.extends.entry s name).trans he
  have hkeep {slot : Option (PackageId × String)} {after : Environment}
      (h : env.Proceeds .pathwise slot after) (hslot : slot ≠ some (s, name)) :
      after.entry s name = some ref := h.settles trivial s rs name ref hs hsplit hslot he
  have hthere {p : PackageId} (hp : p ∈ r.packages) : ∃ rp, env.package p = .ok rp := hn.package hp
  cases r with
  | addModule | addRead | addTransitiveRead | addExport | declarePackage | declareProblem
    | declareType | markMissing => exact absurd rfl hb
  | view m path =>
    exact Allows.map ((view_views ho path).mono fun _ _ h => hkeep h.proceeds (by simp))
  | child p m x =>
    obtain ⟨rp, hrp⟩ := hthere (p := p) (by simp [packages])
    exact Allows.map ((child_proceeds ho hrp x m).mono fun _ _ h => hkeep h.1 (by simp))
  | strict p x =>
    obtain ⟨rp, hrp⟩ := hthere (p := p) (by simp [packages])
    exact Allows.map ((strict_stores ho hrp x).mono fun _ _ h => hkeep h.1.toProceeds (by simp))
  | relaxed p x =>
    obtain ⟨rp, hrp⟩ := hthere (p := p) (by simp [packages])
    exact Allows.map ((relaxed_stores ho hrp x).mono fun _ _ h => hkeep h.1.toProceeds (by simp))
  | search p m x =>
    obtain ⟨rp, hrp⟩ := hthere (p := p) (by simp [packages])
    exact Allows.map ((search_proceeds ho hrp x m).mono fun _ _ h =>
      hkeep h.1 fun e => by cases e; exact hno ⟨rfl, rfl⟩)
  | resolve m path =>
    exact Allows.map ((resolve_proceeds ho path).mono fun _ _ h => hkeep h.1 (by simp))
  | resolveType m qualified =>
    exact Allows.map ((resolveType_proceeds ho qualified).mono fun _ _ h => hkeep h.1 (by simp))
  | addChild p below m => exact addChild_settles config hn ho hpaths hno hs hsplit he
  | learnMissing p x =>
    obtain ⟨rp, hrp⟩ := hthere (p := p) (by simp [packages])
    obtain ⟨after, hafter, h⟩ := learnMissing_stores ho hrp x
    exact Allows.map (Gives.allows (.update hafter)
      (hkeep h.toProceeds fun e => by cases e; exact hno ⟨rfl, rfl⟩))
  | combine candidate previous m =>
    have hm := hn.module (m := m) (by simp [modules])
    obtain ⟨path, hf⟩ := allFit_of_binds (d := .pathwise) (fun p hp => hn.package hp)
      (fun hd => hd.elim) fun _ => hpaths
    exact Allows.map ((combine_stores ho hm hf).mono fun _ _ h => hkeep h.1.toProceeds (by simp))
  | combineAll candidates m =>
    have hm := hn.module (m := m) (by simp [modules])
    obtain ⟨path, hf⟩ := allFit_of_binds (d := .pathwise) (fun p hp => hn.package hp)
      (fun hd => hd.elim) fun _ => hpaths
    exact Allows.map ((combineAll_stores ho hm hf).mono fun _ _ h =>
      hkeep h.1.toProceeds (by simp))
  | addToSplit p other =>
    obtain ⟨path, ⟨rp, hrp, hpath⟩, ro, hro, hpath'⟩ := hpaths
    intro j a state hrun
    rcases addToSplit_run ho hrp hro hrun with e | ⟨_, hj⟩
    · exact e ▸ he
    · exact hkeep (hj.stores ho fun _ => hpath'.trans hpath.symm).toProceeds (by simp)
  | viewFor p client preferOwn =>
    exact Allows.map ((viewFor_same config.ignoreUnnamed p client preferOwn).mono
      fun _ _ h => h.1 ▸ he)
  | moduleNamed x =>
    intro j a state hr
    cases hr
    exact he
  | _ => exact ask_leaves he

end Request

namespace Environment

variable {env mid after : Environment} {config : Config} {s : PackageId} {r : Package}
  {name : String} {ref : Ref}

/-- The entry that a split has stays until something is registered in its place. -/
theorem Develops.settles (h : mid.Develops config
      (fun env q => q.RespectsPaths env ∧ ¬ q.Registers s name env) after)
    (hmid : Environment.empty.Develops config Request.RespectsPaths mid)
    (hs : mid.package s = .ok r) (hsplit : r.isSplit = true) (he : mid.entry s name = some ref) :
    Environment.empty.Develops config Request.RespectsPaths after ∧
      (∃ r', after.package s = .ok r' ∧ r'.isSplit = true) ∧ after.entry s name = some ref := by
  induction h with
  | refl => exact ⟨hmid, ⟨r, hs, hsplit⟩, he⟩
  | tail _ hallowed hn hrun ih =>
    obtain ⟨hdev, ⟨r', hr', hsplit'⟩, he'⟩ := ih
    have ho := hdev.orderly (orderly_empty _)
    obtain ⟨-, ha, -⟩ := Request.run_orderly config hn ho (fun _ => hallowed.1)
      (fun hd => hd.elim) _ _ _ hrun
    obtain ⟨r'', hr'', e⟩ := ha.package hr'
    refine ⟨hdev.tail hallowed.1 hn hrun, ⟨r'', hr'', e.isSplit.trans hsplit'⟩, ?_⟩
    exact Request.run_settles config hn ho hallowed.1 hallowed.2 hr' hsplit' he' _ _ _ hrun

/-- In every state that requests reach which respect paths, the strict lookup in a split gives the
entry of the split, and changes nothing; or nothing, and changes nothing, if it has no incarnations
or one of them has no entry; or else what the entries of all incarnations make, which it stores. -/
theorem strict_all_or_nothing (h : Environment.empty.Develops config Request.RespectsPaths env)
    (hr : env.package s = .ok r) (hs : r.isSplit = true) (name : String) :
    (∀ ref, env.entry s name = some ref → (Lookup.strict s name).Gives env (some ref) env) ∧
    (env.entry s name = none →
      r.incarnations = [] ∨ (∃ i ∈ r.incarnations, env.entry i name = none) →
      (Lookup.strict s name).Gives env none env) ∧
    (env.entry s name = none → r.incarnations ≠ [] →
      (∀ i ∈ r.incarnations, env.entry i name ≠ none) →
      (Lookup.strict s name).Ensures env fun answer after =>
        ∃ ref, answer = some ref ∧ Adopted config env s name ref after) := by
  have hc := (h.orderly (orderly_empty _)).coherent trivial
  refine ⟨fun ref he => (Lookup.repeats_of_entry he).strict,
    fun hnone hno => Lookup.strict_missing hc hr hs hnone hno, fun hnone hne hall => ?_⟩
  obtain ⟨_, after, hgives, ref, mid, rfl, ha⟩ := Lookup.strict_adopts hc hr hs hnone hne hall
  obtain ⟨hrank, hparts⟩ := ha.joins hc hr
  have hafter : Environment.empty.Develops config Request.RespectsPaths after := by
    have hrun : ((Request.strict s name).run config).Gives env (.ref (some ref)) after := hgives.map
    obtain ⟨j, hrun⟩ := hrun .empty
    exact h.tail (r := .strict s name) trivial ⟨by simp [Request.modules], by
      simpa [Request.packages] using lt_size_of_package hr⟩ hrun
  obtain ⟨r', hr', e⟩ := ha.keeps.packages hr
  refine ⟨some ref, after, hgives, ref, rfl, hrank, hparts, ha.entry, ha.modules, ha.keeps,
    fun later he => Lookup.repeats_of_entry he, fun later hlater => ?_⟩
  have hnow : after.entry s name = some ref := by rw [ha.entry, if_pos ⟨rfl, rfl⟩]
  have hsplit : r'.isSplit = true := (Package.isSplit_eq_of_bare e).trans hs
  exact Lookup.repeats_of_entry (hlater.settles hafter hr' hsplit hnow).2.2

/-- Four modules share a package. One of them knows a split below it, one a plain binding, one a
problem, and one that there is nothing. -/
def entriesOfAllKinds : List Request :=
  [.addModule "a" false, .addModule "b" false, .addModule "c" false, .addModule "d" false,
    .declarePackage ⟨0⟩ (.sub (.sub (.top "com") "foo") "bar"),
    .declarePackage ⟨1⟩ (.sub (.sub (.top "com") "foo") "bar"),
    .declareProblem ⟨2⟩ (.sub (.sub (.top "com") "foo") "bar"),
    .declarePackage ⟨3⟩ (.sub (.top "com") "foo"),
    .combine (some (.package ⟨4⟩)) (some (.package ⟨1⟩)) ⟨0⟩, .addToSplit ⟨11⟩ ⟨7⟩,
    .addToSplit ⟨11⟩ ⟨10⟩, .combine (some (.package ⟨5⟩)) (some (.package ⟨2⟩)) ⟨0⟩,
    .addChild ⟨1⟩ ⟨12⟩ ⟨0⟩, .addChild ⟨4⟩ ⟨5⟩ ⟨1⟩, .addChild ⟨7⟩ ⟨8⟩ ⟨2⟩, .learnMissing ⟨10⟩ "bar"]

theorem strict_all_or_nothing_entriesOfAllKinds : ∃ env r,
    Environment.empty.Develops .standard Request.RespectsPaths env ∧
    env.package ⟨11⟩ = .ok r ∧ r.isSplit = true ∧ env.entry ⟨11⟩ "bar" = none ∧
    r.incarnations ≠ [] ∧ (∀ i ∈ r.incarnations, env.entry i "bar" ≠ none) ∧
    env.entriesBelow ⟨11⟩ "bar" = [.package ⟨12⟩, .package ⟨5⟩, .package ⟨8⟩, .notFound] ∧
    (Lookup.strict ⟨11⟩ "bar").Ensures env fun answer after =>
      ∃ ref, answer = some ref ∧ Adopted .standard env ⟨11⟩ "bar" ref after := by
  have hrun : (develop .standard Request.RespectsPaths entriesOfAllKinds .empty).any (fun env =>
      (env.package ⟨11⟩).toOption.any (fun r => r.isSplit ∧ env.entry ⟨11⟩ "bar" = none ∧
        r.incarnations ≠ [] ∧ (∀ i ∈ r.incarnations, env.entry i "bar" ≠ none) ∧
        env.entriesBelow ⟨11⟩ "bar" = [.package ⟨12⟩, .package ⟨5⟩, .package ⟨8⟩, .notFound])) =
      true := by
    decide +kernel
  obtain ⟨env, henv, hany⟩ := (Option.any_eq_true _ _).mp hrun
  obtain ⟨r, hr, hshape⟩ := (Option.any_eq_true _ _).mp hany
  obtain ⟨hs, hnone, hne, hall, hentries⟩ := of_decide_eq_true hshape
  have hr := package_of_toOption hr
  have hdev := develops_of_develop .refl henv
  exact ⟨env, r, hdev, hr, hs, hnone, hne, hall, hentries,
    (strict_all_or_nothing hdev hr hs "bar").2.2 hnone hne hall⟩

end Environment

end SplitPackages
