import SplitPackages.Proofs.LookupWrites
import SplitPackages.Proofs.Placement

/-!
# Memos of relaxed lookups

The memo of a split for a name holds the entries of the incarnations that the
last relaxed lookup combined, and its result. It answers again as long as the
entries are the same references. But a reference to a split stays the same when
the split gets another incarnation, and then the memo leaves that one out.

Every memo has the best rank among its entries, whatever happens. It has the
parts of its entries too (`Unites`), until an addition to a split that it names
brings that split a new part (`Outgrown`); nothing else adds a part to a binding
that exists (`Inert`). So the relaxed lookup agrees with a new combination of the
entries except where the memo is outgrown (`relaxed_fresh_or_outgrown`).
-/

namespace SplitPackages

def Package.memoize (name : String) (v : List Ref × Option Ref) (r : Package) : Package :=
  r.mapSplit fun s => { s with relaxed := s.relaxed.insert name v }

namespace Environment

/-- The candidate has the parts of the references, and no others. -/
def Unites (env : Environment) (refs : List Ref) (result : Option Ref) : Prop :=
  ∀ i, i ∈ env.partsOf result ↔ ∃ ref ∈ refs, i ∈ env.partsOf (some ref)

/-- The entries that the incarnations of a split have for the name. -/
def entriesBelow (env : Environment) (s : PackageId) (name : String) : List Ref :=
  (env.incarnationsOf s).filterMap (env.entry · name)

/-- What a split remembers of the last relaxed lookup of the name. -/
def memo (env : Environment) (s : PackageId) (name : String) : Option (List Ref × Option Ref) :=
  match env.package s with
  | .ok r => r.memo name
  | .error _ => none

/-- There are no new memos, and the bindings that are there have no new parts. -/
structure Inert (env after : Environment) : Prop where
  memo : ∀ {s name v}, after.memo s name = some v → env.memo s name = some v
  parts : ∀ {p r}, env.package p = .ok r → ∀ i ∈ after.parts p, i ∈ env.parts p

/-- The memo names a binding to which an addition has brought a new part since. -/
def Outgrown (config : Config) (s : PackageId) (name : String) (v : List Ref × Option Ref)
    (env : Environment) : Prop :=
  ∃ mid p other a state, Environment.empty.Develops config Request.RespectsPaths mid ∧
    mid.memo s name = some v ∧ p ∈ bindings (v.2 :: v.1.map some) ∧
    (Request.addToSplit p other).run config ⟨mid, .empty⟩ = .ok (a, state) ∧
    (∃ i ∈ state.env.parts p, i ∉ mid.parts p) ∧
    state.env.Develops config Request.RespectsPaths env

/-- The result has the best rank of the entries, and their parts unless the memo is outgrown. -/
structure Accounts (config : Config) (s : PackageId) (name : String) (refs : List Ref)
    (result : Option Ref) (env : Environment) : Prop where
  rank : env.rank result = .ok (bestRank (env.ranked refs))
  parts : env.Unites refs result ∨ Outgrown config s name (refs, result) env

def Accounted (config : Config) (env : Environment) : Prop :=
  ∀ s name refs result, env.memo s name = some (refs, result) →
    Accounts config s name refs result env

/-- The relaxed lookup combined the entries, and the split remembers the result. -/
structure Recombines (env : Environment) (s : PackageId) (r : Package) (name : String)
    (result : Option Ref) (mid after : Environment) : Prop where
  combined : (Lookup.combineAll ((env.entriesBelow s name).map some) r.home).Gives env result mid
  grows : env.Grows mid
  memoized : mid.setPackage s (·.memoize name (env.entriesBelow s name, result)) = .ok after

variable {env mid after : Environment} {config : Config} {c : Option Ref} {p s : PackageId}
  {m : ModuleId} {r : Package} {path : Path} {name x : String} {ref : Ref} {refs : List Ref}
  {result : Option Ref} {v : List Ref × Option Ref}

theorem memo_of_package (h : env.package s = .ok r) : env.memo s name = r.memo name := by
  simp only [memo, h]

theorem package_of_memo (h : env.memo s name = some v) :
    ∃ r, env.package s = .ok r ∧ r.memo name = some v := by
  unfold memo at h
  split at h
  · next r hr => exact ⟨r, hr, h⟩
  · cases h

/-! ## Where paths matter -/

/-- If paths matter, an orderly environment is coherent. -/
theorem Orderly.coherent {d : Discipline} (ho : env.Orderly d) (hd : d.paths) : env.Coherent where
  reads := ho.graph.reads
  declared := ho.graph.declared
  own := ho.graph.own
  home := ho.graph.home
  enclosing := ho.graph.enclosing
  types := ho.graph.types
  split {p r s} hp hk := by
    have hinc : r.incarnations = s.incarnations.toList := by simp only [Package.incarnations, hk]
    have hparts : r.contributors p = s.incarnations.toList := by
      simp only [Package.contributors, hk]
    have hdecl : r.declaring = s.declaring.toList := by simp only [Package.declaring, hk]
    refine ⟨fun {i} hi => ?_, fun k => ?_⟩
    · have hi : i ∈ r.incarnations := hinc ▸ hi
      obtain ⟨ri, hri, hpl⟩ := ho.wired.plain_of_mem hp hi
      exact ⟨ri, hri, hpl, ho.placed hd hp hi hri⟩
    · have hmem := ho.wired.mem_declaring_iff hp (m := k)
      rw [hdecl, hparts] at hmem
      exact hmem
  entry hp he := (ho.entry hp he).binds hd
  memo {p r s name entries q} hp hk he := by
    rw [← Package.memo_of_kind hk] at he
    exact (ho.memo hp he q (mem_bindings.mpr List.mem_cons_self)).binds hd
  seen hs := (ho.seen hs).binds hd

/-! ## What stays the same as an environment advances -/

theorem Advances.valid (h : env.Advances after) (hp : ∃ r, env.package p = .ok r) :
    after.valid p = env.valid p := by
  obtain ⟨r, hr⟩ := hp
  obtain ⟨r', hr', e⟩ := h.package hr
  rw [valid_of_package hr', valid_of_package hr, e.isValid]

/-- The ranks of references depend on which bindings are valid only. -/
theorem ranked_eq (h : ∀ p, .package p ∈ refs → after.valid p = env.valid p) :
    after.ranked refs = env.ranked refs := by
  refine List.map_congr_left fun ref href => ?_
  cases ref with
  | notFound => rfl
  | package p => simp only [rankOf, h p href]

theorem Advances.rank (h : env.Advances after)
    (hthere : ∀ p, c = some (.package p) → ∃ r, env.package p = .ok r) :
    after.rank c = env.rank c := by
  rcases c with _ | _ | p
  · rfl
  · rfl
  · obtain ⟨r, hr⟩ := hthere p rfl
    obtain ⟨r', hr', e⟩ := h.package hr
    simp only [Environment.rank, hr, hr', e.isValid, bind, Except.bind]

theorem partsOf_eq (h : ∀ p, c = some (.package p) → ∀ i, i ∈ after.parts p ↔ i ∈ env.parts p)
    (i : PackageId) : i ∈ after.partsOf c ↔ i ∈ env.partsOf c := by
  rcases c with _ | _ | p
  · rfl
  · rfl
  · exact h p rfl i

/-- What unites the references goes on to, as long as the bindings that are named have the same
parts. -/
theorem Unites.later (h : env.Unites refs result)
    (hsame : ∀ p ∈ bindings (result :: refs.map some), ∀ i, i ∈ after.parts p ↔ i ∈ env.parts p) :
    after.Unites refs result := by
  have hnamed {c : Option Ref} (hc : c ∈ result :: refs.map some) (i : PackageId) :
      i ∈ after.partsOf c ↔ i ∈ env.partsOf c :=
    partsOf_eq (fun p e => hsame p (mem_bindings.mpr (e ▸ hc))) i
  intro i
  rw [hnamed List.mem_cons_self, h i]
  refine exists_congr fun ref => and_congr_right fun href => ?_
  rw [hnamed (List.mem_cons_of_mem _ (List.mem_map_of_mem href))]

theorem Keeps.parts_iff (h : env.Keeps after) (hp : ∃ r, env.package p = .ok r) (i : PackageId) :
    i ∈ after.parts p ↔ i ∈ env.parts p := by
  obtain ⟨r, hr⟩ := hp
  rw [h.parts hr]

/-! ## Combining -/

theorem combineAll_unites (hc : env.Coherent) (hm : ∃ record, env.module m = .ok record)
    (hb : env.AllBind path refs) :
    (Lookup.combineAll (refs.map some) m).Ensures env fun result after => env.Grows after ∧
      after.rank result = .ok (bestRank (env.ranked refs)) ∧ after.Unites refs result := by
  refine (Lookup.combineAll_collects hc hb.bindings m).mono fun result after h => ?_
  have hg := h.grows hc hm hb.bindings
  have hs := h.sums hb.bindings
  refine ⟨hg, graded_map env refs ▸ hs.rank, fun i => ?_⟩
  rw [hs.parts]
  simp only [List.mem_map, exists_exists_and_eq_and]
  refine exists_congr fun ref => and_congr_right fun href => ?_
  rw [hg.keeps.partsOf fun p e => hb p (Option.some.inj e ▸ href)]

/-! ## Requests that are inert -/

theorem Extends.inert (h : env.Extends after) : env.Inert after where
  memo {s name v} hm := by
    obtain ⟨r', hr', hm⟩ := package_of_memo hm
    rcases h.newPackage hr' with ⟨r, hr⟩ | ⟨-, hs⟩
    · obtain ⟨r'', hr'', e⟩ := h.package hr
      cases package_unique hr' hr''
      rwa [memo_of_package hr, Package.memo, ← e.split]
    · rw [Package.memo, Package.split?_of_not_isSplit hs] at hm
      cases hm
  parts {p r} hp i hi := by
    obtain ⟨r', hr', e⟩ := h.package hp
    rw [parts_of_package hr', Package.mem_contributors, e.plain, e.incarnations] at hi
    rwa [parts_of_package hp, Package.mem_contributors]

theorem Alters.inert (h : env.Alters (some env.packages.size) after) : env.Inert after where
  memo {s name v} hm := by
    obtain ⟨r', hr', hm⟩ := package_of_memo hm
    obtain ⟨r, hr, hm⟩ := h.memo_back hr' hm
    rwa [memo_of_package hr]
  parts {p r} hp i hi := by
    obtain ⟨r', hr', e⟩ := h.package_old hp
    rw [parts_of_package hr', Package.mem_contributors, e.isPlain,
      (h.spares hp hr').incarnations (lt_size_of_package hp)] at hi
    rwa [parts_of_package hp, Package.mem_contributors]

end Environment

/-- Only a relaxed lookup or an addition to a split is not inert. -/
theorem Request.run_inert (config : Config) {env : Environment} {r : Request} (hn : r.Names env)
    (hg : env.Graph) (hs : r.spares = true) :
    (r.run config).Allows env fun _ after => env.Inert after := by
  by_cases hb : r.builds = true
  · exact (builds_spec config hb hn hg).allows.mono fun _ _ h => h.1.extends.inert
  · have halters : (r.run config).Alters (some env.packages.size) :=
      run_alters config (by simpa using hb) (.inl hs)
    exact fun _ _ _ hrun => (halters _ _ _ (by simp) hrun).inert

namespace Environment

variable {env mid after : Environment} {config : Config} {p s : PackageId} {r : Package}
  {path : Path} {name x : String} {refs : List Ref} {result : Option Ref}
  {v : List Ref × Option Ref}

/-! ## What a relaxed lookup does -/

theorem entriesBelow_of_package (hr : env.package s = .ok r) :
    env.entriesBelow s name = r.incarnations.filterMap (env.entry · name) := by
  rw [entriesBelow, incarnationsOf_of_package hr]

theorem Coherent.someEntries (hc : env.Coherent) (hr : env.package s = .ok r) (name : String) :
    env.someEntries name r.incarnations = .ok (env.entriesBelow s name) := by
  rw [entriesBelow_of_package hr]
  exact someEntries_eq name _ fun i hi => hc.closed.incarnations hr hi

theorem Coherent.entriesBelow_allBind (hc : env.Coherent) (hr : env.package s = .ok r)
    (name : String) : env.AllBind (.sub r.path name) (env.entriesBelow s name) :=
  hc.entries_allBind hr fun _ href => List.mem_filterMap.mp (entriesBelow_of_package hr ▸ href)

end Environment

namespace Lookup

open Environment

variable {env mid after : Environment} {s : PackageId} {r : Package} {name : String}
  {result : Option Ref}

/-- A split answers from its memo as long as its incarnations have the entries that are in it. -/
theorem relaxed_recalls (hc : env.Coherent) (hr : env.package s = .ok r) (hs : r.isSplit = true)
    (hnone : env.entry s name = none)
    (hm : env.memo s name = some (env.entriesBelow s name, result)) :
    (relaxed s name).Gives env result env := by
  refine (Gives.ask hr).bind ?_
  rw [if_pos hs]
  unfold relaxedInSplit
  rw [entry_of_package hr] at hnone
  rw [hnone]
  refine (Gives.ask (hc.someEntries hr name)).bind ?_
  rw [memo_of_package hr, Package.memo] at hm
  simp only [hm, if_true]
  exact Gives.pure _

/-- The relaxed lookup of a name without an entry answers from the memo, or combines the entries. -/
theorem relaxed_outcome (hc : env.Coherent) (hr : env.package s = .ok r) (hs : r.isSplit = true)
    (hnone : env.entry s name = none) :
    (relaxed s name).Ensures env fun result after =>
      after = env ∧ env.memo s name = some (env.entriesBelow s name, result) ∨
        ∃ mid, env.Recombines s r name result mid after := by
  by_cases hm : ∃ result, env.memo s name = some (env.entriesBelow s name, result)
  · obtain ⟨result, hm⟩ := hm
    exact ⟨result, env, relaxed_recalls hc hr hs hnone hm, .inl ⟨rfl, hm⟩⟩
  obtain ⟨result, mid, hgives, hg, -⟩ := combineAll_spec hc (hc.home hr)
    (hc.entriesBelow_allBind hr name)
  obtain ⟨rm, hrm, -⟩ := hg.old hr
  obtain ⟨after, hset⟩ := Environment.setPackage_ok hrm
    (·.memoize name (env.entriesBelow s name, result))
  have hmerge : (relaxedInSplit.merge s r name (env.entriesBelow s name)).Gives env result after :=
    hgives.bind ((Gives.update (Update.setPackage_ok hset)).bind (Gives.pure _))
  refine ⟨result, after, (Gives.ask hr).bind ?_, .inr ⟨mid, hgives, hg, hset⟩⟩
  rw [if_pos hs]
  unfold relaxedInSplit
  rw [entry_of_package hr] at hnone
  rw [hnone]
  refine (Gives.ask (hc.someEntries hr name)).bind ?_
  rw [memo_of_package hr, Package.memo] at hm
  split
  · next seen result' hmemo =>
    have hne : seen ≠ env.entriesBelow s name := fun e => hm ⟨result', e ▸ hmemo⟩
    rw [if_neg hne]
    exact hmerge
  · exact hmerge

end Lookup

namespace Environment

variable {env mid after : Environment} {config : Config} {c p s : PackageId} {r r' : Package}
  {path : Path} {name x : String} {refs : List Ref} {result : Option Ref}
  {v : List Ref × Option Ref}

/-- Caches have nothing to do with parts. -/
theorem Touches.parts (h : env.Touches c r r' after) (p : PackageId) :
    after.parts p = env.parts p := by
  by_cases e : p = c
  · subst e
    rw [parts_of_package h.now, parts_of_package h.before, Package.contributors_eq_of_bare h.bare]
  · unfold Environment.parts
    rw [h.others e]

theorem Touches.rank (h : env.Touches c r r' after) (o : Option Ref) :
    after.rank o = env.rank o := by
  rcases o with _ | _ | p
  · rfl
  · rfl
  · by_cases e : p = c
    · subst e
      simp only [Environment.rank, h.now, h.before, Package.isValid_eq_of_bare h.bare, bind,
        Except.bind]
    · simp only [Environment.rank, h.others e]

namespace Recombines

theorem package_mid (h : env.Recombines s r name result mid after) (hr : env.package s = .ok r)
    (hs : r.isSplit = true) : mid.package s = .ok r := by
  obtain ⟨rm, hrm, e⟩ := h.grows.old hr
  rwa [Package.eq_of_unwrapped e hs] at hrm

theorem touches (h : env.Recombines s r name result mid after) (hr : env.package s = .ok r)
    (hs : r.isSplit = true) :
    mid.Touches s r (r.memoize name (env.entriesBelow s name, result)) after := by
  obtain ⟨split, hk⟩ := Package.kind_of_isSplit hs
  refine touches_of_setPackage h.memoized (h.package_mid hr hs) ?_
  simp only [Package.memoize, Package.mapSplit, hk, Package.bare, Kind.bare]

theorem memo (h : env.Recombines s r name result mid after) (hr : env.package s = .ok r)
    (hs : r.isSplit = true) (c : PackageId) (x : String) : after.memo c x =
      if c = s ∧ x = name then some (env.entriesBelow s name, result) else mid.memo c x := by
  have ht := h.touches hr hs
  obtain ⟨split, hk⟩ := Package.kind_of_isSplit hs
  by_cases e : c = s
  · subst e
    rw [memo_of_package ht.now, memo_of_package ht.before]
    simp only [Package.memo, Package.memoize, Package.mapSplit, Package.split?, hk, true_and,
      Option.bind_some, Table.get?_insert, eq_comm]
  · rw [if_neg fun h => e h.1]
    unfold Environment.memo
    rw [ht.others e]

theorem entry (h : env.Recombines s r name result mid after) (hr : env.package s = .ok r)
    (hs : r.isSplit = true) (p : PackageId) (x : String) : after.entry p x = env.entry p x := by
  have ht := h.touches hr hs
  rw [← h.grows.entry_eq]
  by_cases e : p = s
  · subst e
    obtain ⟨split, hk⟩ := Package.kind_of_isSplit hs
    rw [entry_of_package ht.now, entry_of_package ht.before]
    simp only [Package.memoize, Package.mapSplit, hk]
  · unfold Environment.entry
    rw [ht.others e]

theorem entriesBelow (h : env.Recombines s r name result mid after) (hr : env.package s = .ok r)
    (hs : r.isSplit = true) : after.entriesBelow s name = env.entriesBelow s name := by
  have ht := h.touches hr hs
  rw [entriesBelow_of_package ht.now, Package.incarnations_eq_of_bare ht.bare,
    entriesBelow_of_package hr]
  exact List.filterMap_congr fun i _ => h.entry hr hs i name

end Recombines

theorem Grows.inert (h : env.Grows after) : env.Inert after where
  memo {s name v} hm := by
    obtain ⟨r', hr', hm⟩ := package_of_memo hm
    rcases h.new hr' with ⟨r, hr⟩ | hn
    · obtain ⟨r'', hr'', e⟩ := h.old hr
      cases package_unique hr' hr''
      rwa [memo_of_package hr, Package.memo, ← Package.split?_eq_of_unwrapped e]
    · obtain ⟨s, hk, hempty, -⟩ := hn.kind
      rw [Package.memo_of_kind hk, hempty] at hm
      cases hm
  parts {p r} hp i hi := by rwa [h.keeps.parts hp] at hi

theorem Joins.memo {split other : PackageId} {rs ro : Package} {st : Split}
    (h : env.Joins split other rs ro st after) (s : PackageId) (name : String) :
    after.memo s name = env.memo s name := by
  cases hr : env.package s with
  | ok r =>
    obtain ⟨r', hr', -, -, -, e⟩ := h.package hr
    rw [memo_of_package hr', memo_of_package hr, e]
  | error e =>
    cases hr' : after.package s with
    | ok r' =>
      obtain ⟨r0, hr0⟩ := h.package_back hr'
      rw [hr] at hr0
      cases hr0
    | error e' => simp only [Environment.memo, hr, hr']

theorem Joins.parts_ne {split other : PackageId} {rs ro : Package} {st : Split}
    (h : env.Joins split other rs ro st after) (hne : p ≠ split) :
    after.parts p = env.parts p := by
  rcases h.beside hne with e | ⟨r, hr, e⟩
  · unfold Environment.parts
    rw [e]
  · rw [parts_of_package e, parts_of_package hr]
    obtain ⟨_, _, _, _, _, _, kind⟩ := r
    cases kind <;> rfl

/-! ## Every request -/

theorem Orderly.named (ho : env.Orderly .pathwise) (hm : env.memo s name = some (refs, result)) :
    ∀ p ∈ bindings (result :: refs.map some), ∃ r, env.package p = .ok r := by
  obtain ⟨r, hr, hm⟩ := package_of_memo hm
  exact fun p hp => (ho.memo hr hm p hp).imp fun _ => And.left

/-- A memo that is still there accounts for its entries, or it has been outgrown. -/
theorem Accounts.carry (h : Accounts config s name refs result env) (ho : env.Orderly .pathwise)
    (hm : env.memo s name = some (refs, result)) (ha : env.Advances after)
    (hlater : ∀ v, Outgrown config s name v env → Outgrown config s name v after)
    (hgrown : ∀ p ∈ bindings (result :: refs.map some), ∀ i ∈ after.parts p, i ∉ env.parts p →
      Outgrown config s name (refs, result) after) :
    Accounts config s name refs result after where
  rank := by
    have hranked : after.ranked refs = env.ranked refs := ranked_eq fun p hp =>
      ha.valid (ho.named hm p (mem_bindings.mpr (List.mem_cons_of_mem _ (List.mem_map_of_mem hp))))
    rw [hranked, ← h.rank]
    exact ha.rank fun p e => ho.named hm p (mem_bindings.mpr (e ▸ List.mem_cons_self))
  parts := by
    by_cases hnew : ∃ p ∈ bindings (result :: refs.map some), ∃ i ∈ after.parts p, i ∉ env.parts p
    · obtain ⟨p, hp, i, hi, hni⟩ := hnew
      exact .inr (hgrown p hp i hi hni)
    · refine h.parts.imp (fun h => h.later fun p hp i => ⟨fun hi => ?_, ha.parts i⟩) (hlater _)
      by_contra hni
      exact hnew ⟨p, hp, i, hi, hni⟩

theorem Accounts.same (h : Accounts config s name refs result env) (ho : env.Orderly .pathwise)
    (hm : env.memo s name = some (refs, result)) (ha : env.Advances after)
    (hlater : ∀ v, Outgrown config s name v env → Outgrown config s name v after)
    (hparts : ∀ {p r}, env.package p = .ok r → ∀ i ∈ after.parts p, i ∈ env.parts p) :
    Accounts config s name refs result after := by
  refine h.carry ho hm ha hlater fun p hp i hi hni => ?_
  obtain ⟨r, hr⟩ := ho.named hm p hp
  exact absurd (hparts hr i hi) hni

/-- A relaxed lookup makes a memo that accounts for its entries, or none. -/
theorem Recombines.accounted (h : env.Recombines s r name result mid after)
    (hacc : Accounted config env) (ho : env.Orderly .pathwise) (hr : env.package s = .ok r)
    (hs : r.isSplit = true) (ha : env.Advances after)
    (hlater : ∀ c x v, Outgrown config c x v env → Outgrown config c x v after) :
    Accounted config after := by
  have hc := ho.coherent trivial
  have ht := h.touches hr hs
  have hb := hc.entriesBelow_allBind hr name
  intro c x refs result' hm
  rw [h.memo hr hs] at hm
  split at hm
  · next e =>
    obtain ⟨rfl, rfl⟩ := e
    cases hm
    obtain ⟨result', mid', hgives, -, hrank, hunites⟩ := combineAll_unites hc (hc.home hr) hb
    obtain ⟨j, hj⟩ := h.combined .empty
    obtain ⟨rfl, rfl⟩ := hgives.of_run hj
    refine ⟨?_, .inl (hunites.later fun p _ i => by rw [ht.parts])⟩
    have hranked : after.ranked (env.entriesBelow c x) = env.ranked (env.entriesBelow c x) :=
      ranked_eq fun p hp => ha.valid ((hb p hp).imp fun _ => And.left)
    rw [ht.rank, hranked]
    exact hrank
  · have hmemo := h.grows.inert.memo hm
    refine (hacc c x refs result' hmemo).same ho hmemo ha (hlater c x) fun hp i hi => ?_
    rw [ht.parts] at hi
    exact h.grows.inert.parts hp i hi

end Environment

namespace Lookup

open Environment

variable {env : Environment} {s : PackageId} {r : Package}

theorem relaxed_recombines (hc : env.Coherent) (hr : env.package s = .ok r) (name : String) :
    (relaxed s name).Ensures env fun result after =>
      after = env ∨ r.isSplit = true ∧ ∃ mid, env.Recombines s r name result mid after := by
  by_cases hs : r.isSplit = true
  · cases he : env.entry s name with
    | none =>
      refine (relaxed_outcome hc hr hs he).mono ?_
      rintro result after (⟨e, -⟩ | h)
      · exact .inl e
      · exact .inr ⟨hs, h⟩
    | some ref =>
      rw [entry_of_package hr] at he
      refine Ensures.step (.ask hr) ?_
      rw [if_pos hs]
      unfold relaxedInSplit
      rw [he]
      exact Ensures.pure (.inl rfl)
  · refine Ensures.step (.ask hr) ?_
    rw [if_neg hs]
    exact Ensures.pure (.inl rfl)

end Lookup

namespace Request

open Environment Lookup

variable {config : Config} {env : Environment} {p other : PackageId} {r : Request}
  {rp ro : Package} {a : Answer} {state : State} {j : Journal}

theorem addToSplit_run (ho : env.Orderly .pathwise) (hrp : env.package p = .ok rp)
    (hro : env.package other = .ok ro)
    (hrun : (addToSplit p other).run config ⟨env, j⟩ = .ok (a, state)) :
    state.env = env ∨ ∃ s, env.Joins p other rp ro s state.env := by
  have hend {after : Environment} {rp' : Package}
      (hadd : Update.addToSplit p other env = .ok ((), after))
      (hrp' : after.package p = .ok rp') : state.env = after := by
    have hgives : ((addToSplit p other).run config).Gives env (.packageRecord rp') after :=
      (Gives.update hadd).bind ((Gives.ask hrp').bind (Gives.pure _))
    exact (hgives.of_run hrun).2
  by_cases hs : rp.isSplit = true
  · obtain ⟨s, hk⟩ := Package.kind_of_isSplit hs
    obtain ⟨after, hafter, hj⟩ := ho.wired.joins hrp hk hro
    exact .inr ⟨s, hend hafter hj.now ▸ hj⟩
  · exact .inl (hend (addToSplit_same hrp (by simpa using hs) hro) hrp)

theorem run_accounted (h : Environment.empty.Develops config Request.RespectsPaths env)
    (hacc : Accounted config env) (hpaths : r.RespectsPaths env) (hn : r.Names env)
    (hrun : r.run config ⟨env, .empty⟩ = .ok (a, state)) : Accounted config state.env := by
  have ho := h.orderly (orderly_empty _)
  have hc := ho.coherent trivial
  have ha := (run_orderly config hn ho (fun _ => hpaths) (fun hd => hd.elim) _ _ _ hrun).2.1
  have hlater (s : PackageId) (name : String) (v : List Ref × Option Ref) :
      Outgrown config s name v env → Outgrown config s name v state.env := by
    rintro ⟨mid, p, other, a', state', hmid, hm, hp, hadd, hgrown, hthen⟩
    exact ⟨mid, p, other, a', state', hmid, hm, hp, hadd, hgrown, hthen.tail hpaths hn hrun⟩
  by_cases hs : r.spares = true
  · have hin := run_inert config hn ho.graph hs _ _ _ hrun
    intro s name refs result hm
    have hm := hin.memo hm
    exact (hacc s name refs result hm).same ho hm ha (hlater s name) hin.parts
  cases r with
  | relaxed s name =>
    obtain ⟨rs, hrs⟩ := hn.package (p := s) (by simp [packages])
    obtain ⟨result, after, hgives, hout⟩ := relaxed_recombines hc hrs name
    have hmap : ((relaxed s name).run config).Gives env (.ref result) after :=
      hgives.map
    obtain ⟨-, e⟩ := hmap.of_run hrun
    rw [e] at ha hlater ⊢
    rcases hout with rfl | ⟨hs, mid, hre⟩
    · exact hacc
    · exact hre.accounted hacc ho hrs hs ha hlater
  | addToSplit p other =>
    obtain ⟨rp, hrp⟩ := hn.package (p := p) (by simp [packages])
    obtain ⟨ro, hro⟩ := hn.package (p := other) (by simp [packages])
    rcases addToSplit_run ho hrp hro hrun with e | ⟨s, hj⟩
    · exact e ▸ hacc
    · intro c name refs result hm
      rw [hj.memo] at hm
      refine (hacc c name refs result hm).carry ho hm ha (hlater c name) fun q hq i hi hni => ?_
      by_cases e : q = p
      · subst e
        exact ⟨env, q, other, a, state, h, hm, hq, hrun, ⟨i, hi, hni⟩, .refl⟩
      · rw [hj.parts_ne e] at hi
        exact absurd hi hni
  | _ => exact absurd rfl hs

end Request

namespace Environment

variable {env : Environment} {config : Config} {s : PackageId} {r : Package} {name : String}

theorem Develops.accounted (h : Environment.empty.Develops config Request.RespectsPaths env) :
    Accounted config env := by
  induction h with
  | refl =>
    intro s name refs result hm
    obtain ⟨r, hr, -⟩ := package_of_memo hm
    cases hr
  | tail h hpaths hn hrun ih => exact Request.run_accounted h ih hpaths hn hrun

/-- In every state that requests reach which respect paths, the relaxed lookup of a name for which
a split has no entry answers with the rank and the parts that combining the entries of the
incarnations gives there and then, unless the memo that it uses is outgrown. It changes neither
modules nor entries, and asked again it gives the same answer and changes nothing. -/
theorem relaxed_fresh_or_outgrown
    (h : Environment.empty.Develops config Request.RespectsPaths env)
    (hr : env.package s = .ok r) (hs : r.isSplit = true) (hnone : env.entry s name = none) :
    env.someEntries name r.incarnations = .ok (env.entriesBelow s name) ∧
    (Lookup.relaxed s name).Ensures env fun answer after =>
      ((Lookup.combineAll ((env.entriesBelow s name).map some) r.home).Ensures env
        fun fresh later => (∃ best, after.rank answer = .ok best ∧ later.rank fresh = .ok best) ∧
          ((∀ i, i ∈ after.partsOf answer ↔ i ∈ later.partsOf fresh) ∨
            Outgrown config s name (env.entriesBelow s name, answer) env)) ∧
      after.modules = env.modules ∧ (∀ p x, after.entry p x = env.entry p x) ∧
      (Lookup.relaxed s name).Gives after answer after := by
  have ho := h.orderly (orderly_empty _)
  have hc := ho.coherent trivial
  have hfresh := combineAll_unites hc (hc.home hr) (hc.entriesBelow_allBind hr name)
  obtain ⟨answer, after, hgives, hout⟩ := Lookup.relaxed_outcome hc hr hs hnone
  refine ⟨hc.someEntries hr name, answer, after, hgives, ?_⟩
  rcases hout with ⟨rfl, hm⟩ | ⟨mid, hre⟩
  · have hacc := h.accounted s name _ _ hm
    refine ⟨hfresh.mono fun fresh later ⟨hg, hrank, hunites⟩ => ?_, rfl, fun _ _ => rfl,
      Lookup.relaxed_recalls hc hr hs hnone hm⟩
    refine ⟨⟨_, hacc.rank, hrank⟩, hacc.parts.imp_left fun hold i => ?_⟩
    have hsame {p : PackageId} (hp : p ∈ bindings _) (i : PackageId) :=
      hg.keeps.parts_iff (ho.named hm p hp) i
    rw [hunites i, ← hold.later (fun p hp => hsame hp) i]
    exact (partsOf_eq (fun p e => hsame (mem_bindings.mpr (e ▸ List.mem_cons_self))) i).symm
  · have ht := hre.touches hr hs
    have hafter : after.Coherent :=
      (hgives.allowed (Lookup.relaxed_spec hc hr name).allows).1.coherent hc
    obtain ⟨-, hrank, -⟩ := hre.combined.allowed hfresh.allows
    refine ⟨⟨answer, mid, hre.combined, ⟨_, (ht.rank answer).trans hrank, hrank⟩, .inl fun i => ?_⟩,
      ht.modules.trans hre.grows.modules, hre.entry hr hs, ?_⟩
    · exact partsOf_eq (fun p _ i => by rw [ht.parts]) i
    · refine Lookup.relaxed_recalls hafter ht.now ?_ ((hre.entry hr hs s name).trans hnone) ?_
      · rw [Package.isSplit_eq_of_bare ht.bare, hs]
      · rw [hre.memo hr hs, if_pos ⟨rfl, rfl⟩, hre.entriesBelow hr hs]

/-- Whether the relaxed lookup leaves out a part that combining the entries brings in. -/
def leavesOut (env : Environment) (s : PackageId) (name : String) (home : ModuleId)
    (i : PackageId) : Bool :=
  match Lookup.relaxed s name ⟨env, .empty⟩,
    Lookup.combineAll ((env.entriesBelow s name).map some) home ⟨env, .empty⟩ with
  | .ok (answer, after), .ok (fresh, later) =>
    decide (i ∉ after.env.partsOf answer) && decide (i ∈ later.env.partsOf fresh)
  | _, _ => false

/-- Two modules share a package, and each knows the package below: one of them as a split, to which
a binding is added after it has been looked up from both. -/
def grownEntry : List Request :=
  [.addModule "a" false, .addModule "b" false, .addModule "c" false, .addModule "d" false,
    .declarePackage ⟨0⟩ (.sub (.sub (.top "com") "foo") "bar"),
    .declarePackage ⟨1⟩ (.sub (.sub (.top "com") "foo") "bar"),
    .declarePackage ⟨2⟩ (.sub (.sub (.top "com") "foo") "bar"),
    .declarePackage ⟨3⟩ (.sub (.sub (.top "com") "foo") "bar"),
    .combine (some (.package ⟨7⟩)) (some (.package ⟨1⟩)) ⟨0⟩,
    .combine (some (.package ⟨5⟩)) (some (.package ⟨2⟩)) ⟨0⟩,
    .addChild ⟨1⟩ ⟨13⟩ ⟨0⟩, .addChild ⟨7⟩ ⟨8⟩ ⟨2⟩, .relaxed ⟨12⟩ "bar", .addToSplit ⟨13⟩ ⟨11⟩]

theorem exists_of_grownEntry : ∃ env r,
    Environment.empty.Develops .standard Request.RespectsPaths env ∧
      env.package ⟨12⟩ = .ok r ∧ r.isSplit = true ∧ env.entry ⟨12⟩ "bar" = none ∧
      env.leavesOut ⟨12⟩ "bar" r.home ⟨11⟩ = true := by
  have hrun : (develop .standard Request.RespectsPaths grownEntry .empty).any (fun env =>
      match env.package ⟨12⟩ with
      | .ok r => r.isSplit && (env.entry ⟨12⟩ "bar" == none) && env.leavesOut ⟨12⟩ "bar" r.home ⟨11⟩
      | .error _ => false) = true := by
    decide +kernel
  obtain ⟨env, henv, hshape⟩ := (Option.any_eq_true _ _).mp hrun
  have hdev := develops_of_develop .refl henv
  split at hshape
  · next r hr =>
    rw [Bool.and_eq_true, Bool.and_eq_true, beq_iff_eq] at hshape
    exact ⟨env, r, hdev, hr, hshape.1.1, hshape.1.2, hshape.2⟩
  · cases hshape

theorem relaxed_fresh_or_outgrown_grownEntry : ∃ env r,
    Environment.empty.Develops .standard Request.RespectsPaths env ∧
    env.package ⟨12⟩ = .ok r ∧ r.isSplit = true ∧ env.entry ⟨12⟩ "bar" = none ∧
    env.someEntries "bar" r.incarnations = .ok (env.entriesBelow ⟨12⟩ "bar") ∧
    (Lookup.relaxed ⟨12⟩ "bar").Ensures env fun answer after =>
      ((Lookup.combineAll ((env.entriesBelow ⟨12⟩ "bar").map some) r.home).Ensures env
        fun fresh later => (∃ best, after.rank answer = .ok best ∧ later.rank fresh = .ok best) ∧
          ((∀ i, i ∈ after.partsOf answer ↔ i ∈ later.partsOf fresh) ∨
            Outgrown .standard ⟨12⟩ "bar" (env.entriesBelow ⟨12⟩ "bar", answer) env)) ∧
      after.modules = env.modules ∧ (∀ p x, after.entry p x = env.entry p x) ∧
      (Lookup.relaxed ⟨12⟩ "bar").Gives after answer after := by
  obtain ⟨env, r, hdev, hr, hs, hnone, -⟩ := exists_of_grownEntry
  exact ⟨env, r, hdev, hr, hs, hnone, relaxed_fresh_or_outgrown hdev hr hs hnone⟩

theorem relaxed_leaves_out :
    ¬ ∀ env, Environment.empty.Develops .standard Request.RespectsPaths env →
      ∀ s r name, env.package s = .ok r → r.isSplit = true → env.entry s name = none →
        (Lookup.relaxed s name).Ensures env fun answer after =>
          (Lookup.combineAll ((env.entriesBelow s name).map some) r.home).Ensures env
            fun fresh later => ∀ i, i ∈ after.partsOf answer ↔ i ∈ later.partsOf fresh := by
  intro hall
  obtain ⟨env, r, hdev, hr, hs, hnone, hout⟩ := exists_of_grownEntry
  obtain ⟨answer, after, hrelaxed, fresh, later, hcombine, hparts⟩ :=
    hall env hdev _ r "bar" hr hs hnone
  obtain ⟨j, hrelaxed⟩ := hrelaxed .empty
  obtain ⟨j', hcombine⟩ := hcombine .empty
  simp only [leavesOut, hrelaxed, hcombine, Bool.and_eq_true, decide_eq_true_eq] at hout
  exact hout.1 ((hparts _).mpr hout.2)

end Environment

end SplitPackages
