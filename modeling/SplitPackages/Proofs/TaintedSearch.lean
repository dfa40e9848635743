import SplitPackages.Proofs.Repetition
import SplitPackages.Proofs.Sources

/-!
# What a search skips

A search leaves out the tainted bindings that it meets, so its answer is never
tainted. But an untainted split can have a tainted incarnation (`Within`), and
what the search stores has two more sources, where nobody looks for a taint: the
siblings that registering adds, and what the home of the split stored there when
it was asked. `Slips` lists the three ways. There is no other: a tainted binding
that takes none of them is neither found nor stored, and does not come back when
the package is asked for again (`search_skips_tainted`).
-/

namespace SplitPackages

theorem Package.eq_of_mem_contributors {r : Package} {p i : PackageId} (hs : r.isSplit = false)
    (hi : i ∈ r.contributors p) : i = p := by
  rcases Package.mem_contributors.mp hi with ⟨-, rfl⟩ | hi
  · rfl
  · rw [Package.incarnations_of_not_isSplit hs] at hi
    cases hi

namespace Environment

/-- `b` is tainted, and it is the binding or an incarnation of it. -/
def Carries (env : Environment) (p b : PackageId) : Prop :=
  env.tainted b = true ∧ (b = p ∨ b ∈ env.parts p)

/-- `b` is a part of an untainted binding that a module of the split sees at the path. -/
def Within (env : Environment) (c : PackageId) (path : Path) (b : PackageId) : Prop :=
  ∃ d ∈ env.members c, ∃ x,
    env.seen d path = some (.package x) ∧ env.tainted x = false ∧ b ∈ env.parts x

/-- Another module of the split than the one that searches declares `b` at the path. -/
def Beside (env : Environment) (c : PackageId) (m : ModuleId) (path : Path)
    (b : PackageId) : Prop :=
  ∃ d ∈ env.members c, d ≠ m ∧ env.declared d path = .ok (some b)

/-- How a tainted binding gets past a search for the name in the split `c`, whose record is `r`, on
behalf of `m`. -/
inductive Slips (env : Environment) (c : PackageId) (r : Package) (name : String) (m : ModuleId)
    (b : PackageId) : Prop
  | within : env.Within c (.sub r.path name) b → Slips env c r name m b
  | beside : env.Beside c m (.sub r.path name) b → Slips env c r name m b
  /-- The home of the split, which is one of its modules, sees the split itself, and below it a
  tainted binding. -/
  | stored {x : PackageId} : r.home ∈ env.members c → env.seen r.home r.path = some (.package c) →
      env.seen r.home (.sub r.path name) = some (.package x) → env.tainted x = true →
      b = x ∨ b ∈ env.parts x → Slips env c r name m b

structure Skips (env : Environment) (c : PackageId) (r : Package) (name : String) (m : ModuleId)
    (answer : Option PackageId) (ref : Ref) : Prop where
  vain : answer = none → ref = .notFound
  untainted : ∀ q, answer = some q → env.tainted q = false
  found : ∀ q b, answer = some q →
    (env.Carries q b ↔ env.tainted b = true ∧ env.Within c (.sub r.path name) b)
  stored : ∀ p b, ref = .package p → env.Carries p b → env.Slips c r name m b
  returns : ∀ q b, answer = some q → env.tainted b = true → env.valid b = true →
    env.Within c (.sub r.path name) b ∨ env.Beside c m (.sub r.path name) b →
    ∃ p, ref = .package p ∧ env.Carries p b

variable {env after : Environment} {b c child e p q : PackageId} {m k home : ModuleId}
  {r : Package} {path : Path} {name : String} {ref : Ref} {refs : List Ref} {ps : List PackageId}
  {answer : Option PackageId} {config : Config}

/-! ## What bindings are made of -/

/-- Gathering takes parts only, because the split that it makes is not tainted. -/
theorem Gathers.carries (h : env.Gathers home path ps q) (hb : env.Carries q b) :
    ∃ p ∈ ps, b ∈ env.parts p := by
  obtain ⟨r, hr, -, hvalid, -⟩ := h.binds
  have hin : b ∈ env.parts q := by
    rcases hb.2 with rfl | hin
    · have hns : r.isSplit = false := by
        cases hs : r.isSplit with
        | false => rfl
        | true =>
          have ht := hb.1
          rw [tainted_of_package hr, h.untainted hr hs] at ht
          cases ht
      have hpl := Package.isPlain_of_isValid hvalid hns
      rw [parts_of_package hr, Package.contributors_of_isPlain hpl]
      exact List.mem_singleton_self b
    · exact hin
  exact h.mem_parts.mp hin

theorem Merges.carries (h : env.Merges home path refs (.package q)) (hb : env.Carries q b) :
    ∃ p, .package p ∈ refs ∧ env.Carries p b := by
  cases h with
  | worse _ href => exact ⟨q, href, hb⟩
  | one hone => exact ⟨q, (mem_validOf.mp (hone ▸ List.mem_singleton_self q)).1, hb⟩
  | many hmany hg _ =>
    obtain ⟨p, hp, hbp⟩ := hg.carries hb
    exact ⟨p, (mem_validOf.mp (hmany ▸ hp)).1, hb.1, .inr hbp⟩

theorem Combines.carries {previous : Option Ref}
    (h : env.Combines home path e previous (.package p)) (hb : env.Carries p b) :
    env.Carries e b ∨ ∃ prev, previous = some (.package prev) ∧ env.Carries prev b := by
  cases h with
  | fresh => exact .inl hb
  | kept hp _ => exact .inr ⟨p, hp, hb⟩
  | @joined prev _ hp _ _ hg =>
    obtain ⟨p', hp', hbp⟩ := hg.carries hb
    rcases List.mem_cons.mp hp' with rfl | hp'
    · exact .inr ⟨p', hp, hb.1, .inr hbp⟩
    · exact .inl ⟨hb.1, .inr (List.mem_singleton.mp hp' ▸ hbp)⟩

theorem Coherent.eq_of_carries_declared (hc : env.Coherent)
    (hd : env.declared k path = .ok (some p)) (hb : env.Carries p b) : b = p := by
  obtain ⟨r, hr, -, -, hs⟩ := hc.declared hd
  rcases hb.2 with rfl | hin
  · rfl
  · rw [parts_of_package hr] at hin
    exact Package.eq_of_mem_contributors hs hin

theorem Enriched.carries (h : env.Enriched c child m path e) (hc : env.Coherent)
    (hb : env.Carries e b) : env.Carries child b ∨ env.Beside c m path b := by
  obtain ⟨ps, hps, ⟨-, rfl⟩ | ⟨-, _, -, hm⟩⟩ := h
  · exact .inl hb
  · obtain ⟨p, hp, hbp⟩ := hm.carries hb
    obtain ⟨p', hp', e⟩ := List.mem_map.mp hp
    cases e
    rcases List.mem_append.mp hp' with hp' | hp'
    · obtain ⟨d, hd, hne, -, hdecl⟩ := (hps p).mp hp'
      exact .inr ⟨d, hd, hne, hc.eq_of_carries_declared hdecl hbp ▸ hdecl⟩
    · exact .inl (List.mem_singleton.mp hp' ▸ hbp)

theorem Found.mem_parts (h : env.Found c home path q) : b ∈ env.parts q ↔ env.Within c path b := by
  obtain ⟨ps, hps, h⟩ := h
  have hmem : b ∈ env.parts q ↔ ∃ x ∈ ps, b ∈ env.parts x := by
    rcases h with rfl | ⟨-, hg⟩
    · simp
    · exact hg.mem_parts
  rw [hmem]
  constructor
  · rintro ⟨x, hx, hb⟩
    obtain ⟨ht, d, hd, hs⟩ := (hps.2 x).mp hx
    exact ⟨d, hd, x, hs, ht, hb⟩
  · rintro ⟨d, hd, x, hs, ht, hb⟩
    exact ⟨x, (hps.2 x).mpr ⟨ht, d, hd, hs⟩, hb⟩

theorem Found.carries_iff (h : env.Found c home path q) (ht : env.tainted q = false) :
    env.Carries q b ↔ env.tainted b = true ∧ env.Within c path b := by
  rw [← h.mem_parts, Carries]
  refine and_congr_right fun htb => or_iff_right ?_
  rintro rfl
  rw [ht] at htb
  cases htb

/-! ## What a search stores -/

/-- What is stored comes from what was found, from a sibling of it, or from what was there. -/
theorem Combines.slips {previous : Option Ref}
    (hcomb : env.Combines r.home (.sub r.path name) e previous (.package p)) (hc : env.Coherent)
    (hf : env.Found c r.home (.sub r.path name) q) (ht : env.tainted q = false)
    (he : env.Enriched c q m (.sub r.path name) e)
    (hprev : ∀ x, previous = some (.package x) → r.home ∈ env.members c ∧
      env.seen r.home r.path = some (.package c) ∧
        env.seen r.home (.sub r.path name) = some (.package x))
    (hb : env.Carries p b) : env.Slips c r name m b := by
  rcases hcomb.carries hb with hb | ⟨x, hp, hb⟩
  · rcases he.carries hc hb with hb | hb
    · exact .within ((hf.carries_iff ht).mp hb).2
    · exact .beside hb
  · obtain ⟨hhome, habove, hs⟩ := hprev x hp
    by_cases htx : env.tainted x = true
    · exact .stored hhome habove hs htx hb.2
    · rcases hb.2 with rfl | hin
      · exact absurd hb.1 htx
      · exact .within ⟨r.home, hhome, x, hs, by simpa using htx, hin⟩

theorem Combines.returns {previous : Option Ref} (hcomb : env.Combines home path e previous ref)
    (hc : env.Coherent) (hprev : ∀ x, previous = some (.package x) → env.Binds x path)
    (hf : env.Found c home path q) (he : env.Enriched c q m path e) (ht : env.tainted b = true)
    (hv : env.valid b = true) (hb : env.Within c path b ∨ env.Beside c m path b) :
    ∃ p, ref = .package p ∧ env.Carries p b := by
  have hbq := hf.binds hc
  have hbe := he.binds hc hbq
  obtain ⟨k, hd, hk⟩ : ∃ k, env.declared k path = .ok (some b) ∧ k ∈ env.members e := by
    rcases hb with hb | ⟨d, hd, hne, hdecl⟩
    · obtain ⟨rq, hrq, rfl⟩ := id hbq
      obtain ⟨rb, hrb, hpl, hpath, hk⟩ := hc.parts hrq (hf.mem_parts.mpr hb)
      exact ⟨rb.home, hpath ▸ hc.own hrb (Package.isSplit_of_isPlain hpl),
        (he.mem_members hc hbq).mpr (.inl hk)⟩
    · exact ⟨d, hdecl, (he.mem_members hc hbq).mpr (.inr ⟨hd, hne, b, hdecl, hv⟩)⟩
  obtain ⟨p, rfl, hkp⟩ := Environment.mem_sources.mp ((hcomb.mem_sources hc hbe hprev).1 hk)
  obtain ⟨rp, hrp, rfl⟩ := hcomb.binds hbe hprev
  exact ⟨p, rfl, ht, .inr (hc.mem_parts hrp hkp hd)⟩

theorem Registers.later (h : env.Registers c r name m answer after) (hc : env.Coherent)
    (hbc : env.Binds c r.path) (hch : env.Changes after) :
    answer = none ∧ after.entry c name = some .notFound ∨
      ∃ q e ref, answer = some q ∧ after.entry c name = some ref ∧ after.tainted q = false ∧
        after.Found c r.home (.sub r.path name) q ∧ after.Enriched c q m (.sub r.path name) e ∧
        after.Combines r.home (.sub r.path name) e (env.entry c name) ref := by
  obtain ⟨rc, hr, hpath⟩ := hbc
  cases h with
  | missed _ he => exact .inl ⟨rfl, he⟩
  | @found mid _ q e ref hf ht hg he hcomb hk hent =>
    have hmid := hg.coherent hc
    obtain ⟨rm, hrm, -⟩ := hg.keeps.packages hr
    obtain ⟨rq, hrq, -⟩ := hf.binds hc
    have hbq := hg.keeps.binds (hf.binds hc)
    have hprev (prev : PackageId) (hp : env.entry c name = some (.package prev)) :
        mid.Binds prev (.sub r.path name) := hg.keeps.binds (hpath ▸ hc.binds_of_entry hr hp)
    exact .inr ⟨q, e, ref, rfl, hent, (hch.keeps.tainted hrq).trans ht, hf.later hc hch hr,
      he.keeps hmid hk hrm hbq, hk.combines (he.binds hmid hbq) hprev hcomb⟩

theorem Registers.skips (h : env.Registers c r name m answer after) (hc : env.Coherent)
    (hbc : env.Binds c r.path) (hch : env.Changes after)
    (hprev : ∀ ref, env.entry c name = some ref → r.home ∈ env.members c ∧
      env.seen r.home r.path = some (.package c) ∧ env.seen r.home (.sub r.path name) = some ref) :
    ∃ ref, after.entry c name = some ref ∧ after.Skips c r name m answer ref := by
  have hafter := hch.coherent hc
  rcases h.later hc hbc hch with ⟨rfl, he⟩ | ⟨q, e, ref, rfl, hent, ht, hf, he, hcomb⟩
  · exact ⟨.notFound, he, fun _ => rfl, by simp, by simp, by simp, by simp⟩
  · -- what was there before the search registered anything is there as it was seen
    have hprev (x : PackageId) (hx : env.entry c name = some (.package x)) :
        r.home ∈ after.members c ∧ after.seen r.home r.path = some (.package c) ∧
          after.seen r.home (.sub r.path name) = some (.package x) := by
      obtain ⟨hhome, habove, hs⟩ := hprev _ hx
      obtain ⟨rc, hr, -⟩ := hbc
      exact ⟨hch.keeps.members hr ▸ hhome, hch.seen habove, hch.seen hs⟩
    refine ⟨ref, hent, by simp, ?_, ?_, ?_, ?_⟩
    · rintro _ ⟨⟩
      exact ht
    · rintro _ b ⟨⟩
      exact hf.carries_iff ht
    · rintro p b rfl hb
      exact hcomb.slips hafter hf ht he hprev hb
    · rintro _ b ⟨⟩ htb hv hb
      exact hcomb.returns hafter (fun x hx => hafter.seen (hprev x hx).2.2) hf he htb hv hb

/-- In every state that builders and lookups reach, where a split has no entry for a name, a search
for it answers a binding that is not tainted, whose tainted incarnations are those of the untainted
bindings that the modules of the split see. What it stores, and so what is found there next, carries
no tainted binding but what slips past the search. -/
theorem search_skips_tainted
    (h : Environment.empty.Reaches config (fun r => r.builds || r.looks) env)
    (hr : env.package c = .ok r) (hs : r.isSplit = true) (hnone : env.entry c name = none)
    (m : ModuleId) :
    ∃ answer ref after, (Lookup.search c name m).Gives env answer after ∧
      after.entry c name = some ref ∧ (Lookup.child c name m).Gives after ref.package? after ∧
      after.Skips c r name m answer ref := by
  have hc := h.coherent coherent_empty
  obtain ⟨answer, after, hg, mid, hch, hch', hst, hreg⟩ := Lookup.search_registers hc hr hs name m
  obtain ⟨ref, he, hskips⟩ := hreg.skips (hch.coherent hc) (hch.keeps.binds ⟨r, hr, rfl⟩) hch'
    fun ref he => by
      obtain ⟨rm, hrm, e⟩ := hch.keeps.packages hr
      rw [← Package.home_eq_of_bare e, ← Package.path_eq_of_bare e, hch.keeps.members hr]
      refine (hst c rm name ref hrm ((Package.isSplit_eq_of_bare e).trans hs) he).resolve_left ?_
      rw [hnone]
      exact (Option.some_ne_none ref).symm
  obtain ⟨r', hr', e⟩ := (hch.trans hch').keeps.packages hr
  have hs' : r'.isSplit = true := (Package.isSplit_eq_of_bare e).trans hs
  exact ⟨answer, ref, after, hg, he, Lookup.child_known hr' (.inl hs') he, hskips⟩

def foundAndStored (c : PackageId) (name : String) (m : ModuleId) (env : Environment) :
    Option (Option PackageId × Option Ref × List PackageId) :=
  match Lookup.search c name m ⟨env, .empty⟩ with
  | .error _ => none
  | .ok (answer, s) =>
    let stored := s.env.entry c name
    some (answer, stored,
      ((stored.bind Ref.package?).toList.flatMap s.env.parts).filter s.env.tainted)

theorem foundAndStored_of_gives (h : (Lookup.search c name m).Gives env answer after)
    (he : after.entry c name = some ref) : env.foundAndStored c name m =
      some (answer, some ref, (ref.package?.toList.flatMap after.parts).filter after.tainted) := by
  obtain ⟨_, hrun⟩ := h .empty
  simp only [foundAndStored, hrun, he, Option.bind_some]

/-- Two modules share a package that a third one sees as a split. Then each declares a package
below it, and that of the second is tainted. -/
def taintedBelowShared : List Request :=
  [.addModule "a" false, .addModule "b" false, .addModule "c" false,
    .declarePackage ⟨0⟩ (.sub (.top "com") "foo"), .declarePackage ⟨1⟩ (.sub (.top "com") "foo"),
    .addExport ⟨0⟩ (.sub (.top "com") "foo"), .addExport ⟨1⟩ (.sub (.top "com") "foo"),
    .addRead ⟨2⟩ ⟨0⟩, .addRead ⟨2⟩ ⟨1⟩, .view ⟨2⟩ (.sub (.top "com") "foo"),
    .declarePackage ⟨0⟩ (.sub (.sub (.top "com") "foo") "bar"),
    .declarePackage ⟨1⟩ (.sub (.sub (.top "com") "foo") "bar"), .markMissing ⟨7⟩]

theorem search_skips_tainted_ofAsker :
    ∃ env r, Environment.empty.Reaches .standard (fun r => r.builds || r.looks) env ∧
      env.package ⟨5⟩ = .ok r ∧ r.isSplit = true ∧ env.entry ⟨5⟩ "bar" = none ∧
      env.declared ⟨1⟩ (.sub r.path "bar") = .ok (some ⟨7⟩) ∧ env.tainted ⟨7⟩ = true ∧
      env.foundAndStored ⟨5⟩ "bar" ⟨1⟩ = some (some ⟨6⟩, some (.package ⟨6⟩), []) ∧
      ∃ answer ref after, (Lookup.search ⟨5⟩ "bar" ⟨1⟩).Gives env answer after ∧
        after.entry ⟨5⟩ "bar" = some ref ∧
        (Lookup.child ⟨5⟩ "bar" ⟨1⟩).Gives after ref.package? after ∧
        after.Skips ⟨5⟩ r "bar" ⟨1⟩ answer ref := by
  have hrun : (replay .standard (fun r => r.builds || r.looks) taintedBelowShared .empty).any
      (fun env => match env.package ⟨5⟩ with
        | .error _ => false
        | .ok r => r.isSplit && (env.entry ⟨5⟩ "bar" = none &&
          (env.declared ⟨1⟩ (.sub r.path "bar") = .ok (some ⟨7⟩) && (env.tainted ⟨7⟩ &&
            env.foundAndStored ⟨5⟩ "bar" ⟨1⟩ = some (some ⟨6⟩, some (.package ⟨6⟩), []))))) = true := by
    decide +kernel
  obtain ⟨env, henv, hrun⟩ := (Option.any_eq_true _ _).mp hrun
  cases hr : env.package ⟨5⟩ with
  | error _ =>
    rw [hr] at hrun
    cases hrun
  | ok r =>
    simp only [hr, Bool.and_eq_true, decide_eq_true_eq] at hrun
    obtain ⟨hs, hnone, hd, ht, hout⟩ := hrun
    have hreach := reaches_of_replay henv
    exact ⟨env, r, hreach, hr, hs, hnone, hd, ht, hout,
      search_skips_tainted hreach hr hs hnone ⟨1⟩⟩

/-- On behalf of anyone else the search stores the package that it has left out. -/
theorem search_stores_tainted :
    ¬ ∀ {config : Config} {env : Environment} {c : PackageId} {r : Package} {name : String}
      (m : ModuleId), Environment.empty.Reaches config (fun r => r.builds || r.looks) env →
      env.package c = .ok r → r.isSplit = true → env.entry c name = none →
      m.index < env.modules.size →
      ∃ answer ref after, (Lookup.search c name m).Gives env answer after ∧
        after.entry c name = some ref ∧ (∀ q b, answer = some q → ¬ after.Carries q b) ∧
        ∀ p b, ref = .package p → ¬ after.Carries p b := by
  intro h
  have hrun : (replay .standard (fun r => r.builds || r.looks) taintedBelowShared .empty).any
      (fun env => match env.package ⟨5⟩ with
        | .error _ => false
        | .ok r => r.isSplit && (env.entry ⟨5⟩ "bar" = none && (2 < env.modules.size &&
          env.foundAndStored ⟨5⟩ "bar" ⟨2⟩ = some (some ⟨6⟩, some (.package ⟨8⟩), [⟨7⟩])))) = true := by
    decide +kernel
  obtain ⟨env, henv, hrun⟩ := (Option.any_eq_true _ _).mp hrun
  cases hr : env.package ⟨5⟩ with
  | error _ =>
    rw [hr] at hrun
    cases hrun
  | ok r =>
    simp only [hr, Bool.and_eq_true, decide_eq_true_eq] at hrun
    obtain ⟨hs, hnone, hsize, hout⟩ := hrun
    obtain ⟨answer, ref, after, hg, he, -, hclean⟩ :=
      h ⟨2⟩ (reaches_of_replay henv) hr hs hnone hsize
    rw [foundAndStored_of_gives hg he] at hout
    simp only [Option.some.injEq, Prod.mk.injEq] at hout
    obtain ⟨-, rfl, htainted⟩ := hout
    -- the tainted package is a part of what is stored
    have hin := List.mem_singleton_self (⟨7⟩ : PackageId)
    rw [← htainted, List.mem_filter, List.mem_flatMap] at hin
    obtain ⟨⟨p, hp, hpart⟩, ht⟩ := hin
    cases List.mem_singleton.mp hp
    exact hclean ⟨8⟩ ⟨7⟩ rfl ⟨ht, .inr hpart⟩

end Environment

end SplitPackages
