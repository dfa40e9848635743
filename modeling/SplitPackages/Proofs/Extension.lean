import SplitPackages.Declaration
import SplitPackages.Proofs.Outcome
import SplitPackages.Proofs.Reachability
import SplitPackages.Proofs.Storage

/-!
# Building the graph

Builders extend an environment: `Extends env after` says that modules may gain
reads, exports and declarations, that bindings keep their place, their
contributors and what is known below them, and that what is new is neither
looked up yet nor a split. So whatever a module could read, look into or see it
still can. `Clears` says that no binding has become invalid or tainted, which
is so for every builder but the two that are there for it.

`Graph` is the part of coherence that builders are in charge of and lookups
leave alone: it does not depend on what has been looked up. An extension that
keeps it keeps the environment coherent (`Extends.coherent`).
-/

namespace SplitPackages

/-- Whatever could be read or exported still can. -/
structure Module.Widens (m m' : Module) : Prop where
  unnamed : m'.unnamed = m.unnamed
  exports : ∀ path ∈ m.exports, path ∈ m'.exports
  reads : ∀ k ∈ m.reads.keys, k ∈ m'.reads.keys
  implied : ∀ k ∈ m.impliedReads, k ∈ m'.impliedReads

structure Module.Extends (m m' : Module) : Prop where
  visible : m'.visible = m.visible
  unnamed : m'.unnamed = m.unnamed
  exports : ∀ path ∈ m.exports, path ∈ m'.exports
  reads : ∀ k ∈ m.reads.keys, k ∈ m'.reads.keys
  implied : ∀ k ∈ m.impliedReads, k ∈ m'.impliedReads
  declared : ∀ {path p}, m.declared.get? path = some p → m'.declared.get? path = some p

structure Package.Extends (r r' : Package) : Prop where
  path : r'.path = r.path
  home : r'.home = r.home
  known : r'.known = r.known
  split : r'.split? = r.split?
  plain : r'.isPlain = r.isPlain

/-- Valid, and not marked as having a missing type. -/
def Package.isClear (r : Package) : Bool := r.isValid && !r.missingType

namespace Environment

structure Extends (env after : Environment) : Prop where
  module : ∀ {m record}, env.module m = .ok record →
    ∃ record', after.module m = .ok record' ∧ record.Extends record'
  newModule : ∀ {m record}, after.module m = .ok record →
    (∃ record0, env.module m = .ok record0) ∨ record.visible = .empty
  package : ∀ {p r}, env.package p = .ok r → ∃ r', after.package p = .ok r' ∧ r.Extends r'
  newPackage : ∀ {p r}, after.package p = .ok r →
    (∃ r0, env.package p = .ok r0) ∨ r.known = .empty ∧ r.isSplit = false

def Widens (env after : Environment) : Prop :=
  ∀ m record, env.module m = .ok record →
    ∃ record', after.module m = .ok record' ∧ record.Widens record'

/-- What is read, declared and typed exists and fits together. -/
structure Graph (env : Environment) : Prop where
  reads : ∀ {m record k}, env.module m = .ok record → k ∈ record.reads.keys →
    ∃ record', env.module k = .ok record'
  declared : ∀ {m path p}, env.declared m path = .ok (some p) →
    ∃ r, env.package p = .ok r ∧ r.path = path ∧ r.home = m ∧ r.isSplit = false
  own : ∀ {p r}, env.package p = .ok r → r.isSplit = false →
    env.declared r.home r.path = .ok (some p)
  home : ∀ {p r}, env.package p = .ok r → ∃ record, env.module r.home = .ok record
  enclosing : ∀ {m path name}, env.Declares m (.sub path name) → env.Declares m path
  types : ∀ {p r name t}, env.package p = .ok r → r.types.get? name = some t →
    r.isPlain = true ∧ env.typeRecord t = .ok ⟨name, p, r.home⟩

def Clears (env after : Environment) : Prop :=
  ∀ p r, after.package p = .ok r → r.isClear = false →
    ∃ r0, env.package p = .ok r0 ∧ r0.isClear = false

end Environment

theorem Module.Extends.refl (m : Module) : m.Extends m :=
  ⟨rfl, rfl, fun _ h => h, fun _ h => h, fun _ h => h, fun h => h⟩

theorem Package.Extends.refl (r : Package) : r.Extends r := ⟨rfl, rfl, rfl, rfl, rfl⟩

namespace Package

variable {r r' : Package}

theorem Extends.isSplit (h : r.Extends r') : r'.isSplit = r.isSplit := by
  simp only [Package.isSplit, h.split]

theorem Extends.declaring (h : r.Extends r') : r'.declaring = r.declaring := by
  have hs := h.split
  have hp := h.plain
  have hh := h.home
  obtain ⟨_, _, _, _, _, _, kind⟩ := r
  obtain ⟨_, _, _, _, _, _, kind'⟩ := r'
  cases kind <;> cases kind' <;> simp_all [split?, isPlain, plain?, Package.declaring]

theorem Extends.incarnations (h : r.Extends r') : r'.incarnations = r.incarnations := by
  have hs := h.split
  obtain ⟨_, _, _, _, _, _, kind⟩ := r
  obtain ⟨_, _, _, _, _, _, kind'⟩ := r'
  cases kind <;> cases kind' <;> simp_all [split?, Package.incarnations]

theorem Extends.kind (h : r.Extends r') {s : Split} : r'.kind = .split s ↔ r.kind = .split s := by
  have hs := h.split
  obtain ⟨_, _, _, _, _, _, kind⟩ := r
  obtain ⟨_, _, _, _, _, _, kind'⟩ := r'
  cases kind <;> cases kind' <;> simp_all [split?]

end Package

namespace Environment

variable {env mid after : Environment} {p q : PackageId} {m k : ModuleId} {r : Package}
  {record : Module} {path : Path} {name : String}

theorem Extends.refl (env : Environment) : env.Extends env :=
  ⟨fun h => ⟨_, h, .refl _⟩, fun h => .inl ⟨_, h⟩, fun h => ⟨_, h, .refl _⟩, fun h => .inl ⟨_, h⟩⟩

theorem Clears.refl (env : Environment) : env.Clears env := fun _ _ h hc => ⟨_, h, hc⟩

theorem Extends.trans (h : env.Extends mid) (h2 : mid.Extends after) : env.Extends after where
  module hm := by
    obtain ⟨r1, hr1, e1⟩ := h.module hm
    obtain ⟨r2, hr2, e2⟩ := h2.module hr1
    refine ⟨r2, hr2, e2.visible.trans e1.visible, e2.unnamed.trans e1.unnamed, ?_, ?_, ?_, ?_⟩
    · exact fun path hp => e2.exports path (e1.exports path hp)
    · exact fun k hk => e2.reads k (e1.reads k hk)
    · exact fun k hk => e2.implied k (e1.implied k hk)
    · exact fun hd => e2.declared (e1.declared hd)
  newModule {m record} hm := by
    rcases h2.newModule hm with ⟨r1, hr1⟩ | hv
    · rcases h.newModule hr1 with ho | hv
      · exact .inl ho
      · obtain ⟨r2, hr2, e2⟩ := h2.module hr1
        rw [hm] at hr2
        cases hr2
        exact .inr (e2.visible.trans hv)
    · exact .inr hv
  package hp := by
    obtain ⟨r1, hr1, e1⟩ := h.package hp
    obtain ⟨r2, hr2, e2⟩ := h2.package hr1
    exact ⟨r2, hr2, e2.path.trans e1.path, e2.home.trans e1.home, e2.known.trans e1.known,
      e2.split.trans e1.split, e2.plain.trans e1.plain⟩
  newPackage {p r} hp := by
    rcases h2.newPackage hp with ⟨r1, hr1⟩ | hn
    · rcases h.newPackage hr1 with ho | hn
      · exact .inl ho
      · obtain ⟨r2, hr2, e2⟩ := h2.package hr1
        rw [hp] at hr2
        cases hr2
        exact .inr ⟨e2.known.trans hn.1, e2.isSplit.trans hn.2⟩
    · exact .inr hn

theorem Clears.trans (h : env.Clears mid) (h2 : mid.Clears after) : env.Clears after := by
  intro p r hp hc
  obtain ⟨r1, hr1, hc1⟩ := h2 p r hp hc
  exact h p r1 hr1 hc1

/-! ## What stays -/

theorem Extends.declared (h : env.Extends after) (hd : env.declared m path = .ok (some p)) :
    after.declared m path = .ok (some p) := by
  obtain ⟨record, hm, hd⟩ := module_of_declared hd
  obtain ⟨record', hm', e⟩ := h.module hm
  rw [declared_of_module hm', e.declared hd]

theorem Extends.declares (h : env.Extends after) (hd : env.Declares m path) :
    after.Declares m path := by
  obtain ⟨p, hd⟩ := hd
  exact ⟨p, h.declared hd⟩

theorem Extends.binds (h : env.Extends after) (hb : env.Binds p path) : after.Binds p path := by
  obtain ⟨r, hr, hpath⟩ := hb
  obtain ⟨r', hr', e⟩ := h.package hr
  exact ⟨r', hr', e.path.trans hpath⟩

theorem Extends.exposes (h : env.Extends after) (hx : env.Exposes k path) : after.Exposes k path := by
  obtain ⟨record, hr, hx⟩ := hx
  obtain ⟨record', hr', e⟩ := h.module hr
  refine ⟨record', hr', ?_⟩
  simp only [Module.exposes, e.unnamed, Bool.or_eq_true, List.any_eq_true] at hx ⊢
  refine hx.imp_right ?_
  rintro ⟨x, hxe, hp⟩
  exact ⟨x, e.exports x hxe, hp⟩

theorem Widens.implies (h : env.Widens after) (hi : env.Implies m k) : after.Implies m k := by
  induction hi with
  | refl m => exact .refl m
  | step hr hk _ ih =>
    obtain ⟨record', hr', e⟩ := h _ _ hr
    exact .step hr' (e.implied _ hk) ih

/-- More reads never take away what a module can read. -/
theorem Widens.reads (h : env.Widens after) (hc : env.Closed) (hc' : after.Closed)
    (hr : env.Reads m k) : after.Reads m k := by
  by_cases hmk : m = k
  · subst hmk
    unfold Reads Environment.canRead
    rw [if_pos rfl]
    rfl
  · obtain ⟨record, hrec⟩ := hr.module hmk
    obtain ⟨record', hrec', e⟩ := h m record hrec
    rw [hc.reads_iff hrec] at hr
    rw [hc'.reads_iff hrec']
    rcases hr with hr | hr | ⟨d, hd, hi⟩
    · exact .inl hr
    · exact .inr (.inl (e.unnamed.trans hr))
    · exact .inr (.inr ⟨d, e.reads d hd, h.implies hi⟩)

theorem Extends.widens (h : env.Extends after) : env.Widens after := by
  intro m record hm
  obtain ⟨record', hm', e⟩ := h.module hm
  exact ⟨record', hm', e.unnamed, e.exports, e.reads, e.implied⟩

theorem Extends.reads (h : env.Extends after) (hc : env.Closed) (hc' : after.Closed)
    (hr : env.Reads m k) : after.Reads m k :=
  h.widens.reads hc hc' hr

theorem Extends.seen (h : env.Extends after) (m : ModuleId) (path : Path) :
    after.seen m path = env.seen m path := by
  cases hm : env.module m with
  | ok record =>
    obtain ⟨record', hm', e⟩ := h.module hm
    rw [seen_of_module hm', seen_of_module hm, e.visible]
  | error _ =>
    have hnone : env.seen m path = none := by simp only [Environment.seen, hm]
    rw [hnone]
    cases hm' : after.module m with
    | error _ => simp only [Environment.seen, hm']
    | ok record' =>
      rcases h.newModule hm' with ⟨record, hr⟩ | hv
      · rw [hm] at hr
        cases hr
      · rw [seen_of_module hm', hv]
        rfl

theorem Extends.entry (h : env.Extends after) (p : PackageId) (x : String) :
    after.entry p x = env.entry p x := by
  cases hp : env.package p with
  | ok r =>
    obtain ⟨r', hr', e⟩ := h.package hp
    rw [entry_of_package hr', entry_of_package hp, e.known]
  | error _ =>
    have hnone : env.entry p x = none := by simp only [Environment.entry, hp]
    rw [hnone]
    cases hp' : after.package p with
    | error _ => simp only [Environment.entry, hp']
    | ok r' =>
      rcases h.newPackage hp' with ⟨r, hr⟩ | hn
      · rw [hp] at hr
        cases hr
      · rw [entry_of_package hp', hn.1]
        rfl

theorem Extends.package_split (h : env.Extends after) (hp : after.package p = .ok r)
    (hs : r.isSplit = true) : ∃ r0, env.package p = .ok r0 ∧ r0.Extends r := by
  rcases h.newPackage hp with ⟨r0, hr0⟩ | hn
  · obtain ⟨r', hr', e⟩ := h.package hr0
    cases package_unique hp hr'
    exact ⟨r0, hr0, e⟩
  · rw [hn.2] at hs
    cases hs

theorem Coherent.graph (hc : env.Coherent) : env.Graph where
  reads := hc.reads
  declared := hc.declared
  own := hc.own
  home := hc.home
  enclosing := hc.enclosing
  types := hc.types

/-- An extension keeps the part of coherence that is not about the graph. -/
theorem Extends.coherent (h : env.Extends after) (hc : env.Coherent) (hg : after.Graph) :
    after.Coherent where
  reads := hg.reads
  declared := hg.declared
  own := hg.own
  home := hg.home
  enclosing := hg.enclosing
  types := hg.types
  split {p r s} hp hk := by
    obtain ⟨r0, hr0, e⟩ := h.package_split hp (Package.isSplit_of_kind hk)
    have hs := hc.split hr0 (e.kind.mp hk)
    refine ⟨?_, fun k => ?_⟩
    · intro i hi
      obtain ⟨ri, hri, hpl, hpath⟩ := hs.plain hi
      obtain ⟨ri', hri', ei⟩ := h.package hri
      exact ⟨ri', hri', ei.plain.trans hpl, ei.path.trans (hpath.trans e.path.symm)⟩
    · rw [hs.declaring]
      constructor
      · rintro ⟨i, hi, ri, hri, hk⟩
        obtain ⟨ri', hri', ei⟩ := h.package hri
        exact ⟨i, hi, ri', hri', ei.home.trans hk⟩
      · rintro ⟨i, hi, ri', hri', hk⟩
        obtain ⟨ri, hri, -⟩ := hs.plain hi
        obtain ⟨ri'', hri'', ei⟩ := h.package hri
        rw [hri'] at hri''
        cases hri''
        exact ⟨i, hi, ri, hri, ei.home.symm.trans hk⟩
  entry {p r name q} hp he := by
    rcases h.newPackage hp with ⟨r0, hr0⟩ | hn
    · obtain ⟨r', hr', e⟩ := h.package hr0
      cases package_unique hp hr'
      rw [e.known] at he
      rw [e.path]
      exact h.binds (hc.entry hr0 he)
    · rw [hn.1] at he
      cases he
  memo {p r s name entries q} hp hk he := by
    obtain ⟨r0, hr0, e⟩ := h.package_split hp (Package.isSplit_of_kind hk)
    rw [e.path]
    exact h.binds (hc.memo hr0 (e.kind.mp hk) he)
  seen hs := by
    rw [h.seen] at hs
    exact h.binds (hc.seen hs)

/-- Without new declarations and bindings only reads and types are left to look at. -/
theorem Extends.graph (h : env.Extends after) (hg : env.Graph)
    (declared : ∀ {m path p}, after.declared m path = .ok (some p) →
      env.declared m path = .ok (some p))
    (package : ∀ {p r}, after.package p = .ok r → ∃ r0, env.package p = .ok r0)
    (reads : ∀ {m record k}, after.module m = .ok record → k ∈ record.reads.keys →
      ∃ record', env.module k = .ok record')
    (types : ∀ {p r name t}, after.package p = .ok r → r.types.get? name = some t →
      r.isPlain = true ∧ after.typeRecord t = .ok ⟨name, p, r.home⟩) : after.Graph := by
  have hback {p : PackageId} {r : Package} (hp : after.package p = .ok r) :
      ∃ r0, env.package p = .ok r0 ∧ r0.Extends r := by
    obtain ⟨r0, hr0⟩ := package hp
    obtain ⟨r', hr', e⟩ := h.package hr0
    cases package_unique hp hr'
    exact ⟨r0, hr0, e⟩
  refine ⟨?_, ?_, ?_, ?_, ?_, types⟩
  · intro m record k hm hk
    obtain ⟨record', hr⟩ := reads hm hk
    obtain ⟨record'', hr', -⟩ := h.module hr
    exact ⟨record'', hr'⟩
  · intro m path p hd
    obtain ⟨r, hr, hpath, hhome, hs⟩ := hg.declared (declared hd)
    obtain ⟨r', hr', e⟩ := h.package hr
    exact ⟨r', hr', e.path.trans hpath, e.home.trans hhome, e.isSplit.trans hs⟩
  · intro p r hp hs
    obtain ⟨r0, hr0, e⟩ := hback hp
    rw [e.home, e.path]
    exact h.declared (hg.own hr0 (e.isSplit.symm.trans hs))
  · intro p r hp
    obtain ⟨r0, hr0, e⟩ := hback hp
    obtain ⟨record, hr⟩ := hg.home hr0
    obtain ⟨record', hr', -⟩ := h.module hr
    exact ⟨record', e.home ▸ hr'⟩
  · rintro m path name ⟨p, hd⟩
    exact h.declares (hg.enclosing ⟨p, declared hd⟩)

end Environment

end SplitPackages
