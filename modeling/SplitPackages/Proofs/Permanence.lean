import SplitPackages.Proofs.Repetition
import SplitPackages.Proofs.Sessions

/-!
# What no request takes back

Records are never removed, and what they list is only added to. `Accrues` says so
of one step: ties and entries grow, a module reads and exports at least what it
did, and declarations and type records stay. A building step and a write of a
lookup both accrue, so every request does (`Request.run_accrues`).

What has been granted follows. `Retains` says that bindings keep their place,
kind and types, that whoever could read a module or access a binding still can,
and that what a module has seen it goes on seeing. A request retains all that
(`Request.run_retains`), and so does a history (`Reaches.retains`); in particular
a module is given the same answer for a path ever after (`nothing_revoked`).
-/

namespace SplitPackages

/-- Ties are added at the end only, and no entry goes. -/
structure Package.Accrues (r r' : Package) : Prop where
  incarnations : r.incarnations <+: r'.incarnations
  declaring : r.declaring <+: r'.declaring
  wrappedBy : r.wrappedBy <+: r'.wrappedBy
  known : ∀ {name}, name ∈ r.known.keys → name ∈ r'.known.keys

/-- The binding keeps its place, its kind and its types, and accrues ties and entries. -/
structure Package.Retains (r r' : Package) : Prop extends r.Accrues r' where
  path : r'.path = r.path
  parent : r'.parent = r.parent
  home : r'.home = r.home
  isPlain : r'.isPlain = r.isPlain
  isSplit : r'.isSplit = r.isSplit
  types : ∀ {name t}, r.types.get? name = some t → r'.types.get? name = some t

namespace Environment

structure Accrues (env after : Environment) : Prop where
  package : ∀ {p r}, env.package p = .ok r → ∃ r', after.package p = .ok r' ∧ r.Accrues r'
  widens : env.Widens after
  declared : ∀ {m path p}, env.declared m path = .ok (some p) →
    after.declared m path = .ok (some p)
  typeRecord : ∀ {t record}, env.typeRecord t = .ok record → after.typeRecord t = .ok record

structure Retains (env after : Environment) : Prop where
  package : ∀ {p r}, env.package p = .ok r → ∃ r', after.package p = .ok r' ∧ r.Retains r'
  declared : ∀ {m path p}, env.declared m path = .ok (some p) →
    after.declared m path = .ok (some p)
  typeRecord : ∀ {t record}, env.typeRecord t = .ok record → after.typeRecord t = .ok record
  reads : ∀ {m k}, env.Reads m k → after.Reads m k
  accesses : ∀ {m p}, env.Accesses m p → after.Accesses m p
  seen : ∀ {m path ref}, env.seen m path = some ref → after.seen m path = some ref

end Environment

namespace Module

variable {m m' m'' : Module}

theorem Widens.refl (m : Module) : m.Widens m :=
  ⟨rfl, fun _ h => h, fun _ h => h, fun _ h => h⟩

theorem Widens.trans (h : m.Widens m') (h2 : m'.Widens m'') : m.Widens m'' where
  unnamed := h2.unnamed.trans h.unnamed
  exports path hp := h2.exports path (h.exports path hp)
  reads k hk := h2.reads k (h.reads k hk)
  implied k hk := h2.implied k (h.implied k hk)

theorem widens_of_bare (h : m'.bare = m.bare) : m.Widens m' where
  unnamed := unnamed_eq_of_bare h
  exports path hp := by rwa [exports_eq_of_bare h]
  reads k hk := by rwa [reads_eq_of_bare h]
  implied k hk := by rwa [impliedReads, reads_eq_of_bare h]

theorem Widens.exportsPackage (h : m.Widens m') {path : Path}
    (hx : m.exportsPackage path = true) : m'.exportsPackage path = true := by
  simp only [Module.exportsPackage, h.unnamed, Bool.or_eq_true, decide_eq_true_eq] at hx ⊢
  exact hx.imp_right (h.exports path)

end Module

namespace Package

variable {r r' r'' : Package}

theorem Accrues.refl (r : Package) : r.Accrues r :=
  ⟨List.prefix_rfl, List.prefix_rfl, List.prefix_rfl, id⟩

theorem Accrues.trans (h : r.Accrues r') (h2 : r'.Accrues r'') : r.Accrues r'' where
  incarnations := h.incarnations.trans h2.incarnations
  declaring := h.declaring.trans h2.declaring
  wrappedBy := h.wrappedBy.trans h2.wrappedBy
  known hname := h2.known (h.known hname)

theorem Retains.trans (h : r.Retains r') (h2 : r'.Retains r'') : r.Retains r'' where
  toAccrues := h.toAccrues.trans h2.toAccrues
  path := h2.path.trans h.path
  parent := h2.parent.trans h.parent
  home := h2.home.trans h.home
  isPlain := h2.isPlain.trans h.isPlain
  isSplit := h2.isSplit.trans h.isSplit
  types ht := h2.types (h.types ht)

end Package

namespace Environment

variable {limit : Option Nat} {env mid after : Environment} {m k : ModuleId} {p : PackageId}
  {r r' : Package}
  {path : Path} {t : TypeId} {record : TypeRecord}

/-! ## What one step adds -/

theorem Accrues.refl (env : Environment) : env.Accrues env :=
  ⟨fun hp => ⟨_, hp, .refl _⟩, fun _ _ hm => ⟨_, hm, .refl _⟩, id, id⟩

theorem Accrues.trans (h : env.Accrues mid) (h2 : mid.Accrues after) : env.Accrues after where
  package hp := by
    obtain ⟨r1, hr1, e1⟩ := h.package hp
    obtain ⟨r2, hr2, e2⟩ := h2.package hr1
    exact ⟨r2, hr2, e1.trans e2⟩
  widens := by
    intro m record hm
    obtain ⟨record1, hm1, e1⟩ := h.widens m record hm
    obtain ⟨record2, hm2, e2⟩ := h2.widens m record1 hm1
    exact ⟨record2, hm2, e1.trans e2⟩
  declared hd := h2.declared (h.declared hd)
  typeRecord ht := h2.typeRecord (h.typeRecord ht)

theorem typeRecord_congr (h : after.types = env.types) (t : TypeId) :
    after.typeRecord t = env.typeRecord t := by
  simp only [Environment.typeRecord, h]

/-- A record of a type keeps its number as types are added. -/
theorem typeRecord_push (ht : env.typeRecord t = .ok record) (fresh : TypeRecord) :
    ({ env with types := env.types.push fresh } : Environment).typeRecord t = .ok record := by
  unfold Environment.typeRecord at ht ⊢
  cases hget : env.types[t.index]? with
  | none => rw [hget] at ht; cases ht
  | some found =>
    rw [hget] at ht
    have hlt := (Array.getElem?_eq_some_iff.mp hget).1
    simp only [Array.getElem?_push, if_neg (Nat.ne_of_lt hlt), hget]
    exact ht

theorem Raise.accrues (h : env.Raise after) : env.Accrues after where
  package hp := by
    obtain ⟨r', hr', ha, -⟩ := h.package hp
    obtain ⟨r'', hr'', e⟩ := h.extends.package hp
    cases package_unique hr' hr''
    refine ⟨r', hr', ?_, ?_, ?_, fun hname => by rwa [e.known]⟩
    · exact ha.incarnations ▸ List.prefix_rfl
    · exact ha.declaring ▸ List.prefix_rfl
    · exact ha.wrappedBy ▸ List.prefix_rfl
  widens := h.extends.widens
  declared hd := h.extends.declared hd
  typeRecord {t record} ht := by
    cases h with
    | module name unnamed => exact ht
    | type fresh => exact typeRecord_push ht fresh
    | edges _ _ _ _ hset => exact (typeRecord_congr (types_setModule hset) t).trans ht
    | own _ _ _ _ _ hset => exact (typeRecord_congr (types_setPackage hset) t).trans ht
    | insert h _ => exact (typeRecord_congr h.types t).trans ht

theorem Raises.accrues (h : env.Raises after) : env.Accrues after := by
  induction h with
  | refl => exact .refl env
  | tail _ hs ih => exact ih.trans hs.accrues

theorem Alters.accrues (h : env.Alters limit after) : env.Accrues after where
  package hp := by
    obtain ⟨r', hr', e⟩ := h.package_old hp
    exact ⟨r', hr', e.incarnations, e.declaring, e.wrappedBy, e.known⟩
  widens := by
    intro m record hm
    obtain ⟨record', hm', e⟩ := module_of_bare h.modules hm
    exact ⟨record', hm', Module.widens_of_bare e⟩
  declared hd := (declared_of_bare h.modules).mpr hd
  typeRecord ht := (typeRecord_congr h.types _).trans ht

/-! ## What is granted -/

/-- Whoever could access a plain binding still can, wherever its record stays in place. -/
theorem Widens.canAccessOwn (h : env.Widens after) (hc : env.Closed) (hc' : after.Closed)
    (ha : r.Advances r') (hacc : env.canAccessOwn m r = .ok true) :
    after.canAccessOwn m r' = .ok true := by
  rw [canAccessOwn_iff] at hacc ⊢
  rw [ha.isValid, ha.home, ha.path]
  refine hacc.imp_right (.imp_right ?_)
  rintro ⟨hreads, record, hm, hx⟩
  obtain ⟨record', hm', e⟩ := h r.home record hm
  exact ⟨h.reads hc hc' hreads, record', hm', e.exportsPackage hx⟩

/-- A part through which a binding is accessed remains one of its parts. -/
theorem Widens.accesses (h : env.Widens after) (hc : env.Closed) (hc' : after.Closed)
    (ha : env.Advances after) (hacc : env.Accesses m p) : after.Accesses m p := by
  obtain ⟨r, hr⟩ : ∃ r, env.package p = .ok r := by
    unfold Accesses canAccess at hacc
    cases hp : env.package p with
    | error e => rw [hp] at hacc; cases hacc
    | ok r => exact ⟨r, rfl⟩
  obtain ⟨r', hr', -⟩ := ha.package hr
  obtain ⟨i, hi, ri, hri, hown⟩ := (hc.accesses_iff hr).mp hacc
  obtain ⟨ri', hri', e⟩ := ha.package hri
  exact (hc'.accesses_iff hr').mpr ⟨i, ha.parts i hi, ri', hri', h.canAccessOwn hc hc' e hown⟩

/-- A type record names the binding that knows the type; the record stays, so the binding goes on
knowing the type. -/
theorem Accrues.knows (h : env.Accrues after) (hg : env.Graph) (ht : after.Typed)
    (hr : env.package p = .ok r) (hr' : after.package p = .ok r') {name : String}
    (hget : r.types.get? name = some t) : r'.types.get? name = some t := by
  obtain ⟨r'', hr'', hget'⟩ := ht.known (h.typeRecord (hg.types hr hget).2)
  cases package_unique hr' hr''
  exact hget'

theorem Accrues.retains (h : env.Accrues after) (hs : env.Sound) (hs' : after.Sound)
    (ha : env.Advances after) : env.Retains after where
  package hp := by
    obtain ⟨r', hr', hacc⟩ := h.package hp
    have e := ha.record hp hr'
    exact ⟨r', hr', hacc, e.path, e.parent, e.home, e.isPlain, e.isSplit,
      fun hget => h.knows hs.orderly.graph hs'.typed hp hr' hget⟩
  declared := h.declared
  typeRecord := h.typeRecord
  reads := h.widens.reads hs.orderly.closed hs'.orderly.closed
  accesses := h.widens.accesses hs.orderly.closed hs'.orderly.closed ha
  seen := ha.seen

theorem Retains.refl (env : Environment) : env.Retains env :=
  ⟨fun hp => ⟨_, hp, .refl _, rfl, rfl, rfl, rfl, rfl, id⟩, id, id, id, id, id⟩

theorem Retains.trans (h : env.Retains mid) (h2 : mid.Retains after) : env.Retains after where
  package hp := by
    obtain ⟨r1, hr1, e1⟩ := h.package hp
    obtain ⟨r2, hr2, e2⟩ := h2.package hr1
    exact ⟨r2, hr2, e1.trans e2⟩
  declared hd := h2.declared (h.declared hd)
  typeRecord ht := h2.typeRecord (h.typeRecord ht)
  reads hr := h2.reads (h.reads hr)
  accesses ha := h2.accesses (h.accesses ha)
  seen hs := h2.seen (h.seen hs)

end Environment

namespace Request

open Environment

variable {env : Environment} {r : Request}

/-! ## Every request -/

theorem run_accrues (config : Config) (hn : r.Names env) (hg : env.Graph) :
    (r.run config).Allows env fun _ after => env.Accrues after := by
  by_cases hb : r.builds = true
  · exact (builds_spec config hb hn hg).allows.mono fun _ _ h => h.1.accrues
  · have halters : (r.run config).Alters none := run_alters config (by simpa using hb) (.inr rfl)
    exact fun _ _ _ hrun => (halters _ _ _ (by simp) hrun).accrues

/-- A request keeps an environment sound and takes nothing back. -/
theorem run_retains (config : Config) (hn : r.Names env) (hs : env.Sound) :
    (r.run config).Allows env fun _ after => after.Sound ∧ env.Retains after := by
  intro j a s hrun
  have hkept := run_orderly config hn hs.orderly (fun hd => hd.elim) (fun hd => hd.elim) j a s hrun
  have hs' : s.env.Sound :=
    ⟨hkept.1, run_typed config hn hs.orderly.graph hs.typed j a s hrun⟩
  exact ⟨hs', (run_accrues config hn hs.orderly.graph j a s hrun).retains hs hs' hkept.2.1⟩

end Request

namespace Environment

variable {env after : Environment} {config : Config} {allowed : Request → Bool}

theorem Reaches.retains (h : env.Reaches config allowed after) (hs : env.Sound) :
    after.Sound ∧ env.Retains after := by
  induction h with
  | refl => exact ⟨hs, .refl env⟩
  | tail _ _ hn hrun ih =>
    obtain ⟨hs', hr⟩ := ih
    obtain ⟨hs'', hr'⟩ := Request.run_retains config hn hs' _ _ _ hrun
    exact ⟨hs'', hr.trans hr'⟩

/-- Every request that names what exists is answered and takes nothing back, and what a module was
told about a path it is told ever after. -/
theorem nothing_revoked (h : Environment.empty.Reaches config (fun _ => true) env) :
    (∀ (r : Request) (j : Journal), r.Finds env →
      ∃ a s, r.run config ⟨env, j⟩ = .ok (a, s) ∧ env.Retains s.env) ∧
    ∀ (m : ModuleId) (path : Path) (j : Journal) (ref : Ref) (s : State) (later : Environment),
      Lookup.view m path ⟨env, j⟩ = .ok (ref, s) →
      s.env.Reaches config (fun _ => true) later →
      (Lookup.view m path).Gives later ref later := by
  have hs := (h.retains Session.sound_empty).1
  constructor
  · intro r j hf
    obtain ⟨a, s, hrun, -⟩ := Request.run_answers config hf.1 hf.2 hs.orderly j
    exact ⟨a, s, hrun, (Request.run_retains config hf.1 hs j a s hrun).2⟩
  · intro m path j ref s later hview hlater
    have hviews := Lookup.view_views hs.orderly path j ref s hview
    have halters : (Lookup.view m path).Alters none := Lookup.view_alters m path
    have hs1 : s.env.Sound :=
      ⟨hviews.proceeds.orderly, (halters _ _ _ (by simp) hview).keepsTypes.typed hs.typed⟩
    exact Lookup.view_known ((hlater.retains hs1).2.seen hviews.answer)

/-- A module reads another that exports a package. -/
def borrowed : List Request :=
  [.addModule "a" false, .addModule "b" false, .addModule "n" false,
    .declarePackage ⟨0⟩ (.sub (.top "com") "foo"), .declarePackage ⟨1⟩ (.sub (.top "com") "foo"),
    .addExport ⟨0⟩ (.sub (.top "com") "foo"), .addExport ⟨1⟩ (.sub (.top "com") "foo"),
    .addRead ⟨2⟩ ⟨0⟩]

/-- It comes to read a second one, and declares the package itself. -/
def overtaken : List Request := [.addRead ⟨2⟩ ⟨1⟩, .declarePackage ⟨2⟩ (.sub (.top "com") "foo")]

/-- What the module saw before, it goes on seeing in place of its own declaration. -/
theorem nothing_revoked_overtaken : ∃ env ref s later own,
    Environment.empty.Reaches .standard (fun _ => true) env ∧
    Lookup.view ⟨2⟩ (.sub (.top "com") "foo") ⟨env, .empty⟩ = .ok (ref, s) ∧
    s.env.Reaches .standard (fun _ => true) later ∧
    later.declared ⟨2⟩ (.sub (.top "com") "foo") = .ok (some own) ∧ ref ≠ .package own ∧
    (Lookup.view ⟨2⟩ (.sub (.top "com") "foo")).Gives later ref later := by
  have hrun : (replay .standard (fun _ => true) borrowed .empty).any (fun env =>
      (Lookup.view ⟨2⟩ (.sub (.top "com") "foo") ⟨env, .empty⟩).toOption.any fun seen =>
        (replay .standard (fun _ => true) overtaken seen.2.env).any fun later =>
          (later.declared ⟨2⟩ (.sub (.top "com") "foo")).toOption.any fun found =>
            found.any fun own => seen.1 ≠ .package own) = true := by
    decide +kernel
  obtain ⟨env, henv, hrun⟩ := (Option.any_eq_true _ _).mp hrun
  cases hview : Lookup.view ⟨2⟩ (.sub (.top "com") "foo") ⟨env, .empty⟩ with
  | error fault => rw [hview] at hrun; cases hrun
  | ok seen =>
    rw [hview] at hrun
    obtain ⟨_, ⟨⟩, hrun⟩ := (Option.any_eq_true _ _).mp hrun
    obtain ⟨later, hlater, hrun⟩ := (Option.any_eq_true _ _).mp hrun
    cases hdecl : later.declared ⟨2⟩ (.sub (.top "com") "foo") with
    | error fault => rw [hdecl] at hrun; cases hrun
    | ok found =>
      rw [hdecl] at hrun
      obtain ⟨_, ⟨⟩, hrun⟩ := (Option.any_eq_true _ _).mp hrun
      obtain ⟨own, rfl, hne⟩ := (Option.any_eq_true _ _).mp hrun
      have hreach := reaches_of_replay henv
      have hreach' := reaches_of_replay hlater
      exact ⟨env, seen.1, seen.2, later, own, hreach, hview, hreach', hdecl, of_decide_eq_true hne,
        (nothing_revoked hreach).2 ⟨2⟩ _ .empty seen.1 seen.2 later hview hreach'⟩

end Environment

end SplitPackages
