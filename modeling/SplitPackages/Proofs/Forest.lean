import SplitPackages.Proofs.LookupWrites
import SplitPackages.Proofs.Requests

/-!
# Declarations form a forest

The bindings that are not splits are just those that modules declare, each under
its own path and module; a module that declares a path declares all that enclose
it, and its binding there has the one of the next path up as its parent. A type
is known to the plain binding, with a compilation unit, that its record names.

A declaration first declares the enclosing packages, and finds out afterwards
whether it is refused. It is refused only if the path is declared already, and
then all that encloses it is too, so that nothing has been written; and a
binding that knows a type has a compilation unit, so that to give it one again
changes nothing. So a refused declaration leaves the environment as it was.
-/

namespace SplitPackages

open Environment

namespace Environment

/-- What the declarations of all modules have to do with bindings and types. -/
structure Forest (env : Environment) : Prop where
  declared : ∀ {m path p}, env.declared m path = .ok (some p) ↔
    ∃ r, env.package p = .ok r ∧ r.isSplit = false ∧ r.home = m ∧ r.path = path
  enclosing : ∀ {m path}, env.Declares m path →
    ∀ above : Path, above.isPrefixOf path = true → env.Declares m above
  parent : ∀ {p r}, env.package p = .ok r → r.isSplit = false →
    env.Encloses r.home r.path r.parent
  types : ∀ {p r name t}, env.package p = .ok r → r.types.get? name = some t →
    r.isPlain = true ∧ r.hasUnit = true ∧ env.typeRecord t = .ok ⟨name, p, r.home⟩

/-- Every declaration by a module that exists has an answer, and if it is refused the environment
is what it was. -/
structure RefusesWhole (env : Environment) : Prop where
  package : ∀ {m}, m.index < env.modules.size → ∀ path,
    (Update.declarePackage m path).Ensures env fun result after =>
      ∀ e, result = .error e → after = env
  problem : ∀ {m}, m.index < env.modules.size → ∀ path,
    (Update.declareProblem m path).Ensures env fun result after =>
      ∀ e, result = .error e → after = env
  type : ∀ {m}, m.index < env.modules.size → ∀ qualified,
    (Update.declareType m qualified).Ensures env fun result after =>
      ∀ e, result = .error e → after = env

/-- The parent of a binding that a module declares is what the module declares at the next path
up. -/
def Rooted (env : Environment) : Prop :=
  ∀ p r, env.package p = .ok r → r.isSplit = false → env.Encloses r.home r.path r.parent

/-- A binding that knows types has a compilation unit, and knows each type that is recorded for
it. -/
structure Typed (env : Environment) : Prop where
  unit : ∀ {p r name t}, env.package p = .ok r → r.types.get? name = some t → r.hasUnit = true
  known : ∀ {t record}, env.typeRecord t = .ok record →
    ∃ r, env.package record.package = .ok r ∧ r.types.get? record.name = some t

/-- No binding has come to know a type, and none has lost its compilation unit. -/
structure KeepsTypes (env after : Environment) : Prop where
  types : after.types = env.types
  old : ∀ {p r}, env.package p = .ok r → ∃ r', after.package p = .ok r' ∧ r'.types = r.types ∧
    (r.hasUnit = true → r'.hasUnit = true)
  new : ∀ {p r}, after.package p = .ok r → (∃ r0, env.package p = .ok r0) ∨ r.types = .empty

variable {limit : Option Nat} {env mid after : Environment} {p : PackageId} {m : ModuleId}
  {r fresh : Package}
  {record : Module} {path : Path} {parent : Option PackageId}

/-! ## Parents -/

theorem Encloses.later (h : env.Encloses m path parent)
    (hd : ∀ {path p}, env.declared m path = .ok (some p) → after.declared m path = .ok (some p)) :
    after.Encloses m path parent := by
  cases path with
  | top name => exact h
  | sub above name =>
    obtain ⟨p, e, hp⟩ := h
    exact ⟨p, e, hd hp⟩

theorem Raise.rooted (h : env.Raise after) (hr : env.Rooted) : after.Rooted := by
  intro p r hp hs
  refine Encloses.later ?_ fun hd => h.extends.declared hd
  rcases h.package_back hp with ⟨r0, hr0⟩ | ⟨-, -, henc⟩
  · have e := h.advances.record hr0 hp
    rw [e.home, e.path, e.parent]
    exact hr p r0 hr0 (e.isSplit.symm.trans hs)
  · exact henc

theorem Raises.rooted (h : env.Raises after) (hr : env.Rooted) : after.Rooted := by
  induction h with
  | refl => exact hr
  | tail _ hs ih => exact hs.rooted ih

theorem Alters.rooted (h : env.Alters limit after) (hr : env.Rooted) : after.Rooted := by
  intro p r hp hs
  rcases h.package_new hp with ⟨r0, hr0⟩ | ⟨hs', -⟩
  · obtain ⟨r', hr', e⟩ := h.package_old hr0
    cases package_unique hp hr'
    rw [e.home, e.path, e.parent]
    exact (hr p r0 hr0 (e.isSplit.symm.trans hs)).later fun hd => (declared_of_bare h.modules).mpr hd
  · rw [hs] at hs'
    cases hs'

/-! ## Types -/

theorem KeepsTypes.refl (env : Environment) : env.KeepsTypes env :=
  ⟨rfl, fun hp => ⟨_, hp, rfl, id⟩, fun hp => .inl ⟨_, hp⟩⟩

theorem KeepsTypes.trans (h : env.KeepsTypes mid) (h2 : mid.KeepsTypes after) :
    env.KeepsTypes after where
  types := h2.types.trans h.types
  old hp := by
    obtain ⟨r1, hr1, e1, hu1⟩ := h.old hp
    obtain ⟨r2, hr2, e2, hu2⟩ := h2.old hr1
    exact ⟨r2, hr2, e2.trans e1, hu2 ∘ hu1⟩
  new hp := by
    rcases h2.new hp with ⟨r1, hr1⟩ | hempty
    · refine (h.new hr1).imp_right fun hempty => ?_
      obtain ⟨r', hr', e, -⟩ := h2.old hr1
      cases package_unique hp hr'
      exact e.trans hempty
    · exact .inr hempty

theorem KeepsTypes.typed (h : env.KeepsTypes after) (ht : env.Typed) : after.Typed where
  unit {p r name t} hp hget := by
    rcases h.new hp with ⟨r0, hr0⟩ | hempty
    · obtain ⟨r', hr', e, hu⟩ := h.old hr0
      cases package_unique hp hr'
      exact hu (ht.unit hr0 (e ▸ hget))
    · rw [hempty] at hget
      cases hget
  known {t record} hrec := by
    have hrec : env.typeRecord t = .ok record := by
      rw [← hrec]
      simp only [typeRecord, h.types]
    obtain ⟨r, hr, hget⟩ := ht.known hrec
    obtain ⟨r', hr', e, -⟩ := h.old hr
    exact ⟨r', hr', e ▸ hget⟩

theorem keepsTypes_of_packages (hp : after.packages = env.packages)
    (ht : after.types = env.types) : env.KeepsTypes after :=
  ⟨ht, fun h => ⟨_, (package_congr hp _).trans h, rfl, id⟩,
    fun h => .inl ⟨_, (package_congr hp _).symm.trans h⟩⟩

theorem keepsTypes_of_setPackage {f : Package → Package} (hset : env.setPackage p f = .ok after)
    (hr : env.package p = .ok r) (htypes : (f r).types = r.types)
    (hunit : r.hasUnit = true → (f r).hasUnit = true) : env.KeepsTypes after where
  types := types_setPackage hset
  old {q rq} hq := by
    by_cases e : q = p
    · subst e
      cases package_unique hr hq
      exact ⟨_, package_setPackage_self hset hr, htypes, hunit⟩
    · exact ⟨rq, (package_setPackage_ne hset e).trans hq, rfl, id⟩
  new {q rq} hq := by
    have hlt := lt_size_of_package hq
    rw [size_setPackage hset] at hlt
    exact .inl (package_of_lt_size hlt)

theorem Inserts.keepsTypes (h : env.Inserts m record fresh after) : env.KeepsTypes after where
  types := h.types
  old hp := ⟨_, h.package_old hp, rfl, id⟩
  new hp := by
    rcases h.package_back hp with hp | ⟨-, rfl⟩
    · exact .inl ⟨_, hp⟩
    · exact .inr h.untyped

theorem Alters.keepsTypes (h : env.Alters limit after) : env.KeepsTypes after where
  types := h.types
  old hp := by
    obtain ⟨r', hr', e⟩ := h.package_old hp
    exact ⟨r', hr', e.types, e.hasUnit.trans⟩
  new hp := (h.package_new hp).imp_right And.right

/-! ## Refused declarations -/

/-- Only paths above the one to be declared are declared on the way. -/
theorem declareEnclosing_keepsTypes (hm : ∃ record, env.module m = .ok record) :
    ∀ path, (Update.declareEnclosing m path).Ensures env fun _ after => env.KeepsTypes after ∧
      (∃ record, after.module m = .ok record) ∧
      ∀ other : Path, path.length ≤ other.length → after.declared m other = env.declared m other
  | .top _ => Update.Ensures.pure ⟨.refl env, hm, fun _ _ => rfl⟩
  | .sub enclosing name => by
    refine (declareEnclosing_keepsTypes hm enclosing).bind ?_
    rintro parent mid ⟨hk, ⟨record, hrec⟩, hdecl⟩
    have hlt {other : Path} (h : (Path.sub enclosing name).length ≤ other.length) :
        enclosing.length < other.length := h
    refine Update.Ensures.ask (declared_of_module hrec) ?_
    cases hget : record.declared.get? enclosing with
    | some id =>
      exact Update.Ensures.pure ⟨hk, ⟨record, hrec⟩, fun other h => hdecl other (Nat.le_of_lt (hlt h))⟩
    | none =>
      obtain ⟨after, hrun, h⟩ := insertDeclared_inserts hrec hget parent (.inr ⟨false, rfl⟩)
      refine ⟨_, after, Update.bind_ok hrun rfl, hk.trans h.keepsTypes, ⟨_, h.self⟩,
        fun other hle => ?_⟩
      rw [← hdecl other (Nat.le_of_lt (hlt hle)), declared_of_module h.self, declared_of_module hrec]
      refine congrArg Except.ok ?_
      rw [Module.declare, Table.get?_insert, if_neg]
      rintro (rfl : enclosing = other)
      exact absurd (hlt hle) (Nat.lt_irrefl _)

/-- Below a path that is declared already there is nothing to declare. -/
theorem declareEnclosing_of_declares (hg : env.Graph) : ∀ {path : Path}, env.Declares m path →
    ∃ parent, Update.declareEnclosing m path env = .ok (parent, env)
  | .top _, _ => ⟨none, rfl⟩
  | .sub enclosing name, hd => by
    have habove := hg.enclosing hd
    obtain ⟨parent, hrun⟩ := declareEnclosing_of_declares hg habove
    obtain ⟨id, hid⟩ := habove
    exact ⟨some id, Update.bind_ok hrun (Update.bind_ok (Update.ask_ok hid) rfl)⟩

theorem setPackage_same (hr : env.package p = .ok r) {f : Package → Package} (hf : f r = r) :
    env.setPackage p f = .ok env := by
  have hlt := lt_size_of_package hr
  have hget : env.packages[p.index] = r := by
    simpa only [Environment.package, Array.getElem?_eq_getElem hlt, Except.ok.injEq] using hr
  rw [setPackage, if_pos hlt]
  refine congrArg Except.ok (congrArg (Environment.mk env.modules · env.types) ?_)
  refine Array.ext (Array.size_modify ..) fun i _ _ => ?_
  rw [Array.getElem_modify]
  split
  · next e =>
    subst e
    rw [hget, hf]
  · rfl

/-- What declaring a package comes to: it is refused without effect, or gives a binding with a
compilation unit, that knows types only if nothing has changed. -/
def Packaged (env : Environment) : Except GraphError PackageId → Environment → Prop
  | .error _, after => after = env
  | .ok id, after => env.KeepsTypes after ∧ ∃ r, after.package id = .ok r ∧ r.hasUnit = true ∧
      ∀ name t, r.types.get? name = some t → after = env

/-- A plain binding gets a compilation unit, and has one already if it knows a type. -/
theorem giveUnit_packaged (ht : env.Typed) (hr : env.package p = .ok r) (hpl : r.isPlain = true) :
    (Update.setPackage p (·.mapPlain fun plain => { plain with hasUnit := true })).Ensures env
      fun _ after => env.Packaged (.ok p) after := by
  obtain ⟨plain, hk⟩ := Package.kind_of_isPlain hpl
  let f : Package → Package := (·.mapPlain fun plain => { plain with hasUnit := true })
  have hf : f r = { r with kind := .plain { plain with hasUnit := true } } := by
    simp only [f, Package.mapPlain, hk]
  have hunit : (f r).hasUnit = true := by
    simp only [hf, Package.hasUnit, Package.plain?, Option.any_some]
  have htypes : (f r).types = r.types := by rw [hf]
  obtain ⟨after, hset⟩ := setPackage_ok hr f
  refine ⟨(), after, Update.setPackage_ok hset, keepsTypes_of_setPackage hset hr htypes
    fun _ => hunit, f r, package_setPackage_self hset hr, hunit, fun name t hget => ?_⟩
  have hhas : plain.hasUnit = true := by
    simpa only [Package.hasUnit, Package.plain?, hk, Option.any_some] using
      ht.unit hr (htypes ▸ hget)
  have hsame : f r = r := by
    obtain ⟨_, _, _, _, _, _, kind⟩ := r
    obtain ⟨unit, wrappedBy⟩ := plain
    cases hk
    cases hhas
    exact hf
  rw [setPackage_same hr hsame] at hset
  exact (Except.ok.inj hset).symm

theorem declarePackage_packaged (hg : env.Graph) (ht : env.Typed)
    (hm : ∃ record, env.module m = .ok record) (path : Path) :
    (Update.declarePackage m path).Ensures env env.Packaged := by
  obtain ⟨record, hrec⟩ := id hm
  cases hget : record.declared.get? path with
  | some id =>
    have hd : env.declared m path = .ok (some id) := hget ▸ declared_of_module hrec
    obtain ⟨parent, hrun⟩ := declareEnclosing_of_declares hg ⟨id, hd⟩
    obtain ⟨r, hr, -⟩ := hg.declared hd
    refine Update.Ensures.bind (P := fun _ mid => mid = env) ⟨parent, env, hrun, rfl⟩ ?_
    rintro _ _ rfl
    refine Update.Ensures.ask hd (Update.Ensures.ask hr ?_)
    by_cases hpl : r.isPlain = true
    · rw [if_pos hpl]
      exact (giveUnit_packaged ht hr hpl).bind fun _ after h => Update.Ensures.pure h
    · rw [if_neg hpl]
      exact (conflict_spec hm path).bind fun _ after h => Update.Ensures.pure h
  | none =>
    have hd : env.declared m path = .ok none := hget ▸ declared_of_module hrec
    refine (declareEnclosing_keepsTypes hm path).bind ?_
    rintro parent mid ⟨hk, ⟨record', hrec'⟩, hdecl⟩
    have hd' : mid.declared m path = .ok none := (hdecl path (Nat.le_refl _)).trans hd
    have hget' : record'.declared.get? path = none :=
      Except.ok.inj ((declared_of_module hrec').symm.trans hd')
    refine Update.Ensures.ask hd' ?_
    obtain ⟨after, hrun, h⟩ := insertDeclared_inserts hrec' hget' parent (.inr ⟨true, rfl⟩)
    refine ⟨_, after, Update.bind_ok hrun rfl, hk.trans h.keepsTypes, _, h.package_new, rfl, ?_⟩
    intro name t ht
    cases ht

theorem declareProblem_whole (hg : env.Graph) (hm : ∃ record, env.module m = .ok record)
    (path : Path) : (Update.declareProblem m path).Ensures env fun result after =>
      env.KeepsTypes after ∧ ∀ e, result = .error e → after = env := by
  obtain ⟨record, hrec⟩ := id hm
  cases hget : record.declared.get? path with
  | some id =>
    have hd : env.declared m path = .ok (some id) := hget ▸ declared_of_module hrec
    obtain ⟨parent, hrun⟩ := declareEnclosing_of_declares hg ⟨id, hd⟩
    refine Update.Ensures.bind (P := fun _ mid => mid = env) ⟨parent, env, hrun, rfl⟩ ?_
    rintro _ _ rfl
    refine Update.Ensures.ask hd ((conflict_spec hm path).bind ?_)
    rintro _ _ rfl
    exact Update.Ensures.pure ⟨.refl _, fun _ _ => rfl⟩
  | none =>
    have hd : env.declared m path = .ok none := hget ▸ declared_of_module hrec
    refine (declareEnclosing_keepsTypes hm path).bind ?_
    rintro parent mid ⟨hk, ⟨record', hrec'⟩, hdecl⟩
    have hd' : mid.declared m path = .ok none := (hdecl path (Nat.le_refl _)).trans hd
    have hget' : record'.declared.get? path = none :=
      Except.ok.inj ((declared_of_module hrec').symm.trans hd')
    refine Update.Ensures.ask hd' ?_
    obtain ⟨after, hrun, h⟩ := insertDeclared_inserts hrec' hget' parent (.inl rfl)
    exact ⟨_, after, Update.bind_ok hrun rfl, hk.trans h.keepsTypes, fun e he => by cases he⟩

/-- A new type of a binding that has a compilation unit and does not know one of that name. -/
theorem addType_typed {name : String} (ht : env.Typed) (hr : env.package p = .ok r)
    (hunit : r.hasUnit = true) (hnew : r.types.contains name = false) :
    ∃ mid after, Update.addType ⟨name, p, m⟩ env = .ok (⟨env.types.size⟩, mid) ∧
      Update.setPackage p (fun record =>
        { record with types := record.types.insert name ⟨env.types.size⟩ }) mid = .ok ((), after) ∧
      after.Typed := by
  let mid : Environment := { env with types := env.types.push ⟨name, p, m⟩ }
  have hpush : Update.addType ⟨name, p, m⟩ env = .ok (⟨env.types.size⟩, mid) := rfl
  have hmid (q : PackageId) : mid.package q = env.package q := package_congr rfl q
  let f : Package → Package := fun record =>
    { record with types := record.types.insert name ⟨env.types.size⟩ }
  obtain ⟨after, hset⟩ := setPackage_ok ((hmid p).trans hr) f
  have hself : after.package p = .ok (f r) := package_setPackage_self hset ((hmid p).trans hr)
  have hothers {q : PackageId} (hne : q ≠ p) : after.package q = env.package q :=
    (package_setPackage_ne hset hne).trans (hmid q)
  refine ⟨mid, after, hpush, Update.setPackage_ok hset, ?_, ?_⟩
  · intro q rq x t hq hget
    by_cases e : q = p
    · subst e
      cases package_unique hself hq
      exact hunit
    · exact ht.unit ((hothers e).symm.trans hq) hget
  · intro t record hrec
    have hrec : mid.typeRecord t = .ok record := by
      rw [← hrec]
      simp only [typeRecord, types_setPackage hset]
    by_cases et : t.index = env.types.size
    · simp only [typeRecord, mid, Array.getElem?_push, if_pos et, Except.ok.injEq] at hrec
      subst hrec
      refine ⟨f r, hself, ?_⟩
      obtain ⟨i⟩ := t
      cases et
      exact Table.get?_insert_self _ _ _
    · have hold : env.typeRecord t = .ok record := by
        rw [← hrec]
        simp only [typeRecord, mid, Array.getElem?_push, if_neg et]
      obtain ⟨rq, hrq, hget⟩ := ht.known hold
      by_cases e : record.package = p
      · rw [e] at hrq ⊢
        cases package_unique hr hrq
        refine ⟨f r, hself, ?_⟩
        rw [Table.get?_insert, if_neg, hget]
        rintro rfl
        rw [Table.contains, hget] at hnew
        cases hnew
      · exact ⟨rq, (hothers e).trans hrq, hget⟩

theorem declareType_whole (hg : env.Graph) (ht : env.Typed)
    (hm : ∃ record, env.module m = .ok record) (qualified : String) :
    (Update.declareType m qualified).Ensures env fun result after =>
      after.Typed ∧ ∀ e, result = .error e → after = env := by
  unfold Update.declareType
  split
  · exact Update.Ensures.pure ⟨ht, fun _ _ => rfl⟩
  · next path name _ =>
    refine (declarePackage_packaged hg ht hm path).bind fun result mid h => ?_
    cases result with
    | error e =>
      cases h
      exact Update.Ensures.pure ⟨ht, fun _ _ => rfl⟩
    | ok p =>
      obtain ⟨hk, r, hr, hunit, hsame⟩ := h
      refine Update.Ensures.ask hr ?_
      split
      · next hhas =>
        obtain ⟨t, hget⟩ := Option.isSome_iff_exists.mp hhas
        cases hsame name t hget
        obtain ⟨record, hrec⟩ := hm
        exact Update.Ensures.ask (moduleName_of_module hrec) (Update.Ensures.pure ⟨ht, fun _ _ => rfl⟩)
      · next hnew =>
        obtain ⟨typed, after, hadd, hset, h⟩ := addType_typed (m := m) (hk.typed ht) hr hunit
          (by simpa using hnew)
        exact ⟨_, after, Update.bind_ok hadd (Update.bind_ok hset rfl), h, fun e he => by cases he⟩

end Environment

namespace Request

variable {env after : Environment} {r : Request}

/-! ## Every request -/

theorem run_rooted (config : Config) (hn : r.Names env) (ho : env.Graph) (hr : env.Rooted) :
    (r.run config).Allows env fun _ after => after.Rooted := by
  by_cases hb : r.builds = true
  · exact (builds_spec config hb hn ho).allows.mono fun _ _ h => h.1.rooted hr
  · have halters : (r.run config).Alters none := run_alters config (by simpa using hb) (.inr rfl)
    exact fun _ _ _ hrun => (halters _ _ _ (by simp) hrun).rooted hr

/-- What a module reads or exports has nothing to do with types. -/
theorem setModule_typed (ht : env.Typed) {m : ModuleId} (hm : ∃ record, env.module m = .ok record)
    (f : Module → Module) : (Update.setModule m f).Ensures env fun _ after => after.Typed := by
  obtain ⟨record, hrec⟩ := hm
  obtain ⟨after, hset⟩ := Environment.setModule_ok hrec f
  exact ⟨(), after, Update.setModule_ok hset,
    (keepsTypes_of_packages (packages_setModule hset) (types_setModule hset)).typed ht⟩

theorem run_typed (config : Config) (hn : r.Names env) (hg : env.Graph) (ht : env.Typed) :
    (r.run config).Allows env fun _ after => after.Typed := by
  have hupdate {α : Type} {u : Update α} {g : α → Answer}
      (h : u.Ensures env fun _ after => after.Typed) :
      (g <$> Lookup.update u).Allows env fun _ after => after.Typed :=
    Lookup.Allows.map (Lookup.Ensures.update h).allows
  by_cases hb : r.builds = true
  · cases r with
    | addModule name unnamed =>
      let after : Environment := { env with modules := env.modules.push (.fresh name unnamed) }
      have hk : env.KeepsTypes after := keepsTypes_of_packages rfl rfl
      exact hupdate ⟨⟨env.modules.size⟩, after, rfl, hk.typed ht⟩
    | addRead m target => exact hupdate (setModule_typed ht (hn.module (by simp [modules])) _)
    | addTransitiveRead m target =>
      exact hupdate (setModule_typed ht (hn.module (by simp [modules])) _)
    | addExport m path => exact hupdate (setModule_typed ht (hn.module (by simp [modules])) _)
    | declarePackage m path =>
      obtain ⟨result, after, hrun, h⟩ :=
        declarePackage_packaged hg ht (hn.module (m := m) (by simp [modules])) path
      refine hupdate ⟨result, after, hrun, ?_⟩
      cases result with
      | error e => exact (show after = env from h) ▸ ht
      | ok id => exact h.1.typed ht
    | declareProblem m path =>
      obtain ⟨result, after, hrun, h, -⟩ :=
        declareProblem_whole hg (hn.module (m := m) (by simp [modules])) path
      exact hupdate ⟨result, after, hrun, h.typed ht⟩
    | declareType m qualified =>
      obtain ⟨result, after, hrun, h, -⟩ :=
        declareType_whole hg ht (hn.module (m := m) (by simp [modules])) qualified
      exact hupdate ⟨result, after, hrun, h⟩
    | markMissing p =>
      obtain ⟨rp, hrp⟩ := hn.package (p := p) (by simp [packages])
      obtain ⟨after, hset⟩ := Environment.setPackage_ok hrp fun record =>
        { record with missingType := true }
      exact hupdate ⟨(), after, Update.setPackage_ok hset,
        (keepsTypes_of_setPackage hset hrp rfl id).typed ht⟩
    | _ => cases hb
  · have halters : (r.run config).Alters none := run_alters config (by simpa using hb) (.inr rfl)
    exact fun _ _ _ hrun => (halters _ _ _ (by simp) hrun).keepsTypes.typed ht

end Request

namespace Environment

variable {env : Environment} {config : Config} {allowed : Request → Bool}

theorem Reaches.rooted_typed (h : Environment.empty.Reaches config allowed env) :
    env.Rooted ∧ env.Typed := by
  induction h with
  | refl =>
    exact ⟨fun p r hp => (by cases hp), fun hp => (by cases hp), fun ht => (by cases ht)⟩
  | tail hreach _ hn hrun ih =>
    have hg := (hreach.orderly (orderly_empty .free)).graph
    exact ⟨Request.run_rooted config hn hg ih.1 _ _ _ hrun,
      Request.run_typed config hn hg ih.2 _ _ _ hrun⟩

theorem Graph.declares_of_prefix (hg : env.Graph) {m : ModuleId} : ∀ {path : Path},
    env.Declares m path → ∀ above : Path, above.isPrefixOf path = true → env.Declares m above
  | .top name, hd, above, hpre => by
    cases of_decide_eq_true hpre
    exact hd
  | .sub enclosing name, hd, above, hpre => by
    rw [Path.isPrefixOf, Bool.or_eq_true, decide_eq_true_eq] at hpre
    rcases hpre with rfl | hpre
    · exact hd
    · exact hg.declares_of_prefix (hg.enclosing hd) above hpre

theorem Graph.forest (hg : env.Graph) (hr : env.Rooted) (ht : env.Typed) : env.Forest where
  declared {m path p} := by
    constructor
    · intro hd
      obtain ⟨r, hr, hpath, hhome, hs⟩ := hg.declared hd
      exact ⟨r, hr, hs, hhome, hpath⟩
    · rintro ⟨r, hr, hs, rfl, rfl⟩
      exact hg.own hr hs
  enclosing hd := hg.declares_of_prefix hd
  parent hp hs := hr _ _ hp hs
  types hp hget := by
    obtain ⟨hpl, hrec⟩ := hg.types hp hget
    exact ⟨hpl, ht.unit hp hget, hrec⟩

theorem Graph.refusesWhole (hg : env.Graph) (ht : env.Typed) : env.RefusesWhole where
  package hm path := by
    obtain ⟨result, after, hrun, h⟩ :=
      declarePackage_packaged hg ht (module_of_lt_size hm) path
    refine ⟨result, after, hrun, ?_⟩
    rintro e rfl
    exact h
  problem hm path := by
    obtain ⟨result, after, hrun, -, h⟩ := declareProblem_whole hg (module_of_lt_size hm) path
    exact ⟨result, after, hrun, h⟩
  type hm qualified := by
    obtain ⟨result, after, hrun, -, h⟩ := declareType_whole hg ht (module_of_lt_size hm) qualified
    exact ⟨result, after, hrun, h⟩

/-- In every state that requests reach the declarations form a forest, and a declaration that is
refused leaves it as it is. -/
theorem declarations_consistent
    (h : Environment.empty.Reaches config (fun _ => true) env) : env.Forest ∧ env.RefusesWhole := by
  have hg := (h.orderly (orderly_empty .free)).graph
  obtain ⟨hr, ht⟩ := h.rooted_typed
  exact ⟨hg.forest hr ht, hg.refusesWhole ht⟩

/-- A module declares a type, looks at what is above it, and declares a problem beside it. -/
def typedBesideProblem : List Request :=
  [.addModule "a" false, .declareType ⟨0⟩ "com.foo.T", .view ⟨0⟩ (.sub (.top "com") "foo"),
    .declareProblem ⟨0⟩ (.sub (.top "com") "bar")]

/-- The type cannot be declared again, nor can a package in the place of the problem. -/
theorem declarations_consistent_typedBesideProblem :
    ∃ env, Environment.empty.Reaches .standard (fun _ => true) env ∧
      (Update.declareType ⟨0⟩ "com.foo.T" env).toOption =
        some (.error (.duplicateType "a" "com.foo.T"), env) ∧
      (Update.declarePackage ⟨0⟩ (.sub (.top "com") "bar") env).toOption =
        some (.error (.packageConflict "a" "com.bar"), env) ∧ env.Forest ∧ env.RefusesWhole := by
  have hrun : (replay .standard (fun _ => true) typedBesideProblem .empty).any (fun env =>
      (Update.declareType ⟨0⟩ "com.foo.T" env).toOption =
        some (.error (.duplicateType "a" "com.foo.T"), env) ∧
      (Update.declarePackage ⟨0⟩ (.sub (.top "com") "bar") env).toOption =
        some (.error (.packageConflict "a" "com.bar"), env)) = true := by decide +kernel
  obtain ⟨env, henv, hrefused⟩ := (Option.any_eq_true _ _).mp hrun
  have hreach := reaches_of_replay henv
  obtain ⟨htype, hpackage⟩ := of_decide_eq_true hrefused
  exact ⟨env, hreach, htype, hpackage, declarations_consistent hreach⟩

end Environment

end SplitPackages
