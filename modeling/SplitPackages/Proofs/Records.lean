import SplitPackages.Lookup
import SplitPackages.Readability

/-!
# What an environment holds

`entry` is what is stored below a binding under a name, and `seen` what a
module's view holds at a path. `parts` are the plain bindings that contribute
to a binding, and `members` their modules. All four are total: a record that
was never created holds nothing.

`bare` forgets what lookups fill in: entries, memos, views and wrappers.
`Keeps env after` says that nothing else has changed, so that questions about
bare records have the same answers in both.
-/

namespace SplitPackages

/-! ## Bare records -/

/-- A kind without the splits around a plain binding. -/
def Kind.unwrapped : Kind → Kind
  | plain p => plain { p with wrappedBy := .empty }
  | split s => split s
  | problem => problem

def Kind.bare : Kind → Kind
  | plain p => plain { p with wrappedBy := .empty }
  | split s => split { s with relaxed := .empty }
  | problem => problem

def Package.unwrapped (r : Package) : Package := { r with kind := r.kind.unwrapped }

def Package.bare (r : Package) : Package := { r with known := .empty, kind := r.kind.bare }

def Module.bare (m : Module) : Module := { m with visible := .empty }

namespace Package

variable {r r' : Package}

theorem bare_unwrapped (r : Package) : r.unwrapped.bare = r.bare := by
  obtain ⟨_, _, _, _, _, _, kind⟩ := r
  cases kind <;> rfl

theorem bare_eq_of_unwrapped (h : r'.unwrapped = r.unwrapped) : r'.bare = r.bare := by
  rw [← bare_unwrapped r', h, bare_unwrapped]

@[simp] theorem unwrapped_mapPlain (r : Package) (w : Plain → OrderedSet PackageId) :
    (r.mapPlain fun p => { p with wrappedBy := w p }).unwrapped = r.unwrapped := by
  obtain ⟨_, _, _, _, _, _, kind⟩ := r
  cases kind <;> rfl

theorem path_eq_of_bare (h : r'.bare = r.bare) : r'.path = r.path :=
  show r'.bare.path = r.bare.path from h ▸ rfl

theorem home_eq_of_bare (h : r'.bare = r.bare) : r'.home = r.home :=
  show r'.bare.home = r.bare.home from h ▸ rfl

theorem types_eq_of_bare (h : r'.bare = r.bare) : r'.types = r.types :=
  show r'.bare.types = r.bare.types from h ▸ rfl

theorem missingType_eq_of_bare (h : r'.bare = r.bare) : r'.missingType = r.missingType :=
  show r'.bare.missingType = r.bare.missingType from h ▸ rfl

theorem kind_eq_of_bare (h : r'.bare = r.bare) : r'.kind.bare = r.kind.bare :=
  show r'.bare.kind = r.bare.kind from h ▸ rfl

theorem known_eq_of_unwrapped (h : r'.unwrapped = r.unwrapped) : r'.known = r.known :=
  show r'.unwrapped.known = r.unwrapped.known from h ▸ rfl

theorem kind_eq_of_unwrapped (h : r'.unwrapped = r.unwrapped) :
    r'.kind.unwrapped = r.kind.unwrapped :=
  show r'.unwrapped.kind = r.unwrapped.kind from h ▸ rfl

theorem split?_eq_of_unwrapped (h : r'.unwrapped = r.unwrapped) : r'.split? = r.split? := by
  have h := kind_eq_of_unwrapped h
  unfold split?
  cases hk : r.kind <;> cases hk' : r'.kind <;> simp_all [Kind.unwrapped]

theorem eq_of_unwrapped (h : r'.unwrapped = r.unwrapped) (hs : r.isSplit = true) : r' = r := by
  obtain ⟨_, _, _, _, _, _, kind⟩ := r
  obtain ⟨_, _, _, _, _, _, kind'⟩ := r'
  cases kind <;> cases kind' <;>
    simp_all [unwrapped, Kind.unwrapped, isSplit, split?]

/-- What a record is and who contributes can be read off the bare record. -/
theorem isSplit_bare (r : Package) : r.bare.isSplit = r.isSplit := by
  obtain ⟨_, _, _, _, _, _, kind⟩ := r
  cases kind <;> rfl

theorem isPlain_bare (r : Package) : r.bare.isPlain = r.isPlain := by
  obtain ⟨_, _, _, _, _, _, kind⟩ := r
  cases kind <;> rfl

theorem isValid_bare (r : Package) : r.bare.isValid = r.isValid := by
  obtain ⟨_, _, _, _, _, _, kind⟩ := r
  cases kind <;> rfl

theorem declaring_bare (r : Package) : r.bare.declaring = r.declaring := by
  obtain ⟨_, _, _, _, _, _, kind⟩ := r
  cases kind <;> rfl

theorem incarnations_bare (r : Package) : r.bare.incarnations = r.incarnations := by
  obtain ⟨_, _, _, _, _, _, kind⟩ := r
  cases kind <;> rfl

theorem contributors_bare (id : PackageId) (r : Package) :
    r.bare.contributors id = r.contributors id := by
  obtain ⟨_, _, _, _, _, _, kind⟩ := r
  cases kind <;> rfl

theorem isSplit_eq_of_bare (h : r'.bare = r.bare) : r'.isSplit = r.isSplit := by
  rw [← isSplit_bare, h, isSplit_bare]

theorem isPlain_eq_of_bare (h : r'.bare = r.bare) : r'.isPlain = r.isPlain := by
  rw [← isPlain_bare, h, isPlain_bare]

theorem isValid_eq_of_bare (h : r'.bare = r.bare) : r'.isValid = r.isValid := by
  rw [← isValid_bare, h, isValid_bare]

theorem declaring_eq_of_bare (h : r'.bare = r.bare) : r'.declaring = r.declaring := by
  rw [← declaring_bare, h, declaring_bare]

theorem incarnations_eq_of_bare (h : r'.bare = r.bare) : r'.incarnations = r.incarnations := by
  rw [← incarnations_bare, h, incarnations_bare]

theorem contributors_eq_of_bare {id : PackageId} (h : r'.bare = r.bare) :
    r'.contributors id = r.contributors id := by
  rw [← contributors_bare, h, contributors_bare]

/-! ## Kinds -/

theorem kind_of_isSplit (h : r.isSplit = true) : ∃ s, r.kind = .split s := by
  unfold isSplit split? at h
  cases hk : r.kind <;> simp_all

theorem kind_of_split? {s : Split} (h : r.split? = some s) : r.kind = .split s := by
  unfold split? at h
  cases hk : r.kind <;> simp_all

theorem kind_of_isPlain (h : r.isPlain = true) : ∃ p, r.kind = .plain p := by
  unfold isPlain plain? at h
  cases hk : r.kind <;> simp_all

theorem isSplit_of_kind {s : Split} (h : r.kind = .split s) : r.isSplit = true := by
  simp [isSplit, split?, h]

theorem split?_of_not_isSplit (h : r.isSplit = false) : r.split? = none := by
  unfold isSplit at h
  cases hs : r.split? with
  | none => rfl
  | some s =>
    rw [hs] at h
    cases h

theorem isPlain_of_kind {p : Plain} (h : r.kind = .plain p) : r.isPlain = true := by
  simp [isPlain, plain?, h]

theorem isSplit_of_isPlain (h : r.isPlain = true) : r.isSplit = false := by
  obtain ⟨p, h⟩ := kind_of_isPlain h
  simp [isSplit, split?, h]

theorem isValid_of_isPlain (h : r.isPlain = true) : r.isValid = true := by
  obtain ⟨p, h⟩ := kind_of_isPlain h
  simp [isValid, h]

theorem isValid_of_isSplit (h : r.isSplit = true) : r.isValid = true := by
  obtain ⟨p, h⟩ := kind_of_isSplit h
  simp [isValid, h]

theorem isPlain_of_isValid (h : r.isValid = true) (hs : r.isSplit = false) : r.isPlain = true := by
  unfold isValid at h
  unfold isSplit split? at hs
  unfold isPlain plain?
  cases hk : r.kind <;> simp_all

theorem declaring_of_isPlain (h : r.isPlain = true) : r.declaring = [r.home] := by
  obtain ⟨p, h⟩ := kind_of_isPlain h
  simp [declaring, h]

theorem contributors_of_isPlain {id : PackageId} (h : r.isPlain = true) :
    r.contributors id = [id] := by
  obtain ⟨p, h⟩ := kind_of_isPlain h
  simp [contributors, h]

theorem mem_contributors {i p : PackageId} :
    i ∈ r.contributors p ↔ r.isPlain = true ∧ i = p ∨ i ∈ r.incarnations := by
  unfold contributors isPlain plain? incarnations
  cases r.kind <;> simp

theorem declaring_of_not_isValid (h : r.isValid = false) : r.declaring = [] := by
  unfold isValid at h
  unfold declaring
  cases hk : r.kind <;> simp_all

end Package

namespace Module

variable {m m' : Module}

theorem unnamed_eq_of_bare (h : m'.bare = m.bare) : m'.unnamed = m.unnamed :=
  show m'.bare.unnamed = m.bare.unnamed from h ▸ rfl

theorem reads_eq_of_bare (h : m'.bare = m.bare) : m'.reads = m.reads :=
  show m'.bare.reads = m.bare.reads from h ▸ rfl

theorem exports_eq_of_bare (h : m'.bare = m.bare) : m'.exports = m.exports :=
  show m'.bare.exports = m.bare.exports from h ▸ rfl

theorem declared_eq_of_bare (h : m'.bare = m.bare) : m'.declared = m.declared :=
  show m'.bare.declared = m.bare.declared from h ▸ rfl

theorem exposes_eq_of_bare (h : m'.bare = m.bare) (path : Path) :
    m'.exposes path = m.exposes path := by
  simp only [exposes, unnamed_eq_of_bare h, exports_eq_of_bare h]

theorem exportsPackage_eq_of_bare (h : m'.bare = m.bare) (path : Path) :
    m'.exportsPackage path = m.exportsPackage path := by
  simp only [exportsPackage, unnamed_eq_of_bare h, exports_eq_of_bare h]

end Module

/-! ## Views of an environment -/

namespace Environment

/-- What is stored below a binding under a name. -/
def entry (env : Environment) (p : PackageId) (name : String) : Option Ref :=
  match env.package p with
  | .ok r => r.known.get? name
  | .error _ => none

/-- What a module's view holds at a path. -/
def seen (env : Environment) (m : ModuleId) (path : Path) : Option Ref :=
  match env.module m with
  | .ok record => record.visible.get? path
  | .error _ => none

/-- The modules that contribute to a binding. -/
def members (env : Environment) (p : PackageId) : List ModuleId :=
  match env.package p with
  | .ok r => r.declaring
  | .error _ => []

/-- The plain bindings that make up a binding. -/
def parts (env : Environment) (p : PackageId) : List PackageId :=
  match env.package p with
  | .ok r => r.contributors p
  | .error _ => []

/-- Whether a reference is to a valid binding. -/
def valid (env : Environment) (p : PackageId) : Bool :=
  match env.package p with
  | .ok r => r.isValid
  | .error _ => false

variable {env mid after : Environment} {p q : PackageId} {m k : ModuleId} {r r' : Package}
  {path : Path} {name : String}

theorem entry_of_package (h : env.package p = .ok r) : env.entry p name = r.known.get? name := by
  simp only [entry, h]

theorem seen_of_module {record : Module} (h : env.module m = .ok record) :
    env.seen m path = record.visible.get? path := by
  simp only [seen, h]

theorem members_of_package (h : env.package p = .ok r) : env.members p = r.declaring := by
  simp only [members, h]

theorem parts_of_package (h : env.package p = .ok r) : env.parts p = r.contributors p := by
  simp only [parts, h]

/-- A record with the same bare contents has the modules and the parts of the binding. -/
theorem declaring_of_bare (h : env.package p = .ok r) (e : r'.bare = r.bare) :
    r'.declaring = env.members p := by
  rw [members_of_package h, Package.declaring_eq_of_bare e]

theorem contributors_of_bare (h : env.package p = .ok r) (e : r'.bare = r.bare) :
    r'.contributors p = env.parts p := by
  rw [parts_of_package h, Package.contributors_eq_of_bare e]

theorem valid_of_package (h : env.package p = .ok r) : env.valid p = r.isValid := by
  simp only [valid, h]

theorem declared_of_module {record : Module} (h : env.module m = .ok record) :
    env.declared m path = .ok (record.declared.get? path) := by
  simp only [declared, h]; rfl

theorem moduleName_of_module {record : Module} (h : env.module m = .ok record) :
    env.moduleName m = .ok record.name := by
  simp only [moduleName, h]; rfl

theorem package_of_entry {ref : Ref} (h : env.entry p name = some ref) :
    ∃ r, env.package p = .ok r ∧ r.known.get? name = some ref := by
  unfold entry at h
  split at h
  · next r hr => exact ⟨r, hr, h⟩
  · cases h

theorem package_of_mem_members (h : k ∈ env.members p) :
    ∃ r, env.package p = .ok r ∧ k ∈ r.declaring := by
  unfold members at h
  split at h
  · next r hr => exact ⟨r, hr, h⟩
  · cases h

theorem module_of_declared {id : Option PackageId} (h : env.declared m path = .ok id) :
    ∃ record, env.module m = .ok record ∧ record.declared.get? path = id := by
  unfold declared at h
  cases hm : env.module m with
  | error e => rw [hm] at h; cases h
  | ok record => rw [hm] at h; cases h; exact ⟨record, rfl, rfl⟩

theorem package_of_toOption (h : (env.package p).toOption = some r) : env.package p = .ok r := by
  cases hp : env.package p with
  | ok r' => rw [hp] at h; cases h; rfl
  | error e => rw [hp] at h; cases h

theorem package_unique (h : env.package p = .ok r) (h' : env.package p = .ok r') : r = r' := by
  rw [h] at h'
  cases h'
  rfl

/-! ## Effects of the elementary changes -/

theorem module_congr (h : after.modules = env.modules) (m : ModuleId) :
    after.module m = env.module m := by
  simp only [module, h]

theorem package_congr (h : after.packages = env.packages) (p : PackageId) :
    after.package p = env.package p := by
  simp only [package, h]

theorem lt_size_of_package (h : env.package p = .ok r) : p.index < env.packages.size := by
  unfold package at h
  split at h
  · next r' hr => exact (Array.getElem?_eq_some_iff.mp hr).1
  · cases h

theorem mem_packages_of_package (h : env.package p = .ok r) : r ∈ env.packages := by
  unfold package at h
  split at h
  · next r' hr =>
    cases h
    exact Array.mem_of_getElem? hr
  · cases h

theorem lt_size_of_module {record : Module} (h : env.module m = .ok record) :
    m.index < env.modules.size := by
  unfold module at h
  split at h
  · next r' hr => exact (Array.getElem?_eq_some_iff.mp hr).1
  · cases h

theorem module_of_lt_size (h : m.index < env.modules.size) : ∃ record, env.module m = .ok record := by
  refine ⟨env.modules[m.index], ?_⟩
  simp only [module, Array.getElem?_eq_getElem h]

theorem package_of_lt_size (h : p.index < env.packages.size) :
    ∃ record, env.package p = .ok record := by
  refine ⟨env.packages[p.index], ?_⟩
  simp only [package, Array.getElem?_eq_getElem h]

theorem exists_package_iff : (∃ r, env.package p = .ok r) ↔ p.index < env.packages.size :=
  ⟨fun ⟨_, hr⟩ => lt_size_of_package hr, package_of_lt_size⟩

/-- Where the same bindings can be read, there are as many. -/
theorem size_packages_eq
    (h : ∀ p, (∃ r, after.package p = .ok r) ↔ ∃ r, env.package p = .ok r) :
    after.packages.size = env.packages.size := by
  have hlt (n : Nat) : n < after.packages.size ↔ n < env.packages.size :=
    exists_package_iff.symm.trans ((h ⟨n⟩).trans exists_package_iff)
  have henv := hlt env.packages.size
  have hafter := hlt after.packages.size
  omega

theorem typeRecord_of_lt_size {t : TypeId} (h : t.index < env.types.size) :
    ∃ record, env.typeRecord t = .ok record := by
  refine ⟨env.types[t.index], ?_⟩
  simp only [typeRecord, Array.getElem?_eq_getElem h]

theorem setPackage_ok (h : env.package p = .ok r) (f : Package → Package) :
    ∃ after, env.setPackage p f = .ok after := by
  unfold setPackage
  rw [if_pos (lt_size_of_package h)]
  exact ⟨_, rfl⟩

theorem setModule_ok {record : Module} (h : env.module m = .ok record) (f : Module → Module) :
    ∃ after, env.setModule m f = .ok after := by
  unfold setModule
  rw [if_pos (lt_size_of_module h)]
  exact ⟨_, rfl⟩

theorem modules_setPackage {f : Package → Package} (h : env.setPackage p f = .ok after) :
    after.modules = env.modules := by
  unfold setPackage at h
  split at h <;> cases h
  rfl

theorem types_setPackage {f : Package → Package} (h : env.setPackage p f = .ok after) :
    after.types = env.types := by
  unfold setPackage at h
  split at h <;> cases h
  rfl

theorem packages_setModule {f : Module → Module} (h : env.setModule m f = .ok after) :
    after.packages = env.packages := by
  unfold setModule at h
  split at h <;> cases h
  rfl

theorem types_setModule {f : Module → Module} (h : env.setModule m f = .ok after) :
    after.types = env.types := by
  unfold setModule at h
  split at h <;> cases h
  rfl

theorem size_setModule {f : Module → Module} (h : env.setModule m f = .ok after) :
    after.modules.size = env.modules.size := by
  unfold setModule at h
  split at h <;> cases h
  simp

theorem size_setPackage {f : Package → Package} (h : env.setPackage p f = .ok after) :
    after.packages.size = env.packages.size := by
  unfold setPackage at h
  split at h <;> cases h
  simp

/-- A binding after one was added: the new one under the next number, the others as before. -/
theorem package_push (env : Environment) (r : Package) (p : PackageId) :
    ({ env with packages := env.packages.push r } : Environment).package p =
      if p.index = env.packages.size then .ok r else env.package p := by
  simp only [package, Array.getElem?_push]
  by_cases h : p.index = env.packages.size
  · rw [if_pos h, if_pos h]
  · rw [if_neg h, if_neg h]

theorem package_setPackage_self {f : Package → Package} (h : env.setPackage p f = .ok after)
    (hr : env.package p = .ok r) : after.package p = .ok (f r) := by
  rw [package_setPackage h, if_pos rfl, hr]; rfl

theorem package_setPackage_ne {f : Package → Package} (h : env.setPackage p f = .ok after)
    (hq : q ≠ p) : after.package q = env.package q := by
  rw [package_setPackage h, if_neg hq]

theorem module_setModule_self {f : Module → Module} (h : env.setModule m f = .ok after)
    {record : Module} (hr : env.module m = .ok record) : after.module m = .ok (f record) := by
  rw [module_setModule h, if_pos rfl, hr]; rfl

theorem module_setModule_ne {f : Module → Module} (h : env.setModule m f = .ok after)
    (hk : k ≠ m) : after.module k = env.module k := by
  rw [module_setModule h, if_neg hk]

end Environment

end SplitPackages
