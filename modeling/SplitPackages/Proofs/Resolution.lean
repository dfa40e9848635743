import SplitPackages.Proofs.Searches
import SplitPackages.Resolution

/-!
# What resolving does

`Resolved` records how a path is resolved, segment by segment. `TypeAnswer`
says what the type lookup of a resolved package answers in terms of the parts
of the package that have the type and of whether the module can access them;
`typeOf_spec` is the one place where the fold over the incarnations is opened.
-/

namespace SplitPackages

namespace Environment

inductive Resolved (env : Environment) (m : ModuleId) :
    Path → Environment → Option PackageId → Prop
  | top {name : String} {after : Environment} {ref : Ref} : env.Changes after →
      after.seen m (.top name) = some ref → Resolved env m (.top name) after ref.package?
  | lost {path : Path} {name : String} {after : Environment} : Resolved env m path after none →
      Resolved env m (.sub path name) after none
  | child {path : Path} {name : String} {mid after : Environment} {c : PackageId} {r : Package}
      {answer : Option PackageId} : Resolved env m path mid (some c) → mid.package c = .ok r →
      mid.Changes after → ChildAnswer mid c r name m after answer →
      Resolved env m (.sub path name) after answer

variable {env mid after : Environment} {c p q i : PackageId} {m k : ModuleId} {r : Package}
  {path : Path} {name : String} {t : TypeId}

theorem Resolved.changes {answer : Option PackageId} (h : env.Resolved m path after answer) :
    env.Changes after := by
  induction h with
  | top h _ => exact h
  | lost _ ih => exact ih
  | child _ _ h _ ih => exact ih.trans h

theorem package?_eq_some {ref : Ref} : ref.package? = some p ↔ ref = .package p := by
  cases ref <;> simp [Ref.package?]

theorem ChildAnswer.binds (hc : env.Coherent) (hr : env.package c = .ok r)
    (hch : env.Changes after) (h : ChildAnswer env c r name m after (some q)) :
    after.Binds q (.sub r.path name) := by
  have hafter := hch.coherent hc
  generalize ho : some q = answer at h
  cases h with
  | problem => cases ho
  | stored _ he =>
    obtain ⟨r', hr', e⟩ := hch.keeps.packages hr
    rw [← Package.path_eq_of_bare e]
    exact hafter.binds_of_entry hr' (package?_eq_some.mp ho.symm ▸ he)
  | seen _ hs => exact hafter.seen (package?_eq_some.mp ho.symm ▸ hs)
  | searched _ h1 h2 h =>
    subst ho
    rcases h with ⟨e, -⟩ | ⟨q', e, hf⟩
    · cases e
    · cases e
      exact h2.keeps.binds (hf.binds (h1.coherent hc))

theorem Resolved.binds (hc : env.Coherent) (h : env.Resolved m path after (some q)) :
    after.Binds q path := by
  generalize ho : some q = answer at h
  induction h generalizing q with
  | top h hs => exact (h.coherent hc).seen (package?_eq_some.mp ho.symm ▸ hs)
  | lost => cases ho
  | child h1 hr h2 h3 ih =>
    obtain ⟨r', hr', hpath⟩ := ih rfl
    cases package_unique hr hr'
    rw [← hpath]
    exact (ho ▸ h3).binds (h1.changes.coherent hc) hr h2

/-! ## Access -/

def Accesses (env : Environment) (m : ModuleId) (p : PackageId) : Prop :=
  env.canAccess m p = .ok true

def HasType (env : Environment) (p : PackageId) (name : String) (t : TypeId) : Prop :=
  env.typeIn p name = .ok (some t)

theorem hasType_of_package (hr : env.package p = .ok r) :
    env.HasType p name t ↔ r.types.get? name = some t := by
  simp only [HasType, typeIn, hr, Functor.map, Except.map, Except.ok.injEq]

theorem Closed.canAccessOwn_ok (hc : env.Closed) (hm : ∃ record, env.module m = .ok record)
    (hr : env.package p = .ok r) : ∃ b, env.canAccessOwn m r = .ok b := by
  obtain ⟨record, hm⟩ := hm
  obtain ⟨b, hb⟩ := hc.canRead_ok hm r.home
  obtain ⟨record', hm'⟩ := hc.home hr
  simp only [canAccessOwn, hb, hm', bind, Except.bind]
  split
  · exact ⟨_, rfl⟩
  split
  · exact ⟨_, rfl⟩
  split <;> exact ⟨_, rfl⟩

theorem Closed.canAccessAny_ok (hc : env.Closed) (hm : ∃ record, env.module m = .ok record) :
    ∀ ps : List PackageId, (∀ p ∈ ps, ∃ r, env.package p = .ok r) →
      ∃ b, env.canAccessAny m ps = .ok b
  | [], _ => ⟨false, rfl⟩
  | p :: ps, h => by
    obtain ⟨r, hr⟩ := h p List.mem_cons_self
    obtain ⟨b, hb⟩ := hc.canAccessOwn_ok hm hr
    obtain ⟨b', hb'⟩ := hc.canAccessAny_ok hm ps fun q hq => h q (List.mem_cons_of_mem _ hq)
    simp only [canAccessAny, hr, hb, bind, Except.bind]
    cases b
    · exact ⟨b', hb'⟩
    · exact ⟨true, rfl⟩

theorem Closed.canAccess_ok (hc : env.Closed) (hm : ∃ record, env.module m = .ok record)
    (hr : env.package p = .ok r) : ∃ b, env.canAccess m p = .ok b := by
  simp only [canAccess, hr, bind, Except.bind]
  cases hk : r.kind with
  | plain plain => exact hc.canAccessOwn_ok hm hr
  | problem => exact hc.canAccessOwn_ok hm hr
  | split s =>
    refine hc.canAccessAny_ok hm _ fun i hi => hc.incarnations hr (i := i) ?_
    simpa only [Package.incarnations, hk] using hi

/-- A binding that is not a split can be accessed by its home, and by the readers of its home if it
is exported; a problem by nobody. -/
theorem canAccessOwn_iff : env.canAccessOwn m r = .ok true ↔ r.isValid = true ∧
    (r.home = m ∨ env.Reads m r.home ∧
      ∃ record, env.module r.home = .ok record ∧ record.exportsPackage r.path = true) := by
  unfold canAccessOwn Reads
  by_cases hv : r.isValid = true
  · by_cases hhome : r.home = m
    · simp [hv, hhome, pure, Except.pure]
    · simp only [hv, Bool.not_true, Bool.false_eq_true, hhome, if_false, false_or, true_and]
      cases hread : env.canRead m r.home with
      | error e => simp [bind, Except.bind]
      | ok b =>
        cases b with
        | false => simp [bind, Except.bind, pure, Except.pure]
        | true =>
          simp only [bind, Except.bind, if_true, true_and]
          cases hmod : env.module r.home with
          | error e => simp
          | ok record => simp [pure, Except.pure]
  · simp [hv, pure, Except.pure]

theorem accesses_plain (hr : env.package p = .ok r) (hpl : r.isPlain = true) :
    env.Accesses m p ↔ r.home = m ∨ env.Reads m r.home ∧
      ∃ record, env.module r.home = .ok record ∧ record.exportsPackage r.path = true := by
  obtain ⟨plain, hk⟩ := Package.kind_of_isPlain hpl
  have hown : env.canAccess m p = env.canAccessOwn m r := by
    simp only [canAccess, hr, bind, Except.bind, hk]
  rw [Accesses, hown, canAccessOwn_iff, and_iff_right (Package.isValid_of_isPlain hpl)]

theorem exists_of_canAccessAny : ∀ {ps : List PackageId}, env.canAccessAny m ps = .ok true →
    ∃ i ∈ ps, ∃ ri, env.package i = .ok ri ∧ env.canAccessOwn m ri = .ok true
  | [], h => by cases h
  | p :: ps, h => by
    unfold canAccessAny at h
    cases hr : env.package p with
    | error e => rw [hr] at h; cases h
    | ok r =>
      rw [hr] at h
      simp only [bind, Except.bind] at h
      cases hown : env.canAccessOwn m r with
      | error e => rw [hown] at h; cases h
      | ok b =>
        cases b with
        | true => exact ⟨p, List.mem_cons_self, r, hr, hown⟩
        | false =>
          rw [hown] at h
          obtain ⟨i, hi, hacc⟩ := exists_of_canAccessAny h
          exact ⟨i, List.mem_cons_of_mem _ hi, hacc⟩

theorem Closed.canAccessAny_of_mem (hc : env.Closed) (hm : ∃ record, env.module m = .ok record)
    {ri : Package} (hri : env.package i = .ok ri) (hown : env.canAccessOwn m ri = .ok true) :
    ∀ {ps : List PackageId}, (∀ p ∈ ps, ∃ r, env.package p = .ok r) → i ∈ ps →
      env.canAccessAny m ps = .ok true
  | p :: ps, hps, hi => by
    obtain ⟨r, hr⟩ := hps p List.mem_cons_self
    obtain ⟨b, hb⟩ := hc.canAccessOwn_ok hm hr
    simp only [canAccessAny, hr, hb, bind, Except.bind]
    cases b with
    | true => rfl
    | false =>
      rcases List.mem_cons.mp hi with rfl | hi
      · rw [package_unique hr hri, hown] at hb
        cases hb
      · exact hc.canAccessAny_of_mem hm hri hown (fun q hq => hps q (List.mem_cons_of_mem _ hq)) hi

theorem Closed.module_of_canAccessOwn (hc : env.Closed) (hr : env.package p = .ok r)
    (h : env.canAccessOwn m r = .ok true) : ∃ record, env.module m = .ok record := by
  by_cases hhome : m = r.home
  · exact hhome ▸ hc.home hr
  · rcases (canAccessOwn_iff.mp h).2 with e | ⟨hreads, -⟩
    · exact absurd e.symm hhome
    · exact Reads.module hreads hhome

theorem Closed.accesses_iff (hc : env.Closed) (hr : env.package p = .ok r) :
    env.Accesses m p ↔
      ∃ i ∈ env.parts p, ∃ ri, env.package i = .ok ri ∧ env.canAccessOwn m ri = .ok true := by
  rw [Accesses, parts_of_package hr]
  cases hk : r.kind with
  | plain plain =>
    have hacc : env.canAccess m p = env.canAccessOwn m r := by
      simp only [canAccess, hr, bind, Except.bind, hk]
    rw [hacc, Package.contributors_of_isPlain (Package.isPlain_of_kind hk)]
    constructor
    · exact fun h => ⟨p, List.mem_singleton_self p, r, hr, h⟩
    · rintro ⟨i, hi, ri, hri, h⟩
      cases List.mem_singleton.mp hi
      exact package_unique hr hri ▸ h
  | problem =>
    have hacc : env.canAccess m p = env.canAccessOwn m r := by
      simp only [canAccess, hr, bind, Except.bind, hk]
    rw [hacc]
    constructor
    · intro h
      have hv := (canAccessOwn_iff.mp h).1
      simp [Package.isValid, hk] at hv
    · rintro ⟨i, hi, -⟩
      simp [Package.contributors, hk] at hi
  | split s =>
    have hacc : env.canAccess m p = env.canAccessAny m s.incarnations.toList := by
      simp only [canAccess, hr, bind, Except.bind, hk]
    have hparts : r.contributors p = r.incarnations := by
      simp only [Package.contributors, Package.incarnations, hk]
    have hincs : r.incarnations = s.incarnations.toList := by
      simp only [Package.incarnations, hk]
    rw [hacc, hparts, hincs]
    constructor
    · exact exists_of_canAccessAny
    · rintro ⟨i, hi, ri, hri, h⟩
      refine hc.canAccessAny_of_mem (hc.module_of_canAccessOwn hri h) hri h (fun q hq => ?_) hi
      exact hc.incarnations hr (hincs ▸ hq)

/-- What the type lookup of the package `p` answers. -/
inductive TypeAnswer (env : Environment) (m : ModuleId) (p : PackageId) (name : String) :
    TypeResolution → Prop
  | found {i : PackageId} {t : TypeId} : i ∈ env.parts p → env.HasType i name t →
      env.Accesses m i →
      (∀ j ∈ env.parts p, ∀ u, env.HasType j name u → env.Accesses m j → j = i) →
      TypeAnswer env m p name (.found t)
  | ambiguous {i j : PackageId} {t u : TypeId} : i ∈ env.parts p → j ∈ env.parts p → i ≠ j →
      env.HasType i name t → env.HasType j name u → env.Accesses m i → env.Accesses m j →
      TypeAnswer env m p name (.failed (.ambiguous t u))
  | hidden {i : PackageId} {t : TypeId} : i ∈ env.parts p → env.HasType i name t →
      (∀ j ∈ env.parts p, ∀ u, env.HasType j name u → env.canAccess m j = .ok false) →
      TypeAnswer env m p name (.failed (.notAccessible t))
  | missing : (∀ i ∈ env.parts p, ∀ t, ¬ env.HasType i name t) →
      TypeAnswer env m p name (.noSuchType p)

/-- What is known of the types when the bindings `done` have been gone through. -/
def Kept (env : Environment) (m : ModuleId) (name : String) (done : List PackageId) :
    Option (TypeId × Bool) → Prop
  | none => ∀ i ∈ done, ∀ t, ¬ env.HasType i name t
  | some (t, true) => ∃ i ∈ done, env.HasType i name t ∧ env.Accesses m i ∧
      ∀ j ∈ done, ∀ u, env.HasType j name u → env.Accesses m j → j = i
  | some (t, false) => (∃ i ∈ done, env.HasType i name t) ∧
      ∀ j ∈ done, ∀ u, env.HasType j name u → env.canAccess m j = .ok false

/-- The outcome for the bindings `ps`, before it is told as an answer. -/
inductive Picked (env : Environment) (m : ModuleId) (name : String) (ps : List PackageId) :
    Except TypeError (Option TypeId) → Prop
  | kept {kept : Option (TypeId × Bool)} : env.Kept m name ps kept →
      Picked env m name ps (match kept with
        | none => .ok none
        | some (t, true) => .ok (some t)
        | some (t, false) => .error (.notAccessible t))
  | ambiguous {i j : PackageId} {t u : TypeId} : i ∈ ps → j ∈ ps → i ≠ j →
      env.HasType i name t → env.HasType j name u → env.Accesses m i → env.Accesses m j →
      Picked env m name ps (.error (.ambiguous t u))

/-- A binding without the type changes nothing. -/
theorem Kept.skip {done : List PackageId} {kept : Option (TypeId × Bool)}
    (hk : env.Kept m name done kept) (hno : ∀ u, ¬ env.HasType p name u) :
    env.Kept m name (done ++ [p]) kept := by
  have hold {j : PackageId} {u : TypeId} (hj : j ∈ done ++ [p]) (hu : env.HasType j name u) :
      j ∈ done := by
    rcases List.mem_append.mp hj with hj | hj
    · exact hj
    · rw [List.mem_singleton.mp hj] at hu
      exact absurd hu (hno u)
  rcases kept with _ | ⟨t, _ | _⟩
  · exact fun j hj u hu => hk j (hold hj hu) u hu
  · obtain ⟨⟨i, hi, ht⟩, hall⟩ := hk
    exact ⟨⟨i, List.mem_append_left _ hi, ht⟩, fun j hj u hu => hall j (hold hj hu) u hu⟩
  · obtain ⟨i, hi, ht, ha, hone⟩ := hk
    exact ⟨i, List.mem_append_left _ hi, ht, ha, fun j hj u hu => hone j (hold hj hu) u hu⟩

/-- As long as nothing accessible has been met, the next type is kept. -/
theorem kept_next {done : List PackageId} {b : Bool} (ht : env.HasType p name t)
    (hb : env.canAccess m p = .ok b)
    (hno : ∀ j ∈ done, ∀ u, env.HasType j name u → env.canAccess m j = .ok false) :
    env.Kept m name (done ++ [p]) (some (t, b)) := by
  have hin : p ∈ done ++ [p] := List.mem_append_right _ List.mem_cons_self
  cases b with
  | true =>
    refine ⟨p, hin, ht, hb, fun j hj u hu hacc => ?_⟩
    rcases List.mem_append.mp hj with hj | hj
    · rw [Accesses, hno j hj u hu] at hacc
      cases hacc
    · exact List.mem_singleton.mp hj
  | false =>
    refine ⟨⟨p, hin, ht⟩, fun j hj u hu => ?_⟩
    rcases List.mem_append.mp hj with hj | hj
    · exact hno j hj u hu
    · rw [List.mem_singleton.mp hj]
      exact hb

/-- A type that is not accessible leaves the accessible one in place. -/
theorem Kept.hidden {done : List PackageId} (hk : env.Kept m name done (some (t, true)))
    (hb : env.canAccess m p = .ok false) : env.Kept m name (done ++ [p]) (some (t, true)) := by
  obtain ⟨i, hi, ht, ha, hone⟩ := hk
  refine ⟨i, List.mem_append_left _ hi, ht, ha, fun j hj u hu hacc => ?_⟩
  rcases List.mem_append.mp hj with hj | hj
  · exact hone j hj u hu hacc
  · rw [List.mem_singleton.mp hj, Accesses, hb] at hacc
    cases hacc

/-- The fold over the incarnations keeps what it is supposed to keep. -/
theorem Closed.typeAmong_ok (hc : env.Closed) (hm : ∃ record, env.module m = .ok record)
    (name : String) : ∀ (ps done : List PackageId) (kept : Option (TypeId × Bool)),
      (∀ p ∈ ps, ∃ r, env.package p = .ok r) → (done ++ ps).Nodup → env.Kept m name done kept →
      ∃ o, env.typeAmong m name kept ps = .ok o ∧ env.Picked m name (done ++ ps) o
  | [], done, kept, _, _, hk => by
    rw [List.append_nil]
    rcases kept with _ | ⟨t, _ | _⟩ <;> exact ⟨_, rfl, .kept hk⟩
  | p :: ps, done, kept, hall, hnd, hk => by
    obtain ⟨r, hr⟩ := hall p List.mem_cons_self
    have hnext (kept' : Option (TypeId × Bool)) (hk' : env.Kept m name (done ++ [p]) kept') :
        ∃ o, env.typeAmong m name kept' ps = .ok o ∧ env.Picked m name (done ++ p :: ps) o := by
      have := hc.typeAmong_ok hm name ps (done ++ [p]) kept'
        (fun q hq => hall q (List.mem_cons_of_mem _ hq)) (by simpa using hnd) hk'
      simpa using this
    have htype : env.typeIn p name = .ok (r.types.get? name) := by
      simp only [typeIn, hr]; rfl
    unfold typeAmong
    simp only [htype, bind, Except.bind]
    cases hget : r.types.get? name with
    | none =>
      refine hnext kept (hk.skip fun u => ?_)
      rw [hasType_of_package hr, hget]
      exact (Option.some_ne_none u).symm
    | some t =>
      have ht : env.HasType p name t := (hasType_of_package hr).mpr hget
      obtain ⟨b, hb⟩ := hc.canAccess_ok hm hr
      simp only [hb]
      rcases kept with _ | ⟨t', _ | _⟩
      · exact hnext _ (kept_next ht hb fun j hj u hu => absurd hu (hk j hj u))
      · exact hnext _ (kept_next ht hb hk.2)
      · cases b with
        | true =>
          obtain ⟨i, hi, ht', ha, -⟩ := hk
          refine ⟨_, rfl, .ambiguous (List.mem_append_left _ hi)
            (List.mem_append_right _ List.mem_cons_self) ?_ ht' ht ha hb⟩
          rintro rfl
          exact (List.nodup_append.mp hnd).2.2 i hi i List.mem_cons_self rfl
        | false => exact hnext _ (Kept.hidden hk hb)

end Environment

namespace Lookup

open Environment

variable {env mid after : Environment} {c p q : PackageId} {m k : ModuleId} {r : Package}
  {path : Path} {name : String}

theorem resolve_spec (hc : env.Coherent) (hm : ∃ record, env.module m = .ok record) :
    ∀ path, (resolve m path).Ensures env fun answer after => env.Resolved m path after answer
  | .top name => by
    refine (view_spec hc hm (.top name)).bind ?_
    rintro ref after ⟨hch, -, hs⟩
    refine Ensures.pure ?_
    exact .top hch hs
  | .sub path name => by
    refine (resolve_spec hc hm path).bind fun answer mid h => ?_
    cases answer with
    | none => exact Ensures.pure (.lost h)
    | some c =>
      have hmid := h.changes.coherent hc
      obtain ⟨r, hr, -⟩ := h.binds hc
      refine (child_spec hmid hr (h.changes.keeps.module_ok hm) name).mono ?_
      rintro answer after ⟨hch, ha, -⟩
      exact .child h hr hch ha

theorem typeOf_split (hc : env.Coherent) (hm : ∃ record, env.module m = .ok record)
    (hr : env.package p = .ok r) {s : Split} (hk : r.kind = .split s) (name : String) :
    (typeOf m p name).Ensures env fun answer after => after = env ∧
      env.TypeAnswer m p name answer := by
  have hs : r.isSplit = true := Package.isSplit_of_kind hk
  have hinc : r.incarnations = s.incarnations.toList := by simp only [Package.incarnations, hk]
  have hparts : env.parts p = s.incarnations.toList := by
    rw [parts_of_package hr]
    simp only [Package.contributors, hk]
  have halloc : ∀ i ∈ s.incarnations.toList, ∃ ri, env.package i = .ok ri := by
    intro i hi
    obtain ⟨ri, hri, -⟩ := (hc.split hr hk).plain hi
    exact ⟨ri, hri⟩
  obtain ⟨o, ho, hpick⟩ := hc.closed.typeAmong_ok hm name s.incarnations.toList [] none halloc
    s.incarnations.nodup fun i hi => by cases hi
  have hfor : env.typeFor p name m = .ok o := by
    simp only [typeFor, hr, bind, Except.bind, hs, if_true, hinc, ho]
  rw [List.nil_append, ← hparts] at hpick
  refine Ensures.step (Gives.ask hfor) ?_
  cases hpick with
  | ambiguous hi hj hne ht hu ha hb =>
    exact Ensures.pure ⟨rfl, .ambiguous hi hj hne ht hu ha hb⟩
  | @kept kept hk =>
    rcases kept with _ | ⟨t, _ | _⟩
    · exact Ensures.pure ⟨rfl, .missing hk⟩
    · obtain ⟨⟨i, hi, ht⟩, hall⟩ := hk
      exact Ensures.pure ⟨rfl, .hidden hi ht hall⟩
    · obtain ⟨i, hi, ht, ha, hone⟩ := hk
      refine Ensures.step (Gives.ask hr) ?_
      rw [if_pos hs]
      exact Ensures.pure ⟨rfl, .found hi ht ha hone⟩

/-- Looking up a type changes nothing, and its answer is the right one for the package. -/
theorem typeOf_spec (hc : env.Coherent) (hm : ∃ record, env.module m = .ok record)
    (hr : env.package p = .ok r) (name : String) :
    (typeOf m p name).Ensures env fun answer after => after = env ∧
      env.TypeAnswer m p name answer := by
  by_cases hs : r.isSplit = true
  · obtain ⟨s, hk⟩ := Package.kind_of_isSplit hs
    exact typeOf_split hc hm hr hk name
  · have hfor : env.typeFor p name m = .ok (.ok (r.types.get? name)) := by
      simp only [typeFor, hr, bind, Except.bind, hs]
      rfl
    refine Ensures.step (Gives.ask hfor) ?_
    cases hget : r.types.get? name with
    | none =>
      refine Ensures.pure ⟨rfl, .missing fun i hi t ht => ?_⟩
      rw [parts_of_package hr] at hi
      have hi : i = p := by
        unfold Package.contributors at hi
        cases hk : r.kind with
        | plain plain => simpa [hk] using hi
        | problem => simp [hk] at hi
        | split s => exact absurd (Package.isSplit_of_kind hk) hs
      rw [hi, hasType_of_package hr, hget] at ht
      cases ht
    | some t =>
      obtain ⟨hpl, -⟩ := hc.types hr hget
      have hparts : env.parts p = [p] := by
        rw [parts_of_package hr, Package.contributors_of_isPlain hpl]
      have hin : p ∈ env.parts p := by rw [hparts]; exact List.mem_singleton_self p
      have ht : env.HasType p name t := (hasType_of_package hr).mpr hget
      obtain ⟨b, hb⟩ := hc.closed.canAccess_ok hm hr
      refine Ensures.step (Gives.ask hr) ?_
      rw [if_neg hs]
      refine Ensures.step (Gives.ask hb) ?_
      cases b with
      | true =>
        refine Ensures.pure ⟨rfl, .found hin ht hb fun j hj _ _ _ => ?_⟩
        rw [hparts] at hj
        exact List.mem_singleton.mp hj
      | false =>
        refine Ensures.pure ⟨rfl, .hidden hin ht fun j hj _ _ => ?_⟩
        rw [hparts] at hj
        rw [List.mem_singleton.mp hj]
        exact hb

/-- Resolving a well-formed type name: the package first, and then the type in it. -/
theorem resolveType_spec (hc : env.Coherent) (hm : ∃ record, env.module m = .ok record)
    {qualified : String} (hq : Path.splitTypeName qualified = .ok (path, name)) :
    (resolveType m qualified).Ensures env fun answer after =>
      ∃ resolution resolved, answer = .ok resolution ∧ env.Resolved m path after resolved ∧
        match resolved with
        | none => resolution = .noSuchPackage
        | some p => after.TypeAnswer m p name resolution := by
  unfold resolveType
  rw [hq]
  refine (resolve_spec hc hm path).bind fun resolved after h => ?_
  cases resolved with
  | none => exact Ensures.pure ⟨_, none, rfl, h, rfl⟩
  | some p =>
    have hafter := h.changes.coherent hc
    obtain ⟨r, hr, -⟩ := h.binds hc
    refine (typeOf_spec hafter (h.changes.keeps.module_ok hm) hr name).bind ?_
    rintro resolution _ ⟨e, ht⟩
    subst e
    exact Ensures.pure ⟨resolution, some p, rfl, h, ht⟩

end Lookup

end SplitPackages
