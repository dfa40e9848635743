import SplitPackages.Proofs.Requests
import SplitPackages.Report

/-!
# Questions have answers

In an orderly environment every identifier that a record holds names a record.
So every question about modules, packages and types that are there has an
answer, however many records it goes through: who can read or access what, how
bindings compare, which types they have, and how they are told in words.
-/

namespace SplitPackages

namespace Event

/-- The packages that the fields of an event describe. -/
def packages : Event → List PackageId
  | combining previous candidate _ => bindings [previous, candidate]
  | splitMade p | notSplit p | searching _ p _ | splitLeaked p | foreignResult p _ => [p]
  | bestTaken _ result | combined _ result | contributed _ result | viewed _ _ result =>
    bindings [result]
  | unexpectedParent p q | adding p q _ | splitReused p q => [p, q]
  | registered entry replacing => bindings [entry, replacing]
  | enriched p after => p :: bindings [after]
  | entriesMerged entry p | entryShared entry p => p :: bindings [some entry]
  | searched result => result.toList
  | _ => []

/-- The modules that the fields of an event name. -/
def modules : Event → List ModuleId
  | combining _ _ m | combiningAll _ m | adding _ _ m | searching _ _ m | contributed m _
  | foreignResult _ m | readableCandidate m _ | viewed m _ _ | viewedFor m _ _ => [m]
  | foreignContext m k => [m, k]
  | _ => []

/-- The event belongs to a task and can be put into words. -/
def Told (e : Event) (env : Environment) : Prop :=
  e.ofTask = true ∧ ∃ fields, e.fields env = .ok fields

end Event

namespace Environment

variable {env : Environment} {d : Discipline} {c : Option Ref} {p q : PackageId} {m k : ModuleId}
  {r rq : Package} {path : Path} {name : String}

theorem Orderly.closed (ho : env.Orderly d) : env.Closed where
  reads := ho.graph.reads
  home := ho.graph.home
  incarnations hp hi := by
    obtain ⟨ri, hri, -⟩ := ho.wired.plain_of_mem hp hi
    exact ⟨ri, hri⟩

theorem bindings_subset {cs cs' : List (Option Ref)} (hsub : cs ⊆ cs') : bindings cs ⊆ bindings cs' :=
  fun _ hp => mem_bindings.mpr (hsub (mem_bindings.mp hp))

/-- The modules that contribute to a binding exist. -/
theorem Orderly.module_of_declaring (ho : env.Orderly d) (hr : env.package p = .ok r)
    (hk : k ∈ r.declaring) : ∃ record, env.module k = .ok record := by
  obtain ⟨i, -, ri, hri, rfl⟩ := (ho.wired.mem_declaring_iff hr).mp hk
  exact ho.graph.home hri

/-! ## Comparing bindings -/

theorem subsumes_total (hr : env.package p = .ok r) (hq : env.package q = .ok rq) :
    ∃ b, env.subsumes p q = .ok b := by
  simp only [subsumes, hr, hq, bind, Except.bind]
  split
  · split
    · exact ⟨_, rfl⟩
    · split <;> exact ⟨_, rfl⟩
  · exact ⟨_, rfl⟩

/-! ## Words -/

theorem moduleName_ok (hm : ∃ record, env.module m = .ok record) :
    ∃ text, env.moduleName m = .ok text := by
  obtain ⟨record, hm⟩ := hm
  exact ⟨record.name, moduleName_of_module hm⟩

theorem moduleNames_ok : ∀ {ms : List ModuleId}, (∀ m ∈ ms, ∃ record, env.module m = .ok record) →
    ∃ texts, env.moduleNames ms = .ok texts
  | [], _ => ⟨[], rfl⟩
  | m :: ms, h => by
    obtain ⟨text, htext⟩ := moduleName_ok (h m List.mem_cons_self)
    obtain ⟨texts, htexts⟩ := moduleNames_ok fun k hk => h k (List.mem_cons_of_mem _ hk)
    simp only [moduleNames, htext, htexts, bind, Except.bind]
    exact ⟨_, rfl⟩

theorem Orderly.displayOf_ok (ho : env.Orderly d) (hr : env.package p = .ok r) :
    ∃ text, env.displayOf r = .ok text := by
  unfold displayOf
  cases hk : r.kind with
  | plain plain => exact ⟨_, rfl⟩
  | problem => exact ⟨_, rfl⟩
  | split s =>
    have hdecl : r.declaring = s.declaring.toList := by simp only [Package.declaring, hk]
    obtain ⟨texts, htexts⟩ := moduleNames_ok fun k hin =>
      ho.module_of_declaring hr (hdecl ▸ (hin : k ∈ s.declaring.toList))
    simp only [htexts, bind, Except.bind]
    exact ⟨_, rfl⟩

theorem Orderly.display_ok (ho : env.Orderly d) (hr : env.package p = .ok r) :
    ∃ text, env.display p = .ok text := by
  simp only [display, hr, bind, Except.bind]
  exact ho.displayOf_ok hr

theorem Orderly.describe_package_ok (ho : env.Orderly d) (hr : env.package p = .ok r) :
    ∃ text, env.describe (some (.package p)) = .ok text := by
  obtain ⟨text, htext⟩ := ho.displayOf_ok hr
  obtain ⟨home, hhome⟩ := moduleName_ok (ho.graph.home hr)
  simp only [describe, hr, htext, hhome, bind, Except.bind]
  exact ⟨_, rfl⟩

theorem Orderly.describe_ok (ho : env.Orderly d)
    (hc : ∀ p ∈ bindings [c], ∃ r, env.package p = .ok r) : ∃ text, env.describe c = .ok text := by
  rcases c with _ | _ | p
  · exact ⟨_, rfl⟩
  · exact ⟨_, rfl⟩
  · obtain ⟨r, hr⟩ := hc p List.mem_cons_self
    exact ho.describe_package_ok hr

theorem ok_bind {α β : Type} {x : Except Fault α} {f : α → Except Fault β} (h : ∃ a, x = .ok a)
    (h2 : ∀ a, ∃ b, f a = .ok b) : ∃ b, (x >>= f) = .ok b := by
  obtain ⟨a, rfl⟩ := h
  exact h2 a

/-- Where the packages and modules of an event are there, it can be told. -/
theorem Orderly.told (ho : env.Orderly d) {e : Event} (he : e.ofTask = true)
    (hp : ∀ p ∈ e.packages, ∃ r, env.package p = .ok r)
    (hm : ∀ m ∈ e.modules, ∃ record, env.module m = .ok record) : e.Told env := by
  refine ⟨he, ?_⟩
  have hbinding (p : PackageId) (h : p ∈ e.packages) :
      ∃ text, Event.fields.binding env p = .ok text := by
    obtain ⟨r, hr⟩ := hp p h
    exact ho.describe_package_ok hr
  have hdescribe (c : Option Ref) (h : bindings [c] ⊆ e.packages) :
      ∃ text, env.describe c = .ok text := ho.describe_ok fun p hc => hp p (h hc)
  have hname (m : ModuleId) (h : m ∈ e.modules) : ∃ text, env.moduleName m = .ok text :=
    moduleName_ok (hm m h)
  cases e with
  | combining previous candidate m =>
    refine ok_bind (hdescribe previous ?_) fun _ => ok_bind (hdescribe candidate ?_) fun _ =>
      ok_bind (hname m List.mem_cons_self) fun _ => ⟨_, rfl⟩
    · exact bindings_subset (by simp)
    · exact bindings_subset (by simp)
  | registered entry replacing =>
    refine ok_bind (hdescribe entry ?_) fun _ => ok_bind (hdescribe replacing ?_) fun _ => ⟨_, rfl⟩
    · exact bindings_subset (by simp)
    · exact bindings_subset (by simp)
  | combiningAll _ m | viewedFor m | readableCandidate m =>
    exact ok_bind (hname m List.mem_cons_self) fun _ => ⟨_, rfl⟩
  | splitMade p | notSplit p | splitLeaked p =>
    exact ok_bind (hbinding p List.mem_cons_self) fun _ => ⟨_, rfl⟩
  | bestTaken _ c | combined _ c => exact ok_bind (hdescribe c fun _ h => h) fun _ => ⟨_, rfl⟩
  | contributed m c | viewed m _ c =>
    exact ok_bind (hname m List.mem_cons_self) fun _ => ok_bind (hdescribe c fun _ h => h) fun _ =>
      ⟨_, rfl⟩
  | unexpectedParent p q | splitReused p q =>
    exact ok_bind (hbinding p List.mem_cons_self) fun _ =>
      ok_bind (hbinding q (List.mem_cons_of_mem _ List.mem_cons_self)) fun _ => ⟨_, rfl⟩
  | adding p q m =>
    exact ok_bind (hbinding p List.mem_cons_self) fun _ =>
      ok_bind (hbinding q (List.mem_cons_of_mem _ List.mem_cons_self)) fun _ =>
        ok_bind (hname m List.mem_cons_self) fun _ => ⟨_, rfl⟩
  | enriched p c =>
    exact ok_bind (hbinding p List.mem_cons_self) fun _ =>
      ok_bind (hdescribe c fun _ h => List.mem_cons_of_mem _ h) fun _ => ⟨_, rfl⟩
  | entriesMerged ref p | entryShared ref p =>
    exact ok_bind (hdescribe (some ref) fun _ h => List.mem_cons_of_mem _ h) fun _ =>
      ok_bind (hbinding p List.mem_cons_self) fun _ => ⟨_, rfl⟩
  | foreignContext m k =>
    exact ok_bind (hname m List.mem_cons_self) fun _ =>
      ok_bind (hname k (List.mem_cons_of_mem _ List.mem_cons_self)) fun _ => ⟨_, rfl⟩
  | searching name p m | foreignResult p m =>
    exact ok_bind (hbinding p List.mem_cons_self) fun _ =>
      ok_bind (hname m List.mem_cons_self) fun _ => ⟨_, rfl⟩
  | searched result =>
    refine ok_bind (hdescribe _ fun p h => ?_) fun _ => ⟨_, rfl⟩
    cases result with
    | none => exact absurd h List.not_mem_nil
    | some q => exact h
  | peeled | missKnown | worldBuilt => exact ⟨_, rfl⟩

/-! ## Types -/

theorem anyHasType_ok (name : String) : ∀ {ps : List PackageId},
    (∀ p ∈ ps, ∃ r, env.package p = .ok r) → ∃ b, env.anyHasType name ps = .ok b
  | [], _ => ⟨false, rfl⟩
  | p :: ps, h => by
    obtain ⟨r, hr⟩ := h p List.mem_cons_self
    obtain ⟨b, hb⟩ := anyHasType_ok name fun q hq => h q (List.mem_cons_of_mem _ hq)
    simp only [anyHasType, hr, hb, bind, Except.bind]
    split <;> exact ⟨_, rfl⟩

theorem Orderly.knowsType_ok (ho : env.Orderly d) (hr : env.package p = .ok r) (name : String) :
    ∃ b, env.knowsType p name = .ok b := by
  obtain ⟨b, hb⟩ := anyHasType_ok name fun i hi => ho.closed.incarnations hr hi
  simp only [knowsType, hr, hb, bind, Except.bind]
  split <;> exact ⟨_, rfl⟩

theorem typeIn_ok (hr : env.package p = .ok r) (name : String) :
    env.typeIn p name = .ok (r.types.get? name) := by
  simp only [typeIn, hr]
  rfl

theorem Orderly.typeOfModule_ok (ho : env.Orderly d) (hr : env.package p = .ok r) (m : ModuleId)
    (name : String) : ∃ t, env.typeOfModule p m name = .ok t := by
  obtain ⟨o, ho', -, hin⟩ := ho.wired.incarnation_iff hr m
  simp only [typeOfModule, isDeclaredIn_ok hr m, ho', bind, Except.bind]
  split
  · cases o with
    | none => exact ⟨none, rfl⟩
    | some i =>
      obtain ⟨-, ri, hri, -⟩ := hin i rfl
      exact ⟨_, typeIn_ok hri name⟩
  · exact ⟨none, rfl⟩

theorem Orderly.typeFor_ok (ho : env.Orderly d) (hm : ∃ record, env.module m = .ok record)
    (hr : env.package p = .ok r) (name : String) : ∃ o, env.typeFor p name m = .ok o := by
  simp only [typeFor, hr, bind, Except.bind]
  split
  · obtain ⟨o, ho', -⟩ := ho.closed.typeAmong_ok hm name r.incarnations [] none
      (fun i hi => ho.closed.incarnations hr hi) r.incarnations_nodup fun i hi => by cases hi
    exact ⟨o, ho'⟩
  · exact ⟨_, rfl⟩

/-! ## What a client should see -/

/-- Whether the binding has a compilation unit and the client can access it, in an unnamed module
or else in a named one. -/
def showsUnit (env : Environment) (client : ModuleId) (unnamed : Bool) (p : PackageId) : Bool :=
  match env.package p, env.canAccess client p with
  | .ok r, .ok true =>
    match env.module r.home with
    | .ok record => r.hasUnit && record.unnamed == unnamed
    | .error _ => false
  | _, _ => false

/-- Whether the binding is the client's own, has a compilation unit, and is preferred for that. -/
def prefersOwn (env : Environment) (client : ModuleId) (preferOwn : Bool) (p : PackageId) : Bool :=
  match env.package p with
  | .ok r => r.hasUnit && (preferOwn && decide (r.home = client))
  | .error _ => false

/-- What a tally becomes when more incarnations are gone through. -/
def tallied (env : Environment) (client : ModuleId) (t : Tally) (ps : List PackageId) : Tally where
  named := t.named + (ps.filter (env.showsUnit client false)).length
  lastNamed := (ps.filter (env.showsUnit client false)).getLast?.or t.lastNamed
  lastUnnamed := (ps.filter (env.showsUnit client true)).getLast?.or t.lastUnnamed

theorem getLast?_cons_or {α : Type} (a : α) (l : List α) (o : Option α) :
    (a :: l).getLast?.or o = l.getLast?.or (some a) := by
  rw [List.getLast?_cons]
  cases l.getLast? <;> rfl

/-- A tally goes through all incarnations, unless it comes upon the client's own and prefers it. -/
theorem Closed.tally_eq (hc : env.Closed) (hm : ∃ record, env.module m = .ok record)
    (preferOwn : Bool) : ∀ {ps : List PackageId} (t : Tally),
      (∀ p ∈ ps, ∃ r, env.package p = .ok r) →
      env.tally m preferOwn t ps = .ok (match ps.find? (env.prefersOwn m preferOwn) with
        | some own => .inl own
        | none => .inr (env.tallied m t ps))
  | [], t, _ => rfl
  | p :: ps, t, h => by
    obtain ⟨r, hr⟩ := h p List.mem_cons_self
    obtain ⟨b, hb⟩ := hc.canAccess_ok hm hr
    obtain ⟨record, hhome⟩ := hc.home hr
    have hrest (t : Tally) := hc.tally_eq hm preferOwn t fun q hq => h q (List.mem_cons_of_mem _ hq)
    have hown : env.prefersOwn m preferOwn p = (r.hasUnit && (preferOwn && decide (r.home = m))) := by
      simp only [prefersOwn, hr]
    have hshows (unnamed : Bool) : env.showsUnit m unnamed p =
        (b && (r.hasUnit && record.unnamed == unnamed)) := by
      cases b <;> simp only [showsUnit, hr, hb, hhome, Bool.false_and, Bool.true_and]
    simp only [tally, hr, hb, hhome, hown, List.find?_cons, bind, Except.bind]
    cases hu : r.hasUnit with
    | false => simpa [tallied, hshows, hu] using hrest t
    | true =>
      cases hpo : preferOwn && decide (r.home = m) with
      | true => simp [pure, Except.pure]
      | false =>
        cases b with
        | false => simpa [tallied, hshows] using hrest t
        | true =>
          cases hn : record.unnamed with
          | true =>
            simpa [tallied, hshows, hu, hn, getLast?_cons_or] using
              hrest { t with lastUnnamed := some p }
          | false =>
            simpa [tallied, hshows, hu, hn, getLast?_cons_or, Nat.add_assoc, Nat.add_comm] using
              hrest { t with named := t.named + 1, lastNamed := some p }

end Environment

end SplitPackages
