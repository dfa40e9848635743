import Mathlib.Logic.Relation
import SplitPackages.Proofs.Histories

/-!
# What lookups write

`Alter` is one write of a lookup: a new split without incarnations, a record
that changes in what lookups fill in and whose ties grow at the end, or an entry
in a view. Every run of a request that is not a builder is a run of such writes, whatever
environment it starts from (`Request.run_alters`). So lookups declare nothing,
type nothing, move nothing and give no binding a compilation unit.
-/

namespace SplitPackages

namespace OrderedSet

variable {α : Type} [DecidableEq α]

theorem prefix_insertMany (s : OrderedSet α) (as : List α) :
    s.toList <+: (s.insertMany as).toList := by
  rw [toList_insertMany]
  exact List.prefix_append _ _

theorem prefix_insert (s : OrderedSet α) (a : α) : s.toList <+: (s.insert a).toList :=
  s.prefix_insertMany [a]

end OrderedSet

/-- The two records differ at most in what lookups fill in, and in ties that are added at the
end. -/
structure Package.Alters (r r' : Package) : Prop where
  path : r'.path = r.path
  parent : r'.parent = r.parent
  home : r'.home = r.home
  types : r'.types = r.types
  missingType : r'.missingType = r.missingType
  isSplit : r'.isSplit = r.isSplit
  units : r'.plain?.map (·.hasUnit) = r.plain?.map (·.hasUnit)
  incarnations : r.incarnations <+: r'.incarnations
  declaring : r.declaring <+: r'.declaring
  wrappedBy : r.wrappedBy <+: r'.wrappedBy
  known : ∀ {name}, name ∈ r.known.keys → name ∈ r'.known.keys

/-- The binding remembers no result that it did not remember before; and if it is one of the first
`n`, it keeps its incarnations. -/
structure Package.Spares (n : Nat) (p : PackageId) (r r' : Package) : Prop where
  memo : ∀ {name v}, r'.memo name = some v → r.memo name = some v
  incarnations : p.index < n → r'.incarnations = r.incarnations

namespace Package

variable {r r' : Package}

theorem Alters.refl (r : Package) : r.Alters r :=
  ⟨rfl, rfl, rfl, rfl, rfl, rfl, rfl, List.prefix_rfl, List.prefix_rfl, List.prefix_rfl, id⟩

theorem Alters.isPlain (h : r.Alters r') : r'.isPlain = r.isPlain := by
  have hsome := congrArg Option.isSome h.units
  simpa only [Package.isPlain, Option.isSome_map] using hsome

theorem Alters.hasUnit (h : r.Alters r') : r'.hasUnit = r.hasUnit := by
  have hany (r : Package) : r.hasUnit = (r.plain?.map (·.hasUnit)).any id := by
    unfold Package.hasUnit
    cases r.plain? <;> rfl
  rw [hany, hany, h.units]

theorem Alters.trans {r'' : Package} (h : r.Alters r') (h2 : r'.Alters r'') : r.Alters r'' where
  path := h2.path.trans h.path
  parent := h2.parent.trans h.parent
  home := h2.home.trans h.home
  types := h2.types.trans h.types
  missingType := h2.missingType.trans h.missingType
  isSplit := h2.isSplit.trans h.isSplit
  units := h2.units.trans h.units
  incarnations := h.incarnations.trans h2.incarnations
  declaring := h.declaring.trans h2.declaring
  wrappedBy := h.wrappedBy.trans h2.wrappedBy
  known hname := h2.known (h.known hname)

theorem wrap_alters (split : PackageId) (r : Package) : r.Alters (r.wrap split) := by
  obtain ⟨_, _, _, _, _, _, kind⟩ := r
  cases kind with
  | plain plain =>
    exact ⟨rfl, rfl, rfl, rfl, rfl, rfl, rfl, List.prefix_rfl, List.prefix_rfl,
      plain.wrappedBy.prefix_insert split, id⟩
  | split s => exact .refl _
  | problem => exact .refl _

/-- The state of a split changes, but it keeps its incarnations and their homes in front. -/
theorem mapSplit_alters {f : Split → Split}
    (hi : ∀ s : Split, s.incarnations.toList <+: (f s).incarnations.toList)
    (hd : ∀ s : Split, s.declaring.toList <+: (f s).declaring.toList) (r : Package) :
    r.Alters (r.mapSplit f) := by
  obtain ⟨_, _, _, _, _, _, kind⟩ := r
  cases kind with
  | plain plain => exact .refl _
  | split s => exact ⟨rfl, rfl, rfl, rfl, rfl, rfl, rfl, hi s, hd s, List.prefix_rfl, id⟩
  | problem => exact .refl _

/-- The memos of a split change. -/
theorem mapMemo_alters (f : Split → Table String (List Ref × Option Ref)) (r : Package) :
    r.Alters (r.mapSplit fun s => { s with relaxed := f s }) :=
  mapSplit_alters (f := fun s => { s with relaxed := f s }) (fun _ => List.prefix_rfl)
    (fun _ => List.prefix_rfl) r

theorem learn_alters (name : String) (ref : Ref) (r : Package) : r.Alters (r.learn name ref) :=
  ⟨rfl, rfl, rfl, rfl, rfl, rfl, rfl, List.prefix_rfl, List.prefix_rfl, List.prefix_rfl,
    fun hname => Environment.mem_keys_insert.mpr (.inl hname)⟩

/-! ## Writes that spare bindings -/

variable {n : Nat} {p : PackageId}

theorem Spares.refl (r : Package) : r.Spares n p r := ⟨id, fun _ => rfl⟩

theorem Spares.trans {r'' : Package} (h : r.Spares n p r') (h2 : r'.Spares n p r'') :
    r.Spares n p r'' where
  memo hm := h.memo (h2.memo hm)
  incarnations hlt := (h2.incarnations hlt).trans (h.incarnations hlt)

theorem wrap_spares (split : PackageId) (r : Package) : r.Spares n p (r.wrap split) := by
  obtain ⟨_, _, _, _, _, _, kind⟩ := r
  cases kind <;> exact ⟨id, fun _ => rfl⟩

theorem learn_spares (name : String) (ref : Ref) (r : Package) : r.Spares n p (r.learn name ref) :=
  ⟨id, fun _ => rfl⟩

/-- A split that is none of the first changes, but for its memos. -/
theorem mapSplit_spares {f : Split → Split} (hn : n ≤ p.index)
    (hm : ∀ s : Split, (f s).relaxed = s.relaxed) (r : Package) :
    r.Spares n p (r.mapSplit f) := by
  obtain ⟨_, _, _, _, _, _, kind⟩ := r
  cases kind with
  | plain plain => exact .refl _
  | problem => exact .refl _
  | split s =>
    refine ⟨fun h => ?_, fun hlt => absurd hn (Nat.not_le_of_lt hlt)⟩
    simpa only [memo, mapSplit, split?, Option.bind_some, hm s] using h

/-- A memo is given up. -/
theorem eraseMemo_spares (name : String) (r : Package) :
    r.Spares n p (r.mapSplit fun s => { s with relaxed := s.relaxed.erase name }) := by
  obtain ⟨_, _, _, _, _, _, kind⟩ := r
  cases kind with
  | plain plain => exact .refl _
  | problem => exact .refl _
  | split s =>
    refine ⟨fun {other v} hm => ?_, fun _ => rfl⟩
    simp only [memo, mapSplit, split?, Option.bind_some, Table.get?_erase] at hm ⊢
    split at hm
    · cases hm
    · exact hm

end Package

namespace Environment

/-- A write of a lookup. A limit `n` means that it adds no memo and leaves the incarnations of
the first `n` bindings as they are. -/
inductive Alter (limit : Option Nat) (env : Environment) : Environment → Prop
  | split (path : Path) (parent : Option PackageId) (home : ModuleId) :
      Alter limit env { env with
        packages := env.packages.push (.fresh path parent home (.split .empty)) }
  | package {p : PackageId} {f : Package → Package} {after : Environment} :
      (∀ r : Package, r.Alters (f r)) → (∀ n ∈ limit, ∀ r : Package, r.Spares n p (f r)) →
      env.setPackage p f = .ok after → Alter limit env after
  | view {m : ModuleId} {path : Path} {ref : Ref} {after : Environment} :
      env.setModule m (·.remember path ref) = .ok after → Alter limit env after

/-- A run of writes. -/
abbrev Alters (env : Environment) (limit : Option Nat) (after : Environment) : Prop :=
  Relation.ReflTransGen (Alter limit) env after

variable {limit : Option Nat} {n : Nat} {env after : Environment} {p : PackageId} {r r' : Package}
  {name : String} {v : List Ref × Option Ref}

/-! ## What writes leave alone -/

theorem Alter.package_old (h : Alter limit env after) (hp : env.package p = .ok r) :
    ∃ r', after.package p = .ok r' ∧ r.Alters r' := by
  cases h with
  | split path parent home =>
    refine ⟨r, ?_, .refl r⟩
    rw [package_push, if_neg (Nat.ne_of_lt (lt_size_of_package hp)), hp]
  | @package q f _ hf _ hset =>
    by_cases e : p = q
    · subst e
      exact ⟨_, package_setPackage_self hset hp, hf r⟩
    · exact ⟨r, (package_setPackage_ne hset e).trans hp, .refl r⟩
  | view hset => exact ⟨r, (package_congr (packages_setModule hset) p).trans hp, .refl r⟩

theorem Alter.spares (h : Alter (some n) env after) (hp : env.package p = .ok r)
    (hp' : after.package p = .ok r') : r.Spares n p r' := by
  cases h with
  | split path parent home =>
    rw [package_push, if_neg (Nat.ne_of_lt (lt_size_of_package hp)), hp] at hp'
    cases hp'
    exact .refl r
  | @package q f _ _ hspare hset =>
    by_cases e : p = q
    · subst e
      rw [package_setPackage_self hset hp] at hp'
      cases hp'
      exact hspare n rfl r
    · rw [package_setPackage_ne hset e, hp] at hp'
      cases hp'
      exact .refl r
  | view hset =>
    rw [package_congr (packages_setModule hset), hp] at hp'
    cases hp'
    exact .refl r

theorem Alter.size_le (h : Alter limit env after) : env.packages.size ≤ after.packages.size := by
  cases h with
  | split path parent home => simp
  | package _ _ hset => exact Nat.le_of_eq (size_setPackage hset).symm
  | view hset => exact Nat.le_of_eq (congrArg Array.size (packages_setModule hset)).symm

theorem Alter.package_new (h : Alter limit env after) (hp : after.package p = .ok r) :
    (∃ r0, env.package p = .ok r0) ∨ r.isSplit = true ∧ r.types = .empty := by
  cases h with
  | split path parent home =>
    rw [package_push] at hp
    split at hp
    · cases hp
      exact .inr ⟨rfl, rfl⟩
    · exact .inl ⟨r, hp⟩
  | package _ _ hset =>
    have hlt := lt_size_of_package hp
    rw [size_setPackage hset] at hlt
    exact .inl (package_of_lt_size hlt)
  | view hset => exact .inl ⟨r, (package_congr (packages_setModule hset) p).symm.trans hp⟩

theorem Alter.modules (h : Alter limit env after) (m : ModuleId) :
    Module.bare <$> after.module m = Module.bare <$> env.module m := by
  cases h with
  | split path parent home => rfl
  | package _ _ hset => rw [module_congr (modules_setPackage hset)]
  | @view k path ref _ hset =>
    by_cases e : m = k
    · subst e
      rw [module_setModule hset, if_pos rfl]
      cases env.module m <;> rfl
    · rw [module_setModule_ne hset e]

theorem Alter.types (h : Alter limit env after) : after.types = env.types := by
  cases h with
  | split path parent home => rfl
  | package _ _ hset => exact types_setPackage hset
  | view hset => exact types_setModule hset

theorem Alters.package_old (h : env.Alters limit after) (hp : env.package p = .ok r) :
    ∃ r', after.package p = .ok r' ∧ r.Alters r' := by
  induction h with
  | refl => exact ⟨r, hp, .refl r⟩
  | tail _ hs ih =>
    obtain ⟨r1, hr1, e1⟩ := ih
    obtain ⟨r2, hr2, e2⟩ := hs.package_old hr1
    exact ⟨r2, hr2, e1.trans e2⟩

theorem Alters.spares (h : env.Alters (some n) after) (hp : env.package p = .ok r)
    (hp' : after.package p = .ok r') : r.Spares n p r' := by
  induction h generalizing r' with
  | refl => exact package_unique hp hp' ▸ .refl r
  | tail hrun hs ih =>
    obtain ⟨r1, hr1, -⟩ := Alters.package_old hrun hp
    exact (ih hr1).trans (hs.spares hr1 hp')

/-- What is remembered was remembered before. -/
theorem Alter.memo_back (h : Alter (some n) env after) (hp : after.package p = .ok r)
    (hm : r.memo name = some v) : ∃ r0, env.package p = .ok r0 ∧ r0.memo name = some v := by
  have hold {r0 : Package} (hp0 : env.package p = .ok r0) :
      ∃ r0, env.package p = .ok r0 ∧ r0.memo name = some v :=
    ⟨r0, hp0, (h.spares hp0 hp).memo hm⟩
  cases hp0 : env.package p with
  | ok r0 => exact hp0 ▸ hold hp0
  | error e =>
    cases h with
    | split path parent home =>
      rw [package_push, hp0] at hp
      split at hp
      · cases hp
        cases hm
      · cases hp
    | package _ _ hset =>
      obtain ⟨r0, hr0⟩ := package_of_lt_size (size_setPackage hset ▸ lt_size_of_package hp)
      rw [hp0] at hr0
      cases hr0
    | view hset =>
      rw [package_congr (packages_setModule hset), hp0] at hp
      cases hp

theorem Alters.memo_back (h : env.Alters (some n) after) (hp : after.package p = .ok r)
    (hm : r.memo name = some v) : ∃ r0, env.package p = .ok r0 ∧ r0.memo name = some v := by
  induction h generalizing r with
  | refl => exact ⟨r, hp, hm⟩
  | tail _ hs ih =>
    obtain ⟨r1, hr1, hm1⟩ := hs.memo_back hp hm
    exact ih hr1 hm1

theorem Alters.size_le (h : env.Alters limit after) :
    env.packages.size ≤ after.packages.size := by
  induction h with
  | refl => exact Nat.le_refl _
  | tail _ hs ih => exact Nat.le_trans ih hs.size_le

theorem Alters.package_new (h : env.Alters limit after) (hp : after.package p = .ok r) :
    (∃ r0, env.package p = .ok r0) ∨ r.isSplit = true ∧ r.types = .empty := by
  induction h generalizing r with
  | refl => exact .inl ⟨r, hp⟩
  | tail _ hs ih =>
    rcases hs.package_new hp with ⟨r1, hr1⟩ | hnew
    · refine (ih hr1).imp_right fun ⟨h1, h2⟩ => ?_
      obtain ⟨r', hr', e⟩ := hs.package_old hr1
      cases package_unique hp hr'
      exact ⟨e.isSplit.trans h1, e.types.trans h2⟩
    · exact .inr hnew

theorem Alters.modules (h : env.Alters limit after) (m : ModuleId) :
    Module.bare <$> after.module m = Module.bare <$> env.module m := by
  induction h with
  | refl => rfl
  | tail _ hs ih => exact (hs.modules m).trans ih

theorem Alters.types (h : env.Alters limit after) : after.types = env.types := by
  induction h with
  | refl => rfl
  | tail _ hs ih => exact hs.types.trans ih

end Environment

/-- Every run of the change is a run of writes. The first bindings that a limit speaks of are those
that are there at the start. -/
def Update.Alters {α : Type} (u : Update α) (limit : Option Nat) : Prop :=
  ∀ env a after, (∀ n ∈ limit, n ≤ env.packages.size) → u env = .ok (a, after) →
    env.Alters limit after

/-- Every run of the lookup is a run of writes. -/
def Lookup.Alters {α : Type} (act : Lookup α) (limit : Option Nat) : Prop :=
  ∀ s a s', (∀ n ∈ limit, n ≤ s.env.packages.size) → act s = .ok (a, s') →
    s.env.Alters limit s'.env

namespace Update

variable {limit : Option Nat} {α β : Type} {u : Update α} {f : α → Update β}

theorem Alters.pure (a : α) : (Pure.pure a : Update α).Alters limit := by
  intro env a after _ h
  cases h
  exact .refl

theorem Alters.bind (h : u.Alters limit) (h2 : ∀ a, (f a).Alters limit) :
    (u >>= f).Alters limit := by
  intro env b after hn hr
  cases hu : u env with
  | error e => simp only [Bind.bind, StateT.bind, Except.bind, hu] at hr; cases hr
  | ok p =>
    simp only [Bind.bind, StateT.bind, Except.bind, hu] at hr
    have h1 := h env p.1 p.2 hn hu
    exact h1.trans (h2 p.1 p.2 b after (fun n hin => Nat.le_trans (hn n hin) h1.size_le) hr)

theorem Alters.ask (f : Environment → Except Fault α) : (Update.ask f).Alters limit := by
  intro env a after _ hr
  cases hf : f env with
  | error e =>
    simp only [Update.ask, Bind.bind, StateT.bind, get, getThe, MonadStateOf.get, StateT.get,
      Except.bind, Pure.pure, Except.pure, liftM, monadLift, MonadLift.monadLift, StateT.lift,
      hf] at hr
    cases hr
  | ok b =>
    rw [ask_ok hf] at hr
    cases hr
    exact .refl

theorem Alters.setPackage {p : PackageId} {f : Package → Package}
    (hf : ∀ r : Package, r.Alters (f r))
    (hspare : ∀ n ∈ limit, ∀ r : Package, r.Spares n p (f r)) :
    (Update.setPackage p f).Alters limit := by
  intro env a after _ hr
  cases hset : env.setPackage p f with
  | error e =>
    simp only [Update.setPackage, Update.ask, Bind.bind, StateT.bind, get, getThe,
      MonadStateOf.get, StateT.get, Except.bind, Pure.pure, Except.pure, liftM, monadLift,
      MonadLift.monadLift, StateT.lift, hset] at hr
    cases hr
  | ok next =>
    rw [setPackage_ok hset] at hr
    cases hr
    exact .single (.package hf hspare hset)

theorem Alters.remember (m : ModuleId) (path : Path) (ref : Ref) :
    (Update.setModule m (·.remember path ref)).Alters limit := by
  intro env a after _ hr
  cases hset : env.setModule m (·.remember path ref) with
  | error e =>
    simp only [Update.setModule, Update.ask, Bind.bind, StateT.bind, get, getThe,
      MonadStateOf.get, StateT.get, Except.bind, Pure.pure, Except.pure, liftM, monadLift,
      MonadLift.monadLift, StateT.lift, hset] at hr
    cases hr
  | ok next =>
    rw [setModule_ok hset] at hr
    cases hr
    exact .single (.view hset)

theorem wrapAll_alters (split : PackageId) :
    ∀ ps : List PackageId, (wrapAll split ps).Alters limit
  | [] => .pure ()
  | _ :: ps =>
    .bind (.setPackage (Package.wrap_alters split) fun _ _ => Package.wrap_spares split) fun _ =>
      wrapAll_alters split ps

/-- Adding to a split spares the splits that are older. -/
theorem addToSplit_alters {split : PackageId} (hn : ∀ n ∈ limit, n ≤ split.index)
    (other : PackageId) :
    (addToSplit split other).Alters limit := by
  refine .bind (.ask _) fun source => ?_
  split
  · exact .pure ()
  · refine .bind (.ask _) fun target => ?_
    split
    · exact .pure ()
    · exact .bind (.setPackage (Package.mapSplit_alters
        (fun s => s.incarnations.prefix_insertMany _) fun s => s.declaring.prefix_insertMany _)
        fun n hin => Package.mapSplit_spares (hn n hin) fun _ => rfl) fun _ => wrapAll_alters _ _

theorem addAllToSplit_alters {split : PackageId} (hn : ∀ n ∈ limit, n ≤ split.index) :
    ∀ ps : List PackageId, (addAllToSplit split ps).Alters limit
  | [] => .pure ()
  | p :: ps => .bind (addToSplit_alters hn p) fun _ => addAllToSplit_alters hn ps

theorem learn_alters (p : PackageId) (name : String) (ref : Ref) :
    (Update.setPackage p (·.learn name ref)).Alters limit :=
  .setPackage (Package.learn_alters name ref) fun _ _ => Package.learn_spares name ref

theorem storeChild_alters (parent child : PackageId) : (storeChild parent child).Alters limit :=
  .bind (.ask _) fun _ => learn_alters _ _ _

end Update

namespace Lookup

variable {limit : Option Nat} {α β : Type} {act : Lookup α} {f : α → Lookup β}

/-! ## Taking a lookup apart -/

theorem Alters.pure (a : α) : (Pure.pure a : Lookup α).Alters limit := by
  intro s a s' _ h
  cases h
  exact .refl

theorem Alters.bind (h : act.Alters limit) (h2 : ∀ a, (f a).Alters limit) :
    (act >>= f).Alters limit := by
  intro s b s' hn hr
  cases ha : act s with
  | error e => simp only [Bind.bind, StateT.bind, Except.bind, ha] at hr; cases hr
  | ok p =>
    simp only [Bind.bind, StateT.bind, Except.bind, ha] at hr
    have h1 := h s p.1 p.2 hn ha
    exact h1.trans (h2 p.1 p.2 b s' (fun n hin => Nat.le_trans (hn n hin) h1.size_le) hr)

theorem Alters.map {g : α → β} (h : act.Alters limit) : (g <$> act).Alters limit :=
  .bind h fun _ => .pure _

theorem Alters.ask (f : Environment → Except Fault α) : (Lookup.ask f).Alters limit := by
  intro s a s' _ hr
  cases hf : f s.env with
  | error e =>
    simp only [Lookup.ask, Bind.bind, StateT.bind, get, getThe, MonadStateOf.get, StateT.get,
      Except.bind, Pure.pure, Except.pure, liftM, monadLift, MonadLift.monadLift, hf] at hr
    cases hr
  | ok b =>
    obtain ⟨-, e⟩ := (Gives.ask hf).of_run (j := s.journal) hr
    exact e ▸ .refl

theorem Alters.note (e : Event) : (Lookup.note e).Alters limit := by
  intro s a s' _ hr
  cases hr
  exact .refl

theorem Alters.announce (p : PackageId) (path : Path) : (Lookup.announce p path).Alters limit := by
  intro s a s' _ hr
  cases hr
  exact .refl

/-- A note that is made in some cases only does not matter. -/
theorem Alters.noteIf {c : Prop} [Decidable c] {e : Event} {f : Unit → Lookup β}
    (h : (f ()).Alters limit) :
    (if c then (do let u ← Lookup.note e; f u) else f ()).Alters limit := by
  split
  · exact .bind (.note e) fun _ => h
  · exact h

theorem Alters.update {u : Update α} (h : u.Alters limit) : (Lookup.update u).Alters limit := by
  intro s a s' hn hr
  cases hu : u s.env with
  | error e =>
    simp only [Lookup.update, Bind.bind, Except.bind, hu] at hr
    cases hr
  | ok p =>
    simp only [Lookup.update, Bind.bind, Except.bind, Pure.pure, Except.pure, hu] at hr
    cases hr
    exact h s.env p.1 p.2 hn hu

theorem Alters.within {step : Step} (h : act.Alters limit) : (within step act).Alters limit := by
  intro s a s' hn hr
  let inner : State := { s with journal.steps := s.journal.steps ++ [step] }
  have hrun : Lookup.within step act s =
      (act inner).bind fun p => .ok (p.1, { p.2 with journal.steps := s.journal.steps }) := rfl
  rw [hrun] at hr
  cases ha : act inner with
  | error e => rw [ha] at hr; cases hr
  | ok p =>
    rw [ha] at hr
    cases hr
    exact h inner p.1 p.2 hn ha

/-- What is added next may rely on the number of the new split: it is none of the first. -/
theorem Alters.addSplit {path : Path} {parent : Option PackageId} {home : ModuleId}
    {f : PackageId → Lookup β}
    (h : ∀ split : PackageId, (∀ n ∈ limit, n ≤ split.index) → (f split).Alters limit) :
    (Lookup.update (.addPackage (.fresh path parent home (.split .empty))) >>= f).Alters limit := by
  intro s b s' hn hr
  have hpush : s.env.Alters limit { s.env with
      packages := s.env.packages.push (.fresh path parent home (.split .empty)) } :=
    .single (.split path parent home)
  exact hpush.trans (h ⟨s.env.packages.size⟩ hn _ b s'
    (fun n hin => Nat.le_trans (hn n hin) hpush.size_le) hr)

/-! ## The lookups -/

theorem noteAll_alters : ∀ es : List Event, (noteAll es).Alters limit
  | [] => .pure ()
  | e :: es => .bind (.note e) fun _ => noteAll_alters es

/-- What follows may rely on the number of the new split: it is none of the first. -/
theorem newSplit_alters {initial : PackageId} {primary : ModuleId} {f : PackageId → Lookup β}
    (h : ∀ split : PackageId, (∀ n ∈ limit, n ≤ split.index) → (f split).Alters limit) :
    (newSplit initial primary >>= f).Alters limit := by
  simp only [newSplit, bind_assoc, pure_bind]
  exact .bind (.ask _) fun _ => .addSplit fun split hn =>
    .bind (.update (Update.addToSplit_alters hn _)) fun _ =>
      .bind (.announce _ _) fun _ => h split hn

theorem peel_alters (p : PackageId) : (peel p).Alters limit := by
  refine .bind (.ask _) fun r => ?_
  split
  · split
    · exact .bind (.note _) fun _ => .pure _
    · exact .pure _
  · exact .pure _

theorem gather_alters (first : PackageId) (rest : List PackageId) (primary : ModuleId) :
    (gather first rest primary).Alters limit :=
  newSplit_alters fun _ hn => .bind (.update (Update.addAllToSplit_alters hn _)) fun _ =>
    peel_alters _

theorem combine_alters (candidate previous : Option Ref) (primary : ModuleId) :
    (combine candidate previous primary).Alters limit := by
  refine .bind (.ask _) fun before => .bind (.ask _) fun now => ?_
  split
  · exact .pure _
  split
  · exact .pure _
  split
  · refine .bind (.ask _) fun b => ?_
    split
    · exact .pure _
    refine .bind (.ask _) fun b' => ?_
    split
    · exact .pure _
    exact .within (.bind (.note _) fun _ => newSplit_alters fun _ hn =>
      .bind (.update (Update.addToSplit_alters hn _)) fun _ => .bind (.note _) fun _ => .pure _)
  · exact .pure _

theorem combineAll_alters (candidates : List (Option Ref)) (primary : ModuleId) :
    (combineAll candidates primary).Alters limit := by
  refine .within (.bind (.note _) fun _ => .bind (.ask _) fun ranked => ?_)
  dsimp only
  split
  · exact .pure _
  · split
    · exact .pure _
    · exact .bind (gather_alters _ _ _) fun _ => .bind (.note _) fun _ => .pure _
  · exact .bind (.note _) fun _ => .pure _

theorem enrich_alters (split child : PackageId) (m : ModuleId) :
    (enrich split child m).Alters limit := by
  refine .bind (.ask _) fun _ => .bind (.ask _) fun _ => .bind (.ask _) fun siblings => ?_
  split
  · exact .pure _
  · exact .bind (combineAll_alters _ _) fun _ => .bind (.note _) fun _ => .pure _

theorem linkIncarnation_alters (split child : PackageId) :
    (linkIncarnation split child).Alters limit := by
  refine .bind (.ask _) fun _ => .bind (.ask _) fun above => ?_
  split
  · exact .pure _
  · refine .bind (.ask _) fun below => ?_
    split
    · exact .pure _
    · exact .update (Update.storeChild_alters _ _)

theorem addUnderSplit_alters (split child : PackageId) (m : ModuleId) :
    (addUnderSplit split child m).Alters limit := by
  refine .within (.bind (.ask _) fun _ => .noteIf (.bind (.note _) fun _ =>
    .bind (enrich_alters _ _ _) fun _ => .bind (.ask _) fun _ =>
      .bind (combine_alters _ _ _) fun entry => .bind (.note _) fun _ => ?_))
  have hend (e : PackageId) : (do linkIncarnation split e; Pure.pure e).Alters limit :=
    .bind (linkIncarnation_alters _ _) fun _ => .pure _
  cases entry with
  | none => exact hend _
  | some ref => exact .bind (.update (Update.learn_alters _ _ _)) fun _ => hend _

theorem addChild_alters (parent child : PackageId) (m : ModuleId) :
    (addChild parent child m).Alters limit := by
  refine .bind (.ask _) fun r => ?_
  split
  · exact addUnderSplit_alters _ _ _
  · exact .bind (.update (Update.storeChild_alters _ _)) fun _ => .pure _

theorem strictInSplit_alters (split : PackageId) (record : Package) (name : String) :
    (strictInSplit split record name).Alters limit := by
  unfold strictInSplit
  split
  · exact .noteIf (.pure _)
  · refine .bind (.ask _) fun all => ?_
    split
    · exact .pure _
    refine .bind (combineAll_alters _ _) fun result => ?_
    split
    · exact .pure _
    · refine .bind (.note _) fun _ => .bind (.ask _) fun b => ?_
      have hend (entry : Ref) : (do
          Lookup.update (.setPackage split fun r =>
            (r.learn name entry).mapSplit fun s => { s with relaxed := s.relaxed.erase name })
          Pure.pure (some entry)).Alters limit :=
        .bind (.update (.setPackage
          (fun r => (Package.learn_alters _ _ r).trans (Package.mapMemo_alters _ _))
          fun _ _ r => (Package.learn_spares _ _ r).trans (Package.eraseMemo_spares _ _)))
          fun _ => .pure _
      split
      · exact .bind (.ask _) fun _ => .bind (noteAll_alters _) fun _ => hend _
      · exact hend _

theorem relaxedInSplit_alters (split : PackageId) (record : Package) (name : String) :
    (relaxedInSplit split record name).Alters none := by
  have hmerge (entries : List Ref) : (relaxedInSplit.merge split record name entries).Alters none :=
    .bind (combineAll_alters _ _) fun _ => .bind (.update (.setPackage (Package.mapMemo_alters _)
      fun _ hin => absurd hin (Option.not_mem_none _))) fun _ => .pure _
  unfold relaxedInSplit
  split
  · exact .pure _
  · refine .bind (.ask _) fun entries => ?_
    split
    · split
      · exact .pure _
      · exact hmerge _
    · exact hmerge _

theorem strict_alters (p : PackageId) (name : String) : (strict p name).Alters limit := by
  refine .bind (.ask _) fun r => ?_
  split
  · exact strictInSplit_alters _ _ _
  · exact .pure _

theorem relaxed_alters (p : PackageId) (name : String) : (relaxed p name).Alters none := by
  refine .bind (.ask _) fun r => ?_
  split
  · exact relaxedInSplit_alters _ _ _
  · exact .pure _

theorem remember_alters (m : ModuleId) (path : Path) (ref : Ref) :
    (remember m path ref).Alters limit :=
  .bind (.update (.remember m path ref)) fun _ => .pure _

theorem readableCandidates_alters (path : Path) :
    ∀ ms : List ModuleId, (readableCandidates path ms).Alters limit
  | [] => .pure _
  | m :: ms => by
    refine .bind (.ask _) fun own => ?_
    cases own with
    | none => exact readableCandidates_alters path ms
    | some p =>
      exact .bind (.note _) fun _ => .bind (readableCandidates_alters path ms) fun _ => .pure _

theorem combineVisible_alters (m : ModuleId) (path : Path) : (combineVisible m path).Alters limit :=
  .bind (.ask _) fun _ => .bind (.ask _) fun _ => .bind (readableCandidates_alters _ _) fun _ =>
    .bind (combineAll_alters _ _) fun _ => .bind (.note _) fun _ => .pure _

theorem viewBelow_alters (m : ModuleId) (path : Path) (parent : Option PackageId) :
    (viewBelow m path parent).Alters limit := by
  have howned : (viewBelow.owned m parent).Alters limit := by
    cases parent with
    | none => exact .pure _
    | some p =>
      refine .bind (.ask _) fun r => ?_
      split <;> exact .pure _
  refine .bind howned fun owner => ?_
  split
  · refine .bind (combineVisible_alters _ _) fun found => ?_
    split <;> exact remember_alters _ _ _
  · refine .bind (strict_alters _ _) fun known => ?_
    split
    · exact remember_alters _ _ _
    · refine .bind (combineVisible_alters _ _) fun found => ?_
      split
      · exact .bind (addChild_alters _ _ _) fun _ => remember_alters _ _ _
      · exact .bind (.update (Update.learn_alters _ _ _)) fun _ => remember_alters _ _ _

theorem view_alters (m : ModuleId) : ∀ path : Path, (view m path).Alters limit
  | .top name => by
    refine .bind (.ask _) fun record => ?_
    split
    · exact .pure _
    · exact viewBelow_alters _ _ _
  | .sub enclosing name => by
    refine .bind (.ask _) fun record => ?_
    split
    · exact .pure _
    · refine .bind (view_alters m enclosing) fun found => ?_
      split
      · exact remember_alters _ _ _
      · exact viewBelow_alters _ _ _

theorem contributions_alters (path : Path) :
    ∀ ms : List ModuleId, (contributions path ms).Alters limit
  | [] => .pure _
  | m :: ms => by
    refine .bind (view_alters m path) fun found => .bind (.note _) fun _ => ?_
    split
    · exact contributions_alters path ms
    · refine .bind (.ask _) fun r => ?_
      split
      · exact contributions_alters path ms
      · exact .bind (contributions_alters path ms) fun _ => .pure _

theorem mergeFound_alters (home : ModuleId) (ps : List PackageId) :
    (mergeFound home ps).Alters limit := by
  match ps with
  | [] => exact .pure _
  | [only] => exact .bind (.ask _) fun _ => .noteIf (.pure _)
  | first :: second :: rest =>
    exact newSplit_alters fun _ hn =>
      .bind (.update (Update.addAllToSplit_alters hn _)) fun _ => .pure _

theorem search_alters (split : PackageId) (name : String) (m : ModuleId) :
    (search split name m).Alters limit := by
  refine .within (.bind (.ask _) fun record => ?_)
  split
  · exact .bind (.note _) fun _ => .pure _
  refine .noteIf (.bind (.note _) fun _ => .bind (contributions_alters _ _) fun _ =>
    .bind (mergeFound_alters _ _) fun result => .bind (.note _) fun _ => ?_)
  cases result with
  | none => exact .bind (.update (Update.learn_alters _ _ _)) fun _ => .pure _
  | some found =>
    exact .bind (.ask _) fun _ => .noteIf (.noteIf
      (.bind (.map (addChild_alters _ _ _)) fun _ => .pure _))

theorem childOfPlain_alters (parent : PackageId) (record : Package) (name : String) (m : ModuleId) :
    (childOfPlain parent record name m).Alters limit := by
  unfold childOfPlain
  split
  · split
    · exact .pure _
    · refine .bind (view_alters _ _) fun found => .bind (.ask _) fun r => ?_
      split
      · split
        · exact .bind (.map (addChild_alters _ _ _)) fun _ => .pure _
        · exact .bind (.update (Update.learn_alters _ _ _)) fun _ => .pure _
      · exact .pure _
  · exact .bind (view_alters _ _) fun _ => .pure _

theorem child_alters (parent : PackageId) (name : String) (m : ModuleId) :
    (child parent name m).Alters limit := by
  refine .bind (.ask _) fun record => ?_
  split
  · exact .pure _
  · exact childOfPlain_alters _ _ _ _
  · refine .bind (strict_alters _ _) fun known => ?_
    split
    · exact .pure _
    · exact search_alters _ _ _

theorem resolve_alters (m : ModuleId) : ∀ path : Path, (resolve m path).Alters limit
  | .top name => .bind (view_alters _ _) fun _ => .pure _
  | .sub enclosing name => by
    refine .bind (resolve_alters m enclosing) fun found => ?_
    split
    · exact .pure _
    · exact child_alters _ _ _

theorem typeOf_alters (m : ModuleId) (p : PackageId) (name : String) :
    (typeOf m p name).Alters limit := by
  refine .bind (.ask _) fun found => ?_
  split
  · exact .pure _
  · exact .pure _
  · refine .bind (.ask _) fun r => ?_
    split
    · exact .pure _
    · refine .bind (.ask _) fun b => ?_
      split <;> exact .pure _

theorem resolveType_alters (m : ModuleId) (qualified : String) :
    (resolveType m qualified).Alters limit := by
  unfold resolveType
  split
  · exact .pure _
  · refine .bind (resolve_alters _ _) fun found => ?_
    split
    · exact .pure _
    · exact .bind (typeOf_alters _ _ _) fun _ => .pure _

theorem viewFor_alters (ignoreUnnamed : Bool) (p : PackageId) (client : ModuleId)
    (preferOwn : Bool) : (viewFor ignoreUnnamed p client preferOwn).Alters limit := by
  refine .bind (.ask _) fun record => ?_
  split
  · refine .bind (.ask _) fun o => ?_
    split
    · exact .pure _
    · exact .bind (.note _) fun _ => .pure _
  · exact .pure _

end Lookup

/-- Whether the request adds no memo, and no incarnation to a split that exists. -/
def Request.spares : Request → Bool
  | .relaxed .. | .addToSplit .. => false
  | _ => true

open Lookup in
/-- Whatever does not build the graph leaves it as it is. -/
theorem Request.run_alters (config : Config) {limit : Option Nat} {r : Request}
    (hb : r.builds = false) (hn : r.spares = true ∨ limit = none) :
    (r.run config).Alters limit := by
  cases r with
  | addModule | addRead | addTransitiveRead | addExport | declarePackage | declareProblem
    | declareType | markMissing => cases hb
  | view m path => exact .map (view_alters _ _)
  | child p m name => exact .map (child_alters _ _ _)
  | strict p name => exact .map (strict_alters _ _)
  | relaxed p name =>
    obtain rfl := hn.resolve_left Bool.false_ne_true
    exact .map (relaxed_alters _ _)
  | search p m name => exact .map (search_alters _ _ _)
  | addChild p below m => exact .map (addChild_alters _ _ _)
  | learnMissing p name => exact .map (.update (Update.learn_alters _ _ _))
  | combine candidate previous m => exact .map (combine_alters _ _ _)
  | combineAll candidates m => exact .map (combineAll_alters _ _)
  | addToSplit p other =>
    obtain rfl := hn.resolve_left Bool.false_ne_true
    exact .bind (.update (Update.addToSplit_alters (by simp) _)) fun _ =>
      .bind (.ask _) fun _ => .pure _
  | viewFor p client preferOwn => exact .map (viewFor_alters _ _ _ _)
  | resolve m path => exact .map (resolve_alters _ _)
  | resolveType m qualified => exact .map (resolveType_alters _ _)
  | exportsPackage | known | declaring => exact .bind (.ask _) fun _ => .pure _
  | moduleNamed name =>
    intro s a s' _ hr
    cases hr
    exact .refl
  | _ => exact .map (.ask _)

end SplitPackages
