import SplitPackages.Proofs.Requests

/-!
# Adding bindings to a split one after another

A plain binding adds itself to a split, another split its incarnations, and a
problem nothing. `Absorbs` is the exact effect of a list of such additions: the
parts that the split lacks come behind its incarnations, each at its first
occurrence, their modules behind its declaring modules, and each of them lists
the split among those around it. One more addition keeps it (`Absorbs.add`), so
a whole list has it (`addAll_absorbs`). What the list may hold is not restricted:
bindings may be repeated, overlap, or be the split itself.

In every state that requests reach, adding is therefore a union that does not
depend on the order and that does nothing a second time (`addAll_unites`).
-/

namespace SplitPackages

namespace Environment

/-- The effect of adding the bindings `bs` one after another to the split `split`, with the record
`rs` and the state `s`. Parts are plain in the end too, so that more can be added. -/
structure Absorbs (env : Environment) (split : PackageId) (rs : Package) (s : Split)
    (bs : List PackageId) (after : Environment) : Prop where
  wired : after.Wired
  modules : after.modules = env.modules
  types : after.types = env.types
  now : after.package split = .ok { rs with kind := .split { s with
    declaring := s.declaring.insertMany (bs.flatMap env.members)
    incarnations := s.incarnations.insertMany (bs.flatMap env.parts) } }
  others : ∀ {p}, p ≠ split → after.package p =
    if p ∈ s.incarnations.newIn (bs.flatMap env.parts) then Package.wrap split <$> env.package p
    else env.package p

variable {env mid after : Environment} {b i p split : PackageId} {m : ModuleId}
  {r rb rs : Package} {s : Split} {bs : List PackageId}

theorem mem_parts_of_split (hs : env.package split = .ok rs) (hk : rs.kind = .split s) :
    i ∈ env.parts split ↔ i ∈ s.incarnations := by
  rw [parts_of_package hs, OrderedSet.mem_def]
  simp only [Package.contributors, hk]

theorem mem_members_of_split (hs : env.package split = .ok rs) (hk : rs.kind = .split s) :
    m ∈ env.members split ↔ m ∈ s.declaring := by
  rw [members_of_package hs, OrderedSet.mem_def]
  simp only [Package.declaring, hk]

theorem Wired.plain_of_mem_parts (hw : env.Wired) (hi : i ∈ env.parts p) :
    ∃ r, env.package i = .ok r ∧ r.isPlain = true := by
  unfold parts at hi
  split at hi
  · next r hr => exact hw.plain_of_mem_contributors hr hi
  · cases hi

/-! ## One addition -/

/-- Environments with the same modules and types, and the same record for each binding, are the
same. -/
theorem eq_of_package (hmodules : after.modules = env.modules) (htypes : after.types = env.types)
    (h : ∀ p, after.package p = env.package p) : after = env := by
  have hpackages : after.packages = env.packages := by
    refine Array.ext_getElem? fun i => ?_
    have hi := h ⟨i⟩
    unfold package at hi
    cases ha : after.packages[i]? <;> cases he : env.packages[i]? <;> simp_all
  cases after
  cases env
  cases hmodules
  cases htypes
  cases hpackages
  rfl

theorem Joins.same {ro : Package} (h : env.Joins split b rs ro s after)
    (hparts : ∀ i ∈ ro.contributors b, i ∈ s.incarnations)
    (hmodules : ∀ m ∈ ro.declaring, m ∈ s.declaring) : after = env := by
  apply eq_of_package h.modules h.types
  intro p
  by_cases hne : p = split
  · rw [hne, h.now, h.target, OrderedSet.insertMany_of_subset hparts,
      OrderedSet.insertMany_of_subset hmodules, ← h.kind]
  · rw [h.others hne, OrderedSet.newIn_of_subset hparts, if_neg List.not_mem_nil]

namespace Absorbs

theorem refl (hw : env.Wired) (hs : env.package split = .ok rs) (hk : rs.kind = .split s) :
    env.Absorbs split rs s [] env where
  wired := hw
  modules := rfl
  types := rfl
  now := by
    rw [hs]
    simp only [List.flatMap_nil, OrderedSet.insertMany_nil, ← hk]
  others _ := by
    rw [List.flatMap_nil]
    rfl

theorem beside (h : env.Absorbs split rs s bs after) (hne : p ≠ split)
    (hp : env.package p = .ok r) :
    ∃ r', after.package p = .ok r' ∧ r'.unwrapped = r.unwrapped := by
  rw [h.others hne, hp]
  split
  · exact ⟨_, rfl, Package.unwrapped_mapPlain r _⟩
  · exact ⟨r, rfl, rfl⟩

theorem parts_beside (h : env.Absorbs split rs s bs after) (hne : p ≠ split)
    (hp : env.package p = .ok r) : ∃ r', after.package p = .ok r' ∧
      r'.contributors p = env.parts p ∧ r'.declaring = env.members p := by
  obtain ⟨r', hr', e⟩ := h.beside hne hp
  have e := Package.bare_eq_of_unwrapped e
  exact ⟨r', hr', contributors_of_bare hp e, declaring_of_bare hp e⟩

/-- The split itself counts as added: it has its own parts and modules. -/
theorem self (h : env.Absorbs split rs s bs after) (hs : env.package split = .ok rs)
    (hk : rs.kind = .split s) : env.Absorbs split rs s (bs ++ [split]) after := by
  have hold : ∀ i ∈ env.parts split, i ∈ s.incarnations.insertMany (bs.flatMap env.parts) :=
    fun i hi => OrderedSet.mem_insertMany.mpr (.inl ((mem_parts_of_split hs hk).mp hi))
  have hold' : ∀ m ∈ env.members split, m ∈ s.declaring.insertMany (bs.flatMap env.members) :=
    fun m hm => OrderedSet.mem_insertMany.mpr (.inl ((mem_members_of_split hs hk).mp hm))
  refine ⟨h.wired, h.modules, h.types, ?_, fun {p} hne => ?_⟩
  · rw [h.now]
    simp only [List.flatMap_append, List.flatMap_cons, List.flatMap_nil, List.append_nil,
      OrderedSet.insertMany_append, OrderedSet.insertMany_of_subset hold,
      OrderedSet.insertMany_of_subset hold']
  · rw [h.others hne]
    simp only [List.flatMap_append, List.flatMap_cons, List.flatMap_nil, List.append_nil,
      OrderedSet.newIn_append, OrderedSet.newIn_of_subset hold]

/-- What has been added, or is the split, adds nothing. -/
theorem again (h : env.Absorbs split rs s bs after) (hb : env.package b = .ok rb)
    (hin : b = split ∨ b ∈ bs) : Update.addToSplit split b after = .ok ((), after) := by
  -- what it is made of has arrived by now
  obtain ⟨ro, hro, hparts, hmodules⟩ : ∃ ro, after.package b = .ok ro ∧
      (∀ i ∈ ro.contributors b, i ∈ s.incarnations.insertMany (bs.flatMap env.parts)) ∧
      ∀ m ∈ ro.declaring, m ∈ s.declaring.insertMany (bs.flatMap env.members) := by
    by_cases hself : b = split
    · subst hself
      exact ⟨_, h.now, fun i hi => OrderedSet.mem_def.mpr hi, fun m hm => OrderedSet.mem_def.mpr hm⟩
    · have hin := hin.resolve_left hself
      obtain ⟨ro, hro, hparts, hmembers⟩ := h.parts_beside hself hb
      refine ⟨ro, hro, fun i hi => ?_, fun m hm => ?_⟩
      · exact OrderedSet.mem_insertMany.mpr (.inr (List.mem_flatMap.mpr ⟨b, hin, hparts ▸ hi⟩))
      · exact OrderedSet.mem_insertMany.mpr (.inr (List.mem_flatMap.mpr ⟨b, hin, hmembers ▸ hm⟩))
  obtain ⟨last, hlast, hj⟩ := h.wired.joins h.now rfl hro
  rw [hj.same hparts hmodules] at hlast
  exact hlast

theorem add (h : env.Absorbs split rs s bs mid) (hs : env.package split = .ok rs)
    (hk : rs.kind = .split s) (hb : env.package b = .ok rb) :
    ∃ after, Update.addToSplit split b mid = .ok ((), after) ∧
      env.Absorbs split rs s (bs ++ [b]) after := by
  by_cases hself : b = split
  · subst hself
    exact ⟨mid, h.again hb (.inl rfl), h.self hs hk⟩
  · obtain ⟨ro, hro, hparts, hmembers⟩ := h.parts_beside hself hb
    obtain ⟨after, hafter, hj⟩ := h.wired.joins h.now rfl hro
    refine ⟨after, hafter, hj.wired h.wired, hj.modules.trans h.modules, hj.types.trans h.types, ?_,
      fun {p} hne => ?_⟩
    · rw [hj.now, hparts, hmembers]
      simp only [← OrderedSet.insertMany_append, List.flatMap_append, List.flatMap_cons,
        List.flatMap_nil, List.append_nil]
    · rw [hj.others hne, h.others hne, hparts]
      simp only [List.flatMap_append, List.flatMap_cons, List.flatMap_nil, List.append_nil,
        OrderedSet.newIn_append, List.mem_append]
      by_cases hold : p ∈ s.incarnations.newIn (bs.flatMap env.parts)
      · have hnew : p ∉ (s.incarnations.insertMany (bs.flatMap env.parts)).newIn (env.parts b) := by
          intro hnew
          exact (OrderedSet.mem_newIn.mp hnew).1
            (OrderedSet.mem_insertMany.mpr (.inr (OrderedSet.mem_of_mem_newIn hold)))
        rw [if_neg hnew, if_pos hold, if_pos (.inl hold)]
      · simp only [hold, false_or, if_false]

end Absorbs

/-! ## A list of additions -/

theorem addAll_absorbs (hs : env.package split = .ok rs) (hk : rs.kind = .split s) :
    ∀ (cs : List PackageId) {bs : List PackageId} {mid : Environment},
    env.Absorbs split rs s bs mid → (∀ c ∈ cs, ∃ r, env.package c = .ok r) →
    ∃ after, Update.addAllToSplit split cs mid = .ok ((), after) ∧
      env.Absorbs split rs s (bs ++ cs) after
  | [], bs, mid, h, _ => ⟨mid, rfl, by rwa [List.append_nil]⟩
  | c :: cs, bs, mid, h, hcs => by
    obtain ⟨rc, hrc⟩ := hcs c List.mem_cons_self
    obtain ⟨next, hnext, h1⟩ := h.add hs hk hrc
    obtain ⟨after, hafter, h2⟩ :=
      addAll_absorbs hs hk cs h1 fun b hb => hcs b (List.mem_cons_of_mem _ hb)
    refine ⟨after, Update.bind_ok hnext hafter, ?_⟩
    rwa [List.append_assoc] at h2

theorem addAll_same (hs : env.package split = .ok rs) (hno : rs.isSplit = false) :
    ∀ bs : List PackageId, (∀ b ∈ bs, ∃ r, env.package b = .ok r) →
      Update.addAllToSplit split bs env = .ok ((), env)
  | [], _ => rfl
  | b :: bs, h => by
    obtain ⟨rb, hrb⟩ := h b List.mem_cons_self
    exact Update.bind_ok (addToSplit_same hs hno hrb)
      (addAll_same hs hno bs fun c hc => h c (List.mem_cons_of_mem _ hc))

/-- What adding the bindings `bs` to the split with the record `rs` and the state `s` comes to: its
incarnations become the union of its own and the parts of the bindings. -/
structure Accumulates (env : Environment) (split : PackageId) (rs : Package) (s : Split)
    (bs : List PackageId) (after : Environment) : Prop where
  /-- The old incarnations, then the new ones, each where it occurs first. -/
  incarnations : after.incarnationsOf split =
    env.incarnationsOf split ++ s.incarnations.newIn (bs.flatMap env.parts)
  /-- The record of the split changes in its two collections only. -/
  target : ∃ declaring incarnations, after.package split =
    .ok { rs with kind := .split { s with declaring := declaring, incarnations := incarnations } }
  /-- A new incarnation changes only in the splits around it, which the split is added to. -/
  added : ∀ i ∈ s.incarnations.newIn (bs.flatMap env.parts), ∃ r plain wrappers,
    env.package i = .ok r ∧ r.kind = .plain plain ∧
      wrappers.toList = plain.wrappedBy.toList ++ [split] ∧
      after.package i = .ok { r with kind := .plain { plain with wrappedBy := wrappers } }
  others : ∀ p, p ≠ split → p ∉ s.incarnations.newIn (bs.flatMap env.parts) →
    after.package p = env.package p
  modules : after.modules = env.modules
  types : after.types = env.types
  again : ∀ b ∈ bs, Update.addToSplit split b after = .ok ((), after)
  reordered : ∀ bs', bs.Perm bs' →
    ∃ after', Update.addAllToSplit split bs' env = .ok ((), after') ∧
      (∀ i, i ∈ after'.incarnationsOf split ↔ i ∈ after.incarnationsOf split) ∧
      ∀ m, m ∈ after'.members split ↔ m ∈ after.members split

namespace Absorbs

theorem incarnationsOf (h : env.Absorbs split rs s bs after) :
    after.incarnationsOf split = (s.incarnations.insertMany (bs.flatMap env.parts)).toList :=
  incarnationsOf_of_package h.now

theorem members (h : env.Absorbs split rs s bs after) :
    after.members split = (s.declaring.insertMany (bs.flatMap env.members)).toList :=
  members_of_package h.now

/-- A new incarnation was not around the split before, nor the split around it. -/
theorem added (h : env.Absorbs split rs s bs after) (hw : env.Wired)
    (hs : env.package split = .ok rs) (hk : rs.kind = .split s)
    (hi : i ∈ s.incarnations.newIn (bs.flatMap env.parts)) : ∃ r plain wrappers,
      env.package i = .ok r ∧ r.kind = .plain plain ∧
        wrappers.toList = plain.wrappedBy.toList ++ [split] ∧
        after.package i = .ok { r with kind := .plain { plain with wrappedBy := wrappers } } := by
  obtain ⟨hnew, hin⟩ := OrderedSet.mem_newIn.mp hi
  obtain ⟨b, -, hb⟩ := List.mem_flatMap.mp hin
  obtain ⟨r, hr, hplain⟩ := hw.plain_of_mem_parts hb
  obtain ⟨plain, hkr⟩ := Package.kind_of_isPlain hplain
  have hne : i ≠ split := by
    rintro rfl
    cases package_unique hs hr
    rw [hk] at hkr
    cases hkr
  have hout : split ∉ plain.wrappedBy.toList := by
    intro hmem
    have hwrap : split ∈ env.wrappersOf i := by
      simpa only [wrappersOf_of_package hr, Package.wrappedBy, hkr] using hmem
    have hinc := (hw.wrapped split i).mp hwrap
    rw [incarnationsOf_of_package hs] at hinc
    simp only [Package.incarnations, hk] at hinc
    exact hnew hinc
  refine ⟨r, plain, plain.wrappedBy.insert split, hr, hkr, ?_, ?_⟩
  · rw [OrderedSet.toList_insert, if_neg hout]
  · rw [h.others hne, if_pos hi, hr]
    show Except.ok (r.wrap split) = _
    simp only [Package.wrap, Package.mapPlain, hkr]

theorem accumulates (h : env.Absorbs split rs s bs after) (hw : env.Wired)
    (hs : env.package split = .ok rs) (hk : rs.kind = .split s)
    (hbs : ∀ b ∈ bs, ∃ r, env.package b = .ok r) : env.Accumulates split rs s bs after where
  incarnations := by
    rw [h.incarnationsOf, OrderedSet.toList_insertMany, incarnationsOf_of_package hs]
    simp only [Package.incarnations, hk]
  target := ⟨_, _, h.now⟩
  added i hi := h.added hw hs hk hi
  others p hne hout := by rw [h.others hne, if_neg hout]
  modules := h.modules
  types := h.types
  again b hb := by
    obtain ⟨rb, hrb⟩ := hbs b hb
    exact h.again hrb (.inr hb)
  reordered bs' hperm := by
    obtain ⟨after', hafter', h'⟩ := addAll_absorbs hs hk bs' (.refl hw hs hk)
      fun b hb => hbs b (hperm.mem_iff.mpr hb)
    rw [List.nil_append] at h'
    refine ⟨after', hafter', fun i => ?_, fun m => ?_⟩
    · rw [h.incarnationsOf, h'.incarnationsOf, ← OrderedSet.mem_def, ← OrderedSet.mem_def,
        OrderedSet.mem_insertMany, OrderedSet.mem_insertMany, (hperm.flatMap_right _).mem_iff]
    · rw [h.members, h'.members, ← OrderedSet.mem_def, ← OrderedSet.mem_def,
        OrderedSet.mem_insertMany, OrderedSet.mem_insertMany, (hperm.flatMap_right _).mem_iff]

end Absorbs

/-- In every state that requests reach, adding any bindings to a split one after another makes the
union of their parts with its own, and adding them to a binding of another kind does nothing. -/
theorem addAll_unites {config : Config} (h : Environment.empty.Reaches config (fun _ => true) env)
    (hs : env.package split = .ok rs) (hbs : ∀ b ∈ bs, b.index < env.packages.size) :
    ∃ after, Update.addAllToSplit split bs env = .ok ((), after) ∧
      (rs.isSplit = false → after = env) ∧
      ∀ s, rs.kind = .split s → env.Accumulates split rs s bs after := by
  have hw := (h.orderly (orderly_empty .free)).wired
  have hbs : ∀ b ∈ bs, ∃ r, env.package b = .ok r := fun b hb => package_of_lt_size (hbs b hb)
  cases hsplit : rs.isSplit with
  | false =>
    refine ⟨env, addAll_same hs hsplit bs hbs, fun _ => rfl, fun s hk => ?_⟩
    rw [Package.isSplit_of_kind hk] at hsplit
    cases hsplit
  | true =>
    obtain ⟨s, hk⟩ := Package.kind_of_isSplit hsplit
    obtain ⟨after, hafter, h⟩ := addAll_absorbs hs hk bs (.refl hw hs hk) hbs
    refine ⟨after, hafter, Bool.noConfusion, fun s' hk' => ?_⟩
    cases hk.symm.trans hk'
    exact h.accumulates hw hs hk hbs

/-- Four modules have a package, the third of them a problem, and two of its splits overlap. -/
def overlapping : List Request :=
  [.addModule "a" false, .addModule "b" false, .addModule "c" false, .addModule "d" false,
    .declarePackage ⟨0⟩ (.top "foo"), .declarePackage ⟨1⟩ (.top "foo"),
    .declareProblem ⟨2⟩ (.top "foo"), .declarePackage ⟨3⟩ (.top "foo"),
    .declarePackage ⟨3⟩ (.top "bar"), .combine (some (.package ⟨1⟩)) (some (.package ⟨0⟩)) ⟨0⟩,
    .combine (some (.package ⟨3⟩)) (some (.package ⟨1⟩)) ⟨0⟩]

/-- The problem, the other split, the split itself, a package of another path, and once more the
other split. -/
def additions : List PackageId := [⟨2⟩, ⟨6⟩, ⟨5⟩, ⟨4⟩, ⟨6⟩]

theorem addAll_unites_overlapping :
    ∃ env rs s after, Environment.empty.Reaches .standard (fun _ => true) env ∧
      env.package ⟨5⟩ = .ok rs ∧ (∀ b ∈ additions, b.index < env.packages.size) ∧
      rs.kind = .split s ∧ Update.addAllToSplit ⟨5⟩ additions env = .ok ((), after) ∧
      env.Accumulates ⟨5⟩ rs s additions after ∧
      after.incarnationsOf ⟨5⟩ = [⟨0⟩, ⟨1⟩] ++ [⟨3⟩, ⟨4⟩] := by
  have hrun : (replay .standard (fun _ => true) overlapping .empty).any (fun env =>
      (∀ b ∈ additions, b.index < env.packages.size) ∧ env.incarnationsOf ⟨5⟩ = [⟨0⟩, ⟨1⟩] ∧
      (env.package ⟨5⟩).toOption.any (fun rs => rs.split?.any fun s =>
        s.incarnations.newIn (additions.flatMap env.parts) = [⟨3⟩, ⟨4⟩])) = true := by
    decide +kernel
  obtain ⟨env, henv, hall⟩ := (Option.any_eq_true _ _).mp hrun
  obtain ⟨hbs, hold, hany⟩ := of_decide_eq_true hall
  obtain ⟨rs, hrs, hany⟩ := (Option.any_eq_true _ _).mp hany
  obtain ⟨s, hsplit, hnew⟩ := (Option.any_eq_true _ _).mp hany
  have hs := package_of_toOption hrs
  have hk := Package.kind_of_split? hsplit
  have hreach := reaches_of_replay henv
  obtain ⟨after, hafter, -, hunion⟩ := addAll_unites hreach hs hbs
  have hincs := (hunion s hk).incarnations
  rw [hold, of_decide_eq_true hnew] at hincs
  exact ⟨env, rs, s, after, hreach, hs, hbs, hk, hafter, hunion s hk, hincs⟩

end Environment

end SplitPackages
