import SplitPackages.Proofs.Combination
import SplitPackages.Proofs.OrderlyState

/-!
# Pooling bindings in splits

`Pools env d path ps split after`: from `env` a split of the path was made that
has the parts of the bindings `ps` among its incarnations. It may be stored if
the bindings make up two incarnations (`Pools.fits_of_split`,
`Pools.fits_of_plain`), and a problem binding contributes none. So each place
that makes a split has its own reason why the result fits: `combine` finds that
neither of two valid bindings subsumes the other, and `combineAll` peels a split
that has one incarnation only.
-/

namespace SplitPackages

open Environment

namespace Environment

structure Pools (env : Environment) (d : Discipline) (path : Path) (ps : List PackageId)
    (split : PackageId) (after : Environment) : Prop where
  stores : env.Stores d none after
  record : ∃ r, after.package split = .ok r ∧ r.isSplit = true ∧ (d.paths → r.path = path)
  parts : ∀ p ∈ ps, ∀ i ∈ env.parts p, i ∈ after.incarnationsOf split

variable {env mid after : Environment} {d : Discipline} {p q split : PackageId} {m : ModuleId}
  {r rp rq : Package} {path : Path} {ps qs : List PackageId} {c : Option Ref}

/-- Two incarnations are enough. -/
theorem full_of_subset {l : List PackageId} (hnd : l.Nodup)
    (hsub : ∀ i ∈ l, i ∈ after.incarnationsOf split) (hl : 2 ≤ l.length) : after.Full split := by
  intro r hr _
  exact two_le_length_of_subset hnd (fun i hi => incarnationsOf_of_package hr ▸ hsub i hi) hl

namespace Pools

theorem add (h : env.Pools d path ps split mid) (hq : env.Fits d path q) :
    ∃ after, Update.addToSplit split q mid = .ok ((), after) ∧
      env.Pools d path (ps ++ [q]) split after := by
  obtain ⟨rs, hrs, hs, hpath⟩ := h.record
  obtain ⟨s, hk⟩ := Package.kind_of_isSplit hs
  obtain ⟨rq, hrq, hpathq, -⟩ := hq.later h.stores.advances
  obtain ⟨after, hafter, hj⟩ := h.stores.orderly.wired.joins hrs hk hrq
  have hst := hj.stores h.stores.orderly fun hd => (hpathq hd).trans (hpath hd).symm
  refine ⟨after, hafter, h.stores.trans hst, ?_, fun p hp i hi => ?_⟩
  · obtain ⟨rs', hrs', e, -⟩ := hj.package hrs
    exact ⟨rs', hrs', e.isSplit.trans hs, fun hd => e.path.trans (hpath hd)⟩
  · rw [hj.mem_incarnationsOf]
    rcases List.mem_append.mp hp with hp | hp
    · exact .inl (h.parts p hp i hi)
    · rw [List.mem_singleton.mp hp] at hi
      exact .inr (parts_of_package hrq ▸ h.stores.advances.parts i hi)

theorem addAll : ∀ (qs : List PackageId) {ps : List PackageId} {mid : Environment},
    env.Pools d path ps split mid → env.AllFit d path qs →
    ∃ after, Update.addAllToSplit split qs mid = .ok ((), after) ∧
      env.Pools d path (ps ++ qs) split after
  | [], ps, mid, h, _ => ⟨mid, rfl, by rwa [List.append_nil]⟩
  | q :: qs, ps, mid, h, hqs => by
    obtain ⟨next, hnext, h1⟩ := h.add (hqs q List.mem_cons_self)
    obtain ⟨after, hafter, h2⟩ := addAll qs h1 fun p hp => hqs p (List.mem_cons_of_mem _ hp)
    refine ⟨after, Update.bind_ok hnext hafter, ?_⟩
    rwa [List.append_assoc] at h2

/-! ## What fits -/

theorem fits (h : env.Pools d path ps split after)
    (hfull : d.full → after.Full split ∨ after.Hollow) : after.Fits d path split := by
  obtain ⟨r, hr, -, hpath⟩ := h.record
  exact ⟨r, hr, hpath, hfull⟩

/-- A split that fits brings its own incarnations. -/
theorem fits_of_split (h : env.Pools d path ps split after) (hp : p ∈ ps)
    (hf : env.Fits d path p) (hr : env.package p = .ok r) (hs : r.isSplit = true) :
    after.Fits d path split := by
  refine h.fits fun hd => ?_
  obtain ⟨r', hr', -, hfull⟩ := hf
  cases package_unique hr hr'
  refine (hfull hd).imp (fun hfull => ?_) h.stores.advances.hollow
  refine full_of_subset r.incarnations_nodup (fun i hi => h.parts p hp i ?_) (hfull r hr hs)
  rwa [parts_of_package hr, Package.contributors_of_isSplit hs]

theorem mem_of_plain (h : env.Pools d path ps split after) (hp : p ∈ ps)
    (hr : env.package p = .ok r) (hpl : r.isPlain = true) : p ∈ after.incarnationsOf split := by
  refine h.parts p hp p ?_
  rw [parts_of_package hr, Package.contributors_of_isPlain hpl]
  exact List.mem_singleton_self p

/-- Two plain bindings are two incarnations. -/
theorem fits_of_plain (h : env.Pools d path ps split after) (hp : p ∈ ps) (hq : q ∈ ps)
    (hne : p ≠ q) (hrp : env.package p = .ok rp) (hrq : env.package q = .ok rq)
    (hpl : rp.isPlain = true) (hql : rq.isPlain = true) : after.Fits d path split := by
  refine h.fits fun _ => .inl (full_of_subset (l := [p, q]) ?_ ?_ (Nat.le_refl 2))
  · simpa using hne
  · intro i hi
    rcases List.mem_cons.mp hi with rfl | hi
    · exact h.mem_of_plain hp hrp hpl
    · rw [List.mem_singleton.mp hi]
      exact h.mem_of_plain hq hrq hql

/-- A split that has a valid binding in it, and not just one incarnation, has several. -/
theorem fits_of_valid (h : env.Pools d path ps split after) (hp : p ∈ ps) (hf : env.Fits d path p)
    (hr : env.package p = .ok r) (hv : r.isValid = true)
    (hmany : ∀ i, after.incarnationsOf split ≠ [i]) : after.Fits d path split := by
  by_cases hs : r.isSplit = true
  · exact h.fits_of_split hp hf hr hs
  · have hin := h.mem_of_plain hp hr (Package.isPlain_of_isValid hv (by simpa using hs))
    refine h.fits fun _ => .inl fun r' hr' _ => ?_
    rw [incarnationsOf_of_package hr'] at hin hmany
    cases hl : r'.incarnations with
    | nil =>
      rw [hl] at hin
      cases hin
    | cons i rest =>
      cases rest with
      | nil => exact absurd hl (hmany i)
      | cons j rest => simp

/-- Several different bindings that members of a split see make a split that fits: if none of them
is a split, and there are not two plain ones, the split they are found below is hollow. -/
theorem fits_of_seen {c : PackageId} {name : String}
    (h : env.Pools d (.sub r.path name) ps split after) (hr : env.package c = .ok r)
    (hs : r.isSplit = true) (hnd : ps.Nodup) (hlen : 2 ≤ ps.length)
    (hseen : ∀ p ∈ ps, ∃ k ∈ r.declaring, env.seen k (.sub r.path name) = some (.package p))
    (hf : env.AllFit d (.sub r.path name) ps) : after.Fits d (.sub r.path name) split := by
  by_cases hsplit : ∃ p ∈ ps, ∃ rp, env.package p = .ok rp ∧ rp.isSplit = true
  · obtain ⟨p, hp, rp, hrp, hsp⟩ := hsplit
    exact h.fits_of_split hp (hf p hp) hrp hsp
  · have hsingle {p : PackageId} {rp : Package} (hp : p ∈ ps) (hrp : env.package p = .ok rp) :
        rp.isSplit = false := by
      rw [Bool.eq_false_iff]
      exact fun hsp => hsplit ⟨p, hp, rp, hrp, hsp⟩
    obtain ⟨a, b, rest, rfl⟩ : ∃ a b rest, ps = a :: b :: rest := by
      match ps, hlen with
      | a :: b :: rest, _ => exact ⟨a, b, rest, rfl⟩
    have ha : a ∈ a :: b :: rest := List.mem_cons_self
    have hb : b ∈ a :: b :: rest := List.mem_cons_of_mem _ List.mem_cons_self
    have hne : a ≠ b := by
      rintro rfl
      exact (List.nodup_cons.mp hnd).1 List.mem_cons_self
    obtain ⟨ra, hra, -⟩ := hf a ha
    obtain ⟨rb, hrb, -⟩ := hf b hb
    obtain ⟨k, hk, hsa⟩ := hseen a ha
    obtain ⟨k', hk', hsb⟩ := hseen b hb
    have hhollow (hh : env.Hollow) : after.Fits d (.sub r.path name) split :=
      h.fits fun _ => .inr (h.stores.advances.hollow hh)
    cases hva : ra.isValid with
    | false => exact hhollow ⟨c, r, name, hr, hs, k, hk, k', hk', a, b, ra, rb, hsa, hsb, hne, hra, hva,
        hrb, hsingle hb hrb⟩
    | true =>
      cases hvb : rb.isValid with
      | false => exact hhollow ⟨c, r, name, hr, hs, k', hk', k, hk, b, a, rb, ra, hsb, hsa, hne.symm,
          hrb, hvb, hra, hsingle ha hra⟩
      | true =>
        exact h.fits_of_plain ha hb hne hra hrb (Package.isPlain_of_isValid hva (hsingle ha hra))
          (Package.isPlain_of_isValid hvb (hsingle hb hrb))

end Pools

/-! ## Candidates -/

theorem AllFit.there {ps : List PackageId} (h : env.AllFit d path ps) :
    ∀ p ∈ ps, ∃ r, env.package p = .ok r :=
  fun p hp => (h p hp).imp fun _ => And.left

theorem AllFit.mono {cs cs' : List (Option Ref)} (h : env.AllFit d path (bindings cs))
    (hsub : ∀ c ∈ cs', c ∈ cs) : env.AllFit d path (bindings cs') :=
  fun p hp => h p (mem_bindings.mpr (hsub _ (mem_bindings.mp hp)))

theorem allFit_singleton : env.AllFit d path (bindings [some (.package p)]) ↔ env.Fits d path p := by
  simp [AllFit, bindings, Ref.package?]

/-- A binding that is not a split subsumes itself only. -/
theorem ne_of_subsumes (h : env.subsumes p q = .ok false) (hr : env.package p = .ok r)
    (hs : r.isSplit = false) : p ≠ q := by
  simp only [subsumes, hr, bind, Except.bind] at h
  split at h
  · next s hk =>
    rw [Package.isSplit_of_kind hk] at hs
    cases hs
  · rintro rfl
    simp [pure, Except.pure] at h

end Environment

namespace Lookup

variable {env mid after : Environment} {d : Discipline} {p q : PackageId} {m : ModuleId}
  {r : Package} {path : Path} {ps : List PackageId}

/-- A new split in the place of a binding takes it up. -/
theorem allot_pools (ho : env.Orderly d) (hm : ∃ record, env.module m = .ok record)
    (hf : env.Fits d path p) (hr : env.package p = .ok r) :
    ∃ after, Update.addToSplit ⟨env.packages.size⟩ p { env with
        packages := env.packages.push (.fresh r.path r.parent m (.split .empty)) } =
      .ok ((), after) ∧ env.Pools d path [p] ⟨env.packages.size⟩ after := by
  have hst := allot_stores ho hr hm
  let fresh : Package := .fresh r.path r.parent m (.split .empty)
  let mid : Environment := { env with packages := env.packages.push fresh }
  have hpool : env.Pools d path [] ⟨env.packages.size⟩ mid := by
    have hpath : d.paths → r.path = path := hf.path_eq hr
    refine ⟨hst, ⟨fresh, ?_, rfl, hpath⟩, fun p hp => absurd hp List.not_mem_nil⟩
    rw [package_push, if_pos rfl]
  exact hpool.add hf

theorem newSplit_pools (ho : env.Orderly d) (hm : ∃ record, env.module m = .ok record)
    (hf : env.Fits d path p) :
    (newSplit p m).Allows env fun split after => env.Pools d path [p] split after := by
  obtain ⟨r, hr, -⟩ := id hf
  obtain ⟨after, hafter, h⟩ := allot_pools ho hm hf hr
  have hadd : Update.addPackage (.fresh r.path r.parent m (.split .empty)) env =
    .ok (⟨env.packages.size⟩, _) := rfl
  exact Allows.step (.ask hr) (Allows.step (.update hadd) (Allows.step (.update hafter)
    (Allows.step (.announce _ _) (Allows.pure h))))

theorem peel_fits (h : env.Pools d path ps p mid) (hp : q ∈ ps) (hf : env.Fits d path q)
    (hr : env.package q = .ok r) (hv : r.isValid = true) :
    (peel p).Allows mid fun result after => after = mid ∧ mid.Fits d path result := by
  obtain ⟨rs, hrs, hs, hpath⟩ := h.record
  obtain ⟨s, hk⟩ := Package.kind_of_isSplit hs
  have hincs : mid.incarnationsOf p = s.incarnations.toList := by
    rw [incarnationsOf_of_package hrs]
    simp only [Package.incarnations, hk]
  refine Allows.step (.ask hrs) ?_
  simp only [Package.split?, hk]
  split
  · next only honly =>
    refine Allows.note (Allows.pure ⟨rfl, ?_⟩)
    refine (h.stores.orderly.fits_contributor hrs (i := only) ?_).cast hpath
    rw [Package.contributors_of_isSplit hs, ← incarnationsOf_of_package hrs, hincs, honly]
    exact List.mem_singleton_self only
  · next hmany =>
    refine Allows.pure ⟨rfl, h.fits_of_valid hp hf hr hv fun i e => hmany i ?_⟩
    rw [← hincs, e]

theorem gather_stores (ho : env.Orderly d) (hm : ∃ record, env.module m = .ok record)
    (hps : env.AllFit d path (p :: ps)) (hr : env.package p = .ok r) (hv : r.isValid = true) :
    (gather p ps m).Allows env fun result after =>
      env.Stores d none after ∧ after.Fits d path result := by
  have hp := hps p List.mem_cons_self
  refine Allows.bind (newSplit_pools ho hm hp) fun split mid h => ?_
  obtain ⟨next, hnext, h⟩ := h.addAll ps fun q hq => hps q (List.mem_cons_of_mem _ hq)
  refine Allows.step (.update hnext) ((peel_fits h List.mem_cons_self hp hr hv).mono ?_)
  rintro result _ ⟨rfl, hf⟩
  exact ⟨h.stores, hf⟩

theorem combineAll_stores (ho : env.Orderly d) (hm : ∃ record, env.module m = .ok record)
    {cs : List (Option Ref)} (hf : env.AllFit d path (bindings cs)) :
    (combineAll cs m).Allows env fun result after =>
      env.Stores d none after ∧ after.AllFit d path (bindings [result]) := by
  refine Allows.within (Allows.note (Allows.step (.ask (rankAll_graded hf.there)) ?_))
  have hmem {c : Option Ref} (hc : c ∈ ofRank (bestRank (env.graded cs)) (env.graded cs)) :=
    mem_ofRank_graded hc
  dsimp only
  split
  · exact Allows.pure ⟨ho.stores, by simp [AllFit, bindings]⟩
  · next first second rest hbest heq =>
    rw [heq, hbest] at hmem
    split
    · exact Allows.pure ⟨ho.stores, by simp [AllFit, bindings]⟩
    · next p ps hps =>
      have hin (q : PackageId) (hq : q ∈ p :: ps) := hmem (mem_bindings.mp (hps ▸ hq))
      obtain ⟨_, ⟨⟩, hv⟩ := eq_package_of_grade (hin p List.mem_cons_self).2
      have hall : env.AllFit d path (p :: ps) := fun q hq => hf q (mem_bindings.mpr (hin q hq).1)
      obtain ⟨r, hr⟩ := hall.there p List.mem_cons_self
      rw [valid_of_package hr] at hv
      refine Allows.bind (gather_stores ho hm hall hr hv) fun result after h => ?_
      exact Allows.note (Allows.pure ⟨h.1, allFit_singleton.mpr h.2⟩)
  · next first rest heq _ =>
    refine Allows.note (Allows.pure ⟨ho.stores, hf.mono fun c hc => ?_⟩)
    rw [List.mem_singleton.mp hc]
    exact (hmem (heq ▸ List.mem_cons_self)).1

/-- Two valid bindings neither of which subsumes the other are at least two incarnations. -/
theorem join_stores (ho : env.Orderly d) (hm : ∃ record, env.module m = .ok record)
    {cur prev : PackageId} {rcur rprev : Package} (hcur : env.Fits d path cur)
    (hprev : env.Fits d path prev) (hrcur : env.package cur = .ok rcur)
    (hrprev : env.package prev = .ok rprev) (hvcur : rcur.isValid = true)
    (hvprev : rprev.isValid = true) (hsub : env.subsumes prev cur = .ok false) :
    (do
      let split ← newSplit prev m
      update (.addToSplit split cur)
      note (.splitMade split)
      return some (Ref.package split)).Allows env fun result after =>
        env.Stores d none after ∧ after.AllFit d path (bindings [result]) := by
  refine Allows.bind (newSplit_pools ho hm hprev) fun split mid h => ?_
  obtain ⟨after, hafter, h⟩ := h.add hcur
  refine Allows.step (.update hafter) (Allows.note (Allows.pure ⟨h.stores, ?_⟩))
  rw [allFit_singleton]
  have hinp : prev ∈ [prev] ++ [cur] := List.mem_cons_self
  have hinc : cur ∈ [prev] ++ [cur] := List.mem_cons_of_mem _ List.mem_cons_self
  by_cases hsp : rprev.isSplit = true
  · exact h.fits_of_split hinp hprev hrprev hsp
  · by_cases hsc : rcur.isSplit = true
    · exact h.fits_of_split hinc hcur hrcur hsc
    · simp only [Bool.not_eq_true] at hsp hsc
      exact h.fits_of_plain hinp hinc (ne_of_subsumes hsub hrprev hsp) hrprev hrcur
        (Package.isPlain_of_isValid hvprev hsp) (Package.isPlain_of_isValid hvcur hsc)

theorem combine_stores (ho : env.Orderly d) (hm : ∃ record, env.module m = .ok record)
    {candidate previous : Option Ref} (hf : env.AllFit d path (bindings [candidate, previous])) :
    (combine candidate previous m).Allows env fun result after =>
      env.Stores d none after ∧ after.AllFit d path (bindings [result]) := by
  have hcand : env.AllFit d path (bindings [candidate]) := hf.mono (by simp)
  have hprev : env.AllFit d path (bindings [previous]) := hf.mono (by simp)
  refine Allows.step (.ask (rank_of_mem hf.there (by simp))) ?_
  refine Allows.step (.ask (rank_of_mem hf.there (by simp))) ?_
  split
  · exact Allows.pure ⟨ho.stores, hcand⟩
  split
  · exact Allows.pure ⟨ho.stores, hprev⟩
  next hle hge =>
  split
  · next prev cur hnow =>
    rw [hnow] at hle
    obtain ⟨_, ⟨⟩, hvcur⟩ := eq_package_of_grade hnow
    obtain ⟨_, ⟨⟩, hvprev⟩ := eq_package_of_grade (eq_valid_of_le (Nat.le_of_not_lt hle))
    obtain ⟨rcur, hrcur⟩ := hcand.there cur List.mem_cons_self
    obtain ⟨rprev, hrprev⟩ := hprev.there prev List.mem_cons_self
    rw [valid_of_package hrcur] at hvcur
    rw [valid_of_package hrprev] at hvprev
    refine Allows.ask fun b hb => ?_
    cases b with
    | true => exact Allows.pure ⟨ho.stores, hprev⟩
    | false =>
      refine Allows.ask fun b' _ => ?_
      cases b' with
      | true => exact Allows.pure ⟨ho.stores, hcand⟩
      | false =>
        exact Allows.within (Allows.note (join_stores ho hm (allFit_singleton.mp hcand)
          (allFit_singleton.mp hprev) hrcur hrprev hvcur hvprev hb))
  · exact Allows.pure ⟨ho.stores, hprev⟩

end Lookup

end SplitPackages
