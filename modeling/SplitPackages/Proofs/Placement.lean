import SplitPackages.Proofs.Requests

/-!
# Where bindings are found

Identifiers of bindings are kept in five places: below bindings, in the memos of
splits, among the declarations of a module, in its view, and among the
incarnations of a split. `PathCoherent` says that each of them holds bindings of
the path it stands for, that every record hangs below a binding of the enclosing
path that is not a split, and that a module that sees a package sees one at every
enclosing path. It holds in every state that requests reach which respect paths
(`pathCoherent_of_develops`).
-/

namespace SplitPackages.Environment

structure PathCoherent (env : Environment) : Prop where
  entry : ∀ {p r name q}, env.package p = .ok r → r.known.get? name = some (.package q) →
    env.Binds q (.sub r.path name)
  /-- The entries that a relaxed lookup has combined. -/
  merged : ∀ {p r name refs result q}, env.package p = .ok r →
    r.memo name = some (refs, result) → .package q ∈ refs → env.Binds q (.sub r.path name)
  memo : ∀ {p r name refs q}, env.package p = .ok r →
    r.memo name = some (refs, some (.package q)) → env.Binds q (.sub r.path name)
  declared : ∀ {m path p}, env.declared m path = .ok (some p) → env.Binds p path
  seen : ∀ {m path q}, env.seen m path = some (.package q) → env.Binds q path
  incarnation : ∀ {s rs i}, env.package s = .ok rs → i ∈ rs.incarnations → env.Binds i rs.path
  /-- No module contributes two incarnations. -/
  single : ∀ {s rs i j ri rj}, env.package s = .ok rs → i ∈ rs.incarnations →
    j ∈ rs.incarnations → env.package i = .ok ri → env.package j = .ok rj → ri.home = rj.home → i = j
  root : ∀ {p r}, env.package p = .ok r → (r.parent = none ↔ r.path.parent? = none)
  parent : ∀ {p r q}, env.package p = .ok r → r.parent = some q →
    ∃ rq, env.package q = .ok rq ∧ rq.isSplit = false ∧ r.path.parent? = some rq.path
  enclosed : ∀ {m path q}, env.seen m path = some (.package q) →
    ∀ above : Path, above.isPrefixOf path = true → ∃ q', env.seen m above = some (.package q')

variable {env : Environment} {d : Discipline} {config : Config} {p q : PackageId} {m : ModuleId}
  {r : Package} {path : Path}

theorem Fits.binds (h : env.Fits d path p) (hd : d.paths) : env.Binds p path := by
  obtain ⟨r, hr, hpath, -⟩ := h
  exact ⟨r, hr, hpath hd⟩

/-- A view that is closed under the enclosing path is closed under all that enclose it. -/
theorem Orderly.enclosed_of_prefix (ho : env.Orderly d) : ∀ {path : Path} {q : PackageId},
    env.seen m path = some (.package q) → ∀ above : Path, above.isPrefixOf path = true →
      ∃ q', env.seen m above = some (.package q')
  | .top name, q, hs, above, hpre => by
    cases of_decide_eq_true hpre
    exact ⟨q, hs⟩
  | .sub enclosing name, q, hs, above, hpre => by
    rw [Path.isPrefixOf, Bool.or_eq_true, decide_eq_true_eq] at hpre
    rcases hpre with rfl | hpre
    · exact ⟨q, hs⟩
    · obtain ⟨c, hc⟩ := ho.enclosed hs
      exact ho.enclosed_of_prefix hc above hpre

/-- Two incarnations of a module would be two declarations of it at one path. -/
theorem Orderly.eq_of_incarnations (ho : env.Orderly d) (hd : d.paths) {i j : PackageId}
    {ri rj : Package} (hp : env.package p = .ok r) (hi : i ∈ r.incarnations)
    (hj : j ∈ r.incarnations) (hri : env.package i = .ok ri) (hrj : env.package j = .ok rj)
    (hhome : ri.home = rj.home) : i = j := by
  obtain ⟨ri', hri', hpli⟩ := ho.wired.plain_of_mem hp hi
  obtain ⟨rj', hrj', hplj⟩ := ho.wired.plain_of_mem hp hj
  cases package_unique hri hri'
  cases package_unique hrj hrj'
  have hdi := ho.graph.own hri (Package.isSplit_of_isPlain hpli)
  have hdj := ho.graph.own hrj (Package.isSplit_of_isPlain hplj)
  rw [hhome, ho.placed hd hp hi hri, ← ho.placed hd hp hj hrj, hdj] at hdi
  exact (Option.some.inj (Except.ok.inj hdi)).symm

theorem Hung.root (hh : env.Hung) (hp : env.package p = .ok r) :
    r.parent = none ↔ r.path.parent? = none := by
  have hangs := hh p r hp
  cases hpath : r.path with
  | top name =>
    rw [hpath] at hangs
    exact iff_of_true hangs rfl
  | sub above name =>
    rw [hpath] at hangs
    obtain ⟨q, _, e, -⟩ := hangs
    rw [e]
    simp [Path.parent?]

theorem Hung.parent (hh : env.Hung) (hp : env.package p = .ok r) (hq : r.parent = some q) :
    ∃ rq, env.package q = .ok rq ∧ rq.isSplit = false ∧ r.path.parent? = some rq.path := by
  have hangs := hh p r hp
  cases hpath : r.path with
  | top name =>
    rw [hpath] at hangs
    rw [Hangs, hq] at hangs
    cases hangs
  | sub above name =>
    rw [hpath] at hangs
    obtain ⟨q', rq, e, hrq, hpathq, hs⟩ := hangs
    rw [hq] at e
    cases e
    exact ⟨rq, hrq, hs, by rw [hpathq]; rfl⟩

theorem Orderly.pathCoherent (ho : env.Orderly d) (hd : d.paths) : env.PathCoherent where
  entry hp he := (ho.entry hp he).binds hd
  merged hp he hq := by
    refine (ho.memo hp he _ (mem_bindings.mpr (List.mem_cons_of_mem _ ?_))).binds hd
    exact List.mem_map_of_mem hq
  memo hp he := (ho.memo hp he _ (mem_bindings.mpr List.mem_cons_self)).binds hd
  declared hdecl := (ho.fits_declared hdecl).binds hd
  seen hs := (ho.seen hs).binds hd
  incarnation hs hi := by
    obtain ⟨r, hr, -⟩ := ho.wired.plain_of_mem hs hi
    exact ⟨r, hr, ho.placed hd hs hi hr⟩
  single := ho.eq_of_incarnations hd
  root := ho.hung.root
  parent := ho.hung.parent
  enclosed := ho.enclosed_of_prefix

/-- Requests that respect paths keep every binding where its path says. -/
theorem pathCoherent_of_develops
    (h : Environment.empty.Develops config Request.RespectsPaths env) : env.PathCoherent :=
  (h.orderly (orderly_empty _)).pathCoherent trivial

/-- A module sees a package below one that two modules share, and resolves it. -/
def sharedParent : List Request :=
  [.addModule "a" false, .addModule "b" false, .addModule "n" false,
    .declarePackage ⟨0⟩ (.sub (.top "com") "foo"), .declarePackage ⟨1⟩ (.sub (.top "com") "foo"),
    .addExport ⟨0⟩ (.sub (.top "com") "foo"), .addExport ⟨1⟩ (.sub (.top "com") "foo"),
    .addRead ⟨2⟩ ⟨0⟩, .addRead ⟨2⟩ ⟨1⟩, .view ⟨2⟩ (.sub (.top "com") "foo"),
    .resolve ⟨2⟩ (.sub (.top "com") "foo")]

theorem pathCoherent_sharedParent :
    ∃ env, Environment.empty.Develops .standard Request.RespectsPaths env ∧
      (∃ q, env.seen ⟨2⟩ (.sub (.top "com") "foo") = some (.package q)) ∧ env.PathCoherent := by
  have hrun : (replay .standard (fun r => r.builds || r.looks) sharedParent .empty).any (fun env =>
      ((env.seen ⟨2⟩ (.sub (.top "com") "foo")).bind Ref.package?).isSome) = true := by
    decide +kernel
  obtain ⟨env, henv, hseen⟩ := (Option.any_eq_true _ _).mp hrun
  obtain ⟨q, hq⟩ := Option.isSome_iff_exists.mp hseen
  obtain ⟨ref, href, hq⟩ := Option.bind_eq_some_iff.mp hq
  have hdev := (reaches_of_replay henv).develops
  refine ⟨env, hdev, ⟨q, ?_⟩, pathCoherent_of_develops hdev⟩
  cases ref with
  | notFound => cases hq
  | package p => cases hq; exact href

end SplitPackages.Environment
