import SplitPackages.Proofs.Histories

/-!
# Chains of reads

Who can read whom can be told from the requests that made the modules and the
reads between them. A `Chain` of such requests starts with a read of either kind
and goes on with reads that extend to every reader. A request names only modules
that earlier requests have made (`NamesMade`), but modules may read themselves
or each other, and reads may be made again, and of the other kind.

`MadeBy` says that the modules of an environment are those that the requests
made, and that their reads are those that were asked for. One request keeps this
(`MadeBy.connect`), so a sequence of requests leads to it (`MadeBy.replay`). The
search through the reads then ends and finds exactly the ends of chains
(`canRead_iff_chain`), whatever the order of the requests was.
-/

namespace SplitPackages

namespace Request

/-- The requests that make modules and reads between them. -/
def connects : Request → Bool
  | addModule _ _ => true
  | addRead _ _ => true
  | addTransitiveRead _ _ => true
  | _ => false

/-- If the request makes a module, whether it is an unnamed one. -/
def made? : Request → Option Bool
  | addModule _ unnamed => some unnamed
  | _ => none

def MakesRead (r : Request) (m k : ModuleId) : Prop := r = addRead m k ∨ r = addTransitiveRead m k

/-- The modules that requests make, in order; of each, whether it is an unnamed one. -/
def made (rs : List Request) : List Bool := rs.filterMap made?

/-- The requests make modules and reads, and name only modules that earlier ones have made, or that
were among the first `count`. -/
def NamesMade (count : Nat) : List Request → Prop
  | [] => True
  | r :: rs => r.connects = true ∧ (∀ m ∈ r.modules, m.index < count) ∧
    NamesMade (count + r.made?.toList.length) rs

instance : ∀ (count : Nat) (rs : List Request), Decidable (NamesMade count rs)
  | _, [] => isTrue trivial
  | count, r :: rs =>
    have := instDecidableNamesMade (count + r.made?.toList.length) rs
    inferInstanceAs (Decidable (_ ∧ _))

theorem packages_of_connects {r : Request} (h : r.connects = true) : r.packages = [] := by
  cases r <;> first | rfl | cases h

end Request

namespace Environment

open Request

/-- Reads that requests made lead from the one module to the other; all but the first extend to
every reader. -/
inductive Chain (rs : List Request) (m : ModuleId) : ModuleId → Prop
  | first {r : Request} {k : ModuleId} : r ∈ rs → r.MakesRead m k → Chain rs m k
  | next {k target : ModuleId} : Chain rs m k → .addTransitiveRead k target ∈ rs →
      Chain rs m target

/-- The modules and their reads are those that the requests made. -/
structure MadeBy (rs : List Request) (env : Environment) : Prop where
  packages : env.packages = #[]
  size : env.modules.size = (made rs).length
  unnamed : ∀ {m record}, env.module m = .ok record → (made rs)[m.index]? = some record.unnamed
  named : ∀ r ∈ rs, ∀ m ∈ r.modules, m.index < env.modules.size
  reads : ∀ {m record}, env.module m = .ok record →
    ∀ k, k ∈ record.reads.keys ↔ ∃ r ∈ rs, r.MakesRead m k
  implied : ∀ {m record}, env.module m = .ok record →
    ∀ k, k ∈ record.impliedReads ↔ .addTransitiveRead m k ∈ rs

variable {env after : Environment} {config : Config} {rs : List Request} {r : Request}
  {m k target : ModuleId} {record : Module}

theorem madeBy_empty : MadeBy [] .empty where
  packages := rfl
  size := rfl
  unnamed hm := by cases hm
  named r hr := absurd hr List.not_mem_nil
  reads hm := by cases hm
  implied hm := by cases hm

theorem made_append_singleton (rs : List Request) (r : Request) :
    made (rs ++ [r]) = made rs ++ r.made?.toList := by
  rw [made, List.filterMap_append]
  cases h : r.made? <;> simp [made, h]

/-! ## One request -/

theorem unnamed_addRead (record : Module) (target : ModuleId) :
    (record.addRead target).unnamed = record.unnamed := by
  unfold Module.addRead
  split <;> rfl

theorem contains_iff : record.reads.contains target = true ↔ target ∈ record.reads.keys := by
  rw [Table.mem_keys_iff, Table.contains, Option.isSome_iff_exists]

theorem mem_keys_addRead :
    k ∈ (record.addRead target).reads.keys ↔ k ∈ record.reads.keys ∨ k = target := by
  unfold Module.addRead
  split
  · next h =>
    refine ⟨.inl, ?_⟩
    rintro (hk | rfl)
    · exact hk
    · exact contains_iff.mp h
  · exact mem_keys_insert

/-- A read that is there already stays what it is, and a new one does not extend to readers. -/
theorem mem_impliedReads_addRead :
    k ∈ (record.addRead target).impliedReads ↔ k ∈ record.impliedReads := by
  unfold Module.addRead
  split
  · rfl
  · next h =>
    rw [contains_iff, Table.mem_keys_iff] at h
    rw [mem_impliedReads, mem_impliedReads, Table.get?_insert]
    split
    · next e =>
      subst e
      exact iff_of_false (by simp) fun hk => h ⟨true, hk⟩
    · rfl

theorem mem_impliedReads_addTransitiveRead :
    k ∈ (record.addTransitiveRead target).impliedReads ↔ k ∈ record.impliedReads ∨ k = target := by
  rw [mem_impliedReads, mem_impliedReads, Module.addTransitiveRead, Table.get?_insert]
  split
  · next e => exact iff_of_true rfl (.inr e.symm)
  · next e => exact (or_iff_left fun e' => e e'.symm).symm

/-- A new module reads nothing, and no request has named it. -/
theorem MadeBy.addModule (h : MadeBy rs env) (name : String) (unnamed : Bool) :
    MadeBy (rs ++ [.addModule name unnamed])
      { env with modules := env.modules.push (.fresh name unnamed) } where
  packages := h.packages
  size := by
    rw [made_append_singleton, Array.size_push, h.size, List.length_append]
    rfl
  unnamed {m record} hm := by
    rw [made_append_singleton]
    rw [module_push, h.size] at hm
    split at hm
    · next e =>
      cases hm
      rw [e, List.getElem?_append_right (Nat.le_refl _), Nat.sub_self]
      rfl
    · have hlt := lt_size_of_module hm
      rw [List.getElem?_append_left (h.size ▸ hlt), h.unnamed hm]
  named r hr m hm := by
    rw [Array.size_push]
    rcases List.mem_append.mp hr with hr | hr
    · exact Nat.lt_succ_of_lt (h.named r hr m hm)
    · rw [List.mem_singleton.mp hr] at hm
      cases hm
  reads {m record} hm k := by
    simp only [List.mem_append, List.mem_singleton, or_and_right, exists_or, exists_eq_left,
      MakesRead, reduceCtorEq, or_self, or_false]
    rw [module_push] at hm
    split at hm
    · next e =>
      cases hm
      refine iff_of_false List.not_mem_nil ?_
      rintro ⟨r, hr, rfl | rfl⟩
      all_goals
        have := h.named _ hr m (by simp [Request.modules])
        omega
    · exact h.reads hm k
  implied {m record} hm k := by
    simp only [List.mem_append, List.mem_singleton, reduceCtorEq, or_false]
    rw [module_push] at hm
    split at hm
    · next e =>
      cases hm
      refine iff_of_false List.not_mem_nil fun hr => ?_
      have := h.named _ hr m (by simp [Request.modules])
      omega
    · exact h.implied hm k

theorem MadeBy.setModule (h : MadeBy rs env) {f : Module → Module} (hmade : r.made? = none)
    (hnamed : ∀ k ∈ r.modules, k.index < env.modules.size) (hm : env.module m = .ok record)
    (hset : env.setModule m f = .ok after)
    (hunnamed : ∀ record, (f record).unnamed = record.unnamed)
    (hreads : ∀ k, k ∈ (f record).reads.keys ↔ k ∈ record.reads.keys ∨ r.MakesRead m k)
    (himplied : ∀ k, k ∈ (f record).impliedReads ↔
      k ∈ record.impliedReads ∨ r = .addTransitiveRead m k)
    (hother : ∀ {m' k}, m' ≠ m → ¬ r.MakesRead m' k) : MadeBy (rs ++ [r]) after where
  packages := (packages_setModule hset).trans h.packages
  size := by
    rw [made_append_singleton, hmade, Option.toList_none, List.append_nil, size_setModule hset,
      h.size]
  unnamed {m' record'} hm' := by
    rw [made_append_singleton, hmade, Option.toList_none, List.append_nil]
    by_cases e : m' = m
    · subst e
      rw [module_setModule_self hset hm] at hm'
      cases hm'
      rw [h.unnamed hm, hunnamed]
    · rw [module_setModule_ne hset e] at hm'
      exact h.unnamed hm'
  named r' hr' k hk := by
    rw [size_setModule hset]
    rcases List.mem_append.mp hr' with hr' | hr'
    · exact h.named r' hr' k hk
    · exact hnamed k (List.mem_singleton.mp hr' ▸ hk)
  reads {m' record'} hm' k := by
    simp only [List.mem_append, List.mem_singleton, or_and_right, exists_or, exists_eq_left]
    by_cases e : m' = m
    · subst e
      rw [module_setModule_self hset hm] at hm'
      cases hm'
      rw [hreads, h.reads hm]
    · rw [module_setModule_ne hset e] at hm'
      rw [h.reads hm' k, or_iff_left (hother e)]
  implied {m' record'} hm' k := by
    rw [List.mem_append, List.mem_singleton]
    by_cases e : m' = m
    · subst e
      rw [module_setModule_self hset hm] at hm'
      cases hm'
      rw [himplied, h.implied hm, eq_comm]
    · rw [module_setModule_ne hset e] at hm'
      rw [h.implied hm' k, or_iff_left fun e' => hother e (.inr e'.symm)]

theorem MadeBy.addRead (h : MadeBy rs env)
    (hn : ∀ k ∈ (Request.addRead m target).modules, k.index < env.modules.size) :
    ∃ a after, ((Request.addRead m target).run config).Gives env a after ∧
      MadeBy (rs ++ [.addRead m target]) after := by
  obtain ⟨record, hm⟩ := module_of_lt_size (hn m (by simp [Request.modules]))
  obtain ⟨after, hset⟩ := setModule_ok hm (·.addRead target)
  refine ⟨_, after, (Lookup.Gives.update (Update.setModule_ok hset)).map,
    h.setModule rfl hn hm hset (unnamed_addRead · target) (fun k => ?_) (fun k => ?_) fun hne => ?_⟩
  · simp [mem_keys_addRead, MakesRead, eq_comm]
  · simp [mem_impliedReads_addRead]
  · simp [MakesRead, hne.symm]

theorem MadeBy.addTransitiveRead (h : MadeBy rs env)
    (hn : ∀ k ∈ (Request.addTransitiveRead m target).modules, k.index < env.modules.size) :
    ∃ a after, ((Request.addTransitiveRead m target).run config).Gives env a after ∧
      MadeBy (rs ++ [.addTransitiveRead m target]) after := by
  obtain ⟨record, hm⟩ := module_of_lt_size (hn m (by simp [Request.modules]))
  obtain ⟨after, hset⟩ := setModule_ok hm (·.addTransitiveRead target)
  refine ⟨_, after, (Lookup.Gives.update (Update.setModule_ok hset)).map,
    h.setModule rfl hn hm hset (fun _ => rfl) (fun k => ?_) (fun k => ?_) fun hne => ?_⟩
  · simp [mem_keys_insert, Module.addTransitiveRead, MakesRead, eq_comm]
  · simp [mem_impliedReads_addTransitiveRead, eq_comm]
  · simp [MakesRead, hne.symm]

theorem MadeBy.connect (config : Config) (h : MadeBy rs env) (hc : r.connects = true)
    (hn : ∀ k ∈ r.modules, k.index < env.modules.size) :
    ∃ a after, (r.run config).Gives env a after ∧ MadeBy (rs ++ [r]) after := by
  cases r with
  | addModule name unnamed => exact ⟨_, _, (Lookup.Gives.update rfl).map, h.addModule name unnamed⟩
  | addRead m target => exact h.addRead hn
  | addTransitiveRead m target => exact h.addTransitiveRead hn
  | _ => cases hc

/-! ## Sequences of requests -/

theorem MadeBy.size_connect (h : MadeBy rs env) (h' : MadeBy (rs ++ [r]) after) :
    after.modules.size = env.modules.size + r.made?.toList.length := by
  rw [h'.size, made_append_singleton, List.length_append, h.size]

/-- Requests that name what earlier ones have made can all be done. -/
theorem MadeBy.replay (config : Config) : ∀ {later : List Request} {rs : List Request}
    {env : Environment}, MadeBy rs env → NamesMade env.modules.size later →
    ∃ after, Environment.replay config Request.connects later env = some after ∧
      MadeBy (rs ++ later) after
  | [], rs, env, h, _ => ⟨env, rfl, by rwa [List.append_nil]⟩
  | r :: later, rs, env, h, ⟨hc, hn, hlater⟩ => by
    have hnames : r.Names env := ⟨hn, by simp [packages_of_connects hc]⟩
    obtain ⟨a, mid, hgives, hmid⟩ := h.connect config hc hn
    obtain ⟨j, hrun⟩ := hgives .empty
    rw [← h.size_connect hmid] at hlater
    obtain ⟨after, hafter, hmade⟩ := hmid.replay config hlater
    refine ⟨after, ?_, by rwa [List.append_assoc] at hmade⟩
    rw [Environment.replay, if_pos ⟨hc, hnames⟩, hrun]
    exact hafter

/-! ## Who can read whom -/

theorem MadeBy.module_of_named (h : MadeBy rs env) (hr : r ∈ rs) (hk : k ∈ r.modules) :
    ∃ record, env.module k = .ok record :=
  module_of_lt_size (h.named r hr k hk)

theorem MadeBy.closed (h : MadeBy rs env) : env.Closed where
  reads {m record k} hm hk := by
    obtain ⟨r, hr, rfl | rfl⟩ := (h.reads hm k).mp hk
    all_goals exact h.module_of_named hr (by simp [Request.modules])
  home {p r} hp := by
    have hlt := lt_size_of_package hp
    rw [h.packages] at hlt
    cases hlt
  incarnations {p r i} hp _ := by
    have hlt := lt_size_of_package hp
    rw [h.packages] at hlt
    cases hlt

theorem Implies.trans (h : env.Implies m k) (h2 : env.Implies k target) : env.Implies m target := by
  induction h with
  | refl => exact h2
  | step hm hk _ ih => exact .step hm hk (ih h2)

/-- A chain goes on along the reads that extend to every reader. -/
theorem MadeBy.chain_trans (h : MadeBy rs env) (hi : env.Implies k target) (hc : Chain rs m k) :
    Chain rs m target := by
  induction hi with
  | refl => exact hc
  | step hm hk _ ih => exact ih (.next hc ((h.implied hm _).mp hk))

/-- A chain is a read of the module and, from there on, reads that extend to every reader. -/
theorem MadeBy.chain_iff (h : MadeBy rs env) (hm : env.module m = .ok record) :
    Chain rs m target ↔ ∃ k ∈ record.reads.keys, env.Implies k target := by
  constructor
  · intro hc
    induction hc with
    | @first r k hr hread => exact ⟨k, (h.reads hm k).mpr ⟨r, hr, hread⟩, .refl k⟩
    | @next k target _ hr ih =>
      obtain ⟨first, hfirst, hi⟩ := ih
      obtain ⟨rk, hrk⟩ := h.module_of_named hr (k := k) (by simp [Request.modules])
      exact ⟨first, hfirst, hi.trans (.step hrk ((h.implied hrk _).mpr hr) (.refl _))⟩
  · rintro ⟨k, hk, hi⟩
    obtain ⟨r, hr, hread⟩ := (h.reads hm k).mp hk
    exact h.chain_trans hi (.first hr hread)

theorem MadeBy.canRead_iff (h : MadeBy rs env) (hm : env.module m = .ok record)
    (target : ModuleId) : ∃ b, env.canRead m target = .ok b ∧
      (b = true ↔ m = target ∨ (made rs)[m.index]? = some true ∨ Chain rs m target) := by
  obtain ⟨b, hb⟩ := h.closed.canRead_ok hm target
  refine ⟨b, hb, ?_⟩
  have hreads : env.Reads m target ↔ b = true := by simp [Environment.Reads, hb]
  rw [← hreads, h.closed.reads_iff hm, h.chain_iff hm, h.unnamed hm, Option.some.injEq]

/-- The order of the requests does not matter, nor whether one is made again, as long as the modules
are made in the same order. -/
theorem Chain.congr {rs rs' : List Request} (hc : Chain rs m target)
    (hsame : ∀ r, r.made? = none → r ∈ rs → r ∈ rs') : Chain rs' m target := by
  induction hc with
  | @first r k hr hread =>
    refine .first (hsame r ?_ hr) hread
    rcases hread with rfl | rfl <;> rfl
  | next _ hr ih => exact .next ih (hsame _ rfl hr)

/-- Requests that make modules and reads can all be done, if they name what earlier ones have made.
Then the search through the reads of a module ends, and a module can read another exactly if it is
the same, or if it is unnamed, or if a chain of the reads leads there. So other requests that make
the same modules in order, and the same reads in any order, lead to the same answers. -/
theorem canRead_iff_chain (config : Config) {rs : List Request} (h : NamesMade 0 rs) :
    ∃ env, replay config Request.connects rs .empty = some env ∧
      env.modules.size = (made rs).length ∧ env.Finishes ∧
      (∀ m target, m.index < env.modules.size → ∃ b, env.canRead m target = .ok b ∧
        (b = true ↔ m = target ∨ (made rs)[m.index]? = some true ∨ Chain rs m target)) ∧
      ∀ rs', NamesMade 0 rs' → made rs' = made rs →
        (∀ r, r.made? = none → (r ∈ rs' ↔ r ∈ rs)) →
        ∃ env', replay config Request.connects rs' .empty = some env' ∧
          ∀ m target, m.index < env.modules.size →
            env'.canRead m target = env.canRead m target := by
  obtain ⟨env, henv, hmade⟩ := madeBy_empty.replay config h
  rw [List.nil_append] at hmade
  refine ⟨env, henv, hmade.size, hmade.closed.finishes, fun m target hm => ?_,
    fun rs' h' hsame hmem => ?_⟩
  · obtain ⟨record, hr⟩ := module_of_lt_size hm
    exact hmade.canRead_iff hr target
  · obtain ⟨env', henv', hmade'⟩ := madeBy_empty.replay config h'
    rw [List.nil_append] at hmade'
    refine ⟨env', henv', fun m target hm => ?_⟩
    obtain ⟨record, hr⟩ := module_of_lt_size hm
    have hm' : m.index < env'.modules.size := by rwa [hmade'.size, hsame, ← hmade.size]
    obtain ⟨record', hr'⟩ := module_of_lt_size hm'
    obtain ⟨b, hb, hiff⟩ := hmade.canRead_iff hr target
    obtain ⟨b', hb', hiff'⟩ := hmade'.canRead_iff hr' target
    have hchain : Chain rs' m target ↔ Chain rs m target :=
      ⟨fun hc => hc.congr fun r hr => (hmem r hr).mp,
        fun hc => hc.congr fun r hr => (hmem r hr).mpr⟩
    rw [hsame, hchain, ← hiff] at hiff'
    rw [hb, hb', Bool.eq_iff_iff.mpr hiff']

/-- Two modules read each other, one of the reads is made in both ways, and there is a read of the
module itself and one that does not extend to readers. -/
def readCycle : List Request :=
  [.addModule "a" false, .addModule "b" false, .addModule "c" false, .addModule "d" false,
    .addRead ⟨0⟩ ⟨1⟩, .addTransitiveRead ⟨1⟩ ⟨2⟩, .addRead ⟨1⟩ ⟨2⟩, .addTransitiveRead ⟨2⟩ ⟨1⟩,
    .addTransitiveRead ⟨2⟩ ⟨2⟩, .addRead ⟨2⟩ ⟨3⟩]

theorem canRead_iff_chain_readCycle : NamesMade 0 readCycle ∧
    ∃ env, replay .standard Request.connects readCycle .empty = some env ∧
      env.canRead ⟨0⟩ ⟨2⟩ = .ok true ∧ Chain readCycle ⟨0⟩ ⟨2⟩ ∧
      env.canRead ⟨0⟩ ⟨3⟩ = .ok false ∧ ¬ Chain readCycle ⟨0⟩ ⟨3⟩ := by
  have hnamed : NamesMade 0 readCycle := by decide
  have hrun : (replay .standard Request.connects readCycle .empty).any (fun env =>
      ((env.canRead ⟨0⟩ ⟨2⟩).toOption == some true) &&
        ((env.canRead ⟨0⟩ ⟨3⟩).toOption == some false)) = true := by
    decide +kernel
  obtain ⟨env, henv, hsize, -, hread, -⟩ := canRead_iff_chain .standard hnamed
  have hm : 0 < env.modules.size := by rw [hsize]; decide
  obtain ⟨b, hb, hiff⟩ := hread ⟨0⟩ ⟨2⟩ hm
  obtain ⟨b', hb', hiff'⟩ := hread ⟨0⟩ ⟨3⟩ hm
  obtain ⟨rfl, rfl⟩ : b = true ∧ b' = false := by
    simpa [henv, hb, hb', Except.toOption] using hrun
  refine ⟨hnamed, env, henv, hb, ?_, hb', fun hc => ?_⟩
  · exact ((hiff.mp rfl).resolve_left (by decide)).resolve_left (by decide)
  · exact Bool.false_ne_true (hiff'.mpr (.inr (.inr hc)))

end Environment

end SplitPackages
