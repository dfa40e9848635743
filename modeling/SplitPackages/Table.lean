/-!
# Tables in arrival order

A `Table` maps keys to values and lists its entries in the order in which the
keys were first set; setting a key again changes its value and leaves its
place. The view is `get?` (`get?_insert`, `get?_erase`), and `keys` for the
order (`keys_insert`).
-/

namespace SplitPackages

structure Table (κ ν : Type) where
  entries : List (κ × ν)
  nodup : (entries.map Prod.fst).Nodup
  deriving DecidableEq

namespace Table

variable {κ ν : Type}

@[ext] theorem ext {s t : Table κ ν} (h : s.entries = t.entries) : s = t := by
  cases s; cases t; cases h; rfl

def empty : Table κ ν := ⟨[], List.nodup_nil⟩

def keys (t : Table κ ν) : List κ := t.entries.map Prod.fst

variable [DecidableEq κ]

def get? (t : Table κ ν) (k : κ) : Option ν := t.entries.lookup k

def contains (t : Table κ ν) (k : κ) : Bool := (t.get? k).isSome

/-- Replaces the value for `k`, or adds an entry at the end. -/
def setIn (k : κ) (v : ν) : List (κ × ν) → List (κ × ν)
  | [] => [(k, v)]
  | (a, w) :: es => if a = k then (k, v) :: es else (a, w) :: setIn k v es

theorem fst_setIn (k : κ) (v : ν) (es : List (κ × ν)) :
    (setIn k v es).map Prod.fst =
      if k ∈ es.map Prod.fst then es.map Prod.fst else es.map Prod.fst ++ [k] := by
  induction es with
  | nil => simp [setIn]
  | cons e es ih =>
    obtain ⟨a, w⟩ := e
    unfold setIn
    split
    · next h => simp [h]
    · next h =>
      simp only [List.map_cons, ih, List.mem_cons, Ne.symm h, false_or]
      split <;> simp

def insert (t : Table κ ν) (k : κ) (v : ν) : Table κ ν :=
  ⟨setIn k v t.entries, by
    rw [fst_setIn]
    split
    · exact t.nodup
    · next h =>
      rw [List.nodup_append]
      exact ⟨t.nodup, by simp, fun x hx y hy e => h (by simp_all)⟩⟩

def erase (t : Table κ ν) (k : κ) : Table κ ν :=
  ⟨t.entries.filter fun e => e.1 ≠ k, t.nodup.sublist (List.filter_sublist.map _)⟩

theorem keys_insert (t : Table κ ν) (k : κ) (v : ν) :
    (t.insert k v).keys = if k ∈ t.keys then t.keys else t.keys ++ [k] :=
  fst_setIn k v t.entries

theorem lookup_cons_ite (a k : κ) (v : ν) (es : List (κ × ν)) :
    ((a, v) :: es).lookup k = if a = k then some v else es.lookup k := by
  rw [List.lookup_cons]
  by_cases h : a = k
  · simp [h]
  · rw [if_neg h, beq_false_of_ne (Ne.symm h)]

theorem lookup_setIn (k k' : κ) (v : ν) (es : List (κ × ν)) :
    (setIn k v es).lookup k' = if k = k' then some v else es.lookup k' := by
  induction es with
  | nil => rw [setIn, lookup_cons_ite]
  | cons e es ih =>
    obtain ⟨a, w⟩ := e
    unfold setIn
    split
    · next h => subst h; by_cases h' : a = k' <;> simp [lookup_cons_ite, h']
    · next h =>
      simp only [lookup_cons_ite, ih]
      by_cases h' : a = k'
      · subst h'; simp [Ne.symm h]
      · simp [h']

theorem get?_insert (t : Table κ ν) (k k' : κ) (v : ν) :
    (t.insert k v).get? k' = if k = k' then some v else t.get? k' :=
  lookup_setIn k k' v t.entries

@[simp] theorem get?_insert_self (t : Table κ ν) (k : κ) (v : ν) :
    (t.insert k v).get? k = some v := by
  simp [get?_insert]

theorem lookup_filter_ne (k k' : κ) (es : List (κ × ν)) :
    (es.filter fun e => e.1 ≠ k).lookup k' = if k = k' then none else es.lookup k' := by
  induction es with
  | nil => simp
  | cons e es ih =>
    obtain ⟨a, w⟩ := e
    by_cases h : a = k
    · rw [List.filter_cons_of_neg (by simp [h]), ih, lookup_cons_ite, h]
      split <;> rfl
    · rw [List.filter_cons_of_pos (by simp [h]), lookup_cons_ite, ih, lookup_cons_ite]
      by_cases h' : a = k'
      · rw [if_pos h', if_pos h', if_neg fun e => h (h'.trans e.symm)]
      · rw [if_neg h', if_neg h']

theorem get?_erase (t : Table κ ν) (k k' : κ) :
    (t.erase k).get? k' = if k = k' then none else t.get? k' :=
  lookup_filter_ne k k' t.entries

theorem lookup_eq_some_iff_mem {es : List (κ × ν)} (h : (es.map Prod.fst).Nodup) {k : κ} {v : ν} :
    es.lookup k = some v ↔ (k, v) ∈ es := by
  rw [List.lookup_eq_some_iff]
  constructor
  · rintro ⟨before, after, rfl, -⟩
    exact List.mem_append_right _ List.mem_cons_self
  · intro hm
    obtain ⟨before, after, rfl⟩ := List.append_of_mem hm
    refine ⟨before, after, rfl, fun e he => bne_iff_ne.mpr fun hk => ?_⟩
    rw [List.map_append, List.nodup_append] at h
    exact h.2.2 e.1 (List.mem_map_of_mem he) k (List.mem_map_of_mem List.mem_cons_self) hk.symm

/-- An entry is listed exactly when its key has its value. -/
theorem get?_eq_some_iff {t : Table κ ν} {k : κ} {v : ν} :
    t.get? k = some v ↔ (k, v) ∈ t.entries :=
  lookup_eq_some_iff_mem t.nodup

theorem mem_keys_iff {t : Table κ ν} {k : κ} : k ∈ t.keys ↔ ∃ v, t.get? k = some v := by
  simp only [keys, List.mem_map, get?_eq_some_iff]
  exact ⟨fun ⟨⟨_, v⟩, h, e⟩ => ⟨v, e ▸ h⟩, fun ⟨v, h⟩ => ⟨(k, v), h, rfl⟩⟩

end Table

end SplitPackages
