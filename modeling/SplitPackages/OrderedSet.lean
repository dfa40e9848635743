/-!
# Sets in arrival order

An `OrderedSet` keeps distinct elements in the order in which they were first
added; adding an element it has changes nothing. The view is `toList`:
`toList_insert` and `toList_insertMany` say what adding does to it.
-/

namespace SplitPackages

structure OrderedSet (α : Type) where
  toList : List α
  nodup : toList.Nodup
  deriving DecidableEq

namespace OrderedSet

variable {α : Type}

@[ext] theorem ext {s t : OrderedSet α} (h : s.toList = t.toList) : s = t := by
  cases s; cases t; cases h; rfl

def empty : OrderedSet α := ⟨[], List.nodup_nil⟩

instance : Membership α (OrderedSet α) := ⟨fun s a => a ∈ s.toList⟩

theorem mem_def {a : α} {s : OrderedSet α} : a ∈ s ↔ a ∈ s.toList := Iff.rfl

@[simp] theorem toList_empty : (empty : OrderedSet α).toList = [] := rfl

variable [DecidableEq α]

instance (a : α) (s : OrderedSet α) : Decidable (a ∈ s) :=
  inferInstanceAs (Decidable (a ∈ s.toList))

/-- Adds an element at the end unless it is there already. -/
def insert (s : OrderedSet α) (a : α) : OrderedSet α :=
  if h : a ∈ s.toList then s
  else
    ⟨s.toList ++ [a], by
      rw [List.nodup_append]
      exact ⟨s.nodup, by simp, fun x hx y hy e => h (by simp_all)⟩⟩

/-- Adds elements one after the other. -/
def insertMany (s : OrderedSet α) (as : List α) : OrderedSet α :=
  as.foldl insert s

/-- The first occurrences in a list. -/
def ofList (as : List α) : OrderedSet α := empty.insertMany as

theorem toList_insert (s : OrderedSet α) (a : α) :
    (s.insert a).toList = if a ∈ s.toList then s.toList else s.toList ++ [a] := by
  unfold insert; split <;> rfl

theorem insert_of_mem {s : OrderedSet α} {a : α} (h : a ∈ s) : s.insert a = s :=
  ext (by rw [toList_insert, if_pos (mem_def.mp h)])

@[simp] theorem mem_insert {s : OrderedSet α} {a b : α} : b ∈ s.insert a ↔ b ∈ s ∨ b = a := by
  rw [mem_def, toList_insert, mem_def]
  split
  · next h => exact ⟨.inl, fun o => o.elim id fun e => e ▸ h⟩
  · simp

@[simp] theorem insertMany_nil (s : OrderedSet α) : s.insertMany [] = s := rfl

@[simp] theorem insertMany_cons (s : OrderedSet α) (a : α) (as : List α) :
    s.insertMany (a :: as) = (s.insert a).insertMany as := rfl

@[simp] theorem mem_insertMany {s : OrderedSet α} {as : List α} {b : α} :
    b ∈ s.insertMany as ↔ b ∈ s ∨ b ∈ as := by
  induction as generalizing s with
  | nil => simp
  | cons a as ih => rw [insertMany_cons, ih, mem_insert, List.mem_cons, or_assoc]

/-- The elements of a list that a set lacks, each at its first occurrence. -/
def newIn (s : OrderedSet α) : List α → List α
  | [] => []
  | a :: as => if a ∈ s then newIn s as else a :: newIn (s.insert a) as

theorem toList_insertMany (s : OrderedSet α) (as : List α) :
    (s.insertMany as).toList = s.toList ++ s.newIn as := by
  induction as generalizing s with
  | nil => simp [newIn]
  | cons a as ih =>
    rw [insertMany_cons, newIn]
    split
    · next h => rw [insert_of_mem h, ih]
    · next h => rw [ih, toList_insert, if_neg (mt mem_def.mpr h), List.append_assoc, List.singleton_append]

end OrderedSet

end SplitPackages
