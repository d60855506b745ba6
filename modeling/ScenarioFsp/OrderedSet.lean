import ScenarioFsp.Order

/-!
# Finite sets in order

An `OrderedSet` is a strictly increasing list. Its members determine it
(`OrderedSet.ext_mem`), so two sets built in different ways are equal as soon as
they hold the same elements, and no order of insertion is left to argue about.
-/

namespace ScenarioFsp

/-- A finite set, kept as the increasing list of its members. -/
@[ext]
structure OrderedSet (α : Type) [Ordered α] where
  toList : List α
  sorted : toList.Pairwise fun a b => Ordered.before a b = true
deriving DecidableEq

namespace OrderedSet

variable {α : Type} [Ordered α]

open Ordered

instance : Membership α (OrderedSet α) where
  mem s a := a ∈ s.toList

theorem mem_def {a : α} {s : OrderedSet α} : a ∈ s ↔ a ∈ s.toList := Iff.rfl

instance [DecidableEq α] (a : α) (s : OrderedSet α) : Decidable (a ∈ s) :=
  inferInstanceAs (Decidable (a ∈ s.toList))

/-- The number of elements. -/
def size (s : OrderedSet α) : Nat := s.toList.length

/-- Whether there are no elements. -/
def isEmpty (s : OrderedSet α) : Bool := s.toList.isEmpty

/-- The set without elements. -/
def empty : OrderedSet α := ⟨[], .nil⟩

/-! ## Insertion -/

/-- Puts `a` before the first larger element, unless it is there already. -/
def insertInto (a : α) : List α → List α
  | [] => [a]
  | b :: bs =>
    if before a b then a :: b :: bs
    else if before b a then b :: insertInto a bs
    else b :: bs

theorem mem_insertInto {a x : α} {l : List α} : x ∈ insertInto a l ↔ x = a ∨ x ∈ l := by
  induction l with
  | nil => simp [insertInto]
  | cons b bs ih =>
    simp only [insertInto]
    split
    · simp
    · split
      · simp only [List.mem_cons, ih]
        exact or_left_comm
      · rename_i hab hba
        have : a = b := before_connex (by simpa using hab) (by simpa using hba)
        subst this
        simp

theorem sorted_insertInto (a : α) {l : List α}
    (h : l.Pairwise fun x y => before x y = true) :
    (insertInto a l).Pairwise fun x y => before x y = true := by
  induction l with
  | nil => simp [insertInto]
  | cons b bs ih =>
    obtain ⟨hb, hbs⟩ := List.pairwise_cons.mp h
    simp only [insertInto]
    split
    · rename_i hab
      refine List.pairwise_cons.mpr ⟨fun x hx => ?_, h⟩
      rcases List.mem_cons.mp hx with rfl | hx
      · exact hab
      · exact before_trans hab (hb x hx)
    · split
      · rename_i hba
        refine List.pairwise_cons.mpr ⟨fun x hx => ?_, ih hbs⟩
        rcases mem_insertInto.mp hx with rfl | hx
        · exact hba
        · exact hb x hx
      · exact h

/-- Adds an element; one that is there already is not added again. -/
def insert (a : α) (s : OrderedSet α) : OrderedSet α :=
  ⟨insertInto a s.toList, sorted_insertInto a s.sorted⟩

@[simp] theorem mem_insert {a x : α} {s : OrderedSet α} : x ∈ s.insert a ↔ x = a ∨ x ∈ s :=
  mem_insertInto

theorem mem_foldl_insert {l : List α} {x : α} {s : OrderedSet α} :
    x ∈ l.foldl (fun s a => s.insert a) s ↔ x ∈ l ∨ x ∈ s := by
  induction l generalizing s with
  | nil => simp
  | cons a as ih => rw [List.foldl_cons, ih, mem_insert, List.mem_cons, or_left_comm, or_assoc]

/-- The set of the elements of a list. -/
def ofList (l : List α) : OrderedSet α := l.foldr insert empty

@[simp] theorem mem_ofList {x : α} {l : List α} : x ∈ ofList l ↔ x ∈ l := by
  induction l with
  | nil => exact Iff.rfl
  | cons a as ih =>
    show x ∈ (ofList as).insert a ↔ x ∈ a :: as
    rw [mem_insert, ih, List.mem_cons]

/-! ## Selection and images -/

/-- Keeps the elements that pass a test. -/
def filter (keep : α → Bool) (s : OrderedSet α) : OrderedSet α :=
  ⟨s.toList.filter keep, s.sorted.filter keep⟩

@[simp] theorem mem_filter {keep : α → Bool} {x : α} {s : OrderedSet α} :
    x ∈ s.filter keep ↔ x ∈ s ∧ keep x = true :=
  List.mem_filter

/-- The elements of both sets. -/
def union (s t : OrderedSet α) : OrderedSet α := s.toList.foldr insert t

@[simp] theorem mem_union {x : α} {s t : OrderedSet α} : x ∈ s.union t ↔ x ∈ s ∨ x ∈ t := by
  obtain ⟨l, hl⟩ := s
  show x ∈ l.foldr insert t ↔ x ∈ l ∨ x ∈ t
  clear hl
  induction l with
  | nil => simp
  | cons a as ih => simp only [List.foldr_cons, mem_insert, ih, List.mem_cons, or_assoc]

/-! ## The members determine the set -/

theorem ext_mem {s t : OrderedSet α} (h : ∀ x, x ∈ s ↔ x ∈ t) : s = t :=
  OrderedSet.ext (eq_of_sorted s.sorted t.sorted h)

end OrderedSet

end ScenarioFsp
