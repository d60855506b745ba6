/-!
# Lists without repeats

`addOnce` adds an element at the end unless it is there, and `distinct` keeps the
first of several equal elements.
-/

namespace ScenarioFsp

variable {α : Type} [DecidableEq α]

/-- Adds `a` at the end unless it is there. -/
def addOnce (a : α) (l : List α) : List α :=
  if a ∈ l then l else l ++ [a]

@[simp] theorem mem_addOnce {a x : α} {l : List α} : x ∈ addOnce a l ↔ x = a ∨ x ∈ l := by
  unfold addOnce
  split
  · rename_i h
    exact ⟨.inr, fun hx => hx.elim (fun hxa => hxa ▸ h) id⟩
  · rw [List.mem_append, List.mem_singleton, or_comm]

theorem nodup_addOnce (a : α) {l : List α} (h : l.Nodup) : (addOnce a l).Nodup := by
  unfold addOnce
  split
  · exact h
  · rename_i ha
    refine List.nodup_append.mpr ⟨h, by simp, ?_⟩
    rintro x hx y hy rfl
    exact ha (List.mem_singleton.mp hy ▸ hx)

theorem mem_foldl_addOnce {x : α} {as l : List α} :
    x ∈ as.foldl (fun l a => addOnce a l) l ↔ x ∈ as ∨ x ∈ l := by
  induction as generalizing l with
  | nil => simp
  | cons a as ih => rw [List.foldl_cons, ih, mem_addOnce, List.mem_cons, or_left_comm, or_assoc]

theorem nodup_foldl_addOnce {as l : List α} (h : l.Nodup) :
    (as.foldl (fun l a => addOnce a l) l).Nodup := by
  induction as generalizing l with
  | nil => exact h
  | cons a as ih => exact ih (nodup_addOnce a h)

/-- What is new anyway is added at the end. -/
theorem foldl_addOnce_eq_append {as l : List α} (h : (l ++ as).Nodup) :
    as.foldl (fun l a => addOnce a l) l = l ++ as := by
  induction as generalizing l with
  | nil => exact (List.append_nil l).symm
  | cons a as ih =>
    have hnew : a ∉ l := fun ha => (List.nodup_append.mp h).2.2 a ha a List.mem_cons_self rfl
    rw [List.append_cons] at h ⊢
    rw [List.foldl_cons, addOnce, if_neg hnew, ih h]

/-- The elements of a list, each where it occurs first. -/
def distinct : List α → List α
  | [] => []
  | a :: as => a :: (distinct as).filter fun b => decide (b ≠ a)

@[simp] theorem mem_distinct {x : α} {l : List α} : x ∈ distinct l ↔ x ∈ l := by
  induction l with
  | nil => rfl
  | cons a as ih =>
    simp only [distinct, List.mem_cons, List.mem_filter, ih, decide_eq_true_eq]
    by_cases h : x = a <;> simp [h]

theorem distinct_sublist (l : List α) : (distinct l).Sublist l := by
  induction l with
  | nil => exact .slnil
  | cons a as ih => exact (List.filter_sublist.trans ih).cons_cons a

/-- A list without repeats stays as it is. -/
theorem distinct_eq_self {l : List α} (h : l.Nodup) : distinct l = l := by
  induction l with
  | nil => rfl
  | cons a as ih =>
    obtain ⟨ha, has⟩ := List.nodup_cons.mp h
    unfold distinct
    rw [ih has, List.filter_eq_self.mpr]
    intro b hb
    exact decide_eq_true fun hba => ha (hba ▸ hb)

/-- One more element is kept if it is new. -/
theorem distinct_concat (a : α) (l : List α) : distinct (l ++ [a]) = addOnce a (distinct l) := by
  induction l with
  | nil => rfl
  | cons b l ih =>
    show b :: (distinct (l ++ [a])).filter _ = addOnce a (b :: (distinct l).filter _)
    rw [ih]
    unfold addOnce
    by_cases hab : a = b
    · subst hab
      rw [if_pos List.mem_cons_self]
      split
      · rfl
      · simp
    · simp only [List.mem_cons, List.mem_filter, hab, false_or, ne_eq, not_false_eq_true,
        decide_true, and_true]
      split
      · rfl
      · simp [hab]

theorem nodup_distinct (l : List α) : (distinct l).Nodup := by
  induction l with
  | nil => exact .nil
  | cons a as ih =>
    exact List.nodup_cons.mpr ⟨by simp [List.mem_filter], ih.filter _⟩

end ScenarioFsp
