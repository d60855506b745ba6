/-!
# Decided strict orders

Everything this library writes comes out sorted: symbols by code point, traces
and productions as lists of symbols, pairs by their first half. The order of a
type is therefore a class of its own, `Ordered`, with a Boolean test and the
three laws that make it a strict total order. Lists and pairs are ordered
lexicographically, and a proper initial part of a list comes first.
-/

namespace ScenarioFsp

/-- A strict total order, decided by `before`. -/
class Ordered (α : Type) where
  before : α → α → Bool
  before_irrefl : ∀ a, before a a = false
  before_trans : ∀ {a b c}, before a b = true → before b c = true → before a c = true
  before_connex : ∀ {a b}, before a b = false → before b a = false → a = b

namespace Ordered

theorem before_asymm {α : Type} [Ordered α] {a b : α} (h : before a b = true) :
    before b a = false := by
  cases hba : before b a with
  | false => rfl
  | true => exact absurd (before_trans h hba) (by simp [before_irrefl])

theorem before_ne {α : Type} [Ordered α] {a b : α} (h : before a b = true) : a ≠ b := by
  intro hab
  subst hab
  simp [before_irrefl] at h

/-- The order of the keys, when a key determines its value. -/
@[reducible] def byKey {α β : Type} [Ordered β] (key : α → β)
    (key_inj : ∀ {a b}, key a = key b → a = b) : Ordered α where
  before a b := before (key a) (key b)
  before_irrefl a := before_irrefl (key a)
  before_trans := before_trans
  before_connex h h' := key_inj (before_connex h h')

/-! ## Numbers, characters -/

instance : Ordered Nat where
  before a b := Nat.blt a b
  before_irrefl a := by
    rw [← Bool.not_eq_true, Nat.blt_eq]
    exact Nat.lt_irrefl a
  before_trans {a b c} h h' := by
    rw [Nat.blt_eq] at *
    exact Nat.lt_trans h h'
  before_connex {a b} h h' := by
    rw [← Bool.not_eq_true, Nat.blt_eq] at h h'
    omega

instance : Ordered Char :=
  byKey Char.toNat fun {_ _} h => Char.ext (UInt32.toNat_inj.mp h)

/-! ## Lists -/

/-- Lexicographic order of lists. -/
def lexBefore {α : Type} [Ordered α] : List α → List α → Bool
  | _, [] => false
  | [], _ :: _ => true
  | a :: as, b :: bs => before a b || (!before b a && lexBefore as bs)

theorem lexBefore_cons {α : Type} [Ordered α] {a b : α} {as bs : List α} :
    lexBefore (a :: as) (b :: bs) = true ↔
      before a b = true ∨ (a = b ∧ lexBefore as bs = true) := by
  simp only [lexBefore, Bool.or_eq_true, Bool.and_eq_true, Bool.not_eq_true']
  constructor
  · rintro (h | ⟨hba, h⟩)
    · exact .inl h
    · cases hab : before a b with
      | true => exact .inl rfl
      | false => exact .inr ⟨before_connex hab hba, h⟩
  · rintro (h | ⟨rfl, h⟩)
    · exact .inl h
    · exact .inr ⟨before_irrefl a, h⟩

theorem lexBefore_irrefl {α : Type} [Ordered α] (as : List α) : lexBefore as as = false := by
  induction as with
  | nil => rfl
  | cons a as ih => simp [lexBefore, before_irrefl, ih]

theorem lexBefore_trans {α : Type} [Ordered α] {as bs cs : List α}
    (h : lexBefore as bs = true) (h' : lexBefore bs cs = true) : lexBefore as cs = true := by
  induction as generalizing bs cs with
  | nil =>
    cases cs with
    | nil => cases bs <;> simp [lexBefore] at h'
    | cons c cs => rfl
  | cons a as ih =>
    cases bs with
    | nil => simp [lexBefore] at h
    | cons b bs =>
      cases cs with
      | nil => simp [lexBefore] at h'
      | cons c cs =>
        rw [lexBefore_cons] at *
        rcases h with hab | ⟨rfl, h⟩ <;> rcases h' with hbc | ⟨rfl, h'⟩
        · exact .inl (before_trans hab hbc)
        · exact .inl hab
        · exact .inl hbc
        · exact .inr ⟨rfl, ih h h'⟩

theorem lexBefore_connex {α : Type} [Ordered α] {as bs : List α}
    (h : lexBefore as bs = false) (h' : lexBefore bs as = false) : as = bs := by
  induction as generalizing bs with
  | nil =>
    cases bs with
    | nil => rfl
    | cons b bs => simp [lexBefore] at h
  | cons a as ih =>
    cases bs with
    | nil => simp [lexBefore] at h'
    | cons b bs =>
      simp only [lexBefore, Bool.or_eq_false_iff] at h h'
      have hab : a = b := before_connex h.1 h'.1
      subst hab
      have := ih (by simpa [before_irrefl] using h.2) (by simpa [before_irrefl] using h'.2)
      rw [this]

instance {α : Type} [Ordered α] : Ordered (List α) where
  before := lexBefore
  before_irrefl := lexBefore_irrefl
  before_trans := lexBefore_trans
  before_connex := lexBefore_connex

/-- Texts are ordered by code point. -/
instance : Ordered String :=
  byKey String.toList fun {_ _} h => String.toList_inj.mp h

/-! ## Pairs -/

/-- Lexicographic order of pairs. -/
instance {α β : Type} [Ordered α] [Ordered β] : Ordered (α × β) where
  before p q := before p.1 q.1 || (!before q.1 p.1 && before p.2 q.2)
  before_irrefl p := by simp [before_irrefl]
  before_trans {p q r} h h' := by
    simp only [Bool.or_eq_true, Bool.and_eq_true, Bool.not_eq_true'] at *
    rcases h with h | ⟨hn, h⟩ <;> rcases h' with h' | ⟨hn', h'⟩
    · exact .inl (before_trans h h')
    · cases hqr : before q.1 r.1 with
      | true => exact .inl (before_trans h hqr)
      | false => exact .inl (before_connex hqr hn' ▸ h)
    · cases hpq : before p.1 q.1 with
      | true => exact .inl (before_trans hpq h')
      | false => exact .inl (before_connex hpq hn ▸ h')
    · cases hpq : before p.1 q.1 with
      | true =>
        cases hqr : before q.1 r.1 with
        | true => exact .inl (before_trans hpq hqr)
        | false => exact .inl (before_connex hqr hn' ▸ hpq)
      | false =>
        cases hqr : before q.1 r.1 with
        | true => exact .inl (before_connex hpq hn ▸ hqr)
        | false =>
          refine .inr ⟨?_, before_trans h h'⟩
          rw [before_connex hpq hn, before_connex hqr hn']
          exact before_irrefl _
  before_connex {p q} h h' := by
    simp only [Bool.or_eq_false_iff] at h h'
    have h₁ : p.1 = q.1 := before_connex h.1 h'.1
    have h₂ : p.2 = q.2 := by
      refine before_connex ?_ ?_
      · simpa [h'.1] using h.2
      · simpa [h.1] using h'.2
    exact Prod.ext h₁ h₂

/-! ## Increasing lists -/

/-- An increasing list is determined by its members. -/
theorem eq_of_mem_iff {α : Type} {r : α → α → Prop} (asymm : ∀ {a b}, r a b → ¬r b a)
    {l m : List α} (hl : l.Pairwise r) (hm : m.Pairwise r) (h : ∀ x, x ∈ l ↔ x ∈ m) :
    l = m := by
  induction l generalizing m with
  | nil =>
    cases m with
    | nil => rfl
    | cons b bs => exact absurd ((h b).mpr (List.mem_cons_self ..)) (by simp)
  | cons a as ih =>
    cases m with
    | nil => exact absurd ((h a).mp (List.mem_cons_self ..)) (by simp)
    | cons b bs =>
      obtain ⟨ha, has⟩ := List.pairwise_cons.mp hl
      obtain ⟨hb, hbs⟩ := List.pairwise_cons.mp hm
      have hab : a = b := by
        rcases List.mem_cons.mp ((h a).mp (List.mem_cons_self ..)) with hab | hmem
        · exact hab
        · rcases List.mem_cons.mp ((h b).mpr (List.mem_cons_self ..)) with hba | hmem'
          · exact hba.symm
          · exact absurd (hb a hmem) (asymm (ha b hmem'))
      subst hab
      have irrefl : ¬r a a := fun haa => asymm haa haa
      refine congrArg (a :: ·) (ih has hbs fun x => ?_)
      constructor
      · intro hx
        rcases List.mem_cons.mp ((h x).mp (List.mem_cons_of_mem _ hx)) with rfl | hx'
        · exact absurd (ha x hx) irrefl
        · exact hx'
      · intro hx
        rcases List.mem_cons.mp ((h x).mpr (List.mem_cons_of_mem _ hx)) with rfl | hx'
        · exact absurd (hb x hx) irrefl
        · exact hx'

/-- Of some elements there is one list in order. -/
theorem eq_of_sorted {α : Type} [Ordered α] {l m : List α}
    (hl : l.Pairwise fun a b => before a b = true) (hm : m.Pairwise fun a b => before a b = true)
    (h : ∀ x, x ∈ l ↔ x ∈ m) : l = m :=
  eq_of_mem_iff (fun hab => by simp [before_asymm hab]) hl hm h

end Ordered

end ScenarioFsp
