import ScenarioFsp.Order

/-!
# Finite maps in order

An `OrderedMap` is a list of entries with strictly increasing keys. It is read
through `get?`, which determines the map (`OrderedMap.ext_get?`).
-/

namespace ScenarioFsp

/-- A finite map, kept as its entries in increasing order of the keys. -/
@[ext]
structure OrderedMap (κ β : Type) [Ordered κ] where
  entries : List (κ × β)
  sorted : entries.Pairwise fun p q => Ordered.before p.1 q.1 = true
deriving DecidableEq

namespace OrderedMap

variable {κ β : Type} [Ordered κ]

open Ordered

/-- The map that holds nothing. -/
def empty : OrderedMap κ β := ⟨[], .nil⟩

/-- The keys in increasing order. -/
def keys (m : OrderedMap κ β) : List κ := m.entries.map Prod.fst

/-- What the map holds, in the order of the keys. -/
def values (m : OrderedMap κ β) : List β := m.entries.map Prod.snd

/-- The number of keys. -/
def size (m : OrderedMap κ β) : Nat := m.entries.length

/-- What the map holds under `key`. -/
def get? [DecidableEq κ] (m : OrderedMap κ β) (key : κ) : Option β :=
  (m.entries.find? fun p => decide (p.1 = key)).map Prod.snd

/-- Whether the map holds something under `key`. -/
def hasKey [DecidableEq κ] (m : OrderedMap κ β) (key : κ) : Bool := (m.get? key).isSome

theorem get?_eq_some_iff [DecidableEq κ] {m : OrderedMap κ β} {key : κ} {b : β} :
    m.get? key = some b ↔ (key, b) ∈ m.entries := by
  obtain ⟨l, hl⟩ := m
  simp only [get?, Option.map_eq_some_iff]
  induction l with
  | nil => simp
  | cons p ps ih =>
    obtain ⟨hp, hps⟩ := List.pairwise_cons.mp hl
    simp only [List.find?_cons]
    split
    · rename_i h
      have hk : p.1 = key := of_decide_eq_true h
      constructor
      · rintro ⟨q, hq, rfl⟩
        cases hq
        subst hk
        exact List.mem_cons_self ..
      · intro h
        rcases List.mem_cons.mp h with rfl | h
        · exact ⟨_, rfl, rfl⟩
        · exact absurd hk (before_ne (hp _ h))
    · rename_i h
      have hk : p.1 ≠ key := of_decide_eq_false h
      rw [ih hps, List.mem_cons]
      constructor
      · exact .inr
      · rintro (rfl | h)
        · exact absurd rfl hk
        · exact h

theorem mem_keys_iff [DecidableEq κ] {m : OrderedMap κ β} {key : κ} :
    key ∈ m.keys ↔ m.hasKey key = true := by
  simp only [keys, hasKey, List.mem_map, Option.isSome_iff_exists, get?_eq_some_iff]
  constructor
  · rintro ⟨⟨k, b⟩, h, rfl⟩
    exact ⟨b, h⟩
  · rintro ⟨b, h⟩
    exact ⟨(key, b), h, rfl⟩

/-! ## Insertion -/

/-- Puts the entry where its key belongs, in place of an entry with that key. -/
def insertInto (key : κ) (b : β) : List (κ × β) → List (κ × β)
  | [] => [(key, b)]
  | p :: ps =>
    if before key p.1 then (key, b) :: p :: ps
    else if before p.1 key then p :: insertInto key b ps
    else (key, b) :: ps

theorem mem_of_mem_insertInto {key : κ} {b : β} {p : κ × β} {l : List (κ × β)}
    (h : p ∈ insertInto key b l) : p = (key, b) ∨ p ∈ l := by
  induction l with
  | nil => simpa [insertInto] using h
  | cons q qs ih =>
    simp only [insertInto] at h
    split at h
    · simpa using h
    · split at h
      · rcases List.mem_cons.mp h with rfl | h
        · exact .inr (List.mem_cons_self ..)
        · exact (ih h).imp id (List.mem_cons_of_mem _)
      · rcases List.mem_cons.mp h with rfl | h
        · exact .inl rfl
        · exact .inr (List.mem_cons_of_mem _ h)

theorem sorted_insertInto (key : κ) (b : β) {l : List (κ × β)}
    (h : l.Pairwise fun p q => before p.1 q.1 = true) :
    (insertInto key b l).Pairwise fun p q => before p.1 q.1 = true := by
  induction l with
  | nil => simp [insertInto]
  | cons q qs ih =>
    obtain ⟨hq, hqs⟩ := List.pairwise_cons.mp h
    simp only [insertInto]
    split
    · rename_i hk
      refine List.pairwise_cons.mpr ⟨fun x hx => ?_, h⟩
      rcases List.mem_cons.mp hx with rfl | hx
      · exact hk
      · exact before_trans hk (hq x hx)
    · split
      · rename_i hk
        refine List.pairwise_cons.mpr ⟨fun x hx => ?_, ih hqs⟩
        rcases mem_of_mem_insertInto hx with rfl | hx
        · exact hk
        · exact hq x hx
      · rename_i h₁ h₂
        have hk : key = q.1 := before_connex (by simpa using h₁) (by simpa using h₂)
        exact List.pairwise_cons.mpr ⟨fun x hx => hk ▸ hq x hx, hqs⟩

/-- Sets what `key` holds. -/
def insert (key : κ) (b : β) (m : OrderedMap κ β) : OrderedMap κ β :=
  ⟨insertInto key b m.entries, sorted_insertInto key b m.sorted⟩

/-! ## Selection and change in place -/

/-- Keeps the entries that pass a test. -/
def filter (keep : κ → β → Bool) (m : OrderedMap κ β) : OrderedMap κ β :=
  ⟨m.entries.filter fun p => keep p.1 p.2, m.sorted.filter _⟩

/-- Changes every value, knowing its key. -/
def mapValues {γ : Type} (f : κ → β → γ) (m : OrderedMap κ β) : OrderedMap κ γ :=
  ⟨m.entries.map fun p => (p.1, f p.1 p.2), List.pairwise_map.mpr m.sorted⟩

@[simp] theorem keys_mapValues {γ : Type} (f : κ → β → γ) (m : OrderedMap κ β) :
    (m.mapValues f).keys = m.keys := by
  simp [keys, mapValues]

theorem get?_mapValues [DecidableEq κ] {γ : Type} (f : κ → β → γ) (m : OrderedMap κ β)
    (key : κ) : (m.mapValues f).get? key = (m.get? key).map (f key) := by
  refine Option.ext fun c => ?_
  simp only [get?_eq_some_iff, mapValues, List.mem_map, Prod.mk.injEq, Option.map_eq_some_iff]
  constructor
  · rintro ⟨⟨k, b⟩, h, rfl, rfl⟩
    exact ⟨b, h, rfl⟩
  · rintro ⟨b, h, rfl⟩
    exact ⟨(key, b), h, rfl, rfl⟩

theorem get?_filter [DecidableEq κ] (keep : κ → β → Bool) (m : OrderedMap κ β) (key : κ) :
    (m.filter keep).get? key = (m.get? key).filter (keep key) := by
  refine Option.ext fun c => ?_
  simp [get?_eq_some_iff, filter, List.mem_filter, Option.filter_eq_some_iff]

/-! ## What a key holds determines the map -/

theorem keys_sorted (m : OrderedMap κ β) :
    m.keys.Pairwise fun a b => before a b = true :=
  List.pairwise_map.mpr m.sorted

theorem get?_insert [DecidableEq κ] (key k : κ) (b : β) (m : OrderedMap κ β) :
    (m.insert key b).get? k = if k = key then some b else m.get? k := by
  obtain ⟨l, hl⟩ := m
  show ((insertInto key b l).find? _).map Prod.snd = if k = key then some b else (l.find? _).map _
  clear hl
  induction l with
  | nil =>
    by_cases hk : k = key
    · simp [insertInto, hk]
    · simp [insertInto, hk, Ne.symm hk]
  | cons q qs ih =>
    simp only [insertInto]
    split
    · by_cases hk : k = key
      · simp [hk]
      · simp [hk, Ne.symm hk]
    · split
      · rename_i hq
        have hne : q.1 ≠ key := before_ne hq
        by_cases hk : k = key
        · subst hk
          simpa [hne] using ih
        · by_cases hqk : q.1 = k
          · simp [hqk, hk]
          · simpa [hqk, hk] using ih
      · rename_i h₁ h₂
        have hkq : key = q.1 := before_connex (by simpa using h₁) (by simpa using h₂)
        by_cases hk : k = key
        · simp [hk]
        · simp [hk, Ne.symm hk, ← hkq]

theorem ext_get? [DecidableEq κ] {m n : OrderedMap κ β} (h : ∀ k, m.get? k = n.get? k) :
    m = n := by
  refine OrderedMap.ext (eq_of_mem_iff (fun h => by simp [before_asymm h]) m.sorted n.sorted ?_)
  intro ⟨k, b⟩
  rw [← get?_eq_some_iff, ← get?_eq_some_iff, h k]

end OrderedMap

end ScenarioFsp
