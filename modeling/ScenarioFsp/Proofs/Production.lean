import ScenarioFsp.Production

/-!
# Parts of changed productions

A production is read in three ways: where it starts, what can be seen of it, and
where it ends. The reductions of a grammar change productions by giving them
another start, another end, or by joining two of them. This module says what
each change does to the three readings.

A production of one symbol is the case to watch: its only symbol is start and
end at once, so a new start moves the end as well.
-/

namespace ScenarioFsp.Production

/-! ## The end, read off the tail -/

theorem symbols_eq_cons {p : Production} {s : Symbol} (h : p.first? = some s) :
    p.symbols = s :: p.tail := by
  obtain ⟨symbols⟩ := p
  cases symbols with
  | nil => exact absurd h (by simp [first?])
  | cons a as =>
    have : a = s := by simpa [first?] using h
    rw [this]
    rfl

/-- The end is the last symbol of the tail, and the start if there is no tail. -/
theorem last?_eq {p : Production} {s : Symbol} (h : p.first? = some s) :
    p.last? = some (p.tail.getLast?.getD s) := by
  have hp := symbols_eq_cons h
  unfold last?
  rw [hp, List.getLast?_cons]

theorem last?_eq_of_tail_nil {p : Production} {s : Symbol} (h : p.first? = some s)
    (ht : p.tail = []) : p.last? = some s := by
  rw [last?_eq h, ht]
  rfl

theorem last?_eq_getLast?_tail {p : Production} (h : p.tail ≠ []) :
    p.last? = p.tail.getLast? := by
  obtain ⟨symbols⟩ := p
  cases symbols with
  | nil => exact absurd rfl h
  | cons a as =>
    have has : as ≠ [] := h
    simp [last?, tail, List.getLast?_cons, List.getLast?_eq_some_getLast has]

/-- A production that ends elsewhere than it starts has a tail. -/
theorem tail_ne_nil {p : Production} {s e : Symbol} (hf : p.first? = some s)
    (hl : p.last? = some e) (hne : e ≠ s) : p.tail ≠ [] := by
  intro ht
  rw [last?_eq_of_tail_nil hf ht] at hl
  exact hne (Option.some.inj hl).symm

theorem tail_ne_nil_of_actions {p : Production} (h : p.actions ≠ []) : p.tail ≠ [] := by
  intro ht
  refine h ?_
  unfold actions
  rw [ht]
  rfl

theorem symbols_ne_nil_of_actions {p : Production} (h : p.actions ≠ []) : p.symbols ≠ [] := by
  intro hnil
  refine tail_ne_nil_of_actions h ?_
  unfold tail
  rw [hnil]
  rfl

theorem mem_tail_of_mem_actions {p : Production} {a : Symbol} (h : a ∈ p.actions) : a ∈ p.tail :=
  (List.dropLast_sublist p.tail).subset h

theorem isEmpty_eq_false {p : Production} {s : Symbol} (h : p.first? = some s) :
    p.isEmpty = false := by
  simp [isEmpty, symbols_eq_cons h]

/-- Nothing is missing among productions that start somewhere. -/
theorem needSymbols_eq_ok {fault : Fault} {ps : List Production}
    (h : ∀ p ∈ ps, ∃ s, p.first? = some s) : needSymbols fault ps = .ok () := by
  unfold needSymbols
  rw [if_neg]
  intro hany
  obtain ⟨p, hp, hempty⟩ := List.any_eq_true.mp hany
  obtain ⟨s, hs⟩ := h p hp
  rw [isEmpty_eq_false hs] at hempty
  exact absurd hempty (by simp)

/-! ## Another start -/

@[simp] theorem first?_startingAt (s : Symbol) (p : Production) :
    (p.startingAt s).first? = some s := rfl

@[simp] theorem tail_startingAt (s : Symbol) (p : Production) :
    (p.startingAt s).tail = p.tail := rfl

@[simp] theorem actions_startingAt (s : Symbol) (p : Production) :
    (p.startingAt s).actions = p.actions := rfl

@[simp] theorem visible_startingAt (s : Symbol) (p : Production) :
    (p.startingAt s).visible = p.visible := rfl

theorem startingAt_self {p : Production} {s : Symbol} (h : p.first? = some s) :
    p.startingAt s = p :=
  Production.ext (symbols_eq_cons h).symm

theorem last?_startingAt {p : Production} (h : p.tail ≠ []) (s : Symbol) :
    (p.startingAt s).last? = p.last? := by
  rw [last?_eq_getLast?_tail h, last?_eq_getLast?_tail (by simpa using h), tail_startingAt]

/-! ## Another end -/

@[simp] theorem last?_endingAt (e : Symbol) (p : Production) :
    (p.endingAt e).last? = some e := by
  simp [last?, endingAt]

@[simp] theorem actions_endingAt (e : Symbol) (p : Production) :
    (p.endingAt e).actions = p.actions := by
  obtain ⟨symbols⟩ := p
  rcases symbols with _ | ⟨a, _ | ⟨b, bs⟩⟩
  · rfl
  · rfl
  · simp only [actions, tail, endingAt, List.dropLast_cons_cons, List.cons_append, List.tail_cons]
    exact List.dropLast_concat

theorem first?_endingAt {p : Production} (h : p.tail ≠ []) (e : Symbol) :
    (p.endingAt e).first? = p.first? := by
  obtain ⟨symbols⟩ := p
  rcases symbols with _ | ⟨a, _ | ⟨b, bs⟩⟩
  · exact absurd rfl h
  · exact absurd rfl h
  · rfl

/-! ## Joining two productions -/

theorem first?_splice {p : Production} (h : p.tail ≠ []) (q : Production) :
    (p.splice q).first? = p.first? := by
  obtain ⟨symbols⟩ := p
  rcases symbols with _ | ⟨a, _ | ⟨b, bs⟩⟩
  · exact absurd rfl h
  · exact absurd rfl h
  · rfl

theorem tail_splice {p : Production} (h : p.tail ≠ []) (q : Production) :
    (p.splice q).tail = p.actions ++ q.tail := by
  obtain ⟨symbols⟩ := p
  rcases symbols with _ | ⟨a, _ | ⟨b, bs⟩⟩
  · exact absurd rfl h
  · exact absurd rfl h
  · rfl

theorem actions_splice {p q : Production} (hp : p.tail ≠ []) (hq : q.tail ≠ []) :
    (p.splice q).actions = p.actions ++ q.actions := by
  unfold actions
  rw [tail_splice hp q, List.dropLast_append_of_ne_nil hq]
  rfl

theorem visible_splice {p q : Production} (hp : p.tail ≠ []) (hq : q.tail ≠ []) :
    (p.splice q).visible = p.visible ++ q.visible := by
  simp [visible, actions_splice hp hq]

theorem last?_splice {p q : Production} (hp : p.tail ≠ []) (hq : q.tail ≠ []) :
    (p.splice q).last? = q.last? := by
  have hs : (p.splice q).tail ≠ [] := by
    rw [tail_splice hp q]
    simp [hq]
  rw [last?_eq_getLast?_tail hs, tail_splice hp q, last?_eq_getLast?_tail hq,
    List.getLast?_append, List.getLast?_eq_some_getLast hq]
  rfl

/-! ## Silent productions -/

theorem isSilent_iff {p : Production} :
    p.isSilent = true ↔ p.actions ≠ [] ∧ ∀ a ∈ p.actions, a = Symbol.tau := by
  simp [isSilent]

/-- Only the actions decide whether a production is silent. -/
theorem isSilent_congr {p q : Production} (h : p.actions = q.actions) :
    p.isSilent = q.isSilent := by
  unfold isSilent
  rw [h]

/-- A joined production is silent only if one of the two was: the first, if it acts at all. -/
theorem isSilent_of_splice {p q : Production} (hp : p.tail ≠ []) (hq : q.tail ≠ [])
    (h : (p.splice q).isSilent = true) : p.isSilent = true ∨ q.isSilent = true := by
  rw [isSilent_iff, actions_splice hp hq] at h
  obtain ⟨hne, hall⟩ := h
  by_cases hacts : p.actions = []
  · rw [hacts, List.nil_append] at hne hall
    exact Or.inr (isSilent_iff.mpr ⟨hne, hall⟩)
  · refine Or.inl (isSilent_iff.mpr ⟨hacts, fun a ha => ?_⟩)
    exact hall a (List.mem_append_left _ ha)

/-- Nothing can be seen of a silent production. -/
theorem visible_eq_nil {p : Production} (h : p.isSilent = true) : p.visible = [] := by
  simp only [isSilent, Bool.and_eq_true, List.all_eq_true, decide_eq_true_eq] at h
  simp only [visible, List.filter_eq_nil_iff, decide_eq_true_eq, ne_eq,
    Decidable.not_not]
  exact h.2

end ScenarioFsp.Production
