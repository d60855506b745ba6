import ScenarioFsp.Extraction
import ScenarioFsp.Proofs.Production

/-!
# Lifelines as threads of productions

A lifeline is cut into productions each of which starts where the one before it
ends. Read in order they lead from the opening point of the lifeline to its
closing point, and what can be seen of them together are the messages of the
lifeline, `_tau` left out. Nothing is lost at a cut: between two adjacent
conditions the component acts silently.

All of this is shown for the rest of a lifeline, given the actions since the last
cut, and by induction on that rest.
-/

namespace ScenarioFsp

open ScenarioFsp.Symbol (beginOf endOf ofCondition)

/-- `Threads s ps e`: each production starts where the one before it ends, the first at `s`, and
the last ends at `e`. -/
inductive Threads : Symbol → List Production → Symbol → Prop where
  | nil (s : Symbol) : Threads s [] s
  | cons {s m e : Symbol} {p : Production} {ps : List Production} :
      p.first? = some s → p.last? = some m → Threads m ps e → Threads s (p :: ps) e

namespace Lifeline

/-- Where a lifeline opens: at its leading condition or else at the beginning of its scenario. -/
def opening (scenario : String) (events : Lifeline) : Symbol :=
  events.opening?.getD (beginOf scenario)

/-- Where a lifeline closes: at its trailing condition or else at the end of its scenario. -/
def closing (scenario : String) (events : Lifeline) : Symbol :=
  events.closing?.getD (endOf scenario)

/-- What can be seen of a lifeline. -/
def spoken (events : Lifeline) : List String :=
  events.messages.filter fun a => decide (a ≠ Symbol.tau)

/-! ## Pieces -/

@[simp] theorem first?_piece (start : Symbol) (actions : List Symbol) (stop : Symbol) :
    (piece start actions stop).first? = some start := rfl

@[simp] theorem last?_piece (start : Symbol) (actions : List Symbol) (stop : Symbol) :
    (piece start actions stop).last? = some stop := by
  unfold piece Production.last?
  exact List.getLast?_concat

theorem actions_piece (start : Symbol) (actions : List Symbol) (stop : Symbol) :
    (piece start actions stop).actions = if actions.isEmpty then [Symbol.tau] else actions := by
  unfold piece Production.actions Production.tail
  exact List.dropLast_concat

/-- A piece without messages acts silently, so every piece acts. -/
theorem actions_piece_ne_nil (start : Symbol) (actions : List Symbol) (stop : Symbol) :
    (piece start actions stop).actions ≠ [] := by
  rw [actions_piece]
  cases actions with
  | nil => exact List.cons_ne_nil _ _
  | cons a as => exact List.cons_ne_nil _ _

/-- The silent action of a piece without messages cannot be seen. -/
@[simp] theorem visible_piece (start : Symbol) (actions : List Symbol) (stop : Symbol) :
    (piece start actions stop).visible = actions.filter fun a => decide (a ≠ Symbol.tau) := by
  unfold Production.visible
  rw [actions_piece]
  cases actions with
  | nil => rfl
  | cons a as => rfl

/-! ## The rest of a lifeline -/

variable {scenario : String} {start : Symbol} {actions : List Symbol}

theorem closing_cons {e : Event} {events : Lifeline} (h : events ≠ []) :
    closing scenario (e :: events) = closing scenario events := by
  unfold closing closing?
  cases events with
  | nil => exact absurd rfl h
  | cons e' rest => rw [List.getLast?_cons_cons]

theorem closing_message (label : String) (events : Lifeline) :
    closing scenario (.message label :: events) = closing scenario events := by
  by_cases h : events = []
  · rw [h]
    rfl
  · exact closing_cons h

/-- What is left of a lifeline leads on to its closing point, unless there is nothing left. -/
theorem threads_cut (events : Lifeline) (h : actions ≠ [] ∨ events ≠ []) :
    Threads start (cut scenario start actions events) (closing scenario events) := by
  induction events generalizing start actions with
  | nil =>
      have hactions : actions ≠ [] := h.resolve_right fun hne => hne rfl
      have hempty : actions.isEmpty = false := by simpa using hactions
      unfold cut
      rw [hempty]
      exact .cons (first?_piece _ _ _) (last?_piece _ _ _) (.nil _)
  | cons e rest ih =>
      cases e with
      | message label =>
          -- the message joins the actions, so something is left even at the end
          rw [closing_message]
          exact ih (Or.inl (by simp))
      | condition label =>
          refine .cons (first?_piece _ _ _) (last?_piece _ _ _) ?_
          by_cases hrest : rest = []
          · rw [hrest]
            exact .nil _
          · rw [closing_cons hrest]
            exact ih (Or.inr hrest)

theorem visible_cut (events : Lifeline) :
    (cut scenario start actions events).flatMap Production.visible =
      (actions ++ messages events).filter fun a => decide (a ≠ Symbol.tau) := by
  induction events generalizing start actions with
  | nil =>
      unfold cut
      cases actions with
      | nil => rfl
      | cons a as => simp [messages]
  | cons e rest ih =>
      cases e with
      | message label =>
          unfold cut
          rw [ih, List.append_assoc]
          rfl
      | condition label =>
          unfold cut
          rw [List.flatMap_cons, ih, visible_piece, ← List.filter_append]
          rfl

theorem cut_ne_nil {events : Lifeline} (h : actions ≠ [] ∨ events ≠ []) :
    cut scenario start actions events ≠ [] := by
  induction events generalizing start actions with
  | nil =>
      have hactions : actions ≠ [] := h.resolve_right fun hne => hne rfl
      simp [cut, hactions]
  | cons e rest ih =>
      cases e with
      | message label => exact ih (Or.inl (by simp))
      | condition label => exact List.cons_ne_nil _ _

theorem actions_ne_nil_of_mem_cut {events : Lifeline} {p : Production}
    (h : p ∈ cut scenario start actions events) : p.actions ≠ [] := by
  induction events generalizing start actions with
  | nil =>
      unfold cut at h
      split at h
      · exact absurd h List.not_mem_nil
      · rw [List.mem_singleton.mp h]
        exact actions_piece_ne_nil _ _ _
  | cons e rest ih =>
      cases e with
      | message label => exact ih h
      | condition label =>
          rcases List.mem_cons.mp h with rfl | hmem
          · exact actions_piece_ne_nil _ _ _
          · exact ih hmem

/-- After the first cut, productions start at conditions that do not come last. -/
theorem first?_of_mem_cut {events : Lifeline} {p : Production}
    (h : p ∈ cut scenario start actions events) :
    p.first? = some start ∨
      ∃ label, Event.condition label ∈ events.dropLast ∧
        p.first? = some (ofCondition label) := by
  induction events generalizing start actions with
  | nil =>
      unfold cut at h
      split at h
      · exact absurd h List.not_mem_nil
      · rw [List.mem_singleton.mp h]
        exact Or.inl rfl
  | cons e rest ih =>
      -- a condition further on is followed by something, so the rest is not empty
      have hmore : ∀ label, Event.condition label ∈ rest.dropLast →
          Event.condition label ∈ (e :: rest).dropLast := by
        intro label hlabel
        cases rest with
        | nil => exact absurd hlabel List.not_mem_nil
        | cons e' rest =>
            rw [List.dropLast_cons_cons]
            exact List.mem_cons_of_mem _ hlabel
      cases e with
      | message label =>
          rcases ih h with hstart | ⟨l, hl, hfirst⟩
          · exact Or.inl hstart
          · exact Or.inr ⟨l, hmore l hl, hfirst⟩
      | condition label =>
          unfold cut at h
          rcases List.mem_cons.mp h with rfl | hmem
          · exact Or.inl rfl
          · right
            rcases ih hmem with hstart | ⟨l, hl, hfirst⟩
            · refine ⟨label, ?_, hstart⟩
              cases rest with
              | nil => exact absurd hmem List.not_mem_nil
              | cons e' rest => exact List.mem_cons_self
            · exact ⟨l, hmore l hl, hfirst⟩

/-! ## Whole lifelines -/

/-- **The productions of a lifeline lead from its opening point to its closing point.** -/
theorem threads_productions {events : Lifeline} (h : events ≠ []) :
    Threads (opening scenario events) (productions scenario events)
      (closing scenario events) := by
  cases events with
  | nil => exact absurd rfl h
  | cons e rest =>
      cases e with
      | message label => exact threads_cut _ (Or.inr (List.cons_ne_nil _ _))
      | condition label =>
          by_cases hrest : rest = []
          · rw [hrest]
            exact .nil _
          · rw [closing_cons hrest]
            exact threads_cut _ (Or.inr hrest)

theorem visible_productions (scenario : String) (events : Lifeline) :
    (productions scenario events).flatMap Production.visible = spoken events := by
  cases events with
  | nil => rfl
  | cons e rest =>
      cases e with
      | message label => exact visible_cut _
      | condition label => exact visible_cut _

/-- **Every production acts**, if only silently. -/
theorem actions_ne_nil_of_mem_productions {events : Lifeline} {p : Production}
    (h : p ∈ productions scenario events) : p.actions ≠ [] := by
  cases events with
  | nil => exact absurd h List.not_mem_nil
  | cons e rest =>
      cases e with
      | message label =>
          have hcut : p ∈ cut scenario (beginOf scenario) [label] rest := h
          exact actions_ne_nil_of_mem_cut hcut
      | condition label => exact actions_ne_nil_of_mem_cut h

theorem tail_ne_nil_of_mem_productions {events : Lifeline} {p : Production}
    (h : p ∈ productions scenario events) : p.tail ≠ [] :=
  Production.tail_ne_nil_of_actions (actions_ne_nil_of_mem_productions h)

/-- A production starts at the opening point or at a condition inside of the lifeline. -/
theorem first?_of_mem_productions {events : Lifeline} {p : Production}
    (h : p ∈ productions scenario events) :
    p.first? = some (opening scenario events) ∨
      ∃ label, Event.condition label ∈ events.tail.dropLast ∧
        p.first? = some (ofCondition label) := by
  cases events with
  | nil => exact absurd h List.not_mem_nil
  | cons e rest =>
      cases e with
      | message label =>
          have hcut : p ∈ cut scenario (beginOf scenario) [label] rest := h
          exact first?_of_mem_cut hcut
      | condition label => exact first?_of_mem_cut h

/-- Only an empty lifeline and a lone condition have no productions. -/
theorem productions_eq_nil {events : Lifeline} (h : productions scenario events = []) :
    events = [] ∨ ∃ label, events = [.condition label] := by
  cases events with
  | nil => exact Or.inl rfl
  | cons e rest =>
      cases e with
      | message label => exact absurd h (cut_ne_nil (Or.inr (List.cons_ne_nil _ _)))
      | condition label =>
          right
          by_cases hrest : rest = []
          · exact ⟨label, by rw [hrest]⟩
          · exact absurd h (cut_ne_nil (Or.inr hrest))

end Lifeline

end ScenarioFsp
