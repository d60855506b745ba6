import ScenarioFsp.Grammar.Merging
import ScenarioFsp.Proofs.Grammar.Reducts

/-!
# Names of rules and names of actions

Rules and actions share one kind of symbol, and rules are compared by writing
`<self>` for their own symbol wherever it stands, actions included. `NamesApart`
says that this cannot be misread: no action is the symbol of a rule, and `<self>`
is not used as a name. A grammar whose names are apart stays one whatever
reductions it goes through.
-/

namespace ScenarioFsp

namespace Grammar

/-- No action is the symbol of a rule, and `<self>` occurs nowhere. -/
structure NamesApart (g : Grammar) : Prop where
  actions : ∀ p ∈ g.alternatives, ∀ a ∈ p.actions, g.hasRule a = false
  rules : g.hasRule selfReference = false
  symbols : ∀ p ∈ g.alternatives, selfReference ∉ p.symbols

theorem NamesApart.of_within {g g' : Grammar} (h : g.NamesApart) (hw : g'.Within g) :
    g'.NamesApart := by
  refine ⟨?_, ?_, ?_⟩
  · intro p' hp' a ha
    obtain ⟨p, hp, hap⟩ := hw.actions p' hp' a ha
    exact hasRule_eq_false (hw.rules a) (h.actions p hp a hap)
  · exact hasRule_eq_false (hw.rules _) h.rules
  · intro p' hp' hx
    rcases hw.symbols p' hp' _ hx with hr | ⟨p, hp, hxp⟩
    · exact absurd hr (by simp [h.rules])
    · exact h.symbols p hp hxp

end Grammar

end ScenarioFsp
