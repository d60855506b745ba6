import ScenarioFsp.Proofs.Grammar.Traces

/-!
# What a reduction owes

A reduction turns a sound grammar into one that is sound again, that uses no name
which was not there before, and that is observed to do the same. These three
properties together (`IsReductOf`) can be chained, so it is enough to show them
for each reduction once; what any sequence of reductions does follows.
-/

namespace ScenarioFsp

namespace Grammar

/-- The rules, the actions and the symbols of `g'` are among those of `g`. -/
structure Within (g' g : Grammar) : Prop where
  rules : ∀ s, g'.hasRule s = true → g.hasRule s = true
  actions : ∀ p' ∈ g'.alternatives, ∀ a ∈ p'.actions, ∃ p ∈ g.alternatives, a ∈ p.actions
  /-- A symbol of an alternative may come from another alternative or from a rule. -/
  symbols : ∀ p' ∈ g'.alternatives, ∀ x ∈ p'.symbols,
    g.hasRule x = true ∨ ∃ p ∈ g.alternatives, x ∈ p.symbols

/-- Sound, without new names, and observed to do the same from the start. -/
structure IsReductOf (g' g : Grammar) : Prop where
  sound : g'.Sound
  within : g'.Within g
  observes : ∀ t, g'.Observes start t ↔ g.Observes start t

variable {g g' g'' : Grammar}

theorem Within.refl (g : Grammar) : g.Within g :=
  ⟨fun _ hs => hs, fun p hp _ ha => ⟨p, hp, ha⟩, fun p hp _ hx => Or.inr ⟨p, hp, hx⟩⟩

theorem Within.trans (h' : g''.Within g') (h : g'.Within g) : g''.Within g := by
  refine ⟨fun s hs => h.rules s (h'.rules s hs), fun p hp a ha => ?_, fun p hp x hx => ?_⟩
  · obtain ⟨p', hp', ha'⟩ := h'.actions p hp a ha
    exact h.actions p' hp' a ha'
  · rcases h'.symbols p hp x hx with hr | ⟨p', hp', hx'⟩
    · exact Or.inl (h.rules x hr)
    · exact h.symbols p' hp' x hx'

/-- Alternatives that were there before bring in no names. -/
theorem Within.of_subset (hrules : ∀ s, g'.hasRule s = true → g.hasRule s = true)
    (hsub : ∀ s p, p ∈ g'.alternativesOf s → p ∈ g.alternativesOf s) : g'.Within g := by
  have hmem : ∀ p ∈ g'.alternatives, p ∈ g.alternatives := by
    intro p hp
    obtain ⟨s, hs⟩ := mem_alternatives_iff.mp hp
    exact mem_alternatives_iff.mpr ⟨s, hsub s p hs⟩
  exact ⟨hrules, fun p hp a ha => ⟨p, hmem p hp, ha⟩,
    fun p hp x hx => Or.inr ⟨p, hmem p hp, hx⟩⟩

theorem Sound.isReductOf_self (hg : g.Sound) : g.IsReductOf g :=
  ⟨hg, .refl g, fun _ => Iff.rfl⟩

theorem IsReductOf.trans (h' : g''.IsReductOf g') (h : g'.IsReductOf g) : g''.IsReductOf g :=
  ⟨h'.sound, h'.within.trans h.within, fun t => (h'.observes t).trans (h.observes t)⟩

/-- A reduct has the traces of the grammar it comes from. -/
theorem IsReductOf.observableTraces_eq (h : g'.IsReductOf g) (hg : g.Sound) (n : Nat) :
    g'.observableTraces n = g.observableTraces n :=
  hg.observableTraces_congr h.sound h.observes n

end Grammar

end ScenarioFsp
