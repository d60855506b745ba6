import ScenarioFsp.Proofs.Flow.Derivation
import ScenarioFsp.Proofs.Grammar.WellFormed

/-!
# Synthesis makes well-formed grammars

A derived grammar is well-formed whatever specification and whatever relation it is
derived from, as soon as the derivation succeeds: every production that is cut from
a lifeline acts, a copy acts like the original, and the rules that are missing at
the end are added. From there on no reduction leaves the well-formed grammars.
-/

namespace ScenarioFsp

/-! ## What the derivation puts together -/

theorem Production.actions_of_mem_copies {relation : Relation} {p q : Production} {x : Symbol}
    (hq : q.first? = some x) (hp : p ∈ q.copies relation) : p.actions = q.actions := by
  rcases (Production.mem_copies_iff hq).mp hp with ⟨y, -, rfl⟩ | ⟨-, rfl⟩
  · exact Production.actions_startingAt y q
  · rfl

/-- Every production of a component acts, wherever it was copied to. -/
theorem actions_ne_nil_of_mem_reroot {relation : Relation} {lifelines : List (String × Lifeline)}
    {p : Production} (h : p ∈ reroot relation (extract lifelines)) : p.actions ≠ [] := by
  obtain ⟨q, hq, hcopy⟩ := mem_reroot_iff.mp h
  obtain ⟨name, events, -, hprod⟩ := mem_extract_iff.mp hq
  obtain ⟨x, hx⟩ := Specification.exists_first? hprod
  rw [Production.actions_of_mem_copies hx hcopy]
  exact Lifeline.actions_ne_nil_of_mem_productions hprod

/-- A grammar made from rules is a completed one. -/
theorem Grammar.exists_complete_of_ofRules {rules : List Rule} {g : Grammar}
    (h : ofRules rules = .ok g) : ∃ g₀ : Grammar, g = g₀.complete := by
  unfold ofRules at h
  cases hadd : addRules ⟨.empty⟩ rules with
  | error e =>
      rw [hadd] at h
      exact absurd h (by simp [Except.map])
  | ok g₀ =>
      rw [hadd] at h
      exact ⟨g₀, (Except.ok.inj h).symm⟩

/-- A list of productions that all act makes a well-formed grammar. -/
theorem Grammar.wellFormed_of_ofRules {ps : List Production} {g : Grammar}
    (h : ofRules (groupByStart ps) = .ok g) (hacts : ∀ p ∈ ps, p.actions ≠ []) :
    g.WellFormed := by
  obtain ⟨g', hg', hsound, halts⟩ := exists_ofRules_groupByStart ps
  obtain rfl := Except.ok.inj (h.symm.trans hg')
  obtain ⟨g₀, rfl⟩ := exists_complete_of_ofRules h
  refine hsound.wellFormed_of_forall (hasRule_complete (by decide) (Or.inl rfl))
    fun s p e hp hl => ⟨hacts p ((halts s p).mp hp).1, ?_⟩
  by_cases he : e = Symbol.final
  · exact Or.inr he
  · exact Or.inl (hasRule_complete he (Or.inr ⟨p, mem_alternatives_iff.mpr ⟨s, hp⟩, hl⟩))

theorem Derivation.wellFormed_of_ofLifelines {common : Relation} {component : String}
    {lifelines : List (String × Lifeline)} {d : Derivation}
    (h : ofLifelines common component lifelines = .ok d) : d.grammar.WellFormed := by
  have hfollows := follows_of_ofLifelines h
  refine Grammar.wellFormed_of_ofRules hfollows.grammar_eq fun p hp => ?_
  have hrooted : p ∈ d.rooted := OrderedSet.mem_def.mpr hp
  rw [hfollows.rooted_eq] at hrooted
  exact actions_ne_nil_of_mem_reroot hrooted

/-- Simplifying a well-formed grammar never fails, and makes steps only. -/
theorem Derivation.exists_simplified {d : Derivation} (h : d.grammar.WellFormed) :
    ∃ c, d.simplified = .ok c ∧ c.derivation = d ∧
      d.grammar.simplify = .ok (c.grammar, c.statistics) ∧ d.grammar.Steps c.grammar ∧
      c.grammar.WellFormed := by
  obtain ⟨⟨g', stats⟩, hresult, hsteps⟩ := h.sound.exists_passes_steps d.grammar.passBound .zero
  have hgood := hsteps.wellFormed h
  have hsimplify : d.grammar.simplify = .ok (g', stats) := hresult
  refine ⟨⟨d, g', stats⟩, ?_, rfl, hsimplify, hsteps, hgood⟩
  unfold simplified
  rw [hsimplify]
  simp only [Except.bind, hgood.check, Except.map]

namespace Specification

/-- **A derived grammar is well-formed.** -/
theorem wellFormed_of_deriveComponent {spec : Specification} {common : Relation}
    {id : ComponentId} {d : Derivation} (h : spec.deriveComponent common id = .ok d) :
    d.grammar.WellFormed := by
  cases hc : spec.component? id with
  | none =>
      unfold deriveComponent at h
      rw [hc] at h
      exact absurd h (by simp)
  | some c =>
      rcases deriveComponent_cases hc common with ⟨-, hd⟩ | ⟨s, -, -, hd⟩
      · exact Derivation.wellFormed_of_ofLifelines (hd.symm.trans h)
      · rw [hd] at h
        exact absurd h (by simp)

/-- A synthesised component comes from its derivation by steps. -/
theorem steps_of_synthesiseComponent {spec : Specification} {common : Relation}
    {id : ComponentId} {c : SynthesisedComponent} (h : spec.synthesiseComponent common id = .ok c) :
    spec.deriveComponent common id = .ok c.derivation ∧ c.derivation.grammar.WellFormed ∧
      c.derivation.grammar.Steps c.grammar ∧ c.grammar.WellFormed := by
  unfold synthesiseComponent at h
  cases hd : spec.deriveComponent common id with
  | error e =>
      rw [hd] at h
      exact absurd h (by simp [Except.bind])
  | ok d =>
      have hgood := wellFormed_of_deriveComponent hd
      obtain ⟨c', hc', hfrom, -, hsteps, hgood'⟩ := Derivation.exists_simplified hgood
      rw [hd] at h
      obtain rfl := Except.ok.inj (h.symm.trans hc')
      subst hfrom
      exact ⟨rfl, hgood, hsteps, hgood'⟩

/--
**Well-formedness is never lost.** From a well-formed grammar the reductions can be
applied in any order: none of them fails, they make steps only, and the result is
well-formed and has no new rules. So it is in the middle of an inlining, after the
first symbols that it takes. Nowhere on the way is there a production without
symbols. And whenever a component's grammar is derived, it is well-formed.
-/
theorem wellFormed_throughout :
    (∀ g : Grammar, g.WellFormed →
      (∀ rs, ∃ g', Grammar.reduceAll rs g = .ok g' ∧ g.Steps g' ∧ g'.WellFormed ∧
        ∀ s, g'.hasRule s = true → g.hasRule s = true) ∧
      (∀ symbols, ∃ c, g.inlineRules symbols = .ok c ∧ g.Steps c.grammar) ∧
      ∀ between, g.Steps between → ∀ p ∈ between.alternatives, p.symbols ≠ []) ∧
    ∀ (spec : Specification) (common : Relation) (id : ComponentId) (d : Derivation),
      spec.deriveComponent common id = .ok d → d.grammar.WellFormed := by
  refine ⟨fun g hg => ⟨fun rs => ?_, fun symbols => ?_, fun between hsteps p hp => ?_⟩,
    fun spec common id d h => ?_⟩
  · obtain ⟨g', hg', hsteps⟩ := hg.sound.exists_reduceAll_steps rs
    exact ⟨g', hg', hsteps, hsteps.wellFormed hg, fun s hs => hsteps.hasRule hg.sound hs⟩
  · obtain ⟨c, hc, hinlines⟩ := hg.sound.exists_inlines symbols
    exact ⟨c, hc, hinlines.steps⟩
  · exact (hsteps.wellFormed hg).symbols_ne_nil hp
  · exact wellFormed_of_deriveComponent h

theorem wellFormed_throughout_session :
    ∃ d g', session.deriveComponent (.ofPairs session.commonPairs) ⟨0⟩ = .ok d ∧
      d.grammar.WellFormed ∧
      Grammar.reduceAll [.inlineSingles, .mergeTwins, .dropUnused] d.grammar = .ok g' ∧
      g'.numRules = 1 ∧ g'.WellFormed ∧ ∀ p ∈ g'.alternatives, p.symbols ≠ [] := by
  have hres : session.Resolves user :=
    ⟨by decide, by decide, by decide, by decide, by decide⟩
  have hc : session.component? ⟨0⟩ = some user := rfl
  obtain ⟨d, hd, -, -⟩ := exists_derivation hc hres
  obtain ⟨hkept, hderived⟩ := wellFormed_throughout
  have hgood := hderived _ _ _ _ hd
  obtain ⟨hreduce, -, hbetween⟩ := hkept _ hgood
  obtain ⟨g', hg', hsteps, hgood', -⟩ := hreduce [.inlineSingles, .mergeTwins, .dropUnused]
  refine ⟨d, g', hd, hgood, hg', ?_, hgood', hbetween _ hsteps⟩
  have hone : ((session.deriveComponent (.ofPairs session.commonPairs) ⟨0⟩).bind fun d =>
      Grammar.reduceAll [.inlineSingles, .mergeTwins, .dropUnused] d.grammar).toOption.map
        Grammar.numRules = some 1 := by decide +kernel
  rw [hd] at hone
  simp only [Except.bind] at hone
  rw [hg'] at hone
  exact Option.some.inj hone

end Specification

end ScenarioFsp
