import ScenarioFsp.Proofs.Grammar.Steps

/-!
# Silent steps do not come back

Folding leaves no silent steps behind. Nothing brings them back: a step that drops
rules or alternatives cannot, a joined alternative is silent only if one of its two
halves was, and a renamed end had a rule before it was renamed. So folding has
something to do at most once, whatever is done after it.
-/

namespace ScenarioFsp

namespace Grammar

/-- No alternative only moves on to another rule without being seen. -/
def NoSilentSteps (g : Grammar) : Prop := ∀ p ∈ g.alternatives, g.isSilentStep p = false

variable {g g' : Grammar}

theorem isSilentStep_eq_true_iff {p : Production} :
    g.isSilentStep p = true ↔ p.isSilent = true ∧ ∃ e, p.last? = some e ∧ g.hasRule e = true := by
  unfold isSilentStep
  rw [Bool.and_eq_true, Option.any_eq_true]

/-- Read at the alternatives of one symbol. -/
theorem NoSilentSteps.not_hasRule (h : g.NoSilentSteps) {s e : Symbol} {p : Production}
    (hp : p ∈ g.alternativesOf s) (hsilent : p.isSilent = true) (hl : p.last? = some e) :
    g.hasRule e = false := by
  have hstep := h p (mem_alternatives_iff.mpr ⟨s, hp⟩)
  cases he : g.hasRule e with
  | false => rfl
  | true =>
      rw [isSilentStep_eq_true_iff.mpr ⟨hsilent, e, hl, he⟩] at hstep
      exact absurd hstep (by simp)

theorem noSilentSteps_of_forall
    (h : ∀ s e p, p ∈ g.alternativesOf s → p.isSilent = true → p.last? = some e →
      g.hasRule e = false) : g.NoSilentSteps := by
  intro p hp
  obtain ⟨s, hps⟩ := mem_alternatives_iff.mp hp
  cases hstep : g.isSilentStep p with
  | false => rfl
  | true =>
      obtain ⟨hsilent, e, hl, he⟩ := isSilentStep_eq_true_iff.mp hstep
      rw [h s e p hps hsilent hl] at he
      exact absurd he (by simp)

/-- Dropping rules and alternatives makes no silent steps. -/
theorem NoSilentSteps.of_subset (h : g.NoSilentSteps)
    (hrules : ∀ s, g'.hasRule s = true → g.hasRule s = true)
    (hsub : ∀ s p, p ∈ g'.alternativesOf s → p ∈ g.alternativesOf s) : g'.NoSilentSteps := by
  refine noSilentSteps_of_forall fun s e p hp hsilent hl => ?_
  exact hasRule_eq_false (hrules e) (h.not_hasRule (hsub s p hp) hsilent hl)

/-- **Folding leaves no silent steps**, whatever there was before. -/
theorem Sound.noSilentSteps_folded (hg : g.Sound) : g.folded.NoSilentSteps := by
  refine noSilentSteps_of_forall fun s e p hp hsilent hl => ?_
  rw [hasRule_folded]
  obtain ⟨t, q, -, hq, rfl⟩ := hg.mem_alternativesOf_folded_iff.mp hp
  obtain ⟨hqt, hsound⟩ := mem_soundAlternatives_iff.mp hq
  rw [Production.isSilent_congr (Production.actions_startingAt s q)] at hsilent
  -- a silent production has a tail, so the copy ends where the original does
  have htail : q.tail ≠ [] :=
    Production.tail_ne_nil_of_actions (Production.isSilent_iff.mp hsilent).1
  rw [Production.last?_startingAt htail] at hl
  cases he : g.hasRule e with
  | false => rfl
  | true =>
      rw [isSilentStep_eq_true_iff.mpr ⟨hsilent, e, hl, he⟩] at hsound
      exact absurd hsound (by simp)

/-- An alternative that was joined to another is no silent step, for neither of the two was. -/
theorem Sound.noSilentSteps_inlined (hg : g.Sound) (h : g.NoSilentSteps) {symbol target : Symbol}
    {p : Production} (hsingle : g.Single symbol p target) :
    (g.inlined symbol p).NoSilentSteps := by
  refine noSilentSteps_of_forall fun s e q' hq' hsilent hl => ?_
  obtain ⟨hs, q, hq, rfl⟩ := mem_alternativesOf_inlined_iff.mp hq'
  refine hasRule_eq_false ((hg.inlined_within hsingle).rules e) ?_
  by_cases hend : q.last? = some symbol
  · rw [if_pos hend] at hsilent hl
    obtain ⟨hqt, hlast, -⟩ := hg.spliced hsingle hs hq hend
    rw [hlast] at hl
    obtain rfl := Option.some.inj hl
    rcases Production.isSilent_of_splice hqt (hg.tail_ne_nil_of_single hsingle) hsilent with
      hfirst | hsecond
    · have hsymbol := hasRule_of_mem hsingle.mem
      rw [h.not_hasRule hq hfirst hend] at hsymbol
      exact absurd hsymbol (by simp)
    · exact h.not_hasRule hsingle.mem hsecond hsingle.leads
  · rw [if_neg hend] at hsilent hl
    exact h.not_hasRule hq hsilent hl

/-- A silent alternative with a renamed end had an end with a rule. -/
theorem Sound.noSilentSteps_renamed (hg : g.Sound) (h : g.NoSilentSteps) :
    (g.renamed g.twinNames).NoSilentSteps := by
  refine noSilentSteps_of_forall fun s e p' hp' hsilent hl => ?_
  obtain ⟨-, p, hp, rfl⟩ := mem_alternativesOf_renamed_iff.mp hp'
  rw [Production.isSilent_congr (actions_renameEnd _ p)] at hsilent
  rw [last?_renameEnd] at hl
  obtain ⟨e₀, hl₀, rfl⟩ := Option.map_eq_some_iff.mp hl
  have hnone := h.not_hasRule hp hsilent hl₀
  cases hname : g.twinNames.get? e₀ with
  | some e₁ =>
      rw [(hg.twinNames_rules hname).1] at hnone
      exact absurd hnone (by simp)
  | none =>
      rw [standIn_of_none hname]
      exact hasRule_eq_false (fun he => (hasRule_renamed.mp he).1) hnone

/-- **No step brings a silent step back.** -/
theorem Sound.noSilentSteps_step (hg : g.Sound) (h : g.NoSilentSteps) (hstep : g.Step g') :
    g'.NoSilentSteps := by
  have hrules := (hg.within_of_step hstep).rules
  cases hstep with
  | restrict => exact h.of_subset hrules fun _ _ hp => mem_alternativesOf_restricted hp
  | fold => exact hg.noSilentSteps_folded
  | dropLoops => exact h.of_subset hrules fun _ _ hp => (mem_alternativesOf_dropSilentLoops.mp hp).1
  | inline _ hsingle => exact hg.noSilentSteps_inlined h hsingle
  | dropRepeats => exact h.of_subset hrules fun _ _ hp => mem_alternativesOf_dropRepeats.mp hp
  | merge => exact hg.noSilentSteps_renamed h

theorem Steps.noSilentSteps (hsteps : g.Steps g') (hg : g.Sound) (h : g.NoSilentSteps) :
    g'.NoSilentSteps :=
  (hsteps.invariant hg h fun _ _ ha hP hstep => ha.noSilentSteps_step hP hstep).2

end Grammar

end ScenarioFsp
