import ScenarioFsp.Proofs.Grammar.Simplification

/-!
# Well-formed grammars

A well-formed grammar has no loose ends: `Init` has a rule, every alternative acts,
and where it ends another rule goes on, unless it has come to `Final`. A step that
drops a rule must not leave an end behind that named it. Rules that are in use keep
the rules that they lead to; an end that names an inlined symbol moves on to the end
of what replaces it; and one that names a renamed symbol goes to its stand-in, which
keeps its rule. `Init` is in use, and it is neither inlined nor renamed.
-/

namespace ScenarioFsp

namespace Grammar

/-- Every rule that is needed is there, and every alternative acts. -/
structure WellFormed (g : Grammar) : Prop where
  check : g.check = .ok ()
  start : g.hasRule start = true
  acts : ∀ p ∈ g.alternatives, p.actions ≠ []
  /-- An alternative ends where a rule goes on, or in `Final`. -/
  ends : ∀ p ∈ g.alternatives, ∃ e, p.last? = some e ∧ (g.hasRule e = true ∨ e = Symbol.final)

variable {g g' : Grammar}

theorem WellFormed.sound (h : g.WellFormed) : g.Sound := check_eq_ok_iff.mp h.check

/-- Read at the alternatives of one symbol. -/
theorem WellFormed.acts_and_ends (h : g.WellFormed) {s e : Symbol} {p : Production}
    (hp : p ∈ g.alternativesOf s) (hl : p.last? = some e) :
    p.actions ≠ [] ∧ (g.hasRule e = true ∨ e = Symbol.final) := by
  have hmem : p ∈ g.alternatives := mem_alternatives_iff.mpr ⟨s, hp⟩
  obtain ⟨e', hl', hend⟩ := h.ends p hmem
  rw [hl] at hl'
  rw [Option.some.inj hl']
  exact ⟨h.acts p hmem, hend⟩

theorem Sound.wellFormed_of_forall (hg : g.Sound) (hstart : g.hasRule Grammar.start = true)
    (h : ∀ s p e, p ∈ g.alternativesOf s → p.last? = some e →
      p.actions ≠ [] ∧ (g.hasRule e = true ∨ e = Symbol.final)) : g.WellFormed := by
  refine ⟨check_eq_ok_iff.mpr hg, hstart, fun p hp => ?_, fun p hp => ?_⟩
  · obtain ⟨s, hps⟩ := mem_alternatives_iff.mp hp
    obtain ⟨e, hl⟩ := hg.exists_last? hps
    exact (h s p e hps hl).1
  · obtain ⟨s, hps⟩ := mem_alternatives_iff.mp hp
    obtain ⟨e, hl⟩ := hg.exists_last? hps
    exact ⟨e, hl, (h s p e hps hl).2⟩

/-- Whatever ends somewhere has symbols. -/
theorem WellFormed.symbols_ne_nil (h : g.WellFormed) {p : Production} (hp : p ∈ g.alternatives) :
    p.symbols ≠ [] := by
  obtain ⟨e, hl, -⟩ := h.ends p hp
  intro hnil
  unfold Production.last? at hl
  rw [hnil] at hl
  exact absurd hl (by simp)

/-! ## Steps -/

/-- Alternatives can be dropped, and rules at which none of the others ends. -/
theorem WellFormed.of_subset (h : g.WellFormed) (hg' : g'.Sound)
    (hstart : g'.hasRule Grammar.start = true)
    (hsub : ∀ s p, p ∈ g'.alternativesOf s → p ∈ g.alternativesOf s)
    (hends : ∀ s p e, p ∈ g'.alternativesOf s → p.last? = some e → g.hasRule e = true →
      g'.hasRule e = true) : g'.WellFormed := by
  refine hg'.wellFormed_of_forall hstart fun s p e hp hl => ?_
  obtain ⟨hacts, hend⟩ := h.acts_and_ends (hsub s p hp) hl
  exact ⟨hacts, hend.imp_left (hends s p e hp hl)⟩

/-- Alternatives can be dropped while all rules stay. -/
theorem WellFormed.of_fewer_alternatives (h : g.WellFormed) (hg' : g'.Sound)
    (hrules : ∀ s, g'.hasRule s = g.hasRule s)
    (hsub : ∀ s p, p ∈ g'.alternativesOf s → p ∈ g.alternativesOf s) : g'.WellFormed := by
  refine h.of_subset hg' ?_ hsub fun _ _ e _ _ he => ?_
  · rw [hrules]
    exact h.start
  · rw [hrules]
    exact he

theorem WellFormed.restricted (h : g.WellFormed) : g.restricted.WellFormed := by
  have hg := h.sound
  refine h.of_subset hg.restricted_isReductOf.sound ?_ (fun _ _ => mem_alternativesOf_restricted)
    fun s p e hp hl he => ?_
  · exact hasRule_restricted.mpr ⟨h.start, start_mem_usedSymbols h.start⟩
  · have hs := (hasRule_restricted.mp (hasRule_of_mem hp)).2
    have hused := hg.end_mem_usedSymbols hs (mem_alternativesOf_restricted hp) hl he
    exact hasRule_restricted.mpr ⟨he, hused⟩

theorem WellFormed.folded (h : g.WellFormed) : g.folded.WellFormed := by
  have hg := h.sound
  refine hg.folded.wellFormed_of_forall ?_ fun s p e hp hl => ?_
  · rw [hasRule_folded]
    exact h.start
  · -- a copied alternative acts and ends as the one that was copied
    obtain ⟨t, q, -, hq, rfl⟩ := hg.mem_alternativesOf_folded_iff.mp hp
    have hqt := (mem_soundAlternatives_iff.mp hq).1
    have hacts := h.acts q (mem_alternatives_iff.mpr ⟨t, hqt⟩)
    rw [Production.last?_startingAt (Production.tail_ne_nil_of_actions hacts)] at hl
    rw [Production.actions_startingAt, hasRule_folded]
    exact h.acts_and_ends hqt hl

theorem WellFormed.inlined (h : g.WellFormed) {symbol target : Symbol} {p : Production}
    (hs : symbol ≠ Grammar.start) (hsingle : g.Single symbol p target) :
    (g.inlined symbol p).WellFormed := by
  have hg := h.sound
  have hkept : ∀ e, e ≠ symbol → g.hasRule e = true ∨ e = Symbol.final →
      (g.inlined symbol p).hasRule e = true ∨ e = Symbol.final :=
    fun e hne hend => hend.imp_left fun he => hasRule_inlined.mpr ⟨he, hne⟩
  refine (hg.inlined hsingle).wellFormed_of_forall ?_ fun s q' e hq' hl => ?_
  · exact hasRule_inlined.mpr ⟨h.start, Ne.symm hs⟩
  · obtain ⟨hsymbol, q, hq, rfl⟩ := mem_alternativesOf_inlined_iff.mp hq'
    by_cases hend : q.last? = some symbol
    · -- the end moves on to the target, which is another symbol
      rw [if_pos hend] at hl ⊢
      obtain ⟨hqt, hlast, -⟩ := hg.spliced hsingle hsymbol hq hend
      rw [hlast] at hl
      obtain rfl := Option.some.inj hl
      refine ⟨?_, hkept target hsingle.leaves (h.acts_and_ends hsingle.mem hsingle.leads).2⟩
      rw [Production.actions_splice hqt (hg.tail_ne_nil_of_single hsingle)]
      exact List.append_ne_nil_of_left_ne_nil (h.acts_and_ends hq hend).1 _
    · rw [if_neg hend] at hl ⊢
      obtain ⟨hacts, hrule⟩ := h.acts_and_ends hq hl
      refine ⟨hacts, hkept e ?_ hrule⟩
      rintro rfl
      exact hend hl

theorem WellFormed.renamed (h : g.WellFormed) : (g.renamed g.twinNames).WellFormed := by
  have hg := h.sound
  refine (hg.renamed _).wellFormed_of_forall ?_ fun s p' e hp' hl => ?_
  · exact hasRule_renamed.mpr ⟨h.start, g.twinNames_start⟩
  · obtain ⟨-, p, hp, rfl⟩ := mem_alternativesOf_renamed_iff.mp hp'
    rw [last?_renameEnd] at hl
    obtain ⟨e₀, hl₀, rfl⟩ := Option.map_eq_some_iff.mp hl
    obtain ⟨hacts, hend⟩ := h.acts_and_ends hp hl₀
    rw [actions_renameEnd]
    refine ⟨hacts, ?_⟩
    cases hname : g.twinNames.get? e₀ with
    | some e₁ =>
        -- the stand-in has a rule and is not renamed itself
        rw [standIn_of_some hname]
        exact Or.inl (hasRule_renamed.mpr
          ⟨(hg.twinNames_rules hname).2, hg.twinNames_settled hname⟩)
    | none =>
        rw [standIn_of_none hname]
        exact hend.imp_left fun he => hasRule_renamed.mpr ⟨he, hname⟩

/-- **No step leaves a loose end.** -/
theorem WellFormed.step (h : g.WellFormed) (hstep : g.Step g') : g'.WellFormed := by
  have hg' := h.sound.step hstep
  cases hstep with
  | restrict => exact h.restricted
  | fold => exact h.folded
  | dropLoops =>
      exact h.of_fewer_alternatives hg' (hasRule_dropSilentLoops g)
        fun _ _ hp => (mem_alternativesOf_dropSilentLoops.mp hp).1
  | inline hs hsingle => exact h.inlined hs hsingle
  | dropRepeats =>
      exact h.of_fewer_alternatives hg' (hasRule_dropRepeats g)
        fun _ _ hp => mem_alternativesOf_dropRepeats.mp hp
  | merge => exact h.renamed

theorem Steps.wellFormed (hsteps : g.Steps g') (h : g.WellFormed) : g'.WellFormed :=
  (hsteps.invariant h.sound h fun _ _ _ hP hstep => hP.step hstep).2

end Grammar

end ScenarioFsp
