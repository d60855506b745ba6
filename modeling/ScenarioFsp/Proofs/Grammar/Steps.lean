import ScenarioFsp.Grammar.Simplify
import ScenarioFsp.Proofs.Grammar.Folding
import ScenarioFsp.Proofs.Grammar.Inlining
import ScenarioFsp.Proofs.Grammar.Merging
import ScenarioFsp.Proofs.Grammar.Pruning

/-!
# What a reduction does, step by step

A reduction changes a grammar in one way, and inlining does so once for every
symbol that it takes. `Step` lists these elementary changes. What a step keeps is
kept by every reduction, by any sequence of reductions and by simplification,
however many passes it makes (`Steps.invariant`), so each invariant is shown for
the six kinds of steps only.

How many changes the reductions count is a matter of its own: `Leads` follows a
sequence of reductions together with their counts, and a pass is one of them
(`Sound.leads_of_pass`).
-/

namespace ScenarioFsp

/-- The order in which a pass applies the reductions. -/
def Reduction.order : List Reduction :=
  [.dropUnused, .foldSilent, .dropSilentLoops, .inlineSingles, .dropRepeats, .mergeTwins]

/-- The changes counted in a pass, in that order. -/
def Statistics.counts (s : Statistics) : List Nat :=
  [s.unusedRules, s.silentAlternatives, s.silentLoops, s.inlinedRules, s.repeatedAlternatives,
    s.mergedRules]

namespace Grammar

/-- An elementary change. -/
inductive Step : Grammar → Grammar → Prop where
  | restrict (g : Grammar) : Step g g.restricted
  | fold (g : Grammar) : Step g g.folded
  | dropLoops (g : Grammar) : Step g g.dropSilentLoops.grammar
  | inline {g : Grammar} {symbol target : Symbol} {p : Production} :
      symbol ≠ start → g.Single symbol p target → Step g (g.inlined symbol p)
  | dropRepeats (g : Grammar) : Step g g.dropRepeats.grammar
  | merge (g : Grammar) : Step g (g.renamed g.twinNames)

/-- Any number of elementary changes. -/
def Steps : Grammar → Grammar → Prop := Relation.ReflTransGen Step

variable {g g' : Grammar}

/-! ## What steps keep -/

theorem Sound.step (hg : g.Sound) (h : g.Step g') : g'.Sound := by
  cases h with
  | restrict => exact hg.restricted_isReductOf.sound
  | fold => exact hg.folded
  | dropLoops => exact hg.dropSilentLoops_isReductOf.sound
  | inline _ hsingle => exact hg.inlined hsingle
  | dropRepeats => exact hg.dropRepeats_isReductOf.sound
  | merge => exact hg.renamed _

/-- A step brings in no names. -/
theorem Sound.within_of_step (hg : g.Sound) (h : g.Step g') : g'.Within g := by
  cases h with
  | restrict => exact hg.restricted_isReductOf.within
  | fold => exact hg.folded_within
  | dropLoops => exact hg.dropSilentLoops_isReductOf.within
  | inline _ hsingle => exact hg.inlined_within hsingle
  | dropRepeats => exact hg.dropRepeats_isReductOf.within
  | merge => exact renamed_within fun _ _ hs => (hg.twinNames_rules hs).2

/-- **What every step from a sound grammar keeps, any number of steps keep**, and they stay in
sound grammars. -/
theorem Steps.invariant {P : Grammar → Prop} (h : g.Steps g') (hg : g.Sound) (hP : P g)
    (hstep : ∀ a b, a.Sound → P a → a.Step b → P b) : g'.Sound ∧ P g' := by
  induction h with
  | refl => exact ⟨hg, hP⟩
  | tail _ hlast ih =>
      obtain ⟨hsound, hkept⟩ := ih
      exact ⟨hsound.step hlast, hstep _ _ hsound hkept hlast⟩

theorem Steps.sound (h : g.Steps g') (hg : g.Sound) : g'.Sound :=
  (h.invariant hg trivial fun _ _ _ _ _ => trivial).1

theorem Steps.within (h : g.Steps g') (hg : g.Sound) : g'.Within g :=
  (h.invariant (P := fun a => a.Within g) hg (.refl g) fun _ _ ha hP hstep =>
    (ha.within_of_step hstep).trans hP).2

/-- Steps make no rules. -/
theorem Steps.hasRule (h : g.Steps g') (hg : g.Sound) {s : Symbol}
    (hs : g'.hasRule s = true) : g.hasRule s = true :=
  (h.within hg).rules s hs

/-! ## One reduction -/

theorem Inlines.steps {symbols : List Symbol} {n : Nat} (h : g.Inlines symbols g' n) :
    g.Steps g' := by
  induction h with
  | nil g => exact .refl
  | skip _ _ ih => exact ih
  | take hs hsingle _ ih => exact .head (.inline hs hsingle) ih

/-- **On a sound grammar no reduction fails**, and it makes elementary changes only. -/
theorem Sound.exists_apply_steps (hg : g.Sound) (r : Reduction) :
    ∃ c, r.apply g = .ok c ∧ g.Steps c.grammar := by
  cases r with
  | dropUnused => exact ⟨_, hg.dropUnused_eq_ok, .single (.restrict g)⟩
  | foldSilent => exact ⟨_, hg.foldSilent_eq_ok, .single (.fold g)⟩
  | dropSilentLoops => exact ⟨_, rfl, .single (.dropLoops g)⟩
  | inlineSingles =>
      obtain ⟨c, hc, hinlines⟩ := hg.exists_inlines g.symbols
      exact ⟨c, hc, hinlines.steps⟩
  | dropRepeats => exact ⟨_, rfl, .single (.dropRepeats g)⟩
  | mergeTwins => exact ⟨_, hg.mergeTwins_eq_ok, .single (.merge g)⟩

theorem Sound.steps_of_apply (hg : g.Sound) {r : Reduction} {c : Change}
    (h : r.apply g = .ok c) : g.Steps c.grammar := by
  obtain ⟨c', hc', hsteps⟩ := hg.exists_apply_steps r
  rw [h] at hc'
  rw [Except.ok.inj hc']
  exact hsteps

/-! ## Sequences of reductions -/

/-- `Leads rs g ns g'`: the reductions `rs`, applied in turn, lead from `g` to `g'` and count the
changes `ns`. -/
inductive Leads : List Reduction → Grammar → List Nat → Grammar → Prop where
  | nil (g : Grammar) : Leads [] g [] g
  | cons {r : Reduction} {rs : List Reduction} {g g' : Grammar} {c : Change} {ns : List Nat} :
      r.apply g = .ok c → Leads rs c.grammar ns g' → Leads (r :: rs) g (c.count :: ns) g'

theorem Leads.steps {rs : List Reduction} {ns : List Nat} (h : Leads rs g ns g')
    (hg : g.Sound) : g.Steps g' := by
  induction h with
  | nil g => exact .refl
  | cons hc _ ih =>
      have hsteps := hg.steps_of_apply hc
      exact hsteps.trans (ih (hsteps.sound hg))

theorem Sound.exists_leads (hg : g.Sound) (rs : List Reduction) :
    ∃ ns g', Leads rs g ns g' := by
  induction rs generalizing g with
  | nil => exact ⟨[], g, .nil g⟩
  | cons r rs ih =>
      obtain ⟨c, hc, hsteps⟩ := hg.exists_apply_steps r
      obtain ⟨ns, g', hleads⟩ := ih (hsteps.sound hg)
      exact ⟨c.count :: ns, g', .cons hc hleads⟩

/-- A pass applies the six reductions in their order. -/
theorem Leads.pass_eq_ok {ns : List Nat} (h : Leads Reduction.order g ns g') :
    ∃ stats, g.pass = .ok (g', stats) ∧ stats.passes = 1 ∧ stats.counts = ns := by
  unfold Reduction.order at h
  obtain _ | ⟨hunused, h⟩ := h
  obtain _ | ⟨hsilent, h⟩ := h
  obtain _ | ⟨hloops, h⟩ := h
  obtain _ | ⟨hsingles, h⟩ := h
  obtain _ | ⟨hrepeats, h⟩ := h
  obtain _ | ⟨htwins, h⟩ := h
  cases h
  simp only [Reduction.apply, Except.ok.injEq] at *
  subst hloops hrepeats
  refine ⟨⟨1, _, _, _, _, _, _⟩, ?_, rfl, rfl⟩
  simp only [pass, hunused, hsilent, hsingles, htwins, bind, Except.bind, pure, Except.pure]

theorem Sound.exists_pass (hg : g.Sound) : ∃ next, g.pass = .ok next := by
  obtain ⟨ns, g', hleads⟩ := hg.exists_leads Reduction.order
  obtain ⟨stats, hpass, -⟩ := hleads.pass_eq_ok
  exact ⟨_, hpass⟩

/-- What a pass from a sound grammar does. -/
theorem Sound.leads_of_pass (hg : g.Sound) {next : Grammar × Statistics}
    (h : g.pass = .ok next) :
    next.2.passes = 1 ∧ Leads Reduction.order g next.2.counts next.1 := by
  obtain ⟨ns, g', hleads⟩ := hg.exists_leads Reduction.order
  obtain ⟨stats, hpass, hone, rfl⟩ := hleads.pass_eq_ok
  obtain rfl := Except.ok.inj (h.symm.trans hpass)
  exact ⟨hone, hleads⟩

theorem Sound.steps_of_pass (hg : g.Sound) {next : Grammar × Statistics}
    (h : g.pass = .ok next) : g.Steps next.1 :=
  (hg.leads_of_pass h).2.steps hg

/-! ## Passes -/

/-- Passes make elementary changes only, wherever they stop. -/
theorem Sound.exists_passes_steps (hg : g.Sound) (n : Nat) (stats : Statistics) :
    ∃ result, passes n g stats = .ok result ∧ g.Steps result.1 := by
  induction n generalizing g stats with
  | zero => exact ⟨(g, stats), rfl, .refl⟩
  | succ n ih =>
      -- the counts decide whether another pass follows, but not what a pass may do
      obtain ⟨next, hnext⟩ := hg.exists_pass
      have hsteps := hg.steps_of_pass hnext
      unfold passes
      rw [hnext]
      simp only [Except.bind]
      by_cases hdone : next.2.totalChanges = 0
      · rw [if_pos hdone]
        exact ⟨_, rfl, hsteps⟩
      · rw [if_neg hdone]
        obtain ⟨result, hresult, hrest⟩ := ih (hsteps.sound hg) (stats.add next.2)
        exact ⟨result, hresult, hsteps.trans hrest⟩

end Grammar

end ScenarioFsp
