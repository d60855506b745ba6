import ScenarioFsp.Proofs.Grammar.Names
import ScenarioFsp.Proofs.Grammar.Steps

/-!
# Simplification keeps the traces

Five of the six kinds of steps reduce every sound grammar. The sixth merges twins
and has to know that they agree; names that are apart see to that, and they stay
apart because no step brings in a name. So any sequence of reductions succeeds,
and its result has the traces of the grammar it started from. Simplification makes
such steps only, however many passes it needs.
-/

namespace ScenarioFsp

namespace Grammar

variable {g : Grammar}

/-! ## Twins whose names are apart -/

theorem Sound.avoidsSelf (hg : g.Sound) (hn : g.NamesApart) {r : Rule} (hr : r ∈ g.ruleList) :
    r.AvoidsSelf := by
  refine ⟨?_, ?_⟩
  · intro heq
    have hnone := hn.rules
    rw [← heq, hg.hasRule_symbol hr] at hnone
    exact absurd hnone (by simp)
  · intro p hp hl
    have hmem : p ∈ g.alternatives := List.mem_flatMap.mpr ⟨r, hr, hp⟩
    exact hn.symbols p hmem (List.mem_of_getLast? hl)

theorem Sound.not_performsItself (hg : g.Sound) (hn : g.NamesApart) {r : Rule}
    (hr : r ∈ g.ruleList) : ¬r.PerformsItself := by
  intro hown
  obtain ⟨p, hp, hact⟩ := hown
  have hmem : p ∈ g.alternatives := List.mem_flatMap.mpr ⟨r, hr, hp⟩
  have hnone := hn.actions p hmem r.symbol hact
  rw [hg.hasRule_symbol hr] at hnone
  exact absurd hnone (by simp)

theorem Sound.twins_agree (hg : g.Sound) (hn : g.NamesApart) {r r' : Rule} (h : g.Twins r r') :
    r.Agrees r' :=
  (hg.agrees_iff h.left h.right h.apart h.alike (hg.avoidsSelf hn h.left)
    (hg.avoidsSelf hn h.right)).mpr
      ⟨hg.not_performsItself hn h.left, hg.not_performsItself hn h.right⟩

/-! ## Steps -/

/-- **Every step keeps what can be observed**, if the names are apart. -/
theorem Sound.step_isReductOf (hg : g.Sound) (hn : g.NamesApart) {g' : Grammar}
    (h : g.Step g') : g'.IsReductOf g := by
  cases h with
  | restrict => exact hg.restricted_isReductOf
  | fold => exact hg.folded_isReductOf
  | dropLoops => exact hg.dropSilentLoops_isReductOf
  | inline hs hsingle => exact hg.inlined_isReductOf hsingle hs
  | dropRepeats => exact hg.dropRepeats_isReductOf
  | merge => exact hg.renamed_isReductOf (hg.follows_twinNames fun _ _ h => hg.twins_agree hn h)

/-- Steps bring in no names, so the names stay apart on the way. -/
theorem Steps.isReductOf {g' : Grammar} (h : g.Steps g') (hg : g.Sound) (hn : g.NamesApart) :
    g'.IsReductOf g := by
  have hkept := h.invariant (P := fun a => a.IsReductOf g) hg hg.isReductOf_self
    fun a b ha hred hstep =>
      (ha.step_isReductOf (hn.of_within hred.within) hstep).trans hred
  exact hkept.2

/-! ## Sequences of reductions -/

/-- Applies reductions one after the other, whatever they change. -/
def reduceAll : List Reduction → Grammar → Except Failure Grammar
  | [], g => .ok g
  | r :: rs, g => (r.apply g).bind fun c => reduceAll rs c.grammar

theorem Leads.reduceAll_eq_ok {rs : List Reduction} {ns : List Nat} {g' : Grammar}
    (h : Leads rs g ns g') : reduceAll rs g = .ok g' := by
  induction h with
  | nil g => rfl
  | cons hc _ ih =>
      unfold reduceAll
      rw [hc]
      exact ih

theorem Sound.exists_reduceAll_steps (hg : g.Sound) (rs : List Reduction) :
    ∃ g', reduceAll rs g = .ok g' ∧ g.Steps g' := by
  obtain ⟨ns, g', hleads⟩ := hg.exists_leads rs
  exact ⟨g', hleads.reduceAll_eq_ok, hleads.steps hg⟩

theorem Sound.exists_reduceAll (hg : g.Sound) (hn : g.NamesApart) (rs : List Reduction) :
    ∃ g', reduceAll rs g = .ok g' ∧ g'.IsReductOf g := by
  obtain ⟨g', hg', hsteps⟩ := hg.exists_reduceAll_steps rs
  exact ⟨g', hg', hsteps.isReductOf hg hn⟩

theorem Sound.exists_passes (hg : g.Sound) (hn : g.NamesApart) (n : Nat) (stats : Statistics) :
    ∃ result, passes n g stats = .ok result ∧ result.1.IsReductOf g := by
  obtain ⟨result, hresult, hsteps⟩ := hg.exists_passes_steps n stats
  exact ⟨result, hresult, hsteps.isReductOf hg hn⟩

/-! ## Simplification -/

/--
**Simplification keeps the observable traces**, and so does any sequence of the
reductions: none of them fails, and for every `n` the traces of at most `n`
actions are those of the grammar at the beginning.
-/
theorem simplify_keeps_traces {g : Grammar} (hg : g.check = .ok ()) (hn : g.NamesApart) (n : Nat) :
    g.observableTraces n = .ok (g.traces n) ∧
    (∃ g' stats, g.simplify = .ok (g', stats) ∧ g'.observableTraces n = .ok (g.traces n)) ∧
    ∀ rs, ∃ g', reduceAll rs g = .ok g' ∧ g'.observableTraces n = .ok (g.traces n) := by
  have hsound := check_eq_ok_iff.mp hg
  have htraces := hsound.observableTraces_eq_ok n
  refine ⟨htraces, ?_, fun rs => ?_⟩
  · obtain ⟨⟨g', stats⟩, hresult, hred⟩ := hsound.exists_passes hn g.passBound .zero
    exact ⟨g', stats, hresult, (hred.observableTraces_eq hsound n).trans htraces⟩
  · obtain ⟨g', hg', hred⟩ := hsound.exists_reduceAll hn rs
    exact ⟨g', hg', (hred.observableTraces_eq hsound n).trans htraces⟩

theorem simplify_keeps_traces_twoCalls :
    (twoCalls "c" "c").check = .ok () ∧ (twoCalls "c" "c").NamesApart ∧
      (∃ g' stats, (twoCalls "c" "c").simplify = .ok (g', stats) ∧
        g'.observableTraces 2 = .ok ((twoCalls "c" "c").traces 2)) ∧
      ∃ g', reduceAll [.dropRepeats, .mergeTwins] (twoCalls "c" "c") = .ok g' ∧
        g'.numRules = 2 ∧ g'.observableTraces 2 = .ok ((twoCalls "c" "c").traces 2) := by
  have hn : (twoCalls "c" "c").NamesApart := ⟨by decide, by decide, by decide⟩
  obtain ⟨-, hsimplify, hall⟩ := simplify_keeps_traces rfl hn 2
  obtain ⟨g', hg', htraces⟩ := hall [.dropRepeats, .mergeTwins]
  refine ⟨rfl, hn, hsimplify, g', hg', ?_, htraces⟩
  have htwo : (reduceAll [.dropRepeats, .mergeTwins] (twoCalls "c" "c")).map numRules = .ok 2 := rfl
  rw [hg'] at htwo
  exact Except.ok.inj htwo

end Grammar

end ScenarioFsp
