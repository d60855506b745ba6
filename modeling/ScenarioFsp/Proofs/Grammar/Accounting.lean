import ScenarioFsp.Proofs.Grammar.NormalForm

/-!
# Every lost rule is counted

Three reductions take rules away. They count them in different ways: as the difference of
two sizes, one by one, and as the size of a table of names. Each time this is the number
of the rules that are gone. The other three keep all rules, and what they count are
alternatives (`Reduction.rulesLost`, `Sound.numRules_apply`).

So the counts make up for the lost rules after one reduction, after the six of a pass, and
after any number of passes, because counts are added where grammars follow each other
(`Balances.add`).

Dropping silent loops is next to folding in every pass, and has nothing to do there. A
silent loop goes on at its own rule, so it is a silent step, and folding leaves none.
-/

namespace ScenarioFsp

/-- How many rules are lost where a reduction counts `n` changes. -/
def Reduction.rulesLost : Reduction → Nat → Nat
  | .dropUnused, n | .inlineSingles, n | .mergeTwins, n => n
  | .foldSilent, _ | .dropSilentLoops, _ | .dropRepeats, _ => 0

/-- The lost rules among the changes. -/
def Statistics.lostRules (s : Statistics) : Nat := s.unusedRules + s.inlinedRules + s.mergedRules

theorem Statistics.lostRules_eq_sum (s : Statistics) :
    s.lostRules = (List.zipWith Reduction.rulesLost Reduction.order s.counts).sum := by
  simp only [lostRules, Reduction.order, counts, List.zipWith_cons_cons, List.zipWith_nil_left,
    Reduction.rulesLost, List.sum_cons, List.sum_nil]
  omega

theorem Statistics.lostRules_add (s t : Statistics) :
    (s.add t).lostRules = s.lostRules + t.lostRules := by
  simp only [lostRules, add]
  omega

namespace Grammar

/-- The changes counted between `g` and `g'` make up for the rules that are lost, and no silent
loop is among them. -/
structure Balances (stats : Statistics) (g g' : Grammar) : Prop where
  rules : g.numRules = g'.numRules + stats.lostRules
  loops : stats.silentLoops = 0

variable {g g' g'' : Grammar} {next : Grammar × Statistics}

/-! ## One reduction -/

/-- **A reduction counts the rules that it takes away, or takes none.** -/
theorem Sound.numRules_apply (hg : g.Sound) {r : Reduction} {c : Change}
    (hc : r.apply g = .ok c) : g.numRules = c.grammar.numRules + r.rulesLost c.count := by
  cases r with
  | dropUnused =>
      obtain rfl := Except.ok.inj (hc.symm.trans hg.dropUnused_eq_ok)
      have hless : g.restricted.numRules ≤ g.numRules := List.length_filter_le _ _
      exact (Nat.add_sub_of_le hless).symm
  | foldSilent =>
      obtain rfl := Except.ok.inj (hc.symm.trans hg.foldSilent_eq_ok)
      exact (List.length_map _).symm
  | dropSilentLoops =>
      obtain rfl := Except.ok.inj hc
      exact (numRules_mapAlternatives _ g).symm
  | inlineSingles =>
      obtain ⟨c', hc', hinlines⟩ := hg.exists_inlines g.symbols
      obtain rfl := Except.ok.inj (hc.symm.trans hc')
      exact hinlines.numRules_eq
  | dropRepeats =>
      obtain rfl := Except.ok.inj hc
      exact (numRules_mapAlternatives _ g).symm
  | mergeTwins =>
      obtain rfl := Except.ok.inj (hc.symm.trans hg.mergeTwins_eq_ok)
      exact hg.numRules_renamed

/-- A silent loop goes on at the rule that it belongs to, so it is a silent step. -/
theorem NoSilentSteps.idle_dropSilentLoops (h : g.NoSilentSteps) (hg : g.Sound) :
    g.Idle .dropSilentLoops := by
  intro p hp
  obtain ⟨s, hps⟩ := mem_alternatives_iff.mp hp
  cases hloop : isSilentLoop p with
  | false => rfl
  | true =>
      obtain ⟨hsilent, hback⟩ := Bool.and_eq_true_iff.mp hloop
      have hl : p.last? = some s := (of_decide_eq_true hback).symm.trans (hg.first? hps)
      have hnone := h.not_hasRule hps hsilent hl
      rw [hasRule_of_mem hps] at hnone
      exact absurd hnone (by simp)

/-- **Right after folding there are no silent loops to drop.** -/
theorem Sound.dropSilentLoops_folded (hg : g.Sound) :
    g.folded.dropSilentLoops = ⟨g.folded, 0⟩ := by
  have hidle := hg.noSilentSteps_folded.idle_dropSilentLoops hg.folded
  exact Except.ok.inj (hg.folded.apply_eq_ok_self hidle)

/-! ## One pass -/

theorem Leads.numRules_eq {rs : List Reduction} {ns : List Nat} (h : Leads rs g ns g')
    (hg : g.Sound) : g.numRules = g'.numRules + (List.zipWith Reduction.rulesLost rs ns).sum := by
  induction h with
  | nil g => rfl
  | cons hc _ ih =>
      have hfirst := hg.numRules_apply hc
      have hrest := ih ((hg.steps_of_apply hc).sound hg)
      rw [List.zipWith_cons_cons, List.sum_cons]
      omega

theorem Sound.silentLoops_of_pass (hg : g.Sound) (h : g.pass = .ok next) :
    next.2.silentLoops = 0 := by
  obtain ⟨n, ns, hcounts, hleads⟩ := hg.pass_folds h
  obtain _ | ⟨hloops, hleads⟩ := hleads
  have hnone := (hg.step (.restrict g)).dropSilentLoops_folded
  obtain rfl := (Except.ok.inj hloops).symm.trans hnone
  exact (List.cons.inj (List.cons.inj (List.cons.inj hcounts).2).2).1

theorem Sound.balances_of_pass (hg : g.Sound) (h : g.pass = .ok next) :
    Balances next.2 g next.1 where
  rules := by
    rw [Statistics.lostRules_eq_sum]
    exact (hg.leads_of_pass h).2.numRules_eq hg
  loops := hg.silentLoops_of_pass h

/-! ## All passes -/

theorem balances_zero (g : Grammar) : Balances .zero g g := ⟨rfl, rfl⟩

theorem Balances.add {stats stats' : Statistics} (h : Balances stats g g')
    (h' : Balances stats' g' g'') : Balances (stats.add stats') g g'' where
  rules := by
    rw [Statistics.lostRules_add, h.rules, h'.rules]
    omega
  loops := by
    show stats.silentLoops + stats'.silentLoops = 0
    rw [h.loops, h'.loops]

/-- **What the loop counts balances, wherever it ends**, if it did where the loop begins. -/
theorem Loop.balances_outcome {first : Grammar} {rounds : List (Grammar × Statistics)}
    {stats : Statistics} (h : g.Loop rounds) (hg : g.Sound) (hstats : Balances stats first g) :
    Balances (outcome (g, stats) rounds).2 first (outcome (g, stats) rounds).1 := by
  induction h generalizing stats with
  | stop hpass _ => exact hstats.add (hg.balances_of_pass hpass)
  | again hpass _ _ ih =>
      exact ih ((hg.steps_of_pass hpass).sound hg) (hstats.add (hg.balances_of_pass hpass))

theorem Sound.exists_simplify_balances (hg : g.Sound) :
    ∃ g' stats, g.simplify = .ok (g', stats) ∧ g.Steps g' ∧ Balances stats g g' := by
  obtain ⟨rounds, hloop, hsimplify⟩ := hg.exists_simplify
  obtain ⟨result, hpasses, hsteps⟩ := hg.exists_passes_steps g.passBound .zero
  obtain rfl := Except.ok.inj (hpasses.symm.trans hsimplify)
  exact ⟨_, _, hsimplify, hsteps, hloop.balances_outcome hg (balances_zero g)⟩

/--
**The statistics account for every lost rule.** Simplifying makes no rules; those that are
lost are as many as were counted as unused, inlined or merged. No silent loops are counted:
wherever a pass begins, after its first two reductions there are none to drop.
-/
theorem simplify_accounts_for_rules {g : Grammar} (hg : g.check = .ok ()) :
    ∃ g' stats, g.simplify = .ok (g', stats) ∧
      g.numRules = g'.numRules + stats.unusedRules + stats.inlinedRules + stats.mergedRules ∧
      (∀ s, g'.hasRule s = true → g.hasRule s = true) ∧
      (g.lostSymbols g').length =
        stats.unusedRules + stats.inlinedRules + stats.mergedRules ∧
      stats.silentLoops = 0 ∧
      ∀ before, g.Steps before → ∃ used folded, before.dropUnused = .ok used ∧
        used.grammar.foldSilent = .ok folded ∧
        folded.grammar.dropSilentLoops = ⟨folded.grammar, 0⟩ := by
  have hsound := check_eq_ok_iff.mp hg
  obtain ⟨g', stats, hsimplify, hsteps, hrules, hloops⟩ := hsound.exists_simplify_balances
  have hlost := numRules_eq_add_lost fun s => hsteps.hasRule hsound (s := s)
  unfold Statistics.lostRules at hrules
  refine ⟨g', stats, hsimplify, by omega, fun s => hsteps.hasRule hsound, by omega, hloops,
    fun before hbefore => ?_⟩
  have hbegin := hbefore.sound hsound
  have hused := hbegin.step (.restrict before)
  exact ⟨_, _, hbegin.dropUnused_eq_ok, hused.foldSilent_eq_ok, hused.dropSilentLoops_folded⟩

/-- `C_W` is not in use, `C_X` and `C_Y` are twins, `C_Z` has a single alternative, and `Init` may
silently come back to itself. -/
def surplus : Grammar :=
  (((((⟨.empty⟩ : Grammar).store "C_W" ⟨"C_W", [⟨["C_W", "f", "Final"]⟩]⟩).store "C_X"
    ⟨"C_X", [⟨["C_X", "c", "Final"]⟩, ⟨["C_X", "d", "Init"]⟩]⟩).store "C_Y"
      ⟨"C_Y", [⟨["C_Y", "c", "Final"]⟩, ⟨["C_Y", "d", "Init"]⟩]⟩).store "C_Z"
        ⟨"C_Z", [⟨["C_Z", "e", "C_X"]⟩]⟩).store "Init" ⟨"Init", [⟨["Init", "_tau", "Init"]⟩,
          ⟨["Init", "a", "C_X"]⟩, ⟨["Init", "b", "C_Y"]⟩, ⟨["Init", "b", "C_Z"]⟩]⟩

theorem simplify_accounts_for_rules_surplus :
    surplus.check = .ok () ∧ surplus.numRules = 5 ∧
      (∃ p ∈ surplus.alternatives, isSilentLoop p = true) ∧
      ∃ g' stats, surplus.simplify = .ok (g', stats) ∧ stats = ⟨2, 1, 1, 0, 1, 0, 1⟩ ∧
        5 = g'.numRules + stats.unusedRules + stats.inlinedRules + stats.mergedRules ∧
        (surplus.lostSymbols g').length = 3 := by
  obtain ⟨g', stats, hsimplify, hrules, -, hlost, -⟩ := simplify_accounts_for_rules (g := surplus) rfl
  have hstats : surplus.simplify.map Prod.snd = .ok ⟨2, 1, 1, 0, 1, 0, 1⟩ := by decide +kernel
  rw [hsimplify] at hstats
  obtain rfl := Except.ok.inj hstats
  exact ⟨rfl, rfl, ⟨⟨["Init", "_tau", "Init"]⟩, by decide, by decide⟩, g', _, hsimplify, rfl, hrules,
    hlost⟩

end Grammar

end ScenarioFsp
