import Mathlib.Data.List.Chain
import Mathlib.Tactic.Linarith
import ScenarioFsp.Proofs.Grammar.Counts

/-!
# Simplification ends

The loop makes passes until one makes no change. `Loop` follows it for as long as
it runs, without a bound. The first pass folds whatever is silent, and may make the
grammar larger. From then on there is nothing to fold, so a pass that makes a
change makes the grammar smaller, and the loop ends after as many further passes as
the grammar has rules and alternatives, and one more that makes no change.

The bound that `simplify` is given is larger than that, so `simplify` returns what
the loop comes to (`Loop.passes_eq_ok`).
-/

namespace ScenarioFsp

namespace Grammar

/-- `g.Loop rounds`: passes are made from `g` until one makes no change; `rounds` are the grammars
they lead to, each with what its pass counts. -/
inductive Loop : Grammar → List (Grammar × Statistics) → Prop where
  | stop {g : Grammar} {next : Grammar × Statistics} :
      g.pass = .ok next → next.2.totalChanges = 0 → Loop g [next]
  | again {g : Grammar} {next : Grammar × Statistics} {rounds : List (Grammar × Statistics)} :
      g.pass = .ok next → next.2.totalChanges ≠ 0 → Loop next.1 rounds → Loop g (next :: rounds)

/-- The grammar of the last round, and what all rounds count. -/
def outcome (start : Grammar × Statistics) (rounds : List (Grammar × Statistics)) :
    Grammar × Statistics :=
  rounds.foldl (fun result round => (round.1, result.2.add round.2)) start

variable {g g' : Grammar} {rounds : List (Grammar × Statistics)}

/-! ## What the loop comes to -/

/-- With enough passes allowed, the bound does not matter. -/
theorem Loop.passes_eq_ok (h : g.Loop rounds) {n : Nat} (hn : rounds.length ≤ n)
    (stats : Statistics) : passes n g stats = .ok (outcome (g, stats) rounds) := by
  -- by induction on the loop; each round uses up one of the passes that are allowed
  induction h generalizing n stats with
  | @stop g next hpass hdone =>
      cases n with
      | zero => exact absurd hn (by simp)
      | succ n =>
          unfold passes
          rw [hpass]
          simp only [Except.bind]
          rw [if_pos hdone]
          rfl
  | @again g next rounds hpass hmore _ ih =>
      cases n with
      | zero => exact absurd hn (by simp)
      | succ n =>
          unfold passes
          rw [hpass]
          simp only [Except.bind]
          rw [if_neg hmore, ih (Nat.le_of_succ_le_succ hn)]
          rfl

theorem Loop.passes_outcome (h : g.Loop rounds) (hg : g.Sound) (stats : Statistics) :
    (outcome (g, stats) rounds).2.passes = stats.passes + rounds.length := by
  induction h generalizing stats with
  | stop hpass _ =>
      show stats.passes + _ = _
      rw [(hg.leads_of_pass hpass).1]
      rfl
  | @again g next rounds hpass _ _ ih =>
      have hrest := ih ((hg.steps_of_pass hpass).sound hg) (stats.add next.2)
      have hone : (stats.add next.2).passes = stats.passes + 1 := by
        show stats.passes + _ = _
        rw [(hg.leads_of_pass hpass).1]
      rw [hone] at hrest
      show (outcome (next.1, stats.add next.2) rounds).2.passes = _
      rw [hrest, List.length_cons]
      omega

/-! ## One pass -/

/-- A pass drops unused rules, folds what is silent then, and counts it; four reductions follow. -/
theorem Sound.pass_folds (hg : g.Sound) {next : Grammar × Statistics} (h : g.pass = .ok next) :
    ∃ n ns, next.2.counts =
        n :: g.restricted.alternatives.countP g.restricted.isSilentStep :: ns ∧
      Leads [.dropSilentLoops, .inlineSingles, .dropRepeats, .mergeTwins]
        g.restricted.folded ns next.1 := by
  obtain ⟨-, hleads⟩ := hg.leads_of_pass h
  generalize hns : next.2.counts = ns at hleads
  unfold Reduction.order at hleads
  obtain _ | ⟨hunused, hleads⟩ := hleads
  obtain _ | ⟨hsilent, hleads⟩ := hleads
  obtain rfl := Except.ok.inj (hunused.symm.trans hg.dropUnused_eq_ok)
  obtain rfl := Except.ok.inj (hsilent.symm.trans (hg.step (.restrict g)).foldSilent_eq_ok)
  exact ⟨_, _, rfl, hleads⟩

/-- A pass leaves no silent steps, and copies every alternative at most once into every rule. -/
theorem Sound.noSilentSteps_and_size_of_pass (hg : g.Sound) {next : Grammar × Statistics}
    (h : g.pass = .ok next) :
    next.1.NoSilentSteps ∧ next.1.size ≤ g.numRules + g.numRules * g.numAlternatives := by
  obtain ⟨-, ns, -, hleads⟩ := hg.pass_folds h
  have hrestricted := hg.step (.restrict g)
  have hnone := hrestricted.noSilentSteps_folded
  refine ⟨(hleads.steps hrestricted.folded).noSilentSteps hrestricted.folded hnone, ?_⟩
  have hcost := hleads.size_add_sum_le hrestricted.folded hnone
  have hrules : g.restricted.numRules ≤ g.numRules := List.length_filter_le _ _
  have halts : g.restricted.numAlternatives ≤ g.numAlternatives :=
    (alternatives_keepRules_sublist _ g).length_le
  -- folding is the only reduction of the pass that can make the grammar larger
  have hfolded : g.restricted.folded.size ≤
      g.restricted.numRules + g.restricted.numRules * g.restricted.numAlternatives :=
    Nat.add_le_add (Nat.le_of_eq (List.length_map _)) g.restricted.numAlternatives_folded_le
  have hproduct := Nat.mul_le_mul hrules halts
  omega

/-- A pass counts no silent alternatives if there are none. -/
theorem Sound.silentAlternatives_eq_zero (hg : g.Sound) (hnone : g.NoSilentSteps)
    {next : Grammar × Statistics} (h : g.pass = .ok next) : next.2.silentAlternatives = 0 := by
  obtain ⟨n, ns, hcounts, -⟩ := hg.pass_folds h
  have hsilent := (List.cons.inj (List.cons.inj hcounts).2).1
  exact hsilent.trans (hg.noSilentSteps_step hnone (.restrict g)).countP_eq_zero

/-! ## All passes -/

/-- What is left to do from a grammar without silent steps. -/
structure Shrinking (g : Grammar) (rounds : List (Grammar × Statistics)) : Prop where
  length : rounds.length ≤ g.size + 1
  nothingSilent : ∀ round ∈ rounds, round.2.silentAlternatives = 0
  /-- All rounds but the last make the grammar smaller. -/
  smaller : (g :: rounds.dropLast.map Prod.fst).IsChain fun before after => after.size < before.size

/-- One more round in front, if it makes the grammar smaller. -/
theorem Shrinking.cons {first : Grammar × Statistics} (h : Shrinking first.1 rounds)
    (hloop : first.1.Loop rounds) (hzero : first.2.silentAlternatives = 0)
    (hless : first.1.size < g.size) : Shrinking g (first :: rounds) := by
  refine ⟨?_, ?_, ?_⟩
  · have hlength := h.length
    rw [List.length_cons]
    omega
  · intro round hround
    rcases List.mem_cons.mp hround with rfl | hmem
    · exact hzero
    · exact h.nothingSilent round hmem
  · have hne : rounds ≠ [] := by
      intro hnil
      rw [hnil] at hloop
      cases hloop
    rw [List.dropLast_cons_of_ne_nil hne]
    exact List.isChain_cons_cons.mpr ⟨hless, h.smaller⟩

/-- **Without silent steps the loop ends**, and all passes but the last make the grammar smaller. -/
theorem Sound.exists_loop (hg : g.Sound) (hnone : g.NoSilentSteps) :
    ∃ rounds, g.Loop rounds ∧ Shrinking g rounds := by
  -- by induction on the size, which every pass that makes a change lowers
  induction hsize : g.size using Nat.strong_induction_on generalizing g with
  | _ n ih =>
      obtain ⟨next, hpass⟩ := hg.exists_pass
      have hzero := hg.silentAlternatives_eq_zero hnone hpass
      by_cases hdone : next.2.totalChanges = 0
      · refine ⟨[next], .stop hpass hdone, Nat.le_add_left 1 _, fun round hround => ?_,
          List.isChain_singleton g⟩
        rw [List.mem_singleton.mp hround]
        exact hzero
      · have hcost := (hg.leads_of_pass hpass).2.size_add_sum_le hg hnone
        rw [← Statistics.totalChanges_eq_sum] at hcost
        have hless : next.1.size < g.size := by omega
        have hsteps := hg.steps_of_pass hpass
        obtain ⟨rounds, hloop, hshrinks⟩ :=
          ih next.1.size (hsize ▸ hless) (hsteps.sound hg) (hsteps.noSilentSteps hg hnone) rfl
        exact ⟨next :: rounds, .again hpass hdone hloop, hshrinks.cons hloop hzero hless⟩

/-- From any sound grammar the loop ends, within the bound. The first pass leaves no silent steps,
so the loop goes on as above. -/
theorem Sound.exists_rounds (hg : g.Sound) :
    ∃ first later, g.Loop (first :: later) ∧ (first :: later).length ≤ g.passBound ∧
      Shrinking first.1 later := by
  obtain ⟨first, hpass⟩ := hg.exists_pass
  have hfirst := (hg.steps_of_pass hpass).sound hg
  obtain ⟨hnone, hsize⟩ := hg.noSilentSteps_and_size_of_pass hpass
  have hloop : ∃ later, g.Loop (first :: later) ∧ Shrinking first.1 later := by
    by_cases hdone : first.2.totalChanges = 0
    · exact ⟨[], .stop hpass hdone, Nat.zero_le _, fun _ h => absurd h List.not_mem_nil,
        List.isChain_singleton _⟩
    · obtain ⟨later, hloop, hshrinks⟩ := hfirst.exists_loop hnone
      exact ⟨later, .again hpass hdone hloop, hshrinks⟩
  obtain ⟨later, hloop, hshrinks⟩ := hloop
  have hbound : (first :: later).length ≤ g.passBound := by
    have hlength := hshrinks.length
    unfold passBound
    rw [List.length_cons]
    nlinarith
  exact ⟨first, later, hloop, hbound, hshrinks⟩

/-- `simplify` returns what the loop comes to. -/
theorem Sound.exists_simplify (hg : g.Sound) :
    ∃ rounds, g.Loop rounds ∧ g.simplify = .ok (outcome (g, .zero) rounds) := by
  obtain ⟨first, later, hloop, hbound, -⟩ := hg.exists_rounds
  exact ⟨_, hloop, hloop.passes_eq_ok hbound .zero⟩

/--
**Simplification ends.** Only the first pass folds silent alternatives. Every
later pass but the last leaves fewer rules and alternatives together than it found.
So the loop ends after at most as many passes as the first one leaves rules and
alternatives, and two more; and `simplify` returns what the loop comes to.
-/
theorem simplify_terminates {g : Grammar} (hg : g.check = .ok ()) :
    ∃ first later, g.Loop (first :: later) ∧
      (∀ round ∈ later, round.2.silentAlternatives = 0) ∧
      ((first.1 :: later.dropLast.map Prod.fst).IsChain fun before after =>
        after.numRules + after.numAlternatives < before.numRules + before.numAlternatives) ∧
      ∃ g' stats, outcome (g, .zero) (first :: later) = (g', stats) ∧
        g.simplify = .ok (g', stats) ∧ stats.passes = (first :: later).length ∧
        stats.passes ≤ 2 + first.1.numRules + first.1.numAlternatives := by
  have hsound := check_eq_ok_iff.mp hg
  obtain ⟨first, later, hloop, hbound, hshrinks⟩ := hsound.exists_rounds
  have hcount : (outcome (g, .zero) (first :: later)).2.passes = (first :: later).length :=
    (hloop.passes_outcome hsound .zero).trans (Nat.zero_add _)
  have hlast : (outcome (g, .zero) (first :: later)).2.passes ≤
      2 + first.1.numRules + first.1.numAlternatives := by
    have hlength := hshrinks.length
    rw [hcount, List.length_cons]
    unfold size at hlength
    omega
  exact ⟨first, later, hloop, hshrinks.nothingSilent, hshrinks.smaller, _, _, rfl,
    hloop.passes_eq_ok hbound .zero, hcount, hlast⟩

/-- `Init` gets to `C_Y` through `C_X` without being seen, or performs `a` and is at `C_X` too. -/
def detour : Grammar :=
  (((⟨.empty⟩ : Grammar).store "C_X" ⟨"C_X", [⟨["C_X", "_tau", "C_Y"]⟩]⟩).store "C_Y"
    ⟨"C_Y", [⟨["C_Y", "b", "Init"]⟩, ⟨["C_Y", "c", "Final"]⟩]⟩).store "Init"
    ⟨"Init", [⟨["Init", "_tau", "C_X"]⟩, ⟨["Init", "a", "C_X"]⟩]⟩

theorem simplify_terminates_detour :
    detour.check = .ok () ∧
      ∃ first later, detour.Loop (first :: later) ∧ first.2.silentAlternatives = 2 ∧
        (∀ round ∈ later, round.2.silentAlternatives = 0) ∧
        ∃ g' stats, detour.simplify = .ok (g', stats) ∧ stats.passes = (first :: later).length ∧
          stats.passes ≤ 2 + first.1.numRules + first.1.numAlternatives := by
  obtain ⟨first, later, hloop, hzeros, -, g', stats, -, hsimplify, hpasses, hbound⟩ :=
    simplify_terminates (g := detour) rfl
  refine ⟨rfl, first, later, hloop, ?_, hzeros, g', stats, hsimplify, hpasses, hbound⟩
  have hfirst : detour.pass.map (fun round => round.2.silentAlternatives) = .ok 2 := by
    decide +kernel
  have hpass : detour.pass = .ok first := by
    cases hloop with
    | stop h _ => exact h
    | again h _ _ => exact h
  rw [hpass] at hfirst
  exact Except.ok.inj hfirst

end Grammar

end ScenarioFsp
