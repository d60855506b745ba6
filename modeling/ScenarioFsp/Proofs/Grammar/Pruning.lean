import ScenarioFsp.Grammar.Merging
import ScenarioFsp.Grammar.Silence
import ScenarioFsp.Proofs.Grammar.Reducts

/-!
# Dropping rules and alternatives

Three reductions only drop something: rules that are not in use, alternatives
that silently come back to their own rule, and repeats of an alternative. The
runs of what is left are the runs there were, with the same ends. For unused
rules this is true of the symbols in use, `Init` among them.
-/

namespace ScenarioFsp

namespace Grammar

variable {g : Grammar}

/-! ## Rules in use -/

theorem mem_usedSymbols_iff {s : Symbol} :
    s ∈ g.usedSymbols ↔ Reaches g.uses g.symbols [start] s :=
  mem_reachable_iff

theorem start_mem_usedSymbols (h : g.hasRule start = true) : start ∈ g.usedSymbols :=
  mem_usedSymbols_iff.mpr (.start (List.mem_singleton.mpr rfl) (mem_symbols_iff.mpr h))

/-- The end of an alternative in use is in use, as far as it has a rule. -/
theorem Sound.end_mem_usedSymbols (hg : g.Sound) {s e : Symbol} {p : Production}
    (hs : s ∈ g.usedSymbols) (hp : p ∈ g.alternativesOf s) (hl : p.last? = some e)
    (he : g.hasRule e = true) : e ∈ g.usedSymbols := by
  by_cases ht : p.tail = []
  · rw [Production.last?_eq_of_tail_nil (hg.first? hp) ht] at hl
    rw [← Option.some.inj hl]
    exact hs
  · rw [Production.last?_eq_getLast?_tail ht] at hl
    have huse : e ∈ g.uses s :=
      List.mem_flatMap.mpr ⟨p, hp, List.mem_of_getLast? hl⟩
    exact mem_usedSymbols_iff.mpr
      (.step (mem_usedSymbols_iff.mp hs) huse (mem_symbols_iff.mpr he))

theorem hasRule_restricted {s : Symbol} :
    g.restricted.hasRule s = true ↔ g.hasRule s = true ∧ s ∈ g.usedSymbols := by
  unfold restricted
  rw [hasRule_keepRules, Bool.and_eq_true, decide_eq_true_eq]

theorem alternativesOf_restricted {s : Symbol} :
    g.restricted.alternativesOf s = if s ∈ g.usedSymbols then g.alternativesOf s else [] := by
  unfold restricted
  rw [alternativesOf_keepRules]
  simp

theorem mem_alternativesOf_restricted {s : Symbol} {p : Production}
    (h : p ∈ g.restricted.alternativesOf s) : p ∈ g.alternativesOf s := by
  rw [alternativesOf_restricted] at h
  split at h
  · exact h
  · exact absurd h (by simp)

/-- From a symbol in use, the same runs are possible without the unused rules. -/
theorem Sound.run_restricted_iff (hg : g.Sound) {s e : Symbol} {w : Trace}
    (hs : s ∈ g.usedSymbols ∨ g.hasRule s = false) :
    g.restricted.Run s w e ↔ g.Run s w e := by
  refine ⟨Run.mono fun _ _ => mem_alternativesOf_restricted, fun h => ?_⟩
  induction h with
  | stop s => exact Run.stop s
  | @step s m e p w hp hl _ ih =>
      have huse : s ∈ g.usedSymbols := by
        rcases hs with hs | hs
        · exact hs
        · rw [hasRule_of_mem hp] at hs
          exact absurd hs (by simp)
      refine Run.step ?_ hl (ih ?_)
      · rw [alternativesOf_restricted, if_pos huse]
        exact hp
      · cases hm : g.hasRule m with
        | false => exact Or.inr rfl
        | true => exact Or.inl (hg.end_mem_usedSymbols huse hp hl hm)

theorem Sound.run_start_restricted_iff (hg : g.Sound) {e : Symbol} {w : Trace} :
    g.restricted.Run start w e ↔ g.Run start w e := by
  refine hg.run_restricted_iff ?_
  cases h : g.hasRule start with
  | false => exact Or.inr rfl
  | true => exact Or.inl (start_mem_usedSymbols h)

theorem Sound.observes_restricted_iff (hg : g.Sound) (t : Trace) :
    g.restricted.Observes start t ↔ g.Observes start t := by
  unfold Observes
  simp only [hg.run_start_restricted_iff]

theorem Sound.restricted_isReductOf (hg : g.Sound) : g.restricted.IsReductOf g := by
  refine ⟨hg.keepRules _, .of_subset (fun s hs => ?_) ?_, hg.observes_restricted_iff⟩
  · exact (hasRule_restricted.mp hs).1
  · exact fun s p hp => mem_alternativesOf_restricted hp

theorem Sound.needSymbols_usedAlternatives (hg : g.Sound) (fault : Fault) :
    Production.needSymbols fault g.usedAlternatives = .ok () := by
  refine hg.needSymbols_eq_ok fun p hp => ?_
  obtain ⟨s, -, hps⟩ := List.mem_flatMap.mp hp
  exact ⟨s, hps⟩

theorem Sound.reachableSymbols_eq_ok (hg : g.Sound) : g.reachableSymbols = .ok g.usedSymbols := by
  unfold reachableSymbols
  rw [hg.needSymbols_usedAlternatives]
  rfl

theorem Sound.dropUnused_eq_ok (hg : g.Sound) :
    g.dropUnused = .ok ⟨g.restricted, g.numRules - g.restricted.numRules⟩ := by
  unfold dropUnused
  rw [hg.needSymbols_usedAlternatives]
  rfl

/-! ## Silent loops -/

theorem hasRule_dropSilentLoops (g : Grammar) (s : Symbol) :
    g.dropSilentLoops.grammar.hasRule s = g.hasRule s :=
  hasRule_mapAlternatives _ _ _

theorem mem_alternativesOf_dropSilentLoops {s : Symbol} {p : Production} :
    p ∈ g.dropSilentLoops.grammar.alternativesOf s ↔
      p ∈ g.alternativesOf s ∧ isSilentLoop p = false := by
  unfold dropSilentLoops
  rw [alternativesOf_mapAlternatives rfl, List.mem_filter, Bool.not_eq_true']

/-- A silent loop shows nothing and leads nowhere, so no run needs it. -/
theorem Sound.run_dropSilentLoops_iff (hg : g.Sound) {s e : Symbol} {w : Trace} :
    g.dropSilentLoops.grammar.Run s w e ↔ g.Run s w e := by
  refine ⟨Run.mono fun _ _ hp => (mem_alternativesOf_dropSilentLoops.mp hp).1, fun h => ?_⟩
  induction h with
  | stop s => exact Run.stop s
  | @step s m e p w hp hl _ ih =>
      cases hloop : isSilentLoop p with
      | false => exact Run.step (mem_alternativesOf_dropSilentLoops.mpr ⟨hp, hloop⟩) hl ih
      | true =>
          simp only [isSilentLoop, Bool.and_eq_true, decide_eq_true_eq] at hloop
          have hms : m = s := by
            have hback := hloop.2
            rw [hg.first? hp, hl] at hback
            exact (Option.some.inj hback).symm
          rw [Production.visible_eq_nil hloop.1, List.nil_append, ← hms]
          exact ih

theorem Sound.dropSilentLoops_isReductOf (hg : g.Sound) :
    g.dropSilentLoops.grammar.IsReductOf g := by
  have hkept : ∀ s p, p ∈ g.dropSilentLoops.grammar.alternativesOf s → p ∈ g.alternativesOf s :=
    fun s p hp => (mem_alternativesOf_dropSilentLoops.mp hp).1
  refine ⟨?_, .of_subset (fun s hs => ?_) hkept, fun t => ?_⟩
  · exact hg.mapAlternatives fun _ _ hp => hg.first? (List.mem_filter.mp hp).1
  · rwa [hasRule_dropSilentLoops] at hs
  · unfold Observes
    simp only [hg.run_dropSilentLoops_iff]

/-! ## Repeats -/

theorem hasRule_dropRepeats (g : Grammar) (s : Symbol) :
    g.dropRepeats.grammar.hasRule s = g.hasRule s :=
  hasRule_mapAlternatives _ _ _

theorem mem_alternativesOf_dropRepeats {s : Symbol} {p : Production} :
    p ∈ g.dropRepeats.grammar.alternativesOf s ↔ p ∈ g.alternativesOf s := by
  unfold dropRepeats
  rw [alternativesOf_mapAlternatives rfl, mem_distinct]

theorem run_dropRepeats_iff {s e : Symbol} {w : Trace} :
    g.dropRepeats.grammar.Run s w e ↔ g.Run s w e := by
  refine ⟨Run.mono fun _ _ hp => ?_, Run.mono fun _ _ hp => ?_⟩
  · exact mem_alternativesOf_dropRepeats.mp hp
  · exact mem_alternativesOf_dropRepeats.mpr hp

theorem Sound.dropRepeats_isReductOf (hg : g.Sound) : g.dropRepeats.grammar.IsReductOf g := by
  have hkept : ∀ s p, p ∈ g.dropRepeats.grammar.alternativesOf s → p ∈ g.alternativesOf s :=
    fun s p hp => mem_alternativesOf_dropRepeats.mp hp
  refine ⟨?_, .of_subset (fun s hs => ?_) hkept, fun t => ?_⟩
  · exact hg.mapAlternatives fun _ _ hp => hg.first? (mem_distinct.mp hp)
  · rwa [hasRule_dropRepeats] at hs
  · unfold Observes
    simp only [run_dropRepeats_iff]

end Grammar

end ScenarioFsp
