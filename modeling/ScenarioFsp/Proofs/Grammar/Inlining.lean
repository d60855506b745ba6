import ScenarioFsp.Grammar.Inlining
import ScenarioFsp.Proofs.Grammar.Reducts

/-!
# Inlining single alternatives

A symbol whose only alternative leads elsewhere is passed through in one way. So
an alternative that ends there can go on right away, and whoever wants to stop at
the inlined symbol is carried one alternative further: the run shows more than it
did, never less. Runs that end at another symbol keep their end.

`inlineSingles` does this for one symbol after the other, each time with the
grammar that the symbols before have left.
-/

namespace ScenarioFsp

namespace Grammar

/-- `symbol` offers `p` and nothing else, and `p` leads on to `target`. -/
structure Single (g : Grammar) (symbol : Symbol) (p : Production) (target : Symbol) : Prop where
  only : g.alternativesOf symbol = [p]
  leads : p.last? = some target
  leaves : target ≠ symbol

variable {g : Grammar} {symbol target : Symbol} {p : Production}

theorem Single.mem (h : g.Single symbol p target) : p ∈ g.alternativesOf symbol := by
  rw [h.only]
  exact List.mem_singleton.mpr rfl

theorem Sound.tail_ne_nil_of_single (hg : g.Sound) (h : g.Single symbol p target) :
    p.tail ≠ [] :=
  Production.tail_ne_nil (hg.first? h.mem) h.leads h.leaves

/-! ## What is left of the other rules -/

theorem alternativesOf_inlined {s : Symbol} :
    (g.inlined symbol p).alternativesOf s =
      if s = symbol then []
      else (g.alternativesOf s).map fun q => if q.last? = some symbol then q.splice p else q := by
  unfold inlined
  rw [alternativesOf_mapAlternatives rfl, alternativesOf_keepRules]
  by_cases hs : s = symbol
  · simp [hs]
  · simp [hs]

/-- The rule of the symbol is gone, and no other. -/
theorem hasRule_inlined {s : Symbol} :
    (g.inlined symbol p).hasRule s = true ↔ g.hasRule s = true ∧ s ≠ symbol := by
  unfold inlined
  rw [hasRule_mapAlternatives, hasRule_keepRules, Bool.and_eq_true, decide_eq_true_eq]

/-- An alternative of the inlined grammar is an old one, spliced if it ended in the symbol. -/
theorem mem_alternativesOf_inlined_iff {s : Symbol} {q' : Production} :
    q' ∈ (g.inlined symbol p).alternativesOf s ↔
      s ≠ symbol ∧ ∃ q ∈ g.alternativesOf s,
        (if q.last? = some symbol then q.splice p else q) = q' := by
  rw [alternativesOf_inlined]
  by_cases hs : s = symbol
  · simp [hs]
  · rw [if_neg hs, List.mem_map]
    exact ⟨fun h => ⟨hs, h⟩, fun h => h.2⟩

/-- Where a spliced alternative ends, and what can be seen of it. -/
theorem Sound.spliced (hg : g.Sound) (h : g.Single symbol p target) {s : Symbol}
    {q : Production} (hs : s ≠ symbol) (hq : q ∈ g.alternativesOf s)
    (hl : q.last? = some symbol) :
    q.tail ≠ [] ∧ (q.splice p).last? = some target ∧
      (q.splice p).visible = q.visible ++ p.visible := by
  have hqt : q.tail ≠ [] := Production.tail_ne_nil (hg.first? hq) hl (Ne.symm hs)
  have hpt := hg.tail_ne_nil_of_single h
  refine ⟨hqt, ?_, Production.visible_splice hqt hpt⟩
  rw [Production.last?_splice hqt hpt]
  exact h.leads

/-! ## Runs -/

/-- Inlining adds no runs. -/
theorem Sound.run_of_run_inlined (hg : g.Sound) (h : g.Single symbol p target) {s e : Symbol}
    {w : Trace} (hrun : (g.inlined symbol p).Run s w e) : g.Run s w e := by
  induction hrun with
  | stop s => exact Run.stop s
  | @step s m e q' w hq' hl _ ih =>
      obtain ⟨hs, q, hq, rfl⟩ := mem_alternativesOf_inlined_iff.mp hq'
      by_cases hend : q.last? = some symbol
      · rw [if_pos hend] at hl ⊢
        obtain ⟨-, hlast, hvisible⟩ := hg.spliced h hs hq hend
        rw [hlast] at hl
        have hm : m = target := (Option.some.inj hl).symm
        rw [hvisible, List.append_assoc]
        exact Run.step hq hend (Run.step h.mem h.leads (hm ▸ ih))
      · rw [if_neg hend] at hl ⊢
        exact Run.step hq hl ih

/-- A run of the inlined grammar that shows `w` at least, and that ends at `e` if it can. -/
def Outruns (g : Grammar) (symbol : Symbol) (p : Production) (s : Symbol) (w : Trace)
    (e : Symbol) : Prop :=
  ∃ w' e', (g.inlined symbol p).Run s w' e' ∧ w <+: w' ∧ (e ≠ symbol → w' = w ∧ e' = e)

theorem Outruns.prepend {s m e : Symbol} {v w : Trace} (hrun : (g.inlined symbol p).Run s v m)
    (h : g.Outruns symbol p m w e) : g.Outruns symbol p s (v ++ w) e := by
  obtain ⟨w', e', hrest, hpre, hend⟩ := h
  refine ⟨v ++ w', e', hrun.trans hrest, ?_, fun hne => ?_⟩
  · rw [List.prefix_append_right_inj]
    exact hpre
  · rw [(hend hne).1]
    exact ⟨rfl, (hend hne).2⟩

/--
Inlining loses no runs, except that a run cannot stop at the inlined symbol. A
run that starts there stops at once or goes on by the single alternative.
-/
theorem Sound.run_inlined_aux (hg : g.Sound) (h : g.Single symbol p target) {s e : Symbol}
    {w : Trace} (hrun : g.Run s w e) :
    (s ≠ symbol → g.Outruns symbol p s w e) ∧
      (s = symbol → (w = [] ∧ e = symbol) ∨
        ∃ v, w = p.visible ++ v ∧ g.Outruns symbol p target v e) := by
  induction hrun with
  | stop s =>
      exact ⟨fun _ => ⟨[], s, Run.stop s, List.prefix_rfl, fun _ => ⟨rfl, rfl⟩⟩,
        fun hs => Or.inl ⟨rfl, hs⟩⟩
  | @step s m e q w hq hl _ ih =>
      refine ⟨fun hs => ?_, fun hs => ?_⟩
      · have hq' : (if q.last? = some symbol then q.splice p else q) ∈
            (g.inlined symbol p).alternativesOf s :=
          mem_alternativesOf_inlined_iff.mpr ⟨hs, q, hq, rfl⟩
        by_cases hm : m = symbol
        · -- the alternative ended in the symbol and goes on now
          subst hm
          obtain ⟨-, hlast, hvisible⟩ := hg.spliced h hs hq hl
          rw [if_pos hl] at hq'
          have hspliced := Run.single hq' hlast
          rw [hvisible] at hspliced
          rcases ih.2 rfl with ⟨rfl, rfl⟩ | ⟨v, rfl, hout⟩
          · refine ⟨_, target, hspliced, ?_, fun hne => absurd rfl hne⟩
            rw [List.append_nil]
            exact List.prefix_append _ _
          · rw [← List.append_assoc]
            exact hout.prepend hspliced
        · have hend : q.last? ≠ some symbol := by
            rw [hl]
            exact fun hsome => hm (Option.some.inj hsome)
          rw [if_neg hend] at hq'
          exact (ih.1 hm).prepend (Run.single hq' hl)
      · subst hs
        rw [h.only] at hq
        have hqp : q = p := List.mem_singleton.mp hq
        subst hqp
        rw [h.leads] at hl
        have hm : m = target := (Option.some.inj hl).symm
        subst hm
        exact Or.inr ⟨w, rfl, ih.1 h.leaves⟩

theorem Sound.run_inlined (hg : g.Sound) (h : g.Single symbol p target) {s e : Symbol}
    {w : Trace} (hs : s ≠ symbol) (hrun : g.Run s w e) : g.Outruns symbol p s w e :=
  (hg.run_inlined_aux h hrun).1 hs

theorem Sound.observes_inlined_iff (hg : g.Sound) (h : g.Single symbol p target) {s : Symbol}
    (hs : s ≠ symbol) (t : Trace) : (g.inlined symbol p).Observes s t ↔ g.Observes s t := by
  refine ⟨fun ho => ho.of_runs fun w e hrun => ?_, fun ho => ho.of_runs fun w e hrun => ?_⟩
  · exact ⟨w, e, hg.run_of_run_inlined h hrun, List.prefix_rfl⟩
  · obtain ⟨w', e', hrun', hpre, -⟩ := hg.run_inlined h hs hrun
    exact ⟨w', e', hrun', hpre⟩

/-! ## One symbol -/

theorem Sound.inlined (hg : g.Sound) (h : g.Single symbol p target) :
    (g.inlined symbol p).Sound := by
  refine (hg.keepRules _).mapAlternatives fun s q' hq' => ?_
  obtain ⟨q, hq, rfl⟩ := List.mem_map.mp hq'
  rw [alternativesOf_keepRules] at hq
  split at hq
  · rename_i hs
    have hs' : s ≠ symbol := by simpa using hs
    split
    · rename_i hl
      rw [Production.first?_splice (hg.spliced h hs' hq hl).1]
      exact hg.first? hq
    · exact hg.first? hq
  · exact absurd hq (by simp)

theorem Sound.inlined_within (hg : g.Sound) (h : g.Single symbol p target) :
    (g.inlined symbol p).Within g := by
  have hp : p ∈ g.alternatives := mem_alternatives_iff.mpr ⟨symbol, h.mem⟩
  have hold : ∀ q' ∈ (g.inlined symbol p).alternatives, ∃ q ∈ g.alternatives,
      q' = q ∨ (q' = q.splice p ∧ q'.actions = q.actions ++ p.actions) := by
    intro q' hq'
    obtain ⟨s, hqs⟩ := mem_alternatives_iff.mp hq'
    obtain ⟨hs, q, hq, rfl⟩ := mem_alternativesOf_inlined_iff.mp hqs
    refine ⟨q, mem_alternatives_iff.mpr ⟨s, hq⟩, ?_⟩
    split
    · rename_i hl
      have hqt := (hg.spliced h hs hq hl).1
      exact Or.inr ⟨rfl, Production.actions_splice hqt (hg.tail_ne_nil_of_single h)⟩
    · exact Or.inl rfl
  refine ⟨fun s hs => (hasRule_inlined.mp hs).1, fun q' hq' a ha => ?_, fun q' hq' x hx => ?_⟩
  · obtain ⟨q, hq, rfl | ⟨rfl, hactions⟩⟩ := hold q' hq'
    · exact ⟨q', hq, ha⟩
    · rw [hactions] at ha
      rcases List.mem_append.mp ha with ha | ha
      · exact ⟨q, hq, ha⟩
      · exact ⟨p, hp, ha⟩
  · obtain ⟨q, hq, rfl | ⟨rfl, -⟩⟩ := hold q' hq'
    · exact Or.inr ⟨q', hq, hx⟩
    · rcases List.mem_append.mp hx with hx | hx
      · exact Or.inr ⟨q, hq, (List.dropLast_sublist q.symbols).subset hx⟩
      · exact Or.inr ⟨p, hp, List.mem_of_mem_tail hx⟩

theorem Sound.inlined_isReductOf (hg : g.Sound) (h : g.Single symbol p target)
    (hs : symbol ≠ start) : (g.inlined symbol p).IsReductOf g :=
  ⟨hg.inlined h, hg.inlined_within h, hg.observes_inlined_iff h (Ne.symm hs)⟩

/-- The rule of `symbol` can be replaced by its only alternative. -/
def Inlinable (g : Grammar) (symbol : Symbol) : Prop :=
  symbol ≠ start ∧ ∃ p target, g.Single symbol p target

/-- What `inlineRule` does: it inlines a symbol that can be inlined, and leaves any other alone. -/
theorem Sound.inlineRule_cases (hg : g.Sound) (symbol : Symbol) :
    (¬g.Inlinable symbol ∧ g.inlineRule symbol = .ok ⟨g, 0⟩) ∨
      ∃ p target, symbol ≠ start ∧ g.Single symbol p target ∧
        g.inlineRule symbol = .ok ⟨g.inlined symbol p, 1⟩ := by
  unfold inlineRule replacement?
  by_cases hstart : symbol = start
  · rw [if_pos hstart]
    exact Or.inl ⟨fun h => h.1 hstart, rfl⟩
  · rw [if_neg hstart]
    match halts : g.alternativesOf symbol with
    | [] =>
        refine Or.inl ⟨fun h => ?_, rfl⟩
        obtain ⟨-, p, target, hsingle⟩ := h
        exact absurd (halts.symm.trans hsingle.only) (by simp)
    | [p] =>
        have hp : p ∈ g.alternativesOf symbol := by
          rw [halts]
          exact List.mem_singleton.mpr rfl
        obtain ⟨target, hl⟩ := hg.exists_last? hp
        have hlast : p.last = .ok target := by
          unfold Production.last
          rw [hl]
        simp only [hlast, Except.map]
        by_cases ht : target = symbol
        · rw [if_pos ht]
          refine Or.inl ⟨fun h => ?_, rfl⟩
          obtain ⟨-, q, target', hsingle⟩ := h
          obtain rfl : p = q := List.singleton_inj.mp (halts.symm.trans hsingle.only)
          exact hsingle.leaves ((Option.some.inj (hsingle.leads.symm.trans hl)).trans ht)
        · rw [if_neg ht]
          right
          refine ⟨p, target, hstart, ⟨halts, hl, ht⟩, ?_⟩
          have hneed := (hg.keepRules fun key => decide (key ≠ symbol)).needSymbols_alternatives
            .noLast
          simp only [Except.bind, hneed]
    | p :: q :: rest =>
        refine Or.inl ⟨fun h => ?_, rfl⟩
        obtain ⟨-, p', target, hsingle⟩ := h
        exact absurd (halts.symm.trans hsingle.only) (by simp)

/-! ## All symbols -/

/-- `g.Inlines symbols g' n`: the symbols are taken in turn, `n` of them are inlined where the
others cannot be, and `g'` is what comes of it. -/
inductive Inlines : Grammar → List Symbol → Grammar → Nat → Prop where
  | nil (g : Grammar) : Inlines g [] g 0
  | skip {g g' : Grammar} {symbol : Symbol} {symbols : List Symbol} {n : Nat} :
      ¬g.Inlinable symbol → Inlines g symbols g' n → Inlines g (symbol :: symbols) g' n
  | take {g g' : Grammar} {symbol target : Symbol} {p : Production} {symbols : List Symbol}
      {n : Nat} : symbol ≠ start → g.Single symbol p target →
      Inlines (g.inlined symbol p) symbols g' n → Inlines g (symbol :: symbols) g' (n + 1)

/-- Inlining never fails on a sound grammar. -/
theorem Sound.exists_inlines (hg : g.Sound) (symbols : List Symbol) :
    ∃ c, g.inlineRules symbols = .ok c ∧ g.Inlines symbols c.grammar c.count := by
  induction symbols generalizing g with
  | nil => exact ⟨_, rfl, .nil g⟩
  | cons symbol symbols ih =>
      rcases hg.inlineRule_cases symbol with ⟨hnot, hnone⟩ | ⟨p, target, hs, hsingle, hone⟩
      · obtain ⟨later, hlater, hinlines⟩ := ih hg
        refine ⟨⟨later.grammar, 0 + later.count⟩, ?_, ?_⟩
        · simp only [inlineRules, hnone, Except.bind, hlater, Except.map]
        · rw [Nat.zero_add]
          exact .skip hnot hinlines
      · obtain ⟨later, hlater, hinlines⟩ := ih (hg.inlined hsingle)
        refine ⟨⟨later.grammar, 1 + later.count⟩, ?_, ?_⟩
        · simp only [inlineRules, hone, Except.bind, hlater, Except.map]
        · rw [Nat.add_comm]
          exact .take hs hsingle hinlines

end Grammar

end ScenarioFsp
