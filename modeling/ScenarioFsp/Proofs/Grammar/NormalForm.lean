import ScenarioFsp.Proofs.Grammar.Termination

/-!
# Simplified grammars are in normal form

The loop stops when a pass counts no change. Each reduction counts nothing exactly
if it changes nothing (`Sound.count_eq_zero_iff`), and then it finds none of what it
is there to remove (`Idle`). So all six are idle together at the end, although each
of them may have undone what another one had achieved earlier. A grammar for which
all are idle is left as it is by another pass.
-/

namespace ScenarioFsp

namespace Grammar

/-- There is nothing for the reduction to do. -/
def Idle (g : Grammar) : Reduction → Prop
  | .dropUnused => ∀ s, g.hasRule s = true → s ∈ g.usedSymbols
  | .foldSilent => g.NoSilentSteps
  | .dropSilentLoops => ∀ p ∈ g.alternatives, isSilentLoop p = false
  | .inlineSingles => ∀ s, ¬g.Inlinable s
  | .dropRepeats => ∀ r ∈ g.ruleList, r.alternatives.Nodup
  | .mergeTwins => ∀ r r', ¬g.Twins r r'

variable {g g' : Grammar} {rounds : List (Grammar × Statistics)}

/-! ## Nothing counted, nothing to do -/

theorem Inlines.not_inlinable {symbols : List Symbol} {n : Nat} (h : g.Inlines symbols g' n)
    (hn : n = 0) : ∀ s ∈ symbols, ¬g.Inlinable s := by
  induction h with
  | nil g => exact fun _ hs => absurd hs List.not_mem_nil
  | skip hnot _ ih =>
      intro s hs
      rcases List.mem_cons.mp hs with rfl | hmem
      · exact hnot
      · exact ih hn s hmem
  | take _ _ _ _ => exact absurd hn (Nat.succ_ne_zero _)

theorem Inlines.eq_of_not_inlinable {symbols : List Symbol} {n : Nat} (h : g.Inlines symbols g' n)
    (hnot : ∀ s, ¬g.Inlinable s) : g' = g ∧ n = 0 := by
  induction h with
  | nil g => exact ⟨rfl, rfl⟩
  | skip _ _ ih => exact ih hnot
  | take hs hsingle _ _ => exact absurd ⟨hs, _, _, hsingle⟩ (hnot _)

theorem hasRule_of_inlinable {s : Symbol} (h : g.Inlinable s) : g.hasRule s = true := by
  obtain ⟨-, p, target, hsingle⟩ := h
  exact hasRule_of_mem hsingle.mem

/-- If a rule repeats itself, there are fewer alternatives without repeats. -/
theorem nodup_of_count_dropRepeats (h : g.dropRepeats.count = 0) {r : Rule}
    (hr : r ∈ g.ruleList) : r.alternatives.Nodup := by
  by_contra hrepeats
  have hless : (distinct r.alternatives).length < r.alternatives.length := by
    refine Nat.lt_of_le_of_ne (distinct_sublist _).length_le fun hlength => hrepeats ?_
    rw [← (distinct_sublist _).eq_of_length hlength]
    exact nodup_distinct _
  have hsum : g.dropRepeats.grammar.numAlternatives < g.numAlternatives := by
    have hkept : g.dropRepeats.grammar.alternatives =
        g.ruleList.flatMap fun r => distinct r.alternatives := alternatives_mapAlternatives _ g
    unfold numAlternatives
    rw [hkept]
    unfold alternatives
    rw [List.length_flatMap, List.length_flatMap]
    exact List.sum_lt_sum _ _ (fun r _ => (distinct_sublist r.alternatives).length_le)
      ⟨r, hr, hless⟩
  have hcount : g.dropRepeats.count = g.numAlternatives - g.dropRepeats.grammar.numAlternatives :=
    rfl
  omega

/-- **A reduction that counts no change had nothing to do.** -/
theorem Sound.idle_of_count_eq_zero (hg : g.Sound) {r : Reduction} {c : Change}
    (hc : r.apply g = .ok c) (h : c.count = 0) : g.Idle r := by
  cases r with
  | dropUnused =>
      -- as many symbols are kept as there were, so all of them are
      obtain rfl := Except.ok.inj (hc.symm.trans hg.dropUnused_eq_ok)
      have hall : (g.symbols.filter fun key => decide (key ∈ g.usedSymbols)).length =
          g.symbols.length := by
        refine Nat.le_antisymm (List.length_filter_le _ _) ?_
        rw [← symbols_keepRules, ← numRules_eq_length_symbols, ← numRules_eq_length_symbols]
        exact Nat.le_of_sub_eq_zero h
      intro s hs
      exact of_decide_eq_true
        (List.length_filter_eq_length_iff.mp hall s (mem_symbols_iff.mpr hs))
  | foldSilent =>
      obtain rfl := Except.ok.inj (hc.symm.trans hg.foldSilent_eq_ok)
      exact fun p hp => Bool.eq_false_iff.mpr (List.countP_eq_zero.mp h p hp)
  | dropSilentLoops =>
      obtain rfl := Except.ok.inj hc
      exact fun p hp => Bool.eq_false_iff.mpr (List.countP_eq_zero.mp h p hp)
  | inlineSingles =>
      obtain ⟨c', hc', hinlines⟩ := hg.exists_inlines g.symbols
      obtain rfl := Except.ok.inj (hc.symm.trans hc')
      -- every symbol with a rule was tried on the grammar itself, for nothing was changed before
      intro s hs
      exact hinlines.not_inlinable h s (mem_symbols_iff.mpr (hasRule_of_inlinable hs)) hs
  | dropRepeats =>
      obtain rfl := Except.ok.inj hc
      exact fun r hr => nodup_of_count_dropRepeats h hr
  | mergeTwins =>
      obtain rfl := Except.ok.inj (hc.symm.trans hg.mergeTwins_eq_ok)
      -- twins would leave a name behind, but there is none
      intro r r' htwins
      obtain ⟨s, s', hname⟩ := htwins.exists_twinNames
      rw [OrderedMap.get?_eq_some_iff, List.eq_nil_of_length_eq_zero h] at hname
      exact absurd hname List.not_mem_nil

/-! ## Nothing to do, nothing done -/

/-- Without twins there are no names to change. -/
theorem twinNames_eq_empty (h : ∀ r r', ¬g.Twins r r') : g.twinNames = .empty := by
  refine OrderedMap.ext_get? fun s => ?_
  cases hname : g.twinNames.get? s with
  | none => rfl
  | some s' =>
      obtain ⟨r, r', -, -, htwins, -⟩ := twins_of_twinNames hname
      exact absurd htwins (h r r')

theorem renamed_empty (g : Grammar) : g.renamed .empty = g := by
  have hends : ∀ p : Production, renameEnd .empty p = p := by
    intro p
    unfold renameEnd
    cases p.last? with
    | none => rfl
    | some e => rfl
  have hkept : g.keepRules (fun key => !(OrderedMap.empty : OrderedMap Symbol Symbol).hasKey key) =
      g := keepRules_eq_self fun _ _ => rfl
  unfold renamed
  rw [hkept]
  exact mapAlternatives_eq_self fun r _ => List.map_id'' hends r.alternatives

/-- **A reduction that has nothing to do leaves the grammar as it is**, and counts no change. -/
theorem Sound.apply_eq_ok_self (hg : g.Sound) {r : Reduction} (h : g.Idle r) :
    r.apply g = .ok ⟨g, 0⟩ := by
  cases r with
  | dropUnused =>
      have hkept : g.restricted = g := keepRules_eq_self fun s hs => decide_eq_true (h s hs)
      show g.dropUnused = _
      rw [hg.dropUnused_eq_ok, hkept, Nat.sub_self]
  | foldSilent =>
      show g.foldSilent = _
      rw [hg.foldSilent_eq_ok, NoSilentSteps.folded_eq h, NoSilentSteps.countP_eq_zero h]
  | dropSilentLoops =>
      have hkept : g.dropSilentLoops.grammar = g := by
        refine mapAlternatives_eq_self fun r hr => List.filter_eq_self.mpr fun p hp => ?_
        rw [h p (List.mem_flatMap.mpr ⟨r, hr, hp⟩)]
        rfl
      have hcount : g.dropSilentLoops.count = 0 :=
        List.countP_eq_zero.mpr fun p hp => Bool.eq_false_iff.mp (h p hp)
      show Except.ok (⟨g.dropSilentLoops.grammar, g.dropSilentLoops.count⟩ : Change) = _
      rw [hkept, hcount]
  | inlineSingles =>
      obtain ⟨⟨g', n⟩, hc, hinlines⟩ := hg.exists_inlines g.symbols
      obtain ⟨rfl, rfl⟩ := hinlines.eq_of_not_inlinable h
      exact hc
  | dropRepeats =>
      have hkept : g.dropRepeats.grammar = g :=
        mapAlternatives_eq_self fun r hr => distinct_eq_self (h r hr)
      show Except.ok (⟨g.dropRepeats.grammar,
        g.numAlternatives - g.dropRepeats.grammar.numAlternatives⟩ : Change) = _
      rw [hkept, Nat.sub_self]
  | mergeTwins =>
      show g.mergeTwins = _
      rw [hg.mergeTwins_eq_ok, twinNames_eq_empty h, renamed_empty]
      rfl

/-- **A reduction counts no change exactly if it makes none.** -/
theorem Sound.count_eq_zero_iff (hg : g.Sound) {r : Reduction} {c : Change}
    (hc : r.apply g = .ok c) : c.count = 0 ↔ c.grammar = g := by
  refine ⟨fun h => ?_, fun h => ?_⟩
  · have hself := hg.apply_eq_ok_self (hg.idle_of_count_eq_zero hc h)
    rw [Except.ok.inj (hc.symm.trans hself)]
  · -- a change costs a rule or an alternative; a folded grammar has no more to fold
    have hcost := hg.size_apply (fun hfold => ?_) hc
    · rw [h] at hcost
      omega
    · subst hfold
      obtain rfl := Except.ok.inj (hc.symm.trans hg.foldSilent_eq_ok)
      rw [← h]
      exact hg.noSilentSteps_folded

/-! ## The end of the loop -/

theorem Leads.idle {rs : List Reduction} {ns : List Nat} (h : Leads rs g ns g') (hg : g.Sound)
    (hns : ns.sum = 0) : g' = g ∧ ∀ r ∈ rs, g.Idle r := by
  induction h with
  | nil g => exact ⟨rfl, fun _ hr => absurd hr List.not_mem_nil⟩
  | @cons r rs g g' c ns hc _ ih =>
      rw [List.sum_cons] at hns
      have hidle := hg.idle_of_count_eq_zero hc (Nat.eq_zero_of_add_eq_zero_right hns)
      obtain rfl := Except.ok.inj (hc.symm.trans (hg.apply_eq_ok_self hidle))
      obtain ⟨hsame, hrest⟩ := ih hg (Nat.eq_zero_of_add_eq_zero_left hns)
      refine ⟨hsame, fun r' hr' => ?_⟩
      rcases List.mem_cons.mp hr' with rfl | hmem
      · exact hidle
      · exact hrest r' hmem

theorem Sound.leads_of_idle (hg : g.Sound) {rs : List Reduction} (h : ∀ r ∈ rs, g.Idle r) :
    Leads rs g (rs.map fun _ => 0) g := by
  induction rs with
  | nil => exact .nil g
  | cons r rs ih =>
      have hfirst := hg.apply_eq_ok_self (h r List.mem_cons_self)
      exact .cons hfirst (ih fun r' hr' => h r' (List.mem_cons_of_mem r hr'))

theorem Reduction.mem_order (r : Reduction) : r ∈ Reduction.order := by
  cases r <;> decide

/-- Where the loop ends there is nothing to do for any reduction. -/
theorem Loop.idle_outcome (h : g.Loop rounds) (hg : g.Sound) (stats : Statistics) :
    (outcome (g, stats) rounds).1.Sound ∧ ∀ r, (outcome (g, stats) rounds).1.Idle r := by
  induction h generalizing stats with
  | @stop g next hpass hdone =>
      rw [Statistics.totalChanges_eq_sum] at hdone
      obtain ⟨hsame, hidle⟩ := (hg.leads_of_pass hpass).2.idle hg hdone
      show next.1.Sound ∧ ∀ r, next.1.Idle r
      rw [hsame]
      exact ⟨hg, fun r => hidle r (Reduction.mem_order r)⟩
  | @again g next rounds hpass _ _ ih =>
      exact ih ((hg.steps_of_pass hpass).sound hg) (stats.add next.2)

/-- Simplifying once more takes one pass, which changes nothing. -/
theorem Sound.simplify_eq_ok_self (hg : g.Sound) (h : ∀ r, g.Idle r) :
    g.simplify = .ok (g, ⟨1, 0, 0, 0, 0, 0, 0⟩) := by
  obtain ⟨⟨passes, unused, silent, loops, singles, repeats, twins⟩, hpass, hone, hcounts⟩ :=
    (hg.leads_of_idle fun r (_ : r ∈ Reduction.order) => h r).pass_eq_ok
  simp only [Statistics.counts, Reduction.order, List.map_cons, List.map_nil,
    List.cons.injEq] at hcounts
  obtain ⟨rfl, rfl, rfl, rfl, rfl, rfl, -⟩ := hcounts
  obtain rfl : passes = 1 := hone
  have hbound : 1 ≤ g.passBound := Nat.mul_pos (Nat.succ_pos _) (Nat.succ_pos _)
  exact (Loop.stop hpass rfl).passes_eq_ok hbound .zero

/-! ## Normal forms -/

/-- A grammar without anything that the reductions remove. -/
structure NormalForm (g : Grammar) : Prop where
  used : ∃ symbols, g.reachableSymbols = .ok symbols ∧ ∀ s, g.hasRule s = true → s ∈ symbols
  /-- An alternative that does nothing but `_tau` ends where no rule goes on. -/
  silent : ∀ p ∈ g.alternatives, p.actions ≠ [] → (∀ a ∈ p.actions, a = Symbol.tau) →
    ∀ e, p.last? = some e → g.hasRule e = false
  repeats : ∀ r ∈ g.ruleList, r.alternatives.Nodup
  /-- A rule with a single alternative loops to itself. -/
  singles : ∀ r ∈ g.ruleList, r.symbol ≠ start → ∀ p, r.alternatives = [p] →
    p.last? = some r.symbol
  shapes : ∀ r ∈ g.ruleList, ∀ r' ∈ g.ruleList, shape r = shape r' → r = r'

theorem Sound.normalForm (hg : g.Sound) (h : ∀ r, g.Idle r) : g.NormalForm := by
  refine ⟨⟨g.usedSymbols, hg.reachableSymbols_eq_ok, h .dropUnused⟩, ?_, h .dropRepeats, ?_, ?_⟩
  · intro p hp hne hall e hl
    obtain ⟨s, hps⟩ := mem_alternatives_iff.mp hp
    exact NoSilentSteps.not_hasRule (h .foldSilent) hps (Production.isSilent_iff.mpr ⟨hne, hall⟩) hl
  · intro r hr hstart p hp
    have hrule := hg.mem_ruleList_iff.mp hr
    have honly : g.alternativesOf r.symbol = [p] := (alternativesOf_eq hrule).trans hp
    have hmem : p ∈ g.alternativesOf r.symbol := by
      rw [honly]
      exact List.mem_singleton.mpr rfl
    obtain ⟨target, hl⟩ := hg.exists_last? hmem
    by_cases ht : target = r.symbol
    · rw [hl, ht]
    · exact absurd ⟨hstart, p, target, honly, hl, ht⟩ (h .inlineSingles r.symbol)
  · intro r hr r' hr' hshape
    by_cases hsymbol : r.symbol = r'.symbol
    · have hrule := hg.mem_ruleList_iff.mp hr
      rw [hsymbol, hg.mem_ruleList_iff.mp hr'] at hrule
      exact (Option.some.inj hrule).symm
    · exact absurd ⟨hr, hr', hsymbol, hshape⟩ (h .mergeTwins r r')

/--
**A simplified grammar is in normal form**: all of it holds at once. Simplifying it
again takes one pass that counts no change and gives back the same grammar.
-/
theorem simplify_normalForm {g : Grammar} (hg : g.check = .ok ()) :
    ∃ g' stats, g.simplify = .ok (g', stats) ∧ g'.NormalForm ∧
      ∃ again, g'.simplify = .ok (g', again) ∧ again.passes = 1 ∧ again.totalChanges = 0 := by
  have hsound := check_eq_ok_iff.mp hg
  obtain ⟨rounds, hloop, hsimplify⟩ := hsound.exists_simplify
  obtain ⟨hend, hidle⟩ := hloop.idle_outcome hsound .zero
  exact ⟨_, _, hsimplify, hend.normalForm hidle, _, hend.simplify_eq_ok_self hidle, rfl, rfl⟩

theorem simplify_normalForm_detour :
    detour.check = .ok () ∧
      ∃ g' stats, detour.simplify = .ok (g', stats) ∧ stats = ⟨2, 0, 2, 0, 0, 0, 1⟩ ∧
        g'.NormalForm ∧
        ∃ again, g'.simplify = .ok (g', again) ∧ again.passes = 1 ∧ again.totalChanges = 0 := by
  obtain ⟨g', stats, hsimplify, hnormal, hagain⟩ := simplify_normalForm (g := detour) rfl
  refine ⟨rfl, g', stats, hsimplify, ?_, hnormal, hagain⟩
  have hstats : detour.simplify.map Prod.snd = .ok ⟨2, 0, 2, 0, 0, 0, 1⟩ := by decide +kernel
  rw [hsimplify] at hstats
  exact Except.ok.inj hstats

end Grammar

end ScenarioFsp
