import Mathlib.Algebra.Order.BigOperators.Group.List
import Mathlib.Algebra.Order.Ring.Nat
import Mathlib.Data.List.Flatten
import Mathlib.Data.List.Perm.Subperm
import ScenarioFsp.Proofs.Grammar.Silence

/-!
# Every change costs a rule or an alternative

The size of a grammar is the number of its rules and alternatives. Apart from
folding, every change that a reduction counts costs one of them at least: a rule
that is dropped, inlined or renamed, or an alternative that is dropped. The rules
that are lost can be counted by any ordered list of them (`lostSymbols_eq`). So a
sequence of reductions that finds no silent steps makes the grammar smaller by as
many as it counts (`Leads.size_add_sum_le`).

Folding copies alternatives. A rule comes to have at most one copy of every
alternative there is, which bounds the growth (`numAlternatives_folded_le`).
-/

namespace ScenarioFsp

theorem Statistics.totalChanges_eq_sum (s : Statistics) : s.totalChanges = s.counts.sum := by
  simp only [totalChanges, counts, List.sum_cons, List.sum_nil]
  omega

namespace Grammar

variable {g g' : Grammar}

/-- How many rules and alternatives there are. -/
def size (g : Grammar) : Nat := g.numRules + g.numAlternatives

/-! ## Counting rules and alternatives -/

theorem numRules_eq_length_symbols (g : Grammar) : g.numRules = g.symbols.length :=
  (List.length_map _).symm

theorem nodup_symbols (g : Grammar) : g.symbols.Nodup :=
  g.rules.keys_sorted.imp fun h => Ordered.before_ne h

theorem symbols_keepRules (keep : Symbol → Bool) (g : Grammar) :
    (g.keepRules keep).symbols = g.symbols.filter keep := by
  simp only [symbols, OrderedMap.keys, keepRules, OrderedMap.filter, List.filter_map]
  rfl

theorem alternatives_keepRules_sublist (keep : Symbol → Bool) (g : Grammar) :
    (g.keepRules keep).alternatives.Sublist g.alternatives := by
  have hrules : (g.keepRules keep).ruleList.Sublist g.ruleList :=
    List.filter_sublist.map Prod.snd
  exact hrules.flatMap Rule.alternatives

theorem numRules_mapAlternatives (f : List Production → List Production) (g : Grammar) :
    (g.mapAlternatives f).numRules = g.numRules :=
  List.length_map _

theorem alternatives_mapAlternatives (f : List Production → List Production) (g : Grammar) :
    (g.mapAlternatives f).alternatives = g.ruleList.flatMap fun r => f r.alternatives := by
  simp only [alternatives, ruleList, OrderedMap.values, mapAlternatives, mapRules,
    OrderedMap.mapValues, List.map_map, List.flatMap_map, Function.comp_apply]

/-- Changing alternatives one by one leaves as many as there were. -/
theorem numAlternatives_mapAlternatives_map (f : Production → Production) (g : Grammar) :
    (g.mapAlternatives fun ps => ps.map f).numAlternatives = g.numAlternatives := by
  unfold numAlternatives
  rw [alternatives_mapAlternatives, ← List.map_flatMap, List.length_map]
  rfl

/-- The alternatives, symbol by symbol. -/
theorem alternatives_eq_flatMap_symbols (g : Grammar) :
    g.alternatives = g.symbols.flatMap g.alternativesOf := by
  have hentry : ∀ entry ∈ g.rules.entries,
      g.alternativesOf entry.1 = entry.2.alternatives := fun entry hmem =>
    alternativesOf_eq (mem_entries_iff.mp hmem)
  unfold alternatives ruleList symbols OrderedMap.values OrderedMap.keys
  rw [List.flatMap_map, List.flatMap_map]
  exact (List.flatMap_congr hentry).symm

/-! ## Counting the rules that are lost -/

/-- `s` has a rule in `g` and none in `g'`. -/
def Loses (g g' : Grammar) (s : Symbol) : Prop := g.hasRule s = true ∧ g'.hasRule s = false

/-- The symbols whose rules are lost, in order. -/
def lostSymbols (g g' : Grammar) : List Symbol := g.symbols.filter fun s => !g'.hasRule s

theorem mem_lostSymbols_iff {s : Symbol} : s ∈ g.lostSymbols g' ↔ g.Loses g' s := by
  unfold lostSymbols Loses
  rw [List.mem_filter, mem_symbols_iff, Bool.not_eq_true']

/-- An ordered list of the symbols that lose their rules is the list of all of them. -/
theorem lostSymbols_eq {symbols : List Symbol}
    (hsorted : symbols.Pairwise fun a b => Ordered.before a b = true)
    (h : ∀ s, g.Loses g' s ↔ s ∈ symbols) : g.lostSymbols g' = symbols := by
  refine Ordered.eq_of_sorted (g.rules.keys_sorted.filter _) hsorted fun s => ?_
  exact mem_lostSymbols_iff.trans (h s)

/-- **The rules that are left and the rules that are lost are all rules.** -/
theorem numRules_eq_add_lost (h : ∀ s, g'.hasRule s = true → g.hasRule s = true) :
    g.numRules = g'.numRules + (g.lostSymbols g').length := by
  have hleft : g'.symbols = g.symbols.filter g'.hasRule := by
    refine Ordered.eq_of_sorted g'.rules.keys_sorted (g.rules.keys_sorted.filter _) fun s => ?_
    rw [List.mem_filter, mem_symbols_iff, mem_symbols_iff]
    exact (and_iff_right_of_imp (h s)).symm
  rw [numRules_eq_length_symbols, numRules_eq_length_symbols, hleft]
  exact List.length_eq_length_filter_add _

/-- Only the inlined symbol loses its rule. -/
theorem loses_inlined_iff {s symbol : Symbol} {p : Production} :
    g.Loses (g.inlined symbol p) s ↔ g.hasRule s = true ∧ s = symbol := by
  unfold Loses
  rw [Bool.eq_false_iff, ne_eq, hasRule_inlined, not_and]
  refine and_congr_right fun hs => ⟨fun h => ?_, fun h _ hne => hne h⟩
  exact Decidable.not_not.mp (h hs)

theorem numRules_inlined {symbol : Symbol} {p : Production} (h : g.hasRule symbol = true) :
    g.numRules = (g.inlined symbol p).numRules + 1 := by
  have hlost : g.lostSymbols (g.inlined symbol p) = [symbol] := by
    refine lostSymbols_eq (List.pairwise_singleton _ _) fun s => ?_
    rw [loses_inlined_iff, List.mem_singleton]
    exact and_iff_right_of_imp fun hs => hs ▸ h
  rw [numRules_eq_add_lost fun s hs => (hasRule_inlined.mp hs).1, hlost]
  rfl

theorem Inlines.numRules_eq {symbols : List Symbol} {n : Nat} (h : g.Inlines symbols g' n) :
    g.numRules = g'.numRules + n := by
  induction h with
  | nil g => rfl
  | skip _ _ ih => exact ih
  | take _ hsingle _ ih =>
      rw [numRules_inlined (hasRule_of_mem hsingle.mem), ih, Nat.add_assoc]

/-- Every renamed symbol had a rule, which is gone. -/
theorem Sound.numRules_renamed (hg : g.Sound) :
    g.numRules = (g.renamed g.twinNames).numRules + g.twinNames.size := by
  have hlost : g.lostSymbols (g.renamed g.twinNames) = g.twinNames.keys := by
    refine lostSymbols_eq g.twinNames.keys_sorted fun s => ?_
    unfold Loses
    rw [Bool.eq_false_iff, ne_eq, hasRule_renamed, OrderedMap.mem_keys_iff]
    cases hname : g.twinNames.get? s with
    | none => simp [OrderedMap.hasKey, hname]
    | some s' => simp [OrderedMap.hasKey, hname, (hg.twinNames_rules hname).1]
  rw [numRules_eq_add_lost fun s hs => (hasRule_renamed.mp hs).1, hlost]
  exact congrArg _ (List.length_map _)

/-! ## What each change costs -/

theorem size_restricted (g : Grammar) :
    g.restricted.size + (g.numRules - g.restricted.numRules) ≤ g.size := by
  have hrules : g.restricted.numRules ≤ g.numRules := List.length_filter_le _ _
  have halts : g.restricted.numAlternatives ≤ g.numAlternatives :=
    (alternatives_keepRules_sublist _ g).length_le
  unfold size
  omega

theorem size_dropSilentLoops (g : Grammar) :
    g.dropSilentLoops.grammar.size + g.dropSilentLoops.count = g.size := by
  have hrules : g.dropSilentLoops.grammar.numRules = g.numRules := numRules_mapAlternatives _ g
  have hkept : g.dropSilentLoops.grammar.alternatives =
      g.alternatives.filter fun p => !isSilentLoop p := by
    unfold dropSilentLoops alternatives
    rw [List.filter_flatMap]
    exact alternatives_mapAlternatives _ g
  have hcount : g.dropSilentLoops.count = (g.alternatives.filter isSilentLoop).length :=
    List.countP_eq_length_filter
  have hall := List.length_eq_length_filter_add (l := g.alternatives) isSilentLoop
  unfold size numAlternatives
  rw [hrules, hkept, hcount]
  omega

theorem size_inlined {symbol target : Symbol} {p : Production} (h : g.Single symbol p target) :
    (g.inlined symbol p).size + 1 ≤ g.size := by
  -- the rule of the symbol is gone, and what is spliced stays one alternative
  have hrules : g.numRules = (g.inlined symbol p).numRules + 1 :=
    numRules_inlined (hasRule_of_mem h.mem)
  have halts : (g.inlined symbol p).numAlternatives ≤ g.numAlternatives := by
    unfold inlined
    rw [numAlternatives_mapAlternatives_map]
    exact (alternatives_keepRules_sublist _ g).length_le
  unfold size
  omega

theorem size_dropRepeats (g : Grammar) :
    g.dropRepeats.grammar.size + g.dropRepeats.count ≤ g.size := by
  have hrules : g.dropRepeats.grammar.numRules = g.numRules := numRules_mapAlternatives _ g
  have hkept : g.dropRepeats.grammar.alternatives.Sublist g.alternatives := by
    unfold dropRepeats
    rw [alternatives_mapAlternatives]
    exact List.Sublist.flatMap_right _ fun r _ => distinct_sublist r.alternatives
  have halts : g.dropRepeats.grammar.numAlternatives ≤ g.numAlternatives := hkept.length_le
  have hcount : g.dropRepeats.count = g.numAlternatives - g.dropRepeats.grammar.numAlternatives :=
    rfl
  unfold size
  omega

theorem Sound.size_renamed (hg : g.Sound) :
    (g.renamed g.twinNames).size + g.twinNames.size ≤ g.size := by
  have hrules := hg.numRules_renamed
  have halts : (g.renamed g.twinNames).numAlternatives ≤ g.numAlternatives := by
    unfold Grammar.renamed
    rw [numAlternatives_mapAlternatives_map]
    exact (alternatives_keepRules_sublist _ g).length_le
  unfold size
  omega

theorem Inlines.size_add_le {symbols : List Symbol} {n : Nat} (h : g.Inlines symbols g' n) :
    g'.size + n ≤ g.size := by
  induction h with
  | nil g => exact Nat.le_refl _
  | skip _ _ ih => exact ih
  | take _ hsingle _ ih =>
      have hcost := size_inlined hsingle
      omega

/-! ## Sequences of reductions -/

/-- Without silent steps there is nothing to fold. -/
theorem NoSilentSteps.folded_eq (h : g.NoSilentSteps) : g.folded = g := by
  refine mapRules_eq_self fun s r hr => ?_
  have hmoves : ¬g.movesSilently r = true := by
    intro hmoves
    obtain ⟨p, hp, hstep⟩ := List.any_eq_true.mp hmoves
    rw [h p (mem_alternatives_iff.mpr ⟨s, mem_alternativesOf_iff.mpr ⟨r, hr, hp⟩⟩)] at hstep
    exact absurd hstep (by simp)
  unfold foldRule
  rw [if_neg hmoves]

theorem NoSilentSteps.countP_eq_zero (h : g.NoSilentSteps) :
    g.alternatives.countP g.isSilentStep = 0 := by
  rw [List.countP_eq_zero]
  intro p hp
  rw [h p hp]
  exact Bool.false_ne_true

/-- **Every counted change costs a rule or an alternative**, unless silent steps are folded. -/
theorem Sound.size_apply (hg : g.Sound) {r : Reduction} {c : Change}
    (h : r = .foldSilent → g.NoSilentSteps) (hc : r.apply g = .ok c) :
    c.grammar.size + c.count ≤ g.size := by
  cases r with
  | dropUnused =>
      obtain rfl := Except.ok.inj (hc.symm.trans hg.dropUnused_eq_ok)
      exact g.size_restricted
  | foldSilent =>
      obtain rfl := Except.ok.inj (hc.symm.trans hg.foldSilent_eq_ok)
      simp only [(h rfl).folded_eq, (h rfl).countP_eq_zero]
      exact Nat.le_refl _
  | dropSilentLoops =>
      obtain rfl := Except.ok.inj hc
      exact Nat.le_of_eq g.size_dropSilentLoops
  | inlineSingles =>
      obtain ⟨c', hc', hinlines⟩ := hg.exists_inlines g.symbols
      obtain rfl := Except.ok.inj (hc.symm.trans hc')
      exact hinlines.size_add_le
  | dropRepeats =>
      obtain rfl := Except.ok.inj hc
      exact g.size_dropRepeats
  | mergeTwins =>
      obtain rfl := Except.ok.inj (hc.symm.trans hg.mergeTwins_eq_ok)
      exact hg.size_renamed

theorem Leads.size_add_sum_le {rs : List Reduction} {ns : List Nat} (h : Leads rs g ns g')
    (hg : g.Sound) (hsilent : g.NoSilentSteps) : g'.size + ns.sum ≤ g.size := by
  induction h with
  | nil g => exact Nat.le_refl _
  | cons hc _ ih =>
      have hcost := hg.size_apply (fun _ => hsilent) hc
      have hsteps := hg.steps_of_apply hc
      have hrest := ih (hsteps.sound hg) (hsteps.noSilentSteps hg hsilent)
      rw [List.sum_cons]
      omega

/-! ## How much folding can add -/

/-- Different symbols together offer at most all alternatives. -/
theorem length_flatMap_soundAlternatives_le {symbols : List Symbol} (hnodup : symbols.Nodup)
    (hsub : symbols ⊆ g.symbols) :
    (symbols.flatMap g.soundAlternatives).length ≤ g.numAlternatives := by
  obtain ⟨symbols', hperm, hsublist⟩ := List.subperm_of_subset hnodup hsub
  calc (symbols.flatMap g.soundAlternatives).length
      = (symbols'.flatMap g.soundAlternatives).length :=
        (hperm.flatMap_right _).length_eq.symm
    _ ≤ (g.symbols.flatMap g.soundAlternatives).length :=
        (hsublist.flatMap _).length_le
    _ ≤ (g.symbols.flatMap g.alternativesOf).length :=
        (List.Sublist.flatMap_right _ fun _ _ => List.filter_sublist).length_le
    _ = g.numAlternatives := by
        rw [← alternatives_eq_flatMap_symbols]
        rfl

/-- A folded rule has at most one copy of every alternative there is. -/
theorem length_foldRule_le {s : Symbol} {r : Rule} (hr : g.rule? s = some r) :
    (g.foldRule s r).alternatives.length ≤ g.numAlternatives := by
  have hs : s ∈ g.symbols := mem_symbols_iff.mpr (hasRule_iff.mpr ⟨r, hr⟩)
  unfold foldRule
  by_cases hmoves : g.movesSilently r = true
  · -- the rule itself and the rules that it reaches are different rules
    have hnodup : (s :: g.silentlyReached s).Nodup := by
      refine List.nodup_cons.mpr ⟨fun hmem => ?_, (g.nodup_symbols.filter _).filter _⟩
      exact (mem_silentlyReached_iff.mp hmem).1 rfl
    have hsub : s :: g.silentlyReached s ⊆ g.symbols := by
      intro t ht
      rcases List.mem_cons.mp ht with rfl | hmem
      · exact hs
      · exact List.mem_of_mem_filter (List.mem_of_mem_filter hmem)
    have hlength := length_flatMap_soundAlternatives_le hnodup hsub
    rw [if_pos hmoves]
    rw [List.flatMap_cons, List.length_append] at hlength
    unfold soundAlternatives at hlength
    rw [alternativesOf_eq hr] at hlength
    rw [List.length_append, List.length_map]
    exact hlength
  · rw [if_neg hmoves]
    unfold numAlternatives
    rw [alternatives_eq_flatMap_symbols, ← alternativesOf_eq hr]
    have hone := ((List.singleton_sublist.mpr hs).flatMap g.alternativesOf).length_le
    rwa [List.flatMap_singleton] at hone

/-- **Folding leaves at most one copy of every alternative in every rule.** -/
theorem numAlternatives_folded_le (g : Grammar) :
    g.folded.numAlternatives ≤ g.numRules * g.numAlternatives := by
  have hlength : g.folded.numAlternatives =
      (g.rules.entries.map fun entry => (g.foldRule entry.1 entry.2).alternatives.length).sum := by
    unfold numAlternatives alternatives
    rw [List.length_flatMap]
    simp only [ruleList, OrderedMap.values, folded, mapRules, OrderedMap.mapValues, List.map_map,
      Function.comp_def]
  rw [hlength]
  have hbound := List.sum_le_card_nsmul
    (g.rules.entries.map fun entry => (g.foldRule entry.1 entry.2).alternatives.length)
    g.numAlternatives (by
      intro n hn
      obtain ⟨entry, hmem, rfl⟩ := List.mem_map.mp hn
      exact length_foldRule_le (mem_entries_iff.mp hmem))
  rw [List.length_map] at hbound
  exact hbound

end Grammar

end ScenarioFsp
