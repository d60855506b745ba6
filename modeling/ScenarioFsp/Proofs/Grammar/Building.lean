import ScenarioFsp.Proofs.Grammar.Soundness

/-!
# Building a grammar from productions

Productions are grouped by their start, one rule for each start, and the rules
are added one after the other. Since no start has two rules and every rule is
well placed, nothing can fail. What is still missing are rules for the symbols in
which some production ends; they get empty ones, which offer no alternative.

So the grammar of a list of productions offers at each symbol exactly the
productions of the list that start there.
-/

namespace ScenarioFsp

/-! ## Grouping -/

/-- The rule of `s` among the grouped productions. -/
def ruleOf (ps : List Production) (s : Symbol) : Rule :=
  ⟨s, distinct (ps.filter fun p => decide (p.first? = some s))⟩

theorem mem_ruleOf_iff {ps : List Production} {s : Symbol} {p : Production} :
    p ∈ (ruleOf ps s).alternatives ↔ p ∈ ps ∧ p.first? = some s := by
  unfold ruleOf
  rw [mem_distinct, List.mem_filter, decide_eq_true_eq]

/-- Where no production starts, there is nothing to offer. -/
theorem ruleOf_eq_none {ps : List Production} {s : Symbol} (h : ¬∃ p ∈ ps, p.first? = some s) :
    ruleOf ps s = Rule.none s := by
  refine Rule.ext rfl (List.eq_nil_iff_forall_not_mem.mpr fun p hp => ?_)
  obtain ⟨hps, hs⟩ := mem_ruleOf_iff.mp hp
  exact h ⟨p, hps, hs⟩

theorem mem_groupByStart_iff {ps : List Production} {r : Rule} :
    r ∈ groupByStart ps ↔ (∃ p ∈ ps, p.first? = some r.symbol) ∧ r = ruleOf ps r.symbol := by
  unfold groupByStart
  simp only [List.mem_map, ← OrderedSet.mem_def, OrderedSet.mem_ofList, List.mem_filterMap]
  refine ⟨fun h => ?_, fun h => ?_⟩
  · obtain ⟨s, hs, rfl⟩ := h
    exact ⟨hs, rfl⟩
  · obtain ⟨hs, hrule⟩ := h
    exact ⟨r.symbol, hs, hrule.symm⟩

/-- No start has two rules. -/
theorem nodup_groupByStart (ps : List Production) :
    ((groupByStart ps).map Rule.symbol).Nodup := by
  unfold groupByStart
  rw [List.map_map]
  have hid : Rule.symbol ∘ ruleOf ps = id := rfl
  show (List.map (Rule.symbol ∘ ruleOf ps) _).Nodup
  rw [hid, List.map_id]
  exact (OrderedSet.ofList _).sorted.imp fun h => Ordered.before_ne h

theorem check_groupByStart {ps : List Production} {r : Rule} (h : r ∈ groupByStart ps) :
    r.check = .ok () := by
  rw [Rule.check_eq_ok_iff]
  intro p hp
  rw [(mem_groupByStart_iff.mp h).2] at hp
  exact (mem_ruleOf_iff.mp hp).2

namespace Grammar

/-! ## Adding rules -/

/-- A rule stored under a new symbol is found there, and nothing else changes. -/
theorem rule?_store_eq_some_iff {g : Grammar} {r₀ r : Rule} {s : Symbol}
    (hnew : g.rule? r₀.symbol = none) :
    (g.store r₀.symbol r₀).rule? s = some r ↔
      (r = r₀ ∧ r.symbol = s) ∨ g.rule? s = some r := by
  rw [rule?_store]
  by_cases hs : s = r₀.symbol
  · rw [if_pos hs, hs, hnew]
    refine ⟨fun h => ?_, fun h => ?_⟩
    · have heq := Option.some.inj h
      exact Or.inl ⟨heq.symm, by rw [heq]⟩
    · rcases h with ⟨heq, -⟩ | hnone
      · rw [heq]
      · exact absurd hnone (by simp)
  · rw [if_neg hs]
    refine ⟨Or.inr, fun h => h.resolve_left ?_⟩
    intro hstored
    obtain ⟨rfl, heq⟩ := hstored
    exact hs heq.symm

/-- Rules of new and different symbols are added as they are. -/
theorem exists_addRules {rs : List Rule} {g : Grammar} (hnodup : (rs.map Rule.symbol).Nodup)
    (hnew : ∀ r ∈ rs, g.rule? r.symbol = none) (hcheck : ∀ r ∈ rs, r.check = .ok ()) :
    ∃ g', addRules g rs = .ok g' ∧
      ∀ s r, g'.rule? s = some r ↔ (r ∈ rs ∧ r.symbol = s) ∨ g.rule? s = some r := by
  induction rs generalizing g with
  | nil => exact ⟨g, rfl, fun s r => by simp⟩
  | cons r₀ rs ih =>
      rw [List.map_cons, List.nodup_cons] at hnodup
      obtain ⟨hfresh, hnodup⟩ := hnodup
      have hnew₀ := hnew r₀ List.mem_cons_self
      have hadd : g.addRule r₀ = .ok (g.store r₀.symbol r₀) := by
        unfold addRule
        rw [hnew₀, hcheck r₀ List.mem_cons_self]
        rfl
      -- the rules still to be added stay new, because their symbols are different
      have hstill : ∀ r ∈ rs, (g.store r₀.symbol r₀).rule? r.symbol = none := by
        intro r hr
        have hne : r.symbol ≠ r₀.symbol := fun heq => hfresh (List.mem_map.mpr ⟨r, hr, heq⟩)
        rw [rule?_store, if_neg hne]
        exact hnew r (List.mem_cons_of_mem _ hr)
      obtain ⟨g', hg', hrules⟩ :=
        ih hnodup hstill fun r hr => hcheck r (List.mem_cons_of_mem _ hr)
      refine ⟨g', ?_, fun s r => ?_⟩
      · unfold addRules
        rw [hadd]
        exact hg'
      · rw [hrules, rule?_store_eq_some_iff hnew₀, List.mem_cons, or_and_right, or_assoc]
        exact or_left_comm

/-! ## Empty rules for what is missing -/

theorem rule?_foldl_store_none (symbols : List Symbol) (g : Grammar) (s : Symbol) :
    (symbols.foldl (fun g symbol => g.store symbol (Rule.none symbol)) g).rule? s =
      if s ∈ symbols then some (Rule.none s) else g.rule? s := by
  induction symbols generalizing g with
  | nil => rfl
  | cons symbol symbols ih =>
      rw [List.foldl_cons, ih, rule?_store]
      by_cases hs : s ∈ symbols
      · rw [if_pos hs, if_pos (List.mem_cons_of_mem _ hs)]
      · rw [if_neg hs]
        by_cases heq : s = symbol
        · subst heq
          rw [if_pos rfl, if_pos List.mem_cons_self]
        · rw [if_neg heq, if_neg fun hmem => (List.mem_cons.mp hmem).elim heq hs]

/-- Only symbols without a rule get an empty one. -/
theorem rule?_complete (g : Grammar) (s : Symbol) :
    g.complete.rule? s =
      if s ∈ g.undefinedSymbols.toList then some (Rule.none s) else g.rule? s :=
  rule?_foldl_store_none _ _ _

/-- A rule is missing for `Init` or for an end other than `Final`, if there is none. -/
theorem mem_undefinedSymbols_iff {g : Grammar} {s : Symbol} :
    s ∈ g.undefinedSymbols.toList ↔
      (s = start ∨ ∃ p ∈ g.alternatives, p.last? = some s) ∧ s ≠ Symbol.final ∧
        g.hasRule s = false := by
  rw [← OrderedSet.mem_def, undefinedSymbols, OrderedSet.mem_filter, OrderedSet.mem_ofList,
    List.mem_cons, List.mem_filterMap, Bool.and_eq_true, decide_eq_true_eq, Bool.not_eq_true']

theorem alternativesOf_complete (g : Grammar) (s : Symbol) :
    g.complete.alternativesOf s = g.alternativesOf s := by
  unfold alternativesOf
  rw [rule?_complete]
  by_cases hs : s ∈ g.undefinedSymbols.toList
  · have hnone : g.rule? s = none := by
      have hrule := (mem_undefinedSymbols_iff.mp hs).2.2
      cases hget : g.rule? s with
      | none => rfl
      | some r =>
          rw [hasRule_iff.mpr ⟨r, hget⟩] at hrule
          exact absurd hrule (by simp)
    rw [if_pos hs, hnone]
    rfl
  · rw [if_neg hs]

theorem hasRule_complete_iff {g : Grammar} {s : Symbol} :
    g.complete.hasRule s = true ↔ s ∈ g.undefinedSymbols.toList ∨ g.hasRule s = true := by
  rw [hasRule_iff, rule?_complete]
  by_cases hs : s ∈ g.undefinedSymbols.toList
  · simp only [hs, true_or, iff_true]
    exact ⟨_, rfl⟩
  · rw [if_neg hs, or_iff_right hs, hasRule_iff]

/-- **A completed grammar has all the rules it needs**: one for `Init`, and one for every end other
than `Final`. -/
theorem hasRule_complete {g : Grammar} {s : Symbol} (hs : s ≠ Symbol.final)
    (h : s = start ∨ ∃ p ∈ g.complete.alternatives, p.last? = some s) :
    g.complete.hasRule s = true := by
  have hneeded : s = start ∨ ∃ p ∈ g.alternatives, p.last? = some s := by
    refine h.imp_right fun hend => ?_
    obtain ⟨p, hp, hl⟩ := hend
    obtain ⟨symbol, hps⟩ := mem_alternatives_iff.mp hp
    rw [alternativesOf_complete] at hps
    exact ⟨p, mem_alternatives_iff.mpr ⟨symbol, hps⟩, hl⟩
  cases hrule : g.hasRule s with
  | true => exact hasRule_complete_iff.mpr (Or.inr hrule)
  | false =>
      exact hasRule_complete_iff.mpr (Or.inl (mem_undefinedSymbols_iff.mpr ⟨hneeded, hs, hrule⟩))

theorem Sound.complete {g : Grammar} (hg : g.Sound) : g.complete.Sound := by
  have hcases : ∀ key r, g.complete.rule? key = some r →
      r = Rule.none key ∨ g.rule? key = some r := by
    intro key r hr
    rw [rule?_complete] at hr
    by_cases hkey : key ∈ g.undefinedSymbols.toList
    · rw [if_pos hkey] at hr
      exact Or.inl (Option.some.inj hr).symm
    · rw [if_neg hkey] at hr
      exact Or.inr hr
  refine ⟨?_, ?_⟩
  · intro key r hr
    rcases hcases key r hr with rfl | hr
    · rfl
    · exact hg.keyed key r hr
  · intro key r p hr hp
    rcases hcases key r hr with rfl | hr
    · exact absurd hp List.not_mem_nil
    · exact hg.placed key r p hr hp

/-! ## The grammar of a list of productions -/

/-- The rules of `g` are the grouped productions. -/
def Groups (g : Grammar) (ps : List Production) : Prop :=
  ∀ s r, g.rule? s = some r ↔ r ∈ groupByStart ps ∧ r.symbol = s

theorem exists_addRules_groupByStart (ps : List Production) :
    ∃ g, addRules ⟨.empty⟩ (groupByStart ps) = .ok g ∧ g.Groups ps := by
  obtain ⟨g, hg, hrules⟩ := exists_addRules (g := ⟨.empty⟩) (nodup_groupByStart ps)
    (fun _ _ => rfl) fun r hr => check_groupByStart hr
  refine ⟨g, hg, fun s r => ?_⟩
  rw [hrules]
  exact or_iff_left (by simp [rule?, OrderedMap.get?, OrderedMap.empty])

variable {g : Grammar} {ps : List Production}

theorem Groups.sound (h : g.Groups ps) : g.Sound := by
  refine ⟨?_, ?_⟩
  · intro key r hr
    exact ((h key r).mp hr).2
  · intro key r p hr hp
    obtain ⟨hmem, rfl⟩ := (h key r).mp hr
    exact Rule.check_eq_ok_iff.mp (check_groupByStart hmem) p hp

theorem Groups.hasRule_iff (h : g.Groups ps) {s : Symbol} :
    g.hasRule s = true ↔ ∃ p ∈ ps, p.first? = some s := by
  simp only [Grammar.hasRule_iff, h s, mem_groupByStart_iff]
  refine ⟨fun hrule => ?_, fun hstart => ?_⟩
  · obtain ⟨r, ⟨hstart, -⟩, rfl⟩ := hrule
    exact hstart
  · exact ⟨ruleOf ps s, ⟨hstart, rfl⟩, rfl⟩

/-- At each symbol the productions are offered that start there, if there are any. -/
theorem Groups.alternativesOf_eq (h : g.Groups ps) (s : Symbol) :
    g.alternativesOf s = (ruleOf ps s).alternatives := by
  cases hrule : g.rule? s with
  | some r =>
      obtain ⟨hmem, rfl⟩ := (h s r).mp hrule
      rw [Grammar.alternativesOf_eq hrule, ← (mem_groupByStart_iff.mp hmem).2]
  | none =>
      have hnone : ¬∃ p ∈ ps, p.first? = some s := by
        rw [← h.hasRule_iff, Grammar.hasRule_iff, hrule]
        simp
      unfold alternativesOf
      rw [hrule, ruleOf_eq_none hnone]
      rfl

/-- **A list of productions always makes a sound grammar**, which offers at each symbol the
productions that start there. -/
theorem exists_ofRules_groupByStart (ps : List Production) :
    ∃ g, ofRules (groupByStart ps) = .ok g ∧ g.Sound ∧
      ∀ s p, p ∈ g.alternativesOf s ↔ p ∈ ps ∧ p.first? = some s := by
  obtain ⟨g, hg, hgroups⟩ := exists_addRules_groupByStart ps
  refine ⟨g.complete, ?_, hgroups.sound.complete, fun s p => ?_⟩
  · unfold ofRules
    rw [hg]
    rfl
  · rw [alternativesOf_complete, hgroups.alternativesOf_eq, mem_ruleOf_iff]

end Grammar

end ScenarioFsp
