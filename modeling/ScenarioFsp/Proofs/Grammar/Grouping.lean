import Mathlib.Data.List.Induction
import ScenarioFsp.Proofs.Grammar.Building
import ScenarioFsp.Proofs.History

/-!
# Grouping loses nothing

Productions can be filed one after the other: each under its start, in the rule that is
there or in a new one, unless that rule has it. At any time the rules are those of the
productions filed so far (`Filed`), so in the end they are the groups (`groupInTurn_eq_ok`).
No production can be misplaced, because it is filed under its own start.

Of the grammar that is made of the groups it can be said which rules it has and what they
offer. A symbol in which productions only end has an empty rule, but `Final` has none,
unless a production starts there.
-/

namespace ScenarioFsp

/-! ## One production after the other -/

/-- Files a production under its start, in a new rule if there is none. -/
def fileByStart (rules : OrderedMap Symbol Rule) (p : Production) :
    Except Failure (OrderedMap Symbol Rule) :=
  match p.first? with
  | none => .error (.fault .noFirst)
  | some s => (((rules.get? s).getD (Rule.none s)).add p).map (rules.insert s)

/-- Files productions one after the other, and lists the rules in the order of their symbols. -/
def groupInTurn (ps : List Production) : Except Failure (List Rule) :=
  (ps.foldlM fileByStart .empty).map OrderedMap.values

/-- The rules are those of the productions that are `done`. -/
structure Filed (done : List Production) (rules : OrderedMap Symbol Rule) : Prop where
  known : ∀ s, rules.hasKey s = true ↔ ∃ p ∈ done, p.first? = some s
  filed : ∀ s r, rules.get? s = some r → r = ruleOf done s

variable {done ps : List Production} {rules : OrderedMap Symbol Rule} {p : Production} {s : Symbol}

/-- A production with symbols has a start. -/
theorem exists_first?_of_ne_nil (h : p.symbols ≠ []) : ∃ s, p.first? = some s :=
  Option.isSome_iff_exists.mp (List.isSome_head?.mpr h)

theorem ruleOf_concat (hs : p.first? = some s) :
    ruleOf (done ++ [p]) s = { ruleOf done s with
      alternatives := addOnce p (ruleOf done s).alternatives } := by
  have hkept : [p].filter (fun p => decide (p.first? = some s)) = [p] :=
    List.filter_cons_of_pos (decide_eq_true hs)
  unfold ruleOf
  rw [List.filter_append, hkept, distinct_concat]

theorem ruleOf_concat_of_ne {t : Symbol} (hs : p.first? = some s) (hts : t ≠ s) :
    ruleOf (done ++ [p]) t = ruleOf done t := by
  have hdropped : [p].filter (fun p => decide (p.first? = some t)) = [] := by
    simp [hs, Ne.symm hts]
  unfold ruleOf
  rw [List.filter_append, hdropped, List.append_nil]

/-- Where there is no rule yet, a new one is what it should be. -/
theorem Filed.getD_eq (h : Filed done rules) (s : Symbol) :
    (rules.get? s).getD (Rule.none s) = ruleOf done s := by
  cases hrule : rules.get? s with
  | some r => exact h.filed s r hrule
  | none =>
      have hnone : ¬∃ p ∈ done, p.first? = some s := by
        rw [← h.known, OrderedMap.hasKey, hrule]
        simp
      rw [ruleOf_eq_none hnone]
      rfl

/-- The rule to which a production is added is that of its start, so it is not refused. -/
theorem Filed.fileByStart_eq_ok (h : Filed done rules) (hs : p.first? = some s) :
    fileByStart rules p = .ok (rules.insert s (ruleOf (done ++ [p]) s)) := by
  have hadd : (ruleOf done s).add p = .ok (ruleOf (done ++ [p]) s) := by
    unfold Rule.add
    rw [hs]
    show (if s = s then _ else _) = _
    rw [if_pos rfl, ruleOf_concat hs]
  unfold fileByStart
  rw [hs]
  show (((rules.get? s).getD (Rule.none s)).add p).map (rules.insert s) = _
  rw [h.getD_eq, hadd]
  rfl

theorem Filed.insert (h : Filed done rules) (hs : p.first? = some s) :
    Filed (done ++ [p]) (rules.insert s (ruleOf (done ++ [p]) s)) := by
  refine ⟨fun t => ?_, fun t r hr => ?_⟩
  · have hlast : (∃ q ∈ done ++ [p], q.first? = some t) ↔
        (∃ q ∈ done, q.first? = some t) ∨ s = t := by
      simp only [List.mem_append, List.mem_singleton, or_and_right, exists_or, exists_eq_left, hs,
        Option.some.injEq]
    rw [hlast, ← h.known, OrderedMap.hasKey, OrderedMap.get?_insert, OrderedMap.hasKey]
    by_cases hts : t = s
    · simp [hts]
    · simp [hts, Ne.symm hts]
  · rw [OrderedMap.get?_insert] at hr
    by_cases hts : t = s
    · subst hts
      rw [if_pos rfl] at hr
      exact (Option.some.inj hr).symm
    · rw [if_neg hts] at hr
      rw [ruleOf_concat_of_ne hs hts]
      exact h.filed t r hr

/-- Any number of productions are filed, if each of them has a start. -/
theorem Filed.exists_foldlM (h : Filed done rules) (hps : ∀ p ∈ ps, p.symbols ≠ []) :
    ∃ rules', ps.foldlM fileByStart rules = .ok rules' ∧ Filed (done ++ ps) rules' := by
  induction ps generalizing done rules with
  | nil => exact ⟨rules, rfl, (List.append_nil done).symm ▸ h⟩
  | cons p ps ih =>
      obtain ⟨s, hs⟩ := exists_first?_of_ne_nil (hps p List.mem_cons_self)
      obtain ⟨rules', hrest, hfiled⟩ :=
        ih (h.insert hs) fun q hq => hps q (List.mem_cons_of_mem p hq)
      refine ⟨rules', ?_, ?_⟩
      · rw [List.foldlM_cons, h.fileByStart_eq_ok hs]
        exact hrest
      · rw [List.append_cons]
        exact hfiled

theorem Filed.values_eq (h : Filed ps rules) : rules.values = groupByStart ps := by
  have hkeys : rules.keys = (OrderedSet.ofList (ps.filterMap Production.first?)).toList := by
    refine Ordered.eq_of_sorted rules.keys_sorted (OrderedSet.ofList _).sorted fun s => ?_
    rw [OrderedMap.mem_keys_iff, h.known, ← OrderedSet.mem_def, OrderedSet.mem_ofList,
      List.mem_filterMap]
  have hvalues : rules.values = rules.keys.map (ruleOf ps) := by
    unfold OrderedMap.values OrderedMap.keys
    rw [List.map_map]
    exact List.map_congr_left fun entry hmem =>
      h.filed entry.1 entry.2 (OrderedMap.get?_eq_some_iff.mpr hmem)
  rw [hvalues, hkeys]
  rfl

/-- **Filing productions in turn never fails, and makes the groups.** -/
theorem groupInTurn_eq_ok (hps : ∀ p ∈ ps, p.symbols ≠ []) :
    groupInTurn ps = .ok (groupByStart ps) := by
  have hstart : Filed [] .empty := by
    refine ⟨fun s => ?_, fun s r hr => ?_⟩
    · simp [OrderedMap.hasKey, OrderedMap.get?, OrderedMap.empty]
    · exact absurd hr (by simp [OrderedMap.get?, OrderedMap.empty])
  obtain ⟨rules, hrules, hfiled⟩ := hstart.exists_foldlM hps
  rw [List.nil_append] at hfiled
  unfold groupInTurn
  rw [hrules, ← hfiled.values_eq]
  rfl

/-! ## What the grammar has -/

/-- What passes is kept where it occurs first. -/
theorem pairwise_distinct_filter {α : Type} [DecidableEq α] (keep : α → Bool) (l : List α) :
    (distinct (l.filter keep)).Pairwise (AddedBefore l) := by
  induction l using List.reverseRecOn with
  | nil => exact .nil
  | append_singleton l a ih =>
      have hsub : ∀ x ∈ distinct (l.filter keep), x ∈ l := fun x hx =>
        List.mem_of_mem_filter (mem_distinct.mp hx)
      rw [List.filter_append]
      cases hkeep : keep a with
      | true =>
          rw [List.filter_cons_of_pos hkeep, List.filter_nil, distinct_concat]
          refine pairwise_addOnce ih hsub fun hmem => ?_
          exact mem_distinct.mpr (List.mem_filter.mpr ⟨hmem, hkeep⟩)
      | false =>
          rw [List.filter_cons_of_neg (Bool.eq_false_iff.mp hkeep), List.filter_nil,
            List.append_nil]
          exact ih.imp_of_mem fun _ hy hxy => hxy.append (hsub _ hy) [a]

namespace Grammar

variable {g : Grammar}

theorem Groups.mem_alternatives_iff (h : g.Groups ps) (hps : ∀ p ∈ ps, p.symbols ≠ []) :
    p ∈ g.alternatives ↔ p ∈ ps := by
  simp only [Grammar.mem_alternatives_iff, h.alternativesOf_eq, mem_ruleOf_iff, exists_and_left]
  exact and_iff_left_of_imp fun hp => exists_first?_of_ne_nil (hps p hp)

/-- The rules that are there, and those that are missing. -/
theorem Groups.hasRule_complete_iff (h : g.Groups ps) (hps : ∀ p ∈ ps, p.symbols ≠ []) :
    g.complete.hasRule s = true ↔ s = start ∨ (∃ p ∈ ps, p.first? = some s) ∨
      (s ≠ Symbol.final ∧ ∃ p ∈ ps, p.last? = some s) := by
  have hends : (∃ p ∈ g.alternatives, p.last? = some s) ↔ ∃ p ∈ ps, p.last? = some s := by
    simp only [h.mem_alternatives_iff hps]
  rw [Grammar.hasRule_complete_iff, mem_undefinedSymbols_iff, hends, ← h.hasRule_iff]
  cases hrule : g.hasRule s with
  | true => simp
  | false =>
      simp only [Bool.false_eq_true, or_false, false_or, and_true]
      refine ⟨fun hmissing => ?_, fun hneeded => ?_⟩
      · exact hmissing.1.imp_right fun hend => ⟨hmissing.2, hend⟩
      · rcases hneeded with rfl | ⟨hfinal, hend⟩
        · exact ⟨Or.inl rfl, by decide⟩
        · exact ⟨Or.inr hend, hfinal⟩

/--
**Grouping productions and making a grammar of them loses and repeats nothing**, and never
fails. The grammar is sound. It has a rule for `Init`, for every symbol in which a
production starts, and for every other one but `Final` in which a production ends. Each rule
has exactly the productions that start there, each once and where it occurred first; so it
is empty where none starts.
-/
theorem ofRules_groupByStart_exact {ps : List Production} (hps : ∀ p ∈ ps, p.symbols ≠ []) :
    groupInTurn ps = .ok (groupByStart ps) ∧
      ∃ g, ofRules (groupByStart ps) = .ok g ∧ g.check = .ok () ∧
        (∀ s, g.hasRule s = true ↔ s = start ∨ (∃ p ∈ ps, p.first? = some s) ∨
          (s ≠ Symbol.final ∧ ∃ p ∈ ps, p.last? = some s)) ∧
        ∀ s r, g.rule? s = some r → r.symbol = s ∧
          (∀ p, p ∈ r.alternatives ↔ p ∈ ps ∧ p.first? = some s) ∧ r.alternatives.Nodup ∧
          r.alternatives.Pairwise (AddedBefore ps) ∧
          ((∀ p ∈ ps, p.first? ≠ some s) → r.isEmpty = true) := by
  obtain ⟨g, hg, hgroups⟩ := exists_addRules_groupByStart ps
  have hsound := hgroups.sound.complete
  have hmade : ofRules (groupByStart ps) = .ok g.complete := by
    unfold ofRules
    rw [hg]
    rfl
  refine ⟨groupInTurn_eq_ok hps, g.complete, hmade, check_eq_ok_iff.mpr hsound,
    fun s => hgroups.hasRule_complete_iff hps, fun s r hr => ?_⟩
  have halts : r.alternatives = (ruleOf ps s).alternatives := by
    rw [← Grammar.alternativesOf_eq hr, alternativesOf_complete, hgroups.alternativesOf_eq]
  have hmem : ∀ p, p ∈ r.alternatives ↔ p ∈ ps ∧ p.first? = some s := by
    intro p
    rw [halts, mem_ruleOf_iff]
  refine ⟨hsound.keyed s r hr, hmem, ?_, ?_, fun hnone => ?_⟩
  · rw [halts]
    exact nodup_distinct _
  · rw [halts]
    exact pairwise_distinct_filter _ ps
  · refine List.isEmpty_iff.mpr (List.eq_nil_iff_forall_not_mem.mpr fun p hp => ?_)
    obtain ⟨hmem, hs⟩ := (hmem p).mp hp
    exact hnone p hmem hs

/-- A production of one symbol, one that comes back to its start, twice, one that starts with
`Final`, and one that ends there. -/
def assorted : List Production :=
  [⟨["C_X"]⟩, ⟨["C_X", "a", "C_X"]⟩, ⟨["Final", "b", "C_Y"]⟩, ⟨["C_X", "a", "C_X"]⟩,
    ⟨["C_X", "c", "Final"]⟩]

theorem ofRules_groupByStart_exact_assorted :
    (∀ p ∈ assorted, p.symbols ≠ []) ∧ groupInTurn assorted = .ok (groupByStart assorted) ∧
      ∃ g, ofRules (groupByStart assorted) = .ok g ∧ g.check = .ok () ∧
        g.symbols = ["C_X", "C_Y", "Final", "Init"] ∧
        g.alternativesOf "C_X" =
          [⟨["C_X"]⟩, ⟨["C_X", "a", "C_X"]⟩, ⟨["C_X", "c", "Final"]⟩] ∧
        (∀ r, g.rule? "C_Y" = some r → r.isEmpty = true) ∧
        ∀ r, g.rule? start = some r → r.isEmpty = true := by
  have hps : ∀ p ∈ assorted, p.symbols ≠ [] := by decide
  obtain ⟨hturn, g, hg, hcheck, -, hrules⟩ := ofRules_groupByStart_exact hps
  have hmade : (ofRules (groupByStart assorted)).map (fun g => (g.symbols, g.alternativesOf "C_X"))
      = .ok (["C_X", "C_Y", "Final", "Init"],
        [⟨["C_X"]⟩, ⟨["C_X", "a", "C_X"]⟩, ⟨["C_X", "c", "Final"]⟩]) := by decide +kernel
  rw [hg] at hmade
  obtain ⟨hsymbols, halts⟩ := Prod.mk.inj (Except.ok.inj hmade)
  refine ⟨hps, hturn, g, hg, hcheck, hsymbols, halts, fun r hr => ?_, fun r hr => ?_⟩
  · exact (hrules _ r hr).2.2.2.2 (by decide)
  · exact (hrules _ r hr).2.2.2.2 (by decide)

end Grammar

end ScenarioFsp
