import ScenarioFsp.Proofs.Grammar.Reducts
import ScenarioFsp.Proofs.Grammar.Twins

/-!
# Merging twins

Of every group of twins one survives, and the ends that named another member name
the survivor instead. The survivors keep their names, so the renaming is settled
after one step, and `Init` is among them.

If the twins agree, a run of the merged grammar is a run of the old one in which
every symbol was replaced by its stand-in. The old grammar follows it because a
rule copies the alternatives of its stand-in, and is followed by it because the
stand-in copies the alternatives of the rule.
-/

namespace ScenarioFsp

namespace Grammar

/-- Two rules of one shape. -/
structure Twins (g : Grammar) (r r' : Rule) : Prop where
  left : r ∈ g.ruleList
  right : r' ∈ g.ruleList
  apart : r.symbol ≠ r'.symbol
  alike : shape r = shape r'

variable {g : Grammar}

/-! ## Groups -/

/-- The symbols of the rules of one shape. -/
def twinGroup (g : Grammar) (key : List (List Symbol)) : List Symbol :=
  ((g.ruleList.map fun r => (shape r, r.symbol)).filter fun p => decide (p.1 = key)).map Prod.snd

theorem mem_twinGroup_iff {key : List (List Symbol)} {s : Symbol} :
    s ∈ g.twinGroup key ↔ ∃ r ∈ g.ruleList, shape r = key ∧ r.symbol = s := by
  simp only [twinGroup, List.mem_map, List.mem_filter, decide_eq_true_eq]
  refine ⟨fun h => ?_, fun h => ?_⟩
  · obtain ⟨p, ⟨⟨r, hr, rfl⟩, hkey⟩, hs⟩ := h
    exact ⟨r, hr, hkey, hs⟩
  · obtain ⟨r, hr, hkey, hs⟩ := h
    exact ⟨(shape r, r.symbol), ⟨⟨r, hr, rfl⟩, hkey⟩, hs⟩

theorem exists_of_mem_twinGroups {group : List Symbol} (h : group ∈ g.twinGroups) :
    ∃ key, group = g.twinGroup key := by
  unfold twinGroups at h
  obtain ⟨key, -, hgroup⟩ := List.mem_map.mp h
  exact ⟨key, hgroup.symm⟩

theorem survivor_mem {group : List Symbol} (h : group ≠ []) : survivor group ∈ group := by
  unfold survivor
  by_cases hstart : start ∈ group
  · rw [if_pos hstart]
    exact hstart
  · rw [if_neg hstart]
    cases group with
    | nil => exact absurd rfl h
    | cons s rest => exact List.mem_cons_self

theorem of_mem_renamings {group : List Symbol} {s s' : Symbol} (h : (s, s') ∈ renamings group) :
    s ∈ group ∧ s ≠ survivor group ∧ s' = survivor group := by
  unfold renamings at h
  by_cases hlen : group.length ≤ 1
  · rw [if_pos hlen] at h
    exact absurd h List.not_mem_nil
  · rw [if_neg hlen] at h
    obtain ⟨s₀, hs₀, heq⟩ := List.mem_map.mp h
    obtain ⟨hmem, hne⟩ := List.mem_filter.mp hs₀
    obtain ⟨rfl, rfl⟩ := Prod.mk.inj heq
    exact ⟨hmem, of_decide_eq_true hne, rfl⟩

/-- What a map holds after some insertions was inserted or was there before. -/
theorem get?_foldl_insert {l : List (Symbol × Symbol)} {m : OrderedMap Symbol Symbol}
    {s s' : Symbol} (h : (l.foldl (fun m p => m.insert p.1 p.2) m).get? s = some s') :
    (s, s') ∈ l ∨ m.get? s = some s' := by
  induction l generalizing m with
  | nil => exact Or.inr h
  | cons p ps ih =>
      rcases ih h with hmem | hget
      · exact Or.inl (List.mem_cons_of_mem _ hmem)
      · rw [OrderedMap.get?_insert] at hget
        by_cases hs : s = p.1
        · rw [if_pos hs] at hget
          left
          rw [hs, ← Option.some.inj hget]
          exact List.mem_cons_self
        · rw [if_neg hs] at hget
          exact Or.inr hget

/-- A renamed rule and the rule it is renamed to are twins, and the latter survives. -/
theorem twins_of_twinNames {s s' : Symbol} (h : g.twinNames.get? s = some s') :
    ∃ r r', r.symbol = s ∧ r'.symbol = s' ∧ g.Twins r r' ∧
      s' = survivor (g.twinGroup (shape r)) := by
  unfold twinNames at h
  rcases get?_foldl_insert h with hmem | hempty
  · obtain ⟨group, hgroup, hren⟩ := List.mem_flatMap.mp hmem
    obtain ⟨key, rfl⟩ := exists_of_mem_twinGroups hgroup
    obtain ⟨hs, hne, rfl⟩ := of_mem_renamings hren
    obtain ⟨r, hr, rfl, rfl⟩ := mem_twinGroup_iff.mp hs
    obtain ⟨r', hr', hshape, hr's⟩ := mem_twinGroup_iff.mp (survivor_mem (List.ne_nil_of_mem hs))
    refine ⟨r, r', rfl, hr's, ⟨hr, hr', ?_, hshape.symm⟩, rfl⟩
    rw [hr's]
    exact hne
  · exact absurd hempty (by simp [OrderedMap.get?, OrderedMap.empty])

/-- What was inserted is there afterwards, if only with the value of a later insertion. -/
theorem exists_get?_foldl_insert {l : List (Symbol × Symbol)} {m : OrderedMap Symbol Symbol}
    {s : Symbol} (h : (∃ s', (s, s') ∈ l) ∨ ∃ s', m.get? s = some s') :
    ∃ s', (l.foldl (fun m p => m.insert p.1 p.2) m).get? s = some s' := by
  induction l generalizing m with
  | nil => exact h.resolve_left fun hmem => absurd hmem.choose_spec List.not_mem_nil
  | cons p ps ih =>
      refine ih ?_
      simp only [OrderedMap.get?_insert]
      by_cases hs : s = p.1
      · exact Or.inr ⟨p.2, if_pos hs⟩
      · simp only [if_neg hs]
        refine h.imp_left fun hmem => ?_
        obtain ⟨s', hs'⟩ := hmem
        rcases List.mem_cons.mp hs' with rfl | hps
        · exact absurd rfl hs
        · exact ⟨s', hps⟩

/-- A group of several members renames one of them. -/
theorem exists_mem_renamings {group : List Symbol} {s s' : Symbol} (hs : s ∈ group)
    (hs' : s' ∈ group) (hne : s ≠ s') : ∃ t, (t, survivor group) ∈ renamings group := by
  have hlen : ¬group.length ≤ 1 := by
    intro hlen
    match group with
    | [] => exact absurd hs List.not_mem_nil
    | [t] => exact hne ((List.mem_singleton.mp hs).trans (List.mem_singleton.mp hs').symm)
    | t :: u :: rest => exact absurd hlen (by simp)
  have hother : ∃ t ∈ group, t ≠ survivor group := by
    by_cases h : s = survivor group
    · exact ⟨s', hs', h ▸ Ne.symm hne⟩
    · exact ⟨s, hs, h⟩
  obtain ⟨t, ht, hts⟩ := hother
  refine ⟨t, ?_⟩
  unfold renamings
  rw [if_neg hlen]
  exact List.mem_map.mpr ⟨t, List.mem_filter.mpr ⟨ht, decide_eq_true hts⟩, rfl⟩

/-- Of two twins one is renamed, or both are. -/
theorem Twins.exists_twinNames {r r' : Rule} (h : g.Twins r r') :
    ∃ s s', g.twinNames.get? s = some s' := by
  have hgroup : g.twinGroup (shape r) ∈ g.twinGroups := by
    unfold twinGroups
    refine List.mem_map.mpr ⟨shape r, OrderedSet.mem_def.mp (OrderedSet.mem_ofList.mpr ?_), rfl⟩
    exact List.mem_map.mpr ⟨_, List.mem_map.mpr ⟨r, h.left, rfl⟩, rfl⟩
  have hr : r.symbol ∈ g.twinGroup (shape r) := mem_twinGroup_iff.mpr ⟨r, h.left, rfl, rfl⟩
  have hr' : r'.symbol ∈ g.twinGroup (shape r) :=
    mem_twinGroup_iff.mpr ⟨r', h.right, h.alike.symm, rfl⟩
  obtain ⟨s, hs⟩ := exists_mem_renamings hr hr' h.apart
  exact ⟨s, exists_get?_foldl_insert (Or.inl ⟨_, List.mem_flatMap.mpr ⟨_, hgroup, hs⟩⟩)⟩

/-! ## Renamings that can be followed -/

/-- Every renamed rule has the alternatives of the rule that stands for it; that rule keeps its
name, and so does `Init`. -/
structure Follows (g : Grammar) (names : OrderedMap Symbol Symbol) : Prop where
  copies : ∀ s s', names.get? s = some s' → g.Copies s s' ∧ g.Copies s' s
  known : ∀ s s', names.get? s = some s' → g.hasRule s' = true
  settled : ∀ s s', names.get? s = some s' → names.get? s' = none
  start : names.get? start = none

/-- The symbol that stands for `s`. -/
def standIn (names : OrderedMap Symbol Symbol) (s : Symbol) : Symbol := (names.get? s).getD s

variable {names : OrderedMap Symbol Symbol}

theorem standIn_of_none {s : Symbol} (h : names.get? s = none) : standIn names s = s := by
  simp [standIn, h]

theorem standIn_of_some {s s' : Symbol} (h : names.get? s = some s') : standIn names s = s' := by
  simp [standIn, h]

/-- A renamed symbol and the one that stands for it both have a rule. -/
theorem Sound.twinNames_rules (hg : g.Sound) {s s' : Symbol} (h : g.twinNames.get? s = some s') :
    g.hasRule s = true ∧ g.hasRule s' = true := by
  obtain ⟨r, r', rfl, rfl, htwins, -⟩ := twins_of_twinNames h
  exact ⟨hg.hasRule_symbol htwins.left, hg.hasRule_symbol htwins.right⟩

/-- A symbol that stands for another keeps its name. -/
theorem Sound.twinNames_settled (hg : g.Sound) {s s' : Symbol}
    (h : g.twinNames.get? s = some s') : g.twinNames.get? s' = none := by
  obtain ⟨r, r', -, hr', htwins, hsurvivor⟩ := twins_of_twinNames h
  cases hnext : g.twinNames.get? s' with
  | none => rfl
  | some s'' =>
      -- a survivor renamed to the survivor of its own group
      obtain ⟨q, q', hq, hq', hqtwins, hqsurvivor⟩ := twins_of_twinNames hnext
      have hqr : some q = some r' := by
        rw [← hg.mem_ruleList_iff.mp hqtwins.left, ← hg.mem_ruleList_iff.mp htwins.right, hq, hr']
      obtain rfl := Option.some.inj hqr
      rw [← htwins.alike, ← hsurvivor, ← hq, ← hq'] at hqsurvivor
      exact absurd hqsurvivor.symm hqtwins.apart

/-- `Init` keeps its name. -/
theorem twinNames_start (g : Grammar) : g.twinNames.get? start = none := by
  cases hnext : g.twinNames.get? start with
  | none => rfl
  | some s' =>
      obtain ⟨r, r', hr, hr', htwins, hsurvivor⟩ := twins_of_twinNames hnext
      -- a group that holds `Init` keeps it
      have hmem : start ∈ g.twinGroup (shape r) :=
        mem_twinGroup_iff.mpr ⟨r, htwins.left, rfl, hr⟩
      rw [survivor, if_pos hmem] at hsurvivor
      exact absurd (hr.trans (hsurvivor.symm.trans hr'.symm)) htwins.apart

/-- The names given to twins can be followed, if all twins agree. -/
theorem Sound.follows_twinNames (hg : g.Sound) (h : ∀ r r', g.Twins r r' → r.Agrees r') :
    g.Follows g.twinNames := by
  refine ⟨?_, fun _ _ hs => (hg.twinNames_rules hs).2, fun _ _ hs => hg.twinNames_settled hs,
    g.twinNames_start⟩
  intro s s' hs
  obtain ⟨r, r', rfl, rfl, htwins, -⟩ := twins_of_twinNames hs
  have hr := hg.mem_ruleList_iff.mp htwins.left
  have hr' := hg.mem_ruleList_iff.mp htwins.right
  have hag := h r r' htwins
  exact ⟨copies_of_agrees hr hr' hag, copies_of_agrees hr' hr hag.symm⟩

/-! ## Renamed alternatives -/

theorem actions_renameEnd (names : OrderedMap Symbol Symbol) (p : Production) :
    (renameEnd names p).actions = p.actions := by
  unfold renameEnd
  cases p.last?.bind names.get? with
  | none => rfl
  | some s => exact Production.actions_endingAt s p

theorem visible_renameEnd (names : OrderedMap Symbol Symbol) (p : Production) :
    (renameEnd names p).visible = p.visible := by
  unfold Production.visible
  rw [actions_renameEnd]

theorem last?_renameEnd (names : OrderedMap Symbol Symbol) (p : Production) :
    (renameEnd names p).last? = p.last?.map (standIn names) := by
  unfold renameEnd
  cases hl : p.last? with
  | none => simp [hl]
  | some e =>
      simp only [Option.bind_some, Option.map_some]
      cases hget : names.get? e with
      | none => rw [standIn_of_none hget, hl]
      | some e' => rw [standIn_of_some hget, Production.last?_endingAt]

/-- The start of an alternative is not touched, even if it is its only symbol. -/
theorem first?_renameEnd {p : Production} {s : Symbol} (hs : names.get? s = none)
    (h : p.first? = some s) : (renameEnd names p).first? = some s := by
  unfold renameEnd
  by_cases ht : p.tail = []
  · rw [Production.last?_eq_of_tail_nil h ht, Option.bind_some, hs]
    exact h
  · cases p.last?.bind names.get? with
    | none => exact h
    | some e => exact (Production.first?_endingAt ht e).trans h

theorem mem_symbols_renameEnd {p : Production} {x : Symbol}
    (h : x ∈ (renameEnd names p).symbols) : x ∈ p.symbols ∨ ∃ s, names.get? s = some x := by
  unfold renameEnd at h
  cases hl : p.last? with
  | none =>
      rw [hl] at h
      exact Or.inl h
  | some e =>
      rw [hl, Option.bind_some] at h
      cases hget : names.get? e with
      | none =>
          rw [hget] at h
          exact Or.inl h
      | some e' =>
          rw [hget] at h
          rcases List.mem_append.mp h with hx | hx
          · exact Or.inl ((List.dropLast_sublist _).subset hx)
          · rw [List.mem_singleton.mp hx]
            exact Or.inr ⟨e, hget⟩

/-- The renamed rules are gone, and no other. -/
theorem hasRule_renamed {s : Symbol} :
    (g.renamed names).hasRule s = true ↔ g.hasRule s = true ∧ names.get? s = none := by
  unfold renamed
  rw [hasRule_mapAlternatives, hasRule_keepRules, Bool.and_eq_true]
  refine and_congr_right fun _ => ?_
  cases hs : names.get? s with
  | none => simp [OrderedMap.hasKey, hs]
  | some s' => simp [OrderedMap.hasKey, hs]

theorem mem_alternativesOf_renamed_iff {s : Symbol} {p' : Production} :
    p' ∈ (g.renamed names).alternativesOf s ↔
      names.get? s = none ∧ ∃ p ∈ g.alternativesOf s, renameEnd names p = p' := by
  unfold renamed
  rw [alternativesOf_mapAlternatives rfl, alternativesOf_keepRules]
  cases hs : names.get? s with
  | none => simp [OrderedMap.hasKey, hs]
  | some s' => simp [OrderedMap.hasKey, hs]

theorem Sound.renamed (hg : g.Sound) (names : OrderedMap Symbol Symbol) :
    (g.renamed names).Sound := by
  refine (hg.keepRules _).mapAlternatives fun s p' hp' => ?_
  have hmem : p' ∈ (g.renamed names).alternativesOf s := by
    unfold Grammar.renamed
    rw [alternativesOf_mapAlternatives rfl]
    exact hp'
  obtain ⟨hs, p, hp, rfl⟩ := mem_alternativesOf_renamed_iff.mp hmem
  exact first?_renameEnd hs (hg.first? hp)

/-- Renaming brings in no names if the new ones are those of rules. -/
theorem renamed_within (hknown : ∀ s s', names.get? s = some s' → g.hasRule s' = true) :
    (g.renamed names).Within g := by
  have hold : ∀ p' ∈ (g.renamed names).alternatives,
      ∃ p ∈ g.alternatives, renameEnd names p = p' := by
    intro p' hp'
    obtain ⟨s, hs⟩ := mem_alternatives_iff.mp hp'
    obtain ⟨-, p, hp, heq⟩ := mem_alternativesOf_renamed_iff.mp hs
    exact ⟨p, mem_alternatives_iff.mpr ⟨s, hp⟩, heq⟩
  refine ⟨?_, ?_, ?_⟩
  · exact fun s hs => (hasRule_renamed.mp hs).1
  · intro p' hp' a ha
    obtain ⟨p, hp, rfl⟩ := hold p' hp'
    rw [actions_renameEnd] at ha
    exact ⟨p, hp, ha⟩
  · intro p' hp' x hx
    obtain ⟨p, hp, rfl⟩ := hold p' hp'
    rcases mem_symbols_renameEnd hx with hxp | ⟨s, hget⟩
    · exact Or.inr ⟨p, hp, hxp⟩
    · exact Or.inl (hknown s x hget)

/-! ## Runs -/

/-- The stand-in of a symbol does whatever the symbol does, and comes to the stand-in of its end. -/
theorem Follows.run_renamed (h : g.Follows names) {s e : Symbol} {w : Trace}
    (hrun : g.Run s w e) : (g.renamed names).Run (standIn names s) w (standIn names e) := by
  have hstep : ∀ a a' m p, a' = standIn names a → p ∈ g.alternativesOf a → p.last? = some m →
      ∃ m', (g.renamed names).Run a' p.visible m' ∧ m' = standIn names m := by
    intro a a' m p ha hp hl
    subst ha
    refine ⟨_, ?_, rfl⟩
    cases hget : names.get? a with
    | none =>
        rw [standIn_of_none hget, ← visible_renameEnd names p]
        refine Run.single (mem_alternativesOf_renamed_iff.mpr ⟨hget, p, hp, rfl⟩) ?_
        rw [last?_renameEnd, hl, Option.map_some]
    | some a' =>
        obtain ⟨q, hq, hmirror⟩ := (h.copies a a' hget).1 p hp
        have hsettled := h.settled a a' hget
        rw [standIn_of_some hget, ← hmirror.visible_eq, ← visible_renameEnd names q]
        refine Run.single (mem_alternativesOf_renamed_iff.mpr ⟨hsettled, q, hq, rfl⟩) ?_
        rw [last?_renameEnd]
        rcases hmirror.2 with hlast | ⟨hown, hown'⟩
        · rw [hlast, hl, Option.map_some]
        · -- back at the renamed rule, and so at its stand-in
          rw [hl] at hown
          rw [hown', Option.some.inj hown, Option.map_some, standIn_of_none hsettled,
            standIn_of_some hget]
  obtain ⟨e', hrun', rfl⟩ := Run.simulate (R := fun a a' => a' = standIn names a) hstep rfl hrun
  exact hrun'

/-- A symbol does whatever its stand-in does, and comes to an end for which that of the stand-in
stands. -/
theorem Follows.run_of_run_renamed (h : g.Follows names) {s e : Symbol} {w : Trace}
    (hrun : (g.renamed names).Run (standIn names s) w e) :
    ∃ e', g.Run s w e' ∧ e = standIn names e' := by
  have hstep : ∀ a b m p', a = standIn names b → p' ∈ (g.renamed names).alternativesOf a →
      p'.last? = some m → ∃ m', g.Run b p'.visible m' ∧ m = standIn names m' := by
    intro a b m p' ha hp' hl
    obtain ⟨hget, p, hp, rfl⟩ := mem_alternativesOf_renamed_iff.mp hp'
    rw [last?_renameEnd] at hl
    obtain ⟨n, hn, hnm⟩ := Option.map_eq_some_iff.mp hl
    rw [visible_renameEnd]
    cases hb : names.get? b with
    | none =>
        rw [standIn_of_none hb] at ha
        subst ha
        exact ⟨n, Run.single hp hn, hnm.symm⟩
    | some b' =>
        -- `b` lost its rule to `a`, whose alternatives it has a copy of
        rw [standIn_of_some hb] at ha
        subst ha
        obtain ⟨q, hq, hmirror⟩ := (h.copies b a hb).2 p hp
        rw [← hmirror.visible_eq]
        rcases hmirror.2 with hlast | ⟨hown, hown'⟩
        · exact ⟨n, Run.single hq (hlast.trans hn), hnm.symm⟩
        · refine ⟨b, Run.single hq hown', ?_⟩
          rw [hn] at hown
          rw [← hnm, Option.some.inj hown, standIn_of_none hget, standIn_of_some hb]
  exact Run.simulate (R := fun a b => a = standIn names b) hstep rfl hrun

theorem Sound.renamed_isReductOf (hg : g.Sound) (h : g.Follows names) :
    (g.renamed names).IsReductOf g := by
  refine ⟨hg.renamed names, renamed_within h.known, fun t => ⟨?_, ?_⟩⟩
  · intro ho
    refine ho.of_runs fun w e hrun => ?_
    rw [← standIn_of_none h.start] at hrun
    obtain ⟨e', hrun', -⟩ := h.run_of_run_renamed hrun
    exact ⟨w, e', hrun', List.prefix_rfl⟩
  · intro ho
    refine ho.of_runs fun w e hrun => ?_
    have hrun' := h.run_renamed hrun
    rw [standIn_of_none h.start] at hrun'
    exact ⟨w, _, hrun', List.prefix_rfl⟩

/-! ## Merging -/

theorem Sound.mergeTwins_eq_ok (hg : g.Sound) :
    g.mergeTwins = .ok ⟨g.renamed g.twinNames, g.twinNames.size⟩ := by
  unfold mergeTwins
  rw [hg.needSymbols_alternatives]
  rfl

/-- **Merging keeps what can be observed, if all twins agree.** -/
theorem Sound.exists_mergeTwins (hg : g.Sound) (h : ∀ r r', g.Twins r r' → r.Agrees r') :
    ∃ c, g.mergeTwins = .ok c ∧ c.grammar.IsReductOf g :=
  ⟨_, hg.mergeTwins_eq_ok, hg.renamed_isReductOf (hg.follows_twinNames h)⟩

/-! ## When it is safe to merge -/

/-- The grammar of two rules and nothing else. -/
def pairOf (r r' : Rule) : Grammar :=
  ((⟨.empty⟩ : Grammar).store r.symbol r).store r'.symbol r'

theorem rule?_pairOf (r r' : Rule) (s : Symbol) :
    (pairOf r r').rule? s =
      if s = r'.symbol then some r' else if s = r.symbol then some r else none := by
  unfold pairOf
  rw [rule?_store, rule?_store]
  rfl

/-- Twins are rules of a grammar that has no others. -/
theorem Sound.pairOf_sound (hg : g.Sound) {r r' : Rule} (h : g.Twins r r') :
    (pairOf r r').Sound ∧ r ∈ (pairOf r r').ruleList ∧ r' ∈ (pairOf r r').ruleList := by
  have hrule : ∀ s q, (pairOf r r').rule? s = some q → g.rule? s = some q := by
    intro s q hq
    rw [rule?_pairOf] at hq
    by_cases hr' : s = r'.symbol
    · rw [if_pos hr'] at hq
      rw [hr', ← Option.some.inj hq]
      exact hg.mem_ruleList_iff.mp h.right
    · rw [if_neg hr'] at hq
      by_cases hr : s = r.symbol
      · rw [if_pos hr] at hq
        rw [hr, ← Option.some.inj hq]
        exact hg.mem_ruleList_iff.mp h.left
      · rw [if_neg hr] at hq
        exact absurd hq (by simp)
  refine ⟨⟨fun s q hq => hg.keyed s q (hrule s q hq),
    fun s q p hq hp => hg.placed s q p (hrule s q hq) hp⟩, ?_, ?_⟩
  · refine Grammar.mem_ruleList_iff.mpr ⟨r.symbol, ?_⟩
    rw [rule?_pairOf, if_neg h.apart, if_pos rfl]
  · refine Grammar.mem_ruleList_iff.mpr ⟨r'.symbol, ?_⟩
    rw [rule?_pairOf, if_pos rfl]

/-- With nothing but the two rules, the second never comes to perform the first one's symbol. -/
theorem Sound.not_mem_of_run_pairOf (hg : g.Sound) {r r' : Rule} (h : g.Twins r r')
    (hself : r.symbol ≠ selfReference) {s e : Symbol} {w : Trace} (hs : s ≠ r.symbol)
    (hrun : (pairOf r r').Run s w e) : r.symbol ∉ w := by
  induction hrun with
  | stop s => exact List.not_mem_nil
  | @step s m e p w hp hl _ ih =>
      obtain ⟨q, hq, hpq⟩ := mem_alternativesOf_iff.mp hp
      rw [rule?_pairOf, if_neg hs] at hq
      by_cases hs' : s = r'.symbol
      · rw [if_pos hs'] at hq
        obtain rfl := Option.some.inj hq
        -- the shape of the first rule hides its symbol, so the second has it nowhere
        have htail : r.symbol ∉ p.tail :=
          not_mem_tail_of_shape_eq h.alike h.apart hself hpq
        have hend : m ≠ r.symbol := by
          intro hm
          have hfirst : p.first? = some s := (hg.pairOf_sound h).1.first? hp
          have hne : p.tail ≠ [] := Production.tail_ne_nil hfirst hl (hm ▸ Ne.symm hs)
          rw [Production.last?_eq_getLast?_tail hne, hm] at hl
          exact htail (List.mem_of_getLast? hl)
        intro hmem
        rcases List.mem_append.mp hmem with hp' | hw
        · have hact : r.symbol ∈ p.actions := (List.mem_filter.mp hp').1
          exact htail (Production.mem_tail_of_mem_actions hact)
        · exact ih hend hw
      · rw [if_neg hs'] at hq
        exact absurd hq (by simp)

/-- A rule that performs its own symbol is told apart from its twin, if nothing else is there. -/
theorem Sound.exists_told_apart (hg : g.Sound) {r r' : Rule} (h : g.Twins r r')
    (hself : r.symbol ≠ selfReference) (htau : r.symbol ≠ Symbol.tau) (hown : r.PerformsItself) :
    ∃ t, (pairOf r r').Observes r.symbol t ∧ ¬(pairOf r r').Observes r'.symbol t := by
  obtain ⟨hsound, hr, -⟩ := hg.pairOf_sound h
  obtain ⟨p, hp, hact⟩ := hown
  have hrule := hsound.mem_ruleList_iff.mp hr
  have hmem : p ∈ (pairOf r r').alternativesOf r.symbol := by
    rw [alternativesOf_eq hrule]
    exact hp
  obtain ⟨e, hl⟩ := hsound.exists_last? hmem
  refine ⟨p.visible, ⟨p.visible, e, Run.single hmem hl, List.prefix_rfl⟩, ?_⟩
  intro ho
  obtain ⟨w, e', hrun, hpre⟩ := ho
  have hseen : r.symbol ∈ p.visible := List.mem_filter.mpr ⟨hact, decide_eq_true htau⟩
  exact hg.not_mem_of_run_pairOf h hself (Ne.symm h.apart) hrun (hpre.subset hseen)

/-- Whatever other rules there are, the two have the same traces. -/
def Exchangeable (r r' : Rule) : Prop :=
  ∀ h : Grammar, h.check = .ok () → r ∈ h.ruleList → r' ∈ h.ruleList →
    ∀ n t, t ∈ h.tracesOf r.symbol n ↔ t ∈ h.tracesOf r'.symbol n

theorem exchangeable_of_agrees {r r' : Rule} (h : r.Agrees r') : Exchangeable r r' := by
  intro g hg hr hr' n t
  have hsound := check_eq_ok_iff.mp hg
  rw [hsound.mem_tracesOf_iff, hsound.mem_tracesOf_iff,
    observes_iff_of_agrees (hsound.mem_ruleList_iff.mp hr) (hsound.mem_ruleList_iff.mp hr') h]

theorem Exchangeable.symm {r r' : Rule} (h : Exchangeable r r') : Exchangeable r' r :=
  fun g hg hr hr' n t => (h g hg hr' hr n t).symm

theorem Twins.symm {r r' : Rule} (h : g.Twins r r') : g.Twins r' r :=
  ⟨h.right, h.left, Ne.symm h.apart, h.alike.symm⟩

theorem Sound.not_performsItself_of_exchangeable (hg : g.Sound) {r r' : Rule}
    (h : g.Twins r r') (hself : r.symbol ≠ selfReference) (htau : r.symbol ≠ Symbol.tau)
    (hex : Exchangeable r r') : ¬r.PerformsItself := by
  intro hown
  obtain ⟨t, ht, hnot⟩ := hg.exists_told_apart h hself htau hown
  obtain ⟨hsound, hr, hr'⟩ := hg.pairOf_sound h
  have hiff := hex _ (check_eq_ok_iff.mpr hsound) hr hr' t.length t
  rw [hsound.mem_tracesOf_iff, hsound.mem_tracesOf_iff] at hiff
  exact hnot (hiff.mp ⟨Nat.le_refl _, ht⟩).2

/--
**Twins are exchangeable exactly if neither of them performs its own symbol**,
and a grammar all of whose twins are of this kind can be merged. Twins that use
`<self>` as a name are left aside, and so are rules called `_tau` in the first
part, because nobody sees them perform themselves.
-/
theorem exchangeable_iff_and_mergeTwins_sound {g : Grammar} (hg : g.check = .ok ()) :
    (∀ r r', g.Twins r r' → r.AvoidsSelf → r'.AvoidsSelf →
      r.symbol ≠ Symbol.tau → r'.symbol ≠ Symbol.tau →
        (Exchangeable r r' ↔ ¬r.PerformsItself ∧ ¬r'.PerformsItself)) ∧
    ((∀ r r', g.Twins r r' → r.AvoidsSelf ∧ ¬r.PerformsItself) →
      (∀ r r', g.Twins r r' → Exchangeable r r') ∧
      ∃ c, g.mergeTwins = .ok c ∧
        ∀ n, c.grammar.observableTraces n = .ok (g.traces n) ∧
          g.observableTraces n = .ok (g.traces n)) := by
  have hsound := check_eq_ok_iff.mp hg
  have hagree : ∀ r r', g.Twins r r' → r.AvoidsSelf → r'.AvoidsSelf →
      (r.Agrees r' ↔ ¬r.PerformsItself ∧ ¬r'.PerformsItself) := fun r r' h hself hself' =>
    hsound.agrees_iff h.left h.right h.apart h.alike hself hself'
  refine ⟨fun r r' h hself hself' htau htau' => ⟨fun hex => ⟨?_, ?_⟩, fun hown => ?_⟩,
    fun hplain => ?_⟩
  · exact hsound.not_performsItself_of_exchangeable h hself.1 htau hex
  · exact hsound.not_performsItself_of_exchangeable h.symm hself'.1 htau' hex.symm
  · exact exchangeable_of_agrees ((hagree r r' h hself hself').mpr hown)
  · have hall : ∀ r r', g.Twins r r' → r.Agrees r' := by
      intro r r' h
      obtain ⟨hself, hown⟩ := hplain r r' h
      obtain ⟨hself', hown'⟩ := hplain r' r h.symm
      exact (hagree r r' h hself hself').mpr ⟨hown, hown'⟩
    refine ⟨fun r r' h => exchangeable_of_agrees (hall r r' h), ?_⟩
    obtain ⟨c, hc, hred⟩ := hsound.exists_mergeTwins hall
    refine ⟨c, hc, fun n => ?_⟩
    rw [hred.observableTraces_eq hsound n, hsound.observableTraces_eq_ok n]
    exact ⟨rfl, rfl⟩

/-- `Init` calls two rules after different actions; each performs one action and ends. -/
def twoCalls (x y : Symbol) : Grammar :=
  (pairOf ⟨"C_X", [⟨["C_X", x, "Final"]⟩]⟩ ⟨"C_Y", [⟨["C_Y", y, "Final"]⟩]⟩).store "Init"
    ⟨"Init", [⟨["Init", "a", "C_X"]⟩, ⟨["Init", "b", "C_Y"]⟩]⟩

theorem mergeTwins_sound_twoCalls :
    (twoCalls "c" "c").check = .ok () ∧
      Exchangeable ⟨"C_X", [⟨["C_X", "c", "Final"]⟩]⟩ ⟨"C_Y", [⟨["C_Y", "c", "Final"]⟩]⟩ ∧
      ∃ c, (twoCalls "c" "c").mergeTwins = .ok c ∧ c.count = 1 ∧
        ∀ n, c.grammar.observableTraces n = .ok ((twoCalls "c" "c").traces n) := by
  have hcheck : (twoCalls "c" "c").check = .ok () := rfl
  have hplain : ∀ r ∈ (twoCalls "c" "c").ruleList, r.AvoidsSelf ∧ ¬r.PerformsItself := by decide
  obtain ⟨hex, c, hc, htraces⟩ :=
    (exchangeable_iff_and_mergeTwins_sound hcheck).2 fun r r' h => hplain r h.left
  refine ⟨hcheck, hex _ _ ⟨by decide, by decide, by decide, by decide⟩, c, hc, ?_,
    fun n => (htraces n).1⟩
  have hone : (twoCalls "c" "c").mergeTwins.map Change.count = .ok 1 := rfl
  rw [hc] at hone
  exact Except.ok.inj hone

/-- Two rules that each perform their own symbol are twins, but what was called after `b` performs
another action after they were merged. -/
theorem mergeTwins_changes_twoCalls :
    (twoCalls "C_X" "C_Y").check = .ok () ∧
      (twoCalls "C_X" "C_Y").Twins ⟨"C_X", [⟨["C_X", "C_X", "Final"]⟩]⟩
        ⟨"C_Y", [⟨["C_Y", "C_Y", "Final"]⟩]⟩ ∧
      ["C_X"] ∈ (twoCalls "C_X" "C_Y").tracesOf "C_X" 1 ∧
      ["C_X"] ∉ (twoCalls "C_X" "C_Y").tracesOf "C_Y" 1 ∧
      ∃ c, (twoCalls "C_X" "C_Y").mergeTwins = .ok c ∧
        ["b", "C_Y"] ∈ (twoCalls "C_X" "C_Y").traces 2 ∧ ["b", "C_Y"] ∉ c.grammar.traces 2 ∧
        ["b", "C_X"] ∉ (twoCalls "C_X" "C_Y").traces 2 ∧ ["b", "C_X"] ∈ c.grammar.traces 2 := by
  refine ⟨rfl, ⟨by decide, by decide, by decide, by decide⟩, by decide +kernel,
    by decide +kernel, _, rfl, ?_⟩
  decide +kernel

end Grammar

end ScenarioFsp
