import ScenarioFsp.Proofs.Grammar.Runs

/-!
# The traces are what runs show

`traces` does not follow runs one by one: it keeps a list of the moves possible
now and passes through everything that cannot be seen by a search. It finds
exactly the observations that runs allow, up to the given length
(`Sound.mem_traces_iff`). This holds for every sound grammar, cyclic or not, and
it is the only place where the search has to be looked into: grammars with the
same observations have the same traces (`Sound.observableTraces_congr`).
-/

namespace ScenarioFsp

namespace Grammar

variable {g : Grammar}

/-! ## Moves -/

theorem Sound.mem_moves_iff (hg : g.Sound) {s : Symbol} {m : Move} :
    m ∈ g.moves s ↔ ∃ p ∈ g.alternativesOf s, p.last? = some m.target ∧ p.visible = m.actions := by
  simp only [moves, List.mem_flatMap, List.mem_filter, decide_eq_true_eq, List.mem_filterMap,
    Option.map_eq_some_iff]
  refine ⟨fun h => ?_, fun h => ?_⟩
  · obtain ⟨r, ⟨hr, rfl⟩, p, hp, stop, hl, rfl⟩ := h
    exact ⟨p, mem_alternativesOf_iff.mpr ⟨r, hg.mem_ruleList_iff.mp hr, hp⟩, hl, rfl⟩
  · obtain ⟨p, hp, hl, hv⟩ := h
    obtain ⟨r, hr, hpr⟩ := mem_alternativesOf_iff.mp hp
    refine ⟨r, ⟨Grammar.mem_ruleList_iff.mpr ⟨s, hr⟩, hg.keyed s r hr⟩, p, hpr, m.target, hl, ?_⟩
    rw [hv]

/-- `s` passes to `e` by alternatives of which nothing can be seen. -/
def PassesTo (g : Grammar) : Symbol → Symbol → Prop :=
  Relation.ReflTransGen fun s e => e ∈ g.silentSteps s

theorem Sound.mem_silentSteps_iff (hg : g.Sound) {s e : Symbol} :
    e ∈ g.silentSteps s ↔ ∃ p ∈ g.alternativesOf s, p.last? = some e ∧ p.visible = [] := by
  simp only [silentSteps, List.mem_map, List.mem_filter, List.isEmpty_iff, hg.mem_moves_iff]
  refine ⟨fun h => ?_, fun h => ?_⟩
  · obtain ⟨m, ⟨⟨p, hp, hl, hv⟩, hnil⟩, rfl⟩ := h
    exact ⟨p, hp, hl, hv.trans hnil⟩
  · obtain ⟨p, hp, hl, hv⟩ := h
    exact ⟨⟨[], e⟩, ⟨⟨p, hp, hl, hv⟩, rfl⟩, rfl⟩

theorem Sound.run_of_passesTo (hg : g.Sound) {s e : Symbol} (h : g.PassesTo s e) :
    g.Run s [] e := by
  induction h with
  | refl => exact Run.stop s
  | tail _ hstep ih =>
      obtain ⟨p, hp, hl, hv⟩ := hg.mem_silentSteps_iff.mp hstep
      have := ih.trans (Run.single hp hl)
      rwa [hv] at this

/-- The search for open moves goes through every symbol that is passed to. -/
theorem Sound.mem_openMoves_iff (hg : g.Sound) {s : Symbol} {m : Move} :
    m ∈ g.openMoves s ↔ m.actions ≠ [] ∧ ∃ q, g.PassesTo s q ∧ m ∈ g.moves q := by
  have hnode : ∀ q m', m' ∈ g.moves q → q ∈ distinct (s :: g.ruleList.map Rule.symbol) := by
    intro q m' hm
    obtain ⟨p, hp, -⟩ := hg.mem_moves_iff.mp hm
    obtain ⟨r, hr, -⟩ := mem_alternativesOf_iff.mp hp
    have hq := List.mem_map_of_mem (f := Rule.symbol) (Grammar.mem_ruleList_iff.mpr ⟨q, hr⟩)
    rw [hg.keyed q r hr] at hq
    exact mem_distinct.mpr (List.mem_cons_of_mem _ hq)
  have hreach : ∀ q, g.PassesTo s q → q ∈ distinct (s :: g.ruleList.map Rule.symbol) →
      Reaches g.silentSteps (distinct (s :: g.ruleList.map Rule.symbol)) [s] q := by
    intro q hq
    induction hq with
    | refl => exact fun hmem => .start (List.mem_singleton.mpr rfl) hmem
    | @tail b c _ hstep ih =>
        intro hmem
        -- a symbol that can be left has a rule, so the search has been there
        obtain ⟨m', hm', -⟩ := List.mem_map.mp hstep
        exact .step (ih (hnode b m' (List.mem_filter.mp hm').1)) hstep hmem
  simp only [openMoves, List.mem_filter, List.mem_flatMap, mem_reachable_iff, Bool.not_eq_true',
    List.isEmpty_eq_false_iff]
  refine ⟨fun h => ?_, fun h => ?_⟩
  · obtain ⟨⟨q, hq, hm⟩, hopen⟩ := h
    refine ⟨hopen, q, ?_, hm⟩
    clear hm
    induction hq with
    | start hmem _ =>
        rw [List.mem_singleton.mp hmem]
        exact .refl
    | step _ hstep _ ih => exact ih.tail hstep
  · obtain ⟨hopen, q, hq, hm⟩ := h
    exact ⟨⟨q, hreach q hq (hnode q m hm), hm⟩, hopen⟩

/-! ## Observations from a move -/

/-- What can be observed once a move has been chosen. -/
def Shows (g : Grammar) (m : Move) (t : Trace) : Prop :=
  ∃ w e, g.Run m.target w e ∧ t <+: m.actions ++ w

theorem shows_nil (g : Grammar) (m : Move) : g.Shows m [] :=
  ⟨[], m.target, Run.stop _, List.nil_prefix⟩

/-- A move without actions shows what can be observed at its target. -/
theorem shows_target_iff {s : Symbol} {t : Trace} : g.Shows ⟨[], s⟩ t ↔ g.Observes s t := Iff.rfl

theorem shows_cons_cons_iff {a b s : Symbol} {rest : List Symbol} {t : Trace} :
    g.Shows ⟨b :: rest, s⟩ (a :: t) ↔ a = b ∧ g.Shows ⟨rest, s⟩ t := by
  refine ⟨fun h => ?_, fun h => ?_⟩
  · obtain ⟨w, e, hrun, ht⟩ := h
    obtain ⟨hab, hrest⟩ := List.cons_prefix_cons.mp ht
    exact ⟨hab, w, e, hrun, hrest⟩
  · obtain ⟨hab, w, e, hrun, hrest⟩ := h
    exact ⟨w, e, hrun, List.cons_prefix_cons.mpr ⟨hab, hrest⟩⟩

/-- The first action of an observation belongs to an open move. -/
theorem Sound.observes_cons_iff (hg : g.Sound) {s a : Symbol} {t : Trace} :
    g.Observes s (a :: t) ↔ ∃ m ∈ g.openMoves s, g.Shows m (a :: t) := by
  refine ⟨fun h => ?_, fun h => ?_⟩
  · obtain ⟨w, e, hrun, ht⟩ := h
    induction hrun with
    | stop _ => exact absurd (List.prefix_nil.mp ht) (by simp)
    | @step s m e p w hp hl hrest ih =>
        by_cases hv : p.visible = []
        · -- nothing seen yet: the move is one of those open at the next symbol
          rw [hv, List.nil_append] at ht
          obtain ⟨m', hm', hshow⟩ := ih ht
          obtain ⟨hopen, q, hq, hmq⟩ := hg.mem_openMoves_iff.mp hm'
          have hstep : m ∈ g.silentSteps s := hg.mem_silentSteps_iff.mpr ⟨p, hp, hl, hv⟩
          exact ⟨m', hg.mem_openMoves_iff.mpr ⟨hopen, q, .head hstep hq, hmq⟩, hshow⟩
        · have hm : (⟨p.visible, m⟩ : Move) ∈ g.moves s :=
            hg.mem_moves_iff.mpr ⟨p, hp, hl, rfl⟩
          exact ⟨⟨p.visible, m⟩, hg.mem_openMoves_iff.mpr ⟨hv, s, .refl, hm⟩, w, e, hrest, ht⟩
  · obtain ⟨m, hm, w, e, hrun, ht⟩ := h
    obtain ⟨-, q, hq, hmq⟩ := hg.mem_openMoves_iff.mp hm
    obtain ⟨p, hp, hl, hv⟩ := hg.mem_moves_iff.mp hmq
    refine ⟨p.visible ++ w, e, ?_, by rw [hv]; exact ht⟩
    exact (hg.run_of_passesTo hq).trans (Run.step hp hl hrun)

theorem Sound.observes_of_shows (hg : g.Sound) {s : Symbol} {m : Move} {t : Trace}
    (hm : m ∈ g.openMoves s) (h : g.Shows m t) : g.Observes s t := by
  cases t with
  | nil => exact observes_nil g s
  | cons a t => exact hg.observes_cons_iff.mpr ⟨m, hm, h⟩

/-! ## Following all moves at once -/

/-- The moves after `a`: those open where a move ends with `a`, and what is left of the others that
begin with `a`. -/
theorem mem_advance_iff {a : Symbol} {pending : List Move} {m' : Move} :
    m' ∈ g.advance a pending ↔
      ∃ m ∈ pending, (m.actions = [a] ∧ m' ∈ g.openMoves m.target) ∨
        ∃ b rest, m.actions = a :: b :: rest ∧ m' = ⟨b :: rest, m.target⟩ := by
  unfold advance
  rw [mem_distinct, List.mem_flatMap]
  refine exists_congr fun m => and_congr_right fun _ => ?_
  obtain ⟨actions, target⟩ := m
  rcases actions with _ | ⟨b, _ | ⟨d, rest⟩⟩
  · simp
  · by_cases hb : b = a
    · simp [hb]
    · simp [hb]
  · by_cases hb : b = a
    · subst hb
      dsimp only
      rw [if_pos rfl, List.mem_singleton]
      refine ⟨fun h => Or.inr ⟨d, rest, rfl, h⟩, fun h => ?_⟩
      rcases h with ⟨hone, -⟩ | ⟨d', rest', hmore, h⟩
      · exact absurd hone (by simp)
      · cases hmore
        exact h
    · simp [hb]

theorem Sound.advance_open (hg : g.Sound) {a : Symbol} {pending : List Move} {m : Move}
    (hm : m ∈ g.advance a pending) : m.actions ≠ [] := by
  obtain ⟨m₀, -, ⟨-, hopen⟩ | ⟨b, rest, -, rfl⟩⟩ := mem_advance_iff.mp hm
  · exact (hg.mem_openMoves_iff.mp hopen).1
  · exact List.cons_ne_nil b rest

/-- After `a`, the moves possible next are those that `advance` finds. -/
theorem Sound.shows_cons_iff (hg : g.Sound) {a : Symbol} {t : Trace} {pending : List Move}
    (hopen : ∀ m ∈ pending, m.actions ≠ []) :
    (∃ m ∈ pending, g.Shows m (a :: t)) ↔
      (∃ m ∈ pending, m.actions.head? = some a) ∧
        (t = [] ∨ ∃ m ∈ g.advance a pending, g.Shows m t) := by
  refine ⟨fun h => ?_, fun h => ?_⟩
  · obtain ⟨⟨actions, target⟩, hm, hshow⟩ := h
    cases actions with
    | nil => exact absurd rfl (hopen _ hm)
    | cons b rest =>
        obtain ⟨rfl, hrest⟩ := shows_cons_cons_iff.mp hshow
        refine ⟨⟨_, hm, rfl⟩, ?_⟩
        cases t with
        | nil => exact Or.inl rfl
        | cons c t =>
            right
            cases rest with
            | nil =>
                obtain ⟨m', hm', hshow'⟩ := hg.observes_cons_iff.mp (shows_target_iff.mp hrest)
                exact ⟨m', mem_advance_iff.mpr ⟨_, hm, Or.inl ⟨rfl, hm'⟩⟩, hshow'⟩
            | cons d rest =>
                exact ⟨_, mem_advance_iff.mpr ⟨_, hm, Or.inr ⟨d, rest, rfl, rfl⟩⟩, hrest⟩
  · obtain ⟨⟨⟨actions, target⟩, hm, ha⟩, rfl | ⟨m', hm', hshow⟩⟩ := h
    · obtain ⟨rest, hrest⟩ := List.head?_eq_some_iff.mp ha
      subst hrest
      exact ⟨_, hm, shows_cons_cons_iff.mpr ⟨rfl, shows_nil g _⟩⟩
    · obtain ⟨⟨actions, target⟩, hn, ⟨hlast, hnext⟩ | ⟨b, rest, hmore, rfl⟩⟩ :=
        mem_advance_iff.mp hm'
      · subst hlast
        have hobs := hg.observes_of_shows hnext hshow
        exact ⟨_, hn, shows_cons_cons_iff.mpr ⟨rfl, shows_target_iff.mpr hobs⟩⟩
      · subst hmore
        exact ⟨_, hn, shows_cons_cons_iff.mpr ⟨rfl, hshow⟩⟩

theorem Sound.mem_tracesFrom_iff (hg : g.Sound) {n : Nat} {pending : List Move} {t : Trace}
    (hopen : ∀ m ∈ pending, m.actions ≠ []) :
    t ∈ g.tracesFrom n pending ↔ t.length ≤ n ∧ (t = [] ∨ ∃ m ∈ pending, g.Shows m t) := by
  induction n generalizing pending t with
  | zero =>
      cases t with
      | nil => simp [tracesFrom]
      | cons a t => simp [tracesFrom]
  | succ n ih =>
      cases t with
      | nil => simp [tracesFrom]
      | cons a t =>
          have hnext : a ∈ nextActions pending ↔ ∃ m ∈ pending, m.actions.head? = some a := by
            simp only [nextActions, OrderedSet.mem_ofList, List.mem_filterMap]
          have hstep : (a :: t) ∈ g.tracesFrom (n + 1) pending ↔
              a ∈ nextActions pending ∧ t ∈ g.tracesFrom n (g.advance a pending) := by
            simp only [tracesFrom, List.mem_cons, reduceCtorEq, false_or, List.mem_flatMap,
              List.mem_map, List.cons.injEq, OrderedSet.mem_def]
            refine ⟨fun h => ?_, fun h => ?_⟩
            · obtain ⟨b, hb, u, hu, rfl, rfl⟩ := h
              exact ⟨hb, hu⟩
            · obtain ⟨ha, ht⟩ := h
              exact ⟨a, ha, t, ht, rfl, rfl⟩
          rw [hstep, hnext, ih fun m hm => hg.advance_open hm, hg.shows_cons_iff hopen]
          simp only [List.length_cons, Nat.add_le_add_iff_right, reduceCtorEq, false_or]
          exact and_left_comm

/-- The traces of at most `n` actions that start at `s`. -/
def tracesOf (g : Grammar) (s : Symbol) (n : Nat) : List Trace :=
  g.tracesFrom n (g.openMoves s)

/-- The traces that start at `s` are exactly the observations of runs from `s`, up to the given
length. -/
theorem Sound.mem_tracesOf_iff (hg : g.Sound) {s : Symbol} {n : Nat} {t : Trace} :
    t ∈ g.tracesOf s n ↔ t.length ≤ n ∧ g.Observes s t := by
  unfold tracesOf
  rw [hg.mem_tracesFrom_iff fun m hm => (hg.mem_openMoves_iff.mp hm).1]
  cases t with
  | nil => simp [observes_nil]
  | cons a t => rw [hg.observes_cons_iff]; simp

theorem Sound.mem_traces_iff (hg : g.Sound) {n : Nat} {t : Trace} :
    t ∈ g.traces n ↔ t.length ≤ n ∧ g.Observes start t := by
  rw [← hg.mem_tracesOf_iff]
  exact OrderedSet.mem_ofList

theorem Sound.observableTraces_eq_ok (hg : g.Sound) (n : Nat) :
    g.observableTraces n = .ok (g.traces n) := by
  unfold observableTraces
  rw [hg.needSymbols_alternatives]
  rfl

/-- Sound grammars that allow the same observations have the same traces. -/
theorem Sound.observableTraces_congr {g' : Grammar} (hg : g.Sound) (hg' : g'.Sound)
    (h : ∀ t, g'.Observes start t ↔ g.Observes start t) (n : Nat) :
    g'.observableTraces n = g.observableTraces n := by
  rw [hg'.observableTraces_eq_ok, hg.observableTraces_eq_ok]
  refine congrArg Except.ok (OrderedSet.ext_mem fun t => ?_)
  rw [hg'.mem_traces_iff, hg.mem_traces_iff, h t]

end Grammar

end ScenarioFsp
