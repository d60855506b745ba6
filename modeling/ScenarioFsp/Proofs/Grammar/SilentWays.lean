import ScenarioFsp.Proofs.Grammar.Counts
import ScenarioFsp.Proofs.Search

/-!
# Ways of silent alternatives

Where a rule may go without being seen is found by a search of its own. The search starts
at the rule with nothing marked. It takes a symbol from the stack and goes through the
silent alternatives of its rule; an end that is new is marked and put onto the stack, and
the symbol where the search started is never marked. So no symbol is put onto the stack
twice, and the search ends on cycles too.

What has been marked and is not on the stack any more has nothing left to mark. At the end
the stack is empty, and the marked symbols are the others to which silent alternatives
lead, one or more of them in a row (`mem_silentClosure_iff`).

Main statement: `foldSilent_exact`. A rule with silent alternatives comes to hold what it
has of others, followed by copies of what the marked rules have of others; no other rule
is changed, and nothing silent is left.
-/

namespace ScenarioFsp

/-! ## Marking -/

namespace Search

variable {α : Type} [DecidableEq α] {origin : α}

/-- Marks a node and puts it onto the stack, unless it is marked or the search started there. -/
def mark (origin : α) (s : Search α) (b : α) : Search α :=
  if b ≠ origin ∧ b ∉ s.visited then ⟨b :: s.visited, b :: s.todo⟩ else s

/-- Marks nodes one after the other. -/
def markAll (origin : α) (bs : List α) (s : Search α) : Search α := bs.foldl (mark origin) s

theorem mem_visited_mark_iff {s : Search α} {b x : α} :
    x ∈ (s.mark origin b).visited ↔ x ∈ s.visited ∨ (x = b ∧ b ≠ origin) := by
  unfold mark
  by_cases hnew : b ≠ origin ∧ b ∉ s.visited
  · rw [if_pos hnew, List.mem_cons, or_comm]
    exact or_congr_right (and_iff_left hnew.1).symm
  · rw [if_neg hnew]
    refine ⟨Or.inl, fun h => ?_⟩
    rcases h with hx | ⟨rfl, hne⟩
    · exact hx
    · exact Classical.byContradiction fun hx => hnew ⟨hne, hx⟩

theorem mem_todo_mark_iff {s : Search α} {b x : α} :
    x ∈ (s.mark origin b).todo ↔ x ∈ s.todo ∨ (x = b ∧ b ≠ origin ∧ b ∉ s.visited) := by
  unfold mark
  by_cases hnew : b ≠ origin ∧ b ∉ s.visited
  · rw [if_pos hnew, List.mem_cons, or_comm]
    exact or_congr_right (and_iff_left hnew).symm
  · rw [if_neg hnew]
    exact (or_iff_left fun h => hnew h.2).symm

theorem mem_visited_markAll_iff {bs : List α} {s : Search α} {x : α} :
    x ∈ (s.markAll origin bs).visited ↔ x ∈ s.visited ∨ (x ∈ bs ∧ x ≠ origin) := by
  unfold markAll
  induction bs generalizing s with
  | nil => simp
  | cons b bs ih =>
      rw [List.foldl_cons, ih, mem_visited_mark_iff, List.mem_cons, or_and_right, or_assoc]
      refine or_congr_right (or_congr_left (and_congr_right fun hx => ?_))
      rw [hx]

theorem mem_todo_markAll_iff {bs : List α} {s : Search α} {x : α} :
    x ∈ (s.markAll origin bs).todo ↔
      x ∈ s.todo ∨ (x ∈ bs ∧ x ≠ origin ∧ x ∉ s.visited) := by
  unfold markAll
  induction bs generalizing s with
  | nil => simp
  | cons b bs ih =>
      rw [List.foldl_cons, ih, mem_todo_mark_iff, mem_visited_mark_iff, List.mem_cons]
      -- a node that was marked just now is on the stack already
      by_cases hx : x = b
      · subst hx
        by_cases hold : x = origin ∨ x ∈ s.visited
        · rcases hold with ho | hv
          · simp [ho]
          · simp [hv]
        · obtain ⟨ho, hv⟩ := not_or.mp hold
          simp [ho, hv]
      · simp [hx]

/-- How many of the nodes are not marked yet, and how many are on the stack. -/
def left (nodes : List α) (s : Search α) : Nat :=
  (nodes.filter fun a => decide (a ∉ s.visited)).length + s.todo.length

/-- To mark a node means only to put it onto the stack. -/
theorem left_mark_le {nodes : List α} {s : Search α} {b : α} (hb : b ∈ nodes) :
    (s.mark origin b).left nodes ≤ s.left nodes := by
  unfold mark
  by_cases hnew : b ≠ origin ∧ b ∉ s.visited
  · rw [if_pos hnew]
    have hfewer : ((nodes.filter fun a => decide (a ∉ s.visited)).filter fun a =>
        decide (a ≠ b)).length < (nodes.filter fun a => decide (a ∉ s.visited)).length := by
      rw [List.length_filter_lt_length_iff_exists]
      exact ⟨b, List.mem_filter.mpr ⟨hb, decide_eq_true hnew.2⟩, by simp⟩
    have hmarked : (nodes.filter fun a => decide (a ∉ b :: s.visited)) =
        (nodes.filter fun a => decide (a ∉ s.visited)).filter fun a => decide (a ≠ b) := by
      rw [List.filter_filter]
      refine List.filter_congr fun a _ => ?_
      rw [← Bool.decide_and]
      exact decide_eq_decide.mpr (by simp)
    unfold left
    rw [hmarked, List.length_cons]
    omega
  · rw [if_neg hnew]

theorem left_markAll_le {nodes bs : List α} {s : Search α} (hbs : ∀ b ∈ bs, b ∈ nodes) :
    (s.markAll origin bs).left nodes ≤ s.left nodes := by
  unfold markAll
  induction bs generalizing s with
  | nil => exact Nat.le_refl _
  | cons b bs ih =>
      rw [List.foldl_cons]
      exact Nat.le_trans (ih fun c hc => hbs c (List.mem_cons_of_mem b hc))
        (left_mark_le (hbs b List.mem_cons_self))

end Search

namespace Grammar

variable {g : Grammar} {origin s t : Symbol}

/-! ## The search -/

/-- The symbols that are marked in the end, if a search from `origin` has come this far. -/
def searchSilently (g : Grammar) (origin : Symbol) : Search Symbol → List Symbol
  | ⟨visited, []⟩ => visited
  | ⟨visited, s :: rest⟩ =>
    searchSilently g origin (Search.markAll origin (g.silentTargets s) ⟨visited, rest⟩)
termination_by search => search.left g.symbols
decreasing_by
  have hrules : ∀ t ∈ g.silentTargets s, t ∈ g.symbols := fun t ht =>
    mem_symbols_iff.mpr (hasRule_of_silentTarget ht)
  have hstep : (Search.markAll origin (g.silentTargets s) ⟨visited, rest⟩).left g.symbols ≤
      Search.left g.symbols ⟨visited, rest⟩ := Search.left_markAll_le hrules
  refine Nat.lt_of_le_of_lt hstep ?_
  unfold Search.left
  simp

/-- What a search from `origin` marks, in order. -/
def silentClosure (g : Grammar) (origin : Symbol) : OrderedSet Symbol :=
  .ofList (g.searchSilently origin ⟨[], [origin]⟩)

/-! ## Silent alternatives -/

/-- An alternative does nothing but `_tau`, once at least, and ends where a rule goes on. -/
structure Silent (g : Grammar) (p : Production) : Prop where
  acts : p.actions ≠ []
  unseen : ∀ a ∈ p.actions, a = Symbol.tau
  goesOn : ∃ e, p.last? = some e ∧ g.hasRule e = true

/-- A rule has a silent alternative that ends at `t`. -/
def MovesTo (g : Grammar) (s t : Symbol) : Prop :=
  ∃ p ∈ g.alternativesOf s, g.Silent p ∧ p.last? = some t

theorem isSilentStep_iff_silent {p : Production} : g.isSilentStep p = true ↔ g.Silent p := by
  rw [isSilentStep_eq_true_iff, Production.isSilent_iff]
  exact ⟨fun h => ⟨h.1.1, h.1.2, h.2⟩, fun h => ⟨⟨h.acts, h.unseen⟩, h.goesOn⟩⟩

instance (g : Grammar) (p : Production) : Decidable (g.Silent p) :=
  decidable_of_iff _ isSilentStep_iff_silent

theorem isSilentStep_eq_decide (g : Grammar) :
    g.isSilentStep = fun p => decide (g.Silent p) := by
  funext p
  rw [Bool.eq_iff_iff, isSilentStep_iff_silent, decide_eq_true_iff]

theorem movesTo_iff : g.MovesTo s t ↔ t ∈ g.silentTargets s := by
  rw [mem_silentTargets_iff]
  simp only [isSilentStep_iff_silent]
  rfl

/-- One or more silent alternatives lead to another symbol if any number of them do. -/
theorem transGen_movesTo_iff (hts : t ≠ s) :
    Relation.TransGen g.MovesTo s t ↔ g.SilentlyLeads s t := by
  have hsteps : g.MovesTo = fun s e => e ∈ g.silentTargets s := by
    funext s e
    exact propext movesTo_iff
  unfold SilentlyLeads
  rw [hsteps, Relation.reflTransGen_iff_eq_or_transGen]
  exact (or_iff_right hts).symm

/-! ## What a search marks -/

/-- What holds while a search goes on: only what silent alternatives lead to is marked, only what
is marked is on the stack, and what is not on the stack any more has nothing left to mark. -/
structure Searches (g : Grammar) (origin : Symbol) (search : Search Symbol) : Prop where
  visited : ∀ t ∈ search.visited, t ≠ origin ∧ Relation.TransGen g.MovesTo origin t
  todo : ∀ t ∈ search.todo, t = origin ∨ t ∈ search.visited
  done : ∀ s, s = origin ∨ s ∈ search.visited → s ∉ search.todo →
    ∀ t, g.MovesTo s t → t = origin ∨ t ∈ search.visited

theorem searches_start : g.Searches origin ⟨[], [origin]⟩ where
  visited _ ht := absurd ht List.not_mem_nil
  todo _ ht := Or.inl (List.mem_singleton.mp ht)
  done s hs htodo := by
    rcases hs with rfl | hs
    · exact absurd (List.mem_singleton.mpr rfl) htodo
    · exact absurd hs List.not_mem_nil

/-- One round: the symbol on top of the stack marks what its rule moves to. -/
theorem Searches.round {visited rest : List Symbol} (h : g.Searches origin ⟨visited, s :: rest⟩) :
    g.Searches origin (Search.markAll origin (g.silentTargets s) ⟨visited, rest⟩) := by
  -- the symbol on top of the stack was reached itself, or the search started there
  have hreached : ∀ t, g.MovesTo s t → Relation.TransGen g.MovesTo origin t := by
    intro t ht
    rcases h.todo s List.mem_cons_self with rfl | hs
    · exact .single ht
    · exact (h.visited s hs).2.tail ht
  refine ⟨fun t ht => ?_, fun t ht => ?_, fun a ha hatodo t hat => ?_⟩
  · rcases Search.mem_visited_markAll_iff.mp ht with ht | ⟨ht, hne⟩
    · exact h.visited t ht
    · exact ⟨hne, hreached t (movesTo_iff.mpr ht)⟩
  · rw [Search.mem_visited_markAll_iff]
    rcases Search.mem_todo_markAll_iff.mp ht with ht | ⟨ht, hne, -⟩
    · exact (h.todo t (List.mem_cons_of_mem s ht)).imp_right Or.inl
    · exact Or.inr (Or.inr ⟨ht, hne⟩)
  · rw [Search.mem_visited_markAll_iff] at ha ⊢
    rw [Search.mem_todo_markAll_iff, not_or] at hatodo
    by_cases has : a = s
    · subst has
      by_cases hto : t = origin
      · exact Or.inl hto
      · exact Or.inr (Or.inr ⟨movesTo_iff.mp hat, hto⟩)
    · -- what was marked in this round is on the stack, so `a` was done before
      have hold : a = origin ∨ a ∈ visited := by
        rcases ha with ha | ha | ⟨ha, hne⟩
        · exact Or.inl ha
        · exact Or.inr ha
        · refine Or.inr (Classical.byContradiction fun hnew => ?_)
          exact hatodo.2 ⟨ha, hne, hnew⟩
      have hnot : a ∉ s :: rest := fun hmem =>
        (List.mem_cons.mp hmem).elim has hatodo.1
      exact (h.done a hold hnot t hat).imp_right Or.inl

/-- With an empty stack nothing is missing. -/
theorem Searches.mem_visited_iff {visited : List Symbol} (h : g.Searches origin ⟨visited, []⟩) :
    t ∈ visited ↔ t ≠ origin ∧ Relation.TransGen g.MovesTo origin t := by
  refine ⟨h.visited t, fun ht => ?_⟩
  obtain ⟨hne, hlead⟩ := ht
  have hall : ∀ t, Relation.TransGen g.MovesTo origin t → t = origin ∨ t ∈ visited := by
    intro t hlead
    induction hlead with
    | single hstep => exact h.done origin (Or.inl rfl) List.not_mem_nil _ hstep
    | tail _ hstep ih => exact h.done _ ih List.not_mem_nil _ hstep
  exact (hall t hlead).resolve_left hne

theorem Searches.mem_searchSilently_iff {search : Search Symbol} (h : g.Searches origin search) :
    t ∈ g.searchSilently origin search ↔
      t ≠ origin ∧ Relation.TransGen g.MovesTo origin t := by
  fun_induction searchSilently g origin search with
  | case1 visited => exact h.mem_visited_iff
  | case2 visited s rest ih => exact ih h.round

/-- **A search marks exactly the other symbols to which silent alternatives lead.** -/
theorem mem_silentClosure_iff :
    t ∈ g.silentClosure s ↔ t ≠ s ∧ Relation.TransGen g.MovesTo s t := by
  unfold silentClosure
  rw [OrderedSet.mem_ofList, searches_start.mem_searchSilently_iff]

/-- Folding goes by the symbols that the search marks. -/
theorem silentlyReached_eq (g : Grammar) (s : Symbol) :
    g.silentlyReached s = (g.silentClosure s).toList := by
  have hsorted : (g.silentlyReached s).Pairwise fun a b => Ordered.before a b = true :=
    (g.rules.keys_sorted.filter _).filter _
  refine Ordered.eq_of_sorted hsorted (g.silentClosure s).sorted fun t => ?_
  rw [← OrderedSet.mem_def, mem_silentClosure_iff, mem_silentlyReached_iff]
  exact and_congr_right fun hts => (transGen_movesTo_iff hts).symm

/-! ## Folded rules -/

/-- The alternatives of a rule that are not silent. -/
def plainAlternatives (g : Grammar) (s : Symbol) : List Production :=
  (g.alternativesOf s).filter fun p => decide ¬g.Silent p

theorem soundAlternatives_eq (g : Grammar) : g.soundAlternatives = g.plainAlternatives := by
  funext s
  unfold soundAlternatives plainAlternatives
  rw [isSilentStep_eq_decide]
  exact List.filter_congr fun p _ => (decide_not ..).symm

theorem movesSilently_iff_exists {r : Rule} :
    g.movesSilently r = true ↔ ∃ p ∈ r.alternatives, g.Silent p := by
  unfold movesSilently
  simp only [List.any_eq_true, isSilentStep_iff_silent]

theorem Sound.rule?_folded_of_silent (hg : g.Sound) {r : Rule} (hr : g.rule? s = some r)
    (h : ∃ p ∈ r.alternatives, g.Silent p) :
    g.folded.rule? s = some ⟨s, g.plainAlternatives s ++
      ((g.silentClosure s).toList.flatMap g.plainAlternatives).map fun p => p.startingAt s⟩ := by
  have hkept : (r.alternatives.filter fun p => !g.isSilentStep p) = g.plainAlternatives s := by
    rw [← soundAlternatives_eq, soundAlternatives, alternativesOf_eq hr]
  rw [rule?_folded, hr, Option.map_some]
  unfold foldRule inherited
  rw [if_pos (movesSilently_iff_exists.mpr h), hkept, silentlyReached_eq, soundAlternatives_eq,
    hg.keyed s r hr]

theorem rule?_folded_of_not_silent {r : Rule} (hr : g.rule? s = some r)
    (h : ∀ p ∈ r.alternatives, ¬g.Silent p) : g.folded.rule? s = some r := by
  have hnot : ¬g.movesSilently r = true := by
    rw [movesSilently_iff_exists]
    exact fun ⟨p, hp, hsilent⟩ => h p hp hsilent
  rw [rule?_folded, hr, Option.map_some]
  unfold foldRule
  rw [if_neg hnot]

/-- Where nothing is silent, folding changes nothing. -/
theorem Sound.foldSilent_eq_ok_self (hg : g.Sound) (h : g.NoSilentSteps) :
    g.foldSilent = .ok ⟨g, 0⟩ := by
  rw [hg.foldSilent_eq_ok, h.folded_eq, h.countP_eq_zero]

/--
**Folding is exact and complete in one call.** It counts the silent alternatives there
are. A rule that has some comes to hold its other alternatives, and behind them those of
every other rule to which one or more silent alternatives lead, in the order of the
symbols and from its own start; the search from its symbol marks these rules. All other
rules stay as they are. Nothing is silent afterwards, so a second call changes nothing
and counts nothing.
-/
theorem foldSilent_exact {g : Grammar} (hg : g.check = .ok ()) :
    ∃ g', g.foldSilent = .ok ⟨g', g.alternatives.countP fun p => decide (g.Silent p)⟩ ∧
      (∀ s r, g.rule? s = some r → (∃ p ∈ r.alternatives, g.Silent p) →
        g'.rule? s = some ⟨s, g.plainAlternatives s ++
          ((g.silentClosure s).toList.flatMap g.plainAlternatives).map fun p => p.startingAt s⟩) ∧
      (∀ s t, t ∈ g.silentClosure s ↔ t ≠ s ∧ Relation.TransGen g.MovesTo s t) ∧
      (∀ s r, g.rule? s = some r → (∀ p ∈ r.alternatives, ¬g.Silent p) → g'.rule? s = some r) ∧
      (∀ s, g.rule? s = none → g'.rule? s = none) ∧
      (∀ p ∈ g'.alternatives, ¬g'.Silent p) ∧
      g'.foldSilent = .ok ⟨g', 0⟩ := by
  have hsound := check_eq_ok_iff.mp hg
  have hnone := hsound.noSilentSteps_folded
  refine ⟨g.folded, ?_, fun s r => hsound.rule?_folded_of_silent, fun s t => mem_silentClosure_iff,
    fun s r => rule?_folded_of_not_silent, fun s hs => ?_, fun p hp hsilent => ?_,
    hsound.folded.foldSilent_eq_ok_self hnone⟩
  · rw [hsound.foldSilent_eq_ok, isSilentStep_eq_decide]
  · rw [rule?_folded, hs, Option.map_none]
  · rw [← isSilentStep_iff_silent, hnone p hp] at hsilent
    exact absurd hsilent (by simp)

/-- `Init` and `C_X` move to each other silently; `C_Y` moves to none of them that way. -/
def restless : Grammar :=
  (((⟨.empty⟩ : Grammar).store "C_X" ⟨"C_X", [⟨["C_X", "_tau", "Init"]⟩,
      ⟨["C_X", "a", "Final"]⟩]⟩).store "C_Y" ⟨"C_Y", [⟨["C_Y", "b", "_tau", "Init"]⟩]⟩).store "Init"
    ⟨"Init", [⟨["Init", "_tau", "C_X"]⟩, ⟨["Init", "_tau", "_tau", "Init"]⟩,
      ⟨["Init", "c", "C_Y"]⟩]⟩

theorem foldSilent_exact_restless :
    restless.check = .ok () ∧
      ∃ g', restless.foldSilent = .ok ⟨g', 3⟩ ∧
        g'.rule? "Init" = some ⟨"Init", [⟨["Init", "c", "C_Y"]⟩, ⟨["Init", "a", "Final"]⟩]⟩ ∧
        g'.rule? "C_Y" = some ⟨"C_Y", [⟨["C_Y", "b", "_tau", "Init"]⟩]⟩ ∧
        g'.foldSilent = .ok ⟨g', 0⟩ := by
  obtain ⟨g', hfold, hsilent, -, hother, -, -, hagain⟩ :=
    foldSilent_exact (g := restless) rfl
  have hinit := hsilent "Init" _ rfl (by decide)
  have hclosure : restless.silentClosure "Init" = .ofList ["C_X"] := by decide +kernel
  rw [hclosure] at hinit
  refine ⟨rfl, g', hfold, ?_, hother "C_Y" _ rfl (by decide), hagain⟩
  rw [hinit]
  decide

end Grammar

end ScenarioFsp
