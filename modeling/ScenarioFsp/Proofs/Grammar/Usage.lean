import ScenarioFsp.Proofs.Grammar.NormalForm
import ScenarioFsp.Proofs.Search

/-!
# Exactly the rules in use

A rule uses every rule whose symbol stands behind the start of one of its alternatives, be
it at the end or among the actions. The rules in use are the least set that holds `Init`
and, with a rule, all rules that it uses (`UseClosed`). A search with a stack finds them,
although rules use each other in circles and a symbol goes onto the stack as often as it
occurs (`finds_usedSymbols`).

Dropping the other rules takes nothing from those in use: what one of them uses stays, so
that the rules in use are the same afterwards and there is nothing left to drop
(`dropUnused_exact`).
-/

namespace ScenarioFsp

namespace Grammar

variable {g : Grammar} {s t : Symbol}

/-- The symbols of rules that a rule uses, as often as they occur. -/
def usedRules (g : Grammar) (symbol : Symbol) : List Symbol :=
  (g.uses symbol).filter fun t => g.hasRule t

/-- `S` holds `Init` if that has a rule, and with a symbol every rule that its rule uses. -/
structure UseClosed (g : Grammar) (S : Symbol → Prop) : Prop where
  start : g.hasRule start = true → S start
  uses : ∀ s, S s → ∀ p ∈ g.alternativesOf s, ∀ t ∈ p.tail, g.hasRule t = true → S t

theorem mem_usedRules_iff :
    t ∈ g.usedRules s ↔ (∃ p ∈ g.alternativesOf s, t ∈ p.tail) ∧ g.hasRule t = true := by
  unfold usedRules uses
  rw [List.mem_filter, List.mem_flatMap]

/-! ## The least closed set -/

theorem hasRule_of_mem_usedSymbols (h : s ∈ g.usedSymbols) : g.hasRule s = true :=
  mem_symbols_iff.mp (mem_usedSymbols_iff.mp h).mem

theorem useClosed_usedSymbols (g : Grammar) : g.UseClosed fun s => s ∈ g.usedSymbols where
  start := start_mem_usedSymbols
  uses _ hs p hp _ ht hrule :=
    mem_usedSymbols_iff.mpr (.step (mem_usedSymbols_iff.mp hs) (List.mem_flatMap.mpr ⟨p, hp, ht⟩)
      (mem_symbols_iff.mpr hrule))

/-- Whatever is closed holds all rules in use. -/
theorem UseClosed.of_mem {S : Symbol → Prop} (h : g.UseClosed S) (hs : s ∈ g.usedSymbols) :
    S s := by
  induction mem_usedSymbols_iff.mp hs with
  | start hstart hrule =>
      rw [List.mem_singleton.mp hstart] at hrule ⊢
      exact h.start (mem_symbols_iff.mp hrule)
  | step hreaches huse hrule ih =>
      obtain ⟨p, hp, ht⟩ := List.mem_flatMap.mp huse
      exact h.uses _ (ih (mem_usedSymbols_iff.mpr hreaches)) p hp _ ht (mem_symbols_iff.mp hrule)

theorem sorted_usedSymbols (g : Grammar) :
    g.usedSymbols.Pairwise fun s t => Ordered.before s t = true :=
  g.rules.keys_sorted.sublist List.filter_sublist

/-! ## The search -/

theorem reached_usedRules_iff :
    Search.Reached (fun s => g.hasRule s = true) g.usedRules [start] s ↔ s ∈ g.usedSymbols := by
  refine ⟨fun h => ?_, fun h => ?_⟩
  · obtain ⟨first, hfirst, hrule, hpath⟩ := h
    obtain rfl := List.mem_singleton.mp hfirst
    induction hpath with
    | refl => exact start_mem_usedSymbols hrule
    | tail _ hstep ih =>
        obtain ⟨p, hp, ht⟩ := (mem_usedRules_iff.mp hstep.1).1
        exact g.useClosed_usedSymbols.uses _ ih p hp _ ht hstep.2
  · -- what a search reaches is closed
    refine UseClosed.of_mem ⟨fun hrule => ?_, fun s' hs p hp t ht hrule => ?_⟩ h
    · exact ⟨start, List.mem_singleton.mpr rfl, hrule, .refl⟩
    · obtain ⟨first, hfirst, hfirstRule, hpath⟩ := hs
      exact ⟨first, hfirst, hfirstRule,
        hpath.tail ⟨mem_usedRules_iff.mpr ⟨⟨p, hp, ht⟩, hrule⟩, hrule⟩⟩

/-- **Every search from `Init` ends, and finds the rules in use.** -/
theorem finds_usedSymbols (g : Grammar) :
    Search.Finds (fun s => g.hasRule s = true) g.usedRules [start] fun s => s ∈ g.usedSymbols := by
  have hnode : ∀ {s}, g.hasRule s = true → s ∈ g.symbols.toFinset := fun hs =>
    List.mem_toFinset.mpr (mem_symbols_iff.mpr hs)
  have hfound : Search.Reached (fun s => g.hasRule s = true) g.usedRules [start] =
      fun s => s ∈ g.usedSymbols := funext fun _ => propext reached_usedRules_iff
  rw [← hfound]
  exact Search.finds (fun _ _ _ _ hrule => hnode hrule) fun _ _ hrule => hnode hrule

/-! ## Dropping the others -/

theorem rule?_restricted (g : Grammar) (s : Symbol) :
    g.restricted.rule? s = if s ∈ g.usedSymbols then g.rule? s else none := by
  unfold restricted
  rw [rule?_keepRules]
  by_cases hs : s ∈ g.usedSymbols <;> cases g.rule? s <;> simp [hs]

/-- What a rule in use uses is in use without the others, too. -/
theorem mem_usedSymbols_restricted_iff : s ∈ g.restricted.usedSymbols ↔ s ∈ g.usedSymbols := by
  refine ⟨fun h => (hasRule_restricted.mp (hasRule_of_mem_usedSymbols h)).2, fun h => ?_⟩
  have hkept : ∀ {t}, t ∈ g.usedSymbols → g.restricted.hasRule t = true := fun ht =>
    hasRule_restricted.mpr ⟨hasRule_of_mem_usedSymbols ht, ht⟩
  have hclosed := g.restricted.useClosed_usedSymbols
  -- what is used from here on has to be in use before and after, or its rule might be gone
  refine UseClosed.of_mem (S := fun s => s ∈ g.usedSymbols ∧ s ∈ g.restricted.usedSymbols)
    ⟨fun hrule => ?_, fun s' hs p hp t ht hrule => ?_⟩ h |>.2
  · have hstart := start_mem_usedSymbols hrule
    exact ⟨hstart, hclosed.start (hkept hstart)⟩
  · have hused := g.useClosed_usedSymbols.uses s' hs.1 p hp t ht hrule
    refine ⟨hused, hclosed.uses s' hs.2 p ?_ t ht (hkept hused)⟩
    rw [alternativesOf_restricted, if_pos hs.1]
    exact hp

/-- The rules that are dropped are counted. -/
theorem numRules_sub_restricted (g : Grammar) :
    g.numRules - g.restricted.numRules =
      (g.symbols.filter fun s => decide (s ∉ g.usedSymbols)).length := by
  have hlost : g.lostSymbols g.restricted =
      g.symbols.filter fun s => decide (s ∉ g.usedSymbols) := by
    refine List.filter_congr fun s hs => ?_
    have hrule := mem_symbols_iff.mp hs
    by_cases hused : s ∈ g.usedSymbols
    · simp [hused, hasRule_restricted.mpr ⟨hrule, hused⟩]
    · have hnone : g.restricted.hasRule s = false :=
        Bool.eq_false_iff.mpr fun hkept => hused (hasRule_restricted.mp hkept).2
      simp [hused, hnone]
  have hsum : g.numRules = g.restricted.numRules + (g.lostSymbols g.restricted).length :=
    numRules_eq_add_lost fun s hs => (hasRule_restricted.mp hs).1
  rw [← hlost, hsum, Nat.add_sub_cancel_left]

/-- No symbol of an alternative that is left loses its rule. -/
theorem Sound.hasRule_restricted_of_mem (hg : g.Sound) {p : Production}
    (hp : p ∈ g.restricted.alternatives) (ht : t ∈ p.symbols) (hrule : g.hasRule t = true) :
    g.restricted.hasRule t = true := by
  obtain ⟨s, hps⟩ := mem_alternatives_iff.mp hp
  have hs := (hasRule_restricted.mp (hasRule_of_mem hps)).2
  have hpg := mem_alternativesOf_restricted hps
  refine hasRule_restricted.mpr ⟨hrule, ?_⟩
  rw [Production.symbols_eq_cons (hg.first? hpg)] at ht
  rcases List.mem_cons.mp ht with rfl | htail
  · exact hs
  · exact g.useClosed_usedSymbols.uses s hs p hpg t htail hrule

/--
**Exactly the rules in use are found and kept.** Every search from `Init` ends with the
rules in use, which are listed once and in order: they are the least set of rules that
holds `Init`, if it has a rule, and with each rule all those whose symbols stand behind the
start of its alternatives. Dropping the others keeps the rules in use as they are and
counts the others. Where an alternative that is left ends no rule has been lost, and a
second call has nothing to drop.
-/
theorem dropUnused_exact (hg : g.check = .ok ()) :
    Search.Finds (fun s => g.hasRule s = true) g.usedRules [start] (fun s => s ∈ g.usedSymbols) ∧
      g.reachableSymbols = .ok g.usedSymbols ∧
      (g.usedSymbols.Pairwise fun s t => Ordered.before s t = true) ∧
      (∀ s ∈ g.usedSymbols, g.hasRule s = true) ∧
      (g.UseClosed fun s => s ∈ g.usedSymbols) ∧
      (∀ S, g.UseClosed S → ∀ s ∈ g.usedSymbols, S s) ∧
      ∃ c, g.dropUnused = .ok c ∧
        (∀ s, c.grammar.rule? s = if s ∈ g.usedSymbols then g.rule? s else none) ∧
        c.count = (g.symbols.filter fun s => decide (s ∉ g.usedSymbols)).length ∧
        (∀ p ∈ c.grammar.alternatives, ∀ e, p.last? = some e → g.hasRule e = true →
          c.grammar.hasRule e = true) ∧
        c.grammar.dropUnused = .ok ⟨c.grammar, 0⟩ := by
  have hsound := check_eq_ok_iff.mp hg
  refine ⟨g.finds_usedSymbols, hsound.reachableSymbols_eq_ok, g.sorted_usedSymbols,
    fun s => hasRule_of_mem_usedSymbols, g.useClosed_usedSymbols, fun S hS s => hS.of_mem,
    _, hsound.dropUnused_eq_ok, g.rule?_restricted, g.numRules_sub_restricted,
    fun p hp e he hrule => ?_, ?_⟩
  · exact hsound.hasRule_restricted_of_mem hp (List.mem_of_getLast? he) hrule
  · -- every rule that is left is in use
    have hidle : g.restricted.Idle .dropUnused := fun s hs =>
      mem_usedSymbols_restricted_iff.mpr (hasRule_restricted.mp hs).2
    exact hsound.restricted_isReductOf.sound.apply_eq_ok_self hidle

/-- `C_X` performs the symbol of a rule that is needed for nothing else, and comes back; `C_Y` and
`C_Z` only need each other, and `Init`. -/
def leftOver : Grammar :=
  (((((⟨.empty⟩ : Grammar).store "C_X" ⟨"C_X", [⟨["C_X", "E_X", "Init"]⟩, ⟨["C_X"]⟩]⟩).store "C_Y"
    ⟨"C_Y", [⟨["C_Y", "a", "C_Z"]⟩, ⟨["C_Y", "b", "Init"]⟩]⟩).store "C_Z"
    ⟨"C_Z", [⟨["C_Z", "c", "C_Y"]⟩]⟩).store "E_X" ⟨"E_X", []⟩).store "Init"
    ⟨"Init", [⟨["Init", "d", "C_X"]⟩, ⟨["Init", "e", "C_X"]⟩, ⟨["Init", "f", "Final"]⟩]⟩

theorem dropUnused_exact_leftOver :
    leftOver.check = .ok () ∧ leftOver.reachableSymbols = .ok ["C_X", "E_X", "Init"] ∧
      leftOver.usedRules "Init" = ["C_X", "C_X"] ∧
      Search.Finds (fun s => leftOver.hasRule s = true) leftOver.usedRules ["Init"]
        (fun s => s ∈ ["C_X", "E_X", "Init"]) ∧
      ∃ c, leftOver.dropUnused = .ok c ∧ c.count = 2 ∧ c.grammar.rule? "C_Y" = none ∧
        c.grammar.rule? "E_X" = some ⟨"E_X", []⟩ ∧ c.grammar.dropUnused = .ok ⟨c.grammar, 0⟩ := by
  have hused : leftOver.usedSymbols = ["C_X", "E_X", "Init"] := by decide +kernel
  obtain ⟨hfinds, hreachable, -, -, -, -, c, hdrop, hkept, hcount, -, hagain⟩ :=
    dropUnused_exact (g := leftOver) rfl
  rw [hused] at hfinds hreachable hcount
  refine ⟨rfl, hreachable, by decide, hfinds, c, hdrop, hcount.trans (by decide), ?_, ?_, hagain⟩
  · rw [hkept, hused]
    rfl
  · rw [hkept, hused]
    rfl

end Grammar

end ScenarioFsp
