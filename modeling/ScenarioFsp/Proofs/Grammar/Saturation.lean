import Mathlib.Data.Finset.Card
import ScenarioFsp.Proofs.Grammar.Traces

/-!
# Traces found in rounds

The traces of a grammar can also be found without following its runs. A set of traces is
kept for each rule, at first with the empty trace only. A round goes through the rules
and adds to the set of each rule what its alternatives offer: what is seen of an
alternative up to any point, and all of it followed by what has been found at its end.
Rounds are made until one of them adds nothing.

Every trace that is found can be observed and has at most `n` actions, and there are only
finitely many of those; a round that adds something leaves fewer to be found, so the
rounds end. When one has added nothing, the sets are closed under all alternatives, and
so hold whatever can be observed within `n` actions (`Sound.exists_saturates`).
-/

namespace ScenarioFsp

/-- The traces found so far, by the symbol where they start. -/
structure Findings where
  sets : OrderedMap Symbol (OrderedSet Trace)

namespace Findings

/-- What has been found at a symbol. Where there is no rule nothing is performed. -/
def tracesAt (f : Findings) (s : Symbol) : OrderedSet Trace := (f.sets.get? s).getD (.ofList [[]])

/-- What an alternative offers: what is seen of it up to any point, and then what has been found
at its end, as far as `n` actions allow. -/
def offered (n : Nat) (f : Findings) (p : Production) : List Trace :=
  let seen := p.visible.take n
  ((List.range seen.length).map fun i => seen.take (i + 1)) ++
    p.last?.toList.flatMap fun stop =>
      ((f.tracesAt stop).toList.filter fun t => decide (t.length ≤ n - seen.length)).map (seen ++ ·)

/-- Adds what the alternatives of a rule offer, and tells whether any of it is new. -/
def visit (n : Nat) (r : Rule) (f : Findings) : Findings × Bool :=
  let own := (f.sets.get? r.symbol).getD .empty
  let offer := r.alternatives.flatMap (f.offered n)
  (⟨f.sets.insert r.symbol (own.union (.ofList offer))⟩, offer.any fun t => decide (t ∉ own))

/-- Visits rules one after the other; each of them sees what those before it have added. -/
def visitAll (n : Nat) : List Rule → Findings → Findings × Bool
  | [], f => (f, false)
  | r :: rs, f =>
    let first := f.visit n r
    let later := visitAll n rs first.1
    (later.1, first.2 || later.2)

end Findings

namespace Grammar

/-- For every rule the empty trace. -/
def unexplored (g : Grammar) : Findings := ⟨g.rules.mapValues fun _ _ => .ofList [[]]⟩

/-- `g.Saturates n f f'`: rounds are made from `f` until one adds nothing, which leaves `f'`. -/
inductive Saturates (g : Grammar) (n : Nat) : Findings → Findings → Prop where
  | stop {f f' : Findings} : f.visitAll n g.ruleList = (f', false) → Saturates g n f f'
  | again {f f' f'' : Findings} :
      f.visitAll n g.ruleList = (f', true) → Saturates g n f' f'' → Saturates g n f f''

end Grammar

namespace Findings

variable {n : Nat} {f f' : Findings} {p : Production} {r : Rule} {s : Symbol} {w : Trace}

/-! ## What an alternative offers -/

theorem mem_offered_iff :
    w ∈ f.offered n p ↔ (w ≠ [] ∧ w <+: p.visible.take n) ∨
      ∃ stop t, p.last? = some stop ∧ t ∈ f.tracesAt stop ∧
        t.length ≤ n - (p.visible.take n).length ∧ w = p.visible.take n ++ t := by
  unfold offered
  rw [List.mem_append]
  refine or_congr ?_ ?_
  · generalize p.visible.take n = seen
    simp only [List.mem_map, List.mem_range]
    refine ⟨fun h => ?_, fun h => ?_⟩
    · obtain ⟨i, hi, rfl⟩ := h
      refine ⟨fun hnil => ?_, List.take_prefix _ _⟩
      have hlength := congrArg List.length hnil
      rw [List.length_take, List.length_nil] at hlength
      omega
    · obtain ⟨hne, hbegins⟩ := h
      have hpos := List.length_pos_of_ne_nil hne
      have hle := hbegins.length_le
      refine ⟨w.length - 1, by omega, ?_⟩
      rw [Nat.sub_add_cancel hpos]
      exact (List.prefix_iff_eq_take.mp hbegins).symm
  · simp only [List.mem_flatMap, Option.mem_toList, List.mem_map, List.mem_filter,
      decide_eq_true_eq, OrderedSet.mem_def]
    refine ⟨fun h => ?_, fun h => ?_⟩
    · obtain ⟨stop, hstop, t, ⟨ht, hlength⟩, rfl⟩ := h
      exact ⟨stop, t, hstop, ht, hlength, rfl⟩
    · obtain ⟨stop, t, hstop, ht, hlength, rfl⟩ := h
      exact ⟨stop, hstop, t, ⟨ht, hlength⟩, rfl⟩

/-- What is seen of an alternative and then of a run from its end is offered, once the rest of it
has been found. -/
theorem mem_offered_of_begins {stop : Symbol} {v : Trace} (hlast : p.last? = some stop)
    (hfound : ∀ t, t <+: v → t.length ≤ n → t ∈ f.tracesAt stop) (hne : w ≠ [])
    (hbegins : w <+: p.visible ++ v) (hlength : w.length ≤ n) : w ∈ f.offered n p := by
  rw [mem_offered_iff]
  by_cases hwithin : w.length ≤ p.visible.length
  · -- it ends within the alternative
    left
    have hvisible := List.prefix_of_prefix_length_le hbegins (List.prefix_append _ v) hwithin
    exact ⟨hne, List.prefix_take_iff.mpr ⟨hvisible, hlength⟩⟩
  · right
    obtain ⟨t, rfl⟩ := List.prefix_of_prefix_length_le (List.prefix_append p.visible v) hbegins
      (Nat.le_of_not_le hwithin)
    rw [List.length_append] at hlength
    have hall : p.visible.take n = p.visible := List.take_of_length_le (by omega)
    have ht := (List.prefix_append_right_inj p.visible).mp hbegins
    rw [hall]
    exact ⟨stop, t, hlast, hfound t ht (by omega), by omega, rfl⟩

/-! ## What a visit adds -/

/-- Traces are kept for a symbol. -/
def Keeps (f : Findings) (s : Symbol) : Prop := ∃ ts, f.sets.get? s = some ts

theorem tracesAt_eq {ts : OrderedSet Trace} (h : f.sets.get? s = some ts) : f.tracesAt s = ts := by
  unfold tracesAt
  rw [h]
  rfl

theorem get?_visit :
    (f.visit n r).1.sets.get? s =
      if s = r.symbol then
        some (((f.sets.get? r.symbol).getD .empty).union
          (.ofList (r.alternatives.flatMap (f.offered n))))
      else f.sets.get? s :=
  OrderedMap.get?_insert _ _ _ _

theorem mem_tracesAt_visit_iff (hkeeps : f.Keeps r.symbol) :
    w ∈ (f.visit n r).1.tracesAt s ↔
      w ∈ f.tracesAt s ∨ s = r.symbol ∧ ∃ p ∈ r.alternatives, w ∈ f.offered n p := by
  obtain ⟨own, hown⟩ := hkeeps
  by_cases hs : s = r.symbol
  · rw [tracesAt_eq (get?_visit.trans (if_pos hs)), hs, tracesAt_eq hown, hown, Option.getD_some,
      OrderedSet.mem_union, OrderedSet.mem_ofList, List.mem_flatMap]
    simp
  · have hsame : (f.visit n r).1.tracesAt s = f.tracesAt s := by
      unfold tracesAt
      rw [get?_visit, if_neg hs]
    rw [hsame]
    simp [hs]

/-- A visit that tells of nothing new has found all that is offered, and changes nothing. -/
theorem visit_eq_false (hkeeps : f.Keeps r.symbol) (h : (f.visit n r).2 = false) :
    (f.visit n r).1 = f ∧ ∀ p ∈ r.alternatives, ∀ w ∈ f.offered n p, w ∈ f.tracesAt r.symbol := by
  have hall : ∀ p ∈ r.alternatives, ∀ w ∈ f.offered n p, w ∈ f.tracesAt r.symbol := by
    intro p hp w hw
    obtain ⟨own, hown⟩ := hkeeps
    have hany : (r.alternatives.flatMap (f.offered n)).any
        (fun t => decide (t ∉ (f.sets.get? r.symbol).getD .empty)) = false := h
    rw [tracesAt_eq hown]
    rw [hown, List.any_eq_false] at hany
    simpa using hany w (List.mem_flatMap.mpr ⟨p, hp, hw⟩)
  refine ⟨?_, hall⟩
  obtain ⟨own, hown⟩ := hkeeps
  refine congrArg Findings.mk (OrderedMap.ext_get? fun s => get?_visit.trans ?_)
  split
  · rename_i hs
    rw [hs, hown, Option.getD_some]
    refine congrArg some (OrderedSet.ext_mem fun w => ?_)
    rw [OrderedSet.mem_union, OrderedSet.mem_ofList, List.mem_flatMap]
    refine or_iff_left_of_imp fun hoffer => ?_
    obtain ⟨p, hp, hw⟩ := hoffer
    rw [← tracesAt_eq hown]
    exact hall p hp w hw
  · rfl

/-- A visit that tells of something new has found a trace that was not found before. -/
theorem visit_eq_true (hkeeps : f.Keeps r.symbol) (h : (f.visit n r).2 = true) :
    ∃ w, w ∉ f.tracesAt r.symbol ∧ w ∈ (f.visit n r).1.tracesAt r.symbol := by
  have hany : (r.alternatives.flatMap (f.offered n)).any
      (fun t => decide (t ∉ (f.sets.get? r.symbol).getD .empty)) = true := h
  obtain ⟨w, hw, hnew⟩ := List.any_eq_true.mp hany
  obtain ⟨p, hp, hoffered⟩ := List.mem_flatMap.mp hw
  refine ⟨w, fun hmem => ?_, (mem_tracesAt_visit_iff hkeeps).mpr (Or.inr ⟨rfl, p, hp, hoffered⟩)⟩
  obtain ⟨own, hown⟩ := hkeeps
  rw [tracesAt_eq hown] at hmem
  rw [hown] at hnew
  exact of_decide_eq_true hnew hmem

end Findings

namespace Grammar

open Findings

variable {g : Grammar} {n : Nat} {f f' : Findings} {rs : List Rule} {s : Symbol} {w : Trace}

/-! ## Only what can be observed is found -/

/-- What holds of the findings between two visits. -/
structure Finds (g : Grammar) (n : Nat) (f : Findings) : Prop where
  keeps : ∀ s, g.hasRule s = true → f.Keeps s
  nil_mem : ∀ s, [] ∈ f.tracesAt s
  observed : ∀ s w, w ∈ f.tracesAt s → w.length ≤ n ∧ g.Observes s w

theorem finds_unexplored (g : Grammar) (n : Nat) : g.Finds n g.unexplored := by
  have honly : ∀ s w, w ∈ g.unexplored.tracesAt s ↔ w = [] := by
    intro s w
    unfold tracesAt unexplored
    rw [OrderedMap.get?_mapValues]
    cases g.rules.get? s with
    | none => simp
    | some r => simp
  refine ⟨fun s hs => ?_, fun s => (honly s []).mpr rfl, fun s w hw => ?_⟩
  · obtain ⟨r, hr⟩ := hasRule_iff.mp hs
    refine ⟨.ofList [[]], ?_⟩
    unfold unexplored
    rw [OrderedMap.get?_mapValues]
    exact congrArg (Option.map _) hr
  · rw [(honly s w).mp hw]
    exact ⟨Nat.zero_le n, observes_nil g s⟩

/-- What an alternative offers can be observed at its start. -/
theorem Finds.offered (hf : g.Finds n f) {p : Production} (hp : p ∈ g.alternativesOf s)
    (hg : g.Sound) (hw : w ∈ f.offered n p) : w.length ≤ n ∧ g.Observes s w := by
  have hseen : (p.visible.take n).length ≤ n := List.length_take_le n p.visible
  obtain ⟨-, hbegins⟩ | ⟨stop, t, hlast, ht, hbudget, rfl⟩ := mem_offered_iff.mp hw
  · obtain ⟨e, hlast⟩ := hg.exists_last? hp
    exact ⟨hbegins.length_le.trans hseen, p.visible, e, Run.single hp hlast,
      hbegins.trans (List.take_prefix n _)⟩
  · obtain ⟨-, v, e, hrun, htv⟩ := hf.observed stop t ht
    refine ⟨by rw [List.length_append]; omega, p.visible ++ v, e, Run.step hp hlast hrun, ?_⟩
    by_cases hall : p.visible.length ≤ n
    · rw [List.take_of_length_le hall]
      exact (List.prefix_append_right_inj _).mpr htv
    · -- nothing is left for what comes behind the alternative
      have hfull : (p.visible.take n).length = n := by
        rw [List.length_take]
        omega
      have hnil : t = [] := List.eq_nil_of_length_eq_zero (by omega)
      rw [hnil, List.append_nil]
      exact (List.take_prefix n _).trans (List.prefix_append _ v)

theorem Finds.visit (hf : g.Finds n f) (hg : g.Sound) {r : Rule} (hr : g.rule? r.symbol = some r) :
    g.Finds n (f.visit n r).1 := by
  have hkeeps := hf.keeps r.symbol (hasRule_iff.mpr ⟨r, hr⟩)
  refine ⟨fun s hs => ?_, fun s => ?_, fun s w hw => ?_⟩
  · unfold Keeps
    rw [get?_visit]
    split
    · exact ⟨_, rfl⟩
    · exact hf.keeps s hs
  · exact (mem_tracesAt_visit_iff hkeeps).mpr (Or.inl (hf.nil_mem s))
  · rcases (mem_tracesAt_visit_iff hkeeps).mp hw with hold | ⟨rfl, p, hp, hoffered⟩
    · exact hf.observed s w hold
    · exact hf.offered (mem_alternativesOf_iff.mpr ⟨r, hr, hp⟩) hg hoffered

/-! ## Rounds -/

/-- A round changes nothing, or it finds something that was not found before. -/
theorem Finds.visitAll (hf : g.Finds n f) (hg : g.Sound)
    (hrs : ∀ r ∈ rs, g.rule? r.symbol = some r) :
    g.Finds n (f.visitAll n rs).1 ∧
      (∀ s w, w ∈ f.tracesAt s → w ∈ (f.visitAll n rs).1.tracesAt s) ∧
      ((f.visitAll n rs).2 = true → ∃ s w, g.hasRule s = true ∧ w ∉ f.tracesAt s ∧
        w ∈ (f.visitAll n rs).1.tracesAt s) ∧
      ((f.visitAll n rs).2 = false → (f.visitAll n rs).1 = f ∧
        ∀ r ∈ rs, ∀ p ∈ r.alternatives, ∀ w ∈ f.offered n p, w ∈ f.tracesAt r.symbol) := by
  induction rs generalizing f with
  | nil =>
      exact ⟨hf, fun _ _ hw => hw, fun h => absurd h Bool.false_ne_true,
        fun _ => ⟨rfl, fun _ hr => absurd hr List.not_mem_nil⟩⟩
  | cons r rs ih =>
      have hr := hrs r List.mem_cons_self
      have hrule : g.hasRule r.symbol = true := hasRule_iff.mpr ⟨r, hr⟩
      have hkeeps := hf.keeps r.symbol hrule
      have hgrows : ∀ s w, w ∈ f.tracesAt s → w ∈ (f.visit n r).1.tracesAt s := fun s w hw =>
        (mem_tracesAt_visit_iff hkeeps).mpr (Or.inl hw)
      obtain ⟨hfinds, hmore, hnew, hsame⟩ := ih (hf.visit hg hr) fun r' hr' =>
        hrs r' (List.mem_cons_of_mem r hr')
      refine ⟨hfinds, fun s w hw => hmore s w (hgrows s w hw), fun h => ?_, fun h => ?_⟩
      · rcases Bool.or_eq_true_iff.mp h with hfirst | hlater
        · obtain ⟨w, hfresh, hw⟩ := visit_eq_true hkeeps hfirst
          exact ⟨r.symbol, w, hrule, hfresh, hmore _ w hw⟩
        · obtain ⟨s, w, hs, hfresh, hw⟩ := hnew hlater
          exact ⟨s, w, hs, fun hold => hfresh (hgrows s w hold), hw⟩
      · obtain ⟨hfirst, hlater⟩ := Bool.or_eq_false_iff.mp h
        obtain ⟨hunchanged, hclosed⟩ := visit_eq_false hkeeps hfirst
        obtain ⟨hrest, hrestClosed⟩ := hsame hlater
        rw [hunchanged] at hrest hrestClosed
        refine ⟨?_, fun r' hr' => ?_⟩
        · show (Findings.visitAll n rs (f.visit n r).1).1 = f
          rw [hunchanged]
          exact hrest
        · rcases List.mem_cons.mp hr' with rfl | hr'
          · exact hclosed
          · exact hrestClosed r' hr'

theorem Sound.rule?_of_mem_ruleList (hg : g.Sound) {r : Rule} (h : r ∈ g.ruleList) :
    g.rule? r.symbol = some r := by
  obtain ⟨key, hr⟩ := Grammar.mem_ruleList_iff.mp h
  rw [hg.keyed key r hr]
  exact hr

/-! ## The rounds end -/

/-- What may still be found: traces of at most `n` actions that have not been found. -/
def unfound (g : Grammar) (n : Nat) (f : Findings) : Finset (Symbol × Trace) :=
  (g.symbols.flatMap fun s => (g.tracesOf s n).map fun w => (s, w)).toFinset.filter fun found =>
    found.2 ∉ f.tracesAt found.1

theorem Sound.mem_unfound_iff (hg : g.Sound) :
    (s, w) ∈ g.unfound n f ↔
      g.hasRule s = true ∧ (w.length ≤ n ∧ g.Observes s w) ∧ w ∉ f.tracesAt s := by
  unfold unfound
  rw [Finset.mem_filter, List.mem_toFinset, ← hg.mem_tracesOf_iff, ← mem_symbols_iff, ← and_assoc]
  simp

/-- Whatever can be observed within `n` actions has been found. -/
def Saturated (g : Grammar) (n : Nat) (f : Findings) : Prop :=
  ∀ s w, w ∈ f.tracesAt s ↔ w.length ≤ n ∧ g.Observes s w

/-- Findings that are closed under all alternatives hold all that can be observed. -/
theorem Finds.saturated (hf : g.Finds n f)
    (hclosed : ∀ s, ∀ p ∈ g.alternativesOf s, ∀ w ∈ f.offered n p, w ∈ f.tracesAt s) :
    g.Saturated n f := by
  refine fun s w => ⟨hf.observed s w, fun h => ?_⟩
  obtain ⟨hlength, v, e, hrun, hbegins⟩ := h
  -- by induction on the run; what is observed ends in its first alternative or behind it
  induction hrun generalizing w with
  | stop s =>
      rw [List.prefix_nil.mp hbegins]
      exact hf.nil_mem s
  | @step s m e p v hp hlast _ ih =>
      by_cases hnil : w = []
      · rw [hnil]
        exact hf.nil_mem s
      · refine hclosed s p hp w (mem_offered_of_begins hlast (fun t ht hlength => ?_) hnil hbegins
          hlength)
        exact ih t hlength ht

/-- **The rounds end, and then all is found that can be observed.** -/
theorem Sound.exists_saturates (hg : g.Sound) (hf : g.Finds n f) :
    ∃ f', g.Saturates n f f' ∧ g.Saturated n f' := by
  -- a round that is not the last leaves less to be found
  induction hrest : g.unfound n f using Finset.strongInduction generalizing f with
  | _ rest ih =>
      obtain ⟨hfinds, hmore, hnew, hsame⟩ := hf.visitAll hg fun r hr => hg.rule?_of_mem_ruleList hr
      cases hround : f.visitAll n g.ruleList with
      | mk f' added =>
          rw [hround] at hfinds hmore hnew hsame
          cases added with
          | false =>
              obtain ⟨hunchanged, hclosed⟩ := hsame rfl
              obtain rfl : f' = f := hunchanged
              refine ⟨f', .stop hround, hf.saturated fun s p hp => ?_⟩
              obtain ⟨r, hr, hpr⟩ := mem_alternativesOf_iff.mp hp
              have := hclosed r (Grammar.mem_ruleList_iff.mpr ⟨s, hr⟩) p hpr
              rwa [hg.keyed s r hr] at this
          | true =>
              obtain ⟨s, w, hs, hfresh, hw⟩ := hnew rfl
              have hless : g.unfound n f' ⊂ rest := by
                rw [← hrest, Finset.ssubset_iff_of_subset]
                · refine ⟨(s, w), hg.mem_unfound_iff.mpr ⟨hs, hfinds.observed s w hw, hfresh⟩,
                    fun hmem => ?_⟩
                  exact (hg.mem_unfound_iff.mp hmem).2.2 hw
                · intro ⟨s', w'⟩ hmem
                  obtain ⟨hs', hobserved, hnot⟩ := hg.mem_unfound_iff.mp hmem
                  exact hg.mem_unfound_iff.mpr
                    ⟨hs', hobserved, fun hold => hnot (hmore s' w' hold)⟩
              obtain ⟨f'', hlater, hall⟩ := ih _ hless hfinds rfl
              exact ⟨f'', .again hround hlater, hall⟩

/-! ## The traces -/

/--
**The traces are exact.** In a grammar that passes the check, the rounds end, and what
they have found at `Init` are the traces of at most `n` actions: exactly the sequences of
at most `n` actions that some run from `Init` begins with, `_tau` left out. So the empty
trace is one of them, what a trace begins with is a trace, and with a smaller bound the
traces are those that are short enough.
-/
theorem observableTraces_exact (hg : g.check = .ok ()) (n : Nat) :
    ∃ ts, g.observableTraces n = .ok ts ∧
      (∃ f, g.Saturates n g.unexplored f ∧ f.tracesAt start = ts) ∧
      (∀ w, w ∈ ts ↔ w.length ≤ n ∧ ∃ v e, g.Run start v e ∧ w <+: v) ∧
      [] ∈ ts ∧ (∀ v w, w ∈ ts → v <+: w → v ∈ ts) ∧
      ∀ m, m ≤ n → g.observableTraces m = .ok (ts.filter fun w => decide (w.length ≤ m)) := by
  have hsound := check_eq_ok_iff.mp hg
  obtain ⟨f, hrounds, hsaturated⟩ := hsound.exists_saturates (finds_unexplored g n)
  refine ⟨g.traces n, hsound.observableTraces_eq_ok n, ⟨f, hrounds, ?_⟩,
    fun w => hsound.mem_traces_iff, ?_, fun v w hw hbegins => ?_, fun m hm => ?_⟩
  · refine OrderedSet.ext_mem fun w => ?_
    rw [hsaturated, hsound.mem_traces_iff]
  · exact hsound.mem_traces_iff.mpr ⟨Nat.zero_le n, observes_nil g start⟩
  · obtain ⟨hlength, u, e, hrun, hw⟩ := hsound.mem_traces_iff.mp hw
    exact hsound.mem_traces_iff.mpr
      ⟨hbegins.length_le.trans hlength, u, e, hrun, hbegins.trans hw⟩
  · rw [hsound.observableTraces_eq_ok]
    refine congrArg Except.ok (OrderedSet.ext_mem fun w => ?_)
    rw [OrderedSet.mem_filter, hsound.mem_traces_iff, hsound.mem_traces_iff, decide_eq_true_eq]
    refine ⟨fun h => ⟨⟨h.1.trans hm, h.2⟩, h.1⟩, fun h => ⟨h.2, h.1.2⟩⟩

/-- Two rules with a silent cycle between them. -/
def echo : Grammar :=
  ((⟨.empty⟩ : Grammar).store "Init"
    ⟨"Init", [⟨["Init", "a", "b", "Init"]⟩, ⟨["Init", "_tau", "C_X"]⟩]⟩).store
    "C_X" ⟨"C_X", [⟨["C_X", "_tau", "Init"]⟩, ⟨["C_X", "c", "Final"]⟩]⟩

theorem observableTraces_exact_echo :
    echo.check = .ok () ∧ ∃ ts, echo.observableTraces 3 = .ok ts ∧
      (∃ f, echo.Saturates 3 echo.unexplored f ∧ f.tracesAt start = ts) ∧
      ["a", "b", "c"] ∈ ts ∧ ["a", "b"] ∈ ts ∧ ["b"] ∉ ts ∧
      echo.observableTraces 1 = .ok (ts.filter fun w => decide (w.length ≤ 1)) := by
  obtain ⟨ts, hts, hrounds, -, -, hclosed, hbound⟩ := observableTraces_exact (g := echo) rfl 3
  have hvalue : echo.observableTraces 3 = .ok (echo.traces 3) := rfl
  obtain rfl : ts = echo.traces 3 := Except.ok.inj (hts.symm.trans hvalue)
  have hmem : ["a", "b", "c"] ∈ echo.traces 3 ∧ ["b"] ∉ echo.traces 3 := by decide +kernel
  exact ⟨rfl, _, hts, hrounds, hmem.1, hclosed ["a", "b"] _ hmem.1 ⟨["c"], rfl⟩, hmem.2,
    hbound 1 (by decide)⟩

end Grammar

end ScenarioFsp
