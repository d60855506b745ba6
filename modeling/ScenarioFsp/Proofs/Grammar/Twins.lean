import ScenarioFsp.Grammar.Merging
import ScenarioFsp.Proofs.Grammar.Runs

/-!
# Twins

Twins are rules of one shape: equal alternatives, once each writes `<self>` for
its own symbol. What makes twins exchangeable is a little more. They have to
perform the same actions, and where they go on they have to go on at the same
symbol, or each at itself (`Rule.Agrees`). Rules that agree are observed to do
the same, whatever the other rules of the grammar are.

The shape writes `<self>` for actions as well. So twins agree unless a name is
used twice: as the symbol of a rule and as an action of the very same rule, or
`<self>` as a name of its own. `Sound.agrees_iff` says that this is the exact
condition.
-/

namespace ScenarioFsp

/-- `q` does for `s'` what `p` does for `s`: it acts alike and goes on at the same symbol, or
each at its own. -/
def Production.Mirrors (s s' : Symbol) (p q : Production) : Prop :=
  q.actions = p.actions ∧ (q.last? = p.last? ∨ (p.last? = some s ∧ q.last? = some s'))

theorem Production.Mirrors.visible_eq {s s' : Symbol} {p q : Production}
    (h : p.Mirrors s s' q) : q.visible = p.visible := by
  unfold Production.visible
  rw [h.1]

namespace Rule

/-- Two rules have the same alternatives up to the name under which a rule comes back to itself. -/
def Agrees (r r' : Rule) : Prop :=
  (∀ p ∈ r.alternatives, ∃ q ∈ r'.alternatives, p.Mirrors r.symbol r'.symbol q) ∧
    ∀ q ∈ r'.alternatives, ∃ p ∈ r.alternatives, q.Mirrors r'.symbol r.symbol p

/-- Some alternative has the rule's own symbol for an action. -/
def PerformsItself (r : Rule) : Prop := ∃ p ∈ r.alternatives, r.symbol ∈ p.actions

/-- `<self>` is neither the symbol of the rule nor the end of an alternative. -/
def AvoidsSelf (r : Rule) : Prop :=
  r.symbol ≠ Grammar.selfReference ∧
    ∀ p ∈ r.alternatives, p.last? ≠ some Grammar.selfReference

instance (r : Rule) : Decidable r.PerformsItself :=
  inferInstanceAs (Decidable (∃ p ∈ r.alternatives, r.symbol ∈ p.actions))

instance (r : Rule) : Decidable r.AvoidsSelf :=
  inferInstanceAs (Decidable (_ ∧ ∀ p ∈ r.alternatives, p.last? ≠ some Grammar.selfReference))

theorem Agrees.symm {r r' : Rule} (h : r.Agrees r') : r'.Agrees r := ⟨h.2, h.1⟩

end Rule

namespace Grammar

/-! ## Shapes -/

/-- How a symbol is written in the shape of the rule of `own`. -/
def disguise (own s : Symbol) : Symbol := if s = own then selfReference else s

theorem disguise_self (own : Symbol) : disguise own own = selfReference := if_pos rfl

theorem disguise_of_ne {own s : Symbol} (h : s ≠ own) : disguise own s = s := if_neg h

/-- The own symbol does not show, unless it is `<self>`. -/
theorem disguise_ne {own : Symbol} (h : own ≠ selfReference) (s : Symbol) :
    disguise own s ≠ own := by
  by_cases hs : s = own
  · rw [hs, disguise_self]
    exact Ne.symm h
  · rw [disguise_of_ne hs]
    exact hs

theorem mem_shape_iff {r : Rule} {l : List Symbol} :
    l ∈ shape r ↔ ∃ p ∈ r.alternatives, p.tail.map (disguise r.symbol) = l := by
  unfold shape
  rw [← OrderedSet.mem_def, OrderedSet.mem_ofList, List.mem_map]
  rfl

theorem map_disguise_eq_self {own : Symbol} {l : List Symbol} (h : own ∉ l) :
    l.map (disguise own) = l := by
  have hcongr : l.map (disguise own) = l.map id :=
    List.map_congr_left fun s hs => disguise_of_ne fun hso => h (hso ▸ hs)
  rw [hcongr, List.map_id]

/-- Symbols that look the same are the same or both the own one, unless `<self>` is among them. -/
theorem disguise_eq_cases {s s' e f : Symbol} (h : disguise s e = disguise s' f)
    (he : e ≠ selfReference) (hf : f ≠ selfReference) : f = e ∨ (e = s ∧ f = s') := by
  by_cases hes : e = s
  · by_cases hfs : f = s'
    · exact Or.inr ⟨hes, hfs⟩
    · rw [hes, disguise_self, disguise_of_ne hfs] at h
      exact absurd h.symm hf
  · rw [disguise_of_ne hes] at h
    by_cases hfs : f = s'
    · rw [hfs, disguise_self] at h
      exact absurd h he
    · rw [disguise_of_ne hfs] at h
      exact Or.inl h.symm

/-- Alternatives that look the same mirror each other, if neither performs the own symbol of its
rule nor goes on at `<self>`. -/
theorem mirrors_of_disguise_eq {s s' : Symbol} {p q : Production}
    (hp : p.first? = some s) (hq : q.first? = some s')
    (h : p.tail.map (disguise s) = q.tail.map (disguise s'))
    (hps : s ∉ p.actions) (hqs : s' ∉ q.actions)
    (hpe : p.last? ≠ some selfReference) (hqe : q.last? ≠ some selfReference) :
    p.Mirrors s s' q := by
  have hactions : q.actions = p.actions := by
    have hdrop := congrArg List.dropLast h
    rw [← List.map_dropLast, ← List.map_dropLast] at hdrop
    change p.actions.map _ = q.actions.map _ at hdrop
    rw [map_disguise_eq_self hps, map_disguise_eq_self hqs] at hdrop
    exact hdrop.symm
  refine ⟨hactions, ?_⟩
  have hlast := congrArg List.getLast? h
  rw [List.getLast?_map, List.getLast?_map] at hlast
  rw [Production.last?_eq hp] at hpe ⊢
  rw [Production.last?_eq hq] at hqe ⊢
  cases hpt : p.tail.getLast? with
  | none =>
      -- productions of one symbol: each goes on at its own
      rw [hpt, Option.map_none, eq_comm, Option.map_eq_none_iff] at hlast
      rw [hlast]
      exact Or.inr ⟨rfl, rfl⟩
  | some e =>
      rw [hpt, Option.map_some, eq_comm, Option.map_eq_some_iff] at hlast
      obtain ⟨f, hf, heq⟩ := hlast
      rw [hpt] at hpe
      rw [hf] at hqe ⊢
      rcases disguise_eq_cases heq.symm (fun he => hpe (congrArg some he))
        (fun hf => hqe (congrArg some hf)) with hsame | ⟨hown, hown'⟩
      · exact Or.inl (congrArg some hsame)
      · exact Or.inr ⟨congrArg some hown, congrArg some hown'⟩

/-- The shape of a rule never shows the rule's own symbol. -/
theorem not_mem_of_mem_shape {r : Rule} (h : r.symbol ≠ selfReference) {l : List Symbol}
    (hl : l ∈ shape r) : r.symbol ∉ l := by
  obtain ⟨p, -, rfl⟩ := mem_shape_iff.mp hl
  intro hmem
  obtain ⟨s, -, hs⟩ := List.mem_map.mp hmem
  exact disguise_ne h s hs

/-- No alternative of a twin has the symbol of the rule behind its start. -/
theorem not_mem_tail_of_shape_eq {r r' : Rule} (h : shape r = shape r')
    (hne : r.symbol ≠ r'.symbol) (hself : r.symbol ≠ selfReference) {q : Production}
    (hq : q ∈ r'.alternatives) : r.symbol ∉ q.tail := by
  intro hmem
  have hshape : q.tail.map (disguise r'.symbol) ∈ shape r := by
    rw [h]
    exact mem_shape_iff.mpr ⟨q, hq, rfl⟩
  exact not_mem_of_mem_shape hself hshape
    (List.mem_map.mpr ⟨r.symbol, hmem, disguise_of_ne hne⟩)

/-! ## When twins agree -/

variable {g : Grammar}

theorem Sound.mirrored (hg : g.Sound) {r r' : Rule} (hr : r ∈ g.ruleList)
    (hr' : r' ∈ g.ruleList) (h : shape r = shape r') (hself : r.AvoidsSelf)
    (hself' : r'.AvoidsSelf) (hown : ¬r.PerformsItself) (hown' : ¬r'.PerformsItself)
    {p : Production} (hp : p ∈ r.alternatives) :
    ∃ q ∈ r'.alternatives, p.Mirrors r.symbol r'.symbol q := by
  have hmem : p.tail.map (disguise r.symbol) ∈ shape r' := by
    rw [← h]
    exact mem_shape_iff.mpr ⟨p, hp, rfl⟩
  obtain ⟨q, hq, heq⟩ := mem_shape_iff.mp hmem
  refine ⟨q, hq, mirrors_of_disguise_eq ?_ ?_ heq.symm ?_ ?_ (hself.2 p hp) (hself'.2 q hq)⟩
  · exact hg.placed _ r p (hg.mem_ruleList_iff.mp hr) hp
  · exact hg.placed _ r' q (hg.mem_ruleList_iff.mp hr') hq
  · exact fun hps => hown ⟨p, hp, hps⟩
  · exact fun hqs => hown' ⟨q, hq, hqs⟩

/-- A twin of a rule that performs itself does not have the action that this rule has. -/
theorem not_performsItself_of_agrees {r r' : Rule} (h : shape r = shape r')
    (hne : r.symbol ≠ r'.symbol) (hself : r.symbol ≠ selfReference) (hag : r.Agrees r') :
    ¬r.PerformsItself := by
  intro hown
  obtain ⟨p, hp, hps⟩ := hown
  obtain ⟨q, hq, hactions, -⟩ := hag.1 p hp
  rw [← hactions] at hps
  exact not_mem_tail_of_shape_eq h hne hself hq (Production.mem_tail_of_mem_actions hps)

/-- **Twins agree exactly if neither of them performs its own symbol**, `<self>` aside. -/
theorem Sound.agrees_iff (hg : g.Sound) {r r' : Rule} (hr : r ∈ g.ruleList)
    (hr' : r' ∈ g.ruleList) (hne : r.symbol ≠ r'.symbol) (h : shape r = shape r')
    (hself : r.AvoidsSelf) (hself' : r'.AvoidsSelf) :
    r.Agrees r' ↔ ¬r.PerformsItself ∧ ¬r'.PerformsItself := by
  refine ⟨fun hag => ⟨?_, ?_⟩, fun hown => ⟨fun p hp => ?_, fun q hq => ?_⟩⟩
  · exact not_performsItself_of_agrees h hne hself.1 hag
  · exact not_performsItself_of_agrees h.symm (Ne.symm hne) hself'.1 hag.symm
  · exact hg.mirrored hr hr' h hself hself' hown.1 hown.2 hp
  · exact hg.mirrored hr' hr h.symm hself' hself hown.2 hown.1 hq

/-! ## Rules that agree do the same -/

/-- Every alternative of `s` is mirrored at `s'`. -/
def Copies (g : Grammar) (s s' : Symbol) : Prop :=
  ∀ p ∈ g.alternativesOf s, ∃ q ∈ g.alternativesOf s', p.Mirrors s s' q

theorem copies_of_agrees {r r' : Rule} (hr : g.rule? r.symbol = some r)
    (hr' : g.rule? r'.symbol = some r') (h : r.Agrees r') : g.Copies r.symbol r'.symbol := by
  unfold Copies
  rw [alternativesOf_eq hr, alternativesOf_eq hr']
  exact h.1

/-- Where all alternatives are mirrored, all runs are. -/
theorem run_of_copies {s s' e : Symbol} {w : Trace} (h : g.Copies s s') (hrun : g.Run s w e) :
    ∃ e', g.Run s' w e' := by
  induction hrun with
  | stop s => exact ⟨s', Run.stop s'⟩
  | step hp hl hrest ih =>
      obtain ⟨q, hq, hmirror⟩ := h _ hp
      rw [← hmirror.visible_eq]
      rcases hmirror.2 with hlast | ⟨hown, hown'⟩
      · exact ⟨_, Run.step hq (hlast.trans hl) hrest⟩
      · -- back at the rule itself, so the mirror image is back at its own
        rw [hl] at hown
        have hback := Option.some.inj hown
        subst hback
        obtain ⟨e', hrest'⟩ := ih h
        exact ⟨e', Run.step hq hown' hrest'⟩

theorem observes_iff_of_agrees {r r' : Rule} (hr : g.rule? r.symbol = some r)
    (hr' : g.rule? r'.symbol = some r') (h : r.Agrees r') (t : Trace) :
    g.Observes r.symbol t ↔ g.Observes r'.symbol t := by
  refine ⟨fun ho => ho.of_runs fun w e hrun => ?_, fun ho => ho.of_runs fun w e hrun => ?_⟩
  · obtain ⟨e', hrun'⟩ := run_of_copies (copies_of_agrees hr hr' h) hrun
    exact ⟨w, e', hrun', List.prefix_rfl⟩
  · obtain ⟨e', hrun'⟩ := run_of_copies (copies_of_agrees hr' hr h.symm) hrun
    exact ⟨w, e', hrun', List.prefix_rfl⟩

end Grammar

end ScenarioFsp
