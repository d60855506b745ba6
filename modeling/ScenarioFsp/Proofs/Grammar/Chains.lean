import Mathlib.Data.List.Forall2
import ScenarioFsp.Proofs.Grammar.NormalForm

/-!
# Chains of single alternatives

Inlining takes the symbols in their order and each of them once, on the grammar that the
symbols before have left. What comes of it can be read off the grammar at the beginning.
From a symbol whose rule was lost, its single alternative leads on, and so do those of the
lost rules behind it, up to the first symbol that still has a rule or never had one. Such
a chain ends, and there is one from every symbol (`Contracts.chain`); every alternative
that is left is an old one, prolonged by the chain from its end (`Prolongs`).

One symbol inlined makes a chain of one step. Chains of the grammar in between are chains
of the first one, because a prolonged alternative goes along a chain itself
(`Contracts.lift`), so the description can be composed over the whole sweep
(`Contracts.trans`).

A symbol that cannot be inlined when it is taken cannot be inlined later either. So one
sweep leaves nothing to inline, also where single alternatives go round in a circle: each
of them is prolonged by those that were lost, and the last one comes back to itself.
-/

namespace ScenarioFsp

namespace Grammar

variable {g g' g'' : Grammar} {s t u m e symbol target : Symbol} {p p' p'' q : Production}
  {acts acts' : List Symbol}

/-- The only alternative of `s` ends at `t`. -/
def Hops (g : Grammar) (s t : Symbol) : Prop := ∃ q, g.alternativesOf s = [q] ∧ q.last? = some t

/-- From `s` the single alternatives of lost rules perform `acts` and lead to `e`, which is the
first symbol that was not lost. -/
inductive Chain (g g' : Grammar) : Symbol → List Symbol → Symbol → Prop where
  | stop {e : Symbol} : ¬g.Loses g' e → Chain g g' e [] e
  | pass {s m e : Symbol} {q : Production} {acts : List Symbol} :
      g.Loses g' s → g.alternativesOf s = [q] → q.last? = some m → Chain g g' m acts e →
        Chain g g' s (q.actions ++ acts) e

/-- `p'` is `p`, prolonged by the chain from its end. -/
def Prolongs (g g' : Grammar) (p p' : Production) : Prop :=
  ∃ s acts e, p.last? = some s ∧ g.Chain g' s acts e ∧ p'.symbols = p.symbols.dropLast ++ acts ++ [e]

/-- `g'` comes of `g` when rules are lost, not that of `Init`, and what is left is prolonged. -/
structure Contracts (g g' : Grammar) : Prop where
  rules : ∀ s, g'.hasRule s = true → g.hasRule s = true
  start : ¬g.Loses g' start
  chain : ∀ s, ∃ acts e, g.Chain g' s acts e
  kept : ∀ s, g'.hasRule s = true →
    List.Forall₂ (g.Prolongs g') (g.alternativesOf s) (g'.alternativesOf s)

/-! ## Chains -/

theorem Chain.not_loses (h : g.Chain g' s acts e) : ¬g.Loses g' e := by
  induction h with
  | stop hnot => exact hnot
  | pass _ _ _ _ ih => exact ih

/-- There is one chain from a symbol at most. -/
theorem Chain.unique {e' : Symbol} (h : g.Chain g' s acts e) (h' : g.Chain g' s acts' e') :
    acts' = acts ∧ e' = e := by
  induction h generalizing acts' e' with
  | stop hnot =>
      cases h' with
      | stop _ => exact ⟨rfl, rfl⟩
      | pass hloses _ _ _ => exact absurd hloses hnot
  | pass hloses honly hl _ ih =>
      cases h' with
      | stop hnot => exact absurd hloses hnot
      | pass _ honly' hl' hrest' =>
          obtain rfl := List.singleton_inj.mp (honly.symm.trans honly')
          obtain rfl := Option.some.inj (hl.symm.trans hl')
          obtain ⟨rfl, rfl⟩ := ih hrest'
          exact ⟨rfl, rfl⟩

/-- A chain goes along single alternatives. -/
theorem Chain.hops (h : g.Chain g' s acts e) : Relation.ReflTransGen g.Hops s e := by
  induction h with
  | stop _ => exact .refl
  | pass _ honly hl _ ih => exact .head ⟨_, honly, hl⟩ ih

/-- Where a chain ends another one goes on, if more rules are lost. -/
theorem Chain.follow (hrules : ∀ s, g''.hasRule s = true → g'.hasRule s = true)
    (h : g.Chain g' s acts m) (h' : g.Chain g'' m acts' e) : g.Chain g'' s (acts ++ acts') e := by
  induction h with
  | stop _ => exact h'
  | pass hloses honly hl _ ih =>
      rw [List.append_assoc]
      exact .pass ⟨hloses.1, hasRule_eq_false (hrules _) hloses.2⟩ honly hl (ih h')

theorem prolongs_self (hl : p.last? = some e) (h : ¬g.Loses g' e) : g.Prolongs g' p p := by
  refine ⟨e, [], e, hl, .stop h, ?_⟩
  rw [List.append_nil]
  exact (List.dropLast_append_getLast? e hl).symm

/-- Where a prolonged alternative ends. -/
theorem last?_of_symbols_eq {l : List Symbol} (h : p.symbols = l ++ [e]) : p.last? = some e := by
  unfold Production.last?
  rw [h, List.getLast?_concat]

/-- A prolonged alternative performs what the old one does and then what the chain does. -/
theorem Sound.actions_of_prolongs (hg : g.Sound) (hs : g'.hasRule s = true)
    (hq : q ∈ g.alternativesOf s) (hl : q.last? = some m) (hchain : g.Chain g' m acts e)
    (hsymbols : p.symbols = q.symbols.dropLast ++ acts ++ [e]) :
    p.actions = q.actions ++ acts := by
  have hfirst := Production.symbols_eq_cons (hg.first? hq)
  by_cases ht : q.tail = []
  · -- a production of one symbol ends at its own rule, which was not lost
    rw [Production.last?_eq_of_tail_nil (hg.first? hq) ht] at hl
    obtain rfl := Option.some.inj hl
    have hnot : ¬g.Loses g' s := fun hloses => absurd (hs.symm.trans hloses.2) (by simp)
    obtain ⟨rfl, rfl⟩ := (Chain.stop hnot).unique hchain
    rw [hfirst, ht] at hsymbols
    unfold Production.actions Production.tail
    rw [hsymbols, hfirst, ht]
    rfl
  · have htail : p.tail = q.actions ++ acts ++ [e] := by
      unfold Production.tail
      rw [hsymbols, hfirst, List.dropLast_cons_of_ne_nil ht]
      rfl
    unfold Production.actions
    rw [htail, List.dropLast_concat]
    rfl

/-! ## Contracted grammars -/

/-- What is left comes of what was there. -/
theorem exists_of_forall₂ {α : Type} {R : α → α → Prop} {l m : List α} (h : List.Forall₂ R l m)
    {b : α} (hb : b ∈ m) : ∃ a ∈ l, R a b := by
  induction h with
  | nil => exact absurd hb List.not_mem_nil
  | cons hab _ ih =>
      rcases List.mem_cons.mp hb with rfl | hb
      · exact ⟨_, List.mem_cons_self, hab⟩
      · obtain ⟨a, ha, hab⟩ := ih hb
        exact ⟨a, List.mem_cons_of_mem _ ha, hab⟩

/-- A rule that has a single alternative had a single one before. -/
theorem Contracts.exists_only (h : g.Contracts g') (hs : g'.hasRule s = true)
    (honly : g'.alternativesOf s = [p']) : ∃ p, g.alternativesOf s = [p] ∧ g.Prolongs g' p p' := by
  have hkept := h.kept s hs
  rw [honly] at hkept
  obtain ⟨p, rest, hprolongs, hrest, halts⟩ := List.forall₂_cons_right_iff.mp hkept
  rw [List.forall₂_nil_right_iff.mp hrest] at halts
  exact ⟨p, halts, hprolongs⟩

/-- A chain of the contracted grammar is a chain of the first one, once more rules are lost. -/
theorem Contracts.lift (h : g.Contracts g') (hg : g.Sound)
    (hrules : ∀ s, g''.hasRule s = true → g'.hasRule s = true) (hs : ¬g.Loses g' s)
    (hchain : g'.Chain g'' s acts e) : g.Chain g'' s acts e := by
  induction hchain with
  | @stop e hnot =>
      refine .stop fun hloses => ?_
      cases hrule : g'.hasRule e with
      | true => exact hnot ⟨hrule, hloses.2⟩
      | false => exact hs ⟨hloses.1, hrule⟩
  | @pass s m' e p acts hloses honly' hl' _ ih =>
      -- the single alternative of the contracted grammar goes along a chain itself
      obtain ⟨q, honly, m, acts₁, m₁, hl, hchain, hsymbols⟩ := h.exists_only hloses.1 honly'
      obtain rfl := Option.some.inj ((last?_of_symbols_eq hsymbols).symm.trans hl')
      have hq : q ∈ g.alternativesOf s := by
        rw [honly]
        exact List.mem_singleton.mpr rfl
      rw [hg.actions_of_prolongs hloses.1 hq hl hchain hsymbols, List.append_assoc]
      exact .pass ⟨h.rules s hloses.1, hloses.2⟩ honly hl
        (hchain.follow hrules (ih hchain.not_loses))

/-- Chains one behind the other. -/
theorem Contracts.chain_trans (h : g.Contracts g') (hg : g.Sound)
    (hrules : ∀ s, g''.hasRule s = true → g'.hasRule s = true) (hchain : g.Chain g' s acts m)
    (hchain' : g'.Chain g'' m acts' e) : g.Chain g'' s (acts ++ acts') e :=
  hchain.follow hrules (h.lift hg hrules hchain.not_loses hchain')

theorem Contracts.prolongs_trans (h : g.Contracts g') (hg : g.Sound)
    (hrules : ∀ s, g''.hasRule s = true → g'.hasRule s = true) (hp : g.Prolongs g' p p')
    (hp' : g'.Prolongs g'' p' p'') : g.Prolongs g'' p p'' := by
  obtain ⟨s, acts, m, hl, hchain, hsymbols⟩ := hp
  obtain ⟨m', acts', e, hl', hchain', hsymbols'⟩ := hp'
  obtain rfl := Option.some.inj ((last?_of_symbols_eq hsymbols).symm.trans hl')
  refine ⟨s, acts ++ acts', e, hl, h.chain_trans hg hrules hchain hchain', ?_⟩
  rw [hsymbols', hsymbols, List.dropLast_concat, ← List.append_assoc]

theorem forall₂_trans {α : Type} {P Q R : α → α → Prop} {l m n : List α}
    (hcomp : ∀ a b c, P a b → Q b c → R a c) (h : List.Forall₂ P l m) (h' : List.Forall₂ Q m n) :
    List.Forall₂ R l n := by
  induction h generalizing n with
  | nil =>
      cases h'
      exact .nil
  | cons hab _ ih =>
      cases h' with
      | cons hbc hrest => exact .cons (hcomp _ _ _ hab hbc) (ih hrest)

/-- **Contracting a contracted grammar contracts the first one.** -/
theorem Contracts.trans (h : g.Contracts g') (hg : g.Sound) (h' : g'.Contracts g'') :
    g.Contracts g'' := by
  refine ⟨fun s hs => h.rules s (h'.rules s hs), fun hloses => ?_, fun s => ?_, fun s hs => ?_⟩
  · cases hrule : g'.hasRule Grammar.start with
    | true => exact h'.start ⟨hrule, hloses.2⟩
    | false => exact h.start ⟨hloses.1, hrule⟩
  · obtain ⟨acts, m, hchain⟩ := h.chain s
    obtain ⟨acts', e, hchain'⟩ := h'.chain m
    exact ⟨_, e, h.chain_trans hg h'.rules hchain hchain'⟩
  · have hcomp : ∀ a b c, g.Prolongs g' a b → g'.Prolongs g'' b c → g.Prolongs g'' a c :=
      fun _ _ _ => h.prolongs_trans hg h'.rules
    exact forall₂_trans hcomp (h.kept s (h'.rules s hs)) (h'.kept s hs)

theorem not_loses_self : ¬g.Loses g s := fun h => absurd (h.1.symm.trans h.2) (by simp)

theorem Sound.contracts_self (hg : g.Sound) : g.Contracts g where
  rules _ hs := hs
  start := not_loses_self
  chain s := ⟨[], s, .stop not_loses_self⟩
  kept s _ := by
    refine List.forall₂_same.mpr fun p hp => ?_
    obtain ⟨e, hl⟩ := hg.exists_last? hp
    exact prolongs_self hl not_loses_self

/-- A symbol inlined makes a chain of one step, by the alternative that stands for it. -/
theorem Sound.contracts_inlined (hg : g.Sound) (h : g.Single symbol p target)
    (hstart : symbol ≠ start) : g.Contracts (g.inlined symbol p) := by
  have hpass : g.Chain (g.inlined symbol p) symbol p.actions target := by
    have hlost : g.Loses (g.inlined symbol p) symbol :=
      loses_inlined_iff.mpr ⟨hasRule_of_mem h.mem, rfl⟩
    have hstop : ¬g.Loses (g.inlined symbol p) target := fun hloses =>
      h.leaves (loses_inlined_iff.mp hloses).2
    have hchain := Chain.pass hlost h.only h.leads (.stop hstop)
    rwa [List.append_nil] at hchain
  refine ⟨fun s hs => (hasRule_inlined.mp hs).1, fun hloses => ?_, fun s => ?_, fun s hs => ?_⟩
  · exact hstart (loses_inlined_iff.mp hloses).2.symm
  · by_cases hs : s = symbol
    · subst hs
      exact ⟨_, target, hpass⟩
    · exact ⟨[], s, .stop fun hloses => hs (loses_inlined_iff.mp hloses).2⟩
  · obtain ⟨-, hne⟩ := hasRule_inlined.mp hs
    rw [alternativesOf_inlined, if_neg hne, List.forall₂_map_right_iff, List.forall₂_same]
    intro q hq
    obtain ⟨e, hl⟩ := hg.exists_last? hq
    by_cases he : e = symbol
    · subst he
      rw [if_pos hl]
      refine ⟨e, _, target, hl, hpass, ?_⟩
      have htail : p.tail = p.actions ++ [target] := by
        have hne := hg.tail_ne_nil_of_single h
        refine (List.dropLast_append_getLast? target ?_).symm
        rw [Option.mem_def, ← Production.last?_eq_getLast?_tail hne]
        exact h.leads
      rw [List.append_assoc, ← htail]
      rfl
    · rw [if_neg fun hsome => he (Option.some.inj (hl.symm.trans hsome))]
      exact prolongs_self hl fun hloses => he (loses_inlined_iff.mp hloses).2

/-! ## The sweep -/

theorem Inlines.contracts {symbols : List Symbol} {n : Nat} (h : g.Inlines symbols g' n)
    (hg : g.Sound) : g.Contracts g' := by
  induction h with
  | nil g => exact hg.contracts_self
  | skip _ _ ih => exact ih hg
  | take hs hsingle _ ih =>
      exact (hg.contracts_inlined hsingle hs).trans hg (ih (hg.inlined hsingle))

/-- What cannot be inlined cannot be inlined after another symbol was. -/
theorem Sound.not_inlinable_inlined (hg : g.Sound) (hnot : ¬g.Inlinable s ∨ s = symbol) :
    ¬(g.inlined symbol p).Inlinable s := by
  intro hinl
  obtain ⟨hstart, q', e, honly', hl', hne⟩ := hinl
  have hq' : q' ∈ (g.inlined symbol p).alternativesOf s := by
    rw [honly']
    exact List.mem_singleton.mpr rfl
  obtain ⟨hs, -⟩ := mem_alternativesOf_inlined_iff.mp hq'
  rw [alternativesOf_inlined, if_neg hs, List.map_eq_singleton_iff] at honly'
  obtain ⟨q, honly, rfl⟩ := honly'
  have hq : q ∈ g.alternativesOf s := by
    rw [honly]
    exact List.mem_singleton.mpr rfl
  obtain ⟨e', hl⟩ := hg.exists_last? hq
  -- its single alternative comes back to it, and so was not prolonged
  have he' : e' = s := by
    refine Classical.byContradiction fun hleaves => ?_
    exact (hnot.resolve_right hs) ⟨hstart, q, e', honly, hl, hleaves⟩
  subst he'
  rw [if_neg fun hsome => hs (Option.some.inj (hl.symm.trans hsome))] at hl'
  exact hne (Option.some.inj (hl'.symm.trans hl))

/-- What was taken, or could not be inlined at the beginning, cannot be inlined at the end. -/
theorem Inlines.not_inlinable_after {symbols : List Symbol} {n : Nat}
    (h : g.Inlines symbols g' n) (hg : g.Sound) (hs : ¬g.Inlinable s ∨ s ∈ symbols) :
    ¬g'.Inlinable s := by
  induction h with
  | nil g => exact hs.resolve_right List.not_mem_nil
  | skip hnot _ ih =>
      refine ih hg (hs.elim Or.inl fun hmem => ?_)
      rcases List.mem_cons.mp hmem with rfl | hmem
      · exact Or.inl hnot
      · exact Or.inr hmem
  | take _ hsingle _ ih =>
      refine ih (hg.inlined hsingle) ?_
      rcases hs with hs | hmem
      · exact Or.inl (hg.not_inlinable_inlined (Or.inl hs))
      · rcases List.mem_cons.mp hmem with rfl | hmem
        · exact Or.inl (hg.not_inlinable_inlined (Or.inr rfl))
        · exact Or.inr hmem

/-- **Nothing is left to inline after one sweep over all symbols.** -/
theorem Inlines.idle {n : Nat} (h : g.Inlines g.symbols g' n) (hg : g.Sound) (s : Symbol) :
    ¬g'.Inlinable s := by
  refine h.not_inlinable_after hg ?_
  cases hs : g.hasRule s with
  | true => exact Or.inr (mem_symbols_iff.mpr hs)
  | false =>
      refine Or.inl fun hinl => ?_
      rw [hasRule_of_inlinable hinl] at hs
      exact absurd hs (by simp)

/-! ## Circles -/

theorem Hops.unique (h : g.Hops s t) (h' : g.Hops s u) : t = u := by
  obtain ⟨q, honly, hl⟩ := h
  obtain ⟨q', honly', hl'⟩ := h'
  obtain rfl := List.singleton_inj.mp (honly.symm.trans honly')
  exact Option.some.inj (hl.symm.trans hl')

theorem Hops.hasRule (h : g.Hops s t) : g.hasRule s = true := by
  obtain ⟨q, honly, -⟩ := h
  refine hasRule_of_mem (p := q) ?_
  rw [honly]
  exact List.mem_singleton.mpr rfl

/-- On a circle every symbol leads back. -/
theorem hops_back (hcircle : Relation.TransGen g.Hops s s) (h : Relation.ReflTransGen g.Hops s t) :
    Relation.TransGen g.Hops t s := by
  induction h with
  | refl => exact hcircle
  | tail _ hstep ih =>
      obtain ⟨v, hnext, hback⟩ := Relation.TransGen.head'_iff.mp ih
      rw [hstep.unique hnext]
      rcases Relation.reflTransGen_iff_eq_or_transGen.mp hback with rfl | hback
      · exact hcircle
      · exact hback

/-- From a symbol that keeps its rule and gets back to it by a chain, the single alternatives lead
to no other symbol that keeps its rule. -/
theorem Chain.circle (ht : ¬g.Loses g' t) (hnext : g.Hops t m) (hchain : g.Chain g' m acts t)
    (h : Relation.ReflTransGen g.Hops t u) : ∃ acts, g.Chain g' u acts t := by
  induction h with
  | refl => exact ⟨[], .stop ht⟩
  | tail _ hstep ih =>
      obtain ⟨acts', hback⟩ := ih
      cases hback with
      | stop _ =>
          rw [hstep.unique hnext]
          exact ⟨acts, hchain⟩
      | pass _ honly hl hrest =>
          rw [hstep.unique ⟨_, honly, hl⟩]
          exact ⟨_, hrest⟩

/-- **Of a circle of single alternatives without `Init` one rule is left**, and it loops. -/
theorem Contracts.exists_survivor (h : g.Contracts g') (hidle : ∀ s, ¬g'.Inlinable s)
    (hcircle : Relation.TransGen g.Hops s s) (hstart : ¬Relation.ReflTransGen g.Hops s Grammar.start) :
    ∃ t, Relation.ReflTransGen g.Hops s t ∧ g'.Hops t t ∧
      ∀ u, Relation.ReflTransGen g.Hops s u → (g'.hasRule u = true ↔ u = t) := by
  -- the chain from `s` stops on the circle, at a symbol that has a rule and so keeps it
  obtain ⟨acts₀, t, hchain⟩ := h.chain s
  have hst := hchain.hops
  have hback := hops_back hcircle hst
  obtain ⟨m, hnext, -⟩ := Relation.TransGen.head'_iff.mp hback
  have hrule : g'.hasRule t = true := by
    cases hrule : g'.hasRule t with
    | true => rfl
    | false => exact absurd ⟨hnext.hasRule, hrule⟩ hchain.not_loses
  -- its alternative is prolonged until it comes back, for nothing is left to inline
  have hkept := h.kept t hrule
  obtain ⟨q, honly, hl⟩ := hnext
  rw [honly] at hkept
  obtain ⟨q', rest, hprolongs, hrest, honly'⟩ := List.forall₂_cons_left_iff.mp hkept
  rw [List.forall₂_nil_left_iff.mp hrest] at honly'
  obtain ⟨m', acts, e, hl', hround, hsymbols⟩ := hprolongs
  obtain rfl := Option.some.inj (hl.symm.trans hl')
  have hlast := last?_of_symbols_eq hsymbols
  have he : e = t := by
    refine Classical.byContradiction fun hleaves => hidle t ⟨?_, q', e, honly', hlast, hleaves⟩
    rintro rfl
    exact hstart hst
  subst he
  refine ⟨e, hst, ⟨q', honly', hlast⟩, fun u hu => ⟨fun hurule => ?_, fun hue => hue ▸ hrule⟩⟩
  obtain ⟨acts', hchain'⟩ := hround.circle hchain.not_loses ⟨q, honly, hl⟩
    (hback.to_reflTransGen.trans hu)
  have hkeeps : ¬g.Loses g' u := fun hloses => absurd (hurule.symm.trans hloses.2) (by simp)
  exact ((Chain.stop hkeeps).unique hchain').2.symm

/-! ## One call -/

/--
**Inlining is complete in one call.** No rule but that of `Init` is left that has a single
alternative to another symbol, so a second call inlines nothing. `Init` keeps its rule. As
many rules are counted as were lost, and no alternative ends at a symbol whose rule was
lost. Every rule that is left has its alternatives in their order, each of them prolonged by
the chain of single alternatives from its end up to the first symbol that was not lost;
there is exactly one such chain from every symbol. Of every circle of single alternatives
that does not go through `Init` exactly one rule is left, and it loops.
-/
theorem inlineSingles_complete {g : Grammar} (hg : g.check = .ok ()) :
    ∃ g' n, g.inlineSingles = .ok ⟨g', n⟩ ∧ g'.check = .ok () ∧
      (∀ r ∈ g'.ruleList, r.symbol ≠ start → ∀ p, r.alternatives = [p] →
        p.last? = some r.symbol) ∧
      g'.inlineSingles = .ok ⟨g', 0⟩ ∧
      (∀ s, g'.hasRule s = true → g.hasRule s = true) ∧ ¬g.Loses g' start ∧
      n = (g.lostSymbols g').length ∧
      (∀ p ∈ g'.alternatives, ∀ e, p.last? = some e → ¬g.Loses g' e) ∧
      (∀ s, g'.hasRule s = true →
        List.Forall₂ (g.Prolongs g') (g.alternativesOf s) (g'.alternativesOf s)) ∧
      (∀ s, ∃! chain : List Symbol × Symbol, g.Chain g' s chain.1 chain.2) ∧
      ∀ s, Relation.TransGen g.Hops s s → ¬Relation.ReflTransGen g.Hops s start →
        ∃ t, Relation.ReflTransGen g.Hops s t ∧ g'.Hops t t ∧
          ∀ u, Relation.ReflTransGen g.Hops s u → (g'.hasRule u = true ↔ u = t) := by
  have hsound := check_eq_ok_iff.mp hg
  obtain ⟨⟨g', n⟩, hinline, hinlines⟩ := hsound.exists_inlines g.symbols
  change g.Inlines g.symbols g' n at hinlines
  have hsound' : g'.Sound := hinlines.steps.sound hsound
  have hidle := hinlines.idle hsound
  have hcontracts := hinlines.contracts hsound
  refine ⟨g', n, hinline, check_eq_ok_iff.mpr hsound', fun r hr hstart p hp => ?_,
    hsound'.apply_eq_ok_self (r := .inlineSingles) hidle, hcontracts.rules, hcontracts.start,
    ?_, fun p hp e hl => ?_, hcontracts.kept, fun s => ?_,
    fun s => hcontracts.exists_survivor hidle⟩
  · have honly : g'.alternativesOf r.symbol = [p] :=
      (alternativesOf_eq (hsound'.mem_ruleList_iff.mp hr)).trans hp
    obtain ⟨e, hl⟩ := hsound'.exists_last? (s := r.symbol) (p := p) (by simp [honly])
    refine Classical.byContradiction fun hleaves => hidle r.symbol ⟨hstart, p, e, honly, hl, ?_⟩
    rintro rfl
    exact hleaves hl
  · have hlost := numRules_eq_add_lost hcontracts.rules
    have hcount := hinlines.numRules_eq
    omega
  · obtain ⟨s, hps⟩ := mem_alternatives_iff.mp hp
    obtain ⟨q, -, hprolongs⟩ := exists_of_forall₂ (hcontracts.kept s (hasRule_of_mem hps)) hps
    obtain ⟨m, acts, e', -, hchain, hsymbols⟩ := hprolongs
    obtain rfl := Option.some.inj (hl.symm.trans (last?_of_symbols_eq hsymbols))
    exact hchain.not_loses
  · obtain ⟨acts, e, hchain⟩ := hcontracts.chain s
    refine ⟨(acts, e), hchain, fun chain hchain' => ?_⟩
    obtain ⟨hacts, he⟩ := hchain.unique hchain'
    exact Prod.ext hacts he

/-- `Init` gets to `Final` by way of `C_X` and `C_Y`, and to the circle of `R_1` and `R_2`. -/
def ringRoad : Grammar :=
  (((((⟨.empty⟩ : Grammar).store "C_X" ⟨"C_X", [⟨["C_X", "c", "C_Y"]⟩]⟩).store "C_Y"
    ⟨"C_Y", [⟨["C_Y", "d", "Final"]⟩]⟩).store "Init"
      ⟨"Init", [⟨["Init", "a", "C_X"]⟩, ⟨["Init", "b", "R_1"]⟩]⟩).store "R_1"
        ⟨"R_1", [⟨["R_1", "e", "R_2"]⟩]⟩).store "R_2" ⟨"R_2", [⟨["R_2", "f", "R_1"]⟩]⟩

theorem inlineSingles_complete_ringRoad :
    ringRoad.check = .ok () ∧ Relation.TransGen ringRoad.Hops "R_1" "R_1" ∧
      ¬Relation.ReflTransGen ringRoad.Hops "R_1" start ∧
      ∃ g', ringRoad.inlineSingles = .ok ⟨g', 3⟩ ∧ g'.inlineSingles = .ok ⟨g', 0⟩ ∧
        List.Forall₂ (ringRoad.Prolongs g') [⟨["Init", "a", "C_X"]⟩, ⟨["Init", "b", "R_1"]⟩]
          [⟨["Init", "a", "c", "d", "Final"]⟩, ⟨["Init", "b", "e", "R_2"]⟩] ∧
        ∃ t, g'.Hops t t ∧
          ∀ u, Relation.ReflTransGen ringRoad.Hops "R_1" u → (g'.hasRule u = true ↔ u = t) := by
  have hfirst : ringRoad.Hops "R_1" "R_2" := ⟨_, rfl, rfl⟩
  have hsecond : ringRoad.Hops "R_2" "R_1" := ⟨_, rfl, rfl⟩
  have hcircle : Relation.TransGen ringRoad.Hops "R_1" "R_1" := .head hfirst (.single hsecond)
  have hstays : ∀ u, Relation.ReflTransGen ringRoad.Hops "R_1" u → u = "R_1" ∨ u = "R_2" := by
    intro u hu
    induction hu with
    | refl => exact Or.inl rfl
    | tail _ hstep ih =>
        rcases ih with rfl | rfl
        · exact Or.inr (hstep.unique hfirst)
        · exact Or.inl (hstep.unique hsecond)
  have hstart : ¬Relation.ReflTransGen ringRoad.Hops "R_1" start := by
    intro h
    rcases hstays _ h with hinit | hinit <;> exact absurd hinit (by decide)
  obtain ⟨g', n, hinline, -, -, hagain, -, -, -, -, hkept, -, hcircles⟩ :=
    inlineSingles_complete (g := ringRoad) rfl
  have hcount : ringRoad.inlineSingles.map Change.count = .ok 3 := by decide +kernel
  rw [hinline] at hcount
  obtain rfl := Except.ok.inj hcount
  have halts : ringRoad.inlineSingles.map (fun c => (c.grammar.hasRule "Init",
      c.grammar.alternativesOf "Init")) = .ok (true,
        [⟨["Init", "a", "c", "d", "Final"]⟩, ⟨["Init", "b", "e", "R_2"]⟩]) := by decide +kernel
  rw [hinline] at halts
  obtain ⟨hrule, hinit⟩ := Prod.mk.inj (Except.ok.inj halts)
  have hprolongs := hkept "Init" hrule
  rw [hinit] at hprolongs
  obtain ⟨t, -, hloop, hleft⟩ := hcircles "R_1" hcircle hstart
  exact ⟨rfl, hcircle, hstart, g', hinline, hagain, hprolongs, t, hloop, hleft⟩

end Grammar

end ScenarioFsp
