import ScenarioFsp.Proofs.Flow.Points
import ScenarioFsp.Proofs.Grammar.Building
import ScenarioFsp.Proofs.References

/-!
# The derived grammar

Whatever lifelines are given, a grammar is derived from them without failure
(`Derivation.exists_ofLifelines`). If all references resolve, that of a component
offers at a point the productions of the lifelines whose start leads there by links.
A production whose start is linked to nothing stays where it is.
-/

namespace ScenarioFsp

theorem mem_extract_iff {lifelines : List (String × Lifeline)} {q : Production} :
    q ∈ extract lifelines ↔
      ∃ name events, (name, events) ∈ lifelines ∧ q ∈ events.productions name := by
  unfold extract
  rw [OrderedSet.mem_ofList, List.mem_flatMap]
  refine ⟨fun h => ?_, fun h => ?_⟩
  · obtain ⟨⟨name, events⟩, hmem, hq⟩ := h
    exact ⟨name, events, hmem, hq⟩
  · obtain ⟨name, events, hmem, hq⟩ := h
    exact ⟨(name, events), hmem, hq⟩

theorem mem_reroot_iff {relation : Relation} {ps : OrderedSet Production} {p : Production} :
    p ∈ reroot relation ps ↔ ∃ q ∈ ps, p ∈ q.copies relation := by
  unfold reroot
  rw [OrderedSet.mem_ofList, List.mem_flatMap]
  rfl

/-- The copies of a production start where its start leads, or where it stood. -/
theorem Production.mem_copies_iff {relation : Relation} {p q : Production} {x : Symbol}
    (hq : q.first? = some x) :
    p ∈ q.copies relation ↔
      (∃ y, relation.Relates x y ∧ p = q.startingAt y) ∨
        ((∀ y, ¬relation.Relates x y) ∧ p = q) := by
  unfold copies
  rw [hq, Option.map_some, Option.getD_some]
  cases himage : relation.image x with
  | nil =>
      have hnone : ∀ y, ¬relation.Relates x y := by
        intro y hy
        rw [← Relation.mem_image_iff, himage] at hy
        exact absurd hy List.not_mem_nil
      rw [List.mem_singleton]
      exact ⟨fun h => Or.inr ⟨hnone, h⟩, fun h => h.elim (fun ⟨y, hy, _⟩ => absurd hy (hnone y))
        fun h => h.2⟩
  | cons z zs =>
      have hmem : ∀ y, y ∈ z :: zs ↔ relation.Relates x y := by
        intro y
        rw [← himage, Relation.mem_image_iff]
      dsimp only
      rw [List.mem_map]
      refine ⟨fun h => ?_, fun h => ?_⟩
      · obtain ⟨y, hy, rfl⟩ := h
        exact Or.inl ⟨y, (hmem y).mp hy, rfl⟩
      · rcases h with ⟨y, hy, rfl⟩ | ⟨hnone, -⟩
        · exact ⟨y, (hmem y).mpr hy, rfl⟩
        · exact absurd ((hmem z).mp List.mem_cons_self) (hnone z)

/-! ## No step fails -/

namespace Derivation

/-- What is put together, step by step, in the derivation of a component. -/
structure Follows (d : Derivation) (common : Relation) (component : String)
    (lifelines : List (String × Lifeline)) : Prop where
  component_eq : d.component = component
  lifelines_eq : d.lifelines = lifelines
  productions_eq : d.productions = extract lifelines
  rooted_eq : d.rooted = reroot (componentRelation common lifelines) (extract lifelines)
  grammar_eq : Grammar.ofRules (groupByStart d.rooted.toList) = .ok d.grammar

/-- **Any lifelines make a derivation**, with a sound grammar of what was copied. -/
theorem exists_ofLifelines (common : Relation) (component : String)
    (lifelines : List (String × Lifeline)) :
    ∃ d, ofLifelines common component lifelines = .ok d ∧ d.Follows common component lifelines ∧
      d.grammar.Sound ∧
      ∀ s p, p ∈ d.grammar.alternativesOf s ↔ p ∈ d.rooted ∧ p.first? = some s := by
  let rooted := reroot (componentRelation common lifelines) (extract lifelines)
  obtain ⟨g, hg, hsound, halts⟩ := Grammar.exists_ofRules_groupByStart rooted.toList
  refine ⟨⟨component, lifelines, extract lifelines, rooted, g⟩, ?_,
    ⟨rfl, rfl, rfl, rfl, hg⟩, hsound, halts⟩
  unfold ofLifelines
  dsimp only
  rw [hg]
  simp only [Except.bind, Grammar.check_eq_ok_iff.mpr hsound, Except.map]
  rfl

theorem follows_of_ofLifelines {common : Relation} {component : String}
    {lifelines : List (String × Lifeline)} {d : Derivation}
    (h : ofLifelines common component lifelines = .ok d) :
    d.Follows common component lifelines := by
  obtain ⟨d', hd', hfollows, -⟩ := exists_ofLifelines common component lifelines
  rw [Except.ok.inj (h.symm.trans hd')]
  exact hfollows

end Derivation

namespace Specification

variable {spec : Specification} {c : Component}

theorem commonRelation_eq_ok (h : spec.Resolves c) :
    spec.commonRelation = .ok (.ofPairs spec.commonPairs) :=
  commonRelation_of_declared (forall_references_iff.mpr
    ⟨fun e he => ⟨h.sources e he, h.targets e he⟩, h.initial, h.finals⟩)

/-- A component is derived from its lifelines if and only if they are all in declared scenarios. -/
theorem deriveComponent_cases {id : ComponentId} (hc : spec.component? id = some c)
    (common : Relation) :
    ((∀ s ∈ c.lifelines.keys, spec.declares s = true) ∧
        spec.deriveComponent common id =
          Derivation.ofLifelines common c.name (spec.lifelinesOf c)) ∨
      ∃ s ∈ c.lifelines.keys, spec.declares s = false ∧
        spec.deriveComponent common id =
          .error (.unknownScenario s s!"instance of component {c.name}") := by
  unfold deriveComponent
  rw [hc]
  dsimp only
  rcases spec.strayLifeline?_cases c with ⟨hall, hnone⟩ | ⟨s, hs, hnot, hsome⟩
  · rw [hnone]
    exact Or.inl ⟨hall, rfl⟩
  · rw [hsome]
    exact Or.inr ⟨s, hs, hnot, rfl⟩

theorem deriveComponent_eq_ofLifelines {id : ComponentId} (hc : spec.component? id = some c)
    (hres : spec.Resolves c) (common : Relation) :
    spec.deriveComponent common id =
      Derivation.ofLifelines common c.name (spec.lifelinesOf c) := by
  rcases deriveComponent_cases hc common with ⟨-, hd⟩ | ⟨s, hs, hnot, -⟩
  · exact hd
  · rw [hres.lifelines s hs] at hnot
    exact absurd hnot (by simp)

/-! ## What is offered -/

/-- The closed relation of a component leads along links. -/
theorem relates_componentRelation_iff {a b : Symbol} :
    (componentRelation (.ofPairs spec.commonPairs) (spec.lifelinesOf c)).Relates a b ↔
      Relation.TransGen (spec.Links c) a b := by
  unfold componentRelation
  rw [Relation.relates_closure_iff]
  have hlinks : ((Relation.ofPairs spec.commonPairs).union
      (.ofPairs ((spec.lifelinesOf c).flatMap fun p => p.2.aliases p.1))).Relates =
      spec.Links c := by
    funext x y
    exact propext relates_iff_links
  rw [hlinks]

/-- `x` leads to `y` along links, or is `y` itself and linked to nothing. -/
def LeadsTo (spec : Specification) (c : Component) (x y : Symbol) : Prop :=
  Relation.TransGen (spec.Links c) x y ∨ ((∀ z, ¬spec.Links c x z) ∧ x = y)

theorem mem_copies_componentRelation_iff {p q : Production} {x : Symbol}
    (hq : q.first? = some x) :
    p ∈ q.copies (componentRelation (.ofPairs spec.commonPairs) (spec.lifelinesOf c)) ↔
      ∃ y, spec.LeadsTo c x y ∧ p = q.startingAt y := by
  rw [Production.mem_copies_iff hq]
  simp only [relates_componentRelation_iff]
  refine ⟨fun h => ?_, fun h => ?_⟩
  · rcases h with ⟨y, hy, rfl⟩ | ⟨hnone, rfl⟩
    · exact ⟨y, Or.inl hy, rfl⟩
    · refine ⟨x, Or.inr ⟨fun z hz => hnone z (.single hz), rfl⟩, ?_⟩
      exact (Production.startingAt_self hq).symm
  · obtain ⟨y, hy | ⟨hnone, rfl⟩, rfl⟩ := h
    · exact Or.inl ⟨y, hy, rfl⟩
    · refine Or.inr ⟨fun z hz => ?_, Production.startingAt_self hq⟩
      obtain ⟨m, hm, -⟩ := Relation.TransGen.head'_iff.mp hz
      exact hnone m hm

theorem exists_first? {scenario : String} {events : Lifeline} {q : Production}
    (h : q ∈ events.productions scenario) : ∃ x, q.first? = some x := by
  rcases Lifeline.first?_of_mem_productions h with hfirst | ⟨label, -, hfirst⟩
  · exact ⟨_, hfirst⟩
  · exact ⟨_, hfirst⟩

/-- `g` offers at a point what lifelines produce at points that lead to it. -/
def Offers (spec : Specification) (c : Component) (g : Grammar) : Prop :=
  ∀ y p, p ∈ g.alternativesOf y ↔
    ∃ s q x, spec.declares s = true ∧ q ∈ (c.lifeline s).productions (spec.nameOf s) ∧
      q.first? = some x ∧ spec.LeadsTo c x y ∧ p = q.startingAt y

/-- **The grammar of a component whose references resolve is always derived**, and offers at every
point what leads to it. -/
theorem exists_derivation {id : ComponentId} (hc : spec.component? id = some c)
    (hres : spec.Resolves c) :
    ∃ d, spec.deriveComponent (.ofPairs spec.commonPairs) id = .ok d ∧ d.grammar.Sound ∧
      spec.Offers c d.grammar := by
  obtain ⟨d, hd, hfollows, hsound, halts⟩ := Derivation.exists_ofLifelines
    (.ofPairs spec.commonPairs) c.name (spec.lifelinesOf c)
  refine ⟨d, (deriveComponent_eq_ofLifelines hc hres _).trans hd, hsound, fun y p => ?_⟩
  rw [halts, hfollows.rooted_eq, mem_reroot_iff]
  refine ⟨fun h => ?_, fun h => ?_⟩
  · obtain ⟨⟨q, hq, hcopy⟩, hfirst⟩ := h
    obtain ⟨name, events, hmem, hprod⟩ := mem_extract_iff.mp hq
    obtain ⟨s, hs, rfl, rfl⟩ := mem_lifelinesOf_iff.mp hmem
    obtain ⟨x, hx⟩ := exists_first? hprod
    obtain ⟨y', hy', rfl⟩ := (mem_copies_componentRelation_iff hx).mp hcopy
    obtain rfl : y' = y := Option.some.inj hfirst
    exact ⟨s, q, x, hs, hprod, hx, hy', rfl⟩
  · obtain ⟨s, q, x, hs, hprod, hx, hy, rfl⟩ := h
    refine ⟨⟨q, ?_, (mem_copies_componentRelation_iff hx).mpr ⟨y, hy, rfl⟩⟩, rfl⟩
    exact mem_extract_iff.mpr ⟨_, _, mem_lifelinesOf_iff.mpr ⟨s, hs, rfl, rfl⟩, hprod⟩

end Specification

end ScenarioFsp
