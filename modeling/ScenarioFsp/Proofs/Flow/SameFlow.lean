import ScenarioFsp.Proofs.Synthesis

/-!
# What a component depends on

Scenarios may be declared in any order, and so have any numbers; edges and marks may be
added in any order; other components come and go. None of this is seen in the grammar
of a component. It enters the derivation only through sets: the pairs of the relation
are made of names, and so are the productions. Two specifications that say the same by
name make the same sets, and from there on the derivations are one.
-/

namespace ScenarioFsp

open ScenarioFsp.Symbol (beginOf endOf)

namespace Specification

variable {spec spec' : Specification} {c c' : Component}

/-! ## The same flow graph -/

/-- What may follow what, by name. -/
def namedEdges (spec : Specification) : List (String × String) :=
  spec.edges.map fun e => (spec.nameOf e.source, spec.nameOf e.target)

/-- The same scenarios with the same edges and marks, whatever their numbers and their order. -/
structure SameFlow (spec spec' : Specification) : Prop where
  scenarios : ∀ name, name ∈ spec.scenarios ↔ name ∈ spec'.scenarios
  edges : ∀ edge, edge ∈ spec.namedEdges ↔ edge ∈ spec'.namedEdges
  initial : ∀ name, name ∈ spec.initial.map spec.nameOf ↔ name ∈ spec'.initial.map spec'.nameOf
  finals : ∀ name, name ∈ spec.finals.map spec.nameOf ↔ name ∈ spec'.finals.map spec'.nameOf

theorem SameFlow.symm (h : spec.SameFlow spec') : spec'.SameFlow spec :=
  ⟨fun name => (h.scenarios name).symm, fun edge => (h.edges edge).symm,
    fun name => (h.initial name).symm, fun name => (h.finals name).symm⟩

/-- Of the flow graph only names matter. -/
theorem commonPairs_eq_named (spec : Specification) :
    spec.commonPairs =
      (spec.scenarios.flatMap fun b => [(beginOf b, beginOf b), (endOf b, endOf b)]) ++
      (spec.namedEdges.map fun edge => (beginOf edge.2, endOf edge.1)) ++
      ((spec.initial.map spec.nameOf).map fun name => (beginOf name, Symbol.init)) ++
      ((spec.finals.map spec.nameOf).map fun name => (Symbol.final, endOf name)) ++
      [(Symbol.init, Symbol.init)] := by
  unfold commonPairs namedEdges
  simp only [List.map_map]
  rfl

theorem SameFlow.commonPairs_subset (h : spec.SameFlow spec') :
    spec.commonPairs ⊆ spec'.commonPairs := by
  intro x hx
  simp only [commonPairs_eq_named, List.mem_append] at hx ⊢
  -- each summand is the image of a set of names
  refine hx.imp_left (Or.imp (Or.imp (Or.imp ?_ ?_) ?_) ?_)
  · intro hpoint
    obtain ⟨name, hname, hmem⟩ := List.mem_flatMap.mp hpoint
    exact List.mem_flatMap.mpr ⟨name, (h.scenarios name).mp hname, hmem⟩
  · exact fun hedge => List.map_subset _ (fun edge => (h.edges edge).mp) hedge
  · exact fun hmark => List.map_subset _ (fun name => (h.initial name).mp) hmark
  · exact fun hmark => List.map_subset _ (fun name => (h.finals name).mp) hmark

/-- The same flow graph gives the same relation. -/
theorem SameFlow.ofPairs_commonPairs (h : spec.SameFlow spec') :
    Relation.ofPairs spec.commonPairs = Relation.ofPairs spec'.commonPairs := by
  refine Relation.ext (OrderedSet.ext_mem fun x => ?_)
  unfold Relation.ofPairs
  rw [OrderedSet.mem_ofList, OrderedSet.mem_ofList]
  exact ⟨fun hx => h.commonPairs_subset hx, fun hx => h.symm.commonPairs_subset hx⟩

/-! ## The same component -/

/-- A component of the same name with the same lifeline in scenarios of the same name; where it has
none, its lifeline is empty. -/
structure SameView (spec : Specification) (c : Component) (spec' : Specification)
    (c' : Component) : Prop where
  name : c.name = c'.name
  lifelines : ∀ s ∈ spec.scenarioIds, ∀ s' ∈ spec'.scenarioIds,
    spec.nameOf s = spec'.nameOf s' → c.lifeline s = c'.lifeline s'

theorem SameView.symm (h : spec.SameView c spec' c') : spec'.SameView c' spec c :=
  ⟨h.name.symm, fun s' hs' s hs hname => (h.lifelines s hs s' hs' hname.symm).symm⟩

theorem SameView.lifelinesOf_subset (hview : spec.SameView c spec' c')
    (hflow : spec.SameFlow spec') : spec.lifelinesOf c ⊆ spec'.lifelinesOf c' := by
  rintro ⟨name, events⟩ h
  obtain ⟨s, hs, rfl, rfl⟩ := mem_lifelinesOf_iff.mp h
  have hname : spec.nameOf s ∈ spec'.scenarios :=
    (hflow.scenarios _).mp (mem_scenarios_iff.mpr ⟨s, hs, rfl⟩)
  obtain ⟨s', hs', hsame⟩ := mem_scenarios_iff.mp hname
  exact mem_lifelinesOf_iff.mpr ⟨s', hs', hsame,
    hview.lifelines s (mem_scenarioIds_iff.mpr hs) s' (mem_scenarioIds_iff.mpr hs') hsame⟩

end Specification

/-! ## The same sets all the way -/

section

variable {l l' : List (String × Lifeline)}

/-- Which productions there are depends on the set of lifelines. -/
theorem extract_congr (h : ∀ x, x ∈ l ↔ x ∈ l') : extract l = extract l' := by
  refine OrderedSet.ext_mem fun p => ?_
  simp only [mem_extract_iff, h]

/-- Which points are related depends on the set of lifelines. -/
theorem componentRelation_congr (common : Relation) (h : ∀ x, x ∈ l ↔ x ∈ l') :
    componentRelation common l = componentRelation common l' := by
  have haliases : Relation.ofPairs (l.flatMap fun p => p.2.aliases p.1) =
      Relation.ofPairs (l'.flatMap fun p => p.2.aliases p.1) := by
    refine Relation.ext (OrderedSet.ext_mem fun x => ?_)
    unfold Relation.ofPairs
    simp only [OrderedSet.mem_ofList, List.mem_flatMap, h]
  unfold componentRelation
  rw [haliases]

end

/-- Two derivations differ in nothing but the order in which the lifelines were read. -/
structure Derivation.Agrees (d d' : Derivation) : Prop where
  component : d.component = d'.component
  productions : d.productions = d'.productions
  rooted : d.rooted = d'.rooted
  grammar : d.grammar = d'.grammar

/-- Two components are synthesised alike: the same name, the same productions, the same grammar
before and after simplification, and the same counts. -/
structure SynthesisedComponent.Agrees (c c' : SynthesisedComponent) : Prop where
  derivation : c.derivation.Agrees c'.derivation
  grammar : c.grammar = c'.grammar
  statistics : c.statistics = c'.statistics

theorem Derivation.Follows.agrees {d d' : Derivation} {common : Relation} {component : String}
    {l l' : List (String × Lifeline)} (h : d.Follows common component l)
    (h' : d'.Follows common component l') (hsame : ∀ x, x ∈ l ↔ x ∈ l') : d.Agrees d' := by
  have hproductions := extract_congr hsame
  have hrooted : d.rooted = d'.rooted := by
    rw [h.rooted_eq, h'.rooted_eq, hproductions, componentRelation_congr common hsame]
  refine ⟨h.component_eq.trans h'.component_eq.symm, ?_, hrooted, ?_⟩
  · rw [h.productions_eq, h'.productions_eq, hproductions]
  · have hgrammar := h.grammar_eq
    rw [hrooted] at hgrammar
    exact Except.ok.inj (hgrammar.symm.trans h'.grammar_eq)

/-- Simplification looks at nothing but the grammar. -/
theorem Derivation.Agrees.exists_simplified {d d' : Derivation} (h : d.Agrees d')
    (hgood : d.grammar.WellFormed) :
    ∃ c c', d.simplified = .ok c ∧ d'.simplified = .ok c' ∧ c.Agrees c' := by
  have hgood' : d'.grammar.WellFormed := by
    rw [← h.grammar]
    exact hgood
  obtain ⟨c, hc, rfl, hsimplify, -⟩ := Derivation.exists_simplified hgood
  obtain ⟨c', hc', rfl, hsimplify', -⟩ := Derivation.exists_simplified hgood'
  rw [h.grammar] at hsimplify
  obtain ⟨hgrammar, hstatistics⟩ := Prod.mk.inj (Except.ok.inj (hsimplify.symm.trans hsimplify'))
  exact ⟨c, c', hc, hc', h, hgrammar, hstatistics⟩

namespace Specification

variable {spec spec' : Specification} {c c' : Component} {id id' : ComponentId}

/--
**A component depends on what is declared, not on how.** Two specifications with the same
scenarios, edges and marks by name, in which a component has the same name and the same
lifelines, have the same relation and the same grammar for it, and simplification makes
the same changes. The numbers of the scenarios and of the component, the order in which
anything was declared, and all other components make no difference.
-/
theorem synthesiseComponent_agrees (hflow : spec.SameFlow spec')
    (hview : spec.SameView c spec' c') (hc : spec.component? id = some c)
    (hc' : spec'.component? id' = some c') (hres : spec.Resolves c) (hres' : spec'.Resolves c') :
    ∃ common sc sc', spec.commonRelation = .ok common ∧ spec'.commonRelation = .ok common ∧
      spec.deriveComponent common id = .ok sc.derivation ∧
      spec'.deriveComponent common id' = .ok sc'.derivation ∧
      spec.synthesiseComponent common id = .ok sc ∧
      spec'.synthesiseComponent common id' = .ok sc' ∧ sc.Agrees sc' := by
  -- from here on both sides work with the same relation
  have hcommon' := commonRelation_eq_ok hres'
  rw [← hflow.ofPairs_commonPairs] at hcommon'
  have hlifelines : ∀ x, x ∈ spec.lifelinesOf c ↔ x ∈ spec'.lifelinesOf c' := fun x =>
    ⟨fun hx => hview.lifelinesOf_subset hflow hx, fun hx =>
      hview.symm.lifelinesOf_subset hflow.symm hx⟩
  obtain ⟨d, hd, hfollows, -⟩ := Derivation.exists_ofLifelines (.ofPairs spec.commonPairs) c.name
    (spec.lifelinesOf c)
  obtain ⟨d', hd', hfollows', -⟩ := Derivation.exists_ofLifelines (.ofPairs spec.commonPairs)
    c.name (spec'.lifelinesOf c')
  have hagrees := hfollows.agrees hfollows' hlifelines
  have hderive := (deriveComponent_eq_ofLifelines hc hres _).trans hd
  have hderive' : spec'.deriveComponent (.ofPairs spec.commonPairs) id' = .ok d' := by
    rw [deriveComponent_eq_ofLifelines hc' hres', ← hview.name]
    exact hd'
  obtain ⟨sc, sc', hsc, hsc', hsame⟩ :=
    hagrees.exists_simplified (Derivation.wellFormed_of_ofLifelines hd)
  have hsynthesise : spec.synthesiseComponent (.ofPairs spec.commonPairs) id = .ok sc := by
    unfold synthesiseComponent
    rw [hderive]
    exact hsc
  have hsynthesise' : spec'.synthesiseComponent (.ofPairs spec.commonPairs) id' = .ok sc' := by
    unfold synthesiseComponent
    rw [hderive']
    exact hsc'
  exact ⟨_, sc, sc', commonRelation_eq_ok hres, hcommon',
    (steps_of_synthesiseComponent hsynthesise).1, (steps_of_synthesiseComponent hsynthesise').1,
    hsynthesise, hsynthesise', hsame⟩

theorem synthesiseComponent_agrees_renumbered :
    ∃ common sc sc', session.commonRelation = .ok common ∧ renumbered.commonRelation = .ok common ∧
      session.synthesiseComponent common ⟨0⟩ = .ok sc ∧
      renumbered.synthesiseComponent common ⟨1⟩ = .ok sc' ∧ sc.Agrees sc' := by
  have hflow : session.SameFlow renumbered :=
    ⟨fun _ => List.Perm.mem_iff (by decide), fun _ => List.Perm.mem_iff (by decide),
      fun _ => List.Perm.mem_iff (by decide), fun _ => List.Perm.mem_iff (by decide)⟩
  have hview : session.SameView user renumbered renumberedUser := ⟨rfl, by decide⟩
  have hres : session.Resolves user :=
    ⟨by decide, by decide, by decide, by decide, by decide⟩
  have hres' : renumbered.Resolves renumberedUser :=
    ⟨by decide, by decide, by decide, by decide, by decide⟩
  have hc : session.component? ⟨0⟩ = some user := rfl
  have hc' : renumbered.component? ⟨1⟩ = some renumberedUser := rfl
  obtain ⟨common, sc, sc', hcommon, hcommon', -, -, hsc, hsc', hagrees⟩ :=
    synthesiseComponent_agrees hflow hview hc hc' hres hres'
  exact ⟨common, sc, sc', hcommon, hcommon', hsc, hsc', hagrees⟩

end Specification

end ScenarioFsp
