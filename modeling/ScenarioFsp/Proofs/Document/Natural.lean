import ScenarioFsp.Proofs.Document.Faults
import ScenarioFsp.Proofs.Document.Grammar
import ScenarioFsp.Proofs.References

/-!
# Natural documents

A natural document of a specification declares the components, tells each scenario with
a lifeline for each component, and draws the marks and edges as arrows, all in the order
in which the specification lists them. How the components are grouped, where the flow
blocks stand and how the arrows are mixed is left open. If the names are free to be used
and no reference dangles, such a document breaks no rule (`Natural.valid`).
-/

namespace ScenarioFsp

open Document (isIdentifier hasSpelling initNode finalNode)

/-! ## Specifications and their documents -/

namespace Specification

/-- All names and labels can be spelled, no reference dangles, and all lifelines are there. -/
structure Writable (spec : Specification) : Prop where
  components : ∀ c ∈ spec.components, isIdentifier c.name = true
  scenarios : ∀ name ∈ spec.scenarios,
    isIdentifier name = true ∧ name ≠ initNode ∧ name ≠ finalNode
  events : ∀ c ∈ spec.components, ∀ id, ∀ e ∈ c.lifeline id, hasSpelling e = true
  closed : spec.Closed
  complete : ∀ c ∈ spec.components, ∀ id, spec.declares id = true → c.lifelines.hasKey id = true

/-- Events need to be looked for in the lifelines that are there only. -/
theorem exists_mem_lifeline_iff {c : Component} {e : Event} :
    (∃ id, e ∈ c.lifeline id) ↔ ∃ events ∈ c.lifelines.values, e ∈ events := by
  constructor
  · rintro ⟨id, he⟩
    unfold Component.lifeline at he
    cases hget : c.lifelines.get? id with
    | none =>
        rw [hget] at he
        exact absurd he List.not_mem_nil
    | some events =>
        rw [hget] at he
        exact ⟨events, List.mem_map_of_mem (OrderedMap.get?_eq_some_iff.mp hget), he⟩
  · rintro ⟨events, hevents, he⟩
    obtain ⟨⟨id, _⟩, hentry, rfl⟩ := List.mem_map.mp hevents
    refine ⟨id, ?_⟩
    rw [Component.lifeline, OrderedMap.get?_eq_some_iff.mpr hentry]
    exact he

theorem writable_iff {spec : Specification} : spec.Writable ↔
    (∀ c ∈ spec.components, isIdentifier c.name = true) ∧
      (∀ name ∈ spec.scenarios, isIdentifier name = true ∧ name ≠ initNode ∧ name ≠ finalNode) ∧
      (∀ c ∈ spec.components, ∀ events ∈ c.lifelines.values, ∀ e ∈ events, hasSpelling e = true) ∧
      spec.Closed ∧
      ∀ c ∈ spec.components, ∀ id ∈ spec.scenarioIds, c.lifelines.hasKey id = true := by
  constructor
  · intro h
    refine ⟨h.components, h.scenarios, fun c hc events hevents e he => ?_, h.closed,
      fun c hc id hid => h.complete c hc id (mem_scenarioIds_iff.mp hid)⟩
    obtain ⟨id, he⟩ := exists_mem_lifeline_iff.mpr ⟨events, hevents, he⟩
    exact h.events c hc id e he
  · rintro ⟨hcomponents, hscenarios, hevents, hclosed, hcomplete⟩
    refine ⟨hcomponents, hscenarios, fun c hc id e he => ?_, hclosed,
      fun c hc id hid => hcomplete c hc id (mem_scenarioIds_iff.mpr hid)⟩
    obtain ⟨events, hmem, he⟩ := exists_mem_lifeline_iff.mp ⟨id, he⟩
    exact hevents c hc events hmem e he

instance (spec : Specification) : Decidable spec.Writable := decidable_of_iff _ writable_iff.symm

end Specification

namespace Document

/-- What a scenario block tells: its name, and what each component does. -/
def Item.told? : Item → Option (String × List (String × Lifeline))
  | scenario block => some (block.name.text,
      block.lifelines.map fun lifeline => (lifeline.component.text, lifeline.events))
  | _ => none

/-- The scenarios among some items, with the lifelines of their blocks. -/
def told (items : List Item) : List (String × List (String × Lifeline)) :=
  items.filterMap Item.told?

/-- The names at the ends of an arrow, wherever they stand. -/
def Arrow.ends (a : Arrow) : String × String := (a.source.text, a.target.text)

/-- The arrows among some items, by the names at their ends. -/
def drawn (items : List Item) : List (String × String) :=
  (items.flatMap Item.arrows).map Arrow.ends

/-- The second item does not declare components if the first one is a scenario. -/
def InOrder (i j : Item) : Prop := i.scenarioNames = [] ∨ j.componentNames = []

/-- The document says what the specification holds, in the same order. -/
structure Natural (spec : Specification) (d : Document) : Prop where
  components : declared d.items = spec.components.map Component.name
  first : d.items.Pairwise InOrder
  scenarios : told d.items = spec.scenarioIds.map fun id =>
    (spec.nameOf id, spec.components.map fun c => (c.name, c.lifeline id))
  initial : ((drawn d.items).filter fun a => decide (a.1 = initNode)).map Prod.snd =
    spec.initial.map spec.nameOf
  finals : ((drawn d.items).filter fun a => decide (a.2 = finalNode)).map Prod.fst =
    spec.finals.map spec.nameOf
  edges : ((drawn d.items).filter fun a => !decide (a.1 = initNode) && !decide (a.2 = finalNode)) =
    spec.edges.map fun e => (spec.nameOf e.source, spec.nameOf e.target)

end Document

namespace Specification

variable {spec : Specification} {id : ScenarioId}

theorem map_nameOf_scenarioIds : spec.scenarioIds.map spec.nameOf = spec.scenarios := by
  refine List.ext_getElem (by simp [scenarioIds]) fun i hi hi' => ?_
  simp [scenarioIds, nameOf, scenario?, List.getElem?_eq_getElem hi']

theorem getElem?_scenarioIds (id : ScenarioId) :
    spec.scenarioIds[id.index]? = if spec.declares id = true then some id else none := by
  unfold scenarioIds declares
  by_cases h : id.index < spec.scenarios.length <;> simp [h]

theorem nameOf_mem (h : spec.declares id = true) : spec.nameOf id ∈ spec.scenarios := by
  rw [← map_nameOf_scenarioIds]
  exact List.mem_map_of_mem (mem_scenarioIds_iff.mpr h)

theorem Writable.nameOf_ne (hspec : spec.Writable) (hid : spec.declares id = true) :
    spec.nameOf id ≠ initNode ∧ spec.nameOf id ≠ finalNode :=
  (hspec.scenarios _ (nameOf_mem hid)).2

theorem scenarioNamed?_nameOf (h : spec.declares id = true) :
    spec.scenarioNamed? (spec.nameOf id) = some id :=
  scenarioNamed?_eq_some_iff.mpr (scenario?_of_declares h)

theorem filterMap_scenarioNamed? {ids : List ScenarioId}
    (h : ∀ id ∈ ids, spec.declares id = true) :
    (ids.map spec.nameOf).filterMap spec.scenarioNamed? = ids := by
  have hsome : ids.filterMap (spec.scenarioNamed? ∘ spec.nameOf) = ids.filterMap some :=
    List.filterMap_congr fun id hid => scenarioNamed?_nameOf (h id hid)
  rw [List.filterMap_map, hsome, List.filterMap_some]

end Specification

namespace Document

variable {spec : Specification} {d : Document} {items before after : List Item} {a : Arrow}
  {block : ScenarioBlock}

/-! ## A natural document is valid -/

theorem told_concat (items : List Item) (item : Item) :
    told (items ++ [item]) = told items ++ item.told?.toList :=
  filterMap_concat Item.told? items item

theorem called_eq_map_told : called items = (told items).map Prod.fst := by
  unfold called told
  induction items with
  | nil => rfl
  | cons item items ih =>
      cases item with
      | components names => exact ih
      | scenario block => exact congrArg (block.name.text :: ·) ih
      | flow all => exact ih

theorem Natural.called_eq (h : Natural spec d) : called d.items = spec.scenarios := by
  rw [called_eq_map_told, h.scenarios, List.map_map]
  exact Specification.map_nameOf_scenarioIds

/-- Each scenario block is about a declared scenario, and all components are declared before it. -/
theorem Natural.scenario_cases (h : Natural spec d)
    (hitems : d.items = before ++ .scenario block :: after) :
    (∃ id, spec.declares id = true ∧ block.name.text = spec.nameOf id ∧
      (block.lifelines.map fun lifeline => (lifeline.component.text, lifeline.events)) =
        spec.components.map fun c => (c.name, c.lifeline id)) ∧
      declared before = spec.components.map Component.name := by
  constructor
  · have hmem : (block.name.text, block.lifelines.map fun lifeline =>
        (lifeline.component.text, lifeline.events)) ∈ told d.items :=
      List.mem_filterMap.mpr ⟨.scenario block, by rw [hitems]; simp, rfl⟩
    rw [h.scenarios] at hmem
    obtain ⟨id, hid, heq⟩ := List.mem_map.mp hmem
    obtain ⟨hname, hlifelines⟩ := Prod.mk.inj heq
    exact ⟨id, Specification.mem_scenarioIds_iff.mp hid, hname.symm, hlifelines.symm⟩
  · have hpairs := h.first
    rw [hitems] at hpairs
    obtain ⟨-, hpairs, -⟩ := List.pairwise_append.mp hpairs
    -- nothing is declared behind a scenario, so all that is declared is declared before it
    have hafter : ∀ item ∈ after, item.componentNames = [] := fun item hitem =>
      ((List.pairwise_cons.mp hpairs).1 item hitem).resolve_left (by simp [Item.scenarioNames])
    rw [← h.components, hitems]
    unfold declared
    rw [List.flatMap_append, List.flatMap_cons, List.flatMap_eq_nil_iff.mpr hafter]
    simp [Item.componentNames]

/-- The lifelines of a scenario block are those of all components, in their order. -/
theorem Natural.lifelineNames (h : Natural spec d)
    (hitems : d.items = before ++ .scenario block :: after) :
    (block.lifelines.map fun lifeline => lifeline.component.text) =
      spec.components.map Component.name := by
  obtain ⟨⟨id, -, -, hlifelines⟩, -⟩ := h.scenario_cases hitems
  have hnames := congrArg (List.map Prod.fst) hlifelines
  rwa [List.map_map, List.map_map] at hnames

/-- Each arrow is a mark or an edge. -/
theorem Natural.arrow_cases (h : Natural spec d) (ha : a ∈ d.items.flatMap Item.arrows) :
    (a.source.text = initNode ∧ ∃ id ∈ spec.initial, a.target.text = spec.nameOf id) ∨
      (a.target.text = finalNode ∧ ∃ id ∈ spec.finals, a.source.text = spec.nameOf id) ∨
      ∃ e ∈ spec.edges, a.source.text = spec.nameOf e.source ∧
        a.target.text = spec.nameOf e.target := by
  have hdrawn : a.ends ∈ drawn d.items := List.mem_map_of_mem ha
  by_cases hinit : a.source.text = initNode
  · have hmem : a.target.text ∈ spec.initial.map spec.nameOf := by
      rw [← h.initial]
      exact List.mem_map.mpr ⟨a.ends, List.mem_filter.mpr ⟨hdrawn, decide_eq_true hinit⟩, rfl⟩
    obtain ⟨id, hid, heq⟩ := List.mem_map.mp hmem
    exact Or.inl ⟨hinit, id, hid, heq.symm⟩
  by_cases hfinal : a.target.text = finalNode
  · have hmem : a.source.text ∈ spec.finals.map spec.nameOf := by
      rw [← h.finals]
      exact List.mem_map.mpr ⟨a.ends, List.mem_filter.mpr ⟨hdrawn, decide_eq_true hfinal⟩, rfl⟩
    obtain ⟨id, hid, heq⟩ := List.mem_map.mp hmem
    exact Or.inr (Or.inl ⟨hfinal, id, hid, heq.symm⟩)
  · have hmem : a.ends ∈ spec.edges.map fun e => (spec.nameOf e.source, spec.nameOf e.target) := by
      rw [← h.edges]
      exact List.mem_filter.mpr ⟨hdrawn, by simp [Arrow.ends, hinit, hfinal]⟩
    obtain ⟨e, he, heq⟩ := List.mem_map.mp hmem
    obtain ⟨hsource, htarget⟩ := Prod.mk.inj heq
    exact Or.inr (Or.inr ⟨e, he, hsource.symm, htarget.symm⟩)

theorem Natural.defines (h : Natural spec d) (hspec : spec.Writable) {id : ScenarioId}
    (hid : spec.declares id = true) : Defines d.items (spec.nameOf id) := by
  obtain ⟨hinit, hfinal⟩ := hspec.nameOf_ne hid
  refine defines_iff.mpr ⟨fun hreserved => hreserved.elim hinit hfinal, ?_⟩
  rw [h.called_eq]
  exact Specification.nameOf_mem hid

theorem Natural.valid (h : Natural spec d) (hspec : spec.Writable) : d.Valid where
  components := h.components ▸ spec.components_nodup
  scenarios := by
    intro before block after hitems
    obtain ⟨⟨id, hid, hname, -⟩, -⟩ := h.scenario_cases hitems
    obtain ⟨hinit, hfinal⟩ := hspec.nameOf_ne hid
    rw [hname]
    refine ⟨fun hreserved => hreserved.elim hinit hfinal, fun hdefines => ?_⟩
    -- another block of that name before this one would be a second scenario of that name
    have hnodup : (called d.items).Nodup := h.called_eq ▸ spec.scenarios_nodup
    rw [hitems, called, List.flatMap_append, List.map_append] at hnodup
    refine (List.nodup_append.mp hnodup).2.2 _ (defines_iff.mp hdefines).2 _ ?_ rfl
    simp [Item.scenarioNames, hname]
  lifelines := by
    intro before block after hitems _ lifeline hmem
    obtain ⟨-, hdeclared⟩ := h.scenario_cases hitems
    rw [hdeclared, ← h.lifelineNames hitems]
    exact List.mem_map_of_mem hmem
  once := by
    intro before block after hitems _
    exact h.lifelineNames hitems ▸ spec.components_nodup
  legal := by
    intro a ha
    rcases h.arrow_cases ha with ⟨hsource, id, hid, htarget⟩ | ⟨htarget, id, hid, hsource⟩ |
        ⟨e, he, hsource, htarget⟩
    · obtain ⟨hinit, hfinal⟩ := hspec.nameOf_ne (hspec.closed _ (.initial hid))
      refine ⟨htarget ▸ hinit, hsource ▸ Arrow.initNode_ne_finalNode, fun hdirect => ?_⟩
      exact hfinal (htarget ▸ hdirect.2)
    · obtain ⟨hinit, hfinal⟩ := hspec.nameOf_ne (hspec.closed _ (.final hid))
      refine ⟨htarget ▸ Arrow.initNode_ne_finalNode.symm, hsource ▸ hfinal, fun hdirect => ?_⟩
      exact hinit (hsource ▸ hdirect.1)
    · obtain ⟨hinit, hfinal⟩ := hspec.nameOf_ne (hspec.closed _ (.source he))
      obtain ⟨hinit', -⟩ := hspec.nameOf_ne (hspec.closed _ (.target he))
      refine ⟨htarget ▸ hinit', hsource ▸ hfinal, fun hdirect => ?_⟩
      exact hinit (hsource ▸ hdirect.1)
  ends := by
    intro a ha
    rcases h.arrow_cases ha with ⟨hsource, id, hid, htarget⟩ | ⟨htarget, id, hid, hsource⟩ |
        ⟨e, he, hsource, htarget⟩
    · exact ⟨fun hne => absurd hsource hne,
        fun _ => htarget ▸ h.defines hspec (hspec.closed _ (.initial hid))⟩
    · exact ⟨fun _ => hsource ▸ h.defines hspec (hspec.closed _ (.final hid)),
        fun hne => absurd htarget hne⟩
    · exact ⟨fun _ => hsource ▸ h.defines hspec (hspec.closed _ (.source he)),
        fun _ => htarget ▸ h.defines hspec (hspec.closed _ (.target he))⟩

end Document

end ScenarioFsp
