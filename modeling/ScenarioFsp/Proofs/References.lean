import ScenarioFsp.Proofs.Flow.Walks
import ScenarioFsp.Synthesis

/-!
# References to scenarios

Edges, marks and lifelines refer to scenarios by number, declared or not. A
specification is closed if all that it refers to is declared. The flow graph is
looked up before any component, and a component before its grammar is derived;
each lookup stops at a reference that dangles, and only there.
-/

namespace ScenarioFsp

namespace Specification

variable {spec : Specification} {c : Component}

/-- The scenarios that a specification refers to. -/
inductive Refers (spec : Specification) : ScenarioId → Prop where
  | source {e : Edge} : e ∈ spec.edges → Refers spec e.source
  | target {e : Edge} : e ∈ spec.edges → Refers spec e.target
  | initial {id : ScenarioId} : id ∈ spec.initial → Refers spec id
  | final {id : ScenarioId} : id ∈ spec.finals → Refers spec id
  | lifeline {c : Component} {id : ScenarioId} :
      c ∈ spec.components → id ∈ c.lifelines.keys → Refers spec id

/-- Whatever the specification refers to is declared. -/
def Closed (spec : Specification) : Prop := ∀ id, spec.Refers id → spec.declares id = true

/-- The failure is about a scenario that the specification refers to without declaring it. -/
def Dangles (spec : Specification) (failure : Failure) : Prop :=
  ∃ id context, failure = .unknownScenario id context ∧ spec.Refers id ∧ spec.declares id = false

theorem closed_iff : spec.Closed ↔
    (∀ e ∈ spec.edges, spec.declares e.source = true ∧ spec.declares e.target = true) ∧
      (∀ id ∈ spec.initial, spec.declares id = true) ∧
      (∀ id ∈ spec.finals, spec.declares id = true) ∧
      ∀ c ∈ spec.components, ∀ id ∈ c.lifelines.keys, spec.declares id = true := by
  refine ⟨fun h => ⟨fun e he => ⟨h _ (.source he), h _ (.target he)⟩,
    fun _ hid => h _ (.initial hid), fun _ hid => h _ (.final hid),
    fun _ hc _ hid => h _ (.lifeline hc hid)⟩, fun h id hid => ?_⟩
  obtain ⟨hedges, hinitial, hfinals, hlifelines⟩ := h
  cases hid with
  | source he => exact (hedges _ he).1
  | target he => exact (hedges _ he).2
  | initial hid => exact hinitial _ hid
  | final hid => exact hfinals _ hid
  | lifeline hc hid => exact hlifelines _ hc _ hid

instance (spec : Specification) : Decidable spec.Closed := decidable_of_iff _ closed_iff.symm

theorem Closed.resolves (h : spec.Closed) (hc : c ∈ spec.components) : spec.Resolves c :=
  ⟨fun _ he => h _ (.source he), fun _ he => h _ (.target he), fun _ hid => h _ (.initial hid),
    fun _ hid => h _ (.final hid), fun _ hid => h _ (.lifeline hc hid)⟩

theorem Closed.not_dangles (h : spec.Closed) (failure : Failure) : ¬spec.Dangles failure := by
  rintro ⟨id, context, -, hrefers, hnot⟩
  rw [h id hrefers] at hnot
  exact absurd hnot (by simp)

/-! ## Looking up the flow graph -/

/-- The references of the flow graph are the ends of the edges and the marks. -/
theorem exists_mem_references_iff {id : ScenarioId} :
    (∃ context, (id, context) ∈ spec.references) ↔
      (∃ e ∈ spec.edges, id = e.source ∨ id = e.target) ∨ id ∈ spec.initial ∨ id ∈ spec.finals := by
  unfold references
  simp only [List.mem_append, List.mem_flatMap, List.mem_map, List.mem_cons, List.not_mem_nil,
    or_false, Prod.mk.injEq]
  refine ⟨fun h => ?_, fun h => ?_⟩
  · obtain ⟨context, (⟨e, he, ⟨rfl, -⟩ | ⟨rfl, -⟩⟩ | ⟨_, hid, rfl, -⟩) | ⟨_, hid, rfl, -⟩⟩ := h
    · exact Or.inl ⟨e, he, Or.inl rfl⟩
    · exact Or.inl ⟨e, he, Or.inr rfl⟩
    · exact Or.inr (Or.inl hid)
    · exact Or.inr (Or.inr hid)
  · rcases h with ⟨e, he, rfl | rfl⟩ | hid | hid
    · exact ⟨_, Or.inl (Or.inl ⟨e, he, Or.inl ⟨rfl, rfl⟩⟩)⟩
    · exact ⟨_, Or.inl (Or.inl ⟨e, he, Or.inr ⟨rfl, rfl⟩⟩)⟩
    · exact ⟨_, Or.inl (Or.inr ⟨id, hid, rfl, rfl⟩)⟩
    · exact ⟨_, Or.inr ⟨id, hid, rfl, rfl⟩⟩

theorem refers_of_mem_references {r : ScenarioId × String} (h : r ∈ spec.references) :
    spec.Refers r.1 := by
  rcases exists_mem_references_iff.mp ⟨r.2, h⟩ with ⟨e, he, hsource | htarget⟩ | hid | hid
  · rw [hsource]
    exact .source he
  · rw [htarget]
    exact .target he
  · exact .initial hid
  · exact .final hid

/-- Nothing dangles in the flow graph if the ends of all edges and all marks are declared. -/
theorem forall_references_iff : (∀ r ∈ spec.references, spec.declares r.1 = true) ↔
    (∀ e ∈ spec.edges, spec.declares e.source = true ∧ spec.declares e.target = true) ∧
      (∀ id ∈ spec.initial, spec.declares id = true) ∧
      ∀ id ∈ spec.finals, spec.declares id = true := by
  refine ⟨fun h => ?_, fun ⟨hedges, hinitial, hfinals⟩ r hr => ?_⟩
  · have hflow : ∀ id, ((∃ e ∈ spec.edges, id = e.source ∨ id = e.target) ∨
        id ∈ spec.initial ∨ id ∈ spec.finals) → spec.declares id = true := by
      intro id hid
      obtain ⟨context, hmem⟩ := exists_mem_references_iff.mpr hid
      exact h _ hmem
    exact ⟨fun e he => ⟨hflow _ (Or.inl ⟨e, he, Or.inl rfl⟩), hflow _ (Or.inl ⟨e, he, Or.inr rfl⟩)⟩,
      fun id hid => hflow id (Or.inr (Or.inl hid)), fun id hid => hflow id (Or.inr (Or.inr hid))⟩
  · rcases exists_mem_references_iff.mp ⟨r.2, hr⟩ with ⟨e, he, hsource | htarget⟩ | hid | hid
    · rw [hsource]
      exact (hedges e he).1
    · rw [htarget]
      exact (hedges e he).2
    · exact hinitial _ hid
    · exact hfinals _ hid

/-- Either nothing dangles in the flow graph, or the first reference that does is reported. -/
theorem commonRelation_cases (spec : Specification) :
    ((∀ r ∈ spec.references, spec.declares r.1 = true) ∧
        spec.commonRelation = .ok (.ofPairs spec.commonPairs)) ∨
      ∃ r ∈ spec.references, spec.declares r.1 = false ∧
        spec.commonRelation = .error (.unknownScenario r.1 r.2) := by
  unfold commonRelation
  cases hfirst : spec.dangling? with
  | none =>
      refine Or.inl ⟨fun r hr => ?_, rfl⟩
      simpa using List.find?_eq_none.mp hfirst r hr
  | some r =>
      have hnot := List.find?_some hfirst
      exact Or.inr ⟨r, List.mem_of_find?_eq_some hfirst, by simpa using hnot, rfl⟩

theorem commonRelation_of_declared (h : ∀ r ∈ spec.references, spec.declares r.1 = true) :
    spec.commonRelation = .ok (.ofPairs spec.commonPairs) := by
  rcases spec.commonRelation_cases with ⟨-, hok⟩ | ⟨r, hr, hnot, -⟩
  · exact hok
  · rw [h r hr] at hnot
    exact absurd hnot (by simp)

/-! ## Looking up the lifelines of a component -/

theorem strayLifeline?_cases (spec : Specification) (c : Component) :
    ((∀ id ∈ c.lifelines.keys, spec.declares id = true) ∧ spec.strayLifeline? c = none) ∨
      ∃ id ∈ c.lifelines.keys, spec.declares id = false ∧ spec.strayLifeline? c = some id := by
  unfold strayLifeline?
  cases hfirst : c.lifelines.keys.find? fun id => !spec.declares id with
  | none =>
      refine Or.inl ⟨fun id hid => ?_, rfl⟩
      simpa using List.find?_eq_none.mp hfirst id hid
  | some id =>
      have hnot := List.find?_some hfirst
      exact Or.inr ⟨id, List.mem_of_find?_eq_some hfirst, by simpa using hnot, rfl⟩

theorem mem_scenarioIds_iff {id : ScenarioId} :
    id ∈ spec.scenarioIds ↔ spec.declares id = true := by
  unfold scenarioIds declares
  rw [List.mem_map, decide_eq_true_eq]
  refine ⟨fun h => ?_, fun h => ⟨id.index, List.mem_range.mpr h, rfl⟩⟩
  obtain ⟨i, hi, rfl⟩ := h
  exact List.mem_range.mp hi

theorem mem_componentIds_iff {id : ComponentId} :
    id ∈ spec.componentIds ↔ ∃ c ∈ spec.components, spec.component? id = some c := by
  unfold componentIds component?
  rw [List.mem_map]
  refine ⟨fun h => ?_, fun h => ?_⟩
  · obtain ⟨i, hi, rfl⟩ := h
    rw [List.mem_range] at hi
    exact ⟨spec.components[i], List.getElem_mem hi, List.getElem?_eq_getElem hi⟩
  · obtain ⟨c, -, hc⟩ := h
    obtain ⟨hlt, -⟩ := List.getElem?_eq_some_iff.mp hc
    exact ⟨id.index, List.mem_range.mpr hlt, rfl⟩

/-- Every component has a number. -/
theorem exists_component? (hc : c ∈ spec.components) :
    ∃ id ∈ spec.componentIds, spec.component? id = some c := by
  obtain ⟨i, hi⟩ := List.mem_iff_getElem?.mp hc
  have hget : spec.component? ⟨i⟩ = some c := hi
  exact ⟨⟨i⟩, mem_componentIds_iff.mpr ⟨c, hc, hget⟩, hget⟩

end Specification

end ScenarioFsp
