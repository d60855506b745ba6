import ScenarioFsp.Fsp.CrossCheck
import ScenarioFsp.Loading
import ScenarioFsp.Proofs.Dangling
import ScenarioFsp.Proofs.Document.Walk

/-!
# What is accepted can be processed

A text that is accepted has been loaded in steps, and no step leaves anything behind
that a later stage would stumble over. So every stage succeeds on the specification:
the relation, the grammar of each component, the listing and the cross-check.
-/

namespace ScenarioFsp

namespace Specification

variable {spec : Specification}

/-- The names of declared scenarios; nothing is passed over. -/
theorem filterMap_scenario? {ids : List ScenarioId} (h : ∀ id ∈ ids, spec.declares id = true) :
    ids.filterMap spec.scenario? = ids.map spec.nameOf := by
  rw [List.filterMap_congr fun id hid => scenario?_of_declares (h id hid)]
  exact congrFun List.filterMap_eq_map' ids

/-! ## The cross-check -/

/-- A scenario with those that may follow it, by name. -/
def namedNode (spec : Specification) (id : ScenarioId) : String × List String :=
  (spec.nameOf id, (spec.continuations id).map spec.nameOf)

/-- A component with the scenarios in which it does something, by name. -/
def namedProjection (spec : Specification) (c : Component) : String × List String :=
  (c.name, (c.lifelines.entries.filter fun entry => !entry.2.isEmpty).map fun entry =>
    spec.nameOf entry.1)

theorem Closed.graph_eq (h : spec.Closed) :
    (Fsp.CrossCheck.ofSpecification spec).graph = spec.scenarioIds.map spec.namedNode := by
  have hnode : ∀ id ∈ spec.scenarioIds, ((spec.scenario? id).map fun name =>
        (name, (spec.continuations id).filterMap spec.scenario?)) = some (spec.namedNode id) := by
    intro id hid
    have hnext : ∀ t ∈ spec.continuations id, spec.declares t = true := by
      intro t ht
      obtain ⟨e, he, rfl⟩ := List.mem_map.mp ht
      exact h _ (.target (List.mem_of_mem_filter he))
    rw [scenario?_of_declares (mem_scenarioIds_iff.mp hid), filterMap_scenario? hnext]
    rfl
  unfold Fsp.CrossCheck.ofSpecification
  rw [List.filterMap_congr hnode]
  exact congrFun List.filterMap_eq_map' _

theorem Closed.projections_eq (h : spec.Closed) :
    (Fsp.CrossCheck.ofSpecification spec).projections =
      spec.components.map spec.namedProjection := by
  refine List.map_congr_left fun c hc => ?_
  have hname : ∀ entry ∈ c.lifelines.entries.filter fun entry => !entry.2.isEmpty,
      spec.scenario? entry.1 = some (spec.nameOf entry.1) := fun entry hentry =>
    scenario?_of_declares (h _ (.lifeline hc (List.mem_map_of_mem (List.mem_of_mem_filter hentry))))
  unfold Fsp.CrossCheck.activeScenarios namedProjection
  rw [List.filterMap_congr hname]
  exact congrArg _ (congrFun List.filterMap_eq_map' _)

/-- In the cross-check of a closed specification nothing is passed over. -/
theorem Closed.crossCheck_eq (h : spec.Closed) : Fsp.CrossCheck.ofSpecification spec =
    ⟨spec.initial.map spec.nameOf, spec.scenarioIds.map spec.namedNode,
      spec.components.map spec.namedProjection⟩ := by
  rw [← h.graph_eq, ← h.projections_eq, ← filterMap_scenario? fun id hid => h id (.initial hid)]
  rfl

/-! ## Accepted specifications -/

/-- All stages can be run on the specification, and none has anything to complain about. -/
structure Processable (spec : Specification) : Prop where
  scenarios : spec.scenarios.Nodup
  components : (spec.components.map Component.name).Nodup
  unreserved : ∀ name ∈ spec.scenarios, name ≠ Document.initNode ∧ name ≠ Document.finalNode
  closed : spec.Closed
  /-- Every component has a lifeline in every scenario, an empty one if need be. -/
  lifelines : ∀ c ∈ spec.components, ∀ id, spec.declares id = true → c.lifelines.hasKey id = true
  edges : spec.edges.Nodup
  initial : spec.initial.Nodup
  finals : spec.finals.Nodup
  grammars : ∃ common, spec.commonRelation = .ok common ∧
    ∀ id ∈ spec.componentIds, ∃ d, spec.deriveComponent common id = .ok d
  listing : ∀ deterministic milliseconds, ∃ listing,
    SynthesisRun.ofSpecification deterministic milliseconds spec =
      ⟨[SynthesisRun.timeMessage milliseconds], .ok listing⟩
  /-- The cross-check names every reference; none is passed over. -/
  crossCheck : Fsp.CrossCheck.ofSpecification spec =
    ⟨spec.initial.map spec.nameOf, spec.scenarioIds.map spec.namedNode,
      spec.components.map spec.namedProjection⟩

end Specification

/-- What is loaded from a document can be processed, even if some of it was blamed. -/
theorem Document.processable_load (d : Document) : d.load.spec.Processable := by
  obtain ⟨hsound, hlifelines⟩ := d.load_sound
  have hclosed := hsound.closed
  exact ⟨d.load.spec.scenarios_nodup, d.load.spec.components_nodup, hsound.unreserved, hclosed,
    hlifelines, d.load.spec.edges_nodup, d.load.spec.initial_nodup, d.load.spec.finals_nodup,
    ⟨_, hclosed.commonRelation_eq_ok, fun id hid => hclosed.exists_deriveComponent _ hid⟩,
    hclosed.exists_listing, hclosed.crossCheck_eq⟩

namespace Journal

/-- An accepted text is a document, and the specification is what was loaded from it. -/
theorem exists_document_of_load {j : Journal} {name text : String} {spec : Specification}
    (h : (j.load name text).result = .ok spec) :
    ∃ d, Document.read text = .ok d ∧ spec = d.load.spec := by
  unfold load at h
  cases hread : Document.read text with
  | error e =>
      rw [hread] at h
      exact absurd h (by simp)
  | ok d =>
      rw [hread] at h
      dsimp only at h
      split at h
      · exact ⟨d, rfl, (Except.ok.inj h).symm⟩
      · exact absurd h (by simp)

/--
**What is accepted can be processed, and no text raises an alarm.** Whatever text is read,
the walk over its tree ends as loading does: no part stands where it is not expected, no
name is declared a second time, and no number is asked for that nothing has. If the text
is accepted, names are distinct and none is reserved, no reference dangles, every component
has a lifeline in every scenario, nothing is recorded twice, and from the relation to the
listing and the cross-check everything succeeds.
-/
theorem load_processable (j : Journal) (name text : String) :
    (∀ parts, Document.readTree text = .ok parts →
      ∃ d part, Document.read text = .ok d ∧ parts = [part] ∧ Document.walk part = .ok d.load) ∧
      ∀ spec, (j.load name text).result = .ok spec → spec.Processable := by
  refine ⟨fun parts hparts => ?_, fun spec hspec => ?_⟩
  · rw [Document.readTree_eq] at hparts
    cases hread : Document.read text with
    | error e =>
        rw [hread] at hparts
        exact absurd hparts (by simp [Except.map])
    | ok d =>
        rw [hread] at hparts
        exact ⟨d, d.tree, rfl, (Except.ok.inj hparts).symm, d.walk_tree⟩
  · obtain ⟨d, -, rfl⟩ := exists_document_of_load hspec
    exact d.processable_load

/-- The flow graph comes first, and the lamp does not take part in the second scenario. -/
def lamp : String :=
  "hmsc \x7b init -> On; On -> Off, On; Off -> final; \x7d component Lamp, Switch; " ++
    "bmsc On \x7b instance Lamp \x7b message press; \x7d \x7d " ++
    "bmsc Off \x7b instance Switch \x7b condition Ready; message press; \x7d \x7d"

theorem load_processable_lamp :
    ∃ spec d, Document.walk (Document.tree d) = .ok d.load ∧
      ((start false true).load "lamp.msc" lamp).result = .ok spec ∧ spec = d.load.spec ∧
      spec.scenarios = ["On", "Off"] ∧ spec.Processable := by
  have hnames : ((start false true).load "lamp.msc" lamp).result.toOption.map
      Specification.scenarios = some ["On", "Off"] := by decide +kernel
  cases hload : ((start false true).load "lamp.msc" lamp).result with
  | error e =>
      rw [hload] at hnames
      exact absurd hnames (by simp [Except.toOption])
  | ok spec =>
      rw [hload] at hnames
      obtain ⟨hwalk, haccepted⟩ := load_processable (start false true) "lamp.msc" lamp
      obtain ⟨d, hd, hspec⟩ := exists_document_of_load hload
      -- the tree is not computed: it is that of the document
      have htree : Document.readTree lamp = .ok [d.tree] := by
        rw [Document.readTree_eq, hd]
        rfl
      obtain ⟨d', part, hd', hpart, hwalked⟩ := hwalk _ htree
      obtain rfl := Except.ok.inj (hd.symm.trans hd')
      obtain rfl := List.singleton_inj.mp hpart
      exact ⟨spec, d, hwalked, rfl, hspec, Option.some.inj hnames, haccepted spec hload⟩

end Journal

end ScenarioFsp
