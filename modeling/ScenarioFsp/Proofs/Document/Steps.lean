import Mathlib.Logic.Relation
import ScenarioFsp.Document.Loader
import ScenarioFsp.Proofs.Declarations
import ScenarioFsp.Proofs.References

/-!
# Loading one step at a time

Whatever a document holds and in whatever order, loading it is a run of small steps. A
step blames a name, declares something under a name that is free, sets a lifeline in a
declared scenario, puts arrows aside, or marks or joins declared scenarios. No step
leaves a reference behind that dangles, and none declares a scenario under a reserved
name. A block that is blamed half way is so many steps less, and nothing else.
-/

namespace ScenarioFsp

namespace Specification

variable {spec : Specification} {id s t : ScenarioId}

/-! ## Closed specifications stay closed -/

theorem declares_addScenario {name : String} {h : name ∉ spec.scenarios}
    (hid : spec.declares id = true) : (spec.addScenario name h).declares id = true := by
  have hlt := of_decide_eq_true hid
  refine decide_eq_true ?_
  show id.index < (spec.scenarios ++ [name]).length
  rw [List.length_append]
  omega

theorem declares_new {name : String} (h : name ∉ spec.scenarios) :
    (spec.addScenario name h).declares ⟨spec.scenarios.length⟩ = true := by
  refine decide_eq_true ?_
  show spec.scenarios.length < (spec.scenarios ++ [name]).length
  rw [List.length_append]
  exact Nat.lt_succ_self _

/-- What is found under a name is declared. -/
theorem declares_of_scenarioNamed? {name : String} (h : spec.scenarioNamed? name = some id) :
    spec.declares id = true := by
  obtain ⟨i, hi, rfl⟩ := Option.map_eq_some_iff.mp h
  exact decide_eq_true (List.findIdx?_eq_some_iff_getElem.mp hi).1

theorem Closed.addScenario (hclosed : spec.Closed) {name : String} (h : name ∉ spec.scenarios) :
    (spec.addScenario name h).Closed := by
  obtain ⟨hedges, hinitial, hfinals, hlifelines⟩ := closed_iff.mp hclosed
  refine closed_iff.mpr ⟨fun e he => ?_, fun id hid => ?_, fun id hid => ?_, fun c hc id hid => ?_⟩
  · exact ⟨declares_addScenario (hedges e he).1, declares_addScenario (hedges e he).2⟩
  · exact declares_addScenario (hinitial id hid)
  · exact declares_addScenario (hfinals id hid)
  · exact declares_addScenario (hlifelines c hc id hid)

theorem Closed.addComponent (hclosed : spec.Closed) {name : String}
    (h : name ∉ spec.components.map Component.name) : (spec.addComponent name h).Closed := by
  obtain ⟨hedges, hinitial, hfinals, hlifelines⟩ := closed_iff.mp hclosed
  refine closed_iff.mpr ⟨hedges, hinitial, hfinals, fun c hc => ?_⟩
  rcases List.mem_append.mp hc with hold | hnew
  · exact hlifelines c hold
  · rw [List.mem_singleton.mp hnew]
    exact fun id hid => absurd hid List.not_mem_nil

theorem Closed.placeLifeline (hclosed : spec.Closed) (component : ComponentId)
    (hid : spec.declares id = true) (events : Lifeline) :
    (spec.placeLifeline component id events).Closed := by
  obtain ⟨hedges, hinitial, hfinals, hlifelines⟩ := closed_iff.mp hclosed
  refine closed_iff.mpr ⟨hedges, hinitial, hfinals, fun c hc t ht => ?_⟩
  rcases mem_placeInto hc with hold | ⟨c₀, hc₀, rfl⟩
  · exact hlifelines c hold t ht
  · rcases OrderedMap.mem_keys_insert.mp ht with rfl | hmem
    · exact hid
    · exact hlifelines c₀ hc₀ t hmem

theorem Closed.addEdge (hclosed : spec.Closed) (hs : spec.declares s = true)
    (ht : spec.declares t = true) : (spec.addEdge s t).Closed := by
  obtain ⟨hedges, hinitial, hfinals, hlifelines⟩ := closed_iff.mp hclosed
  have hdeclares : (spec.addEdge s t).declares = spec.declares := by
    unfold declares
    rw [scenarios_addEdge]
  rw [closed_iff, hdeclares, initial_addEdge, finals_addEdge, components_addEdge]
  refine ⟨fun e he => ?_, hinitial, hfinals, hlifelines⟩
  rcases mem_edges_addEdge.mp he with rfl | hold
  · exact ⟨hs, ht⟩
  · exact hedges e hold

theorem Closed.addInitial (hclosed : spec.Closed) (hs : spec.declares s = true) :
    (spec.addInitial s).Closed := by
  obtain ⟨hedges, hinitial, hfinals, hlifelines⟩ := closed_iff.mp hclosed
  refine closed_iff.mpr ⟨hedges, fun id hid => ?_, hfinals, hlifelines⟩
  rcases mem_addOnce.mp hid with rfl | hold
  · exact hs
  · exact hinitial id hold

theorem Closed.addFinal (hclosed : spec.Closed) (hs : spec.declares s = true) :
    (spec.addFinal s).Closed := by
  obtain ⟨hedges, hinitial, hfinals, hlifelines⟩ := closed_iff.mp hclosed
  refine closed_iff.mpr ⟨hedges, hinitial, fun id hid => ?_, hlifelines⟩
  rcases mem_addOnce.mp hid with rfl | hold
  · exact hs
  · exact hfinals id hold

/-! ## Lifelines everywhere -/

theorem mem_keys_fillFrom {ids : List ScenarioId} {lifelines : OrderedMap ScenarioId Lifeline} :
    id ∈ (fillFrom ids lifelines).keys ↔ id ∈ ids ∨ id ∈ lifelines.keys := by
  unfold fillFrom
  induction ids generalizing lifelines with
  | nil => simp
  | cons s ids ih =>
      rw [List.foldl_cons, ih, List.mem_cons]
      by_cases hkey : lifelines.hasKey s = true
      · rw [if_pos hkey]
        refine ⟨fun h => h.elim (fun hid => Or.inl (Or.inr hid)) Or.inr, fun h => ?_⟩
        rcases h with (rfl | hid) | hmem
        · exact Or.inr (OrderedMap.mem_keys_iff.mpr hkey)
        · exact Or.inl hid
        · exact Or.inr hmem
      · rw [if_neg hkey, OrderedMap.mem_keys_insert]
        tauto

/-- Filling in adds a lifeline for every declared scenario, and nothing else. -/
theorem mem_components_fillLifelines {c : Component} :
    c ∈ spec.fillLifelines.components ↔
      ∃ c₀ ∈ spec.components, c = { c₀ with
        lifelines := fillFrom spec.scenarioIds c₀.lifelines } := by
  unfold fillLifelines
  simp only [List.mem_map, eq_comm]

theorem Closed.fillLifelines (hclosed : spec.Closed) : spec.fillLifelines.Closed := by
  obtain ⟨hedges, hinitial, hfinals, hlifelines⟩ := closed_iff.mp hclosed
  refine closed_iff.mpr ⟨hedges, hinitial, hfinals, fun c hc id hid => ?_⟩
  obtain ⟨c₀, hc₀, rfl⟩ := mem_components_fillLifelines.mp hc
  rcases mem_keys_fillFrom.mp hid with hdeclared | hold
  · exact mem_scenarioIds_iff.mp hdeclared
  · exact hlifelines c₀ hc₀ id hold

theorem hasKey_fillLifelines {c : Component} (hc : c ∈ spec.fillLifelines.components)
    (hid : spec.declares id = true) : c.lifelines.hasKey id = true := by
  obtain ⟨c₀, -, rfl⟩ := mem_components_fillLifelines.mp hc
  exact OrderedMap.mem_keys_iff.mp (mem_keys_fillFrom.mpr (Or.inl (mem_scenarioIds_iff.mpr hid)))

end Specification

/-! ## Steps -/

namespace Document

namespace Loader

/-- What loading does at once. -/
inductive Step : Loader → Loader → Prop where
  | blame (l : Loader) (cause : Cause) (name : Name) : Step l (l.blame cause name)
  | component (l : Loader) (name : String) (h : name ∉ l.spec.components.map Component.name) :
      Step l { l with spec := l.spec.addComponent name h }
  | scenario (l : Loader) (name : Name) (h : name.text ∉ l.spec.scenarios) :
      name.text ≠ initNode → name.text ≠ finalNode →
      Step l { l with
        spec := l.spec.addScenario name.text h
        scenarios := l.scenarios ++ [name] }
  | lifeline (l : Loader) (component : ComponentId) {id : ScenarioId} (events : Lifeline) :
      l.spec.declares id = true →
      Step l { l with spec := l.spec.placeLifeline component id events }
  | collect (l : Loader) (arrows : List Arrow) : Step l { l with arrows := l.arrows ++ arrows }
  | edge (l : Loader) {s t : ScenarioId} : l.spec.declares s = true → l.spec.declares t = true →
      Step l { l with spec := l.spec.addEdge s t }
  | initial (l : Loader) {id : ScenarioId} : l.spec.declares id = true →
      Step l { l with spec := l.spec.addInitial id }
  | final (l : Loader) {id : ScenarioId} : l.spec.declares id = true →
      Step l { l with spec := l.spec.addFinal id }

/-- Any number of steps. -/
def Steps : Loader → Loader → Prop := Relation.ReflTransGen Step

variable {l l' : Loader}

theorem Step.steps (h : Step l l') : Steps l l' := .single h

theorem Steps.refl (l : Loader) : Steps l l := Relation.ReflTransGen.refl

theorem Steps.trans {m : Loader} (h : Steps l m) (h' : Steps m l') : Steps l l' :=
  Relation.ReflTransGen.trans h h'

/-- What is done to each member of a list in turn is done in steps. -/
theorem steps_foldl {α : Type} {f : Loader → α → Loader} (h : ∀ l a, Steps l (f l a))
    (as : List α) (l : Loader) : Steps l (as.foldl f l) := by
  induction as generalizing l with
  | nil => exact .refl l
  | cons a as ih => exact (h l a).trans (ih (f l a))

/-! ## The parts of a document -/

theorem declareComponent_steps (l : Loader) (name : Name) : Steps l (l.declareComponent name) := by
  unfold declareComponent
  split
  · exact (Step.blame l _ name).steps
  · rename_i hfree
    exact (Step.component l name.text hfree).steps

theorem addLifelines_steps (scenario : Name) {id : ScenarioId} (seen : List ComponentId)
    (l : Loader) (hid : l.spec.declares id = true) (blocks : List LifelineBlock) :
    Steps l (addLifelines scenario id seen l blocks) := by
  -- whatever becomes of a block, the scenario stays declared for the next one
  induction blocks generalizing seen l with
  | nil => exact .refl l
  | cons block blocks ih =>
      unfold addLifelines
      split
      · exact (Step.blame l .undeclaredComponent block.component).steps.trans (ih _ _ hid)
      · rename_i component _
        split
        · exact (Step.blame l (.repeatedLifeline scenario.text) block.component).steps.trans
            (ih _ _ hid)
        · exact (Step.lifeline l component block.events hid).steps.trans (ih _ _ hid)

theorem addScenario_steps (l : Loader) (block : ScenarioBlock) : Steps l (l.addScenario block) := by
  unfold addScenario
  split
  · exact (Step.blame l .reservedName block.name).steps
  · rename_i hfree
    split
    · exact (Step.blame l .repeatedScenario block.name).steps
    · rename_i hnew
      obtain ⟨hinit, hfinal⟩ := not_or.mp hfree
      exact (Step.scenario l block.name hnew hinit hfinal).steps.trans
        (addLifelines_steps _ _ _ (Specification.declares_new hnew) _)

theorem addItem_steps (l : Loader) (item : Item) : Steps l (l.addItem item) := by
  cases item with
  | components names => exact steps_foldl declareComponent_steps _ l
  | scenario block => exact addScenario_steps l block
  | flow block => exact (Step.collect l (arrowsOf block)).steps

theorem addArrow_steps (l : Loader) (arrow : Arrow) : Steps l (l.addArrow arrow) := by
  unfold addArrow
  split
  · exact (Step.blame l .initToFinal arrow.target).steps
  split
  · exact (Step.blame l .intoInit arrow.target).steps
  split
  · exact (Step.blame l .outOfFinal arrow.source).steps
  split
  · unfold withScenario
    split
    · rename_i hid
      exact (Step.initial l (Specification.declares_of_scenarioNamed? hid)).steps
    · exact (Step.blame l .unknownScenario arrow.target).steps
  split
  · unfold withScenario
    split
    · rename_i hid
      exact (Step.final l (Specification.declares_of_scenarioNamed? hid)).steps
    · exact (Step.blame l .unknownScenario arrow.source).steps
  unfold connect
  split
  · rename_i hs ht
    exact (Step.edge l (Specification.declares_of_scenarioNamed? hs)
      (Specification.declares_of_scenarioNamed? ht)).steps
  · exact (Step.blame l .unknownScenario arrow.target).steps
  · exact (Step.blame l .unknownScenario arrow.source).steps
  · exact (Step.blame l .unknownScenario arrow.source).steps.trans
      (Step.blame _ .unknownScenario arrow.target).steps

end Loader

/-- A document is loaded in steps, and after the last one the lifelines are filled in. -/
theorem load_steps (d : Document) :
    ∃ l, Loader.Steps .start l ∧ d.load = { l with spec := l.spec.fillLifelines } :=
  ⟨_, (Loader.steps_foldl Loader.addItem_steps _ _).trans
    (Loader.steps_foldl Loader.addArrow_steps _ _), rfl⟩

namespace Loader

/-! ## What no step destroys -/

/-- The specification so far is closed, its scenarios have names of their own, and the names are
recorded in their order. -/
structure Sound (l : Loader) : Prop where
  closed : l.spec.Closed
  unreserved : ∀ name ∈ l.spec.scenarios, name ≠ initNode ∧ name ≠ finalNode
  recorded : l.scenarios.map Name.text = l.spec.scenarios

theorem sound_start : start.Sound := by
  refine ⟨Specification.closed_iff.mpr ⟨?_, ?_, ?_, ?_⟩, ?_, rfl⟩ <;>
    exact fun _ h => absurd h List.not_mem_nil

theorem Step.sound (h : Step l l') (hl : l.Sound) : l'.Sound := by
  obtain ⟨hclosed, hunreserved, hrecorded⟩ := hl
  cases h with
  | blame cause name => exact ⟨hclosed, hunreserved, hrecorded⟩
  | component name hname => exact ⟨hclosed.addComponent hname, hunreserved, hrecorded⟩
  | scenario name hname hinit hfinal =>
      refine ⟨hclosed.addScenario hname, fun n hn => ?_, ?_⟩
      · rcases List.mem_append.mp hn with hold | hnew
        · exact hunreserved n hold
        · rw [List.mem_singleton.mp hnew]
          exact ⟨hinit, hfinal⟩
      · rw [List.map_append, hrecorded]
        rfl
  | lifeline component events hid =>
      exact ⟨hclosed.placeLifeline component hid events, hunreserved, hrecorded⟩
  | collect arrows => exact ⟨hclosed, hunreserved, hrecorded⟩
  | edge hs ht =>
      refine ⟨hclosed.addEdge hs ht, ?_, ?_⟩
      · rw [Specification.scenarios_addEdge]
        exact hunreserved
      · rw [Specification.scenarios_addEdge]
        exact hrecorded
  | initial hid => exact ⟨hclosed.addInitial hid, hunreserved, hrecorded⟩
  | final hid => exact ⟨hclosed.addFinal hid, hunreserved, hrecorded⟩

/-- **No run of steps leaves a dangling reference or a reserved name behind.** -/
theorem Steps.sound (h : Steps l l') (hl : l.Sound) : l'.Sound := by
  induction h with
  | refl => exact hl
  | tail _ hstep ih => exact hstep.sound ih

end Loader

/-- Whatever a document holds, what is loaded is sound, and complete in its lifelines. -/
theorem load_sound (d : Document) :
    d.load.Sound ∧ ∀ c ∈ d.load.spec.components, ∀ id, d.load.spec.declares id = true →
      c.lifelines.hasKey id = true := by
  obtain ⟨l, hsteps, hload⟩ := load_steps d
  have hl := hsteps.sound Loader.sound_start
  rw [hload]
  exact ⟨⟨hl.closed.fillLifelines, hl.unreserved, hl.recorded⟩,
    fun c hc id hid => Specification.hasKey_fillLifelines hc hid⟩

end Document

end ScenarioFsp
