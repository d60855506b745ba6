import ScenarioFsp.Document.Problem
import ScenarioFsp.Reachability
import ScenarioFsp.Specification

/-!
# From documents to specifications

The items are taken in order. Components have to be declared before a lifeline
names them; a scenario whose name cannot be taken is passed over with all that it
holds. Arrows may stand anywhere: they are collected, and looked up when all
scenarios are known. `init` and `final` are the outer nodes of the flow graph.
An arrow from the one marks an initial scenario and an arrow to the other a final
one, and no others may touch them. At the end every component has a lifeline in
every scenario, possibly an empty one.
-/

namespace ScenarioFsp

namespace Specification

/-- Empty lifelines for the scenarios in which there is none. -/
def fillFrom (ids : List ScenarioId) (lifelines : OrderedMap ScenarioId Lifeline) :
    OrderedMap ScenarioId Lifeline :=
  ids.foldl (fun m id => if m.hasKey id then m else m.insert id []) lifelines

/-- Gives every component a lifeline in every scenario. -/
def fillLifelines (spec : Specification) : Specification :=
  { spec with
    components := spec.components.map fun c =>
      { c with lifelines := fillFrom spec.scenarioIds c.lifelines }
    components_nodup := by
      rw [List.map_map]
      exact spec.components_nodup }

/-- The scenarios that runs of the flow graph reach. -/
def reachableScenarios (spec : Specification) : List ScenarioId :=
  reachable spec.continuations spec.scenarioIds spec.initial

end Specification

namespace Document

/-- The node before the initial scenarios. -/
def initNode : String := "init"

/-- The node after the final scenarios. -/
def finalNode : String := "final"

/-- An arrow of the flow graph. -/
structure Arrow where
  source : Name
  target : Name
deriving DecidableEq, Repr

/-- What has been loaded so far. -/
structure Loader where
  spec : Specification
  /-- The names of the scenarios, in the order of their numbers. -/
  scenarios : List Name
  /-- The arrows, in order. -/
  arrows : List Arrow
  /-- The problems, in the order in which they were found. -/
  problems : List Problem
deriving DecidableEq

namespace Loader

/-- Nothing has been loaded yet. -/
def start : Loader := ⟨.empty, [], [], []⟩

/-- Notes a problem, and blames a name for it. -/
def blame (l : Loader) (cause : Cause) (name : Name) : Loader :=
  { l with problems := l.problems ++ [⟨cause, name⟩] }

/-! ## Items -/

/-- Declares a component, unless there is one of that name. -/
def declareComponent (l : Loader) (name : Name) : Loader :=
  if h : name.text ∈ l.spec.components.map Component.name then l.blame .repeatedComponent name
  else { l with spec := l.spec.addComponent name.text h }

/--
Takes the lifeline blocks of a scenario; `seen` are the components that have had
one.
-/
def addLifelines (scenario : Name) (id : ScenarioId) (seen : List ComponentId) (l : Loader) :
    List LifelineBlock → Loader
  | [] => l
  | block :: blocks =>
    match l.spec.componentNamed? block.component.text with
    | none => addLifelines scenario id seen (l.blame .undeclaredComponent block.component) blocks
    | some component =>
      if component ∈ seen then
        addLifelines scenario id seen
          (l.blame (.repeatedLifeline scenario.text) block.component) blocks
      else
        addLifelines scenario id (component :: seen)
          { l with spec := l.spec.placeLifeline component id block.events } blocks

/-- Declares a scenario and takes its lifelines. A block whose name is reserved or taken is passed
over with its lifelines, and its name is blamed. -/
def addScenario (l : Loader) (block : ScenarioBlock) : Loader :=
  if block.name.text = initNode ∨ block.name.text = finalNode then
    l.blame .reservedName block.name
  else if h : block.name.text ∈ l.spec.scenarios then l.blame .repeatedScenario block.name
  else
    addLifelines block.name ⟨l.spec.scenarios.length⟩ []
      { l with
        spec := l.spec.addScenario block.name.text h
        scenarios := l.scenarios ++ [block.name] }
      block.lifelines

/-- The single arrows of a flow block. -/
def arrowsOf (block : List Arrows) : List Arrow :=
  block.flatMap fun arrows => arrows.targets.toList.map fun target => ⟨arrows.source, target⟩

/-- Takes an item; arrows are only collected, since they may lead to scenarios further down. -/
def addItem (l : Loader) : Item → Loader
  | .components names => names.toList.foldl declareComponent l
  | .scenario block => l.addScenario block
  | .flow block => { l with arrows := l.arrows ++ arrowsOf block }

/-! ## Arrows -/

/-- Looks up a node and goes on with its scenario; an unknown name is blamed. -/
def withScenario (l : Loader) (name : Name) (use : Specification → ScenarioId → Specification) :
    Loader :=
  match l.spec.scenarioNamed? name.text with
  | some id => { l with spec := use l.spec id }
  | none => l.blame .unknownScenario name

/-- Adds an edge between two scenarios; every unknown name is blamed. -/
def connect (l : Loader) (arrow : Arrow) : Loader :=
  match l.spec.scenarioNamed? arrow.source.text, l.spec.scenarioNamed? arrow.target.text with
  | some source, some target => { l with spec := l.spec.addEdge source target }
  | some _, none => l.blame .unknownScenario arrow.target
  | none, some _ => l.blame .unknownScenario arrow.source
  | none, none =>
    (l.blame .unknownScenario arrow.source).blame .unknownScenario arrow.target

/-- Takes an arrow: it marks a scenario as initial or as final, or it adds an edge. -/
def addArrow (l : Loader) (arrow : Arrow) : Loader :=
  if arrow.source.text = initNode ∧ arrow.target.text = finalNode then
    l.blame .initToFinal arrow.target
  else if arrow.target.text = initNode then l.blame .intoInit arrow.target
  else if arrow.source.text = finalNode then l.blame .outOfFinal arrow.source
  else if arrow.source.text = initNode then l.withScenario arrow.target .addInitial
  else if arrow.target.text = finalNode then l.withScenario arrow.source .addFinal
  else l.connect arrow

/-! ## Whole documents -/

/-- Looks up all arrows and completes the lifelines. -/
def finish (l : Loader) : Loader :=
  let l := l.arrows.foldl addArrow l
  { l with spec := l.spec.fillLifelines }

/-- The scenarios that no run reaches, or that no run starts at all. -/
def warnings (l : Loader) : List Warning :=
  if l.spec.initial.isEmpty && !l.scenarios.isEmpty then [.noInitialScenario]
  else
    let reached := l.spec.reachableScenarios
    (l.scenarios.zipIdx.filter fun entry => decide (⟨entry.2⟩ ∉ reached)).map fun entry =>
      .unreachable entry.1

end Loader

/-- Loads a document. -/
def load (d : Document) : Loader := (d.items.foldl Loader.addItem .start).finish

end Document

end ScenarioFsp
