import ScenarioFsp.Proofs.Document.Steps
import ScenarioFsp.Proofs.Document.Tree

/-!
# Walking over a tree

Whoever has only a tree cannot rely on its shape. The walk below takes the parts as they
come: it asks whether a name is taken before it declares it, and it stops with an alarm
at a part that it has no use for, at a name that is declared although it is taken, and
at a number that nothing has. Loading a document does without these precautions, and
that is no loss: over the tree of a document the walk ends where loading ends
(`walk_tree`), so that no alarm is ever raised.
-/

namespace ScenarioFsp

namespace Document

/-- Why a walk stops half way. -/
inductive Alarm where
  /-- A request was refused. -/
  | refused (cause : Failure)
  /-- A part stands where nobody expects it. -/
  | unexpected (what : Construct)

namespace Part

/-- What a part is. -/
def what : Part → Construct
  | name _ => .identifier
  | text what _ => what
  | node what _ => what

end Part

namespace Walk

/-- Asks for something that may be refused. -/
def request {α : Type} : Except Failure α → Except Alarm α
  | .ok a => .ok a
  | .error cause => .error (.refused cause)

/-! ## The walk -/

/-- Takes a part for a name. -/
def name : Part → Except Alarm Name
  | .name name => .ok name
  | part => .error (.unexpected part.what)

/-- Declares a component, if its name is not taken. -/
def component (l : Loader) (part : Part) : Except Alarm Loader := do
  let name ← name part
  if (l.spec.componentNamed? name.text).isSome then
    return l.blame .repeatedComponent name
  else
    let (_, spec) ← request (l.spec.declareComponent name.text)
    return { l with spec }

/-- Takes a part for an event. -/
def event : Part → Except Alarm Event
  | .node .message [.text _ label] => .ok (.message label)
  | .node .condition [.text _ label] => .ok (.condition label)
  | part => .error (.unexpected part.what)

/-- Takes the parts of a lifeline block; `seen` are the components that have had one. -/
def lifeline (scenario : ScenarioId) (seen : List ComponentId) (l : Loader) :
    List Part → Except Alarm (List ComponentId × Loader)
  | [] => .ok (seen, l)
  | first :: events => do
    let name ← name first
    match l.spec.componentNamed? name.text with
    | none => return (seen, l.blame .undeclaredComponent name)
    | some component =>
      if component ∈ seen then
        let scenario ← request (l.spec.scenarioAt scenario)
        return (seen, l.blame (.repeatedLifeline scenario) name)
      else
        let events ← events.mapM event
        let spec ← request (l.spec.setLifeline component scenario events)
        return (component :: seen, { l with spec })

/-- Takes the lifeline blocks of a scenario one after the other. -/
def lifelines (scenario : ScenarioId) (seen : List ComponentId) (l : Loader) :
    List Part → Except Alarm Loader
  | [] => .ok l
  | .node .lifeline parts :: blocks => do
    let (seen, l) ← lifeline scenario seen l parts
    lifelines scenario seen l blocks
  | part :: _ => .error (.unexpected part.what)

/-- Takes the parts of a scenario: its name, and then the blocks unless the name is refused. -/
def scenario (l : Loader) : List Part → Except Alarm Loader
  | [] => .ok l
  | first :: blocks => do
    let name ← name first
    if name.text = initNode ∨ name.text = finalNode then
      return l.blame .reservedName name
    else if (l.spec.scenarioNamed? name.text).isSome then
      return l.blame .repeatedScenario name
    else
      let (id, spec) ← request (l.spec.declareScenario name.text)
      lifelines id [] { l with spec, scenarios := l.scenarios ++ [name] } blocks

/-- Collects the arrows that leave one node. -/
def arrows (l : Loader) : Part → Except Alarm Loader
  | .node .arrows [] => .ok l
  | .node .arrows (first :: targets) => do
    let source ← name first
    let targets ← targets.mapM name
    return { l with arrows := l.arrows ++ targets.map fun target => ⟨source, target⟩ }
  | part => .error (.unexpected part.what)

/-- Takes a part for an item. The end of the text is one of the parts, and nothing is done at it. -/
def item (l : Loader) : Part → Except Alarm Loader
  | .node .components names => names.foldlM component l
  | .node .scenario parts => scenario l parts
  | .node .flow all => all.foldlM arrows l
  | .node .endOfText _ => .ok l
  | part => .error (.unexpected part.what)

end Walk

/-- Walks over the tree of a text. -/
def walk : Part → Except Alarm Loader
  | .node .document items => do
    let l ← items.foldlM Walk.item .start
    return l.finish
  | part => .error (.unexpected part.what)

namespace Walk

variable (l : Loader)

theorem component_name (name : Name) :
    component l (.name name) = .ok (l.declareComponent name) := by
  unfold Loader.declareComponent
  show (if _ then _ else _) = _
  split
  · rename_i hsome
    rw [dif_pos (Specification.isSome_componentNamed?.mp hsome)]
    rfl
  · rename_i hnone
    have h : name.text ∉ l.spec.components.map Component.name :=
      fun hmem => hnone (Specification.isSome_componentNamed?.mpr hmem)
    rw [dif_neg h, Specification.declareComponent_eq_ok h]
    rfl

theorem name_part (n : Name) : name (.name n) = .ok n := rfl

theorem event_part (e : Event) : event (eventPart e) = .ok e := by
  cases e with
  | message label => rfl
  | condition label => rfl

/-- What every part gives back is what it was made of. -/
theorem mapM_map {α : Type} {f : Part → Except Alarm α} {part : α → Part}
    (h : ∀ a, f (part a) = .ok a) (as : List α) : (as.map part).mapM f = .ok as := by
  induction as with
  | nil => rfl
  | cons a as ih =>
      rw [List.map_cons, List.mapM_cons, h, ih]
      rfl

/-- A fold over parts that never stops ends where the fold over what they are made of does. -/
theorem foldlM_map {α : Type} {f : Loader → Part → Except Alarm Loader} {part : α → Part}
    {g : Loader → α → Loader} (h : ∀ l a, f l (part a) = .ok (g l a)) (as : List α) (l : Loader) :
    (as.map part).foldlM f l = .ok (as.foldl g l) := by
  induction as generalizing l with
  | nil => rfl
  | cons a as ih =>
      rw [List.map_cons, List.foldlM_cons, h]
      exact ih (g l a)

theorem lifeline_name (id : ScenarioId) (seen : List ComponentId) (n : Name) (events : List Part) :
    lifeline id seen l (.name n :: events) =
      match l.spec.componentNamed? n.text with
      | none => .ok (seen, l.blame .undeclaredComponent n)
      | some component =>
        if component ∈ seen then
          (request (l.spec.scenarioAt id)).bind fun scenario =>
            .ok (seen, l.blame (.repeatedLifeline scenario) n)
        else
          (events.mapM event).bind fun events =>
            (request (l.spec.setLifeline component id events)).bind fun spec =>
              .ok (component :: seen, { l with spec }) := rfl

theorem lifelines_cons {id : ScenarioId} {seen seen' : List ComponentId} {l l' : Loader}
    {parts : List Part} (h : lifeline id seen l parts = .ok (seen', l')) (blocks : List Part) :
    lifelines id seen l (.node .lifeline parts :: blocks) = lifelines id seen' l' blocks := by
  rw [lifelines, h]
  rfl

/-- The lifeline blocks of a scenario that has been declared under its name. -/
theorem lifelines_map (scenario : Name) {id : ScenarioId} (seen : List ComponentId) (l : Loader)
    (hid : l.spec.scenario? id = some scenario.text) (blocks : List LifelineBlock) :
    lifelines id seen l (blocks.map LifelineBlock.part) =
      .ok (Loader.addLifelines scenario id seen l blocks) := by
  induction blocks generalizing seen l with
  | nil => rfl
  | cons block blocks ih =>
      -- one block is one step, and the scenario keeps its name in all of them
      have hblock : ∀ seen' l', lifeline id seen l
            (.name block.component :: block.events.map eventPart) = .ok (seen', l') →
          l'.spec.scenario? id = some scenario.text →
          lifelines id seen l ((block :: blocks).map LifelineBlock.part) =
            .ok (Loader.addLifelines scenario id seen' l' blocks) :=
        fun seen' l' hstep hid' => (lifelines_cons hstep _).trans (ih seen' l' hid')
      rw [Loader.addLifelines]
      cases hfound : l.spec.componentNamed? block.component.text with
      | none =>
          refine hblock seen _ ?_ hid
          rw [lifeline_name, hfound]
      | some component =>
          dsimp only
          split
          · rename_i hseen
            refine hblock seen _ ?_ hid
            rw [lifeline_name, hfound]
            dsimp only
            rw [if_pos hseen, Specification.scenarioAt_eq_ok hid]
            rfl
          · rename_i hseen
            refine hblock (component :: seen) _ ?_ hid
            rw [lifeline_name, hfound]
            dsimp only
            rw [if_neg hseen, mapM_map event_part]
            dsimp only [Except.bind]
            rw [Specification.setLifeline_eq_ok hfound]
            rfl

theorem scenario_part (block : ScenarioBlock) :
    scenario l (.name block.name :: block.lifelines.map LifelineBlock.part) =
      .ok (l.addScenario block) := by
  unfold Loader.addScenario
  show (if _ then _ else _) = _
  split
  · rfl
  · split
    · rename_i hsome
      rw [dif_pos (Specification.isSome_scenarioNamed?.mp hsome)]
      rfl
    · rename_i hnone
      have h : block.name.text ∉ l.spec.scenarios :=
        fun hmem => hnone (Specification.isSome_scenarioNamed?.mpr hmem)
      rw [dif_neg h, Specification.declareScenario_eq_ok h]
      refine lifelines_map block.name [] _ ?_ block.lifelines
      exact List.getElem?_concat_length

theorem arrows_part (block : Arrows) :
    arrows l block.part =
      .ok { l with arrows := l.arrows ++ block.targets.toList.map fun t => ⟨block.source, t⟩ } := by
  show ((block.targets.toList.map Part.name).mapM name >>= _) = _
  rw [mapM_map name_part]
  rfl

theorem foldl_arrows (all : List Arrows) :
    all.foldl (fun l block =>
        { l with arrows := l.arrows ++ block.targets.toList.map fun t => ⟨block.source, t⟩ }) l =
      { l with arrows := l.arrows ++ Loader.arrowsOf all } := by
  unfold Loader.arrowsOf
  induction all generalizing l with
  | nil => rw [List.foldl_nil, List.flatMap_nil, List.append_nil]
  | cons block all ih => rw [List.foldl_cons, ih, List.flatMap_cons, List.append_assoc]

theorem item_part (block : Item) : item l block.part = .ok (l.addItem block) := by
  cases block with
  | components names => exact foldlM_map component_name names.toList l
  | scenario block => exact scenario_part l block
  | flow all =>
      refine (foldlM_map arrows_part all l).trans ?_
      rw [foldl_arrows]
      rfl

end Walk

/-- **Over the tree of a document the walk ends where loading does**, and no alarm is raised. -/
theorem walk_tree (d : Document) : walk d.tree = .ok d.load := by
  show ((d.items.map Item.part ++ [Part.node .endOfText []]).foldlM Walk.item .start >>= _) = _
  rw [List.foldlM_append, Walk.foldlM_map Walk.item_part]
  rfl

end Document

end ScenarioFsp
