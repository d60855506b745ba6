import Mathlib.Data.List.Induction
import Mathlib.Data.List.Nodup
import ScenarioFsp.Document.Loader

/-!
# Loading does not look at places

A loader compares names by their texts and passes them on to problems as they are. If the
names of a document are moved to other places, all that changes is where the problems are
found, and as long as the arrows stay in order it makes no difference where the flow blocks
stand (`load_moved`). Both are said at once: a state with its names moved and with more
arrows in it goes the same way (`Loader.moved`).
-/

namespace ScenarioFsp

namespace Document

/-! ## Flow blocks and other items -/

/-- Whether an item is a flow block. -/
def Item.isFlow : Item → Bool
  | flow _ => true
  | _ => false

theorem Item.isFlow_flow (all : List Arrows) : (Item.flow all).isFlow = true := rfl

/-- What a flow block has; other items have no arrows. -/
def Item.flows : Item → List Arrows
  | flow all => all
  | _ => []

theorem Item.flows_eq_nil {item : Item} (h : item.isFlow = false) : item.flows = [] := by
  cases item with
  | flow all => exact absurd h (by simp [Item.isFlow_flow])
  | components names => rfl
  | scenario block => rfl

theorem Item.exists_of_isFlow {item : Item} (h : item.isFlow = true) : ∃ all, item = .flow all := by
  cases item with
  | flow all => exact ⟨all, rfl⟩
  | components names => exact nomatch h
  | scenario block => exact nomatch h

/-- The items that are not flow blocks. -/
def others (d : Document) : List Item := d.items.filter fun item => !item.isFlow

/-- The arrows of all flow blocks, in order. -/
def flows (d : Document) : List Arrows := d.items.flatMap Item.flows

/-! ## Other places -/

section Move

variable (σ : Span → Span)

/-- The same name at another place. -/
def Name.move (name : Name) : Name := ⟨name.text, σ name.span⟩

/-- The same names at other places. -/
def NameList.move (names : NameList) : NameList :=
  ⟨names.first.move σ, names.more.map (Name.move σ)⟩

/-- The same lifeline at another place; events have none. -/
def LifelineBlock.move (block : LifelineBlock) : LifelineBlock :=
  ⟨block.component.move σ, block.events⟩

/-- The same scenario at another place, with its lifelines. -/
def ScenarioBlock.move (block : ScenarioBlock) : ScenarioBlock :=
  ⟨block.name.move σ, block.lifelines.map (LifelineBlock.move σ)⟩

/-- The same arrows at another place. -/
def Arrows.move (arrows : Arrows) : Arrows := ⟨arrows.source.move σ, arrows.targets.move σ⟩

/-- The same item at another place. -/
def Item.move : Item → Item
  | components names => components (names.move σ)
  | scenario block => scenario (block.move σ)
  | flow all => flow (all.map (Arrows.move σ))

/-- The same arrow between names at other places. -/
def Arrow.move (a : Arrow) : Arrow := ⟨a.source.move σ, a.target.move σ⟩

/-- The same problem with a name that stands elsewhere. -/
def Problem.move (p : Problem) : Problem := ⟨p.cause, p.blamed.move σ⟩

end Move

theorem Item.move_id (item : Item) : item.move id = item := by
  have hname : Name.move id = id := rfl
  have hlifeline : LifelineBlock.move id = id := rfl
  have harrows : Arrows.move id = id := by
    funext arrows
    simp [Arrows.move, NameList.move, hname]
  cases item with
  | components names => simp [Item.move, NameList.move, hname]
  | scenario block => simp [Item.move, ScenarioBlock.move, hname, hlifeline]
  | flow all => simp [Item.move, harrows]
namespace Loader

variable {σ : Span → Span} {more : List Arrow} {l : Loader}

/-- The same state with the names at other places, and with more arrows. -/
def moved (σ : Span → Span) (more : List Arrow) (l : Loader) : Loader :=
  ⟨l.spec, l.scenarios.map (Name.move σ), l.arrows.map (Arrow.move σ) ++ more,
    l.problems.map (Problem.move σ)⟩

theorem blame_moved (cause : Cause) (name : Name) :
    (l.moved σ more).blame cause (name.move σ) = (l.blame cause name).moved σ more := by
  unfold blame moved
  rw [List.map_append]
  rfl

theorem declareComponent_moved (name : Name) :
    (l.moved σ more).declareComponent (name.move σ) =
      (l.declareComponent name).moved σ more := by
  unfold declareComponent
  by_cases htaken : name.text ∈ l.spec.components.map Component.name
  · rw [dif_pos htaken, ← blame_moved]
    exact dif_pos htaken
  · rw [dif_neg htaken]
    exact dif_neg htaken

theorem addLifelines_moved (scenario : Name) (id : ScenarioId) (seen : List ComponentId)
    (blocks : List LifelineBlock) :
    addLifelines (scenario.move σ) id seen (l.moved σ more) (blocks.map (LifelineBlock.move σ)) =
      (addLifelines scenario id seen l blocks).moved σ more := by
  induction blocks generalizing l seen with
  | nil => rfl
  | cons block blocks ih =>
      rw [List.map_cons]
      cases hfound : l.spec.componentNamed? block.component.text with
      | none =>
          have hfound' : (l.moved σ more).spec.componentNamed? (block.move σ).component.text =
            none := hfound
          rw [addLifelines, hfound', addLifelines, hfound]
          dsimp only
          rw [← ih, ← blame_moved]
          rfl
      | some component =>
          have hfound' : (l.moved σ more).spec.componentNamed? (block.move σ).component.text =
            some component := hfound
          rw [addLifelines, hfound', addLifelines, hfound]
          dsimp only
          by_cases hseen : component ∈ seen
          · rw [if_pos hseen, if_pos hseen, ← ih, ← blame_moved]
            rfl
          · rw [if_neg hseen, if_neg hseen, ← ih]
            rfl

theorem addScenario_moved (block : ScenarioBlock) :
    (l.moved σ more).addScenario (block.move σ) = (l.addScenario block).moved σ more := by
  unfold addScenario
  by_cases hreserved : block.name.text = initNode ∨ block.name.text = finalNode
  · rw [if_pos hreserved, ← blame_moved]
    exact if_pos hreserved
  rw [if_neg hreserved]
  refine (if_neg hreserved).trans ?_
  by_cases htaken : block.name.text ∈ l.spec.scenarios
  · rw [dif_pos htaken, ← blame_moved]
    exact dif_pos htaken
  · rw [dif_neg htaken, ← addLifelines_moved]
    refine (dif_neg htaken).trans ?_
    unfold moved
    rw [List.map_append]
    rfl

/-- Items other than flow blocks do not look at places or at arrows. -/
theorem addOther_moved {item : Item} (hitem : item.isFlow = false) :
    (l.moved σ more).addItem (item.move σ) = (l.addItem item).moved σ more := by
  cases item with
  | flow all => exact absurd hitem (by simp [Item.isFlow_flow])
  | scenario block => exact addScenario_moved block
  | components names =>
      have hnames : (names.move σ).toList = names.toList.map (Name.move σ) := rfl
      show (names.move σ).toList.foldl declareComponent (l.moved σ more) =
        (names.toList.foldl declareComponent l).moved σ more
      rw [hnames, List.foldl_map]
      exact List.foldl_hom (moved σ more) fun l name => declareComponent_moved name

theorem foldl_others_moved {items : List Item} (h : ∀ item ∈ items, item.isFlow = false) :
    (items.map (Item.move σ)).foldl addItem (l.moved σ more) =
      (items.foldl addItem l).moved σ more := by
  induction items generalizing l with
  | nil => rfl
  | cons item items ih =>
      rw [List.map_cons, List.foldl_cons, List.foldl_cons,
        addOther_moved (h item List.mem_cons_self)]
      exact ih fun item hmem => h item (List.mem_cons_of_mem _ hmem)

theorem moved_id (more : List Arrow) (l : Loader) :
    l.moved id more = { l with arrows := l.arrows ++ more } := by
  have hname : Name.move id = id := rfl
  have harrow : Arrow.move id = id := rfl
  have hproblem : Problem.move id = id := rfl
  unfold moved
  rw [hname, harrow, hproblem, List.map_id, List.map_id, List.map_id]

/-- Arrows may be added before the places are changed or afterwards. -/
theorem moved_moved (σ : Span → Span) (more : List Arrow) (l : Loader) :
    (l.moved σ []).moved id (more.map (Arrow.move σ)) = (l.moved id more).moved σ [] := by
  rw [moved_id, moved_id]
  unfold moved
  rw [List.map_append, List.append_nil, List.append_nil]

/-- Flow blocks can be passed over, if their arrows are added at the end. -/
theorem foldl_addItem_eq (items : List Item) :
    items.foldl addItem l =
      ((items.filter fun item => !item.isFlow).foldl addItem l).moved id
        (arrowsOf (items.flatMap Item.flows)) := by
  induction items using List.reverseRecOn with
  | nil =>
      rw [moved_id]
      exact congrArg (Loader.mk _ _ · _) (List.append_nil _).symm
  | append_singleton items item ih =>
      rw [List.foldl_append, List.foldl_cons, List.foldl_nil, ih, List.filter_append,
        List.flatMap_append, List.flatMap_singleton]
      cases hitem : item.isFlow with
      | false =>
          rw [List.filter_singleton, hitem, Item.flows_eq_nil hitem, List.append_nil]
          show _ = (List.foldl addItem l (_ ++ [item])).moved id _
          rw [List.foldl_append, List.foldl_cons, List.foldl_nil, ← addOther_moved hitem,
            Item.move_id]
      | true =>
          obtain ⟨all, rfl⟩ := Item.exists_of_isFlow hitem
          rw [List.filter_singleton, hitem]
          show _ = (List.foldl addItem l (_ ++ [])).moved id _
          rw [List.append_nil, moved_id, moved_id]
          unfold addItem arrowsOf
          rw [List.flatMap_append, ← List.append_assoc]
          rfl

/-! ### Arrows -/

theorem withScenario_moved (name : Name) (use : Specification → ScenarioId → Specification) :
    (l.moved σ more).withScenario (name.move σ) use =
      (l.withScenario name use).moved σ more := by
  cases hfound : l.spec.scenarioNamed? name.text with
  | none =>
      have hfound' : (l.moved σ more).spec.scenarioNamed? (name.move σ).text = none := hfound
      unfold withScenario
      rw [hfound, hfound']
      exact blame_moved .unknownScenario name
  | some id =>
      have hfound' : (l.moved σ more).spec.scenarioNamed? (name.move σ).text = some id := hfound
      unfold withScenario
      rw [hfound, hfound']
      rfl

theorem connect_moved (a : Arrow) :
    (l.moved σ more).connect (a.move σ) = (l.connect a).moved σ more := by
  have hsource : (l.moved σ more).spec.scenarioNamed? (a.move σ).source.text =
    l.spec.scenarioNamed? a.source.text := rfl
  have htarget : (l.moved σ more).spec.scenarioNamed? (a.move σ).target.text =
    l.spec.scenarioNamed? a.target.text := rfl
  unfold connect
  rw [hsource, htarget]
  cases l.spec.scenarioNamed? a.source.text with
  | none =>
      cases l.spec.scenarioNamed? a.target.text with
      | none =>
          dsimp only
          rw [← blame_moved, ← blame_moved]
          rfl
      | some target => exact blame_moved .unknownScenario a.source
  | some source =>
      cases l.spec.scenarioNamed? a.target.text with
      | none => exact blame_moved .unknownScenario a.target
      | some target => rfl

theorem addArrow_moved (a : Arrow) :
    (l.moved σ more).addArrow (a.move σ) = (l.addArrow a).moved σ more := by
  have hsource : (a.move σ).source.text = a.source.text := rfl
  have htarget : (a.move σ).target.text = a.target.text := rfl
  unfold addArrow
  rw [hsource, htarget]
  split
  · exact blame_moved .initToFinal a.target
  split
  · exact blame_moved .intoInit a.target
  split
  · exact blame_moved .outOfFinal a.source
  split
  · exact withScenario_moved a.target .addInitial
  split
  · exact withScenario_moved a.source .addFinal
  · exact connect_moved a

theorem finish_moved : (l.moved σ []).finish = l.finish.moved σ [] := by
  have harrows : (l.moved σ []).arrows = l.arrows.map (Arrow.move σ) := List.append_nil _
  have hall : (l.arrows.map (Arrow.move σ)).foldl addArrow (l.moved σ []) =
      (l.arrows.foldl addArrow l).moved σ [] := by
    rw [List.foldl_map]
    exact List.foldl_hom (moved σ []) fun l a => addArrow_moved a
  unfold finish
  rw [harrows, hall]
  rfl

end Loader

/-- **Loading a document with its names at other places** makes a difference only to where its
problems are found, and it makes no difference where its flow blocks stand. -/
theorem load_moved {σ : Span → Span} {d d' : Document}
    (hothers : d'.others = d.others.map (Item.move σ))
    (hflows : d'.flows = d.flows.map (Arrows.move σ)) : d'.load = d.load.moved σ [] := by
  have harrows : Loader.arrowsOf d'.flows = (Loader.arrowsOf d.flows).map (Arrow.move σ) := by
    rw [hflows]
    unfold Loader.arrowsOf
    rw [List.flatMap_map, List.map_flatMap]
    refine List.flatMap_congr fun arrows _ => ?_
    have htargets : (arrows.move σ).targets.toList = arrows.targets.toList.map (Name.move σ) := rfl
    rw [htargets, List.map_map, List.map_map]
    rfl
  have hitems : d'.items.foldl Loader.addItem .start =
      (d.items.foldl Loader.addItem .start).moved σ [] := by
    have hnone : ∀ item ∈ d.others, item.isFlow = false := fun item hitem => by
      simpa using List.of_mem_filter hitem
    calc d'.items.foldl Loader.addItem .start
      _ = (d'.others.foldl Loader.addItem .start).moved id (Loader.arrowsOf d'.flows) :=
          Loader.foldl_addItem_eq d'.items
      _ = ((d.others.foldl Loader.addItem .start).moved σ []).moved id
            ((Loader.arrowsOf d.flows).map (Arrow.move σ)) := by
          rw [hothers, harrows, ← Loader.foldl_others_moved hnone]
          rfl
      _ = ((d.others.foldl Loader.addItem .start).moved id (Loader.arrowsOf d.flows)).moved σ [] :=
          Loader.moved_moved σ _ _
      _ = (d.items.foldl Loader.addItem .start).moved σ [] :=
          congrArg (Loader.moved σ []) (Loader.foldl_addItem_eq d.items).symm
  unfold load
  rw [hitems, Loader.finish_moved]

end Document

end ScenarioFsp
