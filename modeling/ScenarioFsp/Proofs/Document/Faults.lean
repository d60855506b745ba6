import Mathlib.Data.List.Induction
import ScenarioFsp.Document.Loader
import ScenarioFsp.Proofs.Declarations

/-!
# What is wrong with a document

Which names of a document are to blame can be said without loading it: every rule looks
at a place, at what stands before it, and, for the arrows, at the scenarios that are
defined anywhere (`Blames`). A document that breaks no rule is `Valid`. Loading takes
the items one after the other and knows only what it has declared so far; it blames
exactly the names that the rules blame (`mem_problems_load`). A scenario that is not
accepted is blamed by its name alone: nobody looks at its lifelines.
-/

namespace ScenarioFsp

/-! ## Places in a list -/

section Places

variable {α β : Type} {P : List α → α → Prop}

/-- Somewhere in a list, what stands there and what stands before it fit. -/
def Somewhere (P : List α → α → Prop) (l : List α) : Prop :=
  ∃ before a after, l = before ++ a :: after ∧ P before a

theorem not_somewhere_nil : ¬Somewhere P [] := by
  rintro ⟨before, a, after, h, -⟩
  exact absurd h.symm (List.append_ne_nil_of_right_ne_nil before (List.cons_ne_nil a after))

theorem somewhere_cons {a : α} {l : List α} :
    Somewhere P (a :: l) ↔ P [] a ∨ Somewhere (fun before => P (a :: before)) l := by
  refine ⟨fun h => ?_, fun h => ?_⟩
  · obtain ⟨before, b, after, h, hP⟩ := h
    cases before with
    | nil =>
        obtain ⟨rfl, rfl⟩ := List.cons.inj h
        exact Or.inl hP
    | cons c before =>
        obtain ⟨rfl, rfl⟩ := List.cons.inj h
        exact Or.inr ⟨before, b, after, rfl, hP⟩
  · rcases h with hP | ⟨before, b, after, rfl, hP⟩
    · exact ⟨[], a, l, rfl, hP⟩
    · exact ⟨a :: before, b, after, rfl, hP⟩

theorem somewhere_concat {a : α} {l : List α} :
    Somewhere P (l ++ [a]) ↔ Somewhere P l ∨ P l a := by
  induction l generalizing P with
  | nil =>
      rw [List.nil_append, somewhere_cons]
      exact ⟨fun h => h.elim Or.inr fun hnil => absurd hnil not_somewhere_nil,
        fun h => h.elim (fun hnil => absurd hnil not_somewhere_nil) Or.inl⟩
  | cons b l ih => rw [List.cons_append, somewhere_cons, ih, somewhere_cons, or_assoc]

theorem somewhere_congr {Q : List α → α → Prop} {l : List α}
    (h : ∀ before a, P before a ↔ Q before a) :
    Somewhere P l ↔ Somewhere Q l := by
  unfold Somewhere
  simp only [h]

/-- A list goes on without repeats as long as no member is there before it. -/
theorem nodup_append_map_iff {f : α → β} {done : List β} {l : List α} :
    (done ++ l.map f).Nodup ↔
      done.Nodup ∧ ¬Somewhere (fun before a => f a ∈ done ∨ f a ∈ before.map f) l := by
  induction l using List.reverseRecOn with
  | nil => simp [not_somewhere_nil]
  | append_singleton l a ih =>
      rw [List.map_append, ← List.append_assoc, List.map_singleton, List.nodup_append, ih,
        somewhere_concat]
      simp only [List.nodup_cons, List.not_mem_nil, not_false_eq_true, List.nodup_nil, and_true,
        true_and, List.mem_singleton, List.mem_append, ne_eq, forall_eq, not_or]
      constructor
      · rintro ⟨⟨hdone, hnot⟩, hnew⟩
        exact ⟨hdone, hnot, fun h => hnew _ (Or.inl h) rfl, fun h => hnew _ (Or.inr h) rfl⟩
      · rintro ⟨hdone, hnot, hnew, hnew'⟩
        refine ⟨⟨hdone, hnot⟩, fun b hb heq => ?_⟩
        subst heq
        exact hb.elim hnew hnew'

end Places

namespace Document

/-! ## What the items declare -/

/-- The names that an item declares as components. -/
def Item.componentNames : Item → List Name
  | components names => names.toList
  | _ => []

/-- The name that an item gives to a scenario. -/
def Item.scenarioNames : Item → List Name
  | scenario block => [block.name]
  | _ => []

/-- The arrows of an item, one for each target. -/
def Item.arrows : Item → List Arrow
  | flow block => Loader.arrowsOf block
  | _ => []

/-- The components that some items declare. -/
def declared (items : List Item) : List String :=
  (items.flatMap Item.componentNames).map Name.text

/-- The names of the scenario blocks among some items, accepted or not. -/
def called (items : List Item) : List String :=
  (items.flatMap Item.scenarioNames).map Name.text

/-- The names of the two outer nodes. -/
def Reserved (name : String) : Prop := name = initNode ∨ name = finalNode

/-- A block is accepted if its name is not reserved and no block before it has that name. -/
def Accepts (before : List Item) (block : ScenarioBlock) : Prop :=
  ¬Reserved block.name.text ∧ block.name.text ∉ called before

/-- Some block of that name is accepted. -/
def Defines (items : List Item) (name : String) : Prop :=
  Somewhere (fun before item => ∃ block, item = .scenario block ∧ Accepts before block ∧
    block.name.text = name) items

/-! ## The rules -/

/-- What an item is blamed for, after the items before it. -/
inductive Item.Blames (before : List Item) : Item → Problem → Prop where
  | repeatedComponent {names : NameList} {earlier later : List Name} {name : Name} :
      names.toList = earlier ++ name :: later →
      name.text ∈ declared before ∨ name.text ∈ earlier.map Name.text →
      Blames before (.components names) ⟨.repeatedComponent, name⟩
  | reservedName {block : ScenarioBlock} :
      Reserved block.name.text → Blames before (.scenario block) ⟨.reservedName, block.name⟩
  | repeatedScenario {block : ScenarioBlock} :
      ¬Reserved block.name.text → Defines before block.name.text →
      Blames before (.scenario block) ⟨.repeatedScenario, block.name⟩
  | undeclaredComponent {block : ScenarioBlock} {lifeline : LifelineBlock} :
      Accepts before block → lifeline ∈ block.lifelines →
      lifeline.component.text ∉ declared before →
      Blames before (.scenario block) ⟨.undeclaredComponent, lifeline.component⟩
  | repeatedLifeline {block : ScenarioBlock} {earlier later : List LifelineBlock}
      {lifeline : LifelineBlock} :
      Accepts before block → block.lifelines = earlier ++ lifeline :: later →
      lifeline.component.text ∈ declared before →
      lifeline.component.text ∈ earlier.map (fun other => other.component.text) →
      Blames before (.scenario block) ⟨.repeatedLifeline block.name.text, lifeline.component⟩

/-- No arrow goes to `init`, leaves `final`, or passes over all scenarios. -/
structure Arrow.Legal (a : Arrow) : Prop where
  target : a.target.text ≠ initNode
  source : a.source.text ≠ finalNode
  direct : ¬(a.source.text = initNode ∧ a.target.text = finalNode)

/-- What an arrow is blamed for. Of an arrow that is not legal only one end is looked at. -/
inductive Arrow.Blames (items : List Item) : Arrow → Problem → Prop where
  | initToFinal {a : Arrow} : a.source.text = initNode → a.target.text = finalNode →
      Blames items a ⟨.initToFinal, a.target⟩
  | intoInit {a : Arrow} : a.target.text = initNode → Blames items a ⟨.intoInit, a.target⟩
  | outOfFinal {a : Arrow} : a.source.text = finalNode → a.target.text ≠ initNode →
      Blames items a ⟨.outOfFinal, a.source⟩
  | unknownSource {a : Arrow} : a.Legal → a.source.text ≠ initNode →
      ¬Defines items a.source.text → Blames items a ⟨.unknownScenario, a.source⟩
  | unknownTarget {a : Arrow} : a.Legal → a.target.text ≠ finalNode →
      ¬Defines items a.target.text → Blames items a ⟨.unknownScenario, a.target⟩

namespace Arrow

variable {items : List Item} {a : Arrow} {p : Problem}

theorem initNode_ne_finalNode : initNode ≠ finalNode := by decide

theorem blames_iff_of_direct (hinit : a.source.text = initNode) (hfinal : a.target.text = finalNode) :
    a.Blames items p ↔ p = ⟨.initToFinal, a.target⟩ := by
  refine ⟨fun hp => ?_, fun hp => ?_⟩
  · cases hp with
    | initToFinal _ _ => rfl
    | intoInit hinto => exact absurd (hinto.symm.trans hfinal) initNode_ne_finalNode
    | outOfFinal hout _ => exact absurd (hinit.symm.trans hout) initNode_ne_finalNode
    | unknownSource hlegal _ _ => exact absurd ⟨hinit, hfinal⟩ hlegal.direct
    | unknownTarget hlegal _ _ => exact absurd ⟨hinit, hfinal⟩ hlegal.direct
  · rw [hp]
    exact .initToFinal hinit hfinal

theorem blames_iff_of_intoInit (hinto : a.target.text = initNode) :
    a.Blames items p ↔ p = ⟨.intoInit, a.target⟩ := by
  refine ⟨fun hp => ?_, fun hp => ?_⟩
  · cases hp with
    | initToFinal _ hfinal => exact absurd (hinto.symm.trans hfinal) initNode_ne_finalNode
    | intoInit _ => rfl
    | outOfFinal _ hnot => exact absurd hinto hnot
    | unknownSource hlegal _ _ => exact absurd hinto hlegal.target
    | unknownTarget hlegal _ _ => exact absurd hinto hlegal.target
  · rw [hp]
    exact .intoInit hinto

theorem blames_iff_of_outOfFinal (hout : a.source.text = finalNode)
    (hnot : a.target.text ≠ initNode) : a.Blames items p ↔ p = ⟨.outOfFinal, a.source⟩ := by
  refine ⟨fun hp => ?_, fun hp => ?_⟩
  · cases hp with
    | initToFinal hinit _ => exact absurd (hinit.symm.trans hout) initNode_ne_finalNode
    | intoInit hinto => exact absurd hinto hnot
    | outOfFinal _ _ => rfl
    | unknownSource hlegal _ _ => exact absurd hout hlegal.source
    | unknownTarget hlegal _ _ => exact absurd hout hlegal.source
  · rw [hp]
    exact .outOfFinal hout hnot

theorem blames_iff_of_legal (hlegal : a.Legal) : a.Blames items p ↔
    a.source.text ≠ initNode ∧ ¬Defines items a.source.text ∧ p = ⟨.unknownScenario, a.source⟩ ∨
      a.target.text ≠ finalNode ∧ ¬Defines items a.target.text ∧
        p = ⟨.unknownScenario, a.target⟩ := by
  refine ⟨fun hp => ?_, fun hp => ?_⟩
  · cases hp with
    | initToFinal hinit hfinal => exact absurd ⟨hinit, hfinal⟩ hlegal.direct
    | intoInit hinto => exact absurd hinto hlegal.target
    | outOfFinal hout _ => exact absurd hout hlegal.source
    | unknownSource _ hinit hnot => exact Or.inl ⟨hinit, hnot, rfl⟩
    | unknownTarget _ hfinal hnot => exact Or.inr ⟨hfinal, hnot, rfl⟩
  · rcases hp with ⟨hinit, hnot, rfl⟩ | ⟨hfinal, hnot, rfl⟩
    · exact .unknownSource hlegal hinit hnot
    · exact .unknownTarget hlegal hfinal hnot

end Arrow

/-- The names of a document that are to blame, and for what. -/
def Blames (d : Document) (p : Problem) : Prop :=
  Somewhere (fun before item => item.Blames before p) d.items ∨
    ∃ a ∈ d.items.flatMap Item.arrows, a.Blames d.items p

/-- What a document has to be like. -/
structure Valid (d : Document) : Prop where
  /-- No component is declared twice. -/
  components : (declared d.items).Nodup
  /-- No scenario has a reserved name, or that of an accepted one before it. -/
  scenarios : ∀ before block after, d.items = before ++ .scenario block :: after →
    ¬Reserved block.name.text ∧ ¬Defines before block.name.text
  /-- Every lifeline is one of a component that has been declared before the scenario. -/
  lifelines : ∀ before block after, d.items = before ++ .scenario block :: after →
    Accepts before block → ∀ lifeline ∈ block.lifelines,
      lifeline.component.text ∈ declared before
  /-- No component has two lifelines in a scenario. -/
  once : ∀ before block after, d.items = before ++ .scenario block :: after →
    Accepts before block → (block.lifelines.map fun lifeline => lifeline.component.text).Nodup
  legal : ∀ a ∈ d.items.flatMap Item.arrows, a.Legal
  /-- The ends of arrows, but for the outer nodes, are defined somewhere. -/
  ends : ∀ a ∈ d.items.flatMap Item.arrows,
    (a.source.text ≠ initNode → Defines d.items a.source.text) ∧
      (a.target.text ≠ finalNode → Defines d.items a.target.text)

/-! ## Definitions, item by item -/

section Items

variable {items before : List Item} {item : Item} {name : String} {block : ScenarioBlock}

theorem declared_concat (items : List Item) (item : Item) :
    declared (items ++ [item]) = declared items ++ item.componentNames.map Name.text := by
  unfold declared
  rw [List.flatMap_append, List.flatMap_singleton, List.map_append]

theorem called_concat (items : List Item) (item : Item) :
    called (items ++ [item]) = called items ++ item.scenarioNames.map Name.text := by
  unfold called
  rw [List.flatMap_append, List.flatMap_singleton, List.map_append]

theorem defines_concat : Defines (items ++ [item]) name ↔
    Defines items name ∨
      ∃ block, item = .scenario block ∧ Accepts items block ∧ block.name.text = name :=
  somewhere_concat

/-- Of the blocks of one name the first is accepted, unless the name is reserved. -/
theorem defines_iff : Defines items name ↔ ¬Reserved name ∧ name ∈ called items := by
  induction items using List.reverseRecOn with
  | nil => exact ⟨fun h => absurd h not_somewhere_nil, fun h => absurd h.2 List.not_mem_nil⟩
  | append_singleton items item ih =>
      rw [defines_concat, ih, called_concat, List.mem_append]
      constructor
      · rintro (⟨hfree, hmem⟩ | ⟨block, rfl, haccepts, rfl⟩)
        · exact ⟨hfree, Or.inl hmem⟩
        · exact ⟨haccepts.1, Or.inr (List.mem_singleton_self _)⟩
      · rintro ⟨hfree, hmem | hnew⟩
        · exact Or.inl ⟨hfree, hmem⟩
        · cases item with
          | components names => exact absurd hnew List.not_mem_nil
          | flow block => exact absurd hnew List.not_mem_nil
          | scenario block =>
              obtain rfl : name = block.name.text := List.mem_singleton.mp hnew
              by_cases hmem : block.name.text ∈ called items
              · exact Or.inl ⟨hfree, hmem⟩
              · exact Or.inr ⟨block, rfl, ⟨hfree, hmem⟩, rfl⟩

/-- A block is accepted exactly if its name is neither reserved nor defined already. -/
theorem accepts_iff : Accepts before block ↔
    ¬Reserved block.name.text ∧ ¬Defines before block.name.text := by
  rw [defines_iff]
  exact and_congr_right fun hfree => not_congr (by simp [hfree])

end Items

/-! ## Validity is the absence of blame -/

variable {d : Document}

theorem nodup_declared_iff {items : List Item} : (declared items).Nodup ↔
    ∀ name, ¬Somewhere (fun before item => item.Blames before ⟨.repeatedComponent, name⟩) items := by
  induction items using List.reverseRecOn with
  | nil => simp [declared, not_somewhere_nil]
  | append_singleton items item ih =>
      rw [declared_concat, nodup_append_map_iff, ih]
      simp only [somewhere_concat, not_or]
      rw [forall_and]
      refine and_congr_right fun _ => ?_
      cases item with
      | components names =>
          refine ⟨fun h name hblames => ?_, fun h hrepeat => ?_⟩
          · cases hblames with
            | repeatedComponent hsplit hmem => exact h ⟨_, _, _, hsplit, hmem⟩
          · obtain ⟨earlier, name, later, hsplit, hmem⟩ := hrepeat
            exact h name (.repeatedComponent hsplit hmem)
      | scenario block => exact ⟨fun _ _ h => (nomatch h), fun _ => not_somewhere_nil⟩
      | flow block => exact ⟨fun _ _ h => (nomatch h), fun _ => not_somewhere_nil⟩

theorem nodup_map_iff {α β : Type} {f : α → β} {l : List α} :
    (l.map f).Nodup ↔ ¬Somewhere (fun before a => f a ∈ before.map f) l := by
  have h : ([] ++ l.map f).Nodup ↔ _ := nodup_append_map_iff
  simpa using h

/-- **A document is valid exactly if there is nothing to blame.** -/
theorem valid_iff : d.Valid ↔ ∀ p, ¬d.Blames p := by
  constructor
  · rintro ⟨hcomponents, hscenarios, hlifelines, honce, hlegal, hends⟩ p hp
    rcases hp with ⟨before, item, after, hitems, hblames⟩ | ⟨a, ha, hblames⟩
    · cases hblames with
      | repeatedComponent hsplit hmem =>
          exact nodup_declared_iff.mp hcomponents _
            ⟨before, _, after, hitems, .repeatedComponent hsplit hmem⟩
      | reservedName hreserved => exact (hscenarios _ _ _ hitems).1 hreserved
      | repeatedScenario _ hdefines => exact (hscenarios _ _ _ hitems).2 hdefines
      | undeclaredComponent haccepts hmem hnot => exact hnot (hlifelines _ _ _ hitems haccepts _ hmem)
      | repeatedLifeline haccepts hsplit _ hmem =>
          exact nodup_map_iff.mp (honce _ _ _ hitems haccepts) ⟨_, _, _, hsplit, hmem⟩
    · have hlegal := hlegal a ha
      obtain ⟨hsource, htarget⟩ := hends a ha
      cases hblames with
      | initToFinal hinit hfinal => exact hlegal.direct ⟨hinit, hfinal⟩
      | intoInit hinit => exact hlegal.target hinit
      | outOfFinal hfinal _ => exact hlegal.source hfinal
      | unknownSource _ hinit hnot => exact hnot (hsource hinit)
      | unknownTarget _ hfinal hnot => exact hnot (htarget hfinal)
  · intro h
    have hitem : ∀ {before item after}, d.items = before ++ item :: after →
        ∀ p, ¬item.Blames before p :=
      fun hitems p hp => h p (Or.inl ⟨_, _, _, hitems, hp⟩)
    have harrow : ∀ a ∈ d.items.flatMap Item.arrows, ∀ p, ¬a.Blames d.items p :=
      fun a ha p hp => h p (Or.inr ⟨a, ha, hp⟩)
    have hlegal : ∀ a ∈ d.items.flatMap Item.arrows, a.Legal := by
      refine fun a ha => ⟨fun hinit => harrow a ha _ (.intoInit hinit), fun hfinal => ?_,
        fun hdirect => harrow a ha _ (.initToFinal hdirect.1 hdirect.2)⟩
      by_cases hinit : a.target.text = initNode
      · exact harrow a ha _ (.intoInit hinit)
      · exact harrow a ha _ (.outOfFinal hfinal hinit)
    have hlifelines : ∀ before block after, d.items = before ++ .scenario block :: after →
        Accepts before block → ∀ lifeline ∈ block.lifelines,
          lifeline.component.text ∈ declared before :=
      fun _ _ _ hitems haccepts _ hmem => Classical.byContradiction fun hnot =>
        hitem hitems _ (.undeclaredComponent haccepts hmem hnot)
    refine ⟨nodup_declared_iff.mpr fun name hname => h _ (Or.inl hname),
      fun _ _ _ hitems => ⟨fun hreserved => hitem hitems _ (.reservedName hreserved),
        fun hdefines => ?_⟩,
      hlifelines, fun _ _ _ hitems haccepts => nodup_map_iff.mpr ?_, hlegal,
      fun a ha => ⟨fun hinit => ?_, fun hfinal => ?_⟩⟩
    · exact hitem hitems _ (.repeatedScenario (defines_iff.mp hdefines).1 hdefines)
    · rintro ⟨earlier, lifeline, later, hsplit, hmem⟩
      have hdeclared := hlifelines _ _ _ hitems haccepts lifeline (by rw [hsplit]; simp)
      exact hitem hitems _ (.repeatedLifeline haccepts hsplit hdeclared hmem)
    · exact Classical.byContradiction fun hnot =>
        harrow a ha _ (.unknownSource (hlegal a ha) hinit hnot)
    · exact Classical.byContradiction fun hnot =>
        harrow a ha _ (.unknownTarget (hlegal a ha) hfinal hnot)

/-! ## Loading item by item -/

namespace Loader

variable {l : Loader} {p : Problem}

/-- The names of the components loaded so far. -/
def componentNames (l : Loader) : List String := l.spec.components.map Component.name

theorem foldl_declareComponent (names : List Name) (l : Loader) :
    (∀ s, s ∈ (names.foldl declareComponent l).componentNames ↔
        s ∈ l.componentNames ∨ s ∈ names.map Name.text) ∧
      (names.foldl declareComponent l).spec.scenarios = l.spec.scenarios ∧
      (names.foldl declareComponent l).arrows = l.arrows ∧
      ∀ p, p ∈ (names.foldl declareComponent l).problems ↔ p ∈ l.problems ∨
        Somewhere (fun before name => (name.text ∈ l.componentNames ∨
          name.text ∈ before.map Name.text) ∧ p = ⟨.repeatedComponent, name⟩) names := by
  induction names using List.reverseRecOn with
  | nil => exact ⟨fun s => by simp, rfl, rfl, fun p => by simp [not_somewhere_nil]⟩
  | append_singleton names name ih =>
      obtain ⟨hnames, hscenarios, harrows, hproblems⟩ := ih
      rw [List.foldl_append, List.foldl_cons, List.foldl_nil]
      generalize names.foldl declareComponent l = done at *
      unfold declareComponent
      split
      · rename_i htaken
        have htaken := (hnames _).mp htaken
        refine ⟨fun s => ?_, hscenarios, harrows, fun p => ?_⟩
        · rw [List.map_append, List.mem_append, ← or_assoc, ← hnames s]
          refine ⟨Or.inl, fun h => h.elim id fun hs => ?_⟩
          rw [List.mem_singleton.mp hs]
          exact (hnames _).mpr htaken
        · rw [somewhere_concat, ← or_assoc, ← hproblems p]
          show p ∈ done.problems ++ [_] ↔ _
          rw [List.mem_append, List.mem_singleton]
          exact or_congr_right ⟨fun h => ⟨htaken, h⟩, And.right⟩
      · rename_i hfree
        have hfree := fun h => hfree ((hnames name.text).mpr h)
        refine ⟨fun s => ?_, hscenarios, harrows, fun p => ?_⟩
        · rw [List.map_append, List.mem_append, ← or_assoc, ← hnames s]
          show s ∈ (done.spec.components ++ [_]).map Component.name ↔ _
          rw [List.map_append, List.mem_append]
          exact Iff.rfl
        · rw [somewhere_concat, ← or_assoc, ← hproblems p]
          exact ⟨Or.inl, fun h => h.elim id fun hnew => absurd hnew.1 hfree⟩

/-! ## Lifelines -/

/-- What a lifeline block is blamed for, after some blocks of the same scenario. -/
def LifelineFault (names : List String) (scenario : String) (p : Problem) (done : List String)
    (before : List LifelineBlock) (block : LifelineBlock) : Prop :=
  (block.component.text ∉ names ∧ p = ⟨.undeclaredComponent, block.component⟩) ∨
    (block.component.text ∈ names ∧
      (block.component.text ∈ done ∨
        block.component.text ∈ before.map fun other => other.component.text) ∧
      p = ⟨.repeatedLifeline scenario, block.component⟩)

theorem addLifelines_keeps (scenario : Name) (id : ScenarioId) (seen : List ComponentId)
    (l : Loader) (blocks : List LifelineBlock) :
    (addLifelines scenario id seen l blocks).componentNames = l.componentNames ∧
      (addLifelines scenario id seen l blocks).spec.scenarios = l.spec.scenarios ∧
      (addLifelines scenario id seen l blocks).arrows = l.arrows := by
  induction blocks generalizing seen l with
  | nil => exact ⟨rfl, rfl, rfl⟩
  | cons block blocks ih =>
      unfold addLifelines
      split
      · exact ih _ _
      · rename_i component _
        split
        · exact ih _ _
        · obtain ⟨hnames, hscenarios, harrows⟩ :=
            ih (component :: seen) { l with spec := l.spec.placeLifeline component id block.events }
          refine ⟨hnames.trans ?_, hscenarios, harrows⟩
          exact Specification.names_placeInto component.index id block.events l.spec.components

theorem lifelineFault_cons {names done : List String} {scenario : String}
    {block other : LifelineBlock} {before : List LifelineBlock} :
    LifelineFault names scenario p done (block :: before) other ↔
      LifelineFault names scenario p (block.component.text :: done) before other := by
  unfold LifelineFault
  rw [List.map_cons, List.mem_cons, List.mem_cons, or_left_comm, or_assoc]

@[simp] theorem componentNames_blame {cause : Cause} {name : Name} :
    (l.blame cause name).componentNames = l.componentNames := rfl

theorem mem_problems_blame {cause : Cause} {name : Name} :
    p ∈ (l.blame cause name).problems ↔ p ∈ l.problems ∨ p = ⟨cause, name⟩ := by
  unfold blame
  rw [List.mem_append, List.mem_singleton]

/-- Of the blocks of a scenario those are blamed that are faulty after the ones before them. -/
theorem mem_problems_addLifelines (scenario : Name) (id : ScenarioId) {seen : List ComponentId}
    (done : List String)
    (hseen : ∀ name c, l.spec.componentNamed? name = some c → (c ∈ seen ↔ name ∈ done))
    (blocks : List LifelineBlock) :
    p ∈ (addLifelines scenario id seen l blocks).problems ↔
      p ∈ l.problems ∨ Somewhere (LifelineFault l.componentNames scenario.text p done) blocks := by
  -- the block's component counts as done for the blocks behind it, whatever became of the block
  induction blocks generalizing seen l done with
  | nil => simp [addLifelines, not_somewhere_nil]
  | cons block blocks ih =>
      rw [somewhere_cons, somewhere_congr fun _ _ => lifelineFault_cons, ← or_assoc]
      unfold addLifelines
      split
      · rename_i hnone
        have hundeclared : block.component.text ∉ l.componentNames :=
          Specification.componentNamed?_eq_none_iff.mp hnone
        have hfault : LifelineFault l.componentNames scenario.text p done [] block ↔
            p = ⟨.undeclaredComponent, block.component⟩ := by simp [LifelineFault, hundeclared]
        rw [hfault, ih (l := l.blame .undeclaredComponent block.component)
          (block.component.text :: done), mem_problems_blame, componentNames_blame]
        · intro name c hc
          have hne : name ≠ block.component.text := fun heq => by
            rw [heq] at hc
            exact nomatch hnone.symm.trans hc
          rw [List.mem_cons, or_iff_right hne]
          exact hseen name c hc
      · rename_i component hsome
        have hdeclared : block.component.text ∈ l.componentNames :=
          Specification.isSome_componentNamed?.mp (Option.isSome_of_eq_some hsome)
        split
        · rename_i hmem
          have hdone := (hseen _ _ hsome).mp hmem
          have hfault : LifelineFault l.componentNames scenario.text p done [] block ↔
              p = ⟨.repeatedLifeline scenario.text, block.component⟩ := by
            simp [LifelineFault, hdeclared, hdone]
          rw [hfault, ih (l := l.blame (.repeatedLifeline scenario.text) block.component)
            (block.component.text :: done), mem_problems_blame, componentNames_blame]
          · intro name c hc
            rw [List.mem_cons, hseen name c hc]
            exact ⟨Or.inr, fun h => h.elim (fun heq => heq ▸ hdone) fun hold => hold⟩
        · rename_i hnew
          have hfresh : block.component.text ∉ done := fun h => hnew ((hseen _ _ hsome).mpr h)
          have hfault : ¬LifelineFault l.componentNames scenario.text p done [] block := by
            simp [LifelineFault, hdeclared, hfresh]
          have hnames : Loader.componentNames
              { l with spec := l.spec.placeLifeline component id block.events } =
                l.componentNames :=
            Specification.names_placeInto component.index id block.events l.spec.components
          rw [or_iff_left hfault, ih (l := { l with
            spec := l.spec.placeLifeline component id block.events })
            (block.component.text :: done), hnames]
          · intro name c hc
            have hc : l.spec.componentNamed? name = some c :=
              (Specification.componentNamed?_congr hnames name).symm.trans hc
            rw [List.mem_cons, List.mem_cons, hseen name c hc]
            refine or_congr_left ⟨fun heq => ?_, fun heq => ?_⟩
            · rw [heq] at hc
              have hname := Specification.componentNamed?_eq_some_iff.mp hc
              rw [Specification.componentNamed?_eq_some_iff.mp hsome] at hname
              exact (Option.some.inj hname).symm
            · rw [heq] at hc
              exact Option.some.inj (hc.symm.trans hsome)

/-! ## Items -/

/-- After some items exactly what they declare is declared, and exactly what they are blamed for
has been blamed. -/
structure Stands (items : List Item) (l : Loader) : Prop where
  components : ∀ name, name ∈ l.componentNames ↔ name ∈ declared items
  scenarios : ∀ name, name ∈ l.spec.scenarios ↔ Defines items name
  arrows : l.arrows = items.flatMap Item.arrows
  problems : ∀ p, p ∈ l.problems ↔ Somewhere (fun before item => item.Blames before p) items

theorem blames_components_iff {before : List Item} {names : NameList} :
    Item.Blames before (.components names) p ↔
      Somewhere (fun earlier name => (name.text ∈ declared before ∨
        name.text ∈ earlier.map Name.text) ∧ p = ⟨.repeatedComponent, name⟩) names.toList := by
  refine ⟨fun h => ?_, fun h => ?_⟩
  · cases h with
    | repeatedComponent hsplit hmem => exact ⟨_, _, _, hsplit, hmem, rfl⟩
  · obtain ⟨earlier, name, later, hsplit, hmem, rfl⟩ := h
    exact .repeatedComponent hsplit hmem

theorem blames_scenario_iff {before : List Item} {block : ScenarioBlock}
    (haccepts : Accepts before block) : Item.Blames before (.scenario block) p ↔
      Somewhere (LifelineFault (declared before) block.name.text p []) block.lifelines := by
  refine ⟨fun h => ?_, fun h => ?_⟩
  · cases h with
    | reservedName hreserved => exact absurd hreserved haccepts.1
    | repeatedScenario _ hdefines => exact absurd hdefines (accepts_iff.mp haccepts).2
    | undeclaredComponent _ hmem hnot =>
        obtain ⟨earlier, later, hsplit⟩ := List.append_of_mem hmem
        exact ⟨earlier, _, later, hsplit, Or.inl ⟨hnot, rfl⟩⟩
    | repeatedLifeline _ hsplit hdeclared hmem =>
        exact ⟨_, _, _, hsplit, Or.inr ⟨hdeclared, Or.inr hmem, rfl⟩⟩
  · obtain ⟨earlier, lifeline, later, hsplit, hfault⟩ := h
    rcases hfault with ⟨hnot, rfl⟩ | ⟨hdeclared, hmem, rfl⟩
    · exact .undeclaredComponent haccepts (by rw [hsplit]; simp) hnot
    · exact .repeatedLifeline haccepts hsplit hdeclared (hmem.resolve_left List.not_mem_nil)

theorem stands_start : Stands [] start where
  components _ := Iff.rfl
  scenarios _ := ⟨fun h => absurd h List.not_mem_nil, fun h => absurd h not_somewhere_nil⟩
  arrows := rfl
  problems _ := ⟨fun h => absurd h List.not_mem_nil, fun h => absurd h not_somewhere_nil⟩

variable {items : List Item}

theorem Stands.addComponents (h : Stands items l) (names : NameList) :
    Stands (items ++ [.components names]) (l.addItem (.components names)) := by
  obtain ⟨hnames, hscenarios, harrows, hproblems⟩ := foldl_declareComponent names.toList l
  refine ⟨fun name => ?_, fun name => ?_, ?_, fun p => ?_⟩
  · rw [declared_concat, List.mem_append, ← h.components]
    exact hnames name
  · rw [defines_concat, ← h.scenarios]
    unfold addItem
    rw [hscenarios]
    exact ⟨Or.inl, fun hname => hname.elim (fun hold => hold) fun ⟨_, hitem, _⟩ => (nomatch hitem)⟩
  · rw [List.flatMap_append, ← h.arrows]
    exact harrows.trans (List.append_nil _).symm
  · rw [somewhere_concat, ← h.problems, blames_components_iff]
    simp only [← h.components]
    exact hproblems p

/-- A block that is not accepted changes nothing but for its own blame. -/
theorem Stands.reject (h : Stands items l) {block : ScenarioBlock} {cause : Cause}
    (hnot : ¬Accepts items block)
    (hblames : ∀ p, Item.Blames items (.scenario block) p ↔ p = ⟨cause, block.name⟩) :
    Stands (items ++ [.scenario block]) (l.blame cause block.name) := by
  refine ⟨fun name => ?_, fun name => ?_, ?_, fun p => ?_⟩
  · rw [declared_concat]
    exact (h.components name).trans (by simp [Item.componentNames])
  · rw [defines_concat, ← h.scenarios]
    refine ⟨Or.inl, fun hname => hname.elim (fun hold => hold) ?_⟩
    rintro ⟨_, hitem, haccepts, _⟩
    obtain rfl := Item.scenario.inj hitem
    exact absurd haccepts hnot
  · rw [List.flatMap_append, ← h.arrows]
    exact (List.append_nil _).symm
  · rw [somewhere_concat, ← h.problems, hblames, mem_problems_blame]

theorem Stands.accept (h : Stands items l) {block : ScenarioBlock} (haccepts : Accepts items block)
    (hfree : block.name.text ∉ l.spec.scenarios) :
    Stands (items ++ [.scenario block])
      (addLifelines block.name ⟨l.spec.scenarios.length⟩ []
        { l with
          spec := l.spec.addScenario block.name.text hfree
          scenarios := l.scenarios ++ [block.name] } block.lifelines) := by
  obtain ⟨hnames, hscenarios, harrows⟩ := addLifelines_keeps block.name
    ⟨l.spec.scenarios.length⟩ []
    { l with
      spec := l.spec.addScenario block.name.text hfree
      scenarios := l.scenarios ++ [block.name] } block.lifelines
  refine ⟨fun name => ?_, fun name => ?_, ?_, fun p => ?_⟩
  · rw [hnames, declared_concat]
    exact (h.components name).trans (by simp [Item.componentNames])
  · rw [hscenarios, defines_concat, ← h.scenarios]
    show name ∈ l.spec.scenarios ++ [block.name.text] ↔ _
    rw [List.mem_append, List.mem_singleton]
    refine or_congr_right ⟨fun hname => ⟨block, rfl, haccepts, hname.symm⟩, ?_⟩
    rintro ⟨_, hitem, _, rfl⟩
    rw [Item.scenario.inj hitem]
  · rw [harrows, List.flatMap_append, ← h.arrows]
    exact (List.append_nil _).symm
  · rw [mem_problems_addLifelines block.name _ [] fun _ _ _ => by simp,
      somewhere_concat, ← h.problems, blames_scenario_iff haccepts]
    refine or_congr_right (somewhere_congr fun before lifeline => ?_)
    unfold LifelineFault
    rw [← h.components]
    rfl

theorem Stands.addScenario (h : Stands items l) (block : ScenarioBlock) :
    Stands (items ++ [.scenario block]) (l.addScenario block) := by
  unfold Loader.addScenario
  split
  · rename_i hreserved
    refine h.reject (fun haccepts => haccepts.1 hreserved) fun p => ⟨fun hp => ?_, fun hp => ?_⟩
    · cases hp with
      | reservedName _ => rfl
      | repeatedScenario hfree _ => exact absurd hreserved hfree
      | undeclaredComponent haccepts _ _ => exact absurd hreserved haccepts.1
      | repeatedLifeline haccepts _ _ _ => exact absurd hreserved haccepts.1
    · rw [hp]
      exact .reservedName hreserved
  · rename_i hfree
    split
    · rename_i htaken
      have hdefines := (h.scenarios _).mp htaken
      have hnot : ¬Accepts items block := fun haccepts => (accepts_iff.mp haccepts).2 hdefines
      refine h.reject hnot fun p => ⟨fun hp => ?_, fun hp => ?_⟩
      · cases hp with
        | reservedName hreserved => exact absurd hreserved hfree
        | repeatedScenario _ _ => rfl
        | undeclaredComponent haccepts _ _ => exact absurd haccepts hnot
        | repeatedLifeline haccepts _ _ _ => exact absurd haccepts hnot
      · rw [hp]
        exact .repeatedScenario hfree hdefines
    · rename_i hnew
      exact h.accept (accepts_iff.mpr ⟨hfree, fun hdefines => hnew ((h.scenarios _).mpr hdefines)⟩)
        hnew

theorem Stands.addFlow (h : Stands items l) (block : List Arrows) :
    Stands (items ++ [.flow block]) (l.addItem (.flow block)) := by
  refine ⟨fun name => ?_, fun name => ?_, ?_, fun p => ?_⟩
  · rw [declared_concat]
    exact (h.components name).trans (by simp [Item.componentNames])
  · rw [defines_concat, ← h.scenarios]
    exact ⟨Or.inl, fun hname => hname.elim (fun hold => hold) fun ⟨_, hitem, _⟩ => (nomatch hitem)⟩
  · rw [List.flatMap_append, ← h.arrows, List.flatMap_singleton]
    rfl
  · rw [somewhere_concat, ← h.problems]
    exact ⟨Or.inl, fun hp => hp.elim (fun hold => hold) fun hnew => (nomatch hnew)⟩

theorem stands_items (items : List Item) : Stands items (items.foldl addItem start) := by
  induction items using List.reverseRecOn with
  | nil => exact stands_start
  | append_singleton items item ih =>
      rw [List.foldl_append, List.foldl_cons, List.foldl_nil]
      cases item with
      | components names => exact ih.addComponents names
      | scenario block => exact ih.addScenario block
      | flow block => exact ih.addFlow block

/-! ## Arrows -/

/-- The end of an arrow is unknown. -/
def UnknownEnd (l : Loader) (name : Name) (p : Problem) : Prop :=
  name.text ∉ l.spec.scenarios ∧ p = ⟨.unknownScenario, name⟩

theorem mem_problems_withScenario {name : Name}
    {use : Specification → ScenarioId → Specification} :
    p ∈ (l.withScenario name use).problems ↔ p ∈ l.problems ∨ l.UnknownEnd name p := by
  unfold withScenario UnknownEnd
  split
  · rename_i hsome
    have hmem := Specification.isSome_scenarioNamed?.mp (Option.isSome_of_eq_some hsome)
    exact ⟨Or.inl, fun h => h.elim (fun hold => hold) fun hnew => absurd hmem hnew.1⟩
  · rename_i hnone
    rw [mem_problems_blame, ← Specification.scenarioNamed?_eq_none_iff]
    exact or_congr_right ⟨fun hp => ⟨hnone, hp⟩, And.right⟩

theorem mem_problems_connect {a : Arrow} :
    p ∈ (l.connect a).problems ↔
      p ∈ l.problems ∨ l.UnknownEnd a.source p ∨ l.UnknownEnd a.target p := by
  unfold connect UnknownEnd
  rw [← Specification.scenarioNamed?_eq_none_iff, ← Specification.scenarioNamed?_eq_none_iff]
  cases hsource : l.spec.scenarioNamed? a.source.text <;>
    cases htarget : l.spec.scenarioNamed? a.target.text <;>
    simp [mem_problems_blame, or_assoc]

theorem spec_withScenario (l : Loader) (name : Name)
    (use : Specification → ScenarioId → Specification) :
    (l.withScenario name use).spec = l.spec ∨
      ∃ id, (l.withScenario name use).spec = use l.spec id := by
  unfold withScenario
  split
  · rename_i id _
    exact Or.inr ⟨id, rfl⟩
  · exact Or.inl rfl

theorem spec_connect (l : Loader) (a : Arrow) :
    (l.connect a).spec = l.spec ∨
      ∃ source target, (l.connect a).spec = l.spec.addEdge source target := by
  unfold connect
  split
  · rename_i source target _ _
    exact Or.inr ⟨source, target, rfl⟩
  · exact Or.inl rfl
  · exact Or.inl rfl
  · exact Or.inl rfl

/-- How an arrow can change the specification. -/
theorem spec_addArrow (l : Loader) (a : Arrow) :
    (l.addArrow a).spec = l.spec ∨ (∃ id, (l.addArrow a).spec = l.spec.addInitial id) ∨
      (∃ id, (l.addArrow a).spec = l.spec.addFinal id) ∨
      ∃ source target, (l.addArrow a).spec = l.spec.addEdge source target := by
  unfold addArrow
  split
  · exact Or.inl rfl
  split
  · exact Or.inl rfl
  split
  · exact Or.inl rfl
  split
  · exact (spec_withScenario l a.target .addInitial).imp_right Or.inl
  split
  · exact (spec_withScenario l a.source .addFinal).imp_right fun h => Or.inr (Or.inl h)
  · exact (spec_connect l a).imp_right fun h => Or.inr (Or.inr h)

theorem addArrow_keeps (l : Loader) (a : Arrow) :
    (l.addArrow a).spec.scenarios = l.spec.scenarios ∧
      (l.addArrow a).spec.components = l.spec.components := by
  rcases spec_addArrow l a with h | ⟨id, h⟩ | ⟨id, h⟩ | ⟨source, target, h⟩
  · rw [h]
    exact ⟨rfl, rfl⟩
  · rw [h]
    exact ⟨rfl, rfl⟩
  · rw [h]
    exact ⟨rfl, rfl⟩
  · rw [h]
    exact ⟨Specification.scenarios_addEdge, Specification.components_addEdge⟩

theorem mem_problems_addArrow (h : ∀ name, name ∈ l.spec.scenarios ↔ Defines items name)
    {a : Arrow} : p ∈ (l.addArrow a).problems ↔ p ∈ l.problems ∨ a.Blames items p := by
  have hunknown : ∀ name, l.UnknownEnd name p ↔
      ¬Defines items name.text ∧ p = ⟨.unknownScenario, name⟩ := fun name => by
    unfold UnknownEnd
    rw [h]
  -- a test that fails excludes its case for all tests behind it
  unfold addArrow
  split
  · rename_i hdirect
    rw [mem_problems_blame, Arrow.blames_iff_of_direct hdirect.1 hdirect.2]
  rename_i hdirect
  split
  · rename_i hinit
    rw [mem_problems_blame, Arrow.blames_iff_of_intoInit hinit]
  rename_i htarget
  split
  · rename_i hfinal
    rw [mem_problems_blame, Arrow.blames_iff_of_outOfFinal hfinal htarget]
  rename_i hsource
  rw [Arrow.blames_iff_of_legal ⟨htarget, hsource, hdirect⟩, ← hunknown, ← hunknown]
  split
  · rename_i hinit
    have hfinal : a.target.text ≠ finalNode := fun hfinal => hdirect ⟨hinit, hfinal⟩
    rw [mem_problems_withScenario]
    simp [hinit, hfinal]
  rename_i hinit
  split
  · rename_i hfinal
    rw [mem_problems_withScenario]
    simp [hinit, hfinal]
  · rename_i hfinal
    rw [mem_problems_connect]
    simp [hinit, hfinal]

theorem mem_problems_foldl_addArrow (arrows : List Arrow)
    (h : ∀ name, name ∈ l.spec.scenarios ↔ Defines items name) :
    p ∈ (arrows.foldl addArrow l).problems ↔ p ∈ l.problems ∨ ∃ a ∈ arrows, a.Blames items p := by
  induction arrows generalizing l with
  | nil => simp
  | cons a arrows ih =>
      rw [List.foldl_cons, ih (by rw [(addArrow_keeps l a).1]; exact h), mem_problems_addArrow h,
        or_assoc]
      simp only [List.mem_cons, exists_eq_or_imp]

end Loader

/-- **Loading blames exactly the names that the rules blame.** -/
theorem mem_problems_load {p : Problem} : p ∈ d.load.problems ↔ d.Blames p := by
  have h := Loader.stands_items d.items
  unfold load Loader.finish
  dsimp only
  rw [Loader.mem_problems_foldl_addArrow _ h.scenarios, h.problems, h.arrows]
  rfl

end Document

end ScenarioFsp
