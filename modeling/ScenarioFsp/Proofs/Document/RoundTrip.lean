import ScenarioFsp.Proofs.Document.Rebuilding
import ScenarioFsp.Proofs.Document.Verdict
import ScenarioFsp.Proofs.Document.Writing

/-!
# Specifications can be written down

A specification has a natural document, the document has tokens, and the tokens can be
laid out as a text. Whichever document and layout one takes, the text is read as a document
that differs in places only, and what is natural does not depend on places. So what is read
back is the specification (`load_laidOut`).
-/

namespace ScenarioFsp

namespace Document

variable {spec : Specification} {d d' : Document}

/-! ## The spelling of natural documents -/

theorem Natural.spelled (h : Natural spec d) (hspec : spec.Writable) : d.Spelled where
  components := by
    intro names hnames name hname
    have hmem : name.text ∈ declared d.items :=
      List.mem_map_of_mem (List.mem_flatMap.mpr ⟨.components names, hnames, hname⟩)
    rw [h.components] at hmem
    obtain ⟨c, hc, hsame⟩ := List.mem_map.mp hmem
    exact hsame ▸ hspec.components c hc
  scenarios := by
    intro block hblock
    obtain ⟨before, after, hitems⟩ := List.append_of_mem hblock
    obtain ⟨⟨id, hid, hname, hlifelines⟩, -⟩ := h.scenario_cases hitems
    refine ⟨hname ▸ (hspec.scenarios _ (Specification.nameOf_mem hid)).1, fun lifeline hmem => ?_⟩
    have hpair : (lifeline.component.text, lifeline.events) ∈
        spec.components.map fun c => (c.name, c.lifeline id) := by
      rw [← hlifelines]
      exact List.mem_map_of_mem hmem
    obtain ⟨c, hc, heq⟩ := List.mem_map.mp hpair
    obtain ⟨hcomponent, hevents⟩ := Prod.mk.inj heq
    exact ⟨hcomponent ▸ hspec.components c hc, hevents ▸ hspec.events c hc id⟩
  flows := by
    have harrow : ∀ a ∈ d.items.flatMap Item.arrows,
        isIdentifier a.source.text = true ∧ isIdentifier a.target.text = true := by
      intro a ha
      have hname : ∀ {id}, spec.declares id = true → isIdentifier (spec.nameOf id) = true :=
        fun hid => (hspec.scenarios _ (Specification.nameOf_mem hid)).1
      rcases h.arrow_cases ha with ⟨hsource, id, hid, htarget⟩ | ⟨htarget, id, hid, hsource⟩ |
          ⟨e, he, hsource, htarget⟩
      · rw [hsource, htarget]
        exact ⟨by decide, hname (hspec.closed _ (.initial hid))⟩
      · rw [hsource, htarget]
        exact ⟨hname (hspec.closed _ (.final hid)), by decide⟩
      · rw [hsource, htarget]
        exact ⟨hname (hspec.closed _ (.source he)), hname (hspec.closed _ (.target he))⟩
    intro all hall arrows hmem
    have htarget : ∀ target ∈ arrows.targets.toList,
        ⟨arrows.source, target⟩ ∈ d.items.flatMap Item.arrows := fun target hmem' =>
      List.mem_flatMap.mpr ⟨.flow all, hall, List.mem_flatMap.mpr
        ⟨arrows, hmem, List.mem_map.mpr ⟨target, hmem', rfl⟩⟩⟩
    exact ⟨(harrow _ (htarget arrows.targets.first List.mem_cons_self)).1,
      fun target hmem' => (harrow _ (htarget target hmem')).2⟩

/-! ## Places do not matter -/

theorem declared_bare (items : List Item) : declared (items.map Item.bare) = declared items := by
  induction items with
  | nil => rfl
  | cons item items ih =>
      unfold declared at ih ⊢
      rw [List.map_cons, List.flatMap_cons, List.flatMap_cons, List.map_append, List.map_append, ih]
      cases item with
      | components names =>
          simp [Item.bare, Item.componentNames, NameList.bare, NameList.toList, Name.bare]
      | scenario block => rfl
      | flow all => rfl

theorem told?_bare (item : Item) : item.bare.told? = item.told? := by
  cases item with
  | components names => rfl
  | scenario block =>
      simp [Item.bare, Item.told?, ScenarioBlock.bare, LifelineBlock.bare, Name.bare]
  | flow all => rfl

theorem told_bare (items : List Item) : told (items.map Item.bare) = told items := by
  unfold told
  rw [List.filterMap_map]
  exact List.filterMap_congr fun item _ => told?_bare item

theorem drawn_bare (items : List Item) : drawn (items.map Item.bare) = drawn items := by
  unfold drawn
  rw [List.map_flatMap, List.map_flatMap, List.flatMap_map]
  refine List.flatMap_congr fun item _ => ?_
  cases item with
  | components names => rfl
  | scenario block => rfl
  | flow all =>
      simp [Item.bare, Item.arrows, Loader.arrowsOf, Arrows.bare, Arrow.ends, NameList.bare,
        NameList.toList, Name.bare, List.map_flatMap, List.flatMap_map, Function.comp_def]

theorem inOrder_bare (i j : Item) : InOrder i.bare j.bare ↔ InOrder i j := by
  unfold InOrder
  cases i <;> cases j <;>
    simp [Item.bare, Item.scenarioNames, Item.componentNames, NameList.bare, NameList.toList]

theorem Natural.of_bare (h : Natural spec d) (hbare : d'.bare = d.bare) : Natural spec d' := by
  have hitems : d'.items.map Item.bare = d.items.map Item.bare := congrArg Document.items hbare
  have hdeclared : declared d'.items = declared d.items := by
    rw [← declared_bare d'.items, hitems, declared_bare]
  have htold : told d'.items = told d.items := by rw [← told_bare d'.items, hitems, told_bare]
  have hdrawn : drawn d'.items = drawn d.items := by rw [← drawn_bare d'.items, hitems, drawn_bare]
  refine ⟨hdeclared.trans h.components, ?_, htold.trans h.scenarios, ?_, ?_, ?_⟩
  · have hfirst : (d'.items.map Item.bare).Pairwise InOrder := by
      rw [hitems, List.pairwise_map]
      exact h.first.imp fun {i j} hij => (inOrder_bare i j).mpr hij
    exact (List.pairwise_map.mp hfirst).imp fun {i j} hij => (inOrder_bare i j).mp hij
  · rw [hdrawn]
    exact h.initial
  · rw [hdrawn]
    exact h.finals
  · rw [hdrawn]
    exact h.edges

/-! ## A natural document for each specification -/

/-- A name that stands nowhere. -/
def Name.unplaced (text : String) : Name := ⟨text, ⟨0, 0⟩⟩

end Document

namespace Specification

open Document (initNode finalNode)

/-- The marks and the edges as arrows between names. -/
def arrows (spec : Specification) : List (String × String) :=
  (spec.initial.map fun id => (initNode, spec.nameOf id)) ++
    ((spec.finals.map fun id => (spec.nameOf id, finalNode)) ++
      spec.edges.map fun e => (spec.nameOf e.source, spec.nameOf e.target))

/-- A declaration for each component. -/
def declarations (spec : Specification) : List Document.Item :=
  spec.components.map fun c => .components ⟨.unplaced c.name, []⟩

/-- A block for each scenario, with all its lifelines, empty ones too. -/
def scenarioBlocks (spec : Specification) : List Document.Item :=
  spec.scenarioIds.map fun id => .scenario ⟨.unplaced (spec.nameOf id),
    spec.components.map fun c => ⟨.unplaced c.name, c.lifeline id⟩⟩

/-- All arrows, each of them with a single target. -/
def flow (spec : Specification) : Document.Item :=
  .flow (spec.arrows.map fun a => ⟨.unplaced a.1, ⟨.unplaced a.2, []⟩⟩)

/-- The natural document with one component in each declaration and one flow block at the end. -/
def document (spec : Specification) : Document :=
  ⟨spec.declarations ++ (spec.scenarioBlocks ++ [spec.flow])⟩

variable {spec : Specification}

theorem filter_arrows (h : spec.Writable) :
    (spec.arrows.filter fun a => decide (a.1 = initNode)) =
        (spec.initial.map fun id => (initNode, spec.nameOf id)) ∧
      (spec.arrows.filter fun a => decide (a.2 = finalNode)) =
        (spec.finals.map fun id => (spec.nameOf id, finalNode)) ∧
      (spec.arrows.filter fun a => !decide (a.1 = initNode) && !decide (a.2 = finalNode)) =
        spec.edges.map fun e => (spec.nameOf e.source, spec.nameOf e.target) := by
  have hinitial : ∀ id ∈ spec.initial, spec.nameOf id ≠ finalNode := fun id hid =>
    (h.nameOf_ne (h.closed _ (.initial hid))).2
  have hfinals : ∀ id ∈ spec.finals, spec.nameOf id ≠ initNode := fun id hid =>
    (h.nameOf_ne (h.closed _ (.final hid))).1
  have hsources : ∀ e ∈ spec.edges, spec.nameOf e.source ≠ initNode := fun e he =>
    (h.nameOf_ne (h.closed _ (.source he))).1
  have htargets : ∀ e ∈ spec.edges, spec.nameOf e.target ≠ finalNode := fun e he =>
    (h.nameOf_ne (h.closed _ (.target he))).2
  unfold arrows
  simp only [List.filter_append]
  -- each filter keeps one of the three parts and nothing of the other two
  refine ⟨?_, ?_, ?_⟩
  · rw [List.filter_eq_self.mpr, List.filter_eq_nil_iff.mpr, List.filter_eq_nil_iff.mpr]
    · simp
    · simpa using hsources
    · simpa using hfinals
    · simp
  · rw [List.filter_eq_nil_iff.mpr, List.filter_eq_self.mpr, List.filter_eq_nil_iff.mpr]
    · simp
    · simpa using htargets
    · simp
    · simpa using hinitial
  · rw [List.filter_eq_nil_iff.mpr, List.filter_eq_nil_iff.mpr, List.filter_eq_self.mpr]
    · simp
    · simpa using fun e he => ⟨hsources e he, htargets e he⟩
    · simp
    · simp

theorem componentNames_rest (spec : Specification) :
    ∀ item ∈ spec.scenarioBlocks ++ [spec.flow], item.componentNames = [] := by
  simp only [List.mem_append, scenarioBlocks, flow, List.mem_map, List.mem_singleton]
  rintro item (⟨id, -, rfl⟩ | rfl) <;> rfl

theorem declared_document (spec : Specification) :
    Document.declared spec.document.items = spec.components.map Component.name := by
  have hrest : (spec.scenarioBlocks ++ [spec.flow]).flatMap Document.Item.componentNames = [] :=
    List.flatMap_eq_nil_iff.mpr (componentNames_rest spec)
  unfold document Document.declared
  rw [List.flatMap_append, hrest, List.append_nil, declarations, List.flatMap_map]
  simp only [Document.Item.componentNames, Document.NameList.toList, ← List.map_eq_flatMap,
    List.map_map]
  rfl

theorem told_document (spec : Specification) :
    Document.told spec.document.items = spec.scenarioIds.map fun id =>
      (spec.nameOf id, spec.components.map fun c => (c.name, c.lifeline id)) := by
  have hfirst : spec.declarations.filterMap Document.Item.told? = [] := by
    rw [List.filterMap_eq_nil_iff]
    simp [declarations, Document.Item.told?]
  have hlast : [spec.flow].filterMap Document.Item.told? = [] := rfl
  unfold document Document.told
  rw [List.filterMap_append, List.filterMap_append, hfirst, hlast, List.append_nil, List.nil_append,
    scenarioBlocks, List.filterMap_map]
  simp [Function.comp_def, Document.Item.told?, Document.Name.unplaced]

theorem drawn_document (spec : Specification) :
    Document.drawn spec.document.items = spec.arrows := by
  have hfirst : (spec.declarations ++ spec.scenarioBlocks).flatMap Document.Item.arrows = [] := by
    rw [List.flatMap_eq_nil_iff]
    simp only [List.mem_append, declarations, scenarioBlocks, List.mem_map]
    rintro item (⟨c, -, rfl⟩ | ⟨id, -, rfl⟩) <;> rfl
  unfold document Document.drawn
  rw [← List.append_assoc, List.flatMap_append, hfirst, List.nil_append, List.flatMap_singleton]
  simp [flow, Document.Item.arrows, Document.Loader.arrowsOf, Document.NameList.toList,
    Document.Name.unplaced, Document.Arrow.ends, List.flatMap_map, List.map_flatMap]

theorem inOrder_document (spec : Specification) :
    spec.document.items.Pairwise Document.InOrder := by
  have hfirst : ∀ item ∈ spec.declarations, item.scenarioNames = [] := by
    simp [declarations, Document.Item.scenarioNames]
  refine List.pairwise_append.mpr ⟨?_, ?_, fun i hi j hj => Or.inl (hfirst i hi)⟩
  · exact List.pairwise_of_forall_mem_list fun i hi j hj => Or.inl (hfirst i hi)
  · exact List.pairwise_of_forall_mem_list fun i hi j hj => Or.inr (componentNames_rest spec j hj)

theorem natural_document (h : spec.Writable) : Document.Natural spec spec.document := by
  obtain ⟨hinitial, hfinals, hedges⟩ := filter_arrows h
  refine ⟨declared_document spec, inOrder_document spec, told_document spec, ?_, ?_, ?_⟩
  · rw [drawn_document, hinitial, List.map_map]
    rfl
  · rw [drawn_document, hfinals, List.map_map]
    rfl
  · rw [drawn_document, hedges]

end Specification

/-! ## A layout for each sequence of tokens -/

namespace Document

open Cursor (Gap)

/-- The tokens with a space behind each. -/
def spaced (tokens : List String) : List Char :=
  tokens.flatMap fun token => token.toList ++ [' ']

theorem LaidOut.of_gap {tokens : List String} {c c' : Cursor} (h : LaidOut tokens c')
    (hgap : Gap c c') : LaidOut tokens c := by
  cases h with
  | nil hgap' hrest => exact .nil (hgap.trans hgap') hrest
  | cons hgap' hspells hrest => exact .cons (hgap.trans hgap') hspells hrest

theorem laidOut_spaced (tokens : List String) (offset : Nat) :
    LaidOut tokens ⟨offset, spaced tokens⟩ := by
  induction tokens generalizing offset with
  | nil => exact .nil (.nil _) rfl
  | cons token tokens ih =>
      have hspells : Cursor.Spells token.toList ⟨offset, spaced (token :: tokens)⟩
          ⟨offset + Cursor.bytes token.toList, ' ' :: spaced tokens⟩ := by
        refine ⟨?_, rfl⟩
        show (token.toList ++ [' ']) ++ spaced tokens = _
        rw [List.append_assoc]
        rfl
      -- the space behind the token is the gap in front of the next one
      have hspace : Gap ⟨offset + Cursor.bytes token.toList, ' ' :: spaced tokens⟩
          ⟨offset + Cursor.bytes token.toList + Cursor.bytes [' '], spaced tokens⟩ :=
        .blank (by decide) ⟨rfl, rfl⟩ (.nil _)
      exact .cons (.nil _) hspells ((ih _).of_gap hspace)

/-- A text with these tokens. -/
def written (tokens : List String) : String := String.ofList (spaced tokens)

theorem laidOut_written (tokens : List String) : LaidOut tokens (.ofText (written tokens)) := by
  unfold Cursor.ofText written
  rw [String.toList_ofList]
  exact laidOut_spaced tokens 0

end Document

/-! ## There and back -/

namespace Journal

open Document (Natural LaidOut)

/--
**What is written down is read back.** A specification whose names can be spelled, which refers
to nothing undeclared and has all its lifelines, has a natural document, and the document can be
laid out as a text. And whatever natural document is taken and however it is laid out, a fresh
journal accepts the text and gives the specification.
-/
theorem load_laidOut {spec : Specification} (h : spec.Writable) (colored warnings : Bool)
    (name : String) :
    (∃ d text, Natural spec d ∧ LaidOut d.tokens (.ofText text)) ∧
      ∀ d text, Natural spec d → LaidOut d.tokens (.ofText text) →
        ((start colored warnings).load name text).result = .ok spec := by
  refine ⟨?_, fun d text hnatural hlaid => ?_⟩
  · exact ⟨spec.document, _, Specification.natural_document h, Document.laidOut_written _⟩
  · obtain ⟨d', hbare, htree⟩ := Document.readTree_of_laidOut (hnatural.spelled h) hlaid
    -- the document that is read differs in places only, so it is natural as well
    have hnatural' := hnatural.of_bare hbare
    obtain ⟨d'', hread, hload⟩ := Document.exists_read_of_readTree htree
    rw [result_load colored warnings name hread, hload,
      if_pos (length_blamedPlaces_eq_zero_iff.mpr (hnatural'.valid h)), hnatural'.load_spec h]

/-- Words of the language serve as names. -/
def keywords : Specification where
  scenarios := ["bmsc", "hmsc"]
  components := [
    ⟨"component", ⟨[(⟨0⟩, [.message "message.1", .condition "condition"]), (⟨1⟩, [])], by decide⟩⟩,
    ⟨"instance", ⟨[(⟨0⟩, []), (⟨1⟩, [.condition "init"])], by decide⟩⟩]
  edges := [⟨⟨0⟩, ⟨1⟩⟩, ⟨⟨1⟩, ⟨1⟩⟩, ⟨⟨1⟩, ⟨0⟩⟩]
  initial := [⟨1⟩, ⟨0⟩]
  finals := [⟨1⟩]
  scenarios_nodup := by decide
  components_nodup := by decide
  edges_nodup := by decide
  edges_sorted := by decide
  initial_nodup := by decide
  finals_nodup := by decide

theorem load_laidOut_keywords :
    keywords.Writable ∧ ∃ d text, Natural keywords d ∧ LaidOut d.tokens (.ofText text) ∧
      ((start false true).load "keywords.msc" text).result = .ok keywords := by
  have h : keywords.Writable := by decide
  obtain ⟨⟨d, text, hnatural, hlaid⟩, hload⟩ := load_laidOut h false true "keywords.msc"
  exact ⟨h, d, text, hnatural, hlaid, hload d text hnatural hlaid⟩

end Journal

end ScenarioFsp
