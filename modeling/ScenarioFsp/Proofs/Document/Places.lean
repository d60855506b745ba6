import ScenarioFsp.Proofs.Document.Writing

/-!
# Where the names of a document stand

Problems are counted by their places, so it matters that no two names of a document have
the same one. In a document that has been read the names stand one behind the other, in
the order of the text, and none is empty (`nodup_spans`). This is a property of the
grammar: whatever a pattern leaves stands between the places where it begins and ends, as
long as no pattern makes two parts of one name. A document that has been read can also be
written again, because its words are spelled as the grammar spells them (`spelled_of_read`).
-/

namespace ScenarioFsp

namespace Cursor

variable {c c' : Cursor} {chars : List Char}

theorem Spells.offset_le (h : Spells chars c c') : c.offset ≤ c'.offset := by
  rw [h.offset]
  exact Nat.le_add_right _ _

theorem Spells.offset_lt {first : Char} {others : List Char} (h : Spells (first :: others) c c') :
    c.offset < c'.offset := by
  have hsize := first.utf8Size_pos
  rw [h.offset, bytes]
  omega

theorem Gap.offset_le (h : Gap c c') : c.offset ≤ c'.offset := by
  induction h with
  | nil => exact Nat.le_refl _
  | blank _ hspells _ ih => exact Nat.le_trans hspells.offset_le ih
  | comment _ hspells _ _ ih => exact Nat.le_trans hspells.offset_le ih

end Cursor

namespace Document

open Cursor (Gap Spells)

/-! ## Names in a row -/

/-- The names stand between two offsets, one behind the other, and none is empty. -/
def InRow : Nat → List Name → Nat → Prop
  | start, [], stop => start ≤ stop
  | start, name :: names, stop =>
    start ≤ name.span.start ∧ name.span.start < name.span.stop ∧ InRow name.span.stop names stop

section InRow

variable {start middle middle' stop : Nat} {names names' : List Name} {name : Name}

theorem InRow.of_le (h : InRow middle names stop) (hle : start ≤ middle) :
    InRow start names stop := by
  cases names with
  | nil => exact Nat.le_trans hle h
  | cons name names => exact ⟨Nat.le_trans hle h.1, h.2⟩

theorem InRow.append (h : InRow start names middle) (hle : middle ≤ middle')
    (h' : InRow middle' names' stop) : InRow start (names ++ names') stop := by
  induction names generalizing start with
  | nil => exact h'.of_le (Nat.le_trans h hle)
  | cons name names ih => exact ⟨h.1, h.2.1, ih h.2.2⟩

theorem InRow.start_le (h : InRow start names stop) (hname : name ∈ names) :
    start ≤ name.span.start := by
  induction names generalizing start with
  | nil => exact absurd hname List.not_mem_nil
  | cons first names ih =>
      obtain ⟨hstart, hlt, hrest⟩ := h
      rcases List.mem_cons.mp hname with rfl | hmem
      · exact hstart
      · have hle := ih hrest hmem
        omega

/-- No two names in a row have the same place. -/
theorem InRow.nodup (h : InRow start names stop) : (names.map Name.span).Nodup := by
  induction names generalizing start with
  | nil => exact .nil
  | cons first names ih =>
      obtain ⟨-, hlt, hrest⟩ := h
      refine List.nodup_cons.mpr ⟨fun hmem => ?_, ih hrest⟩
      obtain ⟨name, hname, heq⟩ := List.mem_map.mp hmem
      have hle := hrest.start_le hname
      rw [heq] at hle
      omega

end InRow

/-! ## Parts -/

mutual

/-- The names in a part, in order. -/
def Part.names : Part → List Name
  | .name word => [word]
  | .text _ _ => []
  | .node _ parts => Part.allNames parts

/-- The names in several parts, in order. -/
def Part.allNames : List Part → List Name
  | [] => []
  | part :: parts => part.names ++ Part.allNames parts

end

mutual

/-- Names and labels are spelled as the grammar spells them. -/
def Part.Spelled : Part → Prop
  | .name word => isIdentifier word.text = true
  | .text .label word => isLabel word = true
  | .text _ word => isIdentifier word = true
  | .node _ parts => Part.AllSpelled parts

/-- Several parts are spelled. -/
def Part.AllSpelled : List Part → Prop
  | [] => True
  | part :: parts => part.Spelled ∧ Part.AllSpelled parts

end

namespace Part

variable {parts parts' : List Part}

theorem allNames_eq (parts : List Part) : allNames parts = parts.flatMap names := by
  induction parts with
  | nil => rfl
  | cons part parts ih => rw [allNames, ih, List.flatMap_cons]

theorem allSpelled_iff : AllSpelled parts ↔ ∀ part ∈ parts, part.Spelled := by
  induction parts with
  | nil => simp [AllSpelled]
  | cons part parts ih => rw [AllSpelled, ih, List.forall_mem_cons]

theorem allNames_append (parts parts' : List Part) :
    allNames (parts ++ parts') = allNames parts ++ allNames parts' := by
  rw [allNames_eq, allNames_eq, allNames_eq, List.flatMap_append]

theorem AllSpelled.append (h : AllSpelled parts) (h' : AllSpelled parts') :
    AllSpelled (parts ++ parts') := by
  rw [allSpelled_iff] at h h' ⊢
  intro part hpart
  rcases List.mem_append.mp hpart with hmem | hmem
  · exact h part hmem
  · exact h' part hmem

end Part

/-! ## Patterns -/

/-- Every word of the pattern leaves a part that is spelled as the word and has its name at most. -/
def Pattern.Keeps : Pattern → Prop
  | .start => True
  | .stop => True
  | .word _ => True
  | .name isFirst isOther part => ∀ name : Name, isSpelled isFirst isOther name.text = true →
      (part name).Spelled ∧ ((part name).names = [name] ∨ (part name).names = [])
  | .seq p q => p.Keeps ∧ q.Keeps
  | .either p q => p.Keeps ∧ q.Keeps
  | .many p => p.Keeps
  | .rule _ p => p.Keeps

theorem isSpelled_ofList {isFirst isOther : Char → Bool} {first : Char} {others : List Char}
    (hfirst : isFirst first = true) (hothers : ∀ ch ∈ others, isOther ch = true) :
    isSpelled isFirst isOther (String.ofList (first :: others)) = true := by
  unfold isSpelled
  rw [String.toList_ofList]
  simp only [hfirst, Bool.true_and, List.all_eq_true]
  exact hothers

/-- **What is derived between two places stands there**: its names are in a row, and its words are
spelled. -/
theorem Derives.inRow {p : Pattern} {c c' : Cursor} {parts : List Part} (h : Derives p c parts c')
    (hp : p.Keeps) :
    InRow c.offset (Part.allNames parts) c'.offset ∧ Part.AllSpelled parts := by
  induction h with
  | start _ => exact ⟨Nat.le_refl _, trivial⟩
  | stop _ => exact ⟨Nat.le_refl _, trivial, trivial⟩
  | word hspells => exact ⟨hspells.offset_le, trivial⟩
  | @name isFirst isOther part c c' first others hfirst hothers hspells =>
      have hword := isSpelled_ofList hfirst hothers
      obtain ⟨hspelled, hnames⟩ :=
        hp ⟨String.ofList (first :: others), ⟨c.offset, c'.offset⟩⟩ hword
      refine ⟨?_, hspelled, trivial⟩
      rw [Part.allNames, Part.allNames, List.append_nil]
      rcases hnames with hone | hnone
      · rw [hone]
        exact ⟨Nat.le_refl _, hspells.offset_lt, Nat.le_refl _⟩
      · rw [hnone]
        exact hspells.offset_le
  | seq _ hgap _ ihp ihq =>
      obtain ⟨hrow, hspelled⟩ := ihp hp.1
      obtain ⟨hrow', hspelled'⟩ := ihq hp.2
      rw [Part.allNames_append]
      exact ⟨hrow.append hgap.offset_le hrow', hspelled.append hspelled'⟩
  | left _ ih => exact ih hp.1
  | right _ ih => exact ih hp.2
  | none => exact ⟨Nat.le_refl _, trivial⟩
  | more _ hgap _ ihp ihmany =>
      obtain ⟨hrow, hspelled⟩ := ihp hp
      obtain ⟨hrow', hspelled'⟩ := ihmany hp
      rw [Part.allNames_append]
      exact ⟨hrow.append hgap.offset_le hrow', hspelled.append hspelled'⟩
  | rule _ ih =>
      obtain ⟨hrow, hspelled⟩ := ih hp
      rw [Part.allNames, Part.allNames, List.append_nil, Part.names]
      exact ⟨hrow, hspelled, trivial⟩

theorem keeps_identifier : (Pattern.identifier .name).Keeps := fun _ h => ⟨h, Or.inl rfl⟩

theorem keeps_document : Pattern.document.Keeps := by
  have hlabel : Pattern.label.Keeps := fun _ h => ⟨h, Or.inr rfl⟩
  have hcondition : (Pattern.identifier fun name => .text .identifier name.text).Keeps :=
    fun _ h => ⟨h, Or.inr rfl⟩
  have hevent : Pattern.event.Keeps :=
    ⟨⟨trivial, hlabel, trivial⟩, trivial, hcondition, trivial⟩
  have hlifeline : Pattern.lifelineBlock.Keeps :=
    ⟨trivial, keeps_identifier, trivial, hevent, trivial⟩
  have hscenario : Pattern.scenarioBlock.Keeps :=
    ⟨trivial, keeps_identifier, trivial, hlifeline, trivial⟩
  have hnames : Pattern.identifiers.Keeps := ⟨keeps_identifier, trivial, keeps_identifier⟩
  have harrows : Pattern.arrows.Keeps := ⟨keeps_identifier, trivial, hnames, trivial⟩
  have hcomponents : Pattern.components.Keeps := ⟨trivial, hnames, trivial⟩
  have hflow : Pattern.flow.Keeps := ⟨trivial, trivial, harrows, trivial⟩
  exact ⟨trivial, ⟨hcomponents, hscenario, hflow⟩, trivial⟩

/-! ## Documents -/

/-- The names that several arrows stand between; the source is written once. -/
def Arrows.names (arrows : Arrows) : List Name := arrows.source :: arrows.targets.toList

/-- The names in an item, in the order of the text. -/
def Item.names : Item → List Name
  | components names => names.toList
  | scenario block => block.name :: block.lifelines.map LifelineBlock.component
  | flow all => all.flatMap Arrows.names

/-- The names of a document. The source of several arrows is one of them, though it is a source
several times. -/
def names (d : Document) : List Name := d.items.flatMap Item.names

/-! ### Their trees -/

theorem allNames_map_name (names : List Name) : Part.allNames (names.map Part.name) = names := by
  rw [Part.allNames_eq, List.flatMap_map]
  exact List.flatMap_singleton' names

theorem names_lifeline (block : LifelineBlock) : block.part.names = [block.component] := by
  have hevents : Part.allNames (block.events.map eventPart) = [] := by
    rw [Part.allNames_eq, List.flatMap_map, List.flatMap_eq_nil_iff]
    intro e _
    cases e <;> rfl
  show block.component :: Part.allNames (block.events.map eventPart) = _
  rw [hevents]

theorem names_item (item : Item) : item.part.names = item.names := by
  cases item with
  | components names => exact allNames_map_name names.toList
  | scenario block =>
      show block.name :: Part.allNames (block.lifelines.map LifelineBlock.part) = _
      rw [Part.allNames_eq, List.flatMap_map]
      simp only [names_lifeline]
      exact congrArg (block.name :: ·) List.map_eq_flatMap.symm
  | flow all =>
      have harrows : ∀ arrows : Arrows, arrows.part.names = arrows.names := fun arrows =>
        congrArg (arrows.source :: ·) (allNames_map_name arrows.targets.toList)
      show Part.allNames (all.map Arrows.part) = _
      rw [Part.allNames_eq, List.flatMap_map]
      simp only [harrows]
      rfl

theorem names_tree (d : Document) : d.tree.names = d.names := by
  show Part.allNames (d.items.map Item.part ++ [.node .endOfText []]) = _
  rw [Part.allNames_append, Part.allNames_eq, List.flatMap_map]
  simp only [names_item]
  exact List.append_nil _

theorem spelled_parts {names : NameList} (h : Part.AllSpelled names.parts) :
    ∀ name ∈ names.toList, isIdentifier name.text = true := fun name hname =>
  Part.allSpelled_iff.mp h (.name name) (List.mem_map_of_mem hname)

theorem spelled_lifeline {block : LifelineBlock} (h : block.part.Spelled) :
    isIdentifier block.component.text = true ∧ ∀ e ∈ block.events, hasSpelling e = true := by
  refine ⟨h.1, fun e he => ?_⟩
  have hevent := Part.allSpelled_iff.mp h.2 (eventPart e) (List.mem_map_of_mem he)
  cases e with
  | message label => exact hevent.1
  | condition label => exact hevent.1

theorem spelled_of_tree {d : Document} (h : d.tree.Spelled) : d.Spelled := by
  have hitem : ∀ item ∈ d.items, item.part.Spelled := fun item hmem =>
    Part.allSpelled_iff.mp h item.part (List.mem_append_left _ (List.mem_map_of_mem hmem))
  refine ⟨fun names hmem => spelled_parts (hitem _ hmem), fun block hmem => ?_,
    fun all hmem arrows harrows => ?_⟩
  · obtain ⟨hname, hlifelines⟩ := hitem _ hmem
    exact ⟨hname, fun lifeline hlifeline => spelled_lifeline
      (Part.allSpelled_iff.mp hlifelines lifeline.part (List.mem_map_of_mem hlifeline))⟩
  · obtain ⟨hsource, htargets⟩ :=
      Part.allSpelled_iff.mp (hitem _ hmem) arrows.part (List.mem_map_of_mem harrows)
    exact ⟨hsource, spelled_parts htargets⟩

/-! ### Documents of trees -/

theorem eventPart_injective {e e' : Event} (h : eventPart e = eventPart e') : e = e' := by
  cases e <;> cases e'
  case message.message label label' => simpa [eventPart] using h
  case condition.condition label label' => simpa [eventPart] using h
  all_goals exact absurd h (by simp [eventPart])

theorem nameParts_injective {names names' : NameList} (h : names.parts = names'.parts) :
    names = names' := by
  have hlist : names.toList = names'.toList := by
    have hnames := congrArg Part.allNames h
    rwa [NameList.parts, NameList.parts, allNames_map_name, allNames_map_name] at hnames
  obtain ⟨hfirst, hmore⟩ := List.cons.inj hlist
  cases names
  exact congrArg₂ NameList.mk hfirst hmore

theorem lifelinePart_injective {block block' : LifelineBlock} (h : block.part = block'.part) :
    block = block' := by
  simp only [LifelineBlock.part, Part.node.injEq, List.cons.injEq, Part.name.injEq, true_and] at h
  obtain ⟨hname, hevents⟩ := h
  cases block
  exact congrArg₂ LifelineBlock.mk hname
    ((List.map_inj_right fun _ _ => eventPart_injective).mp hevents)

theorem arrowsPart_injective {arrows arrows' : Arrows} (h : arrows.part = arrows'.part) :
    arrows = arrows' := by
  simp only [Arrows.part, Part.node.injEq, List.cons.injEq, Part.name.injEq, true_and] at h
  obtain ⟨hsource, htargets⟩ := h
  cases arrows
  exact congrArg₂ Arrows.mk hsource (nameParts_injective htargets)

theorem itemPart_injective {item item' : Item} (h : item.part = item'.part) : item = item' := by
  cases item <;> cases item'
  case components.components names names' =>
    exact congrArg Item.components (nameParts_injective (Part.node.inj h).2)
  case scenario.scenario block block' =>
    obtain ⟨hname, hlifelines⟩ := List.cons.inj (Part.node.inj h).2
    cases block
    exact congrArg Item.scenario (congrArg₂ ScenarioBlock.mk (Part.name.inj hname)
      ((List.map_inj_right fun _ _ => lifelinePart_injective).mp hlifelines))
  case flow.flow all all' =>
    exact congrArg Item.flow
      ((List.map_inj_right fun _ _ => arrowsPart_injective).mp (Part.node.inj h).2)
  all_goals exact absurd (Part.node.inj h).1 (by decide)

/-- Two documents do not have the same tree. -/
theorem tree_injective {d d' : Document} (h : d.tree = d'.tree) : d = d' := by
  have hitems := List.append_cancel_right (Part.node.inj h).2
  cases d
  exact congrArg Document.mk ((List.map_inj_right fun _ _ => itemPart_injective).mp hitems)

/-! ### Documents that have been read -/

section Read

variable {text : String} {d : Document}

theorem read_of_toOption (h : (read text).toOption = some d) : read text = .ok d := by
  cases hread : read text with
  | error e =>
      rw [hread] at h
      exact nomatch h
  | ok other =>
      rw [hread] at h
      exact congrArg Except.ok (Option.some.inj h)

theorem derivable_of_read (h : read text = .ok d) : Derivable text d.tree := by
  rw [derivable_iff, readTree_eq, h]
  rfl

/-- **No two names of a document that has been read have the same place.** -/
theorem nodup_spans (h : read text = .ok d) : (d.names.map Name.span).Nodup := by
  obtain ⟨c, hderives⟩ := derivable_of_read h
  have hrow := (hderives.inRow keeps_document).1
  rw [Part.allNames, Part.allNames, List.append_nil, names_tree] at hrow
  exact hrow.nodup

theorem spelled_of_read (h : read text = .ok d) : d.Spelled := by
  obtain ⟨c, hderives⟩ := derivable_of_read h
  exact spelled_of_tree (hderives.inRow keeps_document).2.1

/-- A document that has been laid out is read, apart from its places. -/
theorem exists_read_of_laidOut (hspelled : d.Spelled) (hlaid : LaidOut d.tokens (.ofText text)) :
    ∃ d', read text = .ok d' ∧ d'.bare = d.bare := by
  obtain ⟨d', hbare, htree⟩ := readTree_of_laidOut hspelled hlaid
  rw [readTree_eq] at htree
  cases hread : read text with
  | error e =>
      rw [hread] at htree
      exact nomatch htree
  | ok other =>
      rw [hread] at htree
      have hsame := tree_injective (List.singleton_inj.mp (Except.ok.inj htree))
      exact ⟨other, rfl, hsame ▸ hbare⟩

end Read

end Document

end ScenarioFsp
