import Mathlib.Data.List.Nodup
import ScenarioFsp.Proofs.Document.Moving
import ScenarioFsp.Proofs.Document.Places
import ScenarioFsp.Proofs.Document.Verdict

/-!
# Flow blocks may stand anywhere

Arrows are collected while the items are taken, and looked up when all scenarios are
known. So it makes no difference where the flow blocks stand between the other items, and
how the arrows are distributed among them (`load_rearranged`).

The names of a rearranged document stand at other places, and errors are counted by their
places. But the names of a text have places of their own: a rearranged document is the
document with its names moved, and names at different places are moved to different places
(`Rearranges.exists_move`). So two problems are about the same place before the
rearrangement exactly if they are afterwards.
-/

namespace ScenarioFsp

namespace Document

/-! ## Rearrangements -/

/-- Apart from places, the other items are the same and in the same order, and so are the arrows.
Nothing is said about where flow blocks begin and end. -/
structure Rearranges (d d' : Document) : Prop where
  others : d'.others.map Item.bare = d.others.map Item.bare
  flows : d'.flows.map Arrows.bare = d.flows.map Arrows.bare

namespace Rearranges

variable {d d' : Document}

theorem symm (h : d.Rearranges d') : d'.Rearranges d := ⟨h.others.symm, h.flows.symm⟩

theorem trans {d'' : Document} (h : d.Rearranges d') (h' : d'.Rearranges d'') :
    d.Rearranges d'' := ⟨h'.others.trans h.others, h'.flows.trans h.flows⟩

theorem of_bare (h : d'.bare = d.bare) : d.Rearranges d' := by
  have hitems : d'.items.map Item.bare = d.items.map Item.bare := congrArg Document.items h
  have hothers : ∀ d : Document, d.others.map Item.bare =
      (d.items.map Item.bare).filter fun item => !item.isFlow := fun d => by
    have hflow : (fun item : Item => !item.isFlow) ∘ Item.bare = fun item => !item.isFlow := by
      funext item
      cases item <;> rfl
    rw [List.filter_map, hflow]
    rfl
  have hflows : ∀ d : Document, d.flows.map Arrows.bare =
      (d.items.map Item.bare).flatMap Item.flows := fun d => by
    unfold Document.flows
    rw [List.map_flatMap, List.flatMap_map]
    exact List.flatMap_congr fun item _ => by cases item <;> rfl
  exact ⟨by rw [hothers, hothers, hitems], by rw [hflows, hflows, hitems]⟩

/-- A flow block may change places with any other item. -/
theorem pass (before after : List Item) (all : List Arrows) {item : Item}
    (hitem : item.isFlow = false) :
    Rearranges ⟨before ++ .flow all :: item :: after⟩ ⟨before ++ item :: .flow all :: after⟩ := by
  refine ⟨?_, ?_⟩
  · simp [Document.others, Item.isFlow_flow, hitem]
  · simp [Document.flows, Item.flows_eq_nil hitem]

/-- A flow block may be split, and two blocks may be joined. -/
theorem split (before after : List Item) (all more : List Arrows) :
    Rearranges ⟨before ++ .flow (all ++ more) :: after⟩
      ⟨before ++ .flow all :: .flow more :: after⟩ := by
  refine ⟨?_, ?_⟩
  · simp [Document.others, Item.isFlow_flow]
  · simp [Document.flows, Item.flows]

end Rearranges

/-! ## The places of a rearranged document -/

section Places

variable {σ : Span → Span}

theorem names_bare (item : Item) : item.bare.names = item.names.map Name.bare := by
  cases item with
  | components names => rfl
  | scenario block =>
      show block.name.bare :: (block.lifelines.map LifelineBlock.bare).map LifelineBlock.component =
        (block.name :: block.lifelines.map LifelineBlock.component).map Name.bare
      rw [List.map_cons, List.map_map, List.map_map]
      rfl
  | flow all =>
      show (all.map Arrows.bare).flatMap Arrows.names = (all.flatMap Arrows.names).map Name.bare
      rw [List.flatMap_map, List.map_flatMap]
      rfl

/-- The names of the flow blocks stand in one block behind the others. -/
def gatheredNames (d : Document) : List Name :=
  d.others.flatMap Item.names ++ d.flows.flatMap Arrows.names

theorem perm_gatheredNames (d : Document) : d.gatheredNames.Perm d.names := by
  unfold gatheredNames others flows names
  induction d.items with
  | nil => exact .refl _
  | cons item items ih =>
      rw [List.flatMap_cons, List.flatMap_cons, List.flatMap_append]
      cases hitem : item.isFlow with
      | false =>
          rw [List.filter_cons_of_pos (by simp [hitem]), List.flatMap_cons,
            Item.flows_eq_nil hitem, List.append_assoc]
          exact ih.append_left _
      | true =>
          obtain ⟨all, rfl⟩ := Item.exists_of_isFlow hitem
          rw [List.filter_cons_of_neg (by simp [hitem])]
          exact (List.perm_append_comm_assoc _ _ _).trans (ih.append_left _)

/-- If the names of a list of parts have been moved, so have the parts. -/
theorem eq_map_of_names {α β : Type} {names : α → List Name} {bare : α → β} {move : α → α}
    (hlength : ∀ a a', bare a' = bare a → (names a').length = (names a).length)
    (hmove : ∀ a a', bare a' = bare a → names a' = (names a).map (Name.move σ) → a' = move a)
    {as as' : List α} (hbare : as'.map bare = as.map bare)
    (hnames : as'.flatMap names = (as.flatMap names).map (Name.move σ)) : as' = as.map move := by
  induction as generalizing as' with
  | nil => exact List.map_eq_nil_iff.mp hbare
  | cons a as ih =>
      cases as' with
      | nil => exact absurd hbare (by simp)
      | cons a' as' =>
          obtain ⟨hfirst, hrest⟩ := List.cons.inj hbare
          rw [List.flatMap_cons, List.flatMap_cons, List.map_append] at hnames
          obtain ⟨hnames, hothers⟩ := List.append_inj hnames (by simpa using hlength a a' hfirst)
          rw [List.map_cons, hmove a a' hfirst hnames, ih hrest hothers]

theorem nameList_eq_move {names names' : NameList}
    (h : names'.toList = names.toList.map (Name.move σ)) : names' = names.move σ := by
  obtain ⟨first, more⟩ := names
  obtain ⟨first', more'⟩ := names'
  obtain ⟨hfirst, hmore⟩ := List.cons.inj h
  exact congrArg₂ NameList.mk hfirst hmore

theorem length_names_of_bare {names names' : NameList} (h : names'.bare = names.bare) :
    names'.toList.length = names.toList.length := by
  have hmore := congrArg (fun names => names.more.length) h
  simpa [NameList.bare, NameList.toList] using hmore

theorem arrows_eq_map_move {all all' : List Arrows}
    (hbare : all'.map Arrows.bare = all.map Arrows.bare)
    (hnames : all'.flatMap Arrows.names = (all.flatMap Arrows.names).map (Name.move σ)) :
    all' = all.map (Arrows.move σ) := by
  refine eq_map_of_names (fun a a' hbare => ?_) (fun a a' hbare hnames => ?_) hbare hnames
  · exact congrArg (· + 1) (length_names_of_bare (congrArg Arrows.targets hbare))
  · obtain ⟨source, targets⟩ := a
    obtain ⟨source', targets'⟩ := a'
    obtain ⟨hsource, htargets⟩ := List.cons.inj hnames
    exact congrArg₂ Arrows.mk hsource (nameList_eq_move htargets)

theorem lifelines_eq_map_move {blocks blocks' : List LifelineBlock}
    (hbare : blocks'.map LifelineBlock.bare = blocks.map LifelineBlock.bare)
    (hnames : blocks'.map LifelineBlock.component =
      (blocks.map LifelineBlock.component).map (Name.move σ)) :
    blocks' = blocks.map (LifelineBlock.move σ) := by
  have hsingle : blocks'.flatMap (fun block => [block.component]) =
      (blocks.flatMap fun block => [block.component]).map (Name.move σ) := by
    rw [← List.map_eq_flatMap, ← List.map_eq_flatMap]
    exact hnames
  refine eq_map_of_names (fun _ _ _ => rfl) (fun b b' hbare hnames => ?_) hbare hsingle
  obtain ⟨component, events⟩ := b
  obtain ⟨component', events'⟩ := b'
  obtain rfl : events' = events := congrArg LifelineBlock.events hbare
  obtain rfl : component' = component.move σ := List.singleton_inj.mp hnames
  rfl

theorem items_eq_map_move {items items' : List Item}
    (hbare : items'.map Item.bare = items.map Item.bare)
    (hnames : items'.flatMap Item.names = (items.flatMap Item.names).map (Name.move σ)) :
    items' = items.map (Item.move σ) := by
  refine eq_map_of_names (fun a a' hbare => ?_) (fun a a' hbare hnames => ?_) hbare hnames
  · have hlength := congrArg (fun item => item.names.length) hbare
    simpa [names_bare] using hlength
  · cases a <;> cases a'
    case components.components names names' =>
      exact congrArg Item.components (nameList_eq_move hnames)
    case scenario.scenario block block' =>
      obtain ⟨name, lifelines⟩ := block
      obtain ⟨name', lifelines'⟩ := block'
      obtain ⟨hname, hcomponents⟩ := List.cons.inj hnames
      have hlifelines := congrArg ScenarioBlock.lifelines (Item.scenario.inj hbare)
      exact congrArg Item.scenario
        (congrArg₂ ScenarioBlock.mk hname (lifelines_eq_map_move hlifelines hcomponents))
    case flow.flow all all' =>
      exact congrArg Item.flow (arrows_eq_map_move (Item.flow.inj hbare) hnames)
    all_goals exact absurd hbare (by simp [Item.bare])

/-- Names with different places can be moved to where the same names stand otherwise. -/
theorem exists_move {names names' : List Name} (hbare : names'.map Name.bare = names.map Name.bare)
    (hnodup : (names.map Name.span).Nodup) : ∃ σ, names' = names.map (Name.move σ) := by
  have hlength : names'.length = names.length := by simpa using congrArg List.length hbare
  refine ⟨fun s => ((names'.map Name.span)[(names.map Name.span).idxOf s]?).getD s,
    List.ext_getElem (by simpa using hlength) fun i hi hi' => ?_⟩
  rw [List.length_map] at hi'
  have htext : names'[i].text = names[i].text := by
    have hget := congrArg (fun names => names[i]?.map Name.text) hbare
    simpa [hi, hi', Name.bare] using hget
  have hindex : (names.map Name.span).idxOf names[i].span = i := by
    have hget := hnodup.idxOf_getElem i (by simpa using hi')
    rwa [List.getElem_map] at hget
  rw [List.getElem_map]
  show names'[i] = ⟨names[i].text,
    ((names'.map Name.span)[(names.map Name.span).idxOf names[i].span]?).getD names[i].span⟩
  rw [hindex, ← htext]
  simp [hi]

theorem map_bare_flatMap_names (items : List Item) :
    (items.flatMap Item.names).map Name.bare = (items.map Item.bare).flatMap Item.names := by
  rw [List.map_flatMap, List.flatMap_map]
  exact List.flatMap_congr fun item _ => (names_bare item).symm

theorem Rearranges.gatheredNames {d d' : Document} (h : d.Rearranges d') :
    d'.gatheredNames.map Name.bare = d.gatheredNames.map Name.bare := by
  have hflows : ∀ d : Document, (d.flows.flatMap Arrows.names).map Name.bare =
      (d.flows.map Arrows.bare).flatMap Arrows.names := fun d => by
    rw [List.map_flatMap, List.flatMap_map]
    rfl
  unfold Document.gatheredNames
  rw [List.map_append, List.map_append, map_bare_flatMap_names, map_bare_flatMap_names, h.others,
    hflows, hflows, h.flows]

/-- The names of a rearranged document are those of the document at other places, and names at
different places are moved to different places. -/
theorem Rearranges.exists_move {d d' : Document} (h : d.Rearranges d')
    (hnodup : (d.names.map Name.span).Nodup) (hnodup' : (d'.names.map Name.span).Nodup) :
    ∃ σ, d'.others = d.others.map (Item.move σ) ∧ d'.flows = d.flows.map (Arrows.move σ) ∧
      ∀ s ∈ d.names.map Name.span, ∀ t ∈ d.names.map Name.span, σ s = σ t → s = t := by
  have hperm := (perm_gatheredNames d).map Name.span
  have hperm' := (perm_gatheredNames d').map Name.span
  obtain ⟨σ, hσ⟩ := Document.exists_move h.gatheredNames (hperm.nodup_iff.mpr hnodup)
  have hsplit := hσ
  unfold Document.gatheredNames at hsplit
  rw [List.map_append] at hsplit
  have hlength : (d'.others.flatMap Item.names).length =
      ((d.others.flatMap Item.names).map (Name.move σ)).length := by
    have hbare := congrArg (fun items => (items.flatMap Item.names).length) h.others
    rw [← map_bare_flatMap_names, ← map_bare_flatMap_names] at hbare
    simpa using hbare
  obtain ⟨hmoved, hmoved'⟩ := List.append_inj hsplit hlength
  refine ⟨σ, items_eq_map_move h.others hmoved, arrows_eq_map_move h.flows hmoved', ?_⟩
  have hspans : d'.gatheredNames.map Name.span = (d.gatheredNames.map Name.span).map σ := by
    rw [hσ, List.map_map, List.map_map]
    rfl
  have hinj := hperm'.nodup_iff.mpr hnodup'
  rw [hspans] at hinj
  intro s hs t ht
  exact List.inj_on_of_nodup_map hinj (hperm.mem_iff.mpr hs) (hperm.mem_iff.mpr ht)

end Places

/-! ## The same number of errors -/

theorem mem_names {d : Document} {item : Item} {name : Name} (hitem : item ∈ d.items)
    (hname : name ∈ item.names) : name ∈ d.names :=
  List.mem_flatMap.mpr ⟨item, hitem, hname⟩

theorem ends_mem_names {d : Document} {a : Arrow} (ha : a ∈ d.items.flatMap Item.arrows) :
    a.source ∈ d.names ∧ a.target ∈ d.names := by
  obtain ⟨item, hitem, harrow⟩ := List.mem_flatMap.mp ha
  cases item with
  | components names => exact absurd harrow List.not_mem_nil
  | scenario block => exact absurd harrow List.not_mem_nil
  | flow all =>
      obtain ⟨arrows, harrows, htarget⟩ := List.mem_flatMap.mp harrow
      obtain ⟨target, hmem, rfl⟩ := List.mem_map.mp htarget
      have hnames : ∀ {name}, name ∈ arrows.names → name ∈ d.names := fun hname =>
        mem_names hitem (List.mem_flatMap.mpr ⟨arrows, harrows, hname⟩)
      exact ⟨hnames List.mem_cons_self, hnames (List.mem_cons_of_mem _ hmem)⟩

/-- Only names of the document are to blame. -/
theorem Blames.mem_names {d : Document} {p : Problem} (h : d.Blames p) : p.blamed ∈ d.names := by
  rcases h with ⟨before, item, after, hitems, hblames⟩ | ⟨a, ha, hblames⟩
  · have hitem : item ∈ d.items := by
      rw [hitems]
      exact List.mem_append_right _ List.mem_cons_self
    refine Document.mem_names hitem ?_
    cases hblames with
    | repeatedComponent hsplit _ =>
        show _ ∈ NameList.toList _
        rw [hsplit]
        exact List.mem_append_right _ List.mem_cons_self
    | reservedName _ => exact List.mem_cons_self
    | repeatedScenario _ _ => exact List.mem_cons_self
    | undeclaredComponent _ hlifeline _ =>
        exact List.mem_cons_of_mem _ (List.mem_map_of_mem hlifeline)
    | repeatedLifeline _ hsplit _ _ =>
        refine List.mem_cons_of_mem _ (List.mem_map_of_mem ?_)
        rw [hsplit]
        exact List.mem_append_right _ List.mem_cons_self
  · obtain ⟨hsource, htarget⟩ := ends_mem_names ha
    cases hblames with
    | initToFinal _ _ => exact htarget
    | intoInit _ => exact htarget
    | outOfFinal _ _ => exact hsource
    | unknownSource _ _ _ => exact hsource
    | unknownTarget _ _ _ => exact htarget

end Document

theorem foldl_addOnce_map {α β : Type} [DecidableEq α] [DecidableEq β] {f : α → β} {as l : List α}
    (h : ∀ a ∈ l ++ as, ∀ b ∈ l ++ as, f a = f b → a = b) :
    (as.map f).foldl (fun l a => addOnce a l) (l.map f) =
      (as.foldl (fun l a => addOnce a l) l).map f := by
  induction as generalizing l with
  | nil => rfl
  | cons a as ih =>
      have hmem : f a ∈ l.map f ↔ a ∈ l := by
        refine ⟨fun hf => ?_, List.mem_map_of_mem⟩
        obtain ⟨b, hb, heq⟩ := List.mem_map.mp hf
        rw [← h b (List.mem_append_left _ hb) a (by simp) heq]
        exact hb
      have hadd : addOnce (f a) (l.map f) = (addOnce a l).map f := by
        unfold addOnce
        by_cases ha : a ∈ l
        · rw [if_pos (hmem.mpr ha), if_pos ha]
        · rw [if_neg fun hf => ha (hmem.mp hf), if_neg ha, List.map_append]
          rfl
      rw [List.map_cons, List.foldl_cons, List.foldl_cons, hadd]
      refine ih fun b hb c hc => h b ?_ c ?_
      · simpa [or_left_comm, or_assoc] using hb
      · simpa [or_left_comm, or_assoc] using hc

/-! ## Rearranged texts -/

namespace Document

variable {d d' : Document}

/-- The events of all lifelines in an item. -/
def Item.events : Item → List Event
  | scenario block => block.lifelines.flatMap LifelineBlock.events
  | _ => []

/-- Whether a document can be written depends on its names and its events. -/
theorem spelled_iff : d.Spelled ↔ (∀ name ∈ d.names, isIdentifier name.text = true) ∧
    ∀ e ∈ d.items.flatMap Item.events, hasSpelling e = true := by
  constructor
  · intro h
    refine ⟨fun name hname => ?_, fun e he => ?_⟩
    · obtain ⟨item, hitem, hname⟩ := List.mem_flatMap.mp hname
      cases item with
      | components names => exact h.components names hitem name hname
      | scenario block =>
          obtain ⟨hblock, hlifelines⟩ := h.scenarios block hitem
          rcases List.mem_cons.mp hname with rfl | hname
          · exact hblock
          · obtain ⟨lifeline, hlifeline, rfl⟩ := List.mem_map.mp hname
            exact (hlifelines lifeline hlifeline).1
      | flow all =>
          obtain ⟨arrows, harrows, hname⟩ := List.mem_flatMap.mp hname
          obtain ⟨hsource, htargets⟩ := h.flows all hitem arrows harrows
          rcases List.mem_cons.mp hname with rfl | hname
          · exact hsource
          · exact htargets name hname
    · obtain ⟨item, hitem, he⟩ := List.mem_flatMap.mp he
      cases item with
      | components names => exact absurd he List.not_mem_nil
      | flow all => exact absurd he List.not_mem_nil
      | scenario block =>
          obtain ⟨lifeline, hlifeline, he⟩ := List.mem_flatMap.mp he
          exact ((h.scenarios block hitem).2 lifeline hlifeline).2 e he
  · rintro ⟨hnames, hevents⟩
    have hname : ∀ {item name}, item ∈ d.items → name ∈ item.names →
        isIdentifier name.text = true := fun hitem hname =>
      hnames _ (List.mem_flatMap.mpr ⟨_, hitem, hname⟩)
    refine ⟨fun names hitem name => hname hitem, fun block hitem => ⟨hname hitem List.mem_cons_self,
      fun lifeline hlifeline => ⟨?_, fun e he => ?_⟩⟩, fun all hitem arrows harrows =>
        ⟨?_, fun name htarget => ?_⟩⟩
    · exact hname hitem (List.mem_cons_of_mem _ (List.mem_map_of_mem hlifeline))
    · exact hevents e (List.mem_flatMap.mpr
        ⟨_, hitem, List.mem_flatMap.mpr ⟨lifeline, hlifeline, he⟩⟩)
    · exact hname hitem (List.mem_flatMap.mpr ⟨arrows, harrows, List.mem_cons_self⟩)
    · exact hname hitem (List.mem_flatMap.mpr ⟨arrows, harrows, List.mem_cons_of_mem _ htarget⟩)

theorem flatMap_events_eq (d : Document) :
    d.items.flatMap Item.events = (d.others.map Item.bare).flatMap Item.events := by
  have hbare : ∀ item : Item, item.bare.events = item.events := fun item => by
    cases item with
    | components names => rfl
    | flow all => rfl
    | scenario block =>
        show (block.lifelines.map LifelineBlock.bare).flatMap LifelineBlock.events =
          block.lifelines.flatMap LifelineBlock.events
        rw [List.flatMap_map]
        rfl
  rw [List.flatMap_map]
  simp only [hbare]
  unfold others
  induction d.items with
  | nil => rfl
  | cons item items ih =>
      rw [List.flatMap_cons, ih]
      cases hitem : item.isFlow with
      | false => rw [List.filter_cons_of_pos (by simp [hitem]), List.flatMap_cons]
      | true =>
          obtain ⟨all, rfl⟩ := Item.exists_of_isFlow hitem
          rw [List.filter_cons_of_neg (by simp [hitem])]
          rfl

/-- A rearrangement of what can be written can be written. -/
theorem Rearranges.spelled (h : d.Rearranges d') (hspelled : d.Spelled) : d'.Spelled := by
  obtain ⟨hnames, hevents⟩ := spelled_iff.mp hspelled
  refine spelled_iff.mpr ⟨fun name hname => ?_, ?_⟩
  · have hmem := List.mem_map_of_mem (f := Name.bare) ((perm_gatheredNames d').mem_iff.mpr hname)
    rw [h.gatheredNames] at hmem
    obtain ⟨other, hother, hbare⟩ := List.mem_map.mp hmem
    show isIdentifier name.bare.text = true
    rw [← hbare]
    exact hnames other ((perm_gatheredNames d).mem_iff.mp hother)
  · rw [flatMap_events_eq, h.others, ← flatMap_events_eq]
    exact hevents

end Document

namespace Journal

open Document (Problem)

/-- Problems at other places are as many errors, if no two places become one. -/
theorem length_blamedPlaces_moved {σ : Span → Span} {ps : List Problem}
    (h : ∀ p ∈ ps, ∀ q ∈ ps, σ p.blamed.span = σ q.blamed.span → p.blamed.span = q.blamed.span) :
    (blamedPlaces (ps.map (Problem.move σ))).length = (blamedPlaces ps).length := by
  have hspans : (ps.map (Problem.move σ)).map (fun p => p.blamed.span) =
      (ps.map fun p => p.blamed.span).map σ := by
    rw [List.map_map, List.map_map]
    rfl
  have hinj : ∀ s ∈ [] ++ ps.map (fun p => p.blamed.span),
      ∀ t ∈ [] ++ ps.map (fun p => p.blamed.span), σ s = σ t → s = t := by
    intro s hs t ht
    obtain ⟨p, hp, rfl⟩ := List.mem_map.mp hs
    obtain ⟨q, hq, rfl⟩ := List.mem_map.mp ht
    exact h p hp q hq
  unfold blamedPlaces
  rw [hspans]
  exact (congrArg List.length (foldl_addOnce_map hinj)).trans (List.length_map _)

theorem load_of_rearranges (colored warnings : Bool) (name : String) {text text' : String}
    {d d' : Document} (hread : Document.read text = .ok d) (hread' : Document.read text' = .ok d')
    (h : d.Rearranges d') :
    ((start colored warnings).load name text').result =
        ((start colored warnings).load name text).result ∧
      ((start colored warnings).load name text').journal.errors =
        ((start colored warnings).load name text).journal.errors := by
  obtain ⟨σ, hothers, hflows, hinj⟩ :=
    h.exists_move (Document.nodup_spans hread) (Document.nodup_spans hread')
  have hload := Document.load_moved hothers hflows
  have hlength : (blamedPlaces d'.load.problems).length =
      (blamedPlaces d.load.problems).length := by
    have hplace : ∀ p ∈ d.load.problems, p.blamed.span ∈ d.names.map Document.Name.span :=
      fun p hp => List.mem_map_of_mem (Document.mem_problems_load.mp hp).mem_names
    rw [hload]
    exact length_blamedPlaces_moved fun p hp q hq => hinj _ (hplace p hp) _ (hplace q hq)
  have hspec : d'.load.spec = d.load.spec := by rw [hload]; rfl
  rw [result_load colored warnings name hread, result_load colored warnings name hread',
    errors_load colored warnings name hread, errors_load colored warnings name hread', hlength,
    hspec]
  exact ⟨rfl, rfl⟩

/--
**Flow blocks may stand anywhere.** If the flow blocks of a text are moved, split or joined,
and arrows and other items stay in their order, a fresh journal comes to the same result: it
accepts both texts or none, counts as many errors, and the specification is the same with all
its numbers. A text is rearranged if the document that is read from it is, whatever stands
between its words; and whatever rearranged document one writes, the text can be read.
-/
theorem load_rearranged (colored warnings : Bool) (name : String) {text : String}
    {d d' : Document} (hread : Document.read text = .ok d) (h : d.Rearranges d') :
    (∀ text', Document.read text' = .ok d' →
      ((start colored warnings).load name text').result =
          ((start colored warnings).load name text).result ∧
        ((start colored warnings).load name text').journal.errors =
          ((start colored warnings).load name text).journal.errors) ∧
    ∀ text', Document.LaidOut d'.tokens (.ofText text') →
      ((start colored warnings).load name text').result =
          ((start colored warnings).load name text).result ∧
        ((start colored warnings).load name text').journal.errors =
          ((start colored warnings).load name text).journal.errors := by
  refine ⟨fun text' hread' => load_of_rearranges colored warnings name hread hread' h,
    fun text' hlaid => ?_⟩
  obtain ⟨e, hread', hbare⟩ :=
    Document.exists_read_of_laidOut (h.spelled (Document.spelled_of_read hread)) hlaid
  exact load_of_rearranges colored warnings name hread hread' (h.trans (.of_bare hbare))

/-- The flow comes first. -/
def hastyLamp : String :=
  "hmsc \x7b init -> On; On -> X, Off; X -> final; \x7d component Lamp, Lamp; " ++
    "bmsc On \x7b instance Lamp \x7b\x7d instance Fan \x7b\x7d \x7d bmsc Off \x7b\x7d"

/-- The flow is told bit by bit. -/
def hesitantLamp : String :=
  "component Lamp, Lamp; hmsc\x7binit->On;\x7d bmsc On\x7binstance Lamp\x7b\x7d" ++
    "instance Fan\x7b\x7d\x7d hmsc\x7b\x7d bmsc Off\x7b\x7d hmsc\x7bOn->X,Off;X->final;\x7d"

theorem load_rearranged_hastyLamp :
    ∃ d d', Document.read hastyLamp = .ok d ∧ Document.read hesitantLamp = .ok d' ∧
      d.Rearranges d' ∧
      ((start false true).load "lamp.msc" hesitantLamp).result =
        ((start false true).load "lamp.msc" hastyLamp).result ∧
      ((start false true).load "lamp.msc" hesitantLamp).journal.errors = 4 ∧
      ((start false true).load "lamp.msc" hastyLamp).journal.errors = 4 := by
  have hboth : ((Document.read hastyLamp).toOption.bind fun d =>
      (Document.read hesitantLamp).toOption.map fun d' =>
        decide (d'.others.map Document.Item.bare = d.others.map Document.Item.bare ∧
          d'.flows.map Document.Arrows.bare = d.flows.map Document.Arrows.bare)) = some true := by
    decide +kernel
  have herrors : ((start false true).load "lamp.msc" hastyLamp).journal.errors = 4 := by
    decide +kernel
  obtain ⟨d, hd, hrest⟩ := Option.bind_eq_some_iff.mp hboth
  obtain ⟨d', hd', hsame⟩ := Option.map_eq_some_iff.mp hrest
  have hread := Document.read_of_toOption hd
  have hread' := Document.read_of_toOption hd'
  obtain ⟨hothers, hflows⟩ := of_decide_eq_true hsame
  obtain ⟨hresult, hcount⟩ := (load_rearranged false true "lamp.msc" hread ⟨hothers, hflows⟩).1
    hesitantLamp hread'
  exact ⟨d, d', hread, hread', ⟨hothers, hflows⟩, hresult, hcount.trans herrors, herrors⟩

end Journal

end ScenarioFsp
