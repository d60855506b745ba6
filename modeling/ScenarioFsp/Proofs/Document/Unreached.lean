import Mathlib.Data.List.Nodup
import ScenarioFsp.Proofs.Document.Faults
import ScenarioFsp.Proofs.Document.Places
import ScenarioFsp.Proofs.Document.Steps
import ScenarioFsp.Proofs.Flow.Reached

/-!
# The accepted scenarios that are not reached

Loading records the name of a block when it accepts the block. So the recorded names are
those of the accepted blocks, in the order of the text and each once (`lists_load`), and
the number of a scenario is the place of its name among them. The search over the flow
graph works on numbers; what it leaves out are exactly the names of accepted blocks to
which no continuation edges lead from an initial scenario (`unreached_load`).
-/

namespace ScenarioFsp

namespace Document

variable {d : Document} {items : List Item} {item : Item} {name : Name}

/-! ## Accepted scenarios -/

/-- The name is that of a block that is accepted. -/
def AcceptedName (items : List Item) (name : Name) : Prop :=
  Somewhere (fun before item =>
    ∃ block, item = .scenario block ∧ Accepts before block ∧ block.name = name) items

theorem acceptedName_concat : AcceptedName (items ++ [item]) name ↔ AcceptedName items name ∨
    ∃ block, item = .scenario block ∧ Accepts items block ∧ block.name = name :=
  somewhere_concat

namespace Loader

variable {l l' : Loader}

/-- Scenarios are only ever recorded behind those that are recorded already. -/
theorem Step.exists_scenarios (h : Step l l') :
    ∃ more, l'.scenarios = l.scenarios ++ more := by
  cases h with
  | scenario name _ _ _ => exact ⟨[name], rfl⟩
  | blame _ _ => exact ⟨[], (List.append_nil _).symm⟩
  | component _ _ => exact ⟨[], (List.append_nil _).symm⟩
  | lifeline _ _ _ => exact ⟨[], (List.append_nil _).symm⟩
  | collect _ => exact ⟨[], (List.append_nil _).symm⟩
  | edge _ _ => exact ⟨[], (List.append_nil _).symm⟩
  | initial _ => exact ⟨[], (List.append_nil _).symm⟩
  | final _ => exact ⟨[], (List.append_nil _).symm⟩

theorem Steps.exists_scenarios (h : Steps l l') :
    ∃ more, l'.scenarios = l.scenarios ++ more := by
  induction h with
  | refl => exact ⟨[], (List.append_nil _).symm⟩
  | tail _ hstep ih =>
      obtain ⟨earlier, hearlier⟩ := ih
      obtain ⟨more, hmore⟩ := hstep.exists_scenarios
      exact ⟨earlier ++ more, by rw [hmore, hearlier, List.append_assoc]⟩

/-- Steps that declare no scenario record none. -/
theorem Steps.scenarios_eq (h : Steps l l') (hl : l.Sound)
    (hsame : l'.spec.scenarios = l.spec.scenarios) : l'.scenarios = l.scenarios := by
  obtain ⟨more, hmore⟩ := h.exists_scenarios
  have hnames : l'.scenarios.map Name.text = l.scenarios.map Name.text :=
    (h.sound hl).recorded.trans (hsame.trans hl.recorded.symm)
  have hrecorded := congrArg List.length hnames
  rw [List.length_map, List.length_map, hmore, List.length_append] at hrecorded
  have hnone : more = [] := List.length_eq_zero_iff.mp (by omega)
  rw [hmore, hnone, List.append_nil]

/-- The recorded names are those of the accepted blocks, in the order of the blocks. -/
structure Lists (items : List Item) (l : Loader) : Prop where
  sublist : l.scenarios.Sublist (items.flatMap Item.scenarioNames)
  mem_iff : ∀ name, name ∈ l.scenarios ↔ AcceptedName items name

theorem Lists.keep (h : Lists items l) (hscenarios : l'.scenarios = l.scenarios)
    (hnone : ∀ block, item = .scenario block → ¬Accepts items block) :
    Lists (items ++ [item]) l' := by
  refine ⟨?_, fun name => ?_⟩
  · rw [hscenarios, List.flatMap_append]
    exact h.sublist.trans (List.sublist_append_left _ _)
  · rw [hscenarios, h.mem_iff, acceptedName_concat]
    exact (or_iff_left fun ⟨block, hitem, haccepts, _⟩ => hnone block hitem haccepts).symm

theorem Lists.accept (h : Lists items l) {block : ScenarioBlock} (haccepts : Accepts items block)
    (hscenarios : l'.scenarios = l.scenarios ++ [block.name]) :
    Lists (items ++ [.scenario block]) l' := by
  refine ⟨?_, fun name => ?_⟩
  · rw [hscenarios, List.flatMap_append]
    exact h.sublist.append (List.Sublist.refl [block.name])
  · rw [hscenarios, List.mem_append, List.mem_singleton, h.mem_iff, acceptedName_concat]
    refine or_congr_right ⟨fun hname => ⟨block, rfl, haccepts, hname.symm⟩, fun hnew => ?_⟩
    obtain ⟨_, hitem, -, hname⟩ := hnew
    obtain rfl := Item.scenario.inj hitem
    exact hname.symm

theorem Lists.addScenario (h : Lists items l) (hl : l.Sound) (hstands : Stands items l)
    (block : ScenarioBlock) : Lists (items ++ [.scenario block]) (l.addScenario block) := by
  have hblock : ∀ {other}, Item.scenario block = .scenario other → other = block := fun hitem =>
    (Item.scenario.inj hitem).symm
  unfold Loader.addScenario
  split
  · rename_i hreserved
    refine h.keep rfl fun other hother haccepts => ?_
    rw [hblock hother] at haccepts
    exact haccepts.1 hreserved
  rename_i hfree
  split
  · rename_i htaken
    refine h.keep rfl fun other hother haccepts => ?_
    rw [hblock hother] at haccepts
    exact (accepts_iff.mp haccepts).2 ((hstands.scenarios _).mp htaken)
  · rename_i hnew
    obtain ⟨hinit, hfinal⟩ := not_or.mp hfree
    refine h.accept (accepts_iff.mpr ⟨hfree, fun hdefines =>
      hnew ((hstands.scenarios _).mpr hdefines)⟩) ?_
    -- the lifelines that follow declare no other scenario
    have hsound := (Step.scenario l block.name hnew hinit hfinal).sound hl
    exact Steps.scenarios_eq
      (addLifelines_steps _ _ _ (Specification.declares_new hnew) _) hsound
      (addLifelines_keeps _ _ _ _ _).2.1

theorem lists_items (items : List Item) : Lists items (items.foldl addItem start) := by
  induction items using List.reverseRecOn with
  | nil =>
      exact ⟨List.Sublist.refl [], fun name =>
        ⟨fun h => absurd h List.not_mem_nil, fun h => absurd h not_somewhere_nil⟩⟩
  | append_singleton items item ih =>
      have hl : (items.foldl addItem start).Sound :=
        (steps_foldl addItem_steps items start).sound sound_start
      rw [List.foldl_append, List.foldl_cons, List.foldl_nil]
      cases item with
      | components names =>
          refine ih.keep ?_ fun _ hitem => nomatch hitem
          exact (addItem_steps _ (.components names)).scenarios_eq hl
            (foldl_declareComponent names.toList _).2.1
      | scenario block => exact ih.addScenario hl (stands_items items) block
      | flow block => exact ih.keep rfl fun _ hitem => nomatch hitem

theorem foldl_addArrow_keeps (arrows : List Arrow) (l : Loader) :
    (arrows.foldl addArrow l).spec.scenarios = l.spec.scenarios := by
  induction arrows generalizing l with
  | nil => rfl
  | cons a arrows ih => exact (ih (l.addArrow a)).trans (addArrow_keeps l a).1

end Loader

/-- What is recorded in the end are the accepted scenarios, in order. -/
theorem lists_load (d : Document) : Loader.Lists d.items d.load := by
  have hl : (d.items.foldl Loader.addItem .start).Sound :=
    (Loader.steps_foldl Loader.addItem_steps _ _).sound Loader.sound_start
  have hsame := (Loader.steps_foldl Loader.addArrow_steps _ _).scenarios_eq hl
    (Loader.foldl_addArrow_keeps (d.items.foldl Loader.addItem .start).arrows _)
  obtain ⟨hsublist, hmem⟩ := Loader.lists_items d.items
  have hload : d.load.scenarios = (d.items.foldl Loader.addItem .start).scenarios := hsame
  exact ⟨hload ▸ hsublist, hload ▸ hmem⟩

theorem defines_iff_exists_acceptedName {text : String} :
    Defines items text ↔ ∃ name, AcceptedName items name ∧ name.text = text := by
  refine ⟨fun h => ?_, fun h => ?_⟩
  · obtain ⟨before, item, after, hitems, block, hitem, haccepts, htext⟩ := h
    exact ⟨block.name, ⟨before, item, after, hitems, block, hitem, haccepts, rfl⟩, htext⟩
  · obtain ⟨name, ⟨before, item, after, hitems, block, hitem, haccepts, rfl⟩, htext⟩ := h
    exact ⟨before, item, after, hitems, block, hitem, haccepts, htext⟩

/-! ## Scenarios that are not reached -/

/-- The names of the accepted scenarios that are not reached, in the order of their blocks. -/
structure Unreached (d : Document) (names : List Name) : Prop where
  order : names.Sublist (d.items.flatMap Item.scenarioNames)
  once : names.Nodup
  mem_iff : ∀ name, name ∈ names ↔ AcceptedName d.items name ∧
    ∃ id, d.load.spec.scenario? id = some name.text ∧ ¬d.load.spec.Reached id

/-- The recorded names whose numbers the search does not find. -/
def Loader.unreached (l : Loader) : List Name :=
  (l.scenarios.zipIdx.filter fun entry =>
    decide (⟨entry.2⟩ ∉ l.spec.reachableScenarios)).map Prod.fst

theorem Loader.warnings_eq (l : Loader) : l.warnings =
    if l.spec.initial.isEmpty && !l.scenarios.isEmpty then [.noInitialScenario]
    else l.unreached.map .unreachable := by
  unfold warnings unreached
  rw [List.map_map]
  rfl

theorem Loader.mem_unreached_iff {l : Loader} : name ∈ l.unreached ↔
    ∃ i, l.scenarios[i]? = some name ∧ ⟨i⟩ ∉ l.spec.reachableScenarios := by
  unfold unreached
  simp only [List.mem_map, List.mem_filter, decide_eq_true_eq]
  refine ⟨fun h => ?_, fun h => ?_⟩
  · obtain ⟨⟨name, i⟩, ⟨hmem, hnot⟩, rfl⟩ := h
    exact ⟨i, List.mk_mem_zipIdx_iff_getElem?.mp hmem, hnot⟩
  · obtain ⟨i, hname, hnot⟩ := h
    exact ⟨(name, i), ⟨List.mk_mem_zipIdx_iff_getElem?.mpr hname, hnot⟩, rfl⟩

/-- **The search leaves out exactly the scenarios that are not reached.** -/
theorem unreached_load (d : Document) : d.Unreached d.load.unreached := by
  obtain ⟨hsublist, hmem⟩ := d.lists_load
  obtain ⟨hclosed, -, hrecorded⟩ := d.load_sound.1
  have hkept : d.load.unreached.Sublist d.load.scenarios := by
    have hfilter := (List.filter_sublist (l := d.load.scenarios.zipIdx)
      (p := fun entry => decide (⟨entry.2⟩ ∉ d.load.spec.reachableScenarios))).map Prod.fst
    rwa [List.zipIdx_map_fst] at hfilter
  have hnodup : d.load.scenarios.Nodup :=
    List.Nodup.of_map Name.text (hrecorded ▸ d.load.spec.scenarios_nodup)
  have hnumber : ∀ i, d.load.spec.scenario? ⟨i⟩ = d.load.scenarios[i]?.map Name.text := by
    intro i
    unfold Specification.scenario?
    rw [← hrecorded, List.getElem?_map]
  refine ⟨hkept.trans hsublist, hnodup.sublist hkept, fun name => ?_⟩
  rw [Loader.mem_unreached_iff, ← hmem]
  refine ⟨fun h => ?_, fun h => ?_⟩
  · obtain ⟨i, hname, hnot⟩ := h
    refine ⟨List.mem_of_getElem? hname, ⟨i⟩, ?_, fun hreached => ?_⟩
    · rw [hnumber, hname, Option.map_some]
    · exact hnot (hclosed.mem_reachableScenarios_iff.mpr hreached)
  · obtain ⟨hscenario, id, hid, hnot⟩ := h
    obtain ⟨i, hname⟩ := List.mem_iff_getElem?.mp hscenario
    -- a name has a single number
    have hi : d.load.spec.scenario? ⟨i⟩ = some name.text := by
      rw [hnumber, hname, Option.map_some]
    have hsame : some id = some ⟨i⟩ :=
      (Specification.scenarioNamed?_eq_some_iff.mpr hid).symm.trans
        (Specification.scenarioNamed?_eq_some_iff.mpr hi)
    obtain rfl := Option.some.inj hsame
    exact ⟨i, hname, fun hmem => hnot (hclosed.mem_reachableScenarios_iff.mp hmem)⟩

theorem Unreached.sublist {names : List Name} (h : d.Unreached names) : names.Sublist d.names := by
  have hnames : (d.items.flatMap Item.scenarioNames).Sublist d.names := by
    unfold Document.names
    induction d.items with
    | nil => exact List.Sublist.refl []
    | cons item items ih =>
        rw [List.flatMap_cons, List.flatMap_cons]
        refine List.Sublist.append ?_ ih
        cases item with
        | components names => exact List.nil_sublist _
        | scenario block => exact (List.nil_sublist _).cons_cons block.name
        | flow all => exact List.nil_sublist _
  exact h.order.trans hnames

/-- Names that stand at different places when the text is read do so here. -/
theorem Unreached.nodup_spans {names : List Name} (h : d.Unreached names)
    (hspans : (d.names.map Name.span).Nodup) : (names.map Name.span).Nodup :=
  hspans.sublist (h.sublist.map Name.span)

end Document

end ScenarioFsp
