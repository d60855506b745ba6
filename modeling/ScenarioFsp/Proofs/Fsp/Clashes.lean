import ScenarioFsp.Command.Run
import ScenarioFsp.Proofs.Document.Spelling
import ScenarioFsp.Proofs.Fsp.Paragraphs
import ScenarioFsp.Proofs.Fsp.Words

/-!
# Clashes between the names of processes

Every component has a process of its name in the listing, and the cross-check adds one whose name
is that name behind `Det`. Whoever writes the scenarios chooses the names of the components, and no
name is refused for what the text will define besides. So a component may be called like one of the
processes that are always there, or like the projection of another component.

Which definitions the text has is read off its letters (`topLevel_listing`). No two of them have
one name exactly if the names of the components keep apart from the others (`Apart`), and exactly
then do the compositions put together what they are meant to.
-/

namespace ScenarioFsp

namespace Fsp

/-! ## Clashes -/

/-- Of all definitions exactly this one has the name. -/
def Denotes (ds : List TopLevel) (d : TopLevel) : Prop :=
  (ds.filter fun e => decide (e.name = d.name)) = [d]

/-- A composition puts together the parts that are meant: it names them, and every name denotes the
part. -/
structure Composes (ds : List TopLevel) (d : TopLevel) (parts : List TopLevel) : Prop where
  defined : d ∈ ds
  mentions : d.mentions = parts.map TopLevel.name
  parts : ∀ part ∈ parts, Denotes ds part

section Clashes

variable {ds : List TopLevel} {d e : TopLevel}

theorem denotes_of_nodup (h : (ds.map TopLevel.name).Nodup) (hd : d ∈ ds) : Denotes ds d := by
  unfold Denotes
  induction ds with
  | nil => exact absurd hd List.not_mem_nil
  | cons first ds ih =>
      obtain ⟨hfirst, hds⟩ := List.nodup_cons.mp h
      by_cases hname : first.name = d.name
      · have hnone : (ds.filter fun e => decide (e.name = d.name)) = [] := by
          refine List.filter_eq_nil_iff.mpr fun e he heq => ?_
          rw [hname, ← of_decide_eq_true heq] at hfirst
          exact hfirst (List.mem_map_of_mem he)
        have hsame : d = first := (List.mem_cons.mp hd).resolve_right fun hmem =>
          hfirst (hname ▸ List.mem_map_of_mem hmem)
        rw [List.filter_cons_of_pos (by simpa using hname), hnone, hsame]
      · have hmem : d ∈ ds := (List.mem_cons.mp hd).resolve_left fun heq => hname (heq ▸ rfl)
        rw [List.filter_cons_of_neg (by simpa using hname)]
        exact ih hds hmem

/-- What denotes has the name for itself. -/
theorem Denotes.eq (h : Denotes ds d) (he : e ∈ ds) (hname : e.name = d.name) : e = d := by
  have hmem : e ∈ ds.filter fun e => decide (e.name = d.name) :=
    List.mem_filter.mpr ⟨he, decide_eq_true hname⟩
  rw [h] at hmem
  exact List.mem_singleton.mp hmem

end Clashes

/-- The processes that are there whatever the components are. -/
def fixedNames : List String := ["System", "DetHMSC", "HSMC", "ComposedHMSC", "Check"]

/-- The only one of them that is called like a projection is the graph. -/
theorem projected_mem_fixedNames_iff {name : String} :
    projected name ∈ fixedNames ↔ name = "HMSC" := by
  have hothers : ∀ fixed ∈ fixedNames, fixed ≠ projected "HMSC" →
      fixed.toList.head? ≠ some 'D' := by decide
  have hhead : (projected name).toList.head? = some 'D' := by
    unfold projected
    rw [String.toList_append]
    rfl
  refine ⟨fun h => ?_, ?_⟩
  · by_contra hname
    exact hothers _ h (fun heq => hname (projected_injective heq)) hhead
  · rintro rfl
    decide

end Fsp

namespace Specification

open Fsp (TopLevel Denotes Composes projected fixedNames)
open Fsp.CrossCheck (projectionDefinition propertyDefinition composedDefinition checkDefinition)

variable {spec : Specification} {deterministic : Bool}

/-- The processes of the components. -/
def processes (spec : Specification) (deterministic : Bool) : List TopLevel :=
  spec.components.map fun c => ⟨Fsp.Process.front deterministic, c.name, [Grammar.start]⟩

/-- The composition of all components. -/
def systemDefinition (spec : Specification) : TopLevel :=
  ⟨"||", "System", spec.components.map Component.name⟩

/-- What is defined for a specification: the components, the system, and the cross-check. -/
def definitions (spec : Specification) (deterministic : Bool) : List TopLevel :=
  spec.processes deterministic ++
    spec.systemDefinition :: (Fsp.CrossCheck.ofSpecification spec).definitions

/-- The compositions put together what they are meant to: the components, their projections, and
the graph with the composed projections. -/
structure Resolved (spec : Specification) (deterministic : Bool) (ds : List TopLevel) : Prop where
  system : Composes ds spec.systemDefinition (spec.processes deterministic)
  composed : Composes ds (composedDefinition (.ofSpecification spec))
    ((Fsp.CrossCheck.ofSpecification spec).projections.map projectionDefinition)
  check : Composes ds checkDefinition
    [propertyDefinition, composedDefinition (.ofSpecification spec)]

/-- The names of the components keep apart from the other names. -/
structure Apart (spec : Specification) : Prop where
  fixed : ∀ c ∈ spec.components, c.name ∉ fixedNames
  /-- The projection of such a component would be called like the graph. -/
  graph : ∀ c ∈ spec.components, c.name ≠ "HMSC"
  projected : ∀ c ∈ spec.components, ∀ d ∈ spec.components, projected c.name ≠ d.name

theorem apart_iff : spec.Apart ↔ ∀ name ∈ spec.components.map Component.name,
    name ∉ fixedNames ∧ name ≠ "HMSC" ∧ projected name ∉ spec.components.map Component.name := by
  refine ⟨fun h name hname => ?_, fun h => ⟨fun c hc => ?_, fun c hc => ?_,
    fun c hc d hd heq => ?_⟩⟩
  · obtain ⟨c, hc, rfl⟩ := List.mem_map.mp hname
    refine ⟨h.fixed c hc, h.graph c hc, fun hmem => ?_⟩
    obtain ⟨d, hd, heq⟩ := List.mem_map.mp hmem
    exact h.projected c hc d hd heq.symm
  · exact (h _ (List.mem_map_of_mem hc)).1
  · exact (h _ (List.mem_map_of_mem hc)).2.1
  · exact (h _ (List.mem_map_of_mem hc)).2.2 (heq ▸ List.mem_map_of_mem hd)

theorem map_name_definitions (spec : Specification) (deterministic : Bool) :
    (spec.definitions deterministic).map TopLevel.name =
      spec.components.map Component.name ++ "System" :: "DetHMSC" :: "HSMC" ::
        ((spec.components.map Component.name).map projected ++ ["ComposedHMSC", "Check"]) := by
  have hprojections : (Fsp.CrossCheck.ofSpecification spec).projections.map
      (TopLevel.name ∘ projectionDefinition) =
        (spec.components.map Component.name).map projected := by
    show (spec.components.map _).map _ = _
    rw [List.map_map, List.map_map]
    rfl
  unfold definitions processes Fsp.CrossCheck.definitions
  simp only [List.map_append, List.map_cons, List.map_map, List.map_nil] at hprojections ⊢
  rw [hprojections]
  rfl

/-! ### Names that keep apart -/

theorem nodup_of_apart (h : spec.Apart) :
    ((spec.definitions deterministic).map TopLevel.name).Nodup := by
  have hapart := apart_iff.mp h
  have hcomponents := spec.components_nodup
  rw [map_name_definitions]
  generalize spec.components.map Component.name = names at hapart hcomponents ⊢
  have hprojected : (names.map projected).Nodup :=
    hcomponents.map fun _ _ => Fsp.projected_injective
  have hfixed : (fixedNames ++ names.map projected).Nodup := by
    refine List.nodup_append.mpr ⟨by decide, hprojected, ?_⟩
    rintro fixed hfixed _ hmem rfl
    obtain ⟨name, hname, rfl⟩ := List.mem_map.mp hmem
    exact (hapart name hname).2.1 (Fsp.projected_mem_fixedNames_iff.mp hfixed)
  -- the projections are written between the names that are always there
  have hperm : (names ++ "System" :: "DetHMSC" :: "HSMC" ::
      (names.map projected ++ ["ComposedHMSC", "Check"])).Perm
        (names ++ (fixedNames ++ names.map projected)) :=
    (List.perm_append_comm.append_left ["System", "DetHMSC", "HSMC"]).append_left _
  refine hperm.nodup_iff.mpr (List.nodup_append.mpr ⟨hcomponents, hfixed, ?_⟩)
  rintro name hname _ hmem rfl
  rcases List.mem_append.mp hmem with hmem | hmem
  · exact (hapart name hname).1 hmem
  · obtain ⟨other, hother, rfl⟩ := List.mem_map.mp hmem
    exact (hapart other hother).2.2 hname

/-! ### Names that denote -/

theorem mem_definitions_of_crossCheck {d : TopLevel}
    (h : d ∈ (Fsp.CrossCheck.ofSpecification spec).definitions) :
    d ∈ spec.definitions deterministic :=
  List.mem_append_right _ (List.mem_cons_of_mem _ h)

theorem projectionDefinition_mem {p : String × List String}
    (h : p ∈ (Fsp.CrossCheck.ofSpecification spec).projections) :
    projectionDefinition p ∈ spec.definitions deterministic :=
  mem_definitions_of_crossCheck (List.mem_cons_of_mem _ (List.mem_cons_of_mem _
    (List.mem_append_left _ (List.mem_map_of_mem h))))

theorem resolved_of_nodup (h : ((spec.definitions deterministic).map TopLevel.name).Nodup) :
    spec.Resolved deterministic (spec.definitions deterministic) := by
  have hproperty : propertyDefinition ∈ spec.definitions deterministic :=
    mem_definitions_of_crossCheck (by simp [Fsp.CrossCheck.definitions])
  have hcomposed : composedDefinition (.ofSpecification spec) ∈ spec.definitions deterministic :=
    mem_definitions_of_crossCheck (by simp [Fsp.CrossCheck.definitions])
  have hcheck : checkDefinition ∈ spec.definitions deterministic :=
    mem_definitions_of_crossCheck (by simp [Fsp.CrossCheck.definitions])
  refine ⟨⟨?_, ?_, fun part hpart => ?_⟩, ⟨hcomposed, ?_, fun part hpart => ?_⟩,
    ⟨hcheck, rfl, fun part hpart => ?_⟩⟩
  · exact List.mem_append_right _ List.mem_cons_self
  · unfold systemDefinition processes
    rw [List.map_map]
    rfl
  · exact Fsp.denotes_of_nodup h (List.mem_append_left _ hpart)
  · rw [List.map_map]
    rfl
  · obtain ⟨p, hp, rfl⟩ := List.mem_map.mp hpart
    exact Fsp.denotes_of_nodup h (projectionDefinition_mem hp)
  · refine Fsp.denotes_of_nodup h ?_
    rcases List.mem_cons.mp hpart with rfl | hpart
    · exact hproperty
    · rwa [List.mem_singleton.mp hpart]

/-- What stands in front of the names of compositions, and of the graph. -/
def otherFronts : List String := ["||", "deterministic ", "property ||", "deterministic ||"]

/-- What stands in front of a name tells the process of a component from the others. -/
theorem front_not_mem_otherFronts :
    ∀ deterministic, Fsp.Process.front deterministic ∉ otherFronts := by
  decide

/-- The names that are always there do not denote the process of a component only. -/
theorem exists_fixed {name : String} (h : name ∈ fixedNames) :
    ∃ d ∈ spec.definitions deterministic, d.name = name ∧ d.front ∈ otherFronts := by
  have hcross : ∀ d ∈ (Fsp.CrossCheck.ofSpecification spec).definitions,
      d ∈ spec.definitions deterministic := fun _ => mem_definitions_of_crossCheck
  unfold Fsp.CrossCheck.definitions at hcross
  simp only [fixedNames, List.mem_cons, List.not_mem_nil, or_false] at h
  rcases h with rfl | rfl | rfl | rfl | rfl
  · exact ⟨spec.systemDefinition, List.mem_append_right _ List.mem_cons_self, rfl,
      by simp [systemDefinition, otherFronts]⟩
  · exact ⟨_, hcross _ List.mem_cons_self, rfl,
      by simp [Fsp.CrossCheck.graphDefinition, otherFronts]⟩
  · exact ⟨_, hcross propertyDefinition (by simp), rfl, by decide⟩
  · exact ⟨_, hcross (composedDefinition (.ofSpecification spec)) (by simp), rfl,
      by simp [composedDefinition, otherFronts]⟩
  · exact ⟨_, hcross checkDefinition (by simp), rfl, by decide⟩

theorem apart_of_resolved (h : spec.Resolved deterministic (spec.definitions deterministic)) :
    spec.Apart := by
  have hprocess : ∀ c ∈ spec.components, Denotes (spec.definitions deterministic)
      ⟨Fsp.Process.front deterministic, c.name, [Grammar.start]⟩ := fun c hc =>
    h.system.parts _ (List.mem_map_of_mem hc)
  have hprojection : ∀ c ∈ spec.components, ∃ d ∈ spec.definitions deterministic,
      Denotes (spec.definitions deterministic) d ∧ d.name = projected c.name ∧
        d.front = "deterministic ||" := by
    intro c hc
    have hp : (c.name, Fsp.CrossCheck.activeScenarios spec c) ∈
        (Fsp.CrossCheck.ofSpecification spec).projections := List.mem_map_of_mem hc
    exact ⟨_, projectionDefinition_mem hp, h.composed.parts _ (List.mem_map_of_mem hp), rfl, rfl⟩
  -- two definitions of one name are the same, so that the same stands in front of them
  refine ⟨fun c hc hfixed => ?_, fun c hc hname => ?_, fun c hc d hd hname => ?_⟩
  · obtain ⟨e, he, hsame, hfront⟩ := @exists_fixed spec deterministic _ hfixed
    have heq := (hprocess c hc).eq he hsame
    rw [heq] at hfront
    exact front_not_mem_otherFronts deterministic hfront
  · -- the graph is called like the projection
    obtain ⟨p, -, hdenotes, hp, hfront⟩ := hprojection c hc
    have hgraph : Fsp.CrossCheck.graphDefinition (.ofSpecification spec) ∈
        spec.definitions deterministic := mem_definitions_of_crossCheck List.mem_cons_self
    have heq := hdenotes.eq hgraph (by rw [hp, hname]; rfl)
    rw [← heq] at hfront
    exact absurd hfront (by simp [Fsp.CrossCheck.graphDefinition])
  · obtain ⟨p, hmem, -, hp, hfront⟩ := hprojection c hc
    have hother : p.front ∈ otherFronts := by
      rw [hfront]
      decide
    have heq := (hprocess d hd).eq hmem (hp.trans hname)
    rw [heq] at hother
    exact front_not_mem_otherFronts deterministic hother

/-! ### The definitions of the whole text -/

theorem map_name_componentIds :
    spec.componentIds.map (fun id => (spec.component? id).map Component.name) =
      (spec.components.map Component.name).map some := by
  refine List.ext_getElem (by simp [componentIds]) fun i hi hi' => ?_
  rw [List.length_map, List.length_map] at hi'
  simp [componentIds, component?, List.getElem?_eq_getElem hi']

/-- The components are synthesised in their order, and all of them can be listed. -/
theorem Writable.listed (h : spec.Writable) {components : List SynthesisedComponent}
    (hcomponents : spec.synthesise = .ok components) : (∀ sc ∈ components, Fsp.Listed sc) ∧
      components.map SynthesisedComponent.name = spec.components.map Component.name := by
  unfold synthesise at hcomponents
  rw [h.closed.commonRelation_eq_ok] at hcomponents
  have hcollected := map_of_mapM hcomponents
  have hsource : ∀ id ∈ spec.componentIds, ∀ sc,
      spec.synthesiseComponent (.ofPairs spec.commonPairs) id = .ok sc →
        Fsp.Listed sc ∧ (spec.component? id).map Component.name = some sc.name := by
    intro id hid sc hsc
    obtain ⟨c, hc, hget⟩ := mem_componentIds_iff.mp hid
    obtain ⟨hname, hworded⟩ := worded_of_synthesiseComponent h hget hsc
    refine ⟨⟨?_, (steps_of_synthesiseComponent hsc).2.2.2, hworded⟩, ?_⟩
    · rw [hname]
      exact h.components c hc
    · rw [hget, hname]
      rfl
  constructor
  · intro sc hsc
    obtain ⟨id, hid, hok⟩ := List.mem_map.mp (hcollected ▸ List.mem_map_of_mem hsc)
    exact (hsource id hid sc hok).1
  · -- the order is that of the numbers, so names are compared number by number
    refine List.map_injective_iff.mpr (Option.some_injective String) ?_
    have htold := congrArg (List.map fun e => e.toOption.map SynthesisedComponent.name) hcollected
    rw [List.map_map, List.map_map] at htold
    rw [← map_name_componentIds, List.map_map]
    refine htold.symm.trans (List.map_congr_left fun id hid => ?_)
    obtain ⟨sc, -, hsc⟩ := List.mem_map.mp (hcollected ▸ List.mem_map_of_mem hid)
    rw [(hsource id hid sc hsc.symm).2, Function.comp_apply, ← hsc]
    rfl

/-- **The text that is written with a cross-check defines what is meant**, name by name. -/
theorem Writable.topLevel_listing (h : spec.Writable) {o : Command.Options} (ho : o.check = true)
    (timing : Command.Timing) : ∃ text, (Command.listing o timing spec).2 = .ok text ∧
      Fsp.topLevel text.toList = spec.definitions o.deterministic := by
  obtain ⟨components, hcomponents, hgood⟩ := spec.synthesise_cases.resolve_right
    (fun ⟨failure, _, hdangles⟩ => h.closed.not_dangles failure hdangles) |>.2
  obtain ⟨listing, hlisting⟩ := exists_renderListing hgood o.deterministic
  obtain ⟨hlisted, hnames⟩ := h.listed hcomponents
  have hnamed : spec.Named := ⟨fun name hname => (h.scenarios name hname).1, h.components⟩
  have hcross := h.closed.named_crossCheck hnamed
  have hread := Fsp.topLevel_renderListing hlisted hlisting
    ('\n' :: (Fsp.CrossCheck.ofSpecification spec).render.toList)
  refine ⟨listing ++ "\n" ++ (Fsp.CrossCheck.ofSpecification spec).render, ?_, ?_⟩
  · rw [Command.listing_snd, hcomponents, ho]
    simp only [Except.bind, hlisting, if_true]
    rfl
  · rw [String.toList_append, String.toList_append, List.append_assoc]
    refine hread.trans ?_
    have hskip := Fsp.topLevel_skip List.not_mem_nil List.not_mem_nil rfl
      (Fsp.CrossCheck.ofSpecification spec).render.toList
    rw [List.nil_append] at hskip
    have hprocesses := congrArg (List.map fun name =>
      TopLevel.mk (Fsp.Process.front o.deterministic) name [Grammar.start]) hnames
    rw [List.map_map, List.map_map] at hprocesses
    rw [hskip, Fsp.CrossCheck.topLevel_render hcross, hnames]
    exact congrArg (· ++ _) hprocesses

end Specification

namespace Journal

open Fsp (TopLevel topLevel)

variable {spec : Specification} {o : Command.Options}

/--
**The names of processes are distinct exactly if those of the components keep apart.** Whatever text
is accepted, the listing with the cross-check is written, and its top-level definitions are the
components, the system, the graph, its property, the projections, their composition and the check.
No name is defined twice if and only if no component is called like one of the processes that are
always there, like the graph without its `Det`, or like the projection of a component.
And exactly then every name in the compositions of the system, of the projections and of the check
denotes the process that is meant, and no other.
-/
theorem names_nodup_iff_apart {j : Journal} {name text : String}
    (h : (j.load name text).result = .ok spec) (ho : o.check = true) (timing : Command.Timing) :
    ∃ made, (Command.listing o timing spec).2 = .ok made ∧
      topLevel made.toList = spec.definitions o.deterministic ∧
      (((topLevel made.toList).map TopLevel.name).Nodup ↔ spec.Apart) ∧
      (spec.Resolved o.deterministic (topLevel made.toList) ↔ spec.Apart) := by
  obtain ⟨made, hmade, hread⟩ := (writable_load h).topLevel_listing ho timing
  refine ⟨made, hmade, hread, ?_⟩
  rw [hread]
  have hresolved : ((spec.definitions o.deterministic).map TopLevel.name).Nodup →
      spec.Resolved o.deterministic (spec.definitions o.deterministic) :=
    Specification.resolved_of_nodup
  exact ⟨⟨fun hnodup => Specification.apart_of_resolved (hresolved hnodup),
      Specification.nodup_of_apart⟩, Specification.apart_of_resolved, fun hapart =>
      hresolved (Specification.nodup_of_apart hapart)⟩

/-- A component of the given name that does something once. -/
def lampCalled (name : String) : String :=
  "component " ++ name ++ "; bmsc On \x7b instance " ++ name ++ " \x7b message press; \x7d \x7d " ++
    "hmsc \x7b init -> On; On -> final; \x7d"

/-- The options of a run with a cross-check. -/
def checking : Command.Options :=
  ⟨"lamp.msc", none, false, true, false, 0, 0, .auto⟩

theorem exists_spec_lampCalled {name : String} {names : List String}
    (h : ((start false true).load "lamp.msc" (lampCalled name)).result.toOption.map
      (fun spec => spec.components.map Component.name) = some names) :
    ∃ spec, ((start false true).load "lamp.msc" (lampCalled name)).result = .ok spec ∧
      spec.components.map Component.name = names := by
  cases hload : ((start false true).load "lamp.msc" (lampCalled name)).result with
  | error failure =>
      rw [hload] at h
      exact absurd h (by simp [Except.toOption])
  | ok spec =>
      rw [hload] at h
      exact ⟨spec, rfl, Option.some.inj h⟩

theorem names_nodup_iff_apart_lamp :
    ∃ spec made, ((start false true).load "lamp.msc" (lampCalled "Lamp")).result = .ok spec ∧
      (Command.listing checking ⟨7, .inTurn⟩ spec).2 = .ok made ∧
      (topLevel made.toList).map TopLevel.name =
        ["Lamp", "System", "DetHMSC", "HSMC", "DetLamp", "ComposedHMSC", "Check"] ∧
      ((topLevel made.toList).map TopLevel.name).Nodup ∧
      spec.Resolved false (topLevel made.toList) := by
  obtain ⟨spec, hload, hnames⟩ := @exists_spec_lampCalled "Lamp" ["Lamp"] (by decide +kernel)
  obtain ⟨made, hmade, hread, hnodup, hresolved⟩ :=
    @names_nodup_iff_apart spec checking _ _ _ hload rfl ⟨7, .inTurn⟩
  have hapart : spec.Apart := by
    rw [Specification.apart_iff, hnames]
    decide
  refine ⟨spec, made, hload, hmade, ?_, hnodup.mpr hapart, hresolved.mpr hapart⟩
  rw [hread, Specification.map_name_definitions, hnames]
  rfl

/-- A component may be called like the graph; then two definitions have the name, and neither the
component nor the graph is denoted by it. -/
theorem names_clash_graph :
    ∃ spec made, ((start false true).load "lamp.msc" (lampCalled "DetHMSC")).result = .ok spec ∧
      (Command.listing checking ⟨7, .inTurn⟩ spec).2 = .ok made ∧
      (topLevel made.toList).map TopLevel.name =
        ["DetHMSC", "System", "DetHMSC", "HSMC", "DetDetHMSC", "ComposedHMSC", "Check"] ∧
      ¬((topLevel made.toList).map TopLevel.name).Nodup ∧
      ¬spec.Resolved false (topLevel made.toList) := by
  obtain ⟨spec, hload, hnames⟩ :=
    @exists_spec_lampCalled "DetHMSC" ["DetHMSC"] (by decide +kernel)
  have hchecks : checking.check = true := rfl
  obtain ⟨made, hmade, hread⟩ := (writable_load hload).topLevel_listing hchecks ⟨7, .inTurn⟩
  have hdefined : (topLevel made.toList).map TopLevel.name =
      ["DetHMSC", "System", "DetHMSC", "HSMC", "DetDetHMSC", "ComposedHMSC", "Check"] := by
    rw [hread, Specification.map_name_definitions, hnames]
    rfl
  refine ⟨spec, made, hload, hmade, hdefined, ?_, fun hresolved => ?_⟩
  · rw [hdefined]
    decide
  · rw [hread] at hresolved
    have hapart := Specification.apart_iff.mp (Specification.apart_of_resolved hresolved)
    rw [hnames] at hapart
    exact absurd hapart (by decide)

end Journal

end ScenarioFsp
