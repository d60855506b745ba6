import ScenarioFsp.Proofs.Document.Natural

/-!
# Loading natural documents

While a natural document is loaded, every list of the specification grows in its order:
the items add the components, the scenarios and the lifelines (`Built`), then the arrows
add the marks and the edges (`Wired`). At the end each list is complete, and nothing is
left to be filled in (`Natural.load_spec`).
-/

namespace ScenarioFsp

open Document (initNode finalNode)

namespace Document

variable {spec : Specification} {d : Document} {items : List Item} {a : Arrow}

/-! ## Loading one item more -/

namespace Loader

variable {l : Loader} {names : List String} {blocks : List (String × List (String × Lifeline))}
  {arrows : List Arrow}

/-- What has been declared, told and drawn so far is there, and no flow yet. -/
structure Built (names : List String) (blocks : List (String × List (String × Lifeline)))
    (arrows : List Arrow) (l : Loader) : Prop where
  components : l.componentNames = names
  scenarios : l.spec.scenarios = blocks.map Prod.fst
  lifelines : ∀ c s, l.spec.lifeline? c s =
    blocks[s.index]?.bind fun block => block.2[c.index]?.map Prod.snd
  arrows : l.arrows = arrows
  edges : l.spec.edges = []
  initial : l.spec.initial = []
  finals : l.spec.finals = []

theorem built_start : start.Built [] [] [] :=
  ⟨rfl, rfl, fun _ _ => rfl, rfl, rfl, rfl, rfl⟩

theorem Built.declare (h : l.Built names blocks arrows) {name : Name} (hname : name.text ∉ names) :
    (l.declareComponent name).Built (names ++ [name.text]) blocks arrows := by
  have hfree : name.text ∉ l.spec.components.map Component.name := by
    rw [← h.components] at hname
    exact hname
  unfold declareComponent
  rw [dif_neg hfree]
  refine ⟨?_, h.scenarios, fun c s => ?_, h.arrows, h.edges, h.initial, h.finals⟩
  · rw [← h.components]
    exact List.map_append
  · exact (Specification.lifeline?_addComponent hfree c).trans (h.lifelines c s)

theorem Built.declareAll (h : l.Built names blocks arrows) (more : List Name)
    (hnodup : (names ++ more.map Name.text).Nodup) :
    (more.foldl declareComponent l).Built (names ++ more.map Name.text) blocks arrows := by
  induction more generalizing l names with
  | nil => rwa [List.map_nil, List.append_nil]
  | cons name more ih =>
      rw [List.map_cons, List.append_cons] at hnodup ⊢
      refine ih (h.declare fun hmem => ?_) hnodup
      exact (List.nodup_append.mp (List.nodup_append.mp hnodup).1).2.2 _ hmem _
        (List.mem_singleton_self _) rfl

/-- The lifelines of the blocks are set for the components from the `k`-th on. -/
theorem lifeline?_addLifelines (scenario : Name) (id : ScenarioId) {seen : List ComponentId} {k : Nat}
    (hseen : ∀ c ∈ seen, c.index < k) {blocks : List LifelineBlock}
    (hblocks : blocks.map (fun block => block.component.text) = l.componentNames.drop k)
    (c : ComponentId) (s : ScenarioId) :
    (addLifelines scenario id seen l blocks).spec.lifeline? c s =
      if s = id ∧ k ≤ c.index then
        (blocks[c.index - k]?.map LifelineBlock.events).or (l.spec.lifeline? c s)
      else l.spec.lifeline? c s := by
  -- the first block is that of component `k`, and the rest begin with component `k + 1`
  induction blocks generalizing l seen k with
  | nil => simp [addLifelines]
  | cons block blocks ih =>
      have hget : (l.spec.components.map Component.name)[k]? = some block.component.text := by
        have hfirst := congrArg (·[0]?) hblocks
        rw [List.getElem?_drop] at hfirst
        exact hfirst.symm
      have hsome : l.spec.componentNamed? block.component.text = some ⟨k⟩ := by
        rw [Specification.componentNamed?_eq_some_iff, ← hget, List.getElem?_map]
        rfl
      have hlt : k < l.spec.components.length := by
        rw [← List.length_map Component.name]
        exact (List.getElem?_eq_some_iff.mp hget).1
      have hrest : blocks.map (fun block => block.component.text) =
          l.componentNames.drop (k + 1) := by
        rw [← List.tail_drop, ← hblocks]
        rfl
      -- the components that were seen come before `k`, so the block is not refused
      have hnew : (⟨k⟩ : ComponentId) ∉ seen := fun hmem => Nat.lt_irrefl k (hseen _ hmem)
      have hnames : Loader.componentNames
          { l with spec := l.spec.placeLifeline ⟨k⟩ id block.events } = l.componentNames :=
        Specification.names_placeInto k id block.events l.spec.components
      rw [addLifelines, hsome]
      dsimp only
      rw [if_neg hnew, ih (k := k + 1) (fun c hc => ?_) (hrest.trans (hnames ▸ rfl)),
        Specification.lifeline?_placeLifeline hlt]
      · by_cases hs : s = id
        · rcases Nat.lt_trichotomy c.index k with hbefore | rfl | hafter
          · have hc : c ≠ ⟨k⟩ := fun heq => Nat.ne_of_lt hbefore (congrArg ComponentId.index heq)
            simp [hs, hc, Nat.not_le.mpr hbefore, Nat.not_le.mpr (Nat.lt_succ_of_lt hbefore)]
          · simp [hs]
          · have hc : c ≠ ⟨k⟩ := fun heq => Nat.ne_of_gt hafter (congrArg ComponentId.index heq)
            have hindex : c.index - k = c.index - (k + 1) + 1 := by omega
            rw [hindex, List.getElem?_cons_succ]
            simp [hs, hc, Nat.le_of_lt hafter, Nat.succ_le_of_lt hafter]
        · simp [hs]
      · rcases List.mem_cons.mp hc with rfl | hc
        · exact Nat.lt_succ_self k
        · exact Nat.lt_succ_of_lt (hseen c hc)

/-- Lifelines are no part of the flow graph. -/
theorem addLifelines_keeps_flow (scenario : Name) (id : ScenarioId) (seen : List ComponentId)
    (l : Loader) (blocks : List LifelineBlock) :
    (addLifelines scenario id seen l blocks).spec.edges = l.spec.edges ∧
      (addLifelines scenario id seen l blocks).spec.initial = l.spec.initial ∧
      (addLifelines scenario id seen l blocks).spec.finals = l.spec.finals := by
  induction blocks generalizing seen l with
  | nil => exact ⟨rfl, rfl, rfl⟩
  | cons block blocks ih =>
      unfold addLifelines
      split
      · exact ih _ _
      · split
        · exact ih _ _
        · exact ih _ _

theorem Built.tell (h : l.Built names blocks arrows) {block : ScenarioBlock}
    (hreserved : ¬Reserved block.name.text) (hname : block.name.text ∉ blocks.map Prod.fst)
    (hlifelines : (block.lifelines.map fun lifeline => lifeline.component.text) = names) :
    (l.addScenario block).Built names (blocks ++ [(block.name.text,
      block.lifelines.map fun lifeline => (lifeline.component.text, lifeline.events))]) arrows := by
  have hfree : block.name.text ∉ l.spec.scenarios := h.scenarios ▸ hname
  have hlength : l.spec.scenarios.length = blocks.length := by rw [h.scenarios, List.length_map]
  unfold Reserved at hreserved
  unfold addScenario
  rw [if_neg hreserved, dif_neg hfree]
  -- the loader after the name and before the lifelines, which does not show in what follows
  generalize hstart : ({ l with
    spec := l.spec.addScenario block.name.text hfree
    scenarios := l.scenarios ++ [block.name] } : Loader) = start
  have hstartNames : start.componentNames = names := hstart ▸ h.components
  have hstartLifelines : ∀ c s, start.spec.lifeline? c s = l.spec.lifeline? c s := fun c s =>
    hstart ▸ rfl
  obtain ⟨hcomponents, hscenarios, harrows⟩ :=
    addLifelines_keeps block.name ⟨l.spec.scenarios.length⟩ [] start block.lifelines
  obtain ⟨hedges, hinitial, hfinals⟩ :=
    addLifelines_keeps_flow block.name ⟨l.spec.scenarios.length⟩ [] start block.lifelines
  refine ⟨hcomponents.trans hstartNames, ?_, fun c s => ?_, ?_, ?_, ?_, ?_⟩
  · rw [hscenarios, List.map_append, ← h.scenarios, ← hstart]
    rfl
  · rw [lifeline?_addLifelines block.name _ (k := 0) (fun _ h => absurd h List.not_mem_nil)
      (hlifelines.trans hstartNames.symm), hstartLifelines, h.lifelines, hlength]
    -- only the lifelines of the new scenario, which has the next number, are other than before
    by_cases hs : s = ⟨blocks.length⟩
    · subst hs
      simp [Function.comp_def]
    · have hindex : s.index ≠ blocks.length := fun heq => hs (by cases s; exact congrArg _ heq)
      rw [if_neg fun hboth => hs hboth.1]
      rcases Nat.lt_or_gt_of_ne hindex with hlt | hgt
      · rw [List.getElem?_append_left hlt]
      · rw [List.getElem?_eq_none (Nat.le_of_lt hgt), List.getElem?_eq_none (by simp; omega)]
  · rw [harrows, ← hstart]
    exact h.arrows
  · rw [hedges, ← hstart]
    exact h.edges
  · rw [hinitial, ← hstart]
    exact h.initial
  · rw [hfinals, ← hstart]
    exact h.finals

theorem Built.draw (h : l.Built names blocks arrows) (block : List Arrows) :
    (l.addItem (.flow block)).Built names blocks (arrows ++ arrowsOf block) :=
  ⟨h.components, h.scenarios, h.lifelines, congrArg (· ++ arrowsOf block) h.arrows, h.edges,
    h.initial, h.finals⟩

end Loader

/-- **After some items of a natural document all that they say is there.** -/
theorem Natural.built (h : Natural spec d) (hspec : spec.Writable) {after : List Item}
    (hitems : d.items = items ++ after) :
    (items.foldl Loader.addItem .start).Built (declared items) (told items)
      (items.flatMap Item.arrows) := by
  -- an item is loaded on top of those before it, so the induction is on the last one
  induction items using List.reverseRecOn generalizing after with
  | nil => exact Loader.built_start
  | append_singleton items item ih =>
      rw [List.append_assoc, List.singleton_append] at hitems
      have hbuilt := ih hitems
      rw [List.foldl_append, List.foldl_cons, List.foldl_nil, declared_concat,
        told_concat, List.flatMap_append, List.flatMap_singleton]
      have hvalid := h.valid hspec
      cases item with
      | components names =>
          have hnodup := hvalid.components
          rw [hitems, List.append_cons, declared, List.flatMap_append, List.map_append] at hnodup
          have hdeclared := (List.nodup_append.mp hnodup).1
          rw [← declared, declared_concat] at hdeclared
          show Loader.Built _ (told items ++ []) (items.flatMap Item.arrows ++ []) _
          rw [List.append_nil, List.append_nil]
          exact hbuilt.declareAll names.toList hdeclared
      | scenario block =>
          obtain ⟨hreserved, hdefines⟩ := hvalid.scenarios _ _ _ hitems
          obtain ⟨-, hdeclared⟩ := h.scenario_cases hitems
          have hname : block.name.text ∉ (told items).map Prod.fst := fun hmem =>
            hdefines (defines_iff.mpr ⟨hreserved, called_eq_map_told ▸ hmem⟩)
          have htell := hbuilt.tell hreserved hname ((h.lifelineNames hitems).trans hdeclared.symm)
          show Loader.Built (declared items ++ []) _ (items.flatMap Item.arrows ++ []) _
          rw [List.append_nil, List.append_nil]
          exact htell
      | flow block =>
          show Loader.Built (declared items ++ []) (told items ++ []) _ _
          rw [List.append_nil, List.append_nil]
          exact hbuilt.draw block

/-! ## Loading one arrow more -/

namespace Arrow

/-- The scenario that an arrow marks as an initial one. -/
def initial? (spec : Specification) (a : Arrow) : Option ScenarioId :=
  if a.source.text = initNode then spec.scenarioNamed? a.target.text else none

/-- The scenario that an arrow marks as a final one. -/
def final? (spec : Specification) (a : Arrow) : Option ScenarioId :=
  if a.target.text = finalNode then spec.scenarioNamed? a.source.text else none

/-- The edge that an arrow stands for, if it marks nothing and both its ends are declared. -/
def edge? (spec : Specification) (a : Arrow) : Option Edge :=
  if a.source.text = initNode ∨ a.target.text = finalNode then none
  else (spec.scenarioNamed? a.source.text).bind fun source =>
    (spec.scenarioNamed? a.target.text).map fun target => ⟨source, target⟩

theorem filterMap_initial? (arrows : List Arrow) : arrows.filterMap (initial? spec) =
    (((arrows.map ends).filter fun a => decide (a.1 = initNode)).map Prod.snd).filterMap
      spec.scenarioNamed? := by
  induction arrows with
  | nil => rfl
  | cons a arrows ih =>
      by_cases hinit : a.source.text = initNode <;>
        simp [List.filterMap_cons, initial?, ends, hinit, ih]

theorem filterMap_final? (arrows : List Arrow) : arrows.filterMap (final? spec) =
    (((arrows.map ends).filter fun a => decide (a.2 = finalNode)).map Prod.fst).filterMap
      spec.scenarioNamed? := by
  induction arrows with
  | nil => rfl
  | cons a arrows ih =>
      by_cases hfinal : a.target.text = finalNode <;>
        simp [List.filterMap_cons, final?, ends, hfinal, ih]

theorem filterMap_edge? (arrows : List Arrow) : arrows.filterMap (edge? spec) =
    ((arrows.map ends).filter fun a =>
      !decide (a.1 = initNode) && !decide (a.2 = finalNode)).filterMap fun a =>
        (spec.scenarioNamed? a.1).bind fun source =>
          (spec.scenarioNamed? a.2).map fun target => ⟨source, target⟩ := by
  induction arrows with
  | nil => rfl
  | cons a arrows ih =>
      by_cases hinit : a.source.text = initNode <;> by_cases hfinal : a.target.text = finalNode <;>
        simp [List.filterMap_cons, edge?, ends, hinit, hfinal, ih]

end Arrow

/-- The arrows of a natural document, looked up, are the marks and edges in their order. -/
theorem Natural.looked_up (h : Natural spec d) (hspec : spec.Writable) :
    (d.items.flatMap Item.arrows).filterMap (Arrow.initial? spec) = spec.initial ∧
      (d.items.flatMap Item.arrows).filterMap (Arrow.final? spec) = spec.finals ∧
      (d.items.flatMap Item.arrows).filterMap (Arrow.edge? spec) = spec.edges := by
  refine ⟨?_, ?_, ?_⟩
  · rw [Arrow.filterMap_initial?]
    exact (congrArg _ h.initial).trans
      (Specification.filterMap_scenarioNamed? fun id hid => hspec.closed id (.initial hid))
  · rw [Arrow.filterMap_final?]
    exact (congrArg _ h.finals).trans
      (Specification.filterMap_scenarioNamed? fun id hid => hspec.closed id (.final hid))
  · rw [Arrow.filterMap_edge?]
    refine (congrArg _ h.edges).trans ?_
    rw [List.filterMap_map]
    refine (List.filterMap_congr fun e he => ?_).trans List.filterMap_some
    show (spec.scenarioNamed? (spec.nameOf e.source)).bind _ = some e
    rw [Specification.scenarioNamed?_nameOf (hspec.closed _ (.source he)), Option.bind_some,
      Specification.scenarioNamed?_nameOf (hspec.closed _ (.target he))]
    rfl

namespace Loader

variable {l : Loader} {done : List Arrow}

/-- The marks and edges so far are those that the arrows so far stand for. -/
structure Wired (spec : Specification) (done : List Arrow) (l : Loader) : Prop where
  scenarios : l.spec.scenarios = spec.scenarios
  initial : l.spec.initial = done.filterMap (Arrow.initial? spec)
  finals : l.spec.finals = done.filterMap (Arrow.final? spec)
  edges : l.spec.edges = done.filterMap (Arrow.edge? spec)

/-- An edge that belongs behind all others is added at the end. -/
theorem edges_addEdge_eq_concat {spec : Specification} {e : Edge}
    (hnodup : (spec.edges ++ [e]).Nodup)
    (hsorted : (spec.edges ++ [e]).Pairwise fun e f => e.source.index ≤ f.source.index) :
    (spec.addEdge e.source e.target).edges = spec.edges ++ [e] := by
  have hnew : e ∉ spec.edges := fun hmem =>
    (List.nodup_append.mp hnodup).2.2 e hmem e (List.mem_singleton_self e) rfl
  have hlast : ∀ f ∈ spec.edges, f.source.index ≤ e.source.index := fun f hf =>
    (List.pairwise_append.mp hsorted).2.2 f hf e (List.mem_singleton_self e)
  have hinsert := Edge.insertInto_append (m := []) hlast
  rw [List.append_nil] at hinsert
  unfold Specification.addEdge
  rw [dif_neg hnew]
  exact hinsert

theorem addArrow_of_initial (hsource : a.source.text = initNode) (hinit : a.target.text ≠ initNode)
    (hfinal : a.target.text ≠ finalNode) {id : ScenarioId}
    (hid : l.spec.scenarioNamed? a.target.text = some id) :
    l.addArrow a = { l with spec := l.spec.addInitial id } := by
  unfold addArrow withScenario
  rw [if_neg fun h => hfinal h.2, if_neg hinit, hsource, if_neg Arrow.initNode_ne_finalNode,
    if_pos rfl, hid]

theorem addArrow_of_final (htarget : a.target.text = finalNode) (hinit : a.source.text ≠ initNode)
    (hfinal : a.source.text ≠ finalNode) {id : ScenarioId}
    (hid : l.spec.scenarioNamed? a.source.text = some id) :
    l.addArrow a = { l with spec := l.spec.addFinal id } := by
  unfold addArrow withScenario
  rw [if_neg fun h => hinit h.1, htarget, if_neg Arrow.initNode_ne_finalNode.symm, if_neg hfinal,
    if_neg hinit, if_pos rfl, hid]

theorem addArrow_of_edge (hlegal : a.Legal) (hinit : a.source.text ≠ initNode)
    (hfinal : a.target.text ≠ finalNode) {source target : ScenarioId}
    (hsource : l.spec.scenarioNamed? a.source.text = some source)
    (htarget : l.spec.scenarioNamed? a.target.text = some target) :
    l.addArrow a = { l with spec := l.spec.addEdge source target } := by
  unfold addArrow connect
  rw [if_neg hlegal.direct, if_neg hlegal.target, if_neg hlegal.source, if_neg hinit, if_neg hfinal,
    hsource, htarget]

theorem Wired.scenarioNamed?_eq (h : l.Wired spec done) (name : String) :
    l.spec.scenarioNamed? name = spec.scenarioNamed? name := by
  unfold Specification.scenarioNamed?
  rw [h.scenarios]

theorem Wired.addInitial (h : l.Wired spec done) (hspec : spec.Writable) {id : ScenarioId}
    (hdeclares : spec.declares id = true) (hsource : a.source.text = initNode)
    (htarget : a.target.text = spec.nameOf id)
    (hnodup : ((done ++ [a]).filterMap (Arrow.initial? spec)).Nodup) :
    (l.addArrow a).Wired spec (done ++ [a]) := by
  obtain ⟨hinit, hfinal⟩ := hspec.nameOf_ne hdeclares
  rw [← htarget] at hinit hfinal
  have hid := htarget ▸ Specification.scenarioNamed?_nameOf hdeclares
  have hinitial? : a.initial? spec = some id := by rw [Arrow.initial?, if_pos hsource, hid]
  have hfinal? : a.final? spec = none := if_neg hfinal
  have hedge? : a.edge? spec = none := if_pos (Or.inl hsource)
  rw [filterMap_concat, ← h.initial, hinitial?] at hnodup
  rw [addArrow_of_initial hsource hinit hfinal ((h.scenarioNamed?_eq _).trans hid)]
  refine ⟨h.scenarios, ?_, ?_, ?_⟩
  · rw [filterMap_concat, ← h.initial, hinitial?]
    exact foldl_addOnce_eq_append hnodup
  · rw [filterMap_concat, ← h.finals, hfinal?]
    exact (List.append_nil _).symm
  · rw [filterMap_concat, ← h.edges, hedge?]
    exact (List.append_nil _).symm

theorem Wired.addFinal (h : l.Wired spec done) (hspec : spec.Writable) {id : ScenarioId}
    (hdeclares : spec.declares id = true) (htarget : a.target.text = finalNode)
    (hsource : a.source.text = spec.nameOf id)
    (hnodup : ((done ++ [a]).filterMap (Arrow.final? spec)).Nodup) :
    (l.addArrow a).Wired spec (done ++ [a]) := by
  obtain ⟨hinit, hfinal⟩ := hspec.nameOf_ne hdeclares
  rw [← hsource] at hinit hfinal
  have hid := hsource ▸ Specification.scenarioNamed?_nameOf hdeclares
  have hinitial? : a.initial? spec = none := if_neg hinit
  have hfinal? : a.final? spec = some id := by rw [Arrow.final?, if_pos htarget, hid]
  have hedge? : a.edge? spec = none := if_pos (Or.inr htarget)
  rw [filterMap_concat, ← h.finals, hfinal?] at hnodup
  rw [addArrow_of_final htarget hinit hfinal ((h.scenarioNamed?_eq _).trans hid)]
  refine ⟨h.scenarios, ?_, ?_, ?_⟩
  · rw [filterMap_concat, ← h.initial, hinitial?]
    exact (List.append_nil _).symm
  · rw [filterMap_concat, ← h.finals, hfinal?]
    exact foldl_addOnce_eq_append hnodup
  · rw [filterMap_concat, ← h.edges, hedge?]
    exact (List.append_nil _).symm

theorem Wired.addEdge (h : l.Wired spec done) (hspec : spec.Writable) {e : Edge}
    (hdeclaresSource : spec.declares e.source = true) (hdeclaresTarget : spec.declares e.target = true)
    (hsource : a.source.text = spec.nameOf e.source) (htarget : a.target.text = spec.nameOf e.target)
    (hnodup : ((done ++ [a]).filterMap (Arrow.edge? spec)).Nodup)
    (hsorted : ((done ++ [a]).filterMap (Arrow.edge? spec)).Pairwise fun e f =>
      e.source.index ≤ f.source.index) :
    (l.addArrow a).Wired spec (done ++ [a]) := by
  obtain ⟨hinit, hfinal⟩ := hspec.nameOf_ne hdeclaresSource
  obtain ⟨hinit', hfinal'⟩ := hspec.nameOf_ne hdeclaresTarget
  rw [← hsource] at hinit hfinal
  rw [← htarget] at hinit' hfinal'
  have hids := hsource ▸ Specification.scenarioNamed?_nameOf hdeclaresSource
  have hidt := htarget ▸ Specification.scenarioNamed?_nameOf hdeclaresTarget
  have hinitial? : a.initial? spec = none := if_neg hinit
  have hfinal? : a.final? spec = none := if_neg hfinal'
  have hedge? : a.edge? spec = some e := by
    rw [Arrow.edge?, if_neg fun h => h.elim hinit hfinal', hids, hidt]
    rfl
  rw [filterMap_concat, ← h.edges, hedge?] at hnodup hsorted
  rw [addArrow_of_edge ⟨hinit', hfinal, fun hdirect => hinit hdirect.1⟩ hinit hfinal'
    ((h.scenarioNamed?_eq _).trans hids) ((h.scenarioNamed?_eq _).trans hidt)]
  refine ⟨Specification.scenarios_addEdge.trans h.scenarios, ?_, ?_, ?_⟩
  · rw [filterMap_concat, ← h.initial, hinitial?]
    exact Specification.initial_addEdge.trans (List.append_nil _).symm
  · rw [filterMap_concat, ← h.finals, hfinal?]
    exact Specification.finals_addEdge.trans (List.append_nil _).symm
  · rw [filterMap_concat, ← h.edges, hedge?]
    exact edges_addEdge_eq_concat hnodup hsorted

/-- **The arrows of a natural document add the marks and edges that they stand for.** -/
theorem Wired.addArrows (h : Natural spec d) (hspec : spec.Writable) {arrows after : List Arrow}
    (harrows : d.items.flatMap Item.arrows = arrows ++ after) (hl : l.Wired spec []) :
    (arrows.foldl Loader.addArrow l).Wired spec arrows ∧
      (arrows.foldl Loader.addArrow l).spec.components = l.spec.components := by
  induction arrows using List.reverseRecOn generalizing after with
  | nil => exact ⟨hl, rfl⟩
  | append_singleton arrows a ih =>
      rw [List.append_assoc, List.singleton_append] at harrows
      obtain ⟨hwired, hcomponents⟩ := ih harrows
      obtain ⟨hinitial, hfinals, hedges⟩ := h.looked_up hspec
      rw [harrows, List.append_cons, List.filterMap_append] at hinitial hfinals hedges
      -- what has been added so far is the beginning of a list without repeats and in order
      have hinitial' := (List.nodup_append.mp (hinitial ▸ spec.initial_nodup)).1
      have hfinals' := (List.nodup_append.mp (hfinals ▸ spec.finals_nodup)).1
      have hedges' := (List.nodup_append.mp (hedges ▸ spec.edges_nodup)).1
      have hsorted := (List.pairwise_append.mp (hedges ▸ spec.edges_sorted)).1
      rw [List.foldl_append, List.foldl_cons, List.foldl_nil]
      refine ⟨?_, (addArrow_keeps _ a).2.trans hcomponents⟩
      rcases h.arrow_cases (a := a) (by rw [harrows]; simp) with ⟨hsource, id, hid, htarget⟩ |
          ⟨htarget, id, hid, hsource⟩ | ⟨e, he, hsource, htarget⟩
      · exact hwired.addInitial hspec (hspec.closed _ (.initial hid)) hsource htarget hinitial'
      · exact hwired.addFinal hspec (hspec.closed _ (.final hid)) htarget hsource hfinals'
      · exact hwired.addEdge hspec (hspec.closed _ (.source he)) (hspec.closed _ (.target he))
          hsource htarget hedges' hsorted

end Loader

end Document

/-! ## Nothing else is left to compare -/

namespace Specification

variable {spec s t : Specification}

theorem eq_of_data (hscenarios : s.scenarios = t.scenarios) (hcomponents : s.components = t.components)
    (hedges : s.edges = t.edges) (hinitial : s.initial = t.initial) (hfinals : s.finals = t.finals) :
    s = t := by
  obtain ⟨_, _, _, _, _⟩ := s
  obtain ⟨_, _, _, _, _⟩ := t
  dsimp only at hscenarios hcomponents hedges hinitial hfinals
  subst hscenarios hcomponents hedges hinitial hfinals
  rfl

/-- Components are known by their names and their lifelines. -/
theorem components_eq_of_lifelines
    (hnames : s.components.map Component.name = t.components.map Component.name)
    (hlifelines : ∀ c id, s.lifeline? c id = t.lifeline? c id) : s.components = t.components := by
  refine List.ext_getElem? fun i => ?_
  have hname := congrArg (·[i]?) hnames
  rw [List.getElem?_map, List.getElem?_map] at hname
  have hlifeline : ∀ id, (s.components[i]?.bind fun c => c.lifelines.get? id) =
      t.components[i]?.bind fun c => c.lifelines.get? id := hlifelines ⟨i⟩
  cases hs : s.components[i]? with
  | none =>
      rw [hs] at hname
      exact (Option.map_eq_none_iff.mp hname.symm).symm
  | some c =>
      rw [hs, Option.map_some] at hname
      obtain ⟨c', hc', hsame⟩ := Option.map_eq_some_iff.mp hname.symm
      rw [hs, hc'] at hlifeline
      obtain ⟨name, lifelines⟩ := c
      obtain ⟨name', lifelines'⟩ := c'
      obtain rfl : name' = name := hsame
      obtain rfl : lifelines = lifelines' := OrderedMap.ext_get? hlifeline
      exact hc'.symm

theorem Writable.lifeline?_eq (h : spec.Writable) (c : ComponentId) (id : ScenarioId) :
    spec.lifeline? c id =
      if spec.declares id = true then (spec.component? c).map fun c => c.lifeline id else none := by
  unfold lifeline?
  cases hc : spec.component? c with
  | none => simp
  | some component =>
      have hmem := List.mem_of_getElem? hc
      rw [Option.bind_some, Option.map_some]
      split
      · rename_i hid
        obtain ⟨events, hevents⟩ := Option.isSome_iff_exists.mp (h.complete component hmem id hid)
        rw [Component.lifeline, hevents]
        rfl
      · rename_i hid
        refine Option.eq_none_iff_forall_ne_some.mpr fun events hevents => hid ?_
        refine h.closed id (.lifeline hmem (OrderedMap.mem_keys_iff.mpr ?_))
        exact Option.isSome_of_eq_some hevents

theorem fillFrom_eq_self {ids : List ScenarioId} {lifelines : OrderedMap ScenarioId Lifeline}
    (h : ∀ id ∈ ids, lifelines.hasKey id = true) : fillFrom ids lifelines = lifelines := by
  unfold fillFrom
  induction ids with
  | nil => rfl
  | cons id ids ih =>
      rw [List.foldl_cons, if_pos (h id List.mem_cons_self)]
      exact ih fun id' hid' => h id' (List.mem_cons_of_mem id hid')

theorem Writable.fillLifelines_eq (h : spec.Writable) : spec.fillLifelines = spec := by
  refine eq_of_data rfl ?_ rfl rfl rfl
  unfold fillLifelines
  dsimp only
  refine (List.map_congr_left fun c hc => ?_).trans (List.map_id _)
  rw [fillFrom_eq_self fun id hid => h.complete c hc id (mem_scenarioIds_iff.mp hid)]
  rfl

end Specification

namespace Document

variable {spec : Specification} {d : Document}

theorem Natural.lifeline?_eq (h : Natural spec d) (hspec : spec.Writable) (c : ComponentId)
    (id : ScenarioId) : ((told d.items)[id.index]?.bind fun block => block.2[c.index]?.map Prod.snd) =
      spec.lifeline? c id := by
  rw [h.scenarios, hspec.lifeline?_eq, List.getElem?_map, Specification.getElem?_scenarioIds]
  split
  · rw [Option.map_some, Option.bind_some, List.getElem?_map, Option.map_map]
    rfl
  · rfl

/-- **Loading a natural document gives the specification.** -/
theorem Natural.load_spec (h : Natural spec d) (hspec : spec.Writable) : d.load.spec = spec := by
  have hbuilt := h.built hspec (List.append_nil d.items).symm
  unfold load Loader.finish
  dsimp only
  rw [hbuilt.arrows]
  -- of the loader after all items no more is needed than that everything is there
  generalize d.items.foldl Loader.addItem .start = l at hbuilt
  have hscenarios : l.spec.scenarios = spec.scenarios := by
    rw [hbuilt.scenarios, ← called_eq_map_told, h.called_eq]
  obtain ⟨hwired, hkept⟩ := Loader.Wired.addArrows h hspec (List.append_nil _).symm
    ⟨hscenarios, hbuilt.initial, hbuilt.finals, hbuilt.edges⟩
  obtain ⟨hinitial, hfinals, hedges⟩ := h.looked_up hspec
  have hcomponents : l.spec.components = spec.components :=
    Specification.components_eq_of_lifelines (hbuilt.components.trans h.components) fun c id =>
      (hbuilt.lifelines c id).trans (h.lifeline?_eq hspec c id)
  rw [Specification.eq_of_data hwired.scenarios (hkept.trans hcomponents)
    (hwired.edges.trans hedges) (hwired.initial.trans hinitial) (hwired.finals.trans hfinals)]
  exact hspec.fillLifelines_eq

end Document

end ScenarioFsp
