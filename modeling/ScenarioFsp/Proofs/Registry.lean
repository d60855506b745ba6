import ScenarioFsp.Proofs.History

/-!
# Keeping a specification in tables

Where nothing may be searched for, a specification is kept in tables. Beside the names
in their order stands a map that leads back from a name to its number, and the edges are
kept by their source, in a table that grows whenever it is too short. A call now works
on seven parts, one after the other, and could be interrupted in between. A registry
never shows: it answers what the specification answers (`Shows`), and a call that is
refused has not touched any part.
-/

namespace ScenarioFsp

/-- A specification in tables. -/
structure Registry where
  scenarios : List String
  scenarioNumbers : OrderedMap String ScenarioId
  components : List Component
  componentNumbers : OrderedMap String ComponentId
  /-- What may follow the scenario of each number; behind the last row nothing may follow. -/
  successors : List (List ScenarioId)
  initial : List ScenarioId
  finals : List ScenarioId

namespace Registry

/-- The tables before any call. -/
def empty : Registry := ⟨[], .empty, [], .empty, [], [], []⟩

/-! ## Answers -/

/-- The edges in rows that begin with that of the scenario `index`. -/
def edgesFrom (index : Nat) : List (List ScenarioId) → List Edge
  | [] => []
  | row :: rows => row.map (Edge.mk ⟨index⟩) ++ edgesFrom (index + 1) rows

/-- All edges, row by row. -/
def edges (reg : Registry) : List Edge := edgesFrom 0 reg.successors

/-- The row of a scenario; behind the last row nothing follows. -/
def continuations (reg : Registry) (id : ScenarioId) : List ScenarioId :=
  (reg.successors[id.index]?).getD []

/-! ## Calls -/

open Specification (Call)

/-- Works on the tables; what has been changed before a refusal stays changed. -/
abbrev Work := EStateM Failure Registry

/-- Declares a scenario: its name is put at the end, and then its number into the table. -/
def addScenario (name : String) : Work ScenarioId := do
  if (← get).scenarioNumbers.hasKey name then throw (.fault (.scenarioDeclared name))
  let id : ScenarioId := ⟨(← get).scenarios.length⟩
  modify fun reg => { reg with scenarios := reg.scenarios ++ [name] }
  modify fun reg => { reg with scenarioNumbers := reg.scenarioNumbers.insert name id }
  return id

/-- Declares a component: it is put at the end, and then its number into the table. -/
def addComponent (name : String) : Work ComponentId := do
  if (← get).componentNumbers.hasKey name then throw (.fault (.componentDeclared name))
  let id : ComponentId := ⟨(← get).components.length⟩
  modify fun reg => { reg with components := reg.components ++ [⟨name, .empty⟩] }
  modify fun reg => { reg with componentNumbers := reg.componentNumbers.insert name id }
  return id

/-- Puts the lifeline of a component in a scenario, in the stead of an earlier one. It is not asked
whether the scenario is declared. -/
def setLifeline (component : ComponentId) (scenario : ScenarioId) (events : Lifeline) :
    Work Unit := do
  match (← get).components[component.index]? with
  | none => throw (.fault (.outOfRange (← get).components.length component.index))
  | some c =>
    let c := { c with lifelines := c.lifelines.insert scenario events }
    modify fun reg => { reg with components := reg.components.set component.index c }

/-- Rows enough for the scenario `index`. -/
def grow (index : Nat) (rows : List (List ScenarioId)) : List (List ScenarioId) :=
  rows ++ List.replicate (index + 1 - rows.length) []

/-- Adds an edge once: first the rows are made to reach its source. -/
def addEdge (source target : ScenarioId) : Work Unit := do
  modify fun reg => { reg with successors := grow source.index reg.successors }
  modify fun reg =>
    { reg with successors := reg.successors.modify source.index (addOnce target) }

/-- Marks a scenario as initial. -/
def addInitial (id : ScenarioId) : Work Unit :=
  modify fun reg => { reg with initial := addOnce id reg.initial }

/-- Marks a scenario as final. -/
def addFinal (id : ScenarioId) : Work Unit :=
  modify fun reg => { reg with finals := addOnce id reg.finals }

/-- What comes of a call; a declaration answers the number of what has been declared. -/
def call : Call → Work (Option Nat)
  | .scenario name => do return some (← addScenario name).index
  | .component name => do return some (← addComponent name).index
  | .lifeline component scenario events => do
    setLifeline component scenario events
    return none
  | .edge source target => do
    addEdge source target
    return none
  | .initial id => do
    addInitial id
    return none
  | .final id => do
    addFinal id
    return none

/-- The tables after some calls, up to the first that is refused. -/
def after (history : List Call) : Work Unit :=
  forM history fun c => do
    let _ ← call c
    return ()

/-! ## Rows of edges -/

variable {rows : List (List ScenarioId)} {e : Edge} {k : Nat}

theorem edgesFrom_cons (row : List ScenarioId) :
    edgesFrom k (row :: rows) = row.map (Edge.mk ⟨k⟩) ++ edgesFrom (k + 1) rows := rfl

theorem le_source_of_mem_edgesFrom (h : e ∈ edgesFrom k rows) : k ≤ e.source.index := by
  induction rows generalizing k with
  | nil => exact absurd h List.not_mem_nil
  | cons row rows ih =>
      rcases List.mem_append.mp h with hrow | hrest
      · obtain ⟨t, -, rfl⟩ := List.mem_map.mp hrow
        exact Nat.le_refl k
      · exact Nat.le_of_succ_le (ih hrest)

theorem edgesFrom_grow (index : Nat) : edgesFrom k (grow index rows) = edgesFrom k rows := by
  unfold grow
  induction rows generalizing k index with
  | nil =>
      generalize index + 1 - ([] : List (List ScenarioId)).length = n
      induction n generalizing k with
      | zero => rfl
      | succ n ih => exact ih
  | cons row rows ih =>
      cases index with
      | zero => simp [edgesFrom]
      | succ index =>
          have := ih (k := k + 1) index
          simp only [List.length_cons, Nat.add_sub_add_right, List.cons_append, edgesFrom] at this ⊢
          rw [this]

theorem length_grow (index : Nat) : index < (grow index rows).length := by
  unfold grow
  rw [List.length_append, List.length_replicate]
  omega

/-- A target that goes to the end of its row is an edge behind those with the same source. -/
theorem edgesFrom_modify {i : Nat} (hi : i < rows.length) (t : ScenarioId) :
    edgesFrom k (rows.modify i (addOnce t)) =
      if ⟨⟨k + i⟩, t⟩ ∈ edgesFrom k rows then edgesFrom k rows
      else Edge.insertInto ⟨⟨k + i⟩, t⟩ (edgesFrom k rows) := by
  induction rows generalizing k i with
  | nil => exact absurd hi (Nat.not_lt_zero i)
  | cons row rows ih =>
      cases i with
      | zero =>
          -- all edges with this source are in the first row, and the new one goes behind them
          have hmem : (⟨⟨k⟩, t⟩ : Edge) ∈ edgesFrom k (row :: rows) ↔ t ∈ row := by
            rw [edgesFrom_cons, List.mem_append, List.mem_map]
            refine ⟨fun h => ?_, fun h => Or.inl ⟨t, h, rfl⟩⟩
            rcases h with ⟨t', ht', heq⟩ | hrest
            · obtain rfl : t' = t := congrArg Edge.target heq
              exact ht'
            · exact absurd (le_source_of_mem_edgesFrom hrest) (Nat.not_succ_le_self k)
          rw [List.modify_zero_cons, Nat.add_zero]
          unfold addOnce
          by_cases ht : t ∈ row
          · rw [if_pos ht, if_pos (hmem.mpr ht)]
          · rw [if_neg ht, if_neg fun h => ht (hmem.mp h)]
            rw [edgesFrom_cons, edgesFrom_cons, Edge.insertInto_append, Edge.insertInto_eq_cons]
            · simp
            · exact fun f hf => le_source_of_mem_edgesFrom hf
            · rintro f hf
              obtain ⟨t', -, rfl⟩ := List.mem_map.mp hf
              exact Nat.le_refl k
      | succ i =>
          -- the first row has a smaller source, so the edge goes into one of the others
          have hk : k + (i + 1) = k + 1 + i := by omega
          have hrow : ∀ f ∈ row.map (Edge.mk ⟨k⟩), f.source.index = k := by
            rintro f hf
            obtain ⟨t', -, rfl⟩ := List.mem_map.mp hf
            rfl
          have hmem : (⟨⟨k + 1 + i⟩, t⟩ : Edge) ∈ edgesFrom k (row :: rows) ↔
              ⟨⟨k + 1 + i⟩, t⟩ ∈ edgesFrom (k + 1) rows := by
            rw [edgesFrom_cons, List.mem_append]
            refine ⟨fun h => h.resolve_left fun hf => ?_, Or.inr⟩
            have : k + 1 + i = k := hrow _ hf
            omega
          rw [List.modify_succ_cons, hk]
          simp only [hmem]
          rw [edgesFrom_cons, edgesFrom_cons, ih (Nat.lt_of_succ_lt_succ hi),
            Edge.insertInto_append]
          · split <;> rfl
          · intro f hf
            have := hrow f hf
            show f.source.index ≤ k + 1 + i
            omega

/-- The row of a scenario holds what its edges lead to. -/
theorem targets_edgesFrom (i : Nat) :
    ((edgesFrom k rows).filter fun e => decide (e.source = ⟨k + i⟩)).map Edge.target =
      (rows[i]?).getD [] := by
  induction rows generalizing k i with
  | nil => rfl
  | cons row rows ih =>
      rw [edgesFrom_cons, List.filter_append, List.map_append]
      cases i with
      | zero =>
          have hrest : (edgesFrom (k + 1) rows).filter (fun e => decide (e.source = ⟨k + 0⟩)) = [] := by
            refine List.filter_eq_nil_iff.mpr fun e he => ?_
            have hle := le_source_of_mem_edgesFrom he
            intro heq
            have := congrArg ScenarioId.index (of_decide_eq_true heq)
            simp only at this
            omega
          rw [hrest]
          simp [List.filter_map, Function.comp_def]
      | succ i =>
          have hk : k + (i + 1) = k + 1 + i := by omega
          have hne : ¬k = k + 1 + i := by omega
          rw [hk, ih i]
          simp [List.filter_map, Function.comp_def, hne]

/-! ## A registry shows a specification -/

/-- All answers of the registry are those of the specification. -/
structure Shows (reg : Registry) (spec : Specification) : Prop where
  scenarios : reg.scenarios = spec.scenarios
  scenarioNumbers : ∀ name, reg.scenarioNumbers.get? name = spec.scenarioNamed? name
  components : reg.components = spec.components
  componentNumbers : ∀ name, reg.componentNumbers.get? name = spec.componentNamed? name
  edges : reg.edges = spec.edges
  initial : reg.initial = spec.initial
  finals : reg.finals = spec.finals

variable {reg : Registry} {spec : Specification}

theorem Shows.continuations (h : reg.Shows spec) (id : ScenarioId) :
    reg.continuations id = spec.continuations id := by
  unfold Specification.continuations Registry.continuations
  rw [← h.edges]
  have htargets : ((edgesFrom 0 reg.successors).filter fun e =>
      decide (e.source = ⟨0 + id.index⟩)).map Edge.target =
        (reg.successors[id.index]?).getD [] := targets_edgesFrom id.index
  rw [Nat.zero_add] at htargets
  exact htargets.symm

theorem shows_empty : empty.Shows .empty :=
  ⟨rfl, fun _ => rfl, rfl, fun _ => rfl, rfl, rfl, rfl⟩

theorem Shows.hasKey_scenarioNumbers (h : reg.Shows spec) (name : String) :
    reg.scenarioNumbers.hasKey name = true ↔ name ∈ spec.scenarios := by
  unfold OrderedMap.hasKey
  rw [h.scenarioNumbers, Specification.isSome_scenarioNamed?]

theorem Shows.hasKey_componentNumbers (h : reg.Shows spec) (name : String) :
    reg.componentNumbers.hasKey name = true ↔ name ∈ spec.components.map Component.name := by
  unfold OrderedMap.hasKey
  rw [h.componentNumbers, Specification.isSome_componentNamed?]

/-! ## What each call does to the tables -/

theorem addScenario_refused {name : String} (h : reg.scenarioNumbers.hasKey name = true) :
    (addScenario name).run reg = .error (.fault (.scenarioDeclared name)) reg := by
  simp [addScenario, h]

theorem addScenario_granted {name : String} (h : ¬reg.scenarioNumbers.hasKey name = true) :
    (addScenario name).run reg = .ok ⟨reg.scenarios.length⟩ { reg with
      scenarios := reg.scenarios ++ [name]
      scenarioNumbers := reg.scenarioNumbers.insert name ⟨reg.scenarios.length⟩ } := by
  simp [addScenario, h, -bind_pure_comp]

theorem addComponent_refused {name : String} (h : reg.componentNumbers.hasKey name = true) :
    (addComponent name).run reg = .error (.fault (.componentDeclared name)) reg := by
  simp [addComponent, h]

theorem addComponent_granted {name : String} (h : ¬reg.componentNumbers.hasKey name = true) :
    (addComponent name).run reg = .ok ⟨reg.components.length⟩ { reg with
      components := reg.components ++ [⟨name, .empty⟩]
      componentNumbers := reg.componentNumbers.insert name ⟨reg.components.length⟩ } := by
  simp [addComponent, h, -bind_pure_comp]

theorem setLifeline_refused {component : ComponentId} {scenario : ScenarioId} {events : Lifeline}
    (h : reg.components[component.index]? = none) :
    (setLifeline component scenario events).run reg =
      .error (.fault (.outOfRange reg.components.length component.index)) reg := by
  simp [setLifeline, h]

theorem setLifeline_granted {component : ComponentId} {scenario : ScenarioId} {events : Lifeline}
    {c : Component} (h : reg.components[component.index]? = some c) :
    (setLifeline component scenario events).run reg = .ok () { reg with
      components := reg.components.set component.index
        { c with lifelines := c.lifelines.insert scenario events } } := by
  simp [setLifeline, h]

theorem addEdge_granted (s t : ScenarioId) : (addEdge s t).run reg = .ok () { reg with
    successors := (grow s.index reg.successors).modify s.index (addOnce t) } := by
  simp [addEdge]

/-! ## Calls on both sides -/

variable {name : String}

theorem Shows.addScenario (h : reg.Shows spec) (hname : name ∉ spec.scenarios) :
    ∃ reg', (addScenario name).run reg = .ok ⟨spec.scenarios.length⟩ reg' ∧
      reg'.Shows (spec.addScenario name hname) := by
  have hfree := fun hkey => hname ((h.hasKey_scenarioNumbers name).mp hkey)
  rw [addScenario_granted hfree, h.scenarios]
  refine ⟨_, rfl, rfl, fun n => ?_, h.components, h.componentNumbers, h.edges, h.initial, h.finals⟩
  rw [OrderedMap.get?_insert, h.scenarioNumbers, Specification.scenarioNamed?_addScenario]

theorem Shows.addComponent (h : reg.Shows spec)
    (hname : name ∉ spec.components.map Component.name) :
    ∃ reg', (addComponent name).run reg = .ok ⟨spec.components.length⟩ reg' ∧
      reg'.Shows (spec.addComponent name hname) := by
  have hfree := fun hkey => hname ((h.hasKey_componentNumbers name).mp hkey)
  rw [addComponent_granted hfree, h.components]
  refine ⟨_, rfl, h.scenarios, h.scenarioNumbers, rfl, fun n => ?_, h.edges, h.initial, h.finals⟩
  rw [OrderedMap.get?_insert, h.componentNumbers, Specification.componentNamed?_addComponent]

theorem Shows.setLifeline (h : reg.Shows spec) {component : ComponentId}
    (hlt : component.index < spec.components.length) (scenario : ScenarioId) (events : Lifeline) :
    ∃ reg', (setLifeline component scenario events).run reg = .ok () reg' ∧
      reg'.Shows (spec.placeLifeline component scenario events) := by
  have hget : reg.components[component.index]? = some spec.components[component.index] := by
    rw [h.components]
    exact List.getElem?_eq_getElem hlt
  rw [setLifeline_granted hget, h.components]
  refine ⟨_, rfl, h.scenarios, h.scenarioNumbers, ?_, fun n => ?_, h.edges, h.initial, h.finals⟩
  · show spec.components.set _ _ = spec.components.modify _ _
    rw [List.modify_eq_set_get _ hlt]
    rfl
  · rw [h.componentNumbers]
    exact Specification.componentNamed?_congr
      (Specification.names_placeLifeline component scenario events).symm n

theorem Shows.addEdge (h : reg.Shows spec) (s t : ScenarioId) :
    ∃ reg', (addEdge s t).run reg = .ok () reg' ∧ reg'.Shows (spec.addEdge s t) := by
  have hscenarios : (spec.addEdge s t).scenarioNamed? = spec.scenarioNamed? := by
    unfold Specification.scenarioNamed?
    rw [Specification.scenarios_addEdge]
  have hcomponents : (spec.addEdge s t).componentNamed? = spec.componentNamed? := by
    unfold Specification.componentNamed?
    rw [Specification.components_addEdge]
  have hgrown : s.index < (grow s.index reg.successors).length := length_grow s.index
  have hrows := edgesFrom_modify (k := 0) hgrown t
  rw [edgesFrom_grow, Nat.zero_add] at hrows
  refine ⟨_, addEdge_granted s t, ?_⟩
  refine ⟨h.scenarios.trans Specification.scenarios_addEdge.symm, ?_,
    h.components.trans Specification.components_addEdge.symm, ?_, hrows.trans ?_,
    h.initial.trans Specification.initial_addEdge.symm,
    h.finals.trans Specification.finals_addEdge.symm⟩
  · rw [hscenarios]
    exact h.scenarioNumbers
  · rw [hcomponents]
    exact h.componentNumbers
  · have hedges : edgesFrom 0 reg.successors = spec.edges := h.edges
    rw [hedges]
    unfold Specification.addEdge
    split <;> rfl

/-- **A registry and a specification answer every call alike**, and a call that is refused
changes nothing. -/
theorem Shows.answers (h : reg.Shows spec) (c : Call) :
    (∃ failure, spec.call c = .error failure ∧ (call c).run reg = .error failure reg) ∨
      ∃ number spec' reg', spec.call c = .ok (number, spec') ∧
        (call c).run reg = .ok number reg' ∧ reg'.Shows spec' := by
  cases c with
  | scenario name =>
      by_cases hname : name ∈ spec.scenarios
      · refine Or.inl ⟨_, Specification.call_eq_error_iff.mpr (.scenario hname), ?_⟩
        simp only [call, EStateM.run_bind,
          addScenario_refused ((h.hasKey_scenarioNumbers name).mpr hname)]
      · obtain ⟨reg', hrun, hshows⟩ := h.addScenario hname
        refine Or.inr ⟨some spec.scenarios.length, _, reg', ?_, ?_, hshows⟩
        · show (spec.declareScenario name).map _ = _
          rw [Specification.declareScenario_eq_ok hname]
          rfl
        · simp only [call, EStateM.run_bind, hrun, EStateM.run_pure]
  | component name =>
      by_cases hname : name ∈ spec.components.map Component.name
      · refine Or.inl ⟨_, Specification.call_eq_error_iff.mpr (.component hname), ?_⟩
        simp only [call, EStateM.run_bind,
          addComponent_refused ((h.hasKey_componentNumbers name).mpr hname)]
      · obtain ⟨reg', hrun, hshows⟩ := h.addComponent hname
        refine Or.inr ⟨some spec.components.length, _, reg', ?_, ?_, hshows⟩
        · show (spec.declareComponent name).map _ = _
          rw [Specification.declareComponent_eq_ok hname]
          rfl
        · simp only [call, EStateM.run_bind, hrun, EStateM.run_pure]
  | lifeline component scenario events =>
      by_cases hlt : component.index < spec.components.length
      · obtain ⟨reg', hrun, hshows⟩ := h.setLifeline hlt scenario events
        refine Or.inr ⟨none, _, reg', ?_, ?_, hshows⟩
        · show (spec.setLifeline component scenario events).map _ = _
          rw [Specification.setLifeline, if_pos hlt]
          rfl
        · simp only [call, EStateM.run_bind, hrun, EStateM.run_pure]
      · have hge := Nat.le_of_not_lt hlt
        have hget : reg.components[component.index]? = none := by
          rw [h.components]
          exact List.getElem?_eq_none hge
        refine Or.inl ⟨_, Specification.call_eq_error_iff.mpr (.lifeline hge), ?_⟩
        simp only [call, EStateM.run_bind, setLifeline_refused hget, h.components]
  | edge s t =>
      obtain ⟨reg', hrun, hshows⟩ := h.addEdge s t
      refine Or.inr ⟨none, _, reg', rfl, ?_, hshows⟩
      simp only [call, EStateM.run_bind, hrun, EStateM.run_pure]
  | initial id =>
      exact Or.inr ⟨none, _, _, rfl, rfl, h.scenarios, h.scenarioNumbers, h.components,
        h.componentNumbers, h.edges, congrArg (addOnce id) h.initial, h.finals⟩
  | final id =>
      exact Or.inr ⟨none, _, _, rfl, rfl, h.scenarios, h.scenarioNumbers, h.components,
        h.componentNumbers, h.edges, h.initial, congrArg (addOnce id) h.finals⟩

/-! ## Histories on both sides -/

variable {history : List Call}

theorem exists_after (h : Specification.empty.after history = .ok spec) :
    ∃ reg, (after history).run empty = .ok () reg ∧ reg.Shows spec := by
  induction history using List.reverseRecOn generalizing spec with
  | nil =>
      obtain rfl := Except.ok.inj h
      exact ⟨empty, rfl, shows_empty⟩
  | append_singleton history c ih =>
      obtain ⟨before, number, hbefore, hcall⟩ := Specification.after_concat_eq_ok_iff.mp h
      obtain ⟨reg, hrun, hshows⟩ := ih hbefore
      rcases hshows.answers c with ⟨failure, hrefused, -⟩ |
          ⟨number', next, reg', hnext, hstep, hshows'⟩
      · exact absurd (hrefused.symm.trans hcall) (by simp)
      · obtain ⟨-, rfl⟩ := Prod.mk.inj (Except.ok.inj (hnext.symm.trans hcall))
        refine ⟨reg', ?_, hshows'⟩
        unfold after at hrun ⊢
        rw [List.forM_append, EStateM.run_bind, hrun]
        simp only [List.forM_cons, List.forM_nil, EStateM.run_bind, hstep, EStateM.run_pure]

/--
**The tables stay consistent.** After any calls that were not refused, names and numbers
lead to each other, numbers have been given in the order of declaration from zero on,
every edge and every mark is listed once in its order, and every lifeline is the one set
last. A further call is refused only for a name that is taken or a component that is not
declared, and then every table stays as it is; else it answers the number that is due.
-/
theorem consistent_after (h : Specification.empty.after history = .ok spec) :
    spec.Records history ∧
      (∀ c, (∀ failure, spec.call c = .error failure ↔ spec.Refuses c failure) ∧
        ∀ number spec', spec.call c = .ok (number, spec') → number = c.number? history) ∧
      ∃ reg, (after history).run empty = .ok () reg ∧ reg.Shows spec ∧
        (∀ id, reg.continuations id = spec.continuations id) ∧
        ∀ c failure, spec.Refuses c failure → (call c).run reg = .error failure reg := by
  have hrecords := Specification.records_of_after h
  obtain ⟨reg, hrun, hshows⟩ := exists_after h
  refine ⟨hrecords, fun c => ⟨fun _ => Specification.call_eq_error_iff,
    fun _ _ hcall => (hrecords.call hcall).2⟩, reg, hrun, hshows, hshows.continuations,
    fun c failure hrefuses => ?_⟩
  have hcall := Specification.call_eq_error_iff.mpr hrefuses
  rcases hshows.answers c with ⟨failure', hrefused, hstep⟩ | ⟨number, next, reg', hnext, -, -⟩
  · obtain rfl := Except.error.inj (hrefused.symm.trans hcall)
    exact hstep
  · exact absurd (hnext.symm.trans hcall) (by simp)

/-- An edge comes before the scenarios that it joins, one edge comes twice, and so does a
lifeline. -/
def lampCalls : List Call :=
  [.edge ⟨1⟩ ⟨0⟩, .scenario "On", .initial ⟨0⟩, .component "Lamp",
    .lifeline ⟨0⟩ ⟨1⟩ [.message "press"], .scenario "Off", .edge ⟨0⟩ ⟨1⟩, .edge ⟨1⟩ ⟨0⟩,
    .lifeline ⟨0⟩ ⟨1⟩ [.condition "Dark"], .final ⟨1⟩]

theorem consistent_after_lampCalls :
    ∃ spec, Specification.empty.after lampCalls = .ok spec ∧
      spec.edges = [⟨⟨0⟩, ⟨1⟩⟩, ⟨⟨1⟩, ⟨0⟩⟩] ∧ spec.Records lampCalls ∧
      spec.lifeline? ⟨0⟩ ⟨1⟩ = some [.condition "Dark"] ∧
      ∃ reg, (after lampCalls).run empty = .ok () reg ∧ reg.Shows spec ∧
        (call (.scenario "On")).run reg = .error (.fault (.scenarioDeclared "On")) reg := by
  have hedges : (Specification.empty.after lampCalls).toOption.map Specification.edges =
      some [⟨⟨0⟩, ⟨1⟩⟩, ⟨⟨1⟩, ⟨0⟩⟩] := by decide
  have hnames : (Specification.empty.after lampCalls).toOption.map Specification.scenarios =
      some ["On", "Off"] := by decide
  cases hspec : Specification.empty.after lampCalls with
  | error failure =>
      rw [hspec] at hedges
      exact absurd hedges (by simp [Except.toOption])
  | ok spec =>
      rw [hspec] at hedges hnames
      obtain ⟨hrecords, -, reg, hrun, hshows, -, hrefused⟩ := consistent_after hspec
      have htaken : "On" ∈ spec.scenarios := by
        rw [Option.some.inj hnames]
        exact List.mem_cons_self
      refine ⟨spec, rfl, Option.some.inj hedges, hrecords, ?_, reg, hrun, hshows,
        hrefused _ _ (.scenario htaken)⟩
      rw [hrecords.lifelines]
      rfl

end Registry

end ScenarioFsp
