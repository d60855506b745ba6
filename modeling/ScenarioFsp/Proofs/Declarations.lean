import ScenarioFsp.Specification

/-!
# What declarations change

Each operation on a specification changes one part of it and leaves the others as they
were. Names and numbers determine each other (`scenarioNamed?_eq_some_iff`), and a
lifeline is what was last set for its component and its scenario.
-/

namespace ScenarioFsp

theorem OrderedMap.mem_keys_insert {κ β : Type} [Ordered κ] [DecidableEq κ] {m : OrderedMap κ β}
    {key k : κ} {b : β} : k ∈ (m.insert key b).keys ↔ k = key ∨ k ∈ m.keys := by
  simp only [mem_keys_iff, hasKey, get?_insert]
  by_cases hk : k = key
  · simp [hk]
  · simp [hk]

/-- In a list without repeats a member is found where it stands. -/
theorem findIdx?_eq_some_iff_of_nodup {α β : Type} [DecidableEq β] {f : α → β} {l : List α}
    (h : (l.map f).Nodup) {b : β} {i : Nat} :
    l.findIdx? (fun a => decide (f a = b)) = some i ↔ l[i]?.map f = some b := by
  rw [List.findIdx?_eq_some_iff_getElem]
  refine ⟨fun hfound => ?_, fun hget => ?_⟩
  · obtain ⟨hi, hp, -⟩ := hfound
    rw [List.getElem?_eq_getElem hi, Option.map_some, of_decide_eq_true hp]
  · obtain ⟨a, ha, hab⟩ := Option.map_eq_some_iff.mp hget
    obtain ⟨hi, rfl⟩ := List.getElem?_eq_some_iff.mp ha
    refine ⟨hi, decide_eq_true hab, fun j hji hj => ?_⟩
    -- an earlier place with the same name would be the same place
    have hsame : (l.map f)[j]? = (l.map f)[i]? := by
      rw [List.getElem?_map, List.getElem?_map, hget, List.getElem?_eq_getElem (Nat.lt_trans hji hi),
        Option.map_some, of_decide_eq_true hj]
    have hlt : j < (l.map f).length := by
      rw [List.length_map]
      exact Nat.lt_trans hji hi
    exact absurd ((List.getElem?_inj hlt h).mp hsame) (Nat.ne_of_lt hji)

/-- A new name at the end is found there, and all others where they were. -/
theorem findIdx?_concat {α β : Type} [DecidableEq β] {f : α → β} {l : List α} {a : α}
    (h : ∀ x ∈ l, f x ≠ f a) (b : β) :
    (l ++ [a]).findIdx? (fun x => decide (f x = b)) =
      if b = f a then some l.length else l.findIdx? fun x => decide (f x = b) := by
  rw [List.findIdx?_append]
  by_cases hb : b = f a
  · subst hb
    have hnone : l.findIdx? (fun x => decide (f x = f a)) = none :=
      List.findIdx?_eq_none_iff.mpr fun x hx => decide_eq_false (h x hx)
    rw [hnone]
    simp
  · simp [hb, Ne.symm hb]

theorem filterMap_concat {α β : Type} (f : α → Option β) (l : List α) (a : α) :
    (l ++ [a]).filterMap f = l.filterMap f ++ (f a).toList := by
  rw [List.filterMap_append]
  cases ha : f a <;> simp [ha]

namespace Edge

variable {e : Edge} {l m : List Edge}

/-- An edge goes past those that do not belong behind it. -/
theorem insertInto_append (h : ∀ f ∈ l, f.source.index ≤ e.source.index) :
    insertInto e (l ++ m) = l ++ insertInto e m := by
  induction l with
  | nil => rfl
  | cons f fs ih =>
      have hf := h f List.mem_cons_self
      rw [List.cons_append, insertInto, if_neg (Nat.not_lt.mpr hf),
        ih fun g hg => h g (List.mem_cons_of_mem f hg)]
      rfl

theorem insertInto_eq_cons (h : ∀ f ∈ m, e.source.index < f.source.index) :
    insertInto e m = e :: m := by
  cases m with
  | nil => rfl
  | cons f fs => exact if_pos (h f List.mem_cons_self)

end Edge

namespace Specification

variable {spec : Specification} {name : String} {id s t : ScenarioId}

/-- What a component does in a scenario, if that has been said. -/
def lifeline? (spec : Specification) (component : ComponentId) (scenario : ScenarioId) :
    Option Lifeline :=
  (spec.component? component).bind fun c => c.lifelines.get? scenario

/-! ## Names and numbers -/

theorem scenarioNamed?_eq_some_iff :
    spec.scenarioNamed? name = some id ↔ spec.scenario? id = some name := by
  have hnodup : (spec.scenarios.map fun n => n).Nodup := by
    rw [List.map_id']
    exact spec.scenarios_nodup
  unfold scenarioNamed? scenario?
  rw [Option.map_eq_some_iff]
  refine ⟨fun h => ?_, fun h => ⟨id.index, ?_, rfl⟩⟩
  · obtain ⟨i, hi, rfl⟩ := h
    simpa using (findIdx?_eq_some_iff_of_nodup hnodup).mp hi
  · exact (findIdx?_eq_some_iff_of_nodup hnodup).mpr (by simpa using h)

theorem componentNamed?_eq_some_iff {id : ComponentId} :
    spec.componentNamed? name = some id ↔
      (spec.component? id).map Component.name = some name := by
  unfold componentNamed? component?
  rw [Option.map_eq_some_iff]
  refine ⟨fun h => ?_, fun h => ⟨id.index, ?_, rfl⟩⟩
  · obtain ⟨i, hi, rfl⟩ := h
    exact (findIdx?_eq_some_iff_of_nodup spec.components_nodup).mp hi
  · exact (findIdx?_eq_some_iff_of_nodup spec.components_nodup).mpr h

/-- The number of a component depends on the names only. -/
theorem componentNamed?_congr {spec' : Specification}
    (h : spec.components.map Component.name = spec'.components.map Component.name) (n : String) :
    spec.componentNamed? n = spec'.componentNamed? n := by
  have hnames : ∀ id : ComponentId,
      (spec.component? id).map Component.name = (spec'.component? id).map Component.name := by
    intro id
    unfold component?
    rw [← List.getElem?_map, ← List.getElem?_map, h]
  refine Option.ext fun id => ?_
  rw [componentNamed?_eq_some_iff, componentNamed?_eq_some_iff, hnames]

theorem isSome_componentNamed? :
    (spec.componentNamed? name).isSome = true ↔ name ∈ spec.components.map Component.name := by
  unfold componentNamed?
  rw [Option.isSome_map, List.findIdx?_isSome, List.any_eq_true, List.mem_map]
  simp only [decide_eq_true_eq]

theorem componentNamed?_eq_none_iff :
    spec.componentNamed? name = none ↔ name ∉ spec.components.map Component.name := by
  rw [← isSome_componentNamed?, Bool.not_eq_true, Option.isSome_eq_false_iff,
    Option.isNone_iff_eq_none]

theorem isSome_scenarioNamed? :
    (spec.scenarioNamed? name).isSome = true ↔ name ∈ spec.scenarios := by
  unfold scenarioNamed?
  rw [Option.isSome_map, List.findIdx?_isSome, List.any_eq_true]
  simp

theorem scenarioNamed?_eq_none_iff : spec.scenarioNamed? name = none ↔ name ∉ spec.scenarios := by
  rw [← isSome_scenarioNamed?, Bool.not_eq_true, Option.isSome_eq_false_iff,
    Option.isNone_iff_eq_none]

theorem scenarioNamed?_addScenario (h : name ∉ spec.scenarios) (n : String) :
    (spec.addScenario name h).scenarioNamed? n =
      if n = name then some ⟨spec.scenarios.length⟩ else spec.scenarioNamed? n := by
  have hconcat := findIdx?_concat (f := fun m : String => m) (l := spec.scenarios) (a := name)
    (fun m hm heq => h (heq ▸ hm)) n
  unfold scenarioNamed? addScenario
  dsimp only
  rw [hconcat]
  split <;> rfl

theorem componentNamed?_addComponent (h : name ∉ spec.components.map Component.name) (n : String) :
    (spec.addComponent name h).componentNamed? n =
      if n = name then some ⟨spec.components.length⟩ else spec.componentNamed? n := by
  have hconcat := findIdx?_concat (f := Component.name) (l := spec.components)
    (a := ⟨name, .empty⟩) (fun c hc heq => h (List.mem_map.mpr ⟨c, hc, heq⟩)) n
  unfold componentNamed? addComponent
  dsimp only
  rw [hconcat]
  split <;> rfl

/-! ## Requests that are granted -/

theorem declareComponent_eq_ok (h : name ∉ spec.components.map Component.name) :
    spec.declareComponent name = .ok (⟨spec.components.length⟩, spec.addComponent name h) :=
  dif_neg h

theorem declareScenario_eq_ok (h : name ∉ spec.scenarios) :
    spec.declareScenario name = .ok (⟨spec.scenarios.length⟩, spec.addScenario name h) :=
  dif_neg h

theorem scenarioAt_eq_ok (h : spec.scenario? id = some name) : spec.scenarioAt id = .ok name := by
  unfold scenarioAt
  rw [h]

/-- What is found under a name can be given a lifeline. -/
theorem setLifeline_eq_ok {id : ComponentId} (h : spec.componentNamed? name = some id)
    (scenario : ScenarioId) (events : Lifeline) :
    spec.setLifeline id scenario events = .ok (spec.placeLifeline id scenario events) := by
  obtain ⟨i, hi, rfl⟩ := Option.map_eq_some_iff.mp h
  exact if_pos (List.findIdx?_eq_some_iff_getElem.mp hi).1

/-! ## Edges -/

@[simp] theorem scenarios_addEdge : (spec.addEdge s t).scenarios = spec.scenarios := by
  unfold addEdge
  split <;> rfl

@[simp] theorem components_addEdge : (spec.addEdge s t).components = spec.components := by
  unfold addEdge
  split <;> rfl

@[simp] theorem initial_addEdge : (spec.addEdge s t).initial = spec.initial := by
  unfold addEdge
  split <;> rfl

@[simp] theorem finals_addEdge : (spec.addEdge s t).finals = spec.finals := by
  unfold addEdge
  split <;> rfl

theorem mem_edges_addEdge {e : Edge} :
    e ∈ (spec.addEdge s t).edges ↔ e = ⟨s, t⟩ ∨ e ∈ spec.edges := by
  unfold addEdge
  split
  · rename_i hmem
    exact ⟨Or.inr, fun h => h.elim (fun heq => heq ▸ hmem) fun hold => hold⟩
  · exact Edge.mem_insertInto

/-! ## Lifelines -/

theorem mem_placeInto {index : Nat} {scenario : ScenarioId} {events : Lifeline}
    {l : List Component} {c : Component} (h : c ∈ placeInto index scenario events l) :
    c ∈ l ∨ ∃ c₀ ∈ l, c = { c₀ with lifelines := c₀.lifelines.insert scenario events } := by
  induction l generalizing index with
  | nil =>
      cases index <;> exact absurd h List.not_mem_nil
  | cons d ds ih =>
      cases index with
      | zero =>
          rcases List.mem_cons.mp h with rfl | hmem
          · exact Or.inr ⟨d, List.mem_cons_self, rfl⟩
          · exact Or.inl (List.mem_cons_of_mem d hmem)
      | succ i =>
          rcases List.mem_cons.mp h with rfl | hmem
          · exact Or.inl List.mem_cons_self
          · rcases ih hmem with hold | ⟨c₀, hc₀, rfl⟩
            · exact Or.inl (List.mem_cons_of_mem d hold)
            · exact Or.inr ⟨c₀, List.mem_cons_of_mem d hc₀, rfl⟩

/-- Setting a lifeline sets that one and no other. -/
theorem lifeline?_placeLifeline {component c : ComponentId} {events : Lifeline}
    (h : component.index < spec.components.length) :
    (spec.placeLifeline component id events).lifeline? c s =
      if c = component ∧ s = id then some events else spec.lifeline? c s := by
  unfold lifeline? component? placeLifeline placeInto
  dsimp only
  rw [List.getElem?_modify]
  by_cases hc : c = component
  · subst hc
    rw [List.getElem?_eq_getElem h]
    by_cases hs : s = id <;> simp [OrderedMap.get?_insert, hs]
  · have hindex : component.index ≠ c.index := fun heq => hc (by
      cases c
      cases component
      exact congrArg ComponentId.mk heq.symm)
    simp [hc, hindex]

theorem lifeline?_addComponent (h : name ∉ spec.components.map Component.name) (c : ComponentId) :
    (spec.addComponent name h).lifeline? c s = spec.lifeline? c s := by
  unfold lifeline? component? addComponent
  dsimp only
  rw [List.getElem?_append]
  split
  · rfl
  · rename_i hge
    rw [List.getElem?_eq_none (Nat.le_of_not_lt hge)]
    cases hnew : ([⟨name, .empty⟩] : List Component)[c.index - spec.components.length]? with
    | none => rfl
    | some d =>
        rw [List.mem_singleton.mp (List.mem_of_getElem? hnew)]
        rfl

end Specification

end ScenarioFsp
