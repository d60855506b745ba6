import ScenarioFsp.Proofs.Document.Accepted
import ScenarioFsp.Proofs.Document.Natural
import ScenarioFsp.Proofs.Document.Places

/-!
# What is accepted can be written

The names and labels of a text are spelled as the grammar says, and loading takes them as they
are: it makes up no name, and the lifelines that it fills in hold no events. So whatever is
accepted is writable again (`Journal.writable_load`).
-/

namespace ScenarioFsp

open Document (isIdentifier hasSpelling)

namespace Specification

variable {spec spec' : Specification} {c : Component} {name : String} {id : ScenarioId}

/-- All names and labels can be spelled. -/
structure Spelled (spec : Specification) : Prop where
  components : ∀ c ∈ spec.components, isIdentifier c.name = true
  scenarios : ∀ name ∈ spec.scenarios, isIdentifier name = true
  events : ∀ c ∈ spec.components, ∀ id, ∀ e ∈ c.lifeline id, hasSpelling e = true

theorem spelled_empty : empty.Spelled :=
  ⟨fun _ h => absurd h List.not_mem_nil, fun _ h => absurd h List.not_mem_nil,
    fun _ h => absurd h List.not_mem_nil⟩

/-- The flow graph holds no names. -/
theorem Spelled.congr (h : spec.Spelled) (hscenarios : spec'.scenarios = spec.scenarios)
    (hcomponents : spec'.components = spec.components) : spec'.Spelled := by
  refine ⟨?_, ?_, ?_⟩
  · rw [hcomponents]
    exact h.components
  · rw [hscenarios]
    exact h.scenarios
  · rw [hcomponents]
    exact h.events

theorem Spelled.addScenario (h : spec.Spelled) (hname : isIdentifier name = true)
    (hnew : name ∉ spec.scenarios) : (spec.addScenario name hnew).Spelled := by
  refine ⟨h.components, fun n hn => ?_, h.events⟩
  rcases List.mem_append.mp hn with hold | hlast
  · exact h.scenarios n hold
  · rwa [List.mem_singleton.mp hlast]

theorem Spelled.addComponent (h : spec.Spelled) (hname : isIdentifier name = true)
    (hnew : name ∉ spec.components.map Component.name) : (spec.addComponent name hnew).Spelled := by
  refine ⟨fun c hc => ?_, h.scenarios, fun c hc id e he => ?_⟩
  · rcases List.mem_append.mp hc with hold | hlast
    · exact h.components c hold
    · rwa [List.mem_singleton.mp hlast]
  · rcases List.mem_append.mp hc with hold | hlast
    · exact h.events c hold id e he
    · rw [List.mem_singleton.mp hlast] at he
      exact absurd he List.not_mem_nil

theorem lifeline_insert (c : Component) (scenario id : ScenarioId) (events : Lifeline) :
    ({ c with lifelines := c.lifelines.insert scenario events } : Component).lifeline id =
      if id = scenario then events else c.lifeline id := by
  unfold Component.lifeline
  rw [OrderedMap.get?_insert]
  split <;> rfl

theorem Spelled.placeLifeline (h : spec.Spelled) (component : ComponentId) (scenario : ScenarioId)
    {events : Lifeline} (hevents : ∀ e ∈ events, hasSpelling e = true) :
    (spec.placeLifeline component scenario events).Spelled := by
  refine ⟨fun c hc => ?_, h.scenarios, fun c hc id e he => ?_⟩
  · rcases mem_placeInto hc with hold | ⟨c₀, hc₀, rfl⟩
    · exact h.components c hold
    · exact h.components c₀ hc₀
  · rcases mem_placeInto hc with hold | ⟨c₀, hc₀, rfl⟩
    · exact h.events c hold id e he
    · rw [lifeline_insert] at he
      split at he
      · exact hevents e he
      · exact h.events c₀ hc₀ id e he

/-- The lifelines that are filled in are empty. -/
theorem lifeline_fillFrom (ids : List ScenarioId) (c : Component) (id : ScenarioId) :
    ({ c with lifelines := fillFrom ids c.lifelines } : Component).lifeline id = c.lifeline id := by
  unfold fillFrom
  induction ids generalizing c with
  | nil => rfl
  | cons s ids ih =>
      rw [List.foldl_cons]
      by_cases hkey : c.lifelines.hasKey s = true
      · rw [if_pos hkey]
        exact ih c
      · -- a lifeline that is missing has no events either
        rw [if_neg hkey]
        refine (ih { c with lifelines := c.lifelines.insert s [] }).trans ?_
        rw [lifeline_insert]
        split
        · rename_i heq
          subst heq
          have hnone : c.lifelines.get? id = none := by
            unfold OrderedMap.hasKey at hkey
            simpa using hkey
          unfold Component.lifeline
          rw [hnone]
          rfl
        · rfl

theorem Spelled.fillLifelines (h : spec.Spelled) : spec.fillLifelines.Spelled := by
  refine ⟨fun c hc => ?_, h.scenarios, fun c hc id e he => ?_⟩
  · obtain ⟨c₀, hc₀, rfl⟩ := mem_components_fillLifelines.mp hc
    exact h.components c₀ hc₀
  · obtain ⟨c₀, hc₀, rfl⟩ := mem_components_fillLifelines.mp hc
    rw [lifeline_fillFrom] at he
    exact h.events c₀ hc₀ id e he

end Specification

/-! ## Loading -/

namespace Document

namespace Loader

variable {l : Loader}

theorem spelled_foldl {α : Type} {f : Loader → α → Loader} {as : List α}
    (hstep : ∀ a ∈ as, ∀ l : Loader, l.spec.Spelled → (f l a).spec.Spelled)
    (h : l.spec.Spelled) : (as.foldl f l).spec.Spelled := by
  induction as generalizing l with
  | nil => exact h
  | cons a as ih =>
      obtain ⟨hfirst, hrest⟩ := List.forall_mem_cons.mp hstep
      exact ih hrest (hfirst l h)

theorem spelled_declareComponent (h : l.spec.Spelled) {name : Name}
    (hname : isIdentifier name.text = true) : (l.declareComponent name).spec.Spelled := by
  unfold declareComponent
  split
  · exact h
  · rename_i hnew
    exact h.addComponent hname hnew

theorem spelled_addLifelines (scenario : Name) (id : ScenarioId) (seen : List ComponentId)
    {blocks : List LifelineBlock}
    (hblocks : ∀ block ∈ blocks, ∀ e ∈ block.events, hasSpelling e = true)
    (h : l.spec.Spelled) : (addLifelines scenario id seen l blocks).spec.Spelled := by
  induction blocks generalizing seen l with
  | nil => exact h
  | cons block blocks ih =>
      obtain ⟨hfirst, hrest⟩ := List.forall_mem_cons.mp hblocks
      unfold addLifelines
      split
      · exact ih _ hrest h
      · split
        · exact ih _ hrest h
        · exact ih _ hrest (h.placeLifeline _ id hfirst)

theorem spelled_addScenario (h : l.spec.Spelled) {block : ScenarioBlock}
    (hname : isIdentifier block.name.text = true)
    (hevents : ∀ lifeline ∈ block.lifelines, ∀ e ∈ lifeline.events, hasSpelling e = true) :
    (l.addScenario block).spec.Spelled := by
  unfold addScenario
  split
  · exact h
  split
  · exact h
  rename_i hnew
  exact spelled_addLifelines _ _ _ hevents (h.addScenario hname hnew)

end Loader

variable {d : Document}

theorem Spelled.load (hd : d.Spelled) : d.load.spec.Spelled := by
  have hitems : (d.items.foldl Loader.addItem .start).spec.Spelled := by
    refine Loader.spelled_foldl (fun item hitem l hl => ?_) Specification.spelled_empty
    cases item with
    | components names =>
        refine Loader.spelled_foldl (fun name hname l hl => ?_) hl
        exact Loader.spelled_declareComponent hl (hd.components names hitem name hname)
    | scenario block =>
        obtain ⟨hname, hlifelines⟩ := hd.scenarios block hitem
        exact Loader.spelled_addScenario hl hname fun lifeline hlifeline =>
          (hlifelines lifeline hlifeline).2
    | flow block => exact hl
  -- arrows are added when all names are known, and they bring in none
  refine Specification.Spelled.fillLifelines (Loader.spelled_foldl (fun a _ l hl => ?_) hitems)
  obtain ⟨hscenarios, hcomponents⟩ := Loader.addArrow_keeps l a
  exact hl.congr hscenarios hcomponents

end Document

/-- **What is accepted can be written.** -/
theorem Journal.writable_load {j : Journal} {name text : String} {spec : Specification}
    (h : (j.load name text).result = .ok spec) : spec.Writable := by
  obtain ⟨d, hread, rfl⟩ := exists_document_of_load h
  have hspelled := (Document.spelled_of_read hread).load
  have hgood := d.processable_load
  exact ⟨hspelled.components, fun s hs => ⟨hspelled.scenarios s hs, hgood.unreserved s hs⟩,
    hspelled.events, hgood.closed, hgood.lifelines⟩

end ScenarioFsp
