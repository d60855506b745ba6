import Mathlib.Data.List.Basic
import Mathlib.Data.List.Induction
import ScenarioFsp.Proofs.Declarations

/-!
# What a specification has been told

A specification comes about by calls, in any order and with any repeats. Whatever the
calls were, it can be read off them what the specification says: names are numbered in
the order of their declaration, edges and marks are listed once, where they were first
added, and a lifeline is the one that was set last (`Records`). Each call changes at
most one part (`Effect`), and it is refused for two reasons only: a name is taken, or
a lifeline is set for a component that is not declared (`Refuses`).
-/

namespace ScenarioFsp

/-! ## What is listed once -/

section Listing

variable {α : Type} [DecidableEq α] {added listed : List α} {a b : α}

/-- `a` was added for the first time before `b` was. -/
def AddedBefore (added : List α) (a b : α) : Prop := added.idxOf a < added.idxOf b

/-- All that was `added` is `listed`, each once, and what belongs `before` comes first. -/
structure ListsOnce (added listed : List α) (before : α → α → Prop) : Prop where
  mem_iff : ∀ a, a ∈ listed ↔ a ∈ added
  once : listed.Nodup
  ordered : listed.Pairwise before

theorem AddedBefore.append (h : AddedBefore added a b) (hb : b ∈ added) (more : List α) :
    AddedBefore (added ++ more) a b := by
  have ha : a ∈ added :=
    List.idxOf_lt_length_iff.mp (Nat.lt_trans h (List.idxOf_lt_length_iff.mpr hb))
  unfold AddedBefore
  rw [List.idxOf_append_of_mem ha, List.idxOf_append_of_mem hb]
  exact h

/-- What is new comes after all that was there. -/
theorem addedBefore_new (ha : a ∈ added) (hb : b ∉ added) : AddedBefore (added ++ [b]) a b := by
  have hlt : added.idxOf a < added.length := List.idxOf_lt_length_iff.mpr ha
  unfold AddedBefore
  rw [List.idxOf_append_of_mem ha, List.idxOf_append_of_notMem hb]
  omega

/-- What is added once more is listed behind, or it was listed where it was added first. -/
theorem pairwise_addOnce (h : listed.Pairwise (AddedBefore added)) (hsub : ∀ x ∈ listed, x ∈ added)
    (hlisted : a ∈ added → a ∈ listed) :
    (addOnce a listed).Pairwise (AddedBefore (added ++ [a])) := by
  have hold : listed.Pairwise (AddedBefore (added ++ [a])) :=
    h.imp_of_mem fun _ hy hxy => hxy.append (hsub _ hy) [a]
  unfold addOnce
  split
  · exact hold
  · rename_i hnew
    have hfresh : a ∉ added := fun hmem => hnew (hlisted hmem)
    refine List.pairwise_append.mpr ⟨hold, List.pairwise_singleton _ _, fun x hx y hy => ?_⟩
    rw [List.mem_singleton.mp hy]
    exact addedBefore_new (hsub x hx) hfresh

theorem ListsOnce.addOnce (h : ListsOnce added listed (AddedBefore added)) (a : α) :
    ListsOnce (added ++ [a]) (addOnce a listed) (AddedBefore (added ++ [a])) := by
  refine ⟨fun x => ?_, nodup_addOnce a h.once,
    pairwise_addOnce h.ordered (fun x => (h.mem_iff x).mp) (h.mem_iff a).mpr⟩
  rw [mem_addOnce, h.mem_iff, List.mem_append, List.mem_singleton, or_comm]

end Listing

/-! ## The order of edges -/

namespace Edge

variable {added listed : List Edge} {e f : Edge}

/-- By source, and edges with the same source in the order in which they were first added. -/
def Precedes (added : List Edge) (e f : Edge) : Prop :=
  e.source.index < f.source.index ∨ e.source = f.source ∧ AddedBefore added e f

/-- An edge is put behind all that belong before it, and before all that belong behind it. -/
theorem pairwise_insertInto {before : Edge → Edge → Prop}
    (hsorted : listed.Pairwise fun e f => e.source.index ≤ f.source.index)
    (h : listed.Pairwise before)
    (hle : ∀ f ∈ listed, f.source.index ≤ e.source.index → before f e)
    (hlt : ∀ f ∈ listed, e.source.index < f.source.index → before e f) :
    (insertInto e listed).Pairwise before := by
  -- the new edge stops before the first one with a larger source, and all behind have larger ones
  induction listed with
  | nil => exact List.pairwise_singleton _ _
  | cons g gs ih =>
      obtain ⟨hg, hgs⟩ := List.pairwise_cons.mp hsorted
      obtain ⟨hgbefore, hgsbefore⟩ := List.pairwise_cons.mp h
      unfold insertInto
      split
      · rename_i hfirst
        refine List.pairwise_cons.mpr ⟨fun f hf => hlt f hf ?_, h⟩
        rcases List.mem_cons.mp hf with rfl | hmem
        · exact hfirst
        · exact Nat.lt_of_lt_of_le hfirst (hg f hmem)
      · rename_i hlater
        refine List.pairwise_cons.mpr ⟨fun f hf => ?_, ih hgs hgsbefore
          (fun f hf => hle f (List.mem_cons_of_mem g hf))
          (fun f hf => hlt f (List.mem_cons_of_mem g hf))⟩
        rcases mem_insertInto.mp hf with rfl | hmem
        · exact hle g List.mem_cons_self (Nat.le_of_not_lt hlater)
        · exact hgbefore f hmem

theorem Precedes.append (h : Precedes added e f) (hf : f ∈ added) (more : List Edge) :
    Precedes (added ++ more) e f :=
  h.imp id fun hsame => ⟨hsame.1, hsame.2.append hf more⟩

theorem Precedes.asymm (h : Precedes added e f) : ¬Precedes added f e := by
  unfold Precedes AddedBefore at *
  rintro (hlt | ⟨hsame, hadded⟩)
  · rcases h with hlt' | ⟨hsame', -⟩
    · exact Nat.lt_asymm hlt hlt'
    · rw [hsame'] at hlt
      exact Nat.lt_irrefl _ hlt
  · rcases h with hlt' | ⟨-, hadded'⟩
    · rw [hsame] at hlt'
      exact Nat.lt_irrefl _ hlt'
    · exact Nat.lt_asymm hadded hadded'

end Edge

namespace Specification

variable {spec spec' : Specification} {c : Component}

theorem listsOnce_addEdge {added : List Edge} (h : ListsOnce added spec.edges (Edge.Precedes added))
    (s t : ScenarioId) :
    ListsOnce (added ++ [⟨s, t⟩]) (spec.addEdge s t).edges (Edge.Precedes (added ++ [⟨s, t⟩])) := by
  have hold : spec.edges.Pairwise (Edge.Precedes (added ++ [⟨s, t⟩])) :=
    h.ordered.imp_of_mem fun _ hf hef => hef.append ((h.mem_iff _).mp hf) _
  refine ⟨fun e => ?_, (spec.addEdge s t).edges_nodup, ?_⟩
  · rw [mem_edges_addEdge, h.mem_iff, List.mem_append, List.mem_singleton, or_comm]
  · unfold addEdge
    split
    · exact hold
    · rename_i hnew
      have hfresh : (⟨s, t⟩ : Edge) ∉ added := fun hmem => hnew ((h.mem_iff _).mpr hmem)
      refine Edge.pairwise_insertInto spec.edges_sorted hold (fun f hf hle => ?_)
        fun f _ hlt => Or.inl hlt
      rcases Nat.lt_or_eq_of_le hle with hlt | heq
      · exact Or.inl hlt
      · refine Or.inr ⟨?_, addedBefore_new ((h.mem_iff f).mp hf) hfresh⟩
        exact congrArg ScenarioId.mk heq

/-! ## Calls -/

/-- A call that tells a specification something. -/
inductive Call where
  | scenario (name : String)
  | component (name : String)
  | lifeline (component : ComponentId) (scenario : ScenarioId) (events : Lifeline)
  | edge (source target : ScenarioId)
  | initial (id : ScenarioId)
  | final (id : ScenarioId)
deriving DecidableEq, Repr

/-- What comes of a call; a declaration also answers the number of what has been declared. -/
def call (spec : Specification) : Call → Except Failure (Option Nat × Specification)
  | .scenario name => (spec.declareScenario name).map fun declared => (some declared.1.index, declared.2)
  | .component name =>
    (spec.declareComponent name).map fun declared => (some declared.1.index, declared.2)
  | .lifeline component scenario events =>
    (spec.setLifeline component scenario events).map fun spec => (none, spec)
  | .edge source target => .ok (none, spec.addEdge source target)
  | .initial id => .ok (none, spec.addInitial id)
  | .final id => .ok (none, spec.addFinal id)

/-- The specification after some calls, unless one of them is refused. -/
def after (spec : Specification) (history : List Call) : Except Failure Specification :=
  history.foldlM (fun spec c => (spec.call c).map Prod.snd) spec

namespace Call

/-- The scenario that a call declares. -/
def scenarioName? : Call → Option String
  | scenario name => some name
  | _ => none

/-- The component that a call declares. -/
def componentName? : Call → Option String
  | component name => some name
  | _ => none

/-- The edge that a call adds. -/
def edge? : Call → Option Edge
  | edge source target => some ⟨source, target⟩
  | _ => none

/-- The scenario that a call marks as initial. -/
def initial? : Call → Option ScenarioId
  | initial id => some id
  | _ => none

/-- The scenario that a call marks as final. -/
def final? : Call → Option ScenarioId
  | final id => some id
  | _ => none

/-- What is set for a component and a scenario. -/
def lifelineFor? (component : ComponentId) (scenario : ScenarioId) : Call → Option Lifeline
  | lifeline component' scenario' events =>
    if component = component' ∧ scenario = scenario' then some events else none
  | _ => none

/-- The number that is due after some calls: one more than the last, beginning with zero. -/
def number? (history : List Call) : Call → Option Nat
  | scenario _ => some (history.filterMap scenarioName?).length
  | component _ => some (history.filterMap componentName?).length
  | _ => none

end Call

/-- Why a call is refused. -/
inductive Refuses (spec : Specification) : Call → Failure → Prop where
  | scenario {name : String} : name ∈ spec.scenarios →
      Refuses spec (.scenario name) (.fault (.scenarioDeclared name))
  | component {name : String} : name ∈ spec.components.map Component.name →
      Refuses spec (.component name) (.fault (.componentDeclared name))
  | lifeline {component : ComponentId} {scenario : ScenarioId} {events : Lifeline} :
      spec.components.length ≤ component.index →
      Refuses spec (.lifeline component scenario events)
        (.fault (.outOfRange spec.components.length component.index))

/-- What a call that is not refused does to each part. -/
structure Effect (spec : Specification) (c : Call) (number : Option Nat) (spec' : Specification) :
    Prop where
  scenarios : spec'.scenarios = spec.scenarios ++ c.scenarioName?.toList
  components : spec'.components.map Component.name =
    spec.components.map Component.name ++ c.componentName?.toList
  edges : spec'.edges = c.edge?.elim spec.edges fun e => (spec.addEdge e.source e.target).edges
  initial : spec'.initial = c.initial?.elim spec.initial fun id => addOnce id spec.initial
  finals : spec'.finals = c.final?.elim spec.finals fun id => addOnce id spec.finals
  lifelines : ∀ component scenario, spec'.lifeline? component scenario =
    (c.lifelineFor? component scenario).or (spec.lifeline? component scenario)
  number : number = c.scenarioName?.elim (c.componentName?.map fun _ => spec.components.length)
    fun _ => some spec.scenarios.length

theorem names_placeLifeline (component : ComponentId) (scenario : ScenarioId) (events : Lifeline) :
    (spec.placeLifeline component scenario events).components.map Component.name =
      spec.components.map Component.name :=
  names_placeInto component.index scenario events spec.components

/-- **A call is refused, or it changes the one part that it is about.** -/
theorem call_cases (spec : Specification) (c : Call) :
    (∃ failure, spec.Refuses c failure ∧ spec.call c = .error failure) ∨
      ((∀ failure, ¬spec.Refuses c failure) ∧
        ∃ number spec', spec.call c = .ok (number, spec') ∧ spec.Effect c number spec') := by
  cases c with
  | scenario name =>
      by_cases h : name ∈ spec.scenarios
      · refine Or.inl ⟨_, .scenario h, ?_⟩
        show (spec.declareScenario name).map _ = _
        rw [declareScenario, dif_pos h]
        rfl
      · refine Or.inr ⟨fun failure hrefuses => ?_, some spec.scenarios.length,
          spec.addScenario name h, ?_, ⟨rfl, (List.append_nil _).symm, rfl, rfl, rfl,
            fun _ _ => rfl, rfl⟩⟩
        · cases hrefuses with
          | scenario hmem => exact h hmem
        · show (spec.declareScenario name).map _ = _
          rw [declareScenario_eq_ok h]
          rfl
  | component name =>
      by_cases h : name ∈ spec.components.map Component.name
      · refine Or.inl ⟨_, .component h, ?_⟩
        show (spec.declareComponent name).map _ = _
        rw [declareComponent, dif_pos h]
        rfl
      · refine Or.inr ⟨fun failure hrefuses => ?_, some spec.components.length,
          spec.addComponent name h, ?_, ⟨(List.append_nil _).symm, List.map_append, rfl, rfl, rfl,
            fun _ _ => lifeline?_addComponent h _, rfl⟩⟩
        · cases hrefuses with
          | component hmem => exact h hmem
        · show (spec.declareComponent name).map _ = _
          rw [declareComponent_eq_ok h]
          rfl
  | lifeline component scenario events =>
      by_cases h : component.index < spec.components.length
      · refine Or.inr ⟨fun failure hrefuses => ?_, none,
          spec.placeLifeline component scenario events, ?_, ⟨(List.append_nil _).symm, ?_, rfl, rfl,
            rfl, fun k s => ?_, rfl⟩⟩
        · cases hrefuses with
          | lifeline hge => exact absurd h (Nat.not_lt.mpr hge)
        · show (spec.setLifeline component scenario events).map _ = _
          rw [setLifeline, if_pos h]
          rfl
        · rw [names_placeLifeline]
          exact (List.append_nil _).symm
        · rw [lifeline?_placeLifeline h]
          show _ = (if k = component ∧ s = scenario then some events else none).or _
          split <;> rfl
      · refine Or.inl ⟨_, .lifeline (Nat.le_of_not_lt h), ?_⟩
        show (spec.setLifeline component scenario events).map _ = _
        rw [setLifeline, if_neg h]
        rfl
  | edge s t =>
      refine Or.inr ⟨fun failure hrefuses => (nomatch hrefuses), none, _, rfl, ⟨?_, ?_, rfl, ?_, ?_,
        fun k r => ?_, rfl⟩⟩
      · rw [scenarios_addEdge]
        exact (List.append_nil _).symm
      · rw [components_addEdge]
        exact (List.append_nil _).symm
      · exact initial_addEdge
      · exact finals_addEdge
      · unfold lifeline? component?
        rw [components_addEdge]
        rfl
  | initial id =>
      exact Or.inr ⟨fun failure hrefuses => (nomatch hrefuses), none, _, rfl,
        ⟨(List.append_nil _).symm, (List.append_nil _).symm, rfl, rfl, rfl, fun _ _ => rfl, rfl⟩⟩
  | final id =>
      exact Or.inr ⟨fun failure hrefuses => (nomatch hrefuses), none, _, rfl,
        ⟨(List.append_nil _).symm, (List.append_nil _).symm, rfl, rfl, rfl, fun _ _ => rfl, rfl⟩⟩

theorem effect_of_call {c : Call} {number : Option Nat} (h : spec.call c = .ok (number, spec')) :
    spec.Effect c number spec' := by
  rcases call_cases spec c with ⟨failure, -, hcall⟩ | ⟨-, number', next, hcall, heffect⟩
  · exact absurd (hcall.symm.trans h) (by simp)
  · obtain ⟨rfl, rfl⟩ := Prod.mk.inj (Except.ok.inj (hcall.symm.trans h))
    exact heffect

/-- A call fails exactly for the reasons given. -/
theorem call_eq_error_iff {c : Call} {failure : Failure} :
    spec.call c = .error failure ↔ spec.Refuses c failure := by
  have hcause : ∀ {f f' : Failure}, spec.Refuses c f → spec.Refuses c f' → f = f' := by
    intro f f' hf hf'
    cases hf <;> cases hf' <;> rfl
  rcases call_cases spec c with ⟨failure', hrefuses, hcall⟩ | ⟨hnever, number, next, hcall, -⟩
  · refine ⟨fun h => ?_, fun h => ?_⟩
    · rw [← Except.error.inj (hcall.symm.trans h)]
      exact hrefuses
    · rw [hcause h hrefuses, hcall]
  · refine ⟨fun h => ?_, fun h => absurd h (hnever failure)⟩
    exact absurd (hcall.symm.trans h) (by simp)

/-! ## Histories -/

/-- What a specification says is what it has been told by some calls. -/
structure Records (spec : Specification) (history : List Call) : Prop where
  scenarioNamed : ∀ name id,
    spec.scenarioNamed? name = some id ↔ spec.scenario? id = some name
  componentNamed : ∀ name id,
    spec.componentNamed? name = some id ↔ (spec.component? id).map Component.name = some name
  scenarios : ∀ id, spec.scenario? id = (history.filterMap Call.scenarioName?)[id.index]?
  components : ∀ id, (spec.component? id).map Component.name =
    (history.filterMap Call.componentName?)[id.index]?
  edges : ListsOnce (history.filterMap Call.edge?) spec.edges
    (Edge.Precedes (history.filterMap Call.edge?))
  initial : ListsOnce (history.filterMap Call.initial?) spec.initial
    (AddedBefore (history.filterMap Call.initial?))
  finals : ListsOnce (history.filterMap Call.final?) spec.finals
    (AddedBefore (history.filterMap Call.final?))
  lifelines : ∀ component scenario, spec.lifeline? component scenario =
    (history.filterMap (Call.lifelineFor? component scenario)).getLast?

variable {history : List Call}

theorem Records.scenarios_eq (h : spec.Records history) :
    spec.scenarios = history.filterMap Call.scenarioName? :=
  List.ext_getElem? fun i => h.scenarios ⟨i⟩

theorem Records.components_eq (h : spec.Records history) :
    spec.components.map Component.name = history.filterMap Call.componentName? :=
  List.ext_getElem? fun i => by
    rw [List.getElem?_map]
    exact h.components ⟨i⟩

theorem records_empty : empty.Records [] := by
  have hnone : ∀ {α : Type} [DecidableEq α] (before : α → α → Prop), ListsOnce [] [] before :=
    fun before => ⟨fun _ => Iff.rfl, .nil, .nil⟩
  exact ⟨fun _ _ => scenarioNamed?_eq_some_iff, fun _ _ => componentNamed?_eq_some_iff,
    fun _ => rfl, fun _ => rfl, hnone _, hnone _, hnone _, fun _ _ => rfl⟩

/-- One more call is one more entry of the record. -/
theorem Records.call {number : Option Nat} {c : Call} (h : spec.Records history)
    (hcall : spec.call c = .ok (number, spec')) :
    spec'.Records (history ++ [c]) ∧ number = c.number? history := by
  have heffect := effect_of_call hcall
  refine ⟨⟨fun _ _ => scenarioNamed?_eq_some_iff, fun _ _ => componentNamed?_eq_some_iff,
    fun id => ?_, fun id => ?_, ?_, ?_, ?_, fun component scenario => ?_⟩, ?_⟩
  · rw [filterMap_concat, ← h.scenarios_eq, ← heffect.scenarios]
    rfl
  · rw [filterMap_concat, ← h.components_eq, ← heffect.components, List.getElem?_map]
    rfl
  · rw [filterMap_concat, heffect.edges]
    cases hedge : c.edge? with
    | none => simpa using h.edges
    | some e => exact listsOnce_addEdge h.edges e.source e.target
  · rw [filterMap_concat, heffect.initial]
    cases hinitial : c.initial? with
    | none => simpa using h.initial
    | some id => exact h.initial.addOnce id
  · rw [filterMap_concat, heffect.finals]
    cases hfinal : c.final? with
    | none => simpa using h.finals
    | some id => exact h.finals.addOnce id
  · rw [filterMap_concat, heffect.lifelines, h.lifelines]
    cases c.lifelineFor? component scenario with
    | none => simp
    | some events => simp
  · have hscenarios := congrArg List.length h.scenarios_eq
    have hcomponents := congrArg List.length h.components_eq
    rw [List.length_map] at hcomponents
    rw [heffect.number, hscenarios, hcomponents]
    cases c <;> rfl

/-- A history succeeds up to its last call, and then that call succeeds. -/
theorem after_concat_eq_ok_iff {c : Call} {next : Specification} :
    spec.after (history ++ [c]) = .ok next ↔
      ∃ before number, spec.after history = .ok before ∧ before.call c = .ok (number, next) := by
  have hlast : spec.after (history ++ [c]) =
      (spec.after history).bind fun before => (before.call c).map Prod.snd := by
    unfold after
    rw [List.foldlM_append]
    refine congrArg _ (funext fun before => ?_)
    rw [List.foldlM_cons]
    exact bind_pure _
  rw [hlast]
  cases spec.after history with
  | error failure => simp [Except.bind]
  | ok before =>
      cases hcall : before.call c with
      | error failure => simp [Except.bind, Except.map, hcall]
      | ok answer => simp [Except.bind, Except.map, hcall, Prod.ext_iff]

/-- **What calls have told is recorded.** -/
theorem records_of_after (h : empty.after history = .ok spec) : spec.Records history := by
  induction history using List.reverseRecOn generalizing spec with
  | nil =>
      obtain rfl := Except.ok.inj h
      exact records_empty
  | append_singleton history c ih =>
      obtain ⟨before, number, hbefore, hcall⟩ := after_concat_eq_ok_iff.mp h
      exact ((ih hbefore).call hcall).1

end Specification

end ScenarioFsp
