import ScenarioFsp.Proofs.Closure
import ScenarioFsp.Proofs.Flow.Walks

/-!
# Points and the links between them

A component's relation is built from names. Read in terms of scenarios it links
the beginning and the end of each to what the flow graph and the lifelines say
about them (`Links`). Since the beginning of a scenario, its end, a condition and
`Init` are never named alike, each link can be told by the points it joins.
-/

namespace ScenarioFsp

open ScenarioFsp.Symbol (beginOf endOf ofCondition)

/-! ## Points are told apart by their names -/

namespace Symbol

theorem beginOf_inj {a b : String} : beginOf a = beginOf b ↔ a = b :=
  String.append_right_inj _

theorem endOf_inj {a b : String} : endOf a = endOf b ↔ a = b :=
  String.append_right_inj _

theorem beginOf_ne_endOf (a b : String) : beginOf a ≠ endOf b := by
  intro h
  have hchars := congrArg String.toList h
  simp [beginOf, endOf] at hchars

theorem ofCondition_init : ofCondition Symbol.init = Symbol.init := if_pos (Or.inl rfl)

theorem ofCondition_final : ofCondition Symbol.final = Symbol.final := if_pos (Or.inr rfl)

theorem beginOf_ne_ofCondition (a label : String) : beginOf a ≠ ofCondition label := by
  intro h
  have hchars := congrArg String.toList h
  unfold ofCondition at hchars
  split at hchars
  · rename_i hlabel
    rcases hlabel with rfl | rfl
    · simp [beginOf, Symbol.init] at hchars
    · simp [beginOf, Symbol.final] at hchars
  · simp [beginOf] at hchars

theorem endOf_ne_ofCondition (a label : String) : endOf a ≠ ofCondition label := by
  intro h
  have hchars := congrArg String.toList h
  unfold ofCondition at hchars
  split at hchars
  · rename_i hlabel
    rcases hlabel with rfl | rfl
    · simp [endOf, Symbol.init] at hchars
    · simp [endOf, Symbol.final] at hchars
  · simp [endOf] at hchars

theorem beginOf_ne_init (a : String) : beginOf a ≠ Symbol.init := by
  rw [← ofCondition_init]
  exact beginOf_ne_ofCondition a _

theorem endOf_ne_init (a : String) : endOf a ≠ Symbol.init := by
  rw [← ofCondition_init]
  exact endOf_ne_ofCondition a _

theorem beginOf_ne_final (a : String) : beginOf a ≠ Symbol.final := by
  rw [← ofCondition_final]
  exact beginOf_ne_ofCondition a _

theorem endOf_ne_final (a : String) : endOf a ≠ Symbol.final := by
  rw [← ofCondition_final]
  exact endOf_ne_ofCondition a _

/-- Only the condition `Final` stands for `Final`. -/
theorem ofCondition_eq_final_iff {label : String} :
    ofCondition label = Symbol.final ↔ label = Symbol.final := by
  unfold ofCondition
  refine ⟨fun h => ?_, fun h => ?_⟩
  · split at h
    · exact h
    · have hchars := congrArg String.toList h
      simp [Symbol.final] at hchars
  · rw [if_pos (Or.inr h)]
    exact h

end Symbol

/-! ## Links -/

namespace Lifeline

theorem mem_aliases_iff {scenario : String} {events : Lifeline} {a b : Symbol} :
    (a, b) ∈ events.aliases scenario ↔
      (events = [] ∧ a = endOf scenario ∧ b = beginOf scenario) ∨
      (∃ point, events.opening? = some point ∧
        ((a = point ∧ b = beginOf scenario) ∨ (a = beginOf scenario ∧ b = point))) ∨
      (∃ point, events.closing? = some point ∧
        ((a = endOf scenario ∧ b = point) ∨ (a = point ∧ b = endOf scenario))) := by
  cases events with
  | nil => simp [aliases, opening?, closing?]
  | cons e rest =>
      unfold aliases
      rw [if_neg (by simp)]
      generalize opening? (e :: rest) = o
      generalize closing? (e :: rest) = cl
      cases o with
      | none => cases cl with
        | none => simp
        | some point => simp
      | some point => cases cl with
        | none => simp
        | some point' => simp [or_assoc]

theorem aliases_of_opening {scenario : String} {events : Lifeline} {point : Symbol}
    (h : events.opening? = some point) :
    (point, beginOf scenario) ∈ events.aliases scenario ∧
      (beginOf scenario, point) ∈ events.aliases scenario :=
  ⟨mem_aliases_iff.mpr (Or.inr (Or.inl ⟨point, h, Or.inl ⟨rfl, rfl⟩⟩)),
    mem_aliases_iff.mpr (Or.inr (Or.inl ⟨point, h, Or.inr ⟨rfl, rfl⟩⟩))⟩

theorem aliases_of_closing {scenario : String} {events : Lifeline} {point : Symbol}
    (h : events.closing? = some point) :
    (endOf scenario, point) ∈ events.aliases scenario ∧
      (point, endOf scenario) ∈ events.aliases scenario :=
  ⟨mem_aliases_iff.mpr (Or.inr (Or.inr ⟨point, h, Or.inl ⟨rfl, rfl⟩⟩)),
    mem_aliases_iff.mpr (Or.inr (Or.inr ⟨point, h, Or.inr ⟨rfl, rfl⟩⟩))⟩

/-- An alias can be read both ways, unless the lifeline is empty. -/
theorem aliases_cases {scenario : String} {events : Lifeline} {a b : Symbol}
    (h : (a, b) ∈ events.aliases scenario) :
    (events = [] ∧ a = endOf scenario ∧ b = beginOf scenario) ∨
      (b, a) ∈ events.aliases scenario := by
  rcases mem_aliases_iff.mp h with hempty | ⟨point, hopen, ⟨rfl, rfl⟩ | ⟨rfl, rfl⟩⟩ |
    ⟨point, hclose, ⟨rfl, rfl⟩ | ⟨rfl, rfl⟩⟩
  · exact Or.inl hempty
  · exact Or.inr (aliases_of_opening hopen).2
  · exact Or.inr (aliases_of_opening hopen).1
  · exact Or.inr (aliases_of_closing hclose).2
  · exact Or.inr (aliases_of_closing hclose).1

end Lifeline

namespace Specification

variable {spec : Specification} {c : Component}

/-! ## What the flow graph relates -/

/-- What the flow graph has that relates two points. -/
inductive Way where
  | atBegin (id : ScenarioId)
  | atEnd (id : ScenarioId)
  | edge (e : Edge)
  | initial (id : ScenarioId)
  | final (id : ScenarioId)
  | atInit
deriving DecidableEq, Repr

/-- Whether it is there: a declared scenario, an edge, a mark. -/
def Has (spec : Specification) : Way → Prop
  | .atBegin id => spec.declares id = true
  | .atEnd id => spec.declares id = true
  | .edge e => e ∈ spec.edges
  | .initial id => id ∈ spec.initial
  | .final id => id ∈ spec.finals
  | .atInit => True

/-- The points that it relates. -/
def ends (spec : Specification) : Way → Symbol × Symbol
  | .atBegin id => (beginOf (spec.nameOf id), beginOf (spec.nameOf id))
  | .atEnd id => (endOf (spec.nameOf id), endOf (spec.nameOf id))
  | .edge e => (beginOf (spec.nameOf e.target), endOf (spec.nameOf e.source))
  | .initial id => (beginOf (spec.nameOf id), Symbol.init)
  | .final id => (Symbol.final, endOf (spec.nameOf id))
  | .atInit => (Symbol.init, Symbol.init)

theorem mem_commonPairs_iff {p : Symbol × Symbol} :
    p ∈ spec.commonPairs ↔ ∃ way, spec.Has way ∧ spec.ends way = p := by
  unfold commonPairs
  simp only [List.mem_append, List.mem_flatMap, List.mem_map, List.mem_cons, List.not_mem_nil,
    or_false, or_assoc]
  refine ⟨fun h => ?_, fun h => ?_⟩
  · rcases h with ⟨name, hname, hself⟩ | ⟨e, he, rfl⟩ | ⟨id, hid, rfl⟩ | ⟨id, hid, rfl⟩ | rfl
    · obtain ⟨id, hid, rfl⟩ := mem_scenarios_iff.mp hname
      rcases hself with rfl | rfl
      · exact ⟨.atBegin id, hid, rfl⟩
      · exact ⟨.atEnd id, hid, rfl⟩
    · exact ⟨.edge e, he, rfl⟩
    · exact ⟨.initial id, hid, rfl⟩
    · exact ⟨.final id, hid, rfl⟩
    · exact ⟨.atInit, trivial, rfl⟩
  · obtain ⟨way, hway, rfl⟩ := h
    cases way with
    | atBegin id => exact Or.inl ⟨_, mem_scenarios_iff.mpr ⟨id, hway, rfl⟩, Or.inl rfl⟩
    | atEnd id => exact Or.inl ⟨_, mem_scenarios_iff.mpr ⟨id, hway, rfl⟩, Or.inr rfl⟩
    | edge e => exact Or.inr (Or.inl ⟨e, hway, rfl⟩)
    | initial id => exact Or.inr (Or.inr (Or.inl ⟨id, hway, rfl⟩))
    | final id => exact Or.inr (Or.inr (Or.inr (Or.inl ⟨id, hway, rfl⟩)))
    | atInit => exact Or.inr (Or.inr (Or.inr (Or.inr rfl)))

/-! ## What a component relates -/

/-- What the flow graph and the lifelines of a component say about its points: what starts at the
first point may also start at the second. -/
inductive Links (spec : Specification) (c : Component) : Symbol → Symbol → Prop where
  | atBegin {id : ScenarioId} : spec.declares id = true →
      Links spec c (beginOf (spec.nameOf id)) (beginOf (spec.nameOf id))
  | atEnd {id : ScenarioId} : spec.declares id = true →
      Links spec c (endOf (spec.nameOf id)) (endOf (spec.nameOf id))
  | edge {s t : ScenarioId} : (⟨s, t⟩ : Edge) ∈ spec.edges →
      Links spec c (beginOf (spec.nameOf t)) (endOf (spec.nameOf s))
  | initial {id : ScenarioId} : id ∈ spec.initial →
      Links spec c (beginOf (spec.nameOf id)) Symbol.init
  | final {id : ScenarioId} : id ∈ spec.finals →
      Links spec c Symbol.final (endOf (spec.nameOf id))
  | atInit : Links spec c Symbol.init Symbol.init
  | shared {id : ScenarioId} {a b : Symbol} : spec.declares id = true →
      (a, b) ∈ (c.lifeline id).aliases (spec.nameOf id) → Links spec c a b

theorem links_of_mem_commonPairs {a b : Symbol} (h : (a, b) ∈ spec.commonPairs) :
    spec.Links c a b := by
  obtain ⟨way, hway, hends⟩ := mem_commonPairs_iff.mp h
  cases way <;> cases hends
  case atBegin id => exact .atBegin hway
  case atEnd id => exact .atEnd hway
  case edge e => exact .edge hway
  case initial id => exact .initial hway
  case final id => exact .final hway
  case atInit => exact .atInit

theorem Links.mem_pairs {a b : Symbol} (h : spec.Links c a b) :
    (a, b) ∈ spec.commonPairs ∨
      (a, b) ∈ (spec.lifelinesOf c).flatMap fun p => p.2.aliases p.1 := by
  rw [mem_commonPairs_iff]
  cases h with
  | atBegin hid => exact Or.inl ⟨.atBegin _, hid, rfl⟩
  | atEnd hid => exact Or.inl ⟨.atEnd _, hid, rfl⟩
  | edge he => exact Or.inl ⟨.edge _, he, rfl⟩
  | initial hid => exact Or.inl ⟨.initial _, hid, rfl⟩
  | final hid => exact Or.inl ⟨.final _, hid, rfl⟩
  | atInit => exact Or.inl ⟨.atInit, trivial, rfl⟩
  | shared hid hab =>
      exact Or.inr (List.mem_flatMap.mpr ⟨(_, _), mem_lifelinesOf_iff.mpr ⟨_, hid, rfl, rfl⟩, hab⟩)

/-- The base relation of a component consists of the links. -/
theorem relates_iff_links {a b : Symbol} :
    ((Relation.ofPairs spec.commonPairs).union
      (.ofPairs ((spec.lifelinesOf c).flatMap fun p => p.2.aliases p.1))).Relates a b ↔
      spec.Links c a b := by
  rw [Relation.relates_union_iff, Relation.relates_ofPairs_iff, Relation.relates_ofPairs_iff]
  refine ⟨fun h => ?_, Links.mem_pairs⟩
  rcases h with hcommon | halias
  · exact links_of_mem_commonPairs hcommon
  · obtain ⟨⟨name, events⟩, hmem, hab⟩ := List.mem_flatMap.mp halias
    obtain ⟨id, hid, rfl, rfl⟩ := mem_lifelinesOf_iff.mp hmem
    exact .shared hid hab

end Specification

end ScenarioFsp
