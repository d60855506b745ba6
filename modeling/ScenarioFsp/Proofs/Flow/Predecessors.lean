import Mathlib.Data.List.Nodup
import ScenarioFsp.Proofs.Flow.Points
import ScenarioFsp.Proofs.History
import ScenarioFsp.Proofs.Paths
import ScenarioFsp.Proofs.References

/-!
# The flow graph read backwards

The common relation leads from the beginning of a scenario to the ends of those that may come
before it. To have these at hand, all edges are first turned round into a table. Then the
relation is built in one go through the scenarios (`relateFlow`).

Every number that is met is looked up on the way, and most of them more than once. A loop of
such lookups fails at the first of its numbers that is not declared, and if there is none it
does what it would do without them (`foldlM_provided`). So of all the lookups only those in the
list of references can fail, and in the order of that list.

The relation holds a pair for each edge, for each mark and two for each scenario, and no pair for
two reasons (`Way`). If it is not built, the history of the specification tells which number is
to blame (`FirstDangling`).
-/

namespace ScenarioFsp

open ScenarioFsp.Symbol (beginOf endOf)

/-! ## The first of a list in order -/

section First

variable {α β : Type} {before : α → α → Prop} {l : List α}

/-- In a list in order the first that has a value is the one that has no other before it. -/
theorem findSome?_eq_some_iff_of_pairwise {f : α → Option β} {b : β} (hsorted : l.Pairwise before)
    (hasymm : ∀ x y, before x y → ¬before y x) :
    l.findSome? f = some b ↔ ∃ a ∈ l, (∀ x ∈ l, before x a → f x = none) ∧ f a = some b := by
  induction l with
  | nil => simp
  | cons y l ih =>
      obtain ⟨hy, hl⟩ := List.pairwise_cons.mp hsorted
      rw [List.findSome?_cons]
      cases hfy : f y with
      | some b' =>
          refine ⟨fun h => ⟨y, List.mem_cons_self, fun x hx hxy => ?_, hfy.trans h⟩, fun h => ?_⟩
          · -- nothing in the list comes before its head
            rcases List.mem_cons.mp hx with rfl | hx
            · exact absurd hxy (hasymm x x hxy)
            · exact absurd hxy (hasymm y x (hy x hx))
          · obtain ⟨a, ha, hearlier, hfa⟩ := h
            rcases List.mem_cons.mp ha with rfl | ha
            · exact hfy.symm.trans hfa
            · rw [hearlier y List.mem_cons_self (hy a ha)] at hfy
              exact absurd hfy (by simp)
      | none =>
          refine (ih hl).trans ⟨fun h => ?_, fun h => ?_⟩
          · obtain ⟨a, ha, hearlier, hfa⟩ := h
            exact ⟨a, List.mem_cons_of_mem y ha,
              List.forall_mem_cons.mpr ⟨fun _ => hfy, hearlier⟩, hfa⟩
          · obtain ⟨a, ha, hearlier, hfa⟩ := h
            rcases List.mem_cons.mp ha with rfl | ha
            · exact absurd (hfy.symm.trans hfa) (by simp)
            · exact ⟨a, ha, (List.forall_mem_cons.mp hearlier).2, hfa⟩

end First

namespace Specification

variable {spec : Specification}

/-! ## Lookups -/

/-- The name of a scenario, or a failure that tells where its number was met. -/
def lookUp (spec : Specification) (context : String) (id : ScenarioId) : Except Failure String :=
  match spec.scenario? id with
  | some name => .ok name
  | none => .error (.unknownScenario id context)

/-- The reference leads nowhere. -/
def dangles (spec : Specification) (r : ScenarioId × String) : Bool := !spec.declares r.1

/-- `a`, provided that all references are to declared scenarios; else the first that is not. -/
def provided {α : Type} (spec : Specification) (refs : List (ScenarioId × String)) (a : α) :
    Except Failure α :=
  match refs.find? spec.dangles with
  | some r => .error (.unknownScenario r.1 r.2)
  | none => .ok a

section Lookups

variable {α β : Type} {front middle back refs : List (ScenarioId × String)} {a b : α}

theorem find?_dangles_eq_none_iff :
    refs.find? spec.dangles = none ↔ ∀ r ∈ refs, spec.declares r.1 = true := by
  rw [List.find?_eq_none]
  exact forall₂_congr fun r _ => by simp [dangles]

theorem provided_eq_error_iff {failure : Failure} : spec.provided refs a = .error failure ↔
    ∃ id context, failure = .unknownScenario id context ∧
      refs.find? spec.dangles = some (id, context) := by
  unfold provided
  cases refs.find? spec.dangles with
  | none => simp
  | some r => simp [Prod.ext_iff, eq_comm]

theorem lookUp_eq (context : String) (id : ScenarioId) :
    spec.lookUp context id = spec.provided [(id, context)] (spec.nameOf id) := by
  unfold lookUp provided
  rw [List.find?_singleton]
  cases hid : spec.declares id with
  | true =>
      rw [scenario?_of_declares hid]
      simp [dangles, hid]
  | false =>
      have hnone : spec.scenario? id = none :=
        List.getElem?_eq_none (Nat.le_of_not_lt (of_decide_eq_false hid))
      rw [hnone]
      simp [dangles, hid]

theorem provided_bind {f : α → Except Failure β} {b : β} (h : f a = spec.provided back b) :
    (spec.provided front a >>= f) = spec.provided (front ++ back) b := by
  unfold provided at h ⊢
  rw [List.find?_append]
  cases hfront : front.find? spec.dangles with
  | some r => rfl
  | none => exact h

theorem provided_bind_pure {f : α → Except Failure β} {b : β} (h : f a = pure b) :
    (spec.provided refs a >>= f) = spec.provided refs b := by
  have hnone : f a = spec.provided [] b := h
  rw [provided_bind hnone, List.append_nil]

/-- **A loop of lookups** looks up all that its rounds do, and then does what they do. -/
theorem foldlM_provided {f : β → α → Except Failure β} {g : β → α → β}
    {refs : α → List (ScenarioId × String)} (h : ∀ b a, f b a = spec.provided (refs a) (g b a))
    (l : List α) (b : β) : l.foldlM f b = spec.provided (l.flatMap refs) (l.foldl g b) := by
  induction l generalizing b with
  | nil => rfl
  | cons a l ih =>
      rw [List.foldlM_cons, h, List.flatMap_cons, List.foldl_cons]
      exact provided_bind (ih (g b a))

/-- What has been found need not be looked up again. -/
theorem provided_skip
    (hmiddle : (∀ r ∈ front, spec.declares r.1 = true) → ∀ r ∈ middle, spec.declares r.1 = true)
    (hab : (∀ r ∈ front ++ back, spec.declares r.1 = true) → a = b) :
    spec.provided (front ++ (middle ++ back)) a = spec.provided (front ++ back) b := by
  unfold provided
  simp only [List.find?_append]
  cases hfront : front.find? spec.dangles with
  | some r => rfl
  | none =>
      rw [find?_dangles_eq_none_iff.mpr (hmiddle (find?_dangles_eq_none_iff.mp hfront))]
      cases hback : back.find? spec.dangles with
      | some r => rfl
      | none =>
          rw [hab]
          · rfl
          · exact List.forall_mem_append.mpr
              ⟨find?_dangles_eq_none_iff.mp hfront, find?_dangles_eq_none_iff.mp hback⟩

end Lookups

theorem commonRelation_eq_provided :
    spec.commonRelation = spec.provided spec.references (.ofPairs spec.commonPairs) := by
  unfold commonRelation dangling? provided
  show _ = match spec.references.find? (fun r => !spec.declares r.1) with
    | some r => _
    | none => _
  cases spec.references.find? fun r => !spec.declares r.1 <;> rfl

/-- What is looked up for an edge. -/
def edgeReferences (spec : Specification) (e : Edge) : List (ScenarioId × String) :=
  [(e.source, "continuation graph"), (e.target, s!"continuation of {spec.nameOf e.source}")]

/-- Both ends of the edge are declared. -/
def Joins (spec : Specification) (e : Edge) : Prop :=
  spec.declares e.source = true ∧ spec.declares e.target = true

instance (e : Edge) : Decidable (spec.Joins e) := inferInstanceAs (Decidable (_ ∧ _))

theorem forall_edgeReferences_iff {e : Edge} :
    (∀ r ∈ spec.edgeReferences e, spec.declares r.1 = true) ↔ spec.Joins e := by
  simp [edgeReferences, Joins]

theorem references_eq : spec.references = spec.edges.flatMap spec.edgeReferences ++
    (spec.initial.flatMap (fun id => [(id, "initial scenarios")]) ++
      spec.finals.flatMap fun id => [(id, "final scenarios")]) := by
  unfold references
  rw [List.append_assoc, List.map_eq_flatMap, List.map_eq_flatMap]
  rfl

end Specification

/-! ## The table of predecessors -/

/-- For each scenario those that may come directly before it. -/
abbrev Predecessors := OrderedMap ScenarioId (OrderedSet ScenarioId)

namespace Predecessors

variable {m : Predecessors} {s t : ScenarioId}

/-- What may come before a scenario, nothing if there is no entry for it. -/
def before (m : Predecessors) (id : ScenarioId) : OrderedSet ScenarioId := (m.get? id).getD .empty

/-- Turns an edge round. -/
def add (m : Predecessors) (e : Edge) : Predecessors :=
  m.insert e.target ((before m e.target).insert e.source)

/-- An entry for every scenario, with nothing before it. -/
def start (spec : Specification) : Predecessors where
  entries := spec.scenarioIds.map fun id => (id, .empty)
  sorted := List.pairwise_map.mpr (List.pairwise_map.mpr
    (List.pairwise_lt_range.imp fun h => Nat.blt_eq.mpr h))

theorem keys_start (spec : Specification) : (start spec).keys = spec.scenarioIds := by
  simp [OrderedMap.keys, start, Function.comp_def]

theorem not_mem_before_start (spec : Specification) : s ∉ before (start spec) t := by
  unfold before
  cases hget : (start spec).get? t with
  | none => exact List.not_mem_nil
  | some sources =>
      obtain ⟨id, -, heq⟩ := List.mem_map.mp (OrderedMap.get?_eq_some_iff.mp hget)
      rw [← (Prod.mk.inj heq).2]
      exact List.not_mem_nil

/-- **One edge** puts its source before its target. -/
theorem mem_before_add {e : Edge} : s ∈ before (add m e) t ↔ ⟨s, t⟩ = e ∨ s ∈ before m t := by
  obtain ⟨source, target⟩ := e
  unfold before add
  rw [OrderedMap.get?_insert, Edge.mk.injEq]
  split
  · rename_i htarget
    rw [Option.getD_some, OrderedSet.mem_insert, htarget, eq_self, and_true]
    rfl
  · rename_i htarget
    exact (or_iff_right fun h => htarget h.2).symm

/-- **All edges** together put before a scenario what they lead from. -/
theorem mem_before_foldl {l : List Edge} :
    s ∈ before (l.foldl add m) t ↔ ⟨s, t⟩ ∈ l ∨ s ∈ before m t := by
  induction l generalizing m with
  | nil => simp
  | cons e l ih => rw [List.foldl_cons, ih, mem_before_add, List.mem_cons, or_left_comm, or_assoc]

theorem mem_keys_foldl {l : List Edge} :
    t ∈ (l.foldl add m).keys ↔ (∃ e ∈ l, t = e.target) ∨ t ∈ m.keys := by
  induction l generalizing m with
  | nil => simp
  | cons e l ih =>
      rw [List.foldl_cons, ih]
      unfold add
      rw [OrderedMap.mem_keys_insert, List.exists_mem_cons_iff, or_left_comm, or_assoc]

theorem mem_entries_iff {sources : OrderedSet ScenarioId} :
    (t, sources) ∈ m.entries ↔ t ∈ m.keys ∧ sources = before m t := by
  unfold before
  rw [← OrderedMap.get?_eq_some_iff, OrderedMap.mem_keys_iff, OrderedMap.hasKey]
  cases m.get? t with
  | none => simp
  | some found => simp [eq_comm]

end Predecessors

namespace Specification

variable {spec : Specification} {history : List Call}

/-- Turns an edge round as soon as both ends have been found. -/
def precede (spec : Specification) (m : Predecessors) (e : Edge) :
    Except Failure Predecessors := do
  let source ← spec.lookUp "continuation graph" e.source
  let _ ← spec.lookUp s!"continuation of {source}" e.target
  return Predecessors.add m e

/-- All edges turned round. -/
def predecessors (spec : Specification) : Predecessors :=
  spec.edges.foldl Predecessors.add (.start spec)

/-! ## Building the relation -/

/-- Adds what holds of one scenario: that it begins where it begins and ends where it ends, and
begins where others end, or at `Init`. -/
def relateScenario (spec : Specification) (r : Relation)
    (entry : ScenarioId × OrderedSet ScenarioId) : Except Failure Relation := do
  let name ← spec.lookUp "continuation graph" entry.1
  let r := (r.add (beginOf name) (beginOf name)).add (endOf name) (endOf name)
  let r ← entry.2.toList.foldlM (fun r id => do
    let earlier ← spec.lookUp "continuation graph" id
    return r.add (beginOf name) (endOf earlier)) r
  return if spec.isInitial entry.1 then r.add (beginOf name) Symbol.init else r

/-- The common relation, built scenario by scenario from the table of predecessors. -/
def relateFlow (spec : Specification) : Except Failure Relation := do
  let table ← spec.edges.foldlM spec.precede (.start spec)
  let r ← table.entries.foldlM spec.relateScenario .empty
  let r ← spec.initial.foldlM (fun r id => do
    let _ ← spec.lookUp "initial scenarios" id
    return r) r
  let r ← spec.finals.foldlM (fun r id => do
    let name ← spec.lookUp "final scenarios" id
    return r.add Symbol.final (endOf name)) r
  return r.add Symbol.init Symbol.init

/-! ### What is looked up and what is added -/

/-- Adds some pairs one after the other. -/
def addPairs (r : Relation) (l : List (Symbol × Symbol)) : Relation :=
  l.foldl (fun r p => r.add p.1 p.2) r

/-- What is looked up for an entry of the table. -/
def entryReferences (entry : ScenarioId × OrderedSet ScenarioId) : List (ScenarioId × String) :=
  (entry.1 :: entry.2.toList).flatMap fun id => [(id, "continuation graph")]

/-- The pairs that an entry of the table adds. -/
def entryPairs (spec : Specification) (entry : ScenarioId × OrderedSet ScenarioId) :
    List (Symbol × Symbol) :=
  [(beginOf (spec.nameOf entry.1), beginOf (spec.nameOf entry.1)),
    (endOf (spec.nameOf entry.1), endOf (spec.nameOf entry.1))] ++
  ((entry.2.toList.flatMap fun id => [(beginOf (spec.nameOf entry.1), endOf (spec.nameOf id))]) ++
  if spec.isInitial entry.1 then [(beginOf (spec.nameOf entry.1), Symbol.init)] else [])

/-- A loop that looks up scenarios and adds pairs. -/
theorem foldlM_addPairs {α : Type} {f : Relation → α → Except Failure Relation}
    {refs : α → List (ScenarioId × String)} {pairs : α → List (Symbol × Symbol)}
    (h : ∀ r a, f r a = spec.provided (refs a) (addPairs r (pairs a))) (l : List α) (r : Relation) :
    l.foldlM f r = spec.provided (l.flatMap refs) (addPairs r (l.flatMap pairs)) := by
  rw [foldlM_provided h]
  unfold addPairs
  rw [List.foldl_flatMap]

theorem precede_eq (m : Predecessors) (e : Edge) :
    spec.precede m e = spec.provided (spec.edgeReferences e) (Predecessors.add m e) := by
  unfold precede
  rw [lookUp_eq]
  refine provided_bind ?_
  rw [lookUp_eq]
  exact provided_bind_pure rfl

theorem relateScenario_eq (r : Relation) (entry : ScenarioId × OrderedSet ScenarioId) :
    spec.relateScenario r entry =
      spec.provided (entryReferences entry) (addPairs r (spec.entryPairs entry)) := by
  have hearlier : ∀ (r : Relation) (id : ScenarioId),
      (do let earlier ← spec.lookUp "continuation graph" id
          return r.add (beginOf (spec.nameOf entry.1)) (endOf earlier)) =
        spec.provided [(id, "continuation graph")]
          (addPairs r [(beginOf (spec.nameOf entry.1), endOf (spec.nameOf id))]) := by
    intro r id
    rw [lookUp_eq]
    exact provided_bind_pure rfl
  unfold relateScenario entryReferences
  rw [lookUp_eq, List.flatMap_cons]
  refine provided_bind ?_
  simp only [foldlM_addPairs hearlier]
  refine provided_bind_pure (congrArg pure ?_)
  unfold entryPairs addPairs
  rw [List.foldl_append, List.foldl_append]
  split <;> rfl

/-- The pairs of the whole flow graph. -/
def flowPairs (spec : Specification) : List (Symbol × Symbol) :=
  spec.predecessors.entries.flatMap spec.entryPairs ++
    (spec.finals.flatMap (fun id => [(Symbol.final, endOf (spec.nameOf id))]) ++
      [(Symbol.init, Symbol.init)])

theorem relateFlow_eq : spec.relateFlow = spec.provided
    (spec.edges.flatMap spec.edgeReferences ++
      (spec.predecessors.entries.flatMap entryReferences ++
        (spec.initial.flatMap (fun id => [(id, "initial scenarios")]) ++
          spec.finals.flatMap fun id => [(id, "final scenarios")])))
    (Relation.ofAdds spec.flowPairs) := by
  have hinitial : ∀ (r : Relation) (id : ScenarioId),
      (do let _ ← spec.lookUp "initial scenarios" id
          return r) = spec.provided [(id, "initial scenarios")] r := by
    intro r id
    rw [lookUp_eq]
    exact provided_bind_pure rfl
  have hfinals : ∀ (r : Relation) (id : ScenarioId),
      (do let name ← spec.lookUp "final scenarios" id
          return r.add Symbol.final (endOf name)) =
        spec.provided [(id, "final scenarios")]
          (addPairs r [(Symbol.final, endOf (spec.nameOf id))]) := by
    intro r id
    rw [lookUp_eq]
    exact provided_bind_pure rfl
  unfold relateFlow
  rw [foldlM_provided precede_eq]
  refine provided_bind ?_
  rw [foldlM_addPairs relateScenario_eq]
  refine provided_bind ?_
  rw [foldlM_provided hinitial, List.foldl_fixed]
  refine provided_bind ?_
  rw [foldlM_addPairs hfinals]
  refine provided_bind_pure (congrArg pure ?_)
  unfold Relation.ofAdds flowPairs addPairs
  rw [List.foldl_append, List.foldl_append]
  rfl

/-! ## The pairs of the relation are all different -/

/-- **No pair has two reasons.** -/
theorem ends_inj (hdeclared : ∀ r ∈ spec.references, spec.declares r.1 = true) {way way' : Way}
    (hway : spec.Has way) (hway' : spec.Has way') (h : spec.ends way = spec.ends way') :
    way = way' := by
  obtain ⟨hedges, hinitial, hfinals⟩ := forall_references_iff.mp hdeclared
  -- the two points of a pair tell its kind, and their names tell the numbers
  cases way <;> cases way' <;>
    simp only [ends, Prod.mk.injEq, Symbol.beginOf_inj, Symbol.endOf_inj, Symbol.beginOf_ne_endOf,
      (Symbol.beginOf_ne_endOf _ _).symm, Symbol.beginOf_ne_init, (Symbol.beginOf_ne_init _).symm,
      Symbol.endOf_ne_init, (Symbol.endOf_ne_init _).symm, Symbol.beginOf_ne_final,
      (Symbol.beginOf_ne_final _).symm, Symbol.endOf_ne_final, (Symbol.endOf_ne_final _).symm,
      and_self, and_true, true_and, and_false, false_and] at h
  case atBegin.atBegin => exact congrArg Way.atBegin (nameOf_inj hway hway' h)
  case atEnd.atEnd => exact congrArg Way.atEnd (nameOf_inj hway hway' h)
  case edge.edge e f =>
    obtain ⟨s, t⟩ := e
    obtain ⟨s', t'⟩ := f
    obtain rfl : s = s' := nameOf_inj (hedges _ hway).1 (hedges _ hway').1 h.2
    obtain rfl : t = t' := nameOf_inj (hedges _ hway).2 (hedges _ hway').2 h.1
    rfl
  case initial.initial id id' =>
    exact congrArg Way.initial (nameOf_inj (hinitial id hway) (hinitial id' hway') h)
  case final.final id id' =>
    exact congrArg Way.final (nameOf_inj (hfinals id hway) (hfinals id' hway') h)
  case atInit.atInit => rfl

/-- The ends of scenarios, `Init` and `Final` are different points. -/
theorem nodup_points (spec : Specification) :
    (Symbol.init :: Symbol.final :: spec.scenarios.flatMap fun name =>
      [beginOf name, endOf name]).Nodup := by
  have hends : (spec.scenarios.flatMap fun name => [beginOf name, endOf name]).Nodup := by
    refine List.nodup_flatMap.mpr ⟨fun name _ => ?_, ?_⟩
    · simpa using Symbol.beginOf_ne_endOf name name
    · refine spec.scenarios_nodup.imp fun {name name'} hne => ?_
      simp [Function.onFun, Symbol.beginOf_inj, Symbol.endOf_inj, Symbol.beginOf_ne_endOf,
        (Symbol.beginOf_ne_endOf _ _).symm, Ne.symm hne]
  have hne : Symbol.init ≠ Symbol.final := by decide
  refine List.nodup_cons.mpr ⟨?_, List.nodup_cons.mpr ⟨?_, hends⟩⟩
  · simp [(Symbol.beginOf_ne_init _).symm, (Symbol.endOf_ne_init _).symm, hne]
  · simp [(Symbol.beginOf_ne_final _).symm, (Symbol.endOf_ne_final _).symm]

/-! ## Both give the same relation -/

theorem mem_predecessors_iff {s t : ScenarioId} :
    s ∈ Predecessors.before spec.predecessors t ↔ ⟨s, t⟩ ∈ spec.edges := by
  unfold predecessors
  rw [Predecessors.mem_before_foldl]
  exact or_iff_left (Predecessors.not_mem_before_start spec)

theorem mem_keys_predecessors_iff {t : ScenarioId} : t ∈ spec.predecessors.keys ↔
    (∃ e ∈ spec.edges, t = e.target) ∨ spec.declares t = true := by
  unfold predecessors
  rw [Predecessors.mem_keys_foldl, Predecessors.keys_start, mem_scenarioIds_iff]

theorem declares_of_mem_keys_predecessors (hedges : ∀ e ∈ spec.edges, spec.Joins e)
    {t : ScenarioId} (h : t ∈ spec.predecessors.keys) : spec.declares t = true := by
  rcases mem_keys_predecessors_iff.mp h with ⟨e, he, rfl⟩ | hdecl
  · exact (hedges e he).2
  · exact hdecl

/-- What is looked up for the entries has been looked up for the edges, or is declared. -/
theorem declares_of_mem_entryReferences (hedges : ∀ e ∈ spec.edges, spec.Joins e)
    {r : ScenarioId × String} (h : r ∈ spec.predecessors.entries.flatMap entryReferences) :
    spec.declares r.1 = true := by
  obtain ⟨⟨id, sources⟩, hentry, hr⟩ := List.mem_flatMap.mp h
  obtain ⟨hkey, rfl⟩ := Predecessors.mem_entries_iff.mp hentry
  obtain ⟨s, hs, hr⟩ := List.mem_flatMap.mp hr
  rw [List.mem_singleton.mp hr]
  rcases List.mem_cons.mp hs with rfl | hs
  · exact declares_of_mem_keys_predecessors hedges hkey
  · exact (hedges _ (mem_predecessors_iff.mp hs)).1

theorem mem_entryPairs_iff {id : ScenarioId} {sources : OrderedSet ScenarioId}
    {p : Symbol × Symbol} : p ∈ spec.entryPairs (id, sources) ↔
      p = spec.ends (.atBegin id) ∨ p = spec.ends (.atEnd id) ∨
        (∃ s ∈ sources, p = spec.ends (.edge ⟨s, id⟩)) ∨
        id ∈ spec.initial ∧ p = spec.ends (.initial id) := by
  unfold entryPairs isInitial
  simp only [List.mem_append, List.mem_cons, List.not_mem_nil, or_false, List.mem_flatMap,
    List.mem_ite_nil_right, decide_eq_true_eq, or_assoc]
  rfl

/-- Built scenario by scenario, the relation has the pairs of the flow graph. -/
theorem mem_flowPairs_iff (hdeclared : ∀ r ∈ spec.references, spec.declares r.1 = true)
    {p : Symbol × Symbol} : p ∈ spec.flowPairs ↔ ∃ way, spec.Has way ∧ spec.ends way = p := by
  obtain ⟨hedges, hinitial, -⟩ := forall_references_iff.mp hdeclared
  have hentry : ∀ {id : ScenarioId} {sources : OrderedSet ScenarioId},
      (id, sources) ∈ spec.predecessors.entries ↔
        spec.declares id = true ∧ sources = Predecessors.before spec.predecessors id := by
    intro id sources
    rw [Predecessors.mem_entries_iff]
    exact and_congr_left' ⟨declares_of_mem_keys_predecessors hedges,
      fun hid => mem_keys_predecessors_iff.mpr (Or.inr hid)⟩
  have hscenario : ∀ {id : ScenarioId} {p : Symbol × Symbol}, spec.declares id = true →
      p ∈ spec.entryPairs (id, Predecessors.before spec.predecessors id) →
        ∃ entry ∈ spec.predecessors.entries, p ∈ spec.entryPairs entry :=
    fun hid hp => ⟨_, hentry.mpr ⟨hid, rfl⟩, hp⟩
  unfold flowPairs
  simp only [List.mem_append, List.mem_flatMap, List.mem_singleton]
  refine ⟨fun h => ?_, fun h => ?_⟩
  · rcases h with ⟨⟨id, sources⟩, hmem, hp⟩ | ⟨id, hid, rfl⟩ | rfl
    · obtain ⟨hid, rfl⟩ := hentry.mp hmem
      rcases mem_entryPairs_iff.mp hp with rfl | rfl | ⟨s, hs, rfl⟩ | ⟨hmark, rfl⟩
      · exact ⟨.atBegin id, hid, rfl⟩
      · exact ⟨.atEnd id, hid, rfl⟩
      · exact ⟨.edge ⟨s, id⟩, mem_predecessors_iff.mp hs, rfl⟩
      · exact ⟨.initial id, hmark, rfl⟩
    · exact ⟨.final id, hid, rfl⟩
    · exact ⟨.atInit, trivial, rfl⟩
  · obtain ⟨way, hway, rfl⟩ := h
    cases way with
    | atBegin id => exact Or.inl (hscenario hway (mem_entryPairs_iff.mpr (Or.inl rfl)))
    | atEnd id => exact Or.inl (hscenario hway (mem_entryPairs_iff.mpr (Or.inr (Or.inl rfl))))
    | edge e =>
        have hs := mem_predecessors_iff.mpr hway
        exact Or.inl (hscenario (hedges e hway).2
          (mem_entryPairs_iff.mpr (Or.inr (Or.inr (Or.inl ⟨e.source, hs, rfl⟩)))))
    | initial id =>
        exact Or.inl (hscenario (hinitial id hway)
          (mem_entryPairs_iff.mpr (Or.inr (Or.inr (Or.inr ⟨hway, rfl⟩)))))
    | final id => exact Or.inr (Or.inl ⟨id, hway, rfl⟩)
    | atInit => exact Or.inr (Or.inr rfl)

/-- **Built scenario by scenario, the relation is the common one**, and it fails alike. -/
theorem relateFlow_eq_commonRelation (spec : Specification) :
    spec.relateFlow = spec.commonRelation := by
  rw [relateFlow_eq, commonRelation_eq_provided, references_eq]
  refine provided_skip (fun hfront r hr => ?_) fun hdeclared => ?_
  · refine declares_of_mem_entryReferences (fun e he => ?_) hr
    exact forall_edgeReferences_iff.mp fun r hr => hfront r (List.mem_flatMap.mpr ⟨e, he, hr⟩)
  · rw [← references_eq] at hdeclared
    refine Relation.ext_relates fun a b => ?_
    rw [Relation.relates_ofAdds_iff, Relation.relates_ofPairs_iff, mem_flowPairs_iff hdeclared,
      mem_commonPairs_iff]

/-! ## The first reference that leads nowhere -/

/-- **The number that is to blame**, with the words for where it was met. Edges are looked at by
their source, those of the same source in the order in which they were added, and their source is
looked at before their target; then the initial marks and then the final ones, in the order in
which they were added. -/
inductive FirstDangling (spec : Specification) (history : List Call) : ScenarioId → String → Prop
  where
  | source {e : Edge} : e ∈ spec.edges →
      (∀ f ∈ spec.edges, Edge.Precedes (history.filterMap Call.edge?) f e → spec.Joins f) →
      spec.declares e.source = false →
      FirstDangling spec history e.source "continuation graph"
  | target {e : Edge} : e ∈ spec.edges →
      (∀ f ∈ spec.edges, Edge.Precedes (history.filterMap Call.edge?) f e → spec.Joins f) →
      spec.declares e.source = true → spec.declares e.target = false →
      FirstDangling spec history e.target s!"continuation of {spec.nameOf e.source}"
  | initial {id : ScenarioId} : (∀ e ∈ spec.edges, spec.Joins e) → id ∈ spec.initial →
      (∀ i ∈ spec.initial, AddedBefore (history.filterMap Call.initial?) i id →
        spec.declares i = true) →
      spec.declares id = false → FirstDangling spec history id "initial scenarios"
  | final {id : ScenarioId} : (∀ e ∈ spec.edges, spec.Joins e) →
      (∀ i ∈ spec.initial, spec.declares i = true) → id ∈ spec.finals →
      (∀ i ∈ spec.finals, AddedBefore (history.filterMap Call.final?) i id →
        spec.declares i = true) →
      spec.declares id = false → FirstDangling spec history id "final scenarios"

theorem find?_edgeReferences_eq_some_iff {e : Edge} {id : ScenarioId} {context : String} :
    (spec.edgeReferences e).find? spec.dangles = some (id, context) ↔
      (spec.declares e.source = false ∧ e.source = id ∧ "continuation graph" = context) ∨
        (spec.declares e.source = true ∧ spec.declares e.target = false ∧ e.target = id ∧
          s!"continuation of {spec.nameOf e.source}" = context) := by
  unfold edgeReferences
  rw [List.find?_cons, List.find?_singleton]
  cases hsource : spec.declares e.source <;> cases htarget : spec.declares e.target <;>
    simp [dangles, hsource, htarget]

theorem find?_mark_eq_some_iff {place context : String} {i id : ScenarioId} :
    [(i, place)].find? spec.dangles = some (id, context) ↔
      spec.declares i = false ∧ i = id ∧ place = context := by
  rw [List.find?_singleton]
  cases hi : spec.declares i <;> simp [dangles, hi]

/-- The marks at one place, looked up in the order in which they were added. -/
theorem find?_marks_eq_some_iff {place context : String} {added marks : List ScenarioId}
    {id : ScenarioId} (h : ListsOnce added marks (AddedBefore added)) :
    (marks.flatMap fun i => [(i, place)]).find? spec.dangles = some (id, context) ↔
      place = context ∧ id ∈ marks ∧
        (∀ i ∈ marks, AddedBefore added i id → spec.declares i = true) ∧
        spec.declares id = false := by
  rw [List.find?_flatMap, findSome?_eq_some_iff_of_pairwise h.ordered fun _ _ => Nat.lt_asymm]
  simp only [find?_mark_eq_some_iff, find?_dangles_eq_none_iff, List.forall_mem_singleton]
  refine ⟨fun hfound => ?_, fun hfound => ?_⟩
  · obtain ⟨i, hi, hearlier, hnot, rfl, hplace⟩ := hfound
    exact ⟨hplace, hi, hearlier, hnot⟩
  · obtain ⟨hplace, hid, hearlier, hnot⟩ := hfound
    exact ⟨id, hid, hearlier, hnot, rfl, hplace⟩

/-- **The first reference that leads nowhere** is the one to a number that is to blame. -/
theorem find?_references_eq_some_iff (h : spec.Records history) {id : ScenarioId}
    {context : String} : spec.references.find? spec.dangles = some (id, context) ↔
      FirstDangling spec history id context := by
  have hedges : (spec.edges.flatMap spec.edgeReferences).find? spec.dangles = none ↔
      ∀ e ∈ spec.edges, spec.Joins e := by
    simp only [find?_dangles_eq_none_iff, List.forall_mem_flatMap, forall_edgeReferences_iff]
  have hinitial : (spec.initial.flatMap fun id => [(id, "initial scenarios")]).find? spec.dangles =
      none ↔ ∀ i ∈ spec.initial, spec.declares i = true := by
    simp only [find?_dangles_eq_none_iff, List.forall_mem_flatMap, List.forall_mem_singleton]
  have hfirst : (spec.edges.flatMap spec.edgeReferences).find? spec.dangles = some (id, context) ↔
      ∃ e ∈ spec.edges,
        (∀ f ∈ spec.edges, Edge.Precedes (history.filterMap Call.edge?) f e → spec.Joins f) ∧
          (spec.edgeReferences e).find? spec.dangles = some (id, context) := by
    rw [List.find?_flatMap, findSome?_eq_some_iff_of_pairwise h.edges.ordered
      fun _ _ => Edge.Precedes.asymm]
    simp only [find?_dangles_eq_none_iff, forall_edgeReferences_iff]
  rw [references_eq, List.find?_append, List.find?_append, Option.or_eq_some_iff,
    Option.or_eq_some_iff, hedges, hinitial, hfirst, find?_marks_eq_some_iff h.initial,
    find?_marks_eq_some_iff h.finals]
  refine ⟨fun hfound => ?_, fun hblame => ?_⟩
  · rcases hfound with ⟨e, he, hearlier, hfound⟩ |
      ⟨hjoins, ⟨rfl, hid, hearlier, hnot⟩ | ⟨hmarks, rfl, hid, hearlier, hnot⟩⟩
    · rcases find?_edgeReferences_eq_some_iff.mp hfound with
        ⟨hnot, rfl, rfl⟩ | ⟨hsource, hnot, rfl, rfl⟩
      · exact .source he hearlier hnot
      · exact .target he hearlier hsource hnot
    · exact .initial hjoins hid hearlier hnot
    · exact .final hjoins hmarks hid hearlier hnot
  · cases hblame with
    | source he hearlier hnot =>
        exact Or.inl ⟨_, he, hearlier,
          find?_edgeReferences_eq_some_iff.mpr (Or.inl ⟨hnot, rfl, rfl⟩)⟩
    | target he hearlier hsource hnot =>
        exact Or.inl ⟨_, he, hearlier,
          find?_edgeReferences_eq_some_iff.mpr (Or.inr ⟨hsource, hnot, rfl, rfl⟩)⟩
    | initial hjoins hid hearlier hnot =>
        exact Or.inr ⟨hjoins, Or.inl ⟨rfl, hid, hearlier, hnot⟩⟩
    | final hjoins hmarks hid hearlier hnot =>
        exact Or.inr ⟨hjoins, Or.inr ⟨hmarks, rfl, hid, hearlier, hnot⟩⟩

/--
**The common relation is the flow graph read backwards.** For every specification that calls
have told, it is what is built scenario by scenario from the table of predecessors. There is
such a relation if and only if the ends of all edges and all marks are declared. Then it holds
the pairs of the declared scenarios, the edges, the marks and `Init`, each of them for one reason
only, as the ends of scenarios, `Init` and `Final` are different points. Else the failure is
about the first number that is not declared, edges before initial marks before final ones.
-/
theorem commonRelation_reads_backwards {spec : Specification} {history : List Call}
    (h : empty.after history = .ok spec) :
    spec.relateFlow = spec.commonRelation ∧
      ((∃ r, spec.commonRelation = .ok r) ↔ (∀ e ∈ spec.edges, spec.Joins e) ∧
        (∀ id ∈ spec.initial, spec.declares id = true) ∧
        ∀ id ∈ spec.finals, spec.declares id = true) ∧
      (∀ r, spec.commonRelation = .ok r → ∀ a b,
        (r.contains a b = true ↔ ∃ way, spec.Has way ∧ spec.ends way = (a, b)) ∧
        ∀ way way', spec.Has way → spec.Has way' → spec.ends way = (a, b) →
          spec.ends way' = (a, b) → way = way') ∧
      (Symbol.init :: Symbol.final :: spec.scenarios.flatMap fun name =>
        [beginOf name, endOf name]).Nodup ∧
      ∀ failure, spec.commonRelation = .error failure ↔
        ∃ id context, failure = .unknownScenario id context ∧
          FirstDangling spec history id context := by
  refine ⟨spec.relateFlow_eq_commonRelation, ?_, fun r hr a b => ?_, spec.nodup_points,
    fun failure => ?_⟩
  · unfold Joins
    rw [← forall_references_iff]
    rcases spec.commonRelation_cases with ⟨hdeclared, hok⟩ | ⟨r, hr, hnot, herror⟩
    · exact iff_of_true ⟨_, hok⟩ hdeclared
    · refine iff_of_false (fun ⟨r, hok⟩ => ?_) fun hdeclared => ?_
      · exact absurd (herror.symm.trans hok) (by simp)
      · exact absurd (hnot.symm.trans (hdeclared r hr)) (by simp)
  · rcases spec.commonRelation_cases with ⟨hdeclared, hok⟩ | ⟨_, _, _, herror⟩
    · obtain rfl := Except.ok.inj (hok.symm.trans hr)
      rw [Relation.contains_iff, Relation.relates_ofPairs_iff, mem_commonPairs_iff]
      exact ⟨Iff.rfl, fun way way' hway hway' hends hends' =>
        ends_inj hdeclared hway hway' (hends.trans hends'.symm)⟩
    · exact absurd (herror.symm.trans hr) (by simp)
  · rw [commonRelation_eq_provided, provided_eq_error_iff]
    simp only [find?_references_eq_some_iff (records_of_after h)]

/-- The edge that was added last is looked at first, and it is the other one that leads nowhere. -/
def detourCalls : List Call :=
  [.edge ⟨1⟩ ⟨5⟩, .scenario "Ask", .initial ⟨7⟩, .scenario "Answer", .edge ⟨0⟩ ⟨1⟩, .final ⟨1⟩]

/-- The specification that these calls lead to. -/
def detour : Specification :=
  (((((empty.addEdge ⟨1⟩ ⟨5⟩).addScenario "Ask" (by decide)).addInitial ⟨7⟩).addScenario "Answer"
    (by decide)).addEdge ⟨0⟩ ⟨1⟩).addFinal ⟨1⟩

theorem commonRelation_reads_backwards_detour :
    empty.after detourCalls = .ok detour ∧ detour.relateFlow = detour.commonRelation ∧
      detour.commonRelation = .error (.unknownScenario ⟨5⟩ "continuation of Answer") := by
  have hafter : empty.after detourCalls = .ok detour := by decide
  obtain ⟨hsame, -, -, -, hfails⟩ := commonRelation_reads_backwards hafter
  have hblame : FirstDangling detour detourCalls ⟨5⟩ "continuation of Answer" := by
    refine FirstDangling.target (e := ⟨⟨1⟩, ⟨5⟩⟩) ?_ ?_ ?_ ?_
    · decide
    · unfold Edge.Precedes AddedBefore
      decide
    · decide
    · decide
  exact ⟨hafter, hsame, (hfails _).mpr ⟨_, _, rfl, hblame⟩⟩

end Specification

end ScenarioFsp
