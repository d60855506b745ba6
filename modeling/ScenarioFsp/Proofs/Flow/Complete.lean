import ScenarioFsp.Proofs.Flow.Derivation
import ScenarioFsp.Proofs.Grammar.Traces

/-!
# No walk is lost

Every walk through the flow graph is a run of the derived grammar. The run does
not visit the scenarios one by one: where a component takes no part, or only
passes a condition, no production takes it on, and it stays at the point where
its last production ended (`pointAfter`). What holds the run together is that
from the beginning of the next scenario links lead back to that point, however
many scenarios lie in between. That is shown first, by induction on the walk.

Inside of a lifeline a production has to start at the very condition at which the
one before it ended. It does, as long as this condition leads back to itself or
nowhere. The condition `Final` may lead to the end of a scenario and not back, so
it must not occur there.
-/

namespace ScenarioFsp

open ScenarioFsp.Symbol (beginOf endOf ofCondition)

/-- `Final` is not among the conditions inside of a lifeline. -/
def Component.FinalOutside (c : Component) : Prop :=
  ∀ s, Event.condition Symbol.final ∉ (c.lifeline s).tail.dropLast

namespace Specification

variable {spec : Specification} {c : Component}

/-! ## Links at one scenario -/

theorem links_opening {s : ScenarioId} (hs : spec.declares s = true) :
    spec.Links c ((c.lifeline s).opening (spec.nameOf s)) (beginOf (spec.nameOf s)) := by
  unfold Lifeline.opening
  cases hopen : (c.lifeline s).opening? with
  | none => exact .atBegin hs
  | some point => exact .shared hs (Lifeline.aliases_of_opening hopen).1

theorem links_to_opening {s : ScenarioId} (hs : spec.declares s = true) :
    spec.Links c (beginOf (spec.nameOf s)) ((c.lifeline s).opening (spec.nameOf s)) := by
  unfold Lifeline.opening
  cases hopen : (c.lifeline s).opening? with
  | none => exact .atBegin hs
  | some point => exact .shared hs (Lifeline.aliases_of_opening hopen).2

theorem links_to_closing {s : ScenarioId} (hs : spec.declares s = true) :
    spec.Links c (endOf (spec.nameOf s)) ((c.lifeline s).closing (spec.nameOf s)) := by
  unfold Lifeline.closing
  cases hclose : (c.lifeline s).closing? with
  | none => exact .atEnd hs
  | some point => exact .shared hs (Lifeline.aliases_of_closing hclose).1

/-- A scenario without productions is passed from its end back to its beginning. -/
theorem passes_without_productions {s : ScenarioId} (hs : spec.declares s = true)
    (h : (c.lifeline s).productions (spec.nameOf s) = []) :
    Relation.TransGen (spec.Links c) (endOf (spec.nameOf s)) (beginOf (spec.nameOf s)) := by
  rcases Lifeline.productions_eq_nil h with hempty | ⟨label, hlone⟩
  · exact .single (.shared hs (Lifeline.mem_aliases_iff.mpr (Or.inl ⟨hempty, rfl, rfl⟩)))
  · -- a lone condition is where the lifeline opens and where it closes
    have hsame : (c.lifeline s).closing (spec.nameOf s) =
        (c.lifeline s).opening (spec.nameOf s) := by
      rw [hlone]
      rfl
    have hclose := links_to_closing (c := c) hs
    rw [hsame] at hclose
    exact .tail (.single hclose) (links_opening hs)

/-! ## Links along a walk -/

/-- The point where a component is after one more scenario. -/
def pointPast (spec : Specification) (c : Component) (point : Symbol) (s : ScenarioId) : Symbol :=
  if (c.lifeline s).productions (spec.nameOf s) = [] then point
  else (c.lifeline s).closing (spec.nameOf s)

/-- The point where a component is after the given scenarios. -/
def pointAfter (spec : Specification) (c : Component) (walk : List ScenarioId) : Symbol :=
  walk.foldl (spec.pointPast c) Symbol.init

theorem pointAfter_concat (walk : List ScenarioId) (s : ScenarioId) :
    spec.pointAfter c (walk ++ [s]) = spec.pointPast c (spec.pointAfter c walk) s := by
  unfold pointAfter
  rw [List.foldl_append]
  rfl

/-- If links lead from the beginning of a scenario to some point, they lead from its end to the
point that is reached when the scenario is over. -/
theorem leads_from_end {s : ScenarioId} {point : Symbol} (hs : spec.declares s = true)
    (h : Relation.TransGen (spec.Links c) (beginOf (spec.nameOf s)) point) :
    Relation.TransGen (spec.Links c) (endOf (spec.nameOf s)) (spec.pointPast c point s) := by
  unfold pointPast
  by_cases hnil : (c.lifeline s).productions (spec.nameOf s) = []
  · rw [if_pos hnil]
    exact (passes_without_productions hs hnil).trans h
  · rw [if_neg hnil]
    exact .single (links_to_closing hs)

/-- **From the beginning of the next scenario links lead back to where the component is.** -/
theorem Walk.leads_back {walk : List ScenarioId} {s : ScenarioId} (hres : spec.Resolves c)
    (h : spec.Walk (walk ++ [s])) :
    Relation.TransGen (spec.Links c) (beginOf (spec.nameOf s)) (spec.pointAfter c walk) := by
  induction walk using List.reverseRecOn generalizing s with
  | nil => exact .single (.initial (Walk.initial h))
  | append_singleton walk u ih =>
      -- one edge back to the end of `u`, and from there as far as `u` was entered from
      have hu : spec.declares u = true :=
        h.init.declared hres u (List.mem_append_right _ List.mem_cons_self)
      rw [pointAfter_concat]
      exact .head (.edge h.edge) (leads_from_end hu (ih h.init))

/-! ## Where productions start -/

/-- A link from a condition other than `Final` can be taken back. -/
theorem Links.symm_of_condition {label : String} {z : Symbol} (hne : label ≠ Symbol.final)
    (h : spec.Links c (ofCondition label) z) : spec.Links c z (ofCondition label) := by
  generalize hx : ofCondition label = x at h ⊢
  cases h with
  | atBegin _ => exact absurd hx.symm (Symbol.beginOf_ne_ofCondition _ _)
  | atEnd _ => exact absurd hx.symm (Symbol.endOf_ne_ofCondition _ _)
  | edge _ => exact absurd hx.symm (Symbol.beginOf_ne_ofCondition _ _)
  | initial _ => exact absurd hx.symm (Symbol.beginOf_ne_ofCondition _ _)
  | final _ => exact absurd (Symbol.ofCondition_eq_final_iff.mp hx) hne
  | atInit => exact .atInit
  | shared hid hab =>
      rcases Lifeline.aliases_cases hab with ⟨-, rfl, -⟩ | hback
      · exact absurd hx.symm (Symbol.endOf_ne_ofCondition _ _)
      · exact .shared hid hback

/-- A condition other than `Final` leads to itself. -/
theorem leadsTo_self_of_ne_final {label : String} (hne : label ≠ Symbol.final) :
    spec.LeadsTo c (ofCondition label) (ofCondition label) := by
  by_cases hnone : ∀ z, ¬spec.Links c (ofCondition label) z
  · exact Or.inr ⟨hnone, rfl⟩
  · obtain ⟨z, hz⟩ := not_forall.mp hnone
    have hlink := not_not.mp hz
    exact Or.inl (.tail (.single hlink) (hlink.symm_of_condition hne))

/-- Every production has a copy where it stood. -/
theorem leadsTo_self {s : ScenarioId} (hfinal : c.FinalOutside) (hs : spec.declares s = true)
    {q : Production} {x : Symbol} (hq : q ∈ (c.lifeline s).productions (spec.nameOf s))
    (hx : q.first? = some x) : spec.LeadsTo c x x := by
  rcases Lifeline.first?_of_mem_productions hq with hopen | ⟨label, hlabel, hcond⟩
  · rw [hx] at hopen
    rw [Option.some.inj hopen]
    exact Or.inl (.tail (.single (links_opening hs)) (links_to_opening hs))
  · rw [hx] at hcond
    rw [Option.some.inj hcond]
    refine leadsTo_self_of_ne_final fun heq => hfinal s ?_
    rw [heq] at hlabel
    exact hlabel

/-! ## Runs along a walk -/

variable {g : Grammar}

/-- Inside of a lifeline the run follows its productions. -/
theorem Offers.run_threads (hg : spec.Offers c g) (hfinal : c.FinalOutside) {s : ScenarioId}
    (hs : spec.declares s = true) {ps : List Production} {x e : Symbol} (h : Threads x ps e)
    (hmem : ∀ p ∈ ps, p ∈ (c.lifeline s).productions (spec.nameOf s)) :
    g.Run x (ps.flatMap Production.visible) e := by
  induction h with
  | nil x => exact .stop x
  | @cons x m e p ps hfirst hlast _ ih =>
      have hp := hmem p List.mem_cons_self
      have halt : p ∈ g.alternativesOf x := (hg x p).mpr
        ⟨s, p, x, hs, hp, hfirst, leadsTo_self hfinal hs hp hfirst,
          (Production.startingAt_self hfirst).symm⟩
      exact .step halt hlast (ih fun p hp => hmem p (List.mem_cons_of_mem _ hp))

/-- A scenario can be gone through from any point that its beginning leads to. -/
theorem Offers.run_scenario (hg : spec.Offers c g) (hfinal : c.FinalOutside) {s : ScenarioId}
    (hs : spec.declares s = true) {point : Symbol}
    (h : Relation.TransGen (spec.Links c) (beginOf (spec.nameOf s)) point) :
    g.Run point (c.lifeline s).spoken (spec.pointPast c point s) := by
  rw [← Lifeline.visible_productions (spec.nameOf s)]
  unfold pointPast
  by_cases hnil : (c.lifeline s).productions (spec.nameOf s) = []
  · rw [if_pos hnil, hnil]
    exact .stop point
  · rw [if_neg hnil]
    have hne : c.lifeline s ≠ [] := fun hempty => hnil (by rw [hempty]; rfl)
    have hthreads : Threads ((c.lifeline s).opening (spec.nameOf s))
        ((c.lifeline s).productions (spec.nameOf s)) ((c.lifeline s).closing (spec.nameOf s)) :=
      Lifeline.threads_productions hne
    cases hps : (c.lifeline s).productions (spec.nameOf s) with
    | nil => exact absurd hps hnil
    | cons p ps =>
        rw [hps] at hthreads
        cases hthreads with
        | cons hfirst hlast hrest =>
            have hmem : ∀ q ∈ p :: ps, q ∈ (c.lifeline s).productions (spec.nameOf s) := by
              rw [hps]
              exact fun q hq => hq
            have hp := hmem p List.mem_cons_self
            have htail := Lifeline.tail_ne_nil_of_mem_productions hp
            -- the first production is taken from where the component is
            have halt : p.startingAt point ∈ g.alternativesOf point := (hg _ _).mpr
              ⟨s, p, _, hs, hp, hfirst, Or.inl (.head (links_opening hs) h), rfl⟩
            rw [List.flatMap_cons, ← Production.visible_startingAt point p]
            refine .step halt ((Production.last?_startingAt htail point).trans hlast) ?_
            exact hg.run_threads hfinal hs hrest fun q hq => hmem q (List.mem_cons_of_mem _ hq)

/-- **Every walk is a run of the derived grammar.** -/
theorem Offers.run_walk (hg : spec.Offers c g) (hres : spec.Resolves c) (hfinal : c.FinalOutside)
    {walk : List ScenarioId} (h : spec.Walk walk) :
    g.Run Grammar.start (c.spoken walk) (spec.pointAfter c walk) := by
  induction walk using List.reverseRecOn with
  | nil => exact .stop _
  | append_singleton walk s ih =>
      have hs : spec.declares s = true :=
        h.declared hres s (List.mem_append_right _ List.mem_cons_self)
      rw [pointAfter_concat, Component.spoken_append, Component.spoken_singleton]
      exact (ih h.init).trans (hg.run_scenario hfinal hs (h.leads_back hres))

/--
**No allowed behaviour is lost.** If all references resolve and `Final` does not
occur inside of a lifeline, the derivation succeeds, and what the component is
seen to do on any walk is a trace of the derived grammar.
-/
theorem spoken_mem_observableTraces {spec : Specification} {c : Component} {id : ComponentId}
    (hc : spec.component? id = some c) (hres : spec.Resolves c) (hfinal : c.FinalOutside) :
    ∃ common d, spec.commonRelation = .ok common ∧ spec.deriveComponent common id = .ok d ∧
      ∀ walk, spec.Walk walk → ∀ n, (c.spoken walk).length ≤ n →
        ∃ ts, d.grammar.observableTraces n = .ok ts ∧ c.spoken walk ∈ ts := by
  obtain ⟨d, hd, hsound, hoffers⟩ := exists_derivation hc hres
  refine ⟨_, d, commonRelation_eq_ok hres, hd, fun walk hwalk n hn => ?_⟩
  refine ⟨_, hsound.observableTraces_eq_ok n, hsound.mem_traces_iff.mpr ⟨hn, ?_⟩⟩
  exact ⟨_, _, hoffers.run_walk hres hfinal hwalk, List.prefix_rfl⟩

theorem spoken_mem_observableTraces_session :
    session.component? ⟨0⟩ = some user ∧ session.Resolves user ∧ user.FinalOutside ∧
      ∃ common d ts, session.commonRelation = .ok common ∧
        session.deriveComponent common ⟨0⟩ = .ok d ∧ d.grammar.observableTraces 3 = .ok ts ∧
        ["login", "ask", "get"] ∈ ts := by
  have hres : session.Resolves user :=
    ⟨by decide, by decide, by decide, by decide, by decide⟩
  have hfinal : user.FinalOutside := fun s => Component.forall_lifeline
    (P := fun events => Event.condition Symbol.final ∉ events.tail.dropLast) (by decide)
    (by decide) s
  have hc : session.component? ⟨0⟩ = some user := rfl
  obtain ⟨common, d, hcommon, hd, hall⟩ := spoken_mem_observableTraces hc hres hfinal
  obtain ⟨ts, hts, hmem⟩ := hall _ walk_session 3 (by decide)
  exact ⟨hc, hres, hfinal, common, d, ts, hcommon, hd, hts, hmem⟩

end Specification

end ScenarioFsp
