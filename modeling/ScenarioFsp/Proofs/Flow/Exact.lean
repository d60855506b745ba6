import ScenarioFsp.Proofs.Flow.Complete

/-!
# Without conditions nothing is added

In a component without conditions a scenario has one production, from its
beginning to its end, or none. A production is then taken at `Init` or at the end
of the scenario gone through before, and only links through scenarios in which the
component takes no part bring it there. These links are read backwards, from the
beginning of the scenario that is taken on: they spell out the scenarios in
between (`AtFront`), in any number and on any cycles. So a run of the derived
grammar can be followed by a walk that grows with every production.
-/

namespace ScenarioFsp

open ScenarioFsp.Symbol (beginOf endOf)

/-- Every lifeline of the component consists of messages only. -/
def Component.ConditionFree (c : Component) : Prop :=
  ∀ s, ∀ e ∈ c.lifeline s, ∃ label, e = Event.message label

namespace Lifeline

variable {scenario : String} {events : Lifeline}

/-! ## Lifelines without conditions -/

theorem opening?_eq_none (h : ∀ e ∈ events, ∃ label, e = Event.message label) :
    events.opening? = none := by
  cases events with
  | nil => rfl
  | cons e rest =>
      obtain ⟨label, rfl⟩ := h e List.mem_cons_self
      rfl

theorem closing?_eq_none (h : ∀ e ∈ events, ∃ label, e = Event.message label) :
    events.closing? = none := by
  unfold closing?
  cases hlast : events.getLast? with
  | none => rfl
  | some e =>
      obtain ⟨label, rfl⟩ := h e (List.mem_of_getLast? hlast)
      rfl

theorem cut_messages {start : Symbol} {actions : List Symbol}
    (h : ∀ e ∈ events, ∃ label, e = Event.message label) :
    cut scenario start actions events =
      if (actions ++ messages events).isEmpty then []
      else [piece start (actions ++ messages events) (endOf scenario)] := by
  induction events generalizing actions with
  | nil =>
      unfold cut
      rw [show messages [] = [] from rfl, List.append_nil]
  | cons e rest ih =>
      obtain ⟨label, rfl⟩ := h e List.mem_cons_self
      unfold cut
      rw [ih fun e he => h e (List.mem_cons_of_mem _ he), List.append_assoc]
      rfl

/-- The only production leads from the beginning of the scenario to its end. -/
theorem eq_piece_of_mem_productions (h : ∀ e ∈ events, ∃ label, e = Event.message label)
    {q : Production} (hq : q ∈ productions scenario events) :
    q = piece (beginOf scenario) (messages events) (endOf scenario) := by
  have hcut : q ∈ cut scenario (beginOf scenario) [] events := by
    cases events with
    | nil => exact absurd hq List.not_mem_nil
    | cons e rest =>
        obtain ⟨label, rfl⟩ := h e List.mem_cons_self
        exact hq
  rw [cut_messages h, List.nil_append] at hcut
  split at hcut
  · exact absurd hcut List.not_mem_nil
  · exact List.mem_singleton.mp hcut

end Lifeline

namespace Specification

variable {spec : Specification} {c : Component}

theorem finalOutside_of_conditionFree (hfree : c.ConditionFree) : c.FinalOutside := by
  intro s hmem
  have hin := List.mem_of_mem_tail ((List.dropLast_sublist _).subset hmem)
  obtain ⟨label, hlabel⟩ := hfree s _ hin
  exact absurd hlabel (by simp)

/-! ## Links without conditions -/

theorem alias_of_conditionFree (hfree : c.ConditionFree) {id : ScenarioId} {a b : Symbol}
    (h : (a, b) ∈ (c.lifeline id).aliases (spec.nameOf id)) :
    c.lifeline id = [] ∧ a = endOf (spec.nameOf id) ∧ b = beginOf (spec.nameOf id) := by
  rcases Lifeline.mem_aliases_iff.mp h with hempty | ⟨point, hopen, -⟩ | ⟨point, hclose, -⟩
  · exact hempty
  · rw [Lifeline.opening?_eq_none (hfree id)] at hopen
    exact absurd hopen (by simp)
  · rw [Lifeline.closing?_eq_none (hfree id)] at hclose
    exact absurd hclose (by simp)

theorem links_begin_cases (hres : spec.Resolves c) (hfree : c.ConditionFree) {t : ScenarioId}
    {z : Symbol} (ht : spec.declares t = true) (h : spec.Links c (beginOf (spec.nameOf t)) z) :
    z = beginOf (spec.nameOf t) ∨
      (∃ s, (⟨s, t⟩ : Edge) ∈ spec.edges ∧ z = endOf (spec.nameOf s)) ∨
      (t ∈ spec.initial ∧ z = Symbol.init) := by
  generalize hx : beginOf (spec.nameOf t) = x at h
  cases h with
  | atBegin _ => exact Or.inl rfl
  | atEnd _ => exact absurd hx (Symbol.beginOf_ne_endOf _ _)
  | @edge s t' he =>
      have ht' : t = t' := nameOf_inj ht (hres.targets _ he) (Symbol.beginOf_inj.mp hx)
      rw [ht']
      exact Or.inr (Or.inl ⟨s, he, rfl⟩)
  | @initial t' hid =>
      have ht' : t = t' := nameOf_inj ht (hres.initial _ hid) (Symbol.beginOf_inj.mp hx)
      rw [ht']
      exact Or.inr (Or.inr ⟨hid, rfl⟩)
  | final _ => exact absurd hx (Symbol.beginOf_ne_final _)
  | atInit => exact absurd hx (Symbol.beginOf_ne_init _)
  | shared _ hab =>
      rw [(alias_of_conditionFree hfree hab).2.1] at hx
      exact absurd hx (Symbol.beginOf_ne_endOf _ _)

theorem links_end_cases (hfree : c.ConditionFree) {u : ScenarioId} {z : Symbol}
    (hu : spec.declares u = true) (h : spec.Links c (endOf (spec.nameOf u)) z) :
    z = endOf (spec.nameOf u) ∨ (c.lifeline u = [] ∧ z = beginOf (spec.nameOf u)) := by
  generalize hx : endOf (spec.nameOf u) = x at h
  cases h with
  | atBegin _ => exact absurd hx.symm (Symbol.beginOf_ne_endOf _ _)
  | atEnd _ => exact Or.inl rfl
  | edge _ => exact absurd hx.symm (Symbol.beginOf_ne_endOf _ _)
  | initial _ => exact absurd hx.symm (Symbol.beginOf_ne_endOf _ _)
  | final _ => exact absurd hx (Symbol.endOf_ne_final _)
  | atInit => exact absurd hx (Symbol.endOf_ne_init _)
  | @shared id _ _ hid hab =>
      obtain ⟨hempty, ha, hb⟩ := alias_of_conditionFree hfree hab
      rw [ha] at hx
      have hid' : u = id := nameOf_inj hu hid (Symbol.endOf_inj.mp hx)
      rw [hid']
      exact Or.inr ⟨hempty, hb⟩

theorem links_init_cases (hfree : c.ConditionFree) {z : Symbol}
    (h : spec.Links c Symbol.init z) : z = Symbol.init := by
  generalize hx : Symbol.init = x at h
  cases h with
  | atBegin _ => exact absurd hx.symm (Symbol.beginOf_ne_init _)
  | atEnd _ => exact absurd hx.symm (Symbol.endOf_ne_init _)
  | edge _ => exact absurd hx.symm (Symbol.beginOf_ne_init _)
  | initial _ => exact absurd hx.symm (Symbol.beginOf_ne_init _)
  | final _ => exact absurd hx (by decide)
  | atInit => rfl
  | shared _ hab =>
      rw [(alias_of_conditionFree hfree hab).2.1] at hx
      exact absurd hx.symm (Symbol.endOf_ne_init _)

/-! ## What lies in between -/

/-- Scenarios, `t` the first of them, through which the component comes to `s` without taking part
in any on the way. -/
structure SilentRoute (spec : Specification) (c : Component) (t : ScenarioId)
    (between : List ScenarioId) (s : ScenarioId) : Prop where
  first : (between ++ [s]).head? = some t
  chain : (between ++ [s]).IsChain fun s t => (⟨s, t⟩ : Edge) ∈ spec.edges
  silent : ∀ u ∈ between, c.lifeline u = []
  declared : ∀ u ∈ between ++ [s], spec.declares u = true

/-- The point lies in front of a silent route to `s`. -/
def AtFront (spec : Specification) (c : Component) (s : ScenarioId) (x : Symbol) : Prop :=
  ∃ t between, spec.SilentRoute c t between s ∧
    (x = beginOf (spec.nameOf t) ∨
      (∃ u, (⟨u, t⟩ : Edge) ∈ spec.edges ∧ x = endOf (spec.nameOf u)) ∨
      (t ∈ spec.initial ∧ x = Symbol.init))

theorem SilentRoute.declares {t s : ScenarioId} {between : List ScenarioId}
    (h : spec.SilentRoute c t between s) : spec.declares t = true :=
  h.declared t (List.mem_of_head? h.first)

/-- A route is prolonged at its front by a scenario in which the component takes no part. -/
theorem SilentRoute.cons {t s u : ScenarioId} {between : List ScenarioId}
    (h : spec.SilentRoute c t between s) (hedge : (⟨u, t⟩ : Edge) ∈ spec.edges)
    (hu : spec.declares u = true) (hempty : c.lifeline u = []) :
    spec.SilentRoute c u (u :: between) s := by
  refine ⟨rfl, ?_, ?_, ?_⟩
  · rw [List.cons_append, List.isChain_cons]
    refine ⟨fun v hv => ?_, h.chain⟩
    rw [h.first] at hv
    rw [← Option.some.inj hv]
    exact hedge
  · intro v hv
    rcases List.mem_cons.mp hv with rfl | hmem
    · exact hempty
    · exact h.silent v hmem
  · intro v hv
    rcases List.mem_cons.mp hv with rfl | hmem
    · exact hu
    · exact h.declared v hmem

/-- A link leads from the front of a silent route to the front of one. -/
theorem AtFront.step (hres : spec.Resolves c) (hfree : c.ConditionFree) {s : ScenarioId}
    {x y : Symbol} (h : spec.AtFront c s x) (hlink : spec.Links c x y) : spec.AtFront c s y := by
  obtain ⟨t, between, hroute, rfl | ⟨u, hedge, rfl⟩ | ⟨hinitial, rfl⟩⟩ := h
  · exact ⟨t, between, hroute, links_begin_cases hres hfree hroute.declares hlink⟩
  · have hu := hres.sources _ hedge
    rcases links_end_cases hfree hu hlink with rfl | ⟨hempty, rfl⟩
    · exact ⟨t, between, hroute, Or.inr (Or.inl ⟨u, hedge, rfl⟩)⟩
    · -- the component takes no part in this scenario, so the route begins earlier
      exact ⟨u, u :: between, hroute.cons hedge hu hempty, Or.inl rfl⟩
  · rw [links_init_cases hfree hlink]
    exact ⟨t, between, hroute, Or.inr (Or.inr ⟨hinitial, rfl⟩)⟩

/-- **What the beginning of a scenario leads to lies in front of a silent route to it.** -/
theorem atFront_of_leads (hres : spec.Resolves c) (hfree : c.ConditionFree) {s : ScenarioId}
    {x : Symbol} (hs : spec.declares s = true)
    (h : Relation.TransGen (spec.Links c) (beginOf (spec.nameOf s)) x) : spec.AtFront c s x := by
  have hself : spec.AtFront c s (beginOf (spec.nameOf s)) := by
    refine ⟨s, [], ⟨rfl, List.isChain_singleton s, ?_, ?_⟩, Or.inl rfl⟩
    · exact fun u hu => absurd hu List.not_mem_nil
    · intro u hu
      rw [List.mem_singleton.mp hu]
      exact hs
  induction h with
  | single hlink => exact hself.step hres hfree hlink
  | tail _ hlink ih => exact ih.step hres hfree hlink

/-! ## The walk of a run -/

/-- Where a component without conditions is after a walk, if the last scenario took it on. -/
def RestsAt (spec : Specification) (walk : List ScenarioId) (x : Symbol) : Prop :=
  (walk = [] ∧ x = Symbol.init) ∨
    ∃ u, walk.getLast? = some u ∧ x = endOf (spec.nameOf u)

variable {g : Grammar}

/-- The production taken next prolongs the walk by a silent route and its own scenario. -/
theorem RestsAt.exists_walk (hres : spec.Resolves c) {walk : List ScenarioId} {x : Symbol}
    {s : ScenarioId} (hwalk : spec.Walk walk) (hrests : spec.RestsAt walk x) (h : spec.AtFront c s x) :
    ∃ between, spec.Walk (walk ++ (between ++ [s])) ∧ ∀ u ∈ between, c.lifeline u = [] := by
  obtain ⟨t, between, hroute, hfront⟩ := h
  refine ⟨between, hwalk.append hroute.chain ?_ ?_, hroute.silent⟩
  · -- from `Init` only an initial scenario is taken on
    intro hnil id hid
    rw [hroute.first] at hid
    rw [← Option.some.inj hid]
    rcases hrests with ⟨-, rfl⟩ | ⟨u, hu, -⟩
    · rcases hfront with heq | ⟨u, -, heq⟩ | ⟨hinitial, -⟩
      · exact absurd heq.symm (Symbol.beginOf_ne_init _)
      · exact absurd heq.symm (Symbol.endOf_ne_init _)
      · exact hinitial
    · rw [hnil] at hu
      exact absurd hu (by simp)
  · -- from the end of a scenario the route goes on behind that very scenario
    intro u hu id hid
    rw [hroute.first] at hid
    rw [← Option.some.inj hid]
    rcases hrests with ⟨hnil, -⟩ | ⟨v, hv, rfl⟩
    · rw [hnil] at hu
      exact absurd hu (by simp)
    · rw [hv] at hu
      obtain rfl : v = u := Option.some.inj hu
      rcases hfront with heq | ⟨w, hedge, heq⟩ | ⟨-, heq⟩
      · exact absurd heq.symm (Symbol.beginOf_ne_endOf _ _)
      · have hdecl := hwalk.declared hres v (List.mem_of_getLast? hv)
        rw [nameOf_inj hdecl (hres.sources _ hedge) (Symbol.endOf_inj.mp heq)]
        exact hedge
      · exact absurd heq (Symbol.endOf_ne_init _)

/-- What is offered at a point is a whole scenario whose beginning leads to the point. -/
theorem Offers.exists_scenario (hg : spec.Offers c g) (hfree : c.ConditionFree) {x m : Symbol}
    {p : Production} (hp : p ∈ g.alternativesOf x) (hl : p.last? = some m) :
    ∃ s, spec.declares s = true ∧
      Relation.TransGen (spec.Links c) (beginOf (spec.nameOf s)) x ∧
      m = endOf (spec.nameOf s) ∧ p.visible = (c.lifeline s).spoken := by
  obtain ⟨s, q, y, hs, hq, hy, hlead, rfl⟩ := (hg x p).mp hp
  have htail := Lifeline.tail_ne_nil_of_mem_productions hq
  have hpiece := Lifeline.eq_piece_of_mem_productions (hfree s) hq
  rw [hpiece, Lifeline.first?_piece] at hy
  rw [Production.last?_startingAt htail, hpiece, Lifeline.last?_piece] at hl
  rw [← Option.some.inj hy] at hlead
  refine ⟨s, hs, ?_, (Option.some.inj hl).symm, ?_⟩
  · exact hlead.resolve_right fun hnone => hnone.1 _ (.atBegin hs)
  · rw [Production.visible_startingAt, hpiece, Lifeline.visible_piece]
    rfl

/-- **Every run of the derived grammar is a walk**, and goes on from wherever a walk rests. -/
theorem Offers.walk_of_run (hg : spec.Offers c g) (hres : spec.Resolves c)
    (hfree : c.ConditionFree) {x e : Symbol} {w : Trace} (hrun : g.Run x w e)
    {walk : List ScenarioId} (hwalk : spec.Walk walk) (hrests : spec.RestsAt walk x) :
    ∃ walk', spec.Walk walk' ∧ c.spoken walk' = c.spoken walk ++ w := by
  induction hrun generalizing walk with
  | stop x => exact ⟨walk, hwalk, (List.append_nil _).symm⟩
  | @step x m e p w hp hl _ ih =>
      obtain ⟨s, hs, hleads, hend, hvisible⟩ := hg.exists_scenario hfree hp hl
      obtain ⟨between, hwalk', hsilent⟩ :=
        hrests.exists_walk hres hwalk (atFront_of_leads hres hfree hs hleads)
      -- the longer walk rests at the end of the scenario that was taken on
      have hrests' : spec.RestsAt (walk ++ (between ++ [s])) m := by
        refine Or.inr ⟨s, ?_, hend⟩
        rw [← List.append_assoc, List.getLast?_concat]
      obtain ⟨walk'', hwalk'', hspoken⟩ := ih hwalk' hrests'
      refine ⟨walk'', hwalk'', ?_⟩
      rw [hspoken, Component.spoken_append, Component.spoken_append,
        Component.spoken_eq_nil hsilent, Component.spoken_singleton, hvisible, List.nil_append,
        List.append_assoc]

/--
**Synthesis is exact on components without conditions.** If all references
resolve, the derivation succeeds, and the traces of at most `n` actions of the
derived grammar are the beginnings, of at most that length, of what the component
is seen to do on walks through the flow graph.
-/
theorem mem_observableTraces_iff_walk {spec : Specification} {c : Component} {id : ComponentId}
    (hc : spec.component? id = some c) (hres : spec.Resolves c) (hfree : c.ConditionFree) :
    ∃ common d, spec.commonRelation = .ok common ∧ spec.deriveComponent common id = .ok d ∧
      ∀ n, ∃ ts, d.grammar.observableTraces n = .ok ts ∧
        ∀ t, t ∈ ts ↔ t.length ≤ n ∧ ∃ walk, spec.Walk walk ∧ t <+: c.spoken walk := by
  obtain ⟨d, hd, hsound, hoffers⟩ := exists_derivation hc hres
  refine ⟨_, d, commonRelation_eq_ok hres, hd, fun n => ?_⟩
  refine ⟨_, hsound.observableTraces_eq_ok n, fun t => ?_⟩
  rw [hsound.mem_traces_iff]
  refine and_congr_right fun _ => ⟨fun ho => ?_, fun h => ?_⟩
  · obtain ⟨w, e, hrun, hpre⟩ := ho
    obtain ⟨walk, hwalk, hspoken⟩ := hoffers.walk_of_run hres hfree hrun (walk_nil spec)
      (Or.inl ⟨rfl, rfl⟩)
    refine ⟨walk, hwalk, ?_⟩
    rw [hspoken]
    exact hpre
  · obtain ⟨walk, hwalk, hpre⟩ := h
    have hfinal := finalOutside_of_conditionFree hfree
    exact ⟨_, _, hoffers.run_walk hres hfinal hwalk, hpre⟩

theorem mem_observableTraces_iff_walk_session :
    session.component? ⟨1⟩ = some server ∧ session.Resolves server ∧ server.ConditionFree ∧
      ∃ common d ts, session.commonRelation = .ok common ∧
        session.deriveComponent common ⟨1⟩ = .ok d ∧ d.grammar.observableTraces 2 = .ok ts ∧
        ["login", "get"] ∈ ts := by
  have hres : session.Resolves server :=
    ⟨by decide, by decide, by decide, by decide, by decide⟩
  have hfree : server.ConditionFree := fun s => Component.forall_lifeline
    (P := fun events => ∀ e ∈ events, ∃ label, e = Event.message label) (by simp)
    (by simp [server]) s
  have hc : session.component? ⟨1⟩ = some server := rfl
  obtain ⟨common, d, hcommon, hd, hall⟩ := mem_observableTraces_iff_walk hc hres hfree
  obtain ⟨ts, hts, hiff⟩ := hall 2
  refine ⟨hc, hres, hfree, common, d, ts, hcommon, hd, hts, ?_⟩
  exact (hiff _).mpr ⟨by decide, _, walk_session, by decide⟩

end Specification

end ScenarioFsp
