import ScenarioFsp.Proofs.Flow.Complete
import ScenarioFsp.Proofs.Paths

/-!
# What re-rooting keeps

Re-rooting copies a production to every point that its start leads to. So the production
itself stays only if its start leads to itself, or to nothing at all.

In the relation of a component every point that something leads to leads to itself, which
makes a second re-rooting superfluous (`reroot_idempotent`). A start that nothing leads to is
the other case. The beginning of a scenario and its end lead to themselves, and a condition
leads back from wherever it leads to, with one exception: `Final` leads to the ends of the
scenarios that may come last, and only a lifeline that opens or closes with `Final` leads back
to it. A production that starts at `Final` inside of a lifeline may therefore be left with
copies at these ends only, and this is the one way in which a production is lost
(`mem_reroot_extract_iff`).
-/

namespace ScenarioFsp

open ScenarioFsp.Symbol (ofCondition)

/-! ## Re-rooting twice -/

namespace Production

variable {relation : Relation} {p q r : Production}

/-- A production without a start has no copy but itself. -/
theorem copies_of_first?_eq_none (h : q.first? = none) : q.copies relation = [q] := by
  unfold copies
  rw [h]
  rfl

/-- In a transitive relation the copies of a copy are copies. -/
theorem mem_copies_trans (htrans : ∀ a b c, relation.Relates a b → relation.Relates b c →
    relation.Relates a c) (hq : q ∈ r.copies relation) (hp : p ∈ q.copies relation) :
    p ∈ r.copies relation := by
  cases hr : r.first? with
  | none =>
      rw [copies_of_first?_eq_none hr, List.mem_singleton] at hq
      rw [← hq]
      exact hp
  | some x =>
      rcases (mem_copies_iff hr).mp hq with ⟨y, hxy, rfl⟩ | ⟨-, rfl⟩
      · rcases (mem_copies_iff (first?_startingAt y r)).mp hp with ⟨z, hyz, rfl⟩ | ⟨-, rfl⟩
        · exact (mem_copies_iff hr).mpr (Or.inl ⟨z, htrans x y z hxy hyz, rfl⟩)
        · exact hq
      · exact hp

/-- A copy is a copy of itself if all that something leads to leads to itself. -/
theorem mem_copies_self (hself : ∀ a b, relation.Relates a b → relation.Relates b b)
    (hp : p ∈ q.copies relation) : p ∈ p.copies relation := by
  cases hq : q.first? with
  | none =>
      rw [copies_of_first?_eq_none hq, List.mem_singleton] at hp
      rw [hp, copies_of_first?_eq_none hq]
      exact List.mem_cons_self
  | some x =>
      rcases (mem_copies_iff hq).mp hp with ⟨y, hxy, rfl⟩ | ⟨-, rfl⟩
      · exact (mem_copies_iff (first?_startingAt y q)).mpr (Or.inl ⟨y, hself x y hxy, rfl⟩)
      · exact hp

end Production

/-- **Re-rooting twice is re-rooting once**, in a transitive relation in which all that something
leads to leads to itself. -/
theorem reroot_reroot {relation : Relation} (htrans : ∀ a b c, relation.Relates a b →
    relation.Relates b c → relation.Relates a c)
    (hself : ∀ a b, relation.Relates a b → relation.Relates b b) (ps : OrderedSet Production) :
    reroot relation (reroot relation ps) = reroot relation ps := by
  refine OrderedSet.ext_mem fun p => ⟨fun h => ?_, fun h => ?_⟩
  · obtain ⟨q, hq, hp⟩ := mem_reroot_iff.mp h
    obtain ⟨r, hr, hqr⟩ := mem_reroot_iff.mp hq
    exact mem_reroot_iff.mpr ⟨r, hr, Production.mem_copies_trans htrans hqr hp⟩
  · obtain ⟨q, hq, hp⟩ := mem_reroot_iff.mp h
    exact mem_reroot_iff.mpr ⟨p, h, Production.mem_copies_self hself hp⟩

namespace Specification

variable {spec : Specification} {c : Component} {a b : Symbol}

/-! ## What leads to itself -/

/-- **Whatever something leads to leads to itself.** -/
theorem Links.target_self (hres : spec.Resolves c) (h : spec.Links c a b) :
    Relation.TransGen (spec.Links c) b b := by
  cases h with
  | atBegin hid => exact .single (.atBegin hid)
  | atEnd hid => exact .single (.atEnd hid)
  | edge he => exact .single (.atEnd (hres.sources _ he))
  | initial _ => exact .single .atInit
  | final hid => exact .single (.atEnd (hres.finals _ hid))
  | atInit => exact .single .atInit
  | shared hid hab =>
      rcases Lifeline.aliases_cases hab with ⟨-, -, rfl⟩ | hback
      · exact .single (.atBegin hid)
      · exact .tail (.single (.shared hid hback)) (.shared hid hab)

theorem relates_target_self (hres : spec.Resolves c)
    (h : (componentRelation (.ofPairs spec.commonPairs) (spec.lifelinesOf c)).Relates a b) :
    (componentRelation (.ofPairs spec.commonPairs) (spec.lifelinesOf c)).Relates b b := by
  rw [relates_componentRelation_iff] at h ⊢
  obtain ⟨m, -, hmb⟩ := Relation.TransGen.tail'_iff.mp h
  exact hmb.target_self hres

theorem relates_trans {x : Symbol}
    (hab : (componentRelation (.ofPairs spec.commonPairs) (spec.lifelinesOf c)).Relates a b)
    (hbx : (componentRelation (.ofPairs spec.commonPairs) (spec.lifelinesOf c)).Relates b x) :
    (componentRelation (.ofPairs spec.commonPairs) (spec.lifelinesOf c)).Relates a x := by
  rw [relates_componentRelation_iff] at hab hbx ⊢
  exact hab.trans hbx

/--
**A second re-rooting changes nothing.** If all references resolve, the closed relation of a
component relates everything that it relates something to also to itself, and whatever
productions are re-rooted along it, re-rooting them again gives the same productions.
-/
theorem reroot_idempotent {spec : Specification} {c : Component} (hres : spec.Resolves c) :
    ∃ common, spec.commonRelation = .ok common ∧
      (∀ a b, (componentRelation common (spec.lifelinesOf c)).contains a b = true →
        (componentRelation common (spec.lifelinesOf c)).contains b b = true) ∧
      ∀ ps, reroot (componentRelation common (spec.lifelinesOf c))
          (reroot (componentRelation common (spec.lifelinesOf c)) ps) =
        reroot (componentRelation common (spec.lifelinesOf c)) ps := by
  refine ⟨_, commonRelation_eq_ok hres, fun a b hab => ?_, fun ps => ?_⟩
  · exact Relation.contains_iff.mpr (relates_target_self hres (Relation.contains_iff.mp hab))
  · exact reroot_reroot (fun _ _ _ => relates_trans) (fun _ _ => relates_target_self hres) ps

/-- The end of the login leads to `Ready`, where it closes, so `Ready` leads to itself. -/
theorem reroot_idempotent_session :
    session.Resolves user ∧ ∃ common, session.commonRelation = .ok common ∧
      (componentRelation common (session.lifelinesOf user)).contains "E_Login" "C_Ready" = true ∧
      (componentRelation common (session.lifelinesOf user)).contains "C_Ready" "C_Ready" = true ∧
      reroot (componentRelation common (session.lifelinesOf user))
          (reroot (componentRelation common (session.lifelinesOf user))
            (extract (session.lifelinesOf user))) =
        reroot (componentRelation common (session.lifelinesOf user))
          (extract (session.lifelinesOf user)) := by
  have hres : session.Resolves user :=
    ⟨by decide, by decide, by decide, by decide, by decide⟩
  obtain ⟨common, hcommon, hself, hidem⟩ := reroot_idempotent hres
  obtain rfl := Except.ok.inj (hcommon.symm.trans (commonRelation_eq_ok hres))
  have hlink : session.Links user "E_Login" "C_Ready" := by
    have hs : session.declares ⟨0⟩ = true := by decide
    exact .shared hs (Lifeline.aliases_of_closing (by decide)).1
  have hleads := Relation.contains_iff.mpr (relates_componentRelation_iff.mpr (.single hlink))
  exact ⟨hres, _, hcommon, hleads, hself _ _ hleads, hidem _⟩

/-! ## `Final` -/

/-- Some lifeline of the component opens or closes at the point. -/
def AtBoundary (spec : Specification) (c : Component) (point : Symbol) : Prop :=
  ∃ s ∈ spec.scenarioIds,
    (c.lifeline s).opening? = some point ∨ (c.lifeline s).closing? = some point

instance (spec : Specification) (c : Component) (point : Symbol) :
    Decidable (spec.AtBoundary c point) :=
  inferInstanceAs (Decidable (∃ s ∈ spec.scenarioIds, _))

/-- `Final` leads on, but nothing leads back to it: some scenario may come last, and no lifeline
opens or closes with `Final`. -/
def LeavesFinal (spec : Specification) (c : Component) : Prop :=
  spec.finals ≠ [] ∧ ¬spec.AtBoundary c Symbol.final

instance (spec : Specification) (c : Component) : Decidable (spec.LeavesFinal c) :=
  inferInstanceAs (Decidable (_ ∧ _))

/-- Where a lifeline opens or closes, links lead there and back. -/
theorem AtBoundary.leads_back {point : Symbol} (h : spec.AtBoundary c point) :
    Relation.TransGen (spec.Links c) point point := by
  obtain ⟨s, hmem, hopen | hclose⟩ := h
  · have hs := mem_scenarioIds_iff.mp hmem
    exact .tail (.single (.shared hs (Lifeline.aliases_of_opening hopen).1))
      (.shared hs (Lifeline.aliases_of_opening hopen).2)
  · have hs := mem_scenarioIds_iff.mp hmem
    exact .tail (.single (.shared hs (Lifeline.aliases_of_closing hclose).2))
      (.shared hs (Lifeline.aliases_of_closing hclose).1)

/-- An alias of a condition comes from a lifeline that opens or closes with it. -/
theorem atBoundary_of_alias {s : ScenarioId} (hs : spec.declares s = true) {label : String}
    (h : (a, b) ∈ (c.lifeline s).aliases (spec.nameOf s))
    (hlabel : a = ofCondition label ∨ b = ofCondition label) :
    spec.AtBoundary c (ofCondition label) := by
  have hmem := mem_scenarioIds_iff.mpr hs
  rcases Lifeline.mem_aliases_iff.mp h with ⟨-, rfl, rfl⟩ |
    ⟨point, hopen, ⟨rfl, rfl⟩ | ⟨rfl, rfl⟩⟩ | ⟨point, hclose, ⟨rfl, rfl⟩ | ⟨rfl, rfl⟩⟩
  · rcases hlabel with hend | hbegin
    · exact absurd hend (Symbol.endOf_ne_ofCondition _ _)
    · exact absurd hbegin (Symbol.beginOf_ne_ofCondition _ _)
  · rw [← hlabel.resolve_right (Symbol.beginOf_ne_ofCondition _ _)]
    exact ⟨s, hmem, Or.inl hopen⟩
  · rw [← hlabel.resolve_left (Symbol.beginOf_ne_ofCondition _ _)]
    exact ⟨s, hmem, Or.inl hopen⟩
  · rw [← hlabel.resolve_left (Symbol.endOf_ne_ofCondition _ _)]
    exact ⟨s, hmem, Or.inr hclose⟩
  · rw [← hlabel.resolve_right (Symbol.endOf_ne_ofCondition _ _)]
    exact ⟨s, hmem, Or.inr hclose⟩

/-- Only lifelines that open or close with `Final` lead to it. -/
theorem Links.atBoundary_of_to_final (h : spec.Links c a Symbol.final) :
    spec.AtBoundary c Symbol.final := by
  rw [← Symbol.ofCondition_final] at h ⊢
  generalize hx : ofCondition Symbol.final = x at h
  cases h with
  | atBegin _ => exact absurd hx.symm (Symbol.beginOf_ne_ofCondition _ _)
  | atEnd _ => exact absurd hx.symm (Symbol.endOf_ne_ofCondition _ _)
  | edge _ => exact absurd hx.symm (Symbol.endOf_ne_ofCondition _ _)
  | initial _ => exact absurd hx (by decide)
  | final _ => exact absurd hx.symm (Symbol.endOf_ne_ofCondition _ _)
  | atInit => exact absurd hx (by decide)
  | shared hid hab =>
      rw [← hx]
      exact atBoundary_of_alias hid hab (Or.inr hx.symm)

/-- `Final` leads to the ends of scenarios that may come last, and to where a lifeline opens or
closes with it. -/
theorem Links.of_final (h : spec.Links c Symbol.final b) :
    spec.finals ≠ [] ∨ spec.AtBoundary c Symbol.final := by
  rw [← Symbol.ofCondition_final] at h ⊢
  generalize hx : ofCondition Symbol.final = x at h
  cases h with
  | atBegin _ => exact absurd hx.symm (Symbol.beginOf_ne_ofCondition _ _)
  | atEnd _ => exact absurd hx.symm (Symbol.endOf_ne_ofCondition _ _)
  | edge _ => exact absurd hx.symm (Symbol.beginOf_ne_ofCondition _ _)
  | initial _ => exact absurd hx.symm (Symbol.beginOf_ne_ofCondition _ _)
  | final hid => exact Or.inl (List.ne_nil_of_mem hid)
  | atInit => exact absurd hx (by decide)
  | shared hid hab =>
      rw [← hx]
      exact Or.inr (atBoundary_of_alias hid hab (Or.inl hx.symm))

theorem LeavesFinal.not_leadsTo (h : spec.LeavesFinal c) : ¬spec.LeadsTo c a Symbol.final := by
  rintro (hleads | ⟨hnone, rfl⟩)
  · obtain ⟨m, -, hlast⟩ := Relation.TransGen.tail'_iff.mp hleads
    exact h.2 hlast.atBoundary_of_to_final
  · obtain ⟨f, hf⟩ := List.exists_mem_of_ne_nil _ h.1
    exact hnone _ (.final hf)

theorem leadsTo_final_self (h : ¬spec.LeavesFinal c) :
    spec.LeadsTo c Symbol.final Symbol.final := by
  by_cases hback : spec.AtBoundary c Symbol.final
  · exact Or.inl hback.leads_back
  · refine Or.inr ⟨fun z hz => ?_, rfl⟩
    exact h ⟨hz.of_final.resolve_right hback, hback⟩

/-! ## What becomes of a production -/

/-- A production of a lifeline has a copy where it stood, unless that is a `Final` that is left. -/
theorem leadsTo_self_of_not_leavesFinal {s : ScenarioId} (hs : spec.declares s = true)
    {q : Production} {x : Symbol} (hq : q ∈ (c.lifeline s).productions (spec.nameOf s))
    (hx : q.first? = some x) (h : ¬(x = Symbol.final ∧ spec.LeavesFinal c)) :
    spec.LeadsTo c x x := by
  by_cases hfinal : x = Symbol.final
  · rw [hfinal]
    exact leadsTo_final_self fun hleaves => h ⟨hfinal, hleaves⟩
  · rcases Lifeline.first?_of_mem_productions hq with hopen | ⟨label, -, hcond⟩
    · rw [hx] at hopen
      rw [Option.some.inj hopen]
      exact Or.inl (.tail (.single (links_opening hs)) (links_to_opening hs))
    · rw [hx] at hcond
      rw [Option.some.inj hcond] at hfinal ⊢
      exact leadsTo_self_of_ne_final fun heq => hfinal (Symbol.ofCondition_eq_final_iff.mpr heq)

/-- Whatever is copied, no copy starts at a `Final` that is left. -/
theorem LeavesFinal.not_mem_reroot (h : spec.LeavesFinal c) {p : Production}
    (hp : p.first? = some Symbol.final) :
    p ∉ reroot (componentRelation (.ofPairs spec.commonPairs) (spec.lifelinesOf c))
      (extract (spec.lifelinesOf c)) := by
  intro hmem
  obtain ⟨q, hq, hcopy⟩ := mem_reroot_iff.mp hmem
  obtain ⟨name, events, -, hprod⟩ := mem_extract_iff.mp hq
  obtain ⟨x, hx⟩ := exists_first? hprod
  obtain ⟨y, hleads, rfl⟩ := (mem_copies_componentRelation_iff hx).mp hcopy
  rw [Production.first?_startingAt] at hp
  rw [Option.some.inj hp] at hleads
  exact h.not_leadsTo hleads

/--
**Re-rooting keeps every production but those of a `Final` that is left.** If all references
resolve, a production of a component is among the re-rooted ones if and only if it does not
start at `Final`, or no scenario may come last, or some lifeline of the component opens or
closes with `Final`.
-/
theorem mem_reroot_extract_iff {spec : Specification} {c : Component} (hres : spec.Resolves c) :
    ∃ common, spec.commonRelation = .ok common ∧
      ∀ p ∈ extract (spec.lifelinesOf c),
        (p ∈ reroot (componentRelation common (spec.lifelinesOf c))
            (extract (spec.lifelinesOf c)) ↔
          p.first? ≠ some Symbol.final ∨ spec.finals = [] ∨
            ∃ s ∈ spec.scenarioIds, (c.lifeline s).opening? = some Symbol.final ∨
              (c.lifeline s).closing? = some Symbol.final) := by
  refine ⟨_, commonRelation_eq_ok hres, fun p hp => ?_⟩
  have hkept : (p.first? ≠ some Symbol.final ∨ spec.finals = [] ∨
      spec.AtBoundary c Symbol.final) ↔ ¬(p.first? = some Symbol.final ∧ spec.LeavesFinal c) := by
    unfold LeavesFinal
    tauto
  refine Iff.trans ⟨fun h => ?_, fun h => ?_⟩ hkept.symm
  · rintro ⟨hfirst, hleaves⟩
    exact hleaves.not_mem_reroot hfirst h
  · obtain ⟨name, events, hmem, hprod⟩ := mem_extract_iff.mp hp
    obtain ⟨s, hs, rfl, rfl⟩ := mem_lifelinesOf_iff.mp hmem
    obtain ⟨x, hx⟩ := exists_first? hprod
    rw [hx, Option.some_inj] at h
    have hself := leadsTo_self_of_not_leavesFinal hs hprod hx h
    exact mem_reroot_iff.mpr ⟨p, hp, (mem_copies_componentRelation_iff hx).mpr
      ⟨x, hself, (Production.startingAt_self hx).symm⟩⟩

/-- Counts as done before it has paid. -/
def guest : Component where
  name := "Guest"
  lifelines := ⟨[(⟨0⟩, [.message "order", .condition "Final", .message "pay"])], by decide⟩

/-- The only scenario comes first and last. -/
def visit : Specification :=
  ((((empty.addScenario "Visit" (by decide)).addComponent "Guest" (by decide)).placeLifeline ⟨0⟩ ⟨0⟩
    [.message "order", .condition "Final", .message "pay"]).addInitial ⟨0⟩).addFinal ⟨0⟩

theorem mem_reroot_extract_iff_visit :
    visit.Resolves guest ∧ ∃ common, visit.commonRelation = .ok common ∧
      (⟨["B_Visit", "order", "Final"]⟩ : Production) ∈ extract (visit.lifelinesOf guest) ∧
      (⟨["B_Visit", "order", "Final"]⟩ : Production) ∈
        reroot (componentRelation common (visit.lifelinesOf guest))
          (extract (visit.lifelinesOf guest)) := by
  have hres : visit.Resolves guest :=
    ⟨by decide, by decide, by decide, by decide, by decide⟩
  obtain ⟨common, hcommon, hkept⟩ := mem_reroot_extract_iff hres
  have hmem : (⟨["B_Visit", "order", "Final"]⟩ : Production) ∈
      extract (visit.lifelinesOf guest) := by decide
  exact ⟨hres, common, hcommon, hmem, (hkept _ hmem).mpr (Or.inl (by decide))⟩

/-- What a guest does behind `Final` is no longer done there. -/
theorem reroot_drops_visit :
    visit.component? ⟨0⟩ = some guest ∧ visit.Resolves guest ∧
      ∃ common, visit.commonRelation = .ok common ∧
        (⟨["Final", "pay", "E_Visit"]⟩ : Production) ∈ extract (visit.lifelinesOf guest) ∧
        (⟨["Final", "pay", "E_Visit"]⟩ : Production) ∉
          reroot (componentRelation common (visit.lifelinesOf guest))
            (extract (visit.lifelinesOf guest)) := by
  have hres : visit.Resolves guest :=
    ⟨by decide, by decide, by decide, by decide, by decide⟩
  have hleaves : visit.LeavesFinal guest := by decide
  exact ⟨rfl, hres, _, commonRelation_eq_ok hres, by decide, hleaves.not_mem_reroot (by decide)⟩

end Specification

end ScenarioFsp
