import ScenarioFsp.Fsp.Listing
import ScenarioFsp.Proofs.Fsp.Definitions

/-!
# Synthesis fails on dangling references only

A run looks up the ends of the edges, the marks, and for each component the scenarios
of its lifelines. If one of them is not declared it stops, and says which. Nothing
else can stop it: from the lifelines of a component a grammar is always derived,
simplified and written, and nobody on the way meets a production without symbols.
-/

namespace ScenarioFsp

/-- Results are collected one by one up to the first failure. -/
theorem mapM_cases {ε α β : Type} (f : α → Except ε β) (l : List α) :
    (∃ bs, l.mapM f = .ok bs ∧ (∀ a ∈ l, ∃ b, f a = .ok b) ∧ ∀ b ∈ bs, ∃ a ∈ l, f a = .ok b) ∨
      ∃ a ∈ l, ∃ e, f a = .error e ∧ l.mapM f = .error e := by
  induction l with
  | nil => exact Or.inl ⟨[], rfl, by simp, by simp⟩
  | cons a l ih =>
      rw [List.mapM_cons]
      cases hfirst : f a with
      | error e => exact Or.inr ⟨a, List.mem_cons_self, e, hfirst, rfl⟩
      | ok b =>
          rcases ih with ⟨bs, hbs, himages, hsources⟩ | ⟨a', ha', e, he, hrest⟩
          · refine Or.inl ⟨b :: bs, by rw [hbs]; rfl, ?_, ?_⟩
            · exact List.forall_mem_cons.mpr ⟨⟨b, hfirst⟩, himages⟩
            · refine List.forall_mem_cons.mpr ⟨⟨a, List.mem_cons_self, hfirst⟩, fun b' hb' => ?_⟩
              obtain ⟨a', ha', hb'⟩ := hsources b' hb'
              exact ⟨a', List.mem_cons_of_mem a ha', hb'⟩
          · exact Or.inr ⟨a', List.mem_cons_of_mem a ha', e, he, by rw [hrest]; rfl⟩

/-- Results that are collected without a failure are the results of the members. -/
theorem map_of_mapM {ε α β : Type} {f : α → Except ε β} {as : List α} {bs : List β}
    (h : as.mapM f = .ok bs) : as.map f = bs.map .ok := by
  induction as generalizing bs with
  | nil =>
      obtain rfl := Except.ok.inj h
      rfl
  | cons a as ih =>
      rw [List.mapM_cons] at h
      cases hfirst : f a with
      | error e =>
          rw [hfirst] at h
          exact absurd h (by simp [bind, Except.bind])
      | ok b =>
          cases hrest : as.mapM f with
          | error e =>
              rw [hfirst, hrest] at h
              exact absurd h (by simp [bind, Except.bind])
          | ok bs' =>
              rw [hfirst, hrest] at h
              obtain rfl := Except.ok.inj h
              rw [List.map_cons, List.map_cons, hfirst, ih hrest]

namespace SynthesisedComponent

/-- Whatever was extracted, copied or rewritten for the component has symbols, so that there is a
start, an end and a tail wherever one is asked for. -/
structure HasSymbols (c : SynthesisedComponent) : Prop where
  productions : ∀ p ∈ c.derivation.productions, p.symbols ≠ []
  rooted : ∀ p ∈ c.derivation.rooted, p.symbols ≠ []
  between : ∀ g, c.derivation.grammar.Steps g → ∀ p ∈ g.alternatives, p.symbols ≠ []

end SynthesisedComponent

namespace Derivation

/-- **From any lifelines a component is synthesised.** -/
theorem exists_synthesised (common : Relation) (component : String)
    (lifelines : List (String × Lifeline)) :
    ∃ c, (ofLifelines common component lifelines).bind simplified = .ok c ∧ c.HasSymbols := by
  obtain ⟨d, hd, hfollows, -⟩ := exists_ofLifelines common component lifelines
  have hgood := wellFormed_of_ofLifelines hd
  obtain ⟨c, hc, rfl, -⟩ := exists_simplified hgood
  -- every piece of a lifeline acts, and copies act like the original
  have hproductions : ∀ p ∈ c.derivation.productions, p.symbols ≠ [] := by
    intro p hp
    rw [hfollows.productions_eq] at hp
    obtain ⟨name, events, -, hprod⟩ := mem_extract_iff.mp hp
    exact Production.symbols_ne_nil_of_actions (Lifeline.actions_ne_nil_of_mem_productions hprod)
  have hrooted : ∀ p ∈ c.derivation.rooted, p.symbols ≠ [] := by
    intro p hp
    rw [hfollows.rooted_eq] at hp
    exact Production.symbols_ne_nil_of_actions (actions_ne_nil_of_mem_reroot hp)
  refine ⟨c, ?_, hproductions, hrooted, ?_⟩
  · rw [hd]
    exact hc
  · exact fun g hsteps p hp => (hsteps.wellFormed hgood).symbols_ne_nil hp

end Derivation

namespace Specification

variable {spec : Specification} {c : Component} {id : ComponentId}

/-- A component is synthesised if its lifelines are in declared scenarios, and only then. -/
theorem synthesiseComponent_cases (hc : spec.component? id = some c) (common : Relation) :
    ((∀ s ∈ c.lifelines.keys, spec.declares s = true) ∧
        ∃ sc, spec.synthesiseComponent common id = .ok sc ∧ sc.HasSymbols) ∨
      ∃ failure, spec.synthesiseComponent common id = .error failure ∧ spec.Dangles failure := by
  unfold synthesiseComponent
  rcases deriveComponent_cases hc common with ⟨hall, hd⟩ | ⟨s, hs, hnot, hd⟩
  · obtain ⟨sc, hsc, hsynthesised⟩ :=
      Derivation.exists_synthesised common c.name (spec.lifelinesOf c)
    rw [hd]
    exact Or.inl ⟨hall, sc, hsc, hsynthesised⟩
  · have hmem : c ∈ spec.components := List.mem_of_getElem? hc
    rw [hd]
    exact Or.inr ⟨_, rfl, s, _, rfl, .lifeline hmem hs, hnot⟩

/-- A specification whose flow graph and lifelines have been looked up is closed. -/
theorem closed_of_forall (hgraph : ∀ r ∈ spec.references, spec.declares r.1 = true)
    (hlifelines : ∀ c ∈ spec.components, ∀ s ∈ c.lifelines.keys, spec.declares s = true) :
    spec.Closed := by
  obtain ⟨hedges, hinitial, hfinals⟩ := forall_references_iff.mp hgraph
  exact closed_iff.mpr ⟨hedges, hinitial, hfinals, hlifelines⟩

/-- Either all is declared and every component is synthesised, or the run stops at a reference that
dangles. -/
theorem synthesise_cases (spec : Specification) :
    (spec.Closed ∧ ∃ components, spec.synthesise = .ok components ∧
        ∀ sc ∈ components, sc.grammar.WellFormed) ∨
      ∃ failure, spec.synthesise = .error failure ∧ spec.Dangles failure := by
  unfold synthesise
  rcases spec.commonRelation_cases with ⟨hgraph, hcommon⟩ | ⟨r, hr, hnot, hcommon⟩
  · rw [hcommon]
    simp only [Except.bind]
    rcases mapM_cases (spec.synthesiseComponent (.ofPairs spec.commonPairs)) spec.componentIds with
      ⟨components, hcomponents, himages, hsources⟩ | ⟨id, hid, failure, hfailure, hstop⟩
    · refine Or.inl ⟨closed_of_forall hgraph fun c hc => ?_, components, hcomponents,
        fun sc hsc => ?_⟩
      · -- a component that was synthesised has had its lifelines looked up
        obtain ⟨id, hid, hget⟩ := exists_component? hc
        obtain ⟨sc, hsc⟩ := himages id hid
        rcases synthesiseComponent_cases hget (.ofPairs spec.commonPairs) with
          ⟨hdeclared, -⟩ | ⟨failure, hfailure, -⟩
        · exact hdeclared
        · rw [hsc] at hfailure
          exact absurd hfailure (by simp)
      · obtain ⟨id, -, hsc⟩ := hsources sc hsc
        exact (steps_of_synthesiseComponent hsc).2.2.2
    · obtain ⟨c, -, hget⟩ := mem_componentIds_iff.mp hid
      rcases synthesiseComponent_cases hget (.ofPairs spec.commonPairs) with
        ⟨-, sc, hsc, -⟩ | ⟨failure', hfailure', hdangles⟩
      · rw [hsc] at hfailure
        exact absurd hfailure (by simp)
      · obtain rfl := Except.error.inj (hfailure.symm.trans hfailure')
        exact Or.inr ⟨failure, hstop, hdangles⟩
  · rw [hcommon]
    exact Or.inr ⟨_, rfl, r.1, r.2, rfl, refers_of_mem_references hr, hnot⟩

/-- Well-formed grammars are written without failure. -/
theorem exists_renderListing {components : List SynthesisedComponent}
    (h : ∀ sc ∈ components, sc.grammar.WellFormed) (deterministic : Bool) :
    ∃ listing, Fsp.renderListing deterministic components = .ok listing := by
  unfold Fsp.renderListing Fsp.renderComponents
  rcases mapM_cases (fun sc : SynthesisedComponent =>
      Fsp.renderComponent deterministic sc.name sc.grammar) components with
    ⟨texts, htexts, -⟩ | ⟨sc, hsc, failure, hfailure, -⟩
  · rw [htexts]
    exact ⟨_, rfl⟩
  · rw [Fsp.renderComponent_eq_ok (h sc hsc).sound] at hfailure
    exact absurd hfailure (by simp)

/-- A run hands back the listing with one message, or a dangling reference with none. -/
theorem ofSpecification_cases (spec : Specification) (deterministic : Bool) (milliseconds : Nat) :
    (spec.Closed ∧ ∃ listing, SynthesisRun.ofSpecification deterministic milliseconds spec =
        ⟨[SynthesisRun.timeMessage milliseconds], .ok listing⟩) ∨
      ∃ failure, SynthesisRun.ofSpecification deterministic milliseconds spec =
        ⟨[], .error failure⟩ ∧ spec.Dangles failure := by
  unfold SynthesisRun.ofSpecification SynthesisRun.ofComponents
  rcases spec.synthesise_cases with
    ⟨hclosed, components, hcomponents, hgood⟩ | ⟨failure, hfailure, hdangles⟩
  · obtain ⟨listing, hlisting⟩ := exists_renderListing hgood deterministic
    rw [hcomponents]
    simp only [Except.bind, hlisting]
    exact Or.inl ⟨hclosed, listing, rfl⟩
  · rw [hfailure]
    exact Or.inr ⟨failure, rfl, hdangles⟩

/-! ## Closed specifications -/

theorem Closed.commonRelation_eq_ok (h : spec.Closed) :
    spec.commonRelation = .ok (.ofPairs spec.commonPairs) :=
  commonRelation_of_declared fun _ hr => h _ (refers_of_mem_references hr)

/-- The grammar of every component is derived, whatever the relation. -/
theorem Closed.exists_deriveComponent (h : spec.Closed) (common : Relation)
    (hid : id ∈ spec.componentIds) : ∃ d, spec.deriveComponent common id = .ok d := by
  obtain ⟨c, hc, hget⟩ := mem_componentIds_iff.mp hid
  obtain ⟨d, hd, -⟩ := Derivation.exists_ofLifelines common c.name (spec.lifelinesOf c)
  exact ⟨d, (deriveComponent_eq_ofLifelines hget (h.resolves hc) common).trans hd⟩

theorem Closed.exists_listing (h : spec.Closed) (deterministic : Bool) (milliseconds : Nat) :
    ∃ listing, SynthesisRun.ofSpecification deterministic milliseconds spec =
      ⟨[SynthesisRun.timeMessage milliseconds], .ok listing⟩ := by
  rcases spec.ofSpecification_cases deterministic milliseconds with
    ⟨-, hlisting⟩ | ⟨failure, -, hdangles⟩
  · exact hlisting
  · exact absurd hdangles (h.not_dangles failure)

/-! ## Main statement -/

/--
**Synthesis fails exactly on dangling references.** The components are synthesised if
and only if both ends of every edge, every mark and the scenario of every lifeline are
declared; any failure is about a scenario that is referred to and not declared. The
same holds for each component on its own, whatever relation it is given and whatever
becomes of the others: nobody runs into a production without symbols, and a grammar
passes the checks whenever it is checked. A run reports its time exactly if it has a
listing.
-/
theorem synthesise_fails_iff_dangling (spec : Specification) :
    ((∃ components, spec.synthesise = .ok components) ↔ spec.Closed) ∧
      (∀ failure, spec.synthesise = .error failure → spec.Dangles failure) ∧
      (∀ common, ∀ id ∈ spec.componentIds,
        (∃ sc, spec.synthesiseComponent common id = .ok sc ∧ sc.HasSymbols) ∨
          ∃ failure, spec.synthesiseComponent common id = .error failure ∧
            spec.Dangles failure) ∧
      ∀ deterministic milliseconds,
        (spec.Closed ∧ ∃ listing, SynthesisRun.ofSpecification deterministic milliseconds spec =
            ⟨[SynthesisRun.timeMessage milliseconds], .ok listing⟩) ∨
          (¬spec.Closed ∧ ∃ failure, SynthesisRun.ofSpecification deterministic milliseconds spec =
            ⟨[], .error failure⟩ ∧ spec.Dangles failure) := by
  refine ⟨?_, fun failure hfailure => ?_, fun common id hid => ?_,
    fun deterministic milliseconds => ?_⟩
  · rcases spec.synthesise_cases with ⟨hclosed, components, hok, -⟩ | ⟨failure, herror, hdangles⟩
    · exact iff_of_true ⟨components, hok⟩ hclosed
    · refine iff_of_false ?_ fun hclosed => hclosed.not_dangles failure hdangles
      rintro ⟨components, hok⟩
      rw [herror] at hok
      exact absurd hok (by simp)
  · rcases spec.synthesise_cases with ⟨-, components, hok, -⟩ | ⟨failure', herror, hdangles⟩
    · rw [hok] at hfailure
      exact absurd hfailure (by simp)
    · rwa [Except.error.inj (hfailure.symm.trans herror)]
  · obtain ⟨c, -, hget⟩ := mem_componentIds_iff.mp hid
    rcases synthesiseComponent_cases hget common with ⟨-, hsc⟩ | hdangling
    · exact Or.inl hsc
    · exact Or.inr hdangling
  · rcases spec.ofSpecification_cases deterministic milliseconds with
      hlisting | ⟨failure, herror, hdangles⟩
    · exact Or.inl hlisting
    · exact Or.inr ⟨fun hclosed => hclosed.not_dangles failure hdangles, failure, herror, hdangles⟩

example : (empty.addInitial ⟨3⟩).synthesise =
    .error (.unknownScenario ⟨3⟩ "initial scenarios") := by rfl

end Specification

end ScenarioFsp
