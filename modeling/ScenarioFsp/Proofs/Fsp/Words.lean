import ScenarioFsp.Proofs.Fsp.Projections
import ScenarioFsp.Proofs.Grammar.Grouping
import ScenarioFsp.Proofs.Synthesis

/-!
# Synthesis makes words of words

A symbol is a label, or a name behind a mark, or one of the few that are fixed. So if the names
and labels of a specification can be spelled, every symbol in the grammar of a component is a
word (`Specification.worded_of_synthesiseComponent`): the productions that are cut from a
lifeline are made of words, the points to which they are copied are words, the rules that are
added are named after symbols that are there, and no step brings in a name. Nothing else is
needed for a process to be read back.
-/

namespace ScenarioFsp

open Document (isLabelPart hasSpelling)
open Fsp (isWord)
open ScenarioFsp.Symbol (beginOf endOf ofCondition)

/-! ## Symbols -/

namespace Symbol

variable {s mark : String}

theorem isWord_append (hmark : mark.toList.all isLabelPart = true) (h : isWord s = true) :
    isWord (mark ++ s) = true := by
  refine Fsp.isWord_of_forall ?_ fun ch hch => ?_
  · rw [String.toList_append]
    exact List.append_ne_nil_of_right_ne_nil _ (Fsp.toList_ne_nil_of_isWord h)
  · rw [String.toList_append, List.mem_append] at hch
    rcases hch with hch | hch
    · exact List.all_eq_true.mp hmark ch hch
    · exact Fsp.isLabelPart_of_isWord h hch

theorem isWord_beginOf (h : isWord s = true) : isWord (beginOf s) = true :=
  isWord_append (by decide) h

theorem isWord_endOf (h : isWord s = true) : isWord (endOf s) = true :=
  isWord_append (by decide) h

theorem isWord_ofCondition (h : isWord s = true) : isWord (ofCondition s) = true := by
  unfold ofCondition
  split
  · exact h
  · exact isWord_append (by decide) h

end Symbol

/-- The label of an event that can be spelled is a word. -/
theorem Event.isWord_label {e : Event} (h : hasSpelling e = true) :
    (∀ label, e = .message label → isWord label = true) ∧
      ∀ label, e = .condition label → isWord (ofCondition label) = true := by
  constructor
  · rintro label rfl
    exact Fsp.isWord_of_forall (Fsp.toList_ne_nil_of_isSpelled h)
      (Fsp.forall_mem_of_isSpelled (fun _ => Document.isLabelPart_of_isLetterOrDigit)
        (fun _ => id) h)
  · rintro label rfl
    exact Symbol.isWord_ofCondition (Fsp.CrossCheck.isWord_of_isIdentifier h)

/-! ## Productions -/

/-- All symbols are words. -/
def Production.Worded (p : Production) : Prop := ∀ s ∈ p.symbols, isWord s = true

namespace Lifeline

variable {scenario : String} {start stop : Symbol} {actions : List Symbol} {events : Lifeline}
  {p : Production}

theorem worded_piece (hstart : isWord start = true) (hactions : ∀ a ∈ actions, isWord a = true)
    (hstop : isWord stop = true) : (piece start actions stop).Worded := by
  intro s hs
  rcases List.mem_cons.mp hs with rfl | hs
  · exact hstart
  rcases List.mem_append.mp hs with hs | hs
  · split at hs
    · rw [List.mem_singleton.mp hs]
      decide
    · exact hactions s hs
  · rwa [List.mem_singleton.mp hs]

theorem worded_cut (hscenario : isWord scenario = true) (hstart : isWord start = true)
    (hactions : ∀ a ∈ actions, isWord a = true) (hevents : ∀ e ∈ events, hasSpelling e = true)
    (hp : p ∈ cut scenario start actions events) : p.Worded := by
  -- a condition ends one piece and starts the next, so start and actions change on the way
  induction events generalizing start actions with
  | nil =>
      unfold cut at hp
      split at hp
      · exact absurd hp List.not_mem_nil
      · rw [List.mem_singleton.mp hp]
        exact worded_piece hstart hactions (Symbol.isWord_endOf hscenario)
  | cons e rest ih =>
      obtain ⟨he, hrest⟩ := List.forall_mem_cons.mp hevents
      cases e with
      | message label =>
          refine ih hstart (fun a ha => ?_) hrest hp
          rcases List.mem_append.mp ha with hold | hnew
          · exact hactions a hold
          · rw [List.mem_singleton.mp hnew]
            exact (Event.isWord_label he).1 label rfl
      | condition label =>
          have hpoint := (Event.isWord_label he).2 label rfl
          rcases List.mem_cons.mp hp with rfl | hp
          · exact worded_piece hstart hactions hpoint
          · exact ih hpoint (fun _ ha => absurd ha List.not_mem_nil) hrest hp

theorem worded_productions (hscenario : isWord scenario = true)
    (hevents : ∀ e ∈ events, hasSpelling e = true) (hp : p ∈ productions scenario events) :
    p.Worded := by
  have hbegin := Symbol.isWord_beginOf hscenario
  cases events with
  | nil => exact absurd hp List.not_mem_nil
  | cons e rest =>
      cases e with
      | message label =>
          exact worded_cut hscenario hbegin (fun _ ha => absurd ha List.not_mem_nil) hevents hp
      | condition label =>
          obtain ⟨he, hrest⟩ := List.forall_mem_cons.mp hevents
          exact worded_cut hscenario ((Event.isWord_label he).2 label rfl)
            (fun _ ha => absurd ha List.not_mem_nil) hrest hp

/-- A point of a lifeline is that of one of its conditions. -/
theorem isWord_of_point? {e : Event} {point : Symbol} (he : hasSpelling e = true)
    (hpoint : e.point? = some point) : isWord point = true := by
  cases e with
  | message label => exact absurd hpoint (by simp [Event.point?])
  | condition label =>
      obtain rfl := Option.some.inj hpoint
      exact (Event.isWord_label he).2 label rfl

theorem isWord_of_mem_aliases {a b : Symbol} (hscenario : isWord scenario = true)
    (hevents : ∀ e ∈ events, hasSpelling e = true) (h : (a, b) ∈ events.aliases scenario) :
    isWord b = true := by
  have hbegin := Symbol.isWord_beginOf hscenario
  have hend := Symbol.isWord_endOf hscenario
  rcases mem_aliases_iff.mp h with ⟨-, -, rfl⟩ | ⟨point, hopen, ⟨-, rfl⟩ | ⟨-, rfl⟩⟩ |
    ⟨point, hclose, ⟨-, rfl⟩ | ⟨-, rfl⟩⟩
  · exact hbegin
  · exact hbegin
  · obtain ⟨e, he, hpoint⟩ := Option.bind_eq_some_iff.mp hopen
    exact isWord_of_point? (hevents e (List.mem_of_head? he)) hpoint
  · obtain ⟨e, he, hpoint⟩ := Option.bind_eq_some_iff.mp hclose
    exact isWord_of_point? (hevents e (List.mem_of_getLast? he)) hpoint
  · exact hend

end Lifeline

/-! ## Grammars -/

namespace Grammar

variable {g g' : Grammar}

/-- The rules that are added are named after symbols that are there. -/
theorem worded_of_ofRules {ps : List Production} (h : ofRules (groupByStart ps) = .ok g)
    (hps : ∀ p ∈ ps, p.symbols ≠ [] ∧ p.Worded) : Fsp.Worded g := by
  obtain ⟨g₀, hadd, hgroups⟩ := exists_addRules_groupByStart ps
  have hmade : ofRules (groupByStart ps) = .ok g₀.complete := by
    unfold ofRules
    rw [hadd]
    rfl
  obtain rfl := Except.ok.inj (hmade.symm.trans h)
  refine ⟨fun r hr => ?_, fun p hp s hs => ?_⟩
  · have hrule := hgroups.sound.complete.hasRule_symbol hr
    rcases (hgroups.hasRule_complete_iff fun p hp => (hps p hp).1).mp hrule with
      hstart | ⟨p, hp, hfirst⟩ | ⟨-, p, hp, hlast⟩
    · rw [hstart]
      decide
    · exact (hps p hp).2 _ (List.mem_of_head? hfirst)
    · exact (hps p hp).2 _ (List.mem_of_getLast? hlast)
  · obtain ⟨start, hstart⟩ := mem_alternatives_iff.mp hp
    rw [alternativesOf_complete, hgroups.alternativesOf_eq, mem_ruleOf_iff] at hstart
    exact (hps p hstart.1).2 s hs

theorem worded_of_within (hw : g'.Within g) (hg : g.Sound) (hg' : g'.Sound) (h : Fsp.Worded g) :
    Fsp.Worded g' := by
  have hrule : ∀ s, g.hasRule s = true → isWord s = true := by
    intro s hs
    obtain ⟨r, hr⟩ := hasRule_iff.mp hs
    have hsymbol := hg.keyed s r hr
    rw [← hsymbol]
    exact h.rules r (hg.mem_ruleList_iff.mpr (by rwa [hsymbol]))
  refine ⟨fun r hr => hrule _ (hw.rules _ (hg'.hasRule_symbol hr)), fun p hp s hs => ?_⟩
  rcases hw.symbols p hp s hs with hs | ⟨q, hq, hs⟩
  · exact hrule s hs
  · exact h.alternatives q hq s hs

end Grammar

/-! ## Specifications -/

namespace Specification

variable {spec : Specification} {c : Component}

theorem Writable.isWord_nameOf (h : spec.Writable) {id : ScenarioId}
    (hid : spec.declares id = true) : isWord (spec.nameOf id) = true :=
  Fsp.CrossCheck.isWord_of_isIdentifier (h.scenarios _ (nameOf_mem hid)).1

/-- Whatever a point is linked to is a word. -/
theorem Writable.isWord_of_links (h : spec.Writable) (hc : c ∈ spec.components) {a b : Symbol}
    (hab : spec.Links c a b) : isWord b = true := by
  cases hab with
  | atBegin hid => exact Symbol.isWord_beginOf (h.isWord_nameOf hid)
  | atEnd hid => exact Symbol.isWord_endOf (h.isWord_nameOf hid)
  | edge he => exact Symbol.isWord_endOf (h.isWord_nameOf (h.closed _ (.source he)))
  | initial hid => decide
  | final hid => exact Symbol.isWord_endOf (h.isWord_nameOf (h.closed _ (.final hid)))
  | atInit => decide
  | shared hid hab =>
      exact Lifeline.isWord_of_mem_aliases (h.isWord_nameOf hid) (h.events c hc _) hab

theorem Writable.worded_rooted (h : spec.Writable) (hc : c ∈ spec.components) {p : Production}
    (hp : p ∈ reroot (componentRelation (.ofPairs spec.commonPairs) (spec.lifelinesOf c))
      (extract (spec.lifelinesOf c))) : p.Worded := by
  obtain ⟨q, hq, hcopy⟩ := mem_reroot_iff.mp hp
  obtain ⟨name, events, hmem, hprod⟩ := mem_extract_iff.mp hq
  obtain ⟨id, hid, rfl, rfl⟩ := mem_lifelinesOf_iff.mp hmem
  have hword := Lifeline.worded_productions (h.isWord_nameOf hid) (h.events c hc id) hprod
  obtain ⟨x, hx⟩ := exists_first? hprod
  obtain ⟨y, hy, rfl⟩ := (mem_copies_componentRelation_iff hx).mp hcopy
  intro s hs
  rcases List.mem_cons.mp hs with rfl | hs
  · rcases hy with hlinked | ⟨-, rfl⟩
    · obtain ⟨m, -, hlink⟩ := Relation.TransGen.tail'_iff.mp hlinked
      exact h.isWord_of_links hc hlink
    · exact hword _ (List.mem_of_head? hx)
  · exact hword s (List.mem_of_mem_tail hs)

/-- **The grammar of a component is made of words**, if the names and labels can be spelled. -/
theorem worded_of_synthesiseComponent (h : spec.Writable) {id : ComponentId}
    (hc : spec.component? id = some c) {sc : SynthesisedComponent}
    (hsc : spec.synthesiseComponent (.ofPairs spec.commonPairs) id = .ok sc) :
    sc.name = c.name ∧ Fsp.Worded sc.grammar := by
  have hmem : c ∈ spec.components := List.mem_of_getElem? hc
  obtain ⟨hderived, hgood, hsteps, hgood'⟩ := steps_of_synthesiseComponent hsc
  -- the steps behind the first grammar bring in no symbols, so that one decides
  rw [deriveComponent_eq_ofLifelines hc (h.closed.resolves hmem)] at hderived
  have hfollows := Derivation.follows_of_ofLifelines hderived
  refine ⟨hfollows.component_eq, Grammar.worded_of_within (hsteps.within hgood.sound) hgood.sound
    hgood'.sound (Grammar.worded_of_ofRules hfollows.grammar_eq fun p hp => ?_)⟩
  have hrooted : p ∈ sc.derivation.rooted := OrderedSet.mem_def.mpr hp
  rw [hfollows.rooted_eq] at hrooted
  exact ⟨Production.symbols_ne_nil_of_actions (actions_ne_nil_of_mem_reroot hrooted),
    h.worded_rooted hmem hrooted⟩

end Specification

end ScenarioFsp
