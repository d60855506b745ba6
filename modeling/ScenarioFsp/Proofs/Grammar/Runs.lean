import Mathlib.Logic.Relation
import ScenarioFsp.Grammar.Traces
import ScenarioFsp.Proofs.Grammar.Soundness

/-!
# Runs of a grammar

A run takes an alternative of the symbol where it is, goes on at the symbol in
which that ends, and so on, for as long as it likes. What it does is the sequence
of its observable actions; `_tau` leaves no mark. A symbol without a rule offers
no alternative, so a run that comes there stays there.

A reduced grammar is compared run by run with the one it comes from. Most
reductions match one alternative by a run of the other grammar; `Run.simulate`
turns that into a statement about whole runs.
-/

namespace ScenarioFsp

namespace Grammar

/-- `Run g s w e`: some run from `s` to `e` has `w` for its observable actions. -/
inductive Run (g : Grammar) : Symbol → Trace → Symbol → Prop where
  | stop (s : Symbol) : Run g s [] s
  | step {s m e : Symbol} {p : Production} {w : Trace} :
      p ∈ g.alternativesOf s → p.last? = some m → Run g m w e → Run g s (p.visible ++ w) e

/-- What can be observed from `s`, up to any point of a run. -/
def Observes (g : Grammar) (s : Symbol) (t : Trace) : Prop :=
  ∃ w e, g.Run s w e ∧ t <+: w

variable {g g' : Grammar}

theorem Run.trans {s m e : Symbol} {v w : Trace} (h : g.Run s v m) (h' : g.Run m w e) :
    g.Run s (v ++ w) e := by
  induction h with
  | stop _ => exact h'
  | step hp hl _ ih =>
      rw [List.append_assoc]
      exact Run.step hp hl (ih h')

theorem Run.single {s e : Symbol} {p : Production} (hp : p ∈ g.alternativesOf s)
    (hl : p.last? = some e) : g.Run s p.visible e := by
  have := Run.step hp hl (Run.stop e)
  rwa [List.append_nil] at this

/-- Where there is no alternative, a run stays. -/
theorem Run.stays {s e : Symbol} {w : Trace} (h : g.Run s w e) (hs : g.alternativesOf s = []) :
    w = [] ∧ e = s := by
  cases h with
  | stop _ => exact ⟨rfl, rfl⟩
  | step hp _ _ =>
      rw [hs] at hp
      exact absurd hp List.not_mem_nil

/-- A run that leaves takes a last alternative. -/
theorem Run.eq_or_exists_last {s e : Symbol} {w : Trace} (h : g.Run s w e) :
    (w = [] ∧ e = s) ∨ ∃ v m p, g.Run s v m ∧ p ∈ g.alternativesOf m ∧ p.last? = some e ∧
      w = v ++ p.visible := by
  induction h with
  | stop s => exact Or.inl ⟨rfl, rfl⟩
  | @step s m e p w hp hl _ ih =>
      right
      rcases ih with ⟨rfl, rfl⟩ | ⟨v, n, q, hrun, hq, hlast, rfl⟩
      · exact ⟨[], s, p, Run.stop s, hp, hl, List.append_nil _⟩
      · exact ⟨p.visible ++ v, n, q, Run.step hp hl hrun, hq, hlast, (List.append_assoc ..).symm⟩

/-- With more alternatives, every run is still possible. -/
theorem Run.mono (h : ∀ s p, p ∈ g.alternativesOf s → p ∈ g'.alternativesOf s)
    {s e : Symbol} {w : Trace} (hrun : g.Run s w e) : g'.Run s w e := by
  induction hrun with
  | stop s => exact Run.stop s
  | step hp hl _ ih => exact Run.step (h _ _ hp) hl ih

/--
**Simulation.** If related symbols match each other's alternatives by runs that
show the same and lead to related symbols, then they match whole runs.
-/
theorem Run.simulate {R : Symbol → Symbol → Prop}
    (hstep : ∀ s s' m p, R s s' → p ∈ g.alternativesOf s → p.last? = some m →
      ∃ m', g'.Run s' p.visible m' ∧ R m m')
    {s s' e : Symbol} {w : Trace} (hs : R s s') (h : g.Run s w e) :
    ∃ e', g'.Run s' w e' ∧ R e e' := by
  -- by induction on the run, with the related symbol moving along
  induction h generalizing s' with
  | stop s => exact ⟨s', Run.stop s', hs⟩
  | step hp hl _ ih =>
      obtain ⟨m', hrun, hm⟩ := hstep _ _ _ _ hs hp hl
      obtain ⟨e', hrest, he⟩ := ih hm
      exact ⟨e', hrun.trans hrest, he⟩

/-! ## Observations -/

theorem observes_nil (g : Grammar) (s : Symbol) : g.Observes s [] :=
  ⟨[], s, Run.stop s, List.nil_prefix⟩

/-- Whoever can go further than each run of `s` can be observed to do what `s` does. -/
theorem Observes.of_runs {s s' : Symbol} {t : Trace} (h : g.Observes s t)
    (hruns : ∀ w e, g.Run s w e → ∃ w' e', g'.Run s' w' e' ∧ w <+: w') : g'.Observes s' t := by
  obtain ⟨w, e, hrun, ht⟩ := h
  obtain ⟨w', e', hrun', hw⟩ := hruns w e hrun
  exact ⟨w', e', hrun', ht.trans hw⟩

end Grammar

end ScenarioFsp
