import ScenarioFsp.Proofs.Grammar.Simplification

/-!
# Simplification keeps what leads to the end

What is observed up to any point of a run does not tell a component that has come
to `Final` from one that cannot go on. So this is shown on its own: the runs that
come to a symbol without a rule are kept by every step, with what they show and with
where they end. Folding and inlining may move the end of a run, but only off a
symbol that has a rule, and merging renames none but those.
-/

namespace ScenarioFsp

namespace Grammar

/-- `w` is what some run from `Init` shows whose last alternative ends in `Final`. -/
def Completes (g : Grammar) (w : Trace) : Prop :=
  ∃ v s p, g.Run start v s ∧ p ∈ g.alternativesOf s ∧ p.last? = some Symbol.final ∧
    w = v ++ p.visible

variable {g g' : Grammar}

/-- A run from `Init` to `Final` takes an alternative at least. -/
theorem completes_iff {w : Trace} : g.Completes w ↔ g.Run start w Symbol.final := by
  refine ⟨fun h => ?_, fun h => ?_⟩
  · obtain ⟨v, s, p, hrun, hp, hl, rfl⟩ := h
    exact hrun.trans (Run.single hp hl)
  · rcases h.eq_or_exists_last with ⟨-, hsame⟩ | hlast
    · exact absurd hsame (by decide)
    · exact hlast

/-! ## Runs that come to a symbol without a rule -/

theorem Sound.run_folded_iff (hg : g.Sound) {s e : Symbol} {w : Trace}
    (he : g.hasRule e = false) : g.folded.Run s w e ↔ g.Run s w e := by
  refine ⟨hg.run_of_run_folded, fun h => ?_⟩
  obtain ⟨e', hrun, hend⟩ := hg.run_folded h
  rwa [hend he] at hrun

theorem Sound.run_inlined_iff (hg : g.Sound) {symbol target : Symbol} {p : Production}
    (h : g.Single symbol p target) {s e : Symbol} {w : Trace} (hs : s ≠ symbol)
    (he : g.hasRule e = false) : (g.inlined symbol p).Run s w e ↔ g.Run s w e := by
  refine ⟨hg.run_of_run_inlined h, fun hrun => ?_⟩
  have hne : e ≠ symbol := by
    intro heq
    rw [heq, hasRule_of_mem h.mem] at he
    exact absurd he (by simp)
  obtain ⟨w', e', hrun', -, hend⟩ := hg.run_inlined h hs hrun
  obtain ⟨rfl, rfl⟩ := hend hne
  exact hrun'

theorem Sound.run_renamed_iff (hg : g.Sound) (h : g.Follows g.twinNames) {e : Symbol}
    {w : Trace} (he : g.hasRule e = false) :
    (g.renamed g.twinNames).Run start w e ↔ g.Run start w e := by
  -- only symbols with a rule are renamed, and only to symbols with a rule
  have hname : ∀ s s', g.twinNames.get? s = some s' → s ≠ e ∧ s' ≠ e := by
    intro s s' hs
    obtain ⟨hrule, hrule'⟩ := hg.twinNames_rules hs
    refine ⟨?_, ?_⟩
    · rintro rfl
      exact absurd (hrule.symm.trans he) (by simp)
    · rintro rfl
      exact absurd (hrule'.symm.trans he) (by simp)
  have hstays : standIn g.twinNames e = e := by
    cases hget : g.twinNames.get? e with
    | none => exact standIn_of_none hget
    | some e' => exact absurd rfl (hname e e' hget).1
  refine ⟨fun hrun => ?_, fun hrun => ?_⟩
  · rw [← standIn_of_none h.start] at hrun
    obtain ⟨e', hrun', heq⟩ := h.run_of_run_renamed hrun
    cases hget : g.twinNames.get? e' with
    | none =>
        rw [heq, standIn_of_none hget]
        exact hrun'
    | some e'' =>
        rw [standIn_of_some hget] at heq
        exact absurd heq.symm (hname e' e'' hget).2
  · have hrun' := h.run_renamed hrun
    rwa [standIn_of_none h.start, hstays] at hrun'

/-- **A step keeps the runs from `Init` to a symbol without a rule**, if the names are apart. -/
theorem Sound.run_step_iff (hg : g.Sound) (hn : g.NamesApart) (h : g.Step g') {e : Symbol}
    {w : Trace} (he : g.hasRule e = false) : g'.Run start w e ↔ g.Run start w e := by
  cases h with
  | restrict => exact hg.run_start_restricted_iff
  | fold => exact hg.run_folded_iff he
  | dropLoops => exact hg.run_dropSilentLoops_iff
  | inline hs hsingle => exact hg.run_inlined_iff hsingle (Ne.symm hs) he
  | dropRepeats => exact run_dropRepeats_iff
  | merge => exact hg.run_renamed_iff (hg.follows_twinNames fun _ _ h => hg.twins_agree hn h) he

theorem Steps.run_iff (h : g.Steps g') (hg : g.Sound) (hn : g.NamesApart) {e : Symbol}
    {w : Trace} (he : g.hasRule e = false) : g'.Run start w e ↔ g.Run start w e := by
  have hkept := h.invariant
    (P := fun a => a.IsReductOf g ∧ (a.Run start w e ↔ g.Run start w e)) hg
    ⟨hg.isReductOf_self, Iff.rfl⟩ fun a b ha hP hstep => by
      obtain ⟨hred, hruns⟩ := hP
      have hna := hn.of_within hred.within
      have hea := hasRule_eq_false (hred.within.rules e) he
      exact ⟨(ha.step_isReductOf hna hstep).trans hred, (ha.run_step_iff hna hstep hea).trans hruns⟩
  exact hkept.2.2

/-! ## Completion -/

/--
**Simplification keeps what leads to `Final`.** Before and after it, the same can be
observed of the runs from `Init` that come to `Final`: none of them is cut short, and
no run that stopped elsewhere comes to `Final` instead.
-/
theorem simplify_keeps_completion {g : Grammar} (hg : g.check = .ok ()) (hn : g.NamesApart)
    (hfinal : g.hasRule Symbol.final = false) :
    ∃ g' stats, g.simplify = .ok (g', stats) ∧ ∀ w, g'.Completes w ↔ g.Completes w := by
  have hsound := check_eq_ok_iff.mp hg
  obtain ⟨⟨g', stats⟩, hresult, hsteps⟩ := hsound.exists_passes_steps g.passBound .zero
  refine ⟨g', stats, hresult, fun w => ?_⟩
  rw [completes_iff, completes_iff]
  exact hsteps.run_iff hsound hn hfinal

/-- `Init` can be done at once without being seen, or come to a rule that offers nothing. -/
def doneOrStuck : Grammar :=
  ((⟨.empty⟩ : Grammar).store "C_X" ⟨"C_X", []⟩).store "Init"
    ⟨"Init", [⟨["Init", "_tau", "C_X"]⟩, ⟨["Init", "a", "C_X"]⟩, ⟨["Init", "_tau", "Final"]⟩]⟩

theorem doneOrStuck_completes_iff {w : Trace} : doneOrStuck.Completes w ↔ w = [] := by
  have hinit : doneOrStuck.alternativesOf "Init" =
      [⟨["Init", "_tau", "C_X"]⟩, ⟨["Init", "a", "C_X"]⟩, ⟨["Init", "_tau", "Final"]⟩] := rfl
  rw [completes_iff]
  refine ⟨fun h => ?_, fun h => ?_⟩
  · generalize hs : start = s at h
    generalize he : Symbol.final = e at h
    cases h with
    | stop _ => exact absurd (hs.trans he.symm) (by decide)
    | @step _ m _ p w hp hl hrest =>
        subst hs he
        have hstuck : some m ≠ some "C_X" := by
          intro hm
          obtain rfl := Option.some.inj hm
          exact absurd (hrest.stays rfl).2 (by decide)
        rw [show start = "Init" from rfl, hinit] at hp
        simp only [List.mem_cons, List.not_mem_nil, or_false] at hp
        rcases hp with rfl | rfl | rfl
        · exact absurd hl.symm hstuck
        · exact absurd hl.symm hstuck
        · obtain rfl := Option.some.inj hl
          rw [(hrest.stays rfl).1]
          rfl
  · rw [h]
    exact Run.single (p := ⟨["Init", "_tau", "Final"]⟩) (hinit ▸ by decide) rfl

theorem simplify_keeps_completion_doneOrStuck :
    doneOrStuck.check = .ok () ∧ doneOrStuck.NamesApart ∧
      doneOrStuck.hasRule Symbol.final = false ∧
      ∃ g' stats, doneOrStuck.simplify = .ok (g', stats) ∧ stats.silentAlternatives = 1 ∧
        ∀ w, g'.Completes w ↔ w = [] := by
  have hn : doneOrStuck.NamesApart := ⟨by decide, by decide, by decide⟩
  obtain ⟨g', stats, hsimplify, hsame⟩ := simplify_keeps_completion (g := doneOrStuck) rfl hn rfl
  refine ⟨rfl, hn, rfl, g', stats, hsimplify, ?_,
    fun w => (hsame w).trans doneOrStuck_completes_iff⟩
  have hone : doneOrStuck.simplify.toOption.map (fun result => result.2.silentAlternatives) =
      some 1 := by decide +kernel
  rw [hsimplify] at hone
  exact Option.some.inj hone

end Grammar

end ScenarioFsp
