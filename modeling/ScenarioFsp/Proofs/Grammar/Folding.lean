import ScenarioFsp.Grammar.Silence
import ScenarioFsp.Proofs.Grammar.Reducts

/-!
# Folding silent alternatives

After folding, a symbol offers what is not silent at any symbol to which it
silently leads, itself included (`Sound.mem_alternativesOf_folded_iff`). Whatever
the shape of the silent alternatives, cycles included, this settles both
directions: a folded alternative stands for a silent way followed by a visible
alternative, and a silent way in front of an alternative is found in the folded
rule.

Only a run that stops in the middle of a silent way cannot stop there any more.
It stops before the way instead, and nobody sees the difference. A run that has
come to a symbol without a rule keeps its end.
-/

namespace ScenarioFsp

namespace Grammar

/-- `s` leads to `e` by silent alternatives, or is `e`. -/
def SilentlyLeads (g : Grammar) : Symbol → Symbol → Prop :=
  Relation.ReflTransGen fun s e => e ∈ g.silentTargets s

variable {g : Grammar}

theorem mem_silentTargets_iff {s e : Symbol} :
    e ∈ g.silentTargets s ↔
      ∃ p ∈ g.alternativesOf s, g.isSilentStep p = true ∧ p.last? = some e := by
  simp only [silentTargets, List.mem_filterMap, List.mem_filter, and_assoc]

theorem isSilentStep_iff {p : Production} {e : Symbol} (hl : p.last? = some e) :
    g.isSilentStep p = true ↔ p.isSilent = true ∧ g.hasRule e = true := by
  simp [isSilentStep, hl]

/-- A silent alternative leads to a rule. -/
theorem hasRule_of_silentTarget {s e : Symbol} (h : e ∈ g.silentTargets s) :
    g.hasRule e = true := by
  obtain ⟨p, -, hstep, hl⟩ := mem_silentTargets_iff.mp h
  exact ((isSilentStep_iff hl).mp hstep).2

theorem mem_soundAlternatives_iff {s : Symbol} {p : Production} :
    p ∈ g.soundAlternatives s ↔ p ∈ g.alternativesOf s ∧ g.isSilentStep p = false := by
  simp only [soundAlternatives, List.mem_filter, Bool.not_eq_true']

theorem mem_silentlyReached_iff {s t : Symbol} :
    t ∈ g.silentlyReached s ↔ t ≠ s ∧ g.SilentlyLeads s t := by
  have hsearch : ∀ t, g.SilentlyLeads s t →
      t = s ∨ Reaches g.silentTargets g.symbols (g.silentTargets s) t := by
    intro t ht
    induction ht with
    | refl => exact Or.inl rfl
    | @tail b c _ hstep ih =>
        have hc : c ∈ g.symbols := mem_symbols_iff.mpr (hasRule_of_silentTarget hstep)
        rcases ih with hb | hb
        · exact Or.inr (.start (hb ▸ hstep) hc)
        · exact Or.inr (.step hb hstep hc)
  simp only [silentlyReached, List.mem_filter, mem_reachable_iff, decide_eq_true_eq]
  refine ⟨fun h => ⟨h.2, ?_⟩, fun h => ⟨(hsearch t h.2).resolve_left h.1, h.1⟩⟩
  obtain ⟨h, -⟩ := h
  induction h with
  | start hmem _ => exact .single hmem
  | step _ hstep _ ih => exact ih.tail hstep

/-! ## What a folded rule offers -/

theorem rule?_folded (s : Symbol) : g.folded.rule? s = (g.rule? s).map (g.foldRule s) :=
  rule?_mapRules _ _ _

theorem movesSilently_iff {s : Symbol} {r : Rule} (hr : g.rule? s = some r) :
    g.movesSilently r = true ↔ ∃ e, e ∈ g.silentTargets s := by
  simp only [movesSilently, List.any_eq_true, mem_silentTargets_iff, alternativesOf_eq hr]
  refine ⟨fun h => ?_, fun h => ?_⟩
  · obtain ⟨p, hp, hstep⟩ := h
    cases hl : p.last? with
    | none => simp [isSilentStep, hl] at hstep
    | some e => exact ⟨e, p, hp, hstep, hl⟩
  · obtain ⟨e, p, hp, hstep, -⟩ := h
    exact ⟨p, hp, hstep⟩

theorem mem_inherited_iff {s : Symbol} {q : Production} :
    q ∈ g.inherited s ↔ ∃ t, t ≠ s ∧ g.SilentlyLeads s t ∧ q ∈ g.soundAlternatives t := by
  unfold inherited
  rw [List.mem_flatMap]
  refine exists_congr fun t => ?_
  rw [mem_silentlyReached_iff, and_assoc]

/-- A symbol that silently leads to another has a silent alternative. -/
theorem exists_silentTarget {s t : Symbol} (hts : t ≠ s) (h : g.SilentlyLeads s t) :
    ∃ e, e ∈ g.silentTargets s := by
  rcases Relation.ReflTransGen.cases_head h with hst | ⟨e, he, -⟩
  · exact absurd hst.symm hts
  · exact ⟨e, he⟩

/-- A folded rule keeps what is not silent and adds what it inherits. -/
theorem mem_foldRule_iff {s : Symbol} {r : Rule} (hr : g.rule? s = some r) {p : Production} :
    p ∈ (g.foldRule s r).alternatives ↔
      p ∈ g.soundAlternatives s ∨ ∃ q ∈ g.inherited s, q.startingAt s = p := by
  have hsound : g.soundAlternatives s = r.alternatives.filter fun p => !g.isSilentStep p := by
    unfold soundAlternatives
    rw [alternativesOf_eq hr]
  unfold foldRule
  by_cases hmoves : g.movesSilently r = true
  · rw [if_pos hmoves, ← hsound, List.mem_append, List.mem_map]
  · -- nothing is silent here, so nothing is dropped and nothing is inherited
    have hall : r.alternatives.filter (fun p => !g.isSilentStep p) = r.alternatives := by
      rw [List.filter_eq_self]
      intro q hq
      cases hstep : g.isSilentStep q with
      | false => rfl
      | true => exact absurd (List.any_eq_true.mpr ⟨q, hq, hstep⟩) hmoves
    rw [if_neg hmoves, hsound, hall]
    refine ⟨Or.inl, fun h => h.resolve_right ?_⟩
    intro hinherits
    obtain ⟨q, hq, -⟩ := hinherits
    obtain ⟨t, hts, hlead, -⟩ := mem_inherited_iff.mp hq
    exact hmoves ((movesSilently_iff hr).mpr (exists_silentTarget hts hlead))

/-- A folded rule offers what is not silent at the symbols it silently leads to. -/
theorem Sound.mem_alternativesOf_folded_iff (hg : g.Sound) {s : Symbol} {p : Production} :
    p ∈ g.folded.alternativesOf s ↔
      ∃ t q, g.SilentlyLeads s t ∧ q ∈ g.soundAlternatives t ∧ p = q.startingAt s := by
  have hown : ∀ q, q ∈ g.soundAlternatives s → q.startingAt s = q := fun q hq =>
    Production.startingAt_self (hg.first? (mem_soundAlternatives_iff.mp hq).1)
  rw [mem_alternativesOf_iff]
  refine ⟨fun h => ?_, fun h => ?_⟩
  · obtain ⟨r', hr', hp⟩ := h
    rw [rule?_folded, Option.map_eq_some_iff] at hr'
    obtain ⟨r, hr, rfl⟩ := hr'
    rcases (mem_foldRule_iff hr).mp hp with hsound | ⟨q, hq, rfl⟩
    · exact ⟨s, p, .refl, hsound, (hown p hsound).symm⟩
    · obtain ⟨t, -, hlead, hqt⟩ := mem_inherited_iff.mp hq
      exact ⟨t, q, hlead, hqt, rfl⟩
  · obtain ⟨t, q, hlead, hq, rfl⟩ := h
    by_cases hts : t = s
    · subst hts
      obtain ⟨r, hr, -⟩ := mem_alternativesOf_iff.mp (mem_soundAlternatives_iff.mp hq).1
      refine ⟨g.foldRule t r, by rw [rule?_folded, hr]; rfl, (mem_foldRule_iff hr).mpr ?_⟩
      rw [hown q hq]
      exact Or.inl hq
    · -- the silent way to `t` starts with a silent alternative of `s`, so `s` has a rule
      obtain ⟨e, he⟩ := exists_silentTarget hts hlead
      obtain ⟨q', hq', -, -⟩ := mem_silentTargets_iff.mp he
      obtain ⟨r, hr, -⟩ := mem_alternativesOf_iff.mp hq'
      refine ⟨g.foldRule s r, by rw [rule?_folded, hr]; rfl, (mem_foldRule_iff hr).mpr ?_⟩
      exact Or.inr ⟨q, mem_inherited_iff.mpr ⟨t, hts, hlead, hq⟩, rfl⟩

/-! ## Runs -/

theorem run_of_silentlyLeads {s t : Symbol} (h : g.SilentlyLeads s t) : g.Run s [] t := by
  induction h with
  | refl => exact Run.stop s
  | tail _ hstep ih =>
      obtain ⟨p, hp, hsilent, hl⟩ := mem_silentTargets_iff.mp hstep
      have hrun := ih.trans (Run.single hp hl)
      rwa [Production.visible_eq_nil ((isSilentStep_iff hl).mp hsilent).1] at hrun

/-- A copy of a production of one symbol shows nothing and stays where it starts. -/
theorem stays_of_tail_nil {s m : Symbol} {q : Production} (ht : q.tail = [])
    (hl : (q.startingAt s).last? = some m) : m = s ∧ (q.startingAt s).visible = [] := by
  rw [Production.last?_eq_of_tail_nil rfl (by simpa using ht)] at hl
  refine ⟨(Option.some.inj hl).symm, ?_⟩
  simp [Production.visible, Production.actions, ht]

/-- Folding adds no runs. -/
theorem Sound.run_of_run_folded (hg : g.Sound) {s e : Symbol} {w : Trace}
    (h : g.folded.Run s w e) : g.Run s w e := by
  induction h with
  | stop s => exact Run.stop s
  | @step s m e p w hp hl _ ih =>
      obtain ⟨t, q, hlead, hq, rfl⟩ := hg.mem_alternativesOf_folded_iff.mp hp
      by_cases ht : q.tail = []
      · obtain ⟨hms, hv⟩ := stays_of_tail_nil ht hl
        rw [hms] at ih
        rw [hv, List.nil_append]
        exact ih
      · rw [Production.last?_startingAt ht] at hl
        have hvisible := Run.step (mem_soundAlternatives_iff.mp hq).1 hl ih
        exact (run_of_silentlyLeads hlead).trans hvisible

/-- A silent alternative in front of a folded run is not missed. -/
theorem Sound.run_folded_of_silentTarget (hg : g.Sound) {s m e : Symbol} {w : Trace}
    (hm : m ∈ g.silentTargets s) (h : g.folded.Run m w e) :
    g.folded.Run s w e ∨ (w = [] ∧ e = m) := by
  induction h with
  | stop m => exact Or.inr ⟨rfl, rfl⟩
  | @step m k e p w hp hl hrest ih =>
      obtain ⟨t, q, hlead, hq, rfl⟩ := hg.mem_alternativesOf_folded_iff.mp hp
      by_cases ht : q.tail = []
      · obtain ⟨rfl, hv⟩ := stays_of_tail_nil ht hl
        rw [hv, List.nil_append]
        exact ih hm
      · left
        have hps : q.startingAt s ∈ g.folded.alternativesOf s :=
          hg.mem_alternativesOf_folded_iff.mpr ⟨t, q, .head hm hlead, hq, rfl⟩
        have hls : (q.startingAt s).last? = some k := by
          rw [Production.last?_startingAt ht] at hl ⊢
          exact hl
        have hrun := Run.step hps hls hrest
        rwa [Production.visible_startingAt] at hrun ⊢

/-- Folding loses no runs, except that a run cannot stop on a silent way any more. -/
theorem Sound.run_folded (hg : g.Sound) {s e : Symbol} {w : Trace} (h : g.Run s w e) :
    ∃ e', g.folded.Run s w e' ∧ (g.hasRule e = false → e' = e) := by
  induction h with
  | stop s => exact ⟨s, Run.stop s, fun _ => rfl⟩
  | @step s m e p w hp hl _ ih =>
      obtain ⟨e', hrun, hend⟩ := ih
      cases hstep : g.isSilentStep p with
      | false =>
          refine ⟨e', Run.step ?_ hl hrun, hend⟩
          exact hg.mem_alternativesOf_folded_iff.mpr ⟨s, p, .refl,
            mem_soundAlternatives_iff.mpr ⟨hp, hstep⟩,
            (Production.startingAt_self (hg.first? hp)).symm⟩
      | true =>
          obtain ⟨hsilent, hrule⟩ := (isSilentStep_iff hl).mp hstep
          rw [Production.visible_eq_nil hsilent, List.nil_append]
          have hm : m ∈ g.silentTargets s := mem_silentTargets_iff.mpr ⟨p, hp, hstep, hl⟩
          rcases hg.run_folded_of_silentTarget hm hrun with hrun' | ⟨hw, hem⟩
          · exact ⟨e', hrun', hend⟩
          · -- the run stops on the silent way, at a symbol that has a rule
            refine ⟨s, hw ▸ Run.stop s, fun he => ?_⟩
            rw [← hend he, hem, hrule] at he
            exact absurd he (by simp)

theorem Sound.observes_folded_iff (hg : g.Sound) (s : Symbol) (t : Trace) :
    g.folded.Observes s t ↔ g.Observes s t := by
  refine ⟨fun h => h.of_runs fun w e hrun => ?_, fun h => h.of_runs fun w e hrun => ?_⟩
  · exact ⟨w, e, hg.run_of_run_folded hrun, List.prefix_rfl⟩
  · obtain ⟨e', hrun', -⟩ := hg.run_folded hrun
    exact ⟨w, e', hrun', List.prefix_rfl⟩

/-! ## The folded grammar -/

theorem Sound.folded (hg : g.Sound) : g.folded.Sound := by
  refine hg.mapRules fun key r hr => ?_
  unfold foldRule
  split
  · refine ⟨rfl, fun p hp => ?_⟩
    rcases List.mem_append.mp hp with hp | hp
    · exact hg.placed key r p hr (List.mem_filter.mp hp).1
    · obtain ⟨q, -, rfl⟩ := List.mem_map.mp hp
      exact Production.first?_startingAt key q
  · exact ⟨rfl, fun p hp => hg.placed key r p hr hp⟩

theorem hasRule_folded (g : Grammar) (s : Symbol) : g.folded.hasRule s = g.hasRule s :=
  hasRule_mapRules _ _ _

theorem Sound.folded_within (hg : g.Sound) : g.folded.Within g := by
  have hcopy : ∀ p ∈ g.folded.alternatives, ∃ s q,
      g.hasRule s = true ∧ q ∈ g.alternatives ∧ p = q.startingAt s := by
    intro p hp
    obtain ⟨s, hps⟩ := mem_alternatives_iff.mp hp
    obtain ⟨t, q, -, hq, rfl⟩ := hg.mem_alternativesOf_folded_iff.mp hps
    refine ⟨s, q, ?_, mem_alternatives_iff.mpr ⟨t, (mem_soundAlternatives_iff.mp hq).1⟩, rfl⟩
    rw [← hasRule_folded]
    exact hasRule_of_mem hps
  refine ⟨fun s hs => by rwa [hasRule_folded] at hs, fun p hp a ha => ?_, fun p hp x hx => ?_⟩
  · obtain ⟨s, q, -, hq, rfl⟩ := hcopy p hp
    exact ⟨q, hq, by simpa using ha⟩
  · obtain ⟨s, q, hs, hq, rfl⟩ := hcopy p hp
    rcases List.mem_cons.mp hx with rfl | hx
    · exact Or.inl hs
    · exact Or.inr ⟨q, hq, List.mem_of_mem_tail hx⟩

theorem Sound.folded_isReductOf (hg : g.Sound) : g.folded.IsReductOf g :=
  ⟨hg.folded, hg.folded_within, hg.observes_folded_iff start⟩

theorem Sound.foldSilent_eq_ok (hg : g.Sound) :
    g.foldSilent = .ok ⟨g.folded, g.alternatives.countP g.isSilentStep⟩ := by
  unfold foldSilent
  rw [hg.needSymbols_eq_ok]
  · rfl
  · intro p hp
    obtain ⟨entry, -, hp⟩ := List.mem_flatMap.mp hp
    obtain ⟨t, -, hp⟩ := List.mem_flatMap.mp hp
    exact ⟨t, (mem_soundAlternatives_iff.mp hp).1⟩

end Grammar

end ScenarioFsp
