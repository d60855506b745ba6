import ScenarioFsp.Loading
import ScenarioFsp.Proofs.Document.Faults

/-!
# How many errors are counted

A journal takes a second error about one place for the first one told again. So the
errors it counts for a document are the places that are blamed, however many problems
there are with each of them: an arrow block with an unknown source makes one error, not
one for each of its arrows. Since a problem that is passed over is about a place that has
been counted, none is lost, and a text is accepted exactly if its document is valid
(`load_verdict`).
-/

namespace ScenarioFsp

namespace Journal

/-! ## What has been counted -/

/-- The errors counted so far are those about the given places of a file. -/
structure Counts (file : Nat) (places : List Span) (j : Journal) : Prop where
  once : places.Nodup
  reported : ∀ s, (⟨file, s⟩, Level.error) ∈ j.reported ↔ s ∈ places
  errors : j.errors = places.length

variable {j : Journal} {file : Nat} {places : List Span}

theorem Counts.report_problem (h : j.Counts file places) (p : Document.Problem) :
    (j.report (p.diagnostic file)).Counts file (addOnce p.blamed.span places) := by
  -- an error is ignored exactly if its place has been counted, and then nothing is lost
  have hignores : j.ignores (p.diagnostic file) = decide (p.blamed.span ∈ places) := by
    simp [ignores, Document.Problem.diagnostic, h.reported]
  unfold report addOnce
  rw [hignores]
  by_cases hmem : p.blamed.span ∈ places
  · simp only [hmem, decide_true, if_true]
    exact h
  · simp only [hmem, decide_false, Bool.false_eq_true, if_false]
    refine ⟨?_, fun s => ?_, ?_⟩
    · have hadd := nodup_addOnce p.blamed.span h.once
      rwa [addOnce, if_neg hmem] at hadd
    · rw [List.mem_append, List.mem_append, h.reported]
      simp [Document.Problem.diagnostic]
    · rw [h.errors, List.length_append]
      rfl

/-- Warnings count for nothing, whether they are taken or not. -/
theorem Counts.report_warning (h : j.Counts file places) (w : Document.Warning) :
    (j.report (w.diagnostic file)).Counts file places := by
  have hlevel : (w.diagnostic file).level = .warning := by cases w <;> rfl
  unfold report
  split
  · exact h
  · refine ⟨h.once, fun s => ?_, ?_⟩
    · rw [List.mem_append, h.reported, hlevel]
      simp
    · rw [hlevel]
      exact h.errors

theorem Counts.report_problems (h : j.Counts file places) (ps : List Document.Problem) :
    (j.reportAll (ps.map (Document.Problem.diagnostic file))).Counts file
      ((ps.map fun p => p.blamed.span).foldl (fun l s => addOnce s l) places) := by
  induction ps generalizing j places with
  | nil => exact h
  | cons p ps ih => exact ih (h.report_problem p)

theorem Counts.report_warnings (h : j.Counts file places) (ws : List Document.Warning) :
    (j.reportAll (ws.map (Document.Warning.diagnostic file))).Counts file places := by
  induction ws generalizing j with
  | nil => exact h
  | cons w ws ih => exact ih (h.report_warning w)

theorem counts_start (colored warnings : Bool) (source : SourceFile) :
    ((start colored warnings).addFile source).Counts file [] :=
  ⟨.nil, fun _ => ⟨fun h => absurd h List.not_mem_nil, fun h => absurd h List.not_mem_nil⟩, rfl⟩

/-! ## The verdict -/

/-- The places that problems are about, each once. -/
def blamedPlaces (ps : List Document.Problem) : List Span :=
  (ps.map fun p => p.blamed.span).foldl (fun l s => addOnce s l) []

theorem mem_blamedPlaces {ps : List Document.Problem} {s : Span} :
    s ∈ blamedPlaces ps ↔ ∃ p ∈ ps, p.blamed.span = s := by
  unfold blamedPlaces
  rw [mem_foldl_addOnce, or_iff_left List.not_mem_nil, List.mem_map]

theorem errors_load (colored warnings : Bool) (name : String) {text : String} {d : Document}
    (hread : Document.read text = .ok d) :
    ((start colored warnings).load name text).journal.errors =
      (blamedPlaces d.load.problems).length := by
  have hstart : ((start colored warnings).addFile ⟨name, text⟩).Counts 0 [] :=
    counts_start colored warnings _
  have hcounts := (hstart.report_problems d.load.problems).report_warnings d.load.warnings
  unfold load
  rw [hread]
  dsimp only [Document.Loader.diagnostics]
  unfold reportAll at hcounts ⊢
  rw [List.foldl_append]
  exact hcounts.errors

/-- Nothing has been counted in a fresh journal, so the errors decide. -/
theorem result_load (colored warnings : Bool) (name : String) {text : String} {d : Document}
    (hread : Document.read text = .ok d) :
    ((start colored warnings).load name text).result =
      if (blamedPlaces d.load.problems).length = 0 then .ok d.load.spec
      else .error (.faulty name (blamedPlaces d.load.problems).length) := by
  have herrors := errors_load colored warnings name hread
  unfold load at herrors ⊢
  rw [hread] at herrors ⊢
  dsimp only at herrors ⊢
  rw [herrors]
  rfl

/-- There is no problem exactly if no place is counted. -/
theorem length_blamedPlaces_eq_zero_iff {d : Document} :
    (blamedPlaces d.load.problems).length = 0 ↔ d.Valid := by
  rw [List.length_eq_zero_iff, List.eq_nil_iff_forall_not_mem, Document.valid_iff]
  simp only [mem_blamedPlaces, Document.mem_problems_load]
  refine ⟨fun h p hp => h _ ⟨p, hp, rfl⟩, fun h s hs => ?_⟩
  obtain ⟨p, hp, -⟩ := hs
  exact h p hp

/--
**Exactly the valid documents are accepted, and every faulty place counts once.** A text that
can be read is accepted by a fresh journal if and only if the document is valid. If it is not,
the failure tells the number of errors, which is that of the places where a name is blamed.
-/
theorem load_verdict (colored warnings : Bool) (name text : String) {d : Document}
    (hread : Document.read text = .ok d) :
    ((∃ spec, ((start colored warnings).load name text).result = .ok spec) ↔ d.Valid) ∧
      ∃ places : List Span, places.Nodup ∧
        (∀ s, s ∈ places ↔ ∃ p, d.Blames p ∧ p.blamed.span = s) ∧
        ((start colored warnings).load name text).journal.errors = places.length ∧
        (¬d.Valid → ∃ failure,
          ((start colored warnings).load name text).result = .error failure ∧
            failure.message = s!"{name}: found {places.length} error(s)") := by
  rw [result_load colored warnings name hread]
  refine ⟨?_, blamedPlaces d.load.problems, nodup_foldl_addOnce .nil, fun s => ?_,
    errors_load colored warnings name hread, fun hvalid => ?_⟩
  · rw [← length_blamedPlaces_eq_zero_iff]
    split
    · rename_i hzero
      exact ⟨fun _ => hzero, fun _ => ⟨_, rfl⟩⟩
    · rename_i hsome
      exact ⟨fun ⟨_, h⟩ => (nomatch h), fun h => absurd h hsome⟩
  · rw [mem_blamedPlaces]
    simp only [Document.mem_problems_load]
  · rw [if_neg fun h => hvalid (length_blamedPlaces_eq_zero_iff.mp h)]
    exact ⟨_, rfl, rfl⟩

/-- The unknown source of two arrows is a single error. -/
def faultyLamp : String :=
  "component A, A; bmsc init\x7b\x7d hmsc\x7b X -> A, B; \x7d"

theorem load_verdict_faultyLamp :
    ∃ d, Document.read faultyLamp = .ok d ∧ ¬d.Valid ∧
      ((start false true).load "lamp.msc" faultyLamp).journal.errors = 5 ∧
      ∃ failure, ((start false true).load "lamp.msc" faultyLamp).result = .error failure ∧
        failure.message = "lamp.msc: found 5 error(s)" := by
  have herrors : ((start false true).load "lamp.msc" faultyLamp).journal.errors = 5 := by
    decide +kernel
  have hsome : (Document.read faultyLamp).toOption.isSome = true := by decide +kernel
  cases hread : Document.read faultyLamp with
  | error e =>
      rw [hread] at hsome
      exact absurd hsome (by simp [Except.toOption])
  | ok d =>
      obtain ⟨-, places, -, hplaces, hcount, hfailure⟩ :=
        load_verdict false true "lamp.msc" faultyLamp hread
      have hlength : places.length = 5 := hcount.symm.trans herrors
      obtain ⟨s, hs⟩ := List.exists_mem_of_length_pos (l := places) (by omega)
      obtain ⟨p, hp, -⟩ := (hplaces s).mp hs
      have hvalid : ¬d.Valid := fun hvalid => Document.valid_iff.mp hvalid p hp
      obtain ⟨failure, hresult, hmessage⟩ := hfailure hvalid
      rw [hlength] at hmessage
      exact ⟨d, rfl, hvalid, herrors, failure, hresult, hmessage⟩

end Journal

end ScenarioFsp
