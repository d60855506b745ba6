import ScenarioFsp.Proofs.Document.Positions
import ScenarioFsp.Proofs.Document.Unreached
import ScenarioFsp.Proofs.Document.Verdict
import ScenarioFsp.Proofs.Reporting

/-!
# Warnings about scenarios that are not reached

If a flow graph has an initial scenario, every accepted scenario that is not reached is
warned about, once and in the order of the blocks. If there is none, nothing is reached,
and one general warning takes the place of all these. The warnings come behind the errors,
and none of them is lost: the names of a text have places of their own, and an error about
a name is no reason to pass over a warning about it.

Errors never depend on warnings or on colours, nor does what is answered. So the text
without warnings is what the text with them begins with (`load_warnings`).
-/

namespace ScenarioFsp

namespace Document

variable {d : Document}

theorem Warning.level_diagnostic (w : Warning) : (w.diagnostic 0).level = .warning := by
  cases w <;> rfl

/-- If something is initial, or nothing is declared, there is one warning for each scenario that is
not reached. -/
theorem warnings_load_of_initial (h : d.load.spec.initial ≠ [] ∨ d.load.scenarios = []) :
    d.load.warnings = d.load.unreached.map .unreachable := by
  rw [Loader.warnings_eq]
  refine if_neg fun hboth => ?_
  obtain ⟨hinitial, hscenarios⟩ := Bool.and_eq_true_iff.mp hboth
  rcases h with hsome | hnone
  · exact hsome (List.isEmpty_iff.mp hinitial)
  · rw [hnone] at hscenarios
    exact absurd hscenarios (by simp)

theorem warnings_load_of_no_initial (hinitial : d.load.spec.initial = [])
    (hscenarios : d.load.scenarios ≠ []) : d.load.warnings = [.noInitialScenario] := by
  rw [Loader.warnings_eq, hinitial]
  refine if_pos ?_
  cases hrecorded : d.load.scenarios with
  | nil => exact absurd hrecorded hscenarios
  | cons name names => rfl

theorem scenarios_load_ne_nil_iff : d.load.scenarios ≠ [] ↔ ∃ name, Defines d.items name := by
  refine ⟨fun h => ?_, fun h => ?_⟩
  · obtain ⟨name, hname⟩ := List.exists_mem_of_ne_nil _ h
    exact ⟨name.text, defines_iff_exists_acceptedName.mpr
      ⟨name, (d.lists_load.mem_iff name).mp hname, rfl⟩⟩
  · obtain ⟨text, htext⟩ := h
    obtain ⟨name, hname, -⟩ := defines_iff_exists_acceptedName.mp htext
    exact List.ne_nil_of_mem ((d.lists_load.mem_iff name).mpr hname)

/-- No two warnings are about the same place. -/
theorem pairwise_warnings_load (hspans : (d.names.map Name.span).Nodup) :
    (d.load.warnings.map (Warning.diagnostic 0)).Pairwise fun w w' => w.place ≠ w'.place := by
  rw [Loader.warnings_eq]
  split
  · exact List.pairwise_singleton _ _
  · rw [List.map_map, List.pairwise_map]
    have hnodup := List.pairwise_map.mp (d.unreached_load.nodup_spans hspans)
    refine hnodup.imp fun hne hplace => hne ?_
    exact (Place.mk.inj (Option.some.inj hplace)).2

end Document

namespace Journal

variable {colored warnings : Bool} {name text : String} {d : Document} {e : SyntaxError}

/-- The text of the warning about a scenario that is not reached. -/
def unreachableText (colored : Bool) (file : SourceFile) (scenario : Document.Name) : String :=
  Snippet.render (if colored then .colored else .plain) .warning
    s!"bMSC `{scenario.text}` is unreachable from `init`" file scenario.span

/-- The text of the warning about a flow graph without initial scenarios. -/
def noInitialText (colored : Bool) : String :=
  let palette : Palette := if colored then .colored else .plain
  palette.title .warning ++ "Warning" ++ palette.reset ++ ": " ++ "the hMSC has no `init` edge" ++
    "\n"

/-- A printed warning says what it is about: its level and its message come first, and then the
place where to look. -/
def Announces (colored : Bool) (message place printed : String) : Prop :=
  let palette : Palette := if colored then .colored else .plain
  ∃ margin rest, printed =
    palette.header .warning ++ "warning" ++ palette.headline ++ ": " ++ message ++ palette.reset ++
      "\n" ++ Snippet.repeated ' ' margin ++ " " ++ palette.frame ++ "┌─" ++ palette.reset ++ " " ++
      place ++ "\n" ++ rest

/-- The warning about a scenario leads to its name. -/
theorem announces_unreachableText (colored : Bool) (file : SourceFile) {scenario : Document.Name}
    (h : scenario.StandsIn file.text.toList) : ∃ line column,
      scenario.StandsAt file.text line column ∧
      Announces colored s!"bMSC `{scenario.text}` is unreachable from `init`"
        s!"{file.name}:{line}:{column}" (unreachableText colored file scenario) := by
  obtain ⟨line, column, hstands, hposition⟩ := h.exists_standsAt file
  refine ⟨line, column, hstands, ?_⟩
  rw [← hposition]
  exact Snippet.render_eq_head ..

theorem render?_unreachable (colored : Bool) (file : SourceFile) (scenario : Document.Name) :
    ((start colored true).addFile file).render?
        ((Document.Warning.unreachable scenario).diagnostic 0) =
      some (unreachableText colored file scenario) := by
  unfold render? Document.Warning.diagnostic unreachableText
  rfl

/-- The texts of all warnings about a document. -/
def warningTexts (colored : Bool) (file : SourceFile) (d : Document) : List String :=
  d.load.warnings.filterMap fun w => ((start colored true).addFile file).render? (w.diagnostic 0)

theorem warningTexts_of_initial (colored : Bool) (file : SourceFile)
    (h : d.load.spec.initial ≠ [] ∨ d.load.scenarios = []) :
    warningTexts colored file d = d.load.unreached.map (unreachableText colored file) := by
  have hrender : (fun w => ((start colored true).addFile file).render?
      (Document.Warning.diagnostic 0 w)) ∘ Document.Warning.unreachable =
        fun scenario => some (unreachableText colored file scenario) :=
    funext fun scenario => render?_unreachable colored file scenario
  unfold warningTexts
  rw [Document.warnings_load_of_initial h, List.filterMap_map, hrender, List.filterMap_eq_map']

theorem warningTexts_of_no_initial (colored : Bool) (file : SourceFile)
    (hinitial : d.load.spec.initial = []) (hscenarios : d.load.scenarios ≠ []) :
    warningTexts colored file d = [noInitialText colored] := by
  unfold warningTexts
  rw [Document.warnings_load_of_no_initial hinitial hscenarios]
  rfl

theorem warningTexts_of_no_scenarios (colored : Bool) (file : SourceFile)
    (hscenarios : d.load.scenarios = []) : warningTexts colored file d = [] := by
  rw [warningTexts_of_initial colored file (Or.inr hscenarios), Document.Loader.unreached,
    hscenarios]
  rfl

/-! ## One loading with and without warnings -/

/-- A fresh journal that does not show warnings, after the errors of a document. -/
def afterErrors (colored : Bool) (file : SourceFile) (d : Document) : Journal :=
  ((start colored false).addFile file).reportAll
    (d.load.problems.map (Document.Problem.diagnostic 0))

theorem level_error (d : Document) :
    ∀ e ∈ d.load.problems.map (Document.Problem.diagnostic 0), e.level = .error := by
  intro e he
  obtain ⟨p, -, rfl⟩ := List.mem_map.mp he
  rfl

theorem level_warning (d : Document) :
    ∀ w ∈ d.load.warnings.map (Document.Warning.diagnostic 0), w.level = .warning := by
  intro e he
  obtain ⟨w, -, rfl⟩ := List.mem_map.mp he
  exact w.level_diagnostic

theorem journal_load (hread : Document.read text = .ok d) :
    ((start colored warnings).load name text).journal =
      (((start colored warnings).addFile ⟨name, text⟩).reportAll
        (d.load.problems.map (Document.Problem.diagnostic 0))).reportAll
          (d.load.warnings.map (Document.Warning.diagnostic 0)) := by
  rw [← reportAll_append]
  unfold load
  rw [hread]
  rfl

/-- Without warnings nothing is told but the errors. -/
theorem journal_load_of_hidden (hread : Document.read text = .ok d) :
    ((start colored false).load name text).journal = afterErrors colored ⟨name, text⟩ d := by
  rw [journal_load hread]
  exact reportAll_of_hidden (warnings_reportAll _ _) (level_warning d)

/-- With warnings the same is told, and then the warnings. -/
theorem journal_load_of_shown (hread : Document.read text = .ok d) :
    ((start colored true).load name text).journal =
      (afterErrors colored ⟨name, text⟩ d).showing.reportAll
        (d.load.warnings.map (Document.Warning.diagnostic 0)) := by
  rw [journal_load hread]
  have herrors := reportAll_showing (j := (start colored false).addFile ⟨name, text⟩)
    (level_error d)
  exact congrArg (fun j => reportAll j _) herrors

/-- **No warning is passed over.** -/
theorem printed_load (hread : Document.read text = .ok d) :
    ((start colored true).load name text).journal.printed =
      ((start colored false).load name text).journal.printed ++
        warningTexts colored ⟨name, text⟩ d := by
  have hfresh : ∀ w ∈ d.load.warnings.map (Document.Warning.diagnostic 0),
      (afterErrors colored ⟨name, text⟩ d).showing.ignores w = false := by
    intro w hw
    refine Bool.eq_false_iff.mpr fun hignores => ?_
    rcases ignores_iff.mp hignores with hhidden | ⟨place, -, hreported⟩
    · exact hhidden (Or.inr rfl)
    · -- only errors have been told so far
      rw [level_warning d w hw] at hreported
      rcases mem_reported_reportAll hreported with hstart | ⟨p, hp, -, hlevel⟩
      · exact absurd hstart List.not_mem_nil
      · rw [level_error d p hp] at hlevel
        exact absurd hlevel (by decide)
  have hapart := Document.pairwise_warnings_load (Document.nodup_spans hread)
  have hrender : (afterErrors colored ⟨name, text⟩ d).showing.render? =
      ((start colored true).addFile ⟨name, text⟩).render? :=
    render?_reportAll ((start colored false).addFile ⟨name, text⟩) _
  rw [journal_load_of_shown hread, journal_load_of_hidden hread, printed_reportAll hfresh hapart,
    hrender, List.filterMap_map]
  rfl

/-! ## Texts that are no documents -/

theorem load_malformed (hread : Document.read text = .error e) :
    (start colored warnings).load name text =
      ⟨((start colored warnings).addFile ⟨name, text⟩).report (e.diagnostic 0),
        .error (.malformed e)⟩ := by
  unfold load
  rw [hread]
  rfl

theorem errors_load_malformed (hread : Document.read text = .error e) :
    ((start colored warnings).load name text).journal.errors = 1 := by
  rw [load_malformed hread]
  show (((start colored warnings).addFile ⟨name, text⟩).report (e.diagnostic 0)).errors = 1
  rw [errors_report]
  rfl

/-! ## All texts -/

/-- Whether warnings are shown, and in what colours, has no influence on the answer. -/
theorem load_congr (colored warnings colored' warnings' : Bool) (name text : String) :
    ((start colored warnings).load name text).result =
        ((start colored' warnings').load name text).result ∧
      ((start colored warnings).load name text).journal.errors =
        ((start colored' warnings').load name text).journal.errors := by
  cases hread : Document.read text with
  | error e =>
      rw [errors_load_malformed hread, errors_load_malformed hread, load_malformed hread,
        load_malformed hread]
      exact ⟨rfl, rfl⟩
  | ok d =>
      rw [result_load colored warnings name hread, result_load colored' warnings' name hread,
        errors_load colored warnings name hread, errors_load colored' warnings' name hread]
      exact ⟨rfl, rfl⟩

/-- Warnings come last. -/
theorem exists_text_load (colored : Bool) (name text : String) :
    ∃ more, ((start colored true).load name text).journal.text =
      ((start colored false).load name text).journal.text ++ more := by
  cases hread : Document.read text with
  | error e =>
      have hshowing := report_showing (j := (start colored false).addFile ⟨name, text⟩)
        (d := e.diagnostic 0) rfl
      rw [load_malformed hread, load_malformed hread]
      exact ⟨"", (congrArg Journal.text hshowing).trans String.append_empty.symm⟩
  | ok d =>
      rw [journal_load_of_shown hread, journal_load_of_hidden hread]
      exact exists_text_reportAll _ _

/--
**Exactly the scenarios that are not reached are warned about, and warnings change nothing
else.** Whether a fresh journal shows warnings, and in what colours, decides neither what
is answered for a text nor how many errors there are, and the text without warnings is what
the text with them begins with. For a document nothing but its errors is told without
warnings, and the warnings are these: if a scenario is initial, one for each accepted
scenario that no continuation edges lead to from an initial one, in the order of the
blocks, and what is printed begins with the message and the line and column where the name
stands; if none is, but a block is accepted, a single general one; otherwise none. Every
search in breadth from the initial scenarios ends with what is reached.
-/
theorem load_warnings (name text : String) :
    (∀ colored warnings colored' warnings',
      ((start colored warnings).load name text).result =
          ((start colored' warnings').load name text).result ∧
        ((start colored warnings).load name text).journal.errors =
          ((start colored' warnings').load name text).journal.errors) ∧
      (∃ more, ((start false true).load name text).journal.text =
        ((start false false).load name text).journal.text ++ more) ∧
      ∀ d, Document.read text = .ok d → ∀ colored, ∃ warned,
        ((start colored false).load name text).journal = afterErrors colored ⟨name, text⟩ d ∧
        ((start colored true).load name text).journal.printed =
          ((start colored false).load name text).journal.printed ++ warned ∧
        (d.load.spec.initial ≠ [] → ∃ late, d.Unreached late ∧
          warned = late.map (unreachableText colored ⟨name, text⟩) ∧
          ∀ scenario ∈ late, ∃ line column, scenario.StandsAt text line column ∧
            Announces colored s!"bMSC `{scenario.text}` is unreachable from `init`"
              s!"{name}:{line}:{column}" (unreachableText colored ⟨name, text⟩ scenario)) ∧
        (d.load.spec.initial = [] → (∃ scenario, Document.Defines d.items scenario) →
          warned = [noInitialText colored]) ∧
        (d.load.spec.initial = [] → (¬∃ scenario, Document.Defines d.items scenario) →
          warned = []) ∧
        Search.Sweeps d.load.spec.continuations d.load.spec.initial d.load.spec.Reached := by
  refine ⟨fun colored warnings colored' warnings' =>
    load_congr colored warnings colored' warnings' name text, exists_text_load false name text,
    fun d hread colored => ?_⟩
  refine ⟨warningTexts colored ⟨name, text⟩ d, journal_load_of_hidden hread, printed_load hread,
    fun hinitial => ?_, fun hinitial hdefined => ?_, fun _ hnone => ?_, d.load.spec.sweeps_reached⟩
  · refine ⟨d.load.unreached, d.unreached_load,
      warningTexts_of_initial colored _ (Or.inl hinitial), fun scenario hscenario => ?_⟩
    exact announces_unreachableText colored ⟨name, text⟩ (Document.stands_of_read hread scenario
      (d.unreached_load.sublist.subset hscenario))
  · exact warningTexts_of_no_initial colored _ hinitial
      (Document.scenarios_load_ne_nil_iff.mpr hdefined)
  · exact warningTexts_of_no_scenarios colored _
      (Classical.byContradiction (mt Document.scenarios_load_ne_nil_iff.mp hnone))

/-- The light goes on and stays on; that it may be dimmed is said, but not how. -/
def dimmedLamp : String :=
  "bmsc On \x7b\x7d bmsc Dim \x7b\x7d bmsc Glow \x7b\x7d bmsc On \x7b\x7d " ++
    "hmsc \x7b init -> On; On -> On; Dim -> Glow, X; Glow -> Dim; \x7d"

/-- Nobody says how the light goes on. -/
def brokenLamp : String := "bmsc On \x7b\x7d bmsc Off \x7b\x7d hmsc \x7b On -> Off; \x7d"

theorem load_warnings_dimmedLamp :
    (∃ d late, Document.read dimmedLamp = .ok d ∧ d.load.spec.initial = [⟨0⟩] ∧
      d.Unreached late ∧ late.length = 2 ∧
      ((start false true).load "lamp.msc" dimmedLamp).journal.printed =
        ((start false false).load "lamp.msc" dimmedLamp).journal.printed ++
          late.map (unreachableText false ⟨"lamp.msc", dimmedLamp⟩) ∧
      (∀ scenario ∈ late, ∃ line column, scenario.StandsAt dimmedLamp line column ∧
        Announces false s!"bMSC `{scenario.text}` is unreachable from `init`"
          s!"lamp.msc:{line}:{column}" (unreachableText false ⟨"lamp.msc", dimmedLamp⟩ scenario)) ∧
      ((start false true).load "lamp.msc" dimmedLamp).journal.printed[2]? = some
        ("warning: bMSC `Dim` is unreachable from `init`\n  ┌─ lamp.msc:1:17\n  │\n1 │ " ++
          dimmedLamp ++ "\n  │                 ^^^ bMSC `Dim` is unreachable from `init`\n\n") ∧
      ((start true true).load "lamp.msc" dimmedLamp).journal.errors = 2) ∧
    ∃ d, Document.read brokenLamp = .ok d ∧ d.load.spec.initial = [] ∧
      ((start false true).load "lamp.msc" brokenLamp).journal.printed =
        ((start false false).load "lamp.msc" brokenLamp).journal.printed ++
          ["Warning: the hMSC has no `init` edge\n"] := by
  refine ⟨?_, ?_⟩
  · have hread : ((Document.read dimmedLamp).toOption.map fun d => d.load.spec.initial) =
        some [⟨0⟩] := by decide +kernel
    have hprinted : ((start false true).load "lamp.msc" dimmedLamp).journal.printed.length = 4 ∧
        ((start false false).load "lamp.msc" dimmedLamp).journal.printed.length = 2 ∧
        ((start false false).load "lamp.msc" dimmedLamp).journal.errors = 2 := by decide +kernel
    have hfirst : ((start false true).load "lamp.msc" dimmedLamp).journal.printed[2]? = some
        ("warning: bMSC `Dim` is unreachable from `init`\n  ┌─ lamp.msc:1:17\n  │\n1 │ " ++
          dimmedLamp ++ "\n  │                 ^^^ bMSC `Dim` is unreachable from `init`\n\n") := by
      decide +kernel
    obtain ⟨d, hd, hinitial⟩ := Option.map_eq_some_iff.mp hread
    have hd := Document.read_of_toOption hd
    obtain ⟨hsame, -, hall⟩ := load_warnings "lamp.msc" dimmedLamp
    obtain ⟨warned, -, htold, hsome, -⟩ := hall d hd false
    obtain ⟨late, hlate, rfl, htexts⟩ := hsome (by rw [hinitial]; exact List.cons_ne_nil _ _)
    have hlength := congrArg List.length htold
    rw [List.length_append, List.length_map, hprinted.1, hprinted.2.1] at hlength
    exact ⟨d, late, hd, hinitial, hlate, by omega, htold, htexts, hfirst,
      (hsame true true false false).2.trans hprinted.2.2⟩
  · have hread : ((Document.read brokenLamp).toOption.map fun d =>
        (d.load.spec.initial, decide ("On" ∈ Document.called d.items))) = some ([], true) := by
      decide +kernel
    obtain ⟨d, hd, hfacts⟩ := Option.map_eq_some_iff.mp hread
    have hd := Document.read_of_toOption hd
    obtain ⟨hinitial, hcalled⟩ := Prod.mk.inj hfacts
    have hfree : ¬Document.Reserved "On" := by
      simp [Document.Reserved, Document.initNode, Document.finalNode]
    have hdefined : Document.Defines d.items "On" :=
      Document.defines_iff.mpr ⟨hfree, of_decide_eq_true hcalled⟩
    obtain ⟨-, -, hall⟩ := load_warnings "lamp.msc" brokenLamp
    obtain ⟨warned, -, htold, -, hgeneral, -⟩ := hall d hd false
    obtain rfl := hgeneral hinitial ⟨"On", hdefined⟩
    exact ⟨d, hd, hinitial, htold⟩

end Journal

end ScenarioFsp
