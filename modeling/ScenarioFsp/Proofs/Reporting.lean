import Mathlib.Data.Finset.Card
import Mathlib.Data.List.Induction
import ScenarioFsp.Diagnostic.Journal

/-!
# What a journal has been told

A journal is told of files, of problems at places of a file, and of problems with the
input as a whole, in any order and with any repeats. What it has counted and what it
remembers can be read off these calls (`Records`): every error that is about no place,
and once every place of an error; and of the calls about a place those that are errors,
or warnings if warnings are shown. So a second call about one place and of one level
changes nothing, whatever it says, and warnings that are not shown leave no trace.

The text of a journal only grows. Diagnostics about different places that are told in a
row are printed one behind the other, if none of them has been told before. A call is
refused for one reason only: a problem that starts at the last offset of all cannot be
drawn.
-/

namespace ScenarioFsp

namespace Journal

/-- A call that tells a journal something. -/
inductive Call where
  | file (file : SourceFile)
  | located (message : String) (place : Place) (level : Level)
  | general (message : String) (level : Level)
deriving DecidableEq, Repr

namespace Call

/-- The place that is blamed, with the level. -/
def key? : Call → Option (Place × Level)
  | located _ place level => some (place, level)
  | _ => none

/-- The place of an error. -/
def errorPlace? : Call → Option Place
  | located _ place .error => some place
  | _ => none

/-- An error without a place, which is never taken for a repetition. -/
def isGeneralError : Call → Bool
  | general _ .error => true
  | _ => false

/-- A warning, with a place or without. -/
def isWarning : Call → Bool
  | located _ _ .warning => true
  | general _ .warning => true
  | _ => false

/-- The call is about no place, or about one that starts before the last offset of all. -/
def Drawable : Call → Prop
  | located _ place _ => place.span.start < lastOffset
  | _ => True

end Call

/-- What comes of a call. -/
def call (j : Journal) : Call → Except Failure Journal
  | .file file => .ok (j.addFile file)
  | .located message place level => j.tryReport ⟨level, message, some place⟩
  | .general message level => j.tryReport ⟨level, message, none⟩

/-- The journal after some calls, unless one of them is refused. -/
def after (j : Journal) (calls : List Call) : Except Failure Journal := calls.foldlM call j

variable {j j' : Journal} {d : Diagnostic} {c : Call} {calls : List Call}

/-! ## One diagnostic -/

theorem report_of_ignores (h : j.ignores d = true) : j.report d = j := by
  unfold report
  rw [if_pos h]

theorem report_of_takes (h : j.ignores d = false) :
    j.report d =
      { j with
        reported := j.reported ++ (d.place.map fun place => (place, d.level)).toList
        printed := j.printed ++ (j.render? d).toList
        errors := j.errors + if d.level = .error then 1 else 0 } := by
  unfold report
  rw [h]
  exact if_neg Bool.false_ne_true

theorem warnings_report (j : Journal) (d : Diagnostic) : (j.report d).warnings = j.warnings := by
  cases h : j.ignores d with
  | true => rw [report_of_ignores h]
  | false => rw [report_of_takes h]

theorem exists_text_report (j : Journal) (d : Diagnostic) :
    ∃ more, (j.report d).text = j.text ++ more := by
  cases h : j.ignores d with
  | true =>
      rw [report_of_ignores h]
      exact ⟨"", String.append_empty.symm⟩
  | false =>
      rw [report_of_takes h]
      exact ⟨_, String.join_append⟩

/-- What is passed over: warnings that are not shown, and what has been reported. -/
theorem ignores_iff : j.ignores d = true ↔ ¬(d.level = .error ∨ j.warnings = true) ∨
    ∃ place, d.place = some place ∧ (place, d.level) ∈ j.reported := by
  unfold ignores
  rw [Bool.or_eq_true, Option.any_eq_true]
  refine or_congr ?_ (exists_congr fun place => and_congr_right fun _ => decide_eq_true_iff)
  cases d.level <;> simp

/-- A place is remembered, unless it is that of a warning that is not shown. -/
theorem mem_reported_report_iff {place : Place} {level : Level} :
    (place, level) ∈ (j.report d).reported ↔ (place, level) ∈ j.reported ∨
      (d.place = some place ∧ d.level = level) ∧ (level = .error ∨ j.warnings = true) := by
  cases h : j.ignores d with
  | true =>
      rw [report_of_ignores h]
      refine (or_iff_left_of_imp fun hnew => ?_).symm
      obtain ⟨⟨hplace, rfl⟩, hshown⟩ := hnew
      rcases ignores_iff.mp h with hnot | ⟨p, hp, hmem⟩
      · exact absurd hshown hnot
      · obtain rfl := Option.some.inj (hp.symm.trans hplace)
        exact hmem
  | false =>
      have hshown : d.level = .error ∨ j.warnings = true := by
        have hnot := mt ignores_iff.mpr (Bool.eq_false_iff.mp h)
        exact Classical.byContradiction fun hn => hnot (Or.inl hn)
      rw [report_of_takes h, List.mem_append, Option.mem_toList,
        Option.map_eq_some_iff]
      refine or_congr_right ⟨fun hnew => ?_, fun hnew => ?_⟩
      · obtain ⟨p, hp, heq⟩ := hnew
        obtain ⟨rfl, rfl⟩ := Prod.mk.inj heq
        exact ⟨⟨hp, rfl⟩, hshown⟩
      · exact ⟨place, hnew.1.1, Prod.ext rfl hnew.1.2⟩

/-- An error counts, unless one has been reported for its place. -/
theorem errors_report (j : Journal) (d : Diagnostic) :
    (j.report d).errors = j.errors +
      if decide (d.level = .error) && d.place.all (fun place =>
        decide ((place, Level.error) ∉ j.reported)) then 1 else 0 := by
  cases hlevel : d.level with
  | warning =>
      cases h : j.ignores d with
      | true => rw [report_of_ignores h]; rfl
      | false => rw [report_of_takes h, hlevel]; rfl
  | error =>
      cases h : j.ignores d with
      | true =>
          rw [report_of_ignores h]
          rcases ignores_iff.mp h with hnot | ⟨place, hplace, hmem⟩
          · exact absurd (Or.inl hlevel) hnot
          · rw [hlevel] at hmem
            simp [hplace, hmem]
      | false =>
          have hnot := mt ignores_iff.mpr (Bool.eq_false_iff.mp h)
          rw [report_of_takes h, hlevel]
          cases hplace : d.place with
          | none => rfl
          | some place =>
              have hnew : (place, Level.error) ∉ j.reported := fun hmem =>
                hnot (Or.inr ⟨place, hplace, hlevel ▸ hmem⟩)
              simp [hnew]

theorem tryReport_of_ignores (h : j.ignores d = true) : j.tryReport d = .ok j := by
  unfold tryReport
  rw [h, report_of_ignores h]
  rfl

theorem tryReport_eq_ok (h : j.tryReport d = .ok j') : j' = j.report d := by
  unfold tryReport at h
  split at h
  · exact absurd h (by simp)
  · exact (Except.ok.inj h).symm

/-! ## One call -/

/-- The call tells of `d`, with the place that is blamed and the level. -/
structure Call.Tells (c : Call) (d : Diagnostic) : Prop where
  call : ∀ j : Journal, j.call c = j.tryReport d
  key? : c.key? = d.place.map fun place => (place, d.level)
  errorPlace? : c.errorPlace? = if d.level = .error then d.place else none
  isGeneralError : c.isGeneralError = (decide (d.level = .error) && d.place.isNone)
  isWarning : c.isWarning = decide (d.level = .warning)

/-- Every call is about a file or tells of a diagnostic. -/
theorem Call.file_or_tells (c : Call) : (∃ file, c = .file file) ∨ ∃ d, c.Tells d := by
  cases c with
  | file file => exact Or.inl ⟨file, rfl⟩
  | located message place level =>
      refine Or.inr ⟨⟨level, message, some place⟩, fun _ => rfl, rfl, ?_, ?_, ?_⟩ <;>
        cases level <;> rfl
  | general message level =>
      refine Or.inr ⟨⟨level, message, none⟩, fun _ => rfl, rfl, ?_, ?_, ?_⟩ <;>
        cases level <;> rfl

theorem call_eq_ok (h : j.call c = .ok j') :
    (∃ file, c = .file file ∧ j' = j.addFile file) ∨ ∃ d, c.Tells d ∧ j' = j.report d := by
  rcases c.file_or_tells with ⟨file, rfl⟩ | ⟨d, htells⟩
  · exact Or.inl ⟨file, rfl, (Except.ok.inj h).symm⟩
  · exact Or.inr ⟨d, htells, tryReport_eq_ok ((htells.call j).symm.trans h)⟩

theorem warnings_call (h : j.call c = .ok j') : j'.warnings = j.warnings := by
  rcases call_eq_ok h with ⟨file, -, rfl⟩ | ⟨d, -, rfl⟩
  · rfl
  · exact warnings_report j d

theorem exists_text_call (h : j.call c = .ok j') : ∃ more, j'.text = j.text ++ more := by
  rcases call_eq_ok h with ⟨file, -, rfl⟩ | ⟨d, -, rfl⟩
  · exact ⟨"", String.append_empty.symm⟩
  · exact exists_text_report j d

theorem exists_tryReport (h : j.startsLast d = false) : ∃ j', j.tryReport d = .ok j' := by
  refine ⟨j.report d, ?_⟩
  unfold tryReport
  rw [h, Bool.and_false]
  rfl

theorem exists_call (h : c.Drawable) : ∃ j', j.call c = .ok j' := by
  cases c with
  | file file => exact ⟨_, rfl⟩
  | located message place level =>
      have hbefore : place.span.start < lastOffset := h
      refine exists_tryReport ?_
      show (j.files[place.file]?).any _ = false
      cases j.files[place.file]? with
      | none => rfl
      | some file => exact decide_eq_false (by omega)
  | general message level => exact exists_tryReport rfl

/-! ## All calls -/

theorem after_append (j : Journal) (before rest : List Call) :
    j.after (before ++ rest) = (j.after before).bind fun j => j.after rest :=
  List.foldlM_append

theorem after_append_eq_ok_iff {before rest : List Call} :
    j.after (before ++ rest) = .ok j' ↔ ∃ m, j.after before = .ok m ∧ m.after rest = .ok j' := by
  rw [after_append]
  cases j.after before with
  | error failure => simp [Except.bind]
  | ok m => simp [Except.bind]

theorem after_singleton (j : Journal) (c : Call) : j.after [c] = j.call c := by
  unfold after
  rw [List.foldlM_cons]
  exact bind_pure _

theorem exists_after (h : ∀ c ∈ calls, c.Drawable) : ∃ j', j.after calls = .ok j' := by
  induction calls generalizing j with
  | nil => exact ⟨j, rfl⟩
  | cons c calls ih =>
      obtain ⟨m, hm⟩ := exists_call (j := j) (h c List.mem_cons_self)
      obtain ⟨j', hj'⟩ := ih (j := m) fun c' hc' => h c' (List.mem_cons_of_mem c hc')
      exact ⟨j', after_append_eq_ok_iff.mpr ⟨m, (after_singleton j c).trans hm, hj'⟩⟩

theorem exists_text_after (h : j.after calls = .ok j') : ∃ more, j'.text = j.text ++ more := by
  induction calls generalizing j with
  | nil =>
      obtain rfl := Except.ok.inj h
      exact ⟨"", String.append_empty.symm⟩
  | cons c calls ih =>
      have hsplit : j.after ([c] ++ calls) = .ok j' := h
      obtain ⟨m, hm, hrest⟩ := after_append_eq_ok_iff.mp hsplit
      obtain ⟨first, hfirst⟩ := exists_text_call ((after_singleton j c).symm.trans hm)
      obtain ⟨more, hmore⟩ := ih hrest
      exact ⟨first ++ more, by rw [hmore, hfirst, String.append_assoc]⟩

/-! ## What is counted and remembered -/

/-- The errors among some calls: those about no place, and the places of the others. -/
def counted (calls : List Call) : Nat :=
  calls.countP Call.isGeneralError + (calls.filterMap Call.errorPlace?).toFinset.card

/-- What a journal has counted and remembered is what it has been told by some calls. -/
structure Records (j : Journal) (calls : List Call) : Prop where
  reported : ∀ place level, (place, level) ∈ j.reported ↔
    (place, level) ∈ calls.filterMap Call.key? ∧ (level = .error ∨ j.warnings = true)
  errors : j.errors = counted calls

theorem mem_errorPlaces_iff {place : Place} :
    place ∈ calls.filterMap Call.errorPlace? ↔
      (place, Level.error) ∈ calls.filterMap Call.key? := by
  simp only [List.mem_filterMap]
  refine exists_congr fun c => and_congr_right fun _ => ?_
  cases c with
  | file file => simp [Call.errorPlace?, Call.key?]
  | located message p level => cases level <;> simp [Call.errorPlace?, Call.key?]
  | general message level => simp [Call.errorPlace?, Call.key?]

/-- A call counts if it is an error about no place, or about a place of which no error was told. -/
theorem counted_concat (calls : List Call) (c : Call) :
    counted (calls ++ [c]) = counted calls +
      if c.isGeneralError || c.errorPlace?.any (fun place =>
        decide (place ∉ calls.filterMap Call.errorPlace?)) then 1 else 0 := by
  unfold counted
  rw [List.countP_append, List.filterMap_append]
  generalize calls.filterMap Call.errorPlace? = places
  have hgeneral : c.isGeneralError = true → c.errorPlace? = none := by
    intro h
    cases c with
    | general message level => rfl
    | file file => exact absurd h (by simp [Call.isGeneralError])
    | located message place level => exact absurd h (by simp [Call.isGeneralError])
  cases herror : c.isGeneralError with
  | true => simp [herror, hgeneral herror]; omega
  | false =>
      cases hplace : c.errorPlace? with
      | none => simp [herror, hplace]
      | some place =>
          have hadded : (places ++ [place]).toFinset = insert place places.toFinset := by
            rw [List.toFinset_append, List.toFinset_cons, List.toFinset_nil, insert_empty_eq,
              Finset.union_singleton]
          by_cases hknown : place ∈ places
          · simp [herror, hplace, hadded, hknown]
          · simp [herror, hplace, hadded, hknown]
            omega

theorem records_start (colored warnings : Bool) : (start colored warnings).Records [] :=
  ⟨fun _ _ => ⟨fun h => absurd h List.not_mem_nil, fun h => absurd h.1 List.not_mem_nil⟩, rfl⟩

/-- A call about a place is remembered, unless it is a warning that is not shown. -/
theorem mem_reported_call_iff (h : j.call c = .ok j') {place : Place} {level : Level} :
    (place, level) ∈ j'.reported ↔ (place, level) ∈ j.reported ∨
      c.key? = some (place, level) ∧ (level = .error ∨ j.warnings = true) := by
  rcases call_eq_ok h with ⟨file, rfl, rfl⟩ | ⟨d, htells, rfl⟩
  · exact (or_iff_left fun hnew => absurd hnew.1 (by simp [Call.key?])).symm
  · rw [mem_reported_report_iff, htells.key?, Option.map_eq_some_iff]
    simp

theorem errors_call (h : j.call c = .ok j') :
    j'.errors = j.errors +
      if c.isGeneralError || c.errorPlace?.any (fun place =>
        decide ((place, Level.error) ∉ j.reported)) then 1 else 0 := by
  rcases call_eq_ok h with ⟨file, rfl, rfl⟩ | ⟨d, htells, rfl⟩
  · rfl
  · rw [errors_report, htells.isGeneralError, htells.errorPlace?]
    cases d.level <;> cases d.place <;> rfl

/-- One more call is one more entry of the record. -/
theorem Records.call (h : j.Records calls) (hcall : j.call c = .ok j') :
    j'.Records (calls ++ [c]) := by
  refine ⟨fun place level => ?_, ?_⟩
  · rw [mem_reported_call_iff hcall, h.reported, warnings_call hcall, List.filterMap_append,
      List.mem_append, or_and_right]
    refine or_congr_right (and_congr_left fun _ => ?_)
    cases hkey : c.key? <;> simp [hkey, eq_comm]
  · have hplaces : ∀ place, (place, Level.error) ∈ j.reported ↔
        place ∈ calls.filterMap Call.errorPlace? := by
      intro place
      rw [h.reported, mem_errorPlaces_iff]
      exact and_iff_left (Or.inl rfl)
    rw [errors_call hcall, counted_concat, h.errors]
    simp only [hplaces]

theorem records_of_after {colored warnings : Bool}
    (h : (start colored warnings).after calls = .ok j) : j.Records calls := by
  induction calls using List.reverseRecOn generalizing j with
  | nil =>
      obtain rfl := Except.ok.inj h
      exact records_start colored warnings
  | append_singleton calls c ih =>
      obtain ⟨m, hm, hcall⟩ := after_append_eq_ok_iff.mp h
      exact (ih hm).call ((after_singleton m c).symm.trans hcall)

/-- A place that is told again changes nothing: it has been reported, or is not shown. -/
theorem Records.call_again (h : j.Records calls) {key : Place × Level}
    (htold : key ∈ calls.filterMap Call.key?) (hkey : c.key? = some key) : j.call c = .ok j := by
  rcases c.file_or_tells with ⟨file, rfl⟩ | ⟨d, htells⟩
  · exact absurd hkey (by simp [Call.key?])
  · obtain ⟨place, hplace, rfl⟩ := Option.map_eq_some_iff.mp (htells.key?.symm.trans hkey)
    rw [htells.call]
    refine tryReport_of_ignores (ignores_iff.mpr ?_)
    by_cases hshown : d.level = .error ∨ j.warnings = true
    · exact Or.inr ⟨place, hplace, (h.reported place d.level).mpr ⟨htold, hshown⟩⟩
    · exact Or.inl hshown

/-! ## Warnings that are not shown -/

/-- The journal, if warnings are shown from now on. -/
def showing (j : Journal) : Journal := { j with warnings := true }

theorem ignores_showing (hlevel : d.level = .error) : j.showing.ignores d = j.ignores d := by
  unfold ignores
  rw [hlevel]
  rfl

theorem report_showing (hlevel : d.level = .error) :
    j.showing.report d = (j.report d).showing := by
  unfold report
  rw [ignores_showing hlevel]
  split
  · rfl
  · rfl

theorem tryReport_showing (hlevel : d.level = .error) :
    j.showing.tryReport d = (j.tryReport d).map showing := by
  unfold tryReport
  rw [ignores_showing hlevel, report_showing hlevel]
  show (if !j.ignores d && j.startsLast d then _ else _) = _
  split
  · rfl
  · rfl

theorem call_warning (hhidden : j.warnings = false) (hwarning : c.isWarning = true) :
    j.call c = .ok j := by
  rcases c.file_or_tells with ⟨file, rfl⟩ | ⟨d, htells⟩
  · exact absurd hwarning (by simp [Call.isWarning])
  · have hlevel : d.level = .warning := of_decide_eq_true (htells.isWarning.symm.trans hwarning)
    rw [htells.call]
    refine tryReport_of_ignores (ignores_iff.mpr (Or.inl ?_))
    rw [hlevel, hhidden]
    simp

theorem call_showing (hwarning : c.isWarning = false) :
    j.showing.call c = (j.call c).map showing := by
  rcases c.file_or_tells with ⟨file, rfl⟩ | ⟨d, htells⟩
  · rfl
  · rw [htells.call, htells.call]
    have hlevel : d.level ≠ .warning := of_decide_eq_false (htells.isWarning.symm.trans hwarning)
    cases hd : d.level with
    | error => exact tryReport_showing hd
    | warning => exact absurd hd hlevel

/-- **Hidden warnings leave no trace.** -/
theorem after_showing (hhidden : j.warnings = false) (calls : List Call) :
    j.showing.after (calls.filter fun c => !c.isWarning) = (j.after calls).map showing := by
  induction calls generalizing j with
  | nil => rfl
  | cons c calls ih =>
      have hcons : j.after (c :: calls) = (j.call c).bind fun j => j.after calls := by
        rw [← after_singleton]
        exact after_append j [c] calls
      rw [hcons]
      cases hwarning : c.isWarning with
      | true =>
          rw [List.filter_cons_of_neg (by simp [hwarning]), call_warning hhidden hwarning]
          exact ih hhidden
      | false =>
          rw [List.filter_cons_of_pos (by simp [hwarning])]
          show (j.showing.call c).bind _ = _
          rw [call_showing hwarning]
          cases hcall : j.call c with
          | error failure => rfl
          | ok m => exact ih ((warnings_call hcall).trans hhidden)

/-! ## Diagnostics in a row -/

section Row

variable {ds : List Diagnostic}

theorem reportAll_append (j : Journal) (ds rest : List Diagnostic) :
    j.reportAll (ds ++ rest) = (j.reportAll ds).reportAll rest :=
  List.foldl_append

/-- It makes no difference for errors whether warnings are shown. -/
theorem reportAll_showing (h : ∀ d ∈ ds, d.level = .error) :
    j.showing.reportAll ds = (j.reportAll ds).showing := by
  induction ds generalizing j with
  | nil => rfl
  | cons d ds ih =>
      obtain ⟨hd, hds⟩ := List.forall_mem_cons.mp h
      show (j.showing.report d).reportAll ds = _
      rw [report_showing hd]
      exact ih hds

theorem reportAll_of_hidden (hhidden : j.warnings = false) (h : ∀ d ∈ ds, d.level = .warning) :
    j.reportAll ds = j := by
  induction ds with
  | nil => rfl
  | cons d ds ih =>
      obtain ⟨hd, hds⟩ := List.forall_mem_cons.mp h
      have hignores : j.ignores d = true := by
        refine ignores_iff.mpr (Or.inl ?_)
        rw [hd, hhidden]
        simp
      show (j.report d).reportAll ds = j
      rw [report_of_ignores hignores]
      exact ih hds

theorem warnings_reportAll (j : Journal) (ds : List Diagnostic) :
    (j.reportAll ds).warnings = j.warnings := by
  induction ds generalizing j with
  | nil => rfl
  | cons d ds ih => exact (ih (j.report d)).trans (warnings_report j d)

theorem exists_text_reportAll (j : Journal) (ds : List Diagnostic) :
    ∃ more, (j.reportAll ds).text = j.text ++ more := by
  induction ds generalizing j with
  | nil => exact ⟨"", String.append_empty.symm⟩
  | cons d ds ih =>
      obtain ⟨first, hfirst⟩ := exists_text_report j d
      obtain ⟨more, hmore⟩ := ih (j.report d)
      exact ⟨first ++ more, by rw [← String.append_assoc, ← hfirst]; exact hmore⟩

/-- How a diagnostic is printed does not depend on what has been reported. -/
theorem render?_report (j : Journal) (d : Diagnostic) : (j.report d).render? = j.render? := by
  cases h : j.ignores d with
  | true => rw [report_of_ignores h]
  | false => rw [report_of_takes h]; rfl

theorem render?_reportAll (j : Journal) (ds : List Diagnostic) :
    (j.reportAll ds).render? = j.render? := by
  induction ds generalizing j with
  | nil => rfl
  | cons d ds ih => exact (ih (j.report d)).trans (render?_report j d)

/-- Only what was in the row has been reported since. -/
theorem mem_reported_reportAll {place : Place} {level : Level}
    (h : (place, level) ∈ (j.reportAll ds).reported) :
    (place, level) ∈ j.reported ∨ ∃ d ∈ ds, d.place = some place ∧ d.level = level := by
  induction ds generalizing j with
  | nil => exact Or.inl h
  | cons d ds ih =>
      rcases ih h with hold | ⟨e, he, hplace⟩
      · rcases mem_reported_report_iff.mp hold with hbefore | ⟨hplace, -⟩
        · exact Or.inl hbefore
        · exact Or.inr ⟨d, List.mem_cons_self, hplace⟩
      · exact Or.inr ⟨e, List.mem_cons_of_mem d he, hplace⟩

/-- What is about another place is taken as before. -/
theorem ignores_report_of_ne {e : Diagnostic} (hne : d.place ≠ e.place)
    (h : j.ignores e = false) : (j.report d).ignores e = false := by
  refine Bool.eq_false_iff.mpr fun hignores => Bool.eq_false_iff.mp h (ignores_iff.mpr ?_)
  rw [ignores_iff, warnings_report] at hignores
  refine hignores.imp_right fun hreported => ?_
  obtain ⟨place, hplace, hmem⟩ := hreported
  refine ⟨place, hplace, (mem_reported_report_iff.mp hmem).resolve_right fun hnew => hne ?_⟩
  rw [hplace, hnew.1.1]

/-- **Diagnostics about different places are printed one after the other**, unless one of them is
passed over from the beginning. -/
theorem printed_reportAll (hfresh : ∀ d ∈ ds, j.ignores d = false)
    (hapart : ds.Pairwise fun d e => d.place ≠ e.place) :
    (j.reportAll ds).printed = j.printed ++ ds.filterMap j.render? := by
  induction ds generalizing j with
  | nil => exact (List.append_nil _).symm
  | cons d ds ih =>
      obtain ⟨hd, hds⟩ := List.forall_mem_cons.mp hfresh
      obtain ⟨hne, hrest⟩ := List.pairwise_cons.mp hapart
      have hnext := ih (fun e he => ignores_report_of_ne (hne e he) (hds e he)) hrest
      have hfirst : (j.report d).printed = j.printed ++ (j.render? d).toList := by
        rw [report_of_takes hd]
      show ((j.report d).reportAll ds).printed = _
      rw [hnext, hfirst, render?_report, List.append_assoc, List.filterMap_cons]
      cases j.render? d with
      | none => rfl
      | some text => rfl

end Row

/-! ## The account -/

/-- What a journal answers: how many errors there are, and the text. -/
def answers (j : Journal) : Nat × String := (j.errors, j.text)

/--
**Diagnostics are counted and passed over as they should be.** Unless a place starts at
the last offset of all, no call is refused. After any calls the errors are those about no
place, and the places of the others, each once. The text after some of the calls is what
the text after all of them begins with; a call about a place and of a level that was told
before changes nothing, so of all these calls only the first can have added to the text.
And a journal that does not show warnings ends, if it does, with the answers of one that
shows them and is not told any.
-/
theorem counted_and_told_once (colored warnings : Bool) (calls : List Call) :
    ((∀ c ∈ calls, c.Drawable) → ∃ j, (start colored warnings).after calls = .ok j) ∧
      (∀ j, (start colored warnings).after calls = .ok j →
        j.errors = calls.countP Call.isGeneralError +
          (calls.filterMap Call.errorPlace?).toFinset.card ∧
        (∀ before rest, calls = before ++ rest → ∃ earlier more,
          (start colored warnings).after before = .ok earlier ∧ j.text = earlier.text ++ more) ∧
        ∀ before first between second rest key,
          calls = before ++ first :: (between ++ second :: rest) →
          first.key? = some key → second.key? = some key →
          ∃ earlier, (start colored warnings).after (before ++ first :: between) = .ok earlier ∧
            earlier.call second = .ok earlier) ∧
      ((start colored false).after calls).map answers =
        ((start colored true).after (calls.filter fun c => !c.isWarning)).map answers := by
  refine ⟨fun h => exists_after h, fun j hj => ⟨(records_of_after hj).errors, ?_, ?_⟩, ?_⟩
  · rintro before rest rfl
    obtain ⟨earlier, hbefore, hrest⟩ := after_append_eq_ok_iff.mp hj
    obtain ⟨more, hmore⟩ := exists_text_after hrest
    exact ⟨earlier, more, hbefore, hmore⟩
  · rintro before first between second rest key rfl hfirst hsecond
    have hsplit : before ++ first :: (between ++ second :: rest) =
        (before ++ first :: between) ++ second :: rest := by simp
    rw [hsplit] at hj
    obtain ⟨earlier, hbefore, -⟩ := after_append_eq_ok_iff.mp hj
    refine ⟨earlier, hbefore, (records_of_after hbefore).call_again ?_ hsecond⟩
    exact List.mem_filterMap.mpr ⟨first, by simp, hfirst⟩
  · have hshowing := after_showing (j := start colored false) rfl calls
    have hstart : (start colored false).showing = start colored true := rfl
    rw [← hstart, hshowing]
    cases (start colored false).after calls with
    | error failure => rfl
    | ok j => rfl

/-- Calls with a place told twice, a warning about it, and a file that is not known. -/
def repeatedCalls : List Call :=
  [.file ⟨"lamp.msc", "component Lamp;\n"⟩, .located "known" ⟨0, ⟨0, 9⟩⟩ .error,
    .located "known again" ⟨0, ⟨0, 9⟩⟩ .error, .located "odd" ⟨0, ⟨0, 9⟩⟩ .warning,
    .located "nowhere" ⟨7, ⟨0, 1⟩⟩ .error, .general "nothing to do" .error]

theorem counted_and_told_once_repeated :
    ∃ j, (start false false).after repeatedCalls = .ok j ∧ j.errors = 3 ∧
      (∃ earlier more, (start false false).after (repeatedCalls.take 3) = .ok earlier ∧
        j.text = earlier.text ++ more) ∧
      (∃ earlier, (start false false).after (repeatedCalls.take 2) = .ok earlier ∧
        earlier.call (.located "known again" ⟨0, ⟨0, 9⟩⟩ .error) = .ok earlier) ∧
      ((start false true).after (repeatedCalls.filter fun c => !c.isWarning)).map answers =
        .ok (3, j.text) := by
  obtain ⟨hends, hall, hhidden⟩ := counted_and_told_once false false repeatedCalls
  obtain ⟨j, hj⟩ := hends (by simp [repeatedCalls, Call.Drawable, lastOffset])
  obtain ⟨herrors, hgrows, honce⟩ := hall j hj
  have hthree : j.errors = 3 := herrors.trans (by decide)
  refine ⟨j, hj, hthree, hgrows _ (repeatedCalls.drop 3) (List.take_append_drop 3 _).symm,
    honce [.file ⟨"lamp.msc", "component Lamp;\n"⟩] _ [] _ _ (⟨0, ⟨0, 9⟩⟩, .error) rfl rfl rfl, ?_⟩
  rw [← hhidden, hj, ← hthree]
  rfl

end Journal

end ScenarioFsp
