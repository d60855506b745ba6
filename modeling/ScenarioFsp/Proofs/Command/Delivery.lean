import ScenarioFsp.Command.Run
import ScenarioFsp.Proofs.Command.Arguments
import ScenarioFsp.Proofs.Command.FileTree
import ScenarioFsp.Proofs.Document.Accepted
import ScenarioFsp.Proofs.Document.Warnings

/-!
# What a run delivers

The input file decides whether a run has anything to deliver: `Options.Makes` says what text is
made of it, and `Options.Refuses` lists what can stand in the way. One of the two holds
(`refuses_iff`), whatever the timing. A run that refuses its input leaves everything as it was
(`untouched_run`).

A text that is made goes to one place, and nothing else is touched (`delivers_deliver`). How much
of it arrives is up to that place. An output file that cannot be opened stays as it was, but one
that takes only the beginning of the text is left with that beginning, because it was emptied
when it was opened. And an output file need not be a file: a device is handed the same text, but
what becomes of it is up to the device. So a run need not be all or nothing (`run_falls_short`).
-/

namespace ScenarioFsp

namespace Command

open Setting (readFrom?)

variable {o o' : Options} {s : System} {t : FileTree} {timing : Timing}
  {path source text : String} {bytes : ByteArray}

/-! ## What becomes of the input file -/

/-- The file at a path holds a text. -/
def FileTree.Holds (t : FileTree) (path source : String) : Prop :=
  ∃ bytes, t.read path = .ok bytes ∧ String.fromUTF8? bytes = some source

theorem FileTree.Holds.unique {source' : String} (h : t.Holds path source)
    (h' : t.Holds path source') : source = source' := by
  obtain ⟨bytes, hread, hsource⟩ := h
  obtain ⟨bytes', hread', hsource'⟩ := h'
  obtain rfl := Except.ok.inj (hread.symm.trans hread')
  exact Option.some.inj (hsource.symm.trans hsource')

namespace Options

/-- The specification of the input file, if it is accepted. -/
def Specifies (o : Options) (source : String) (result : Except LoadFailure Specification) : Prop :=
  ((Journal.start false false).load o.input source).result = result

/-- The listing of a specification. -/
def Lists (o : Options) (spec : Specification) (result : Except Failure String) : Prop :=
  spec.synthesise.bind (Fsp.renderListing o.deterministic) = result

/-- The diagnostics about a text that are told are taken by the standard error. -/
def Heard (o : Options) (s : System) (source : String) : Prop :=
  Limit.part s.stderr (load o o.input source).journal.text.toUTF8 =
    (load o o.input source).journal.text.toUTF8

/-- The text made of the input file: the listing, and behind a line break the cross-check. -/
structure Makes (o : Options) (s : System) (text : String) : Prop where
  exists_listing : ∃ source spec listing, s.files.Holds o.input source ∧ o.Heard s source ∧
    o.Specifies source (.ok spec) ∧ o.Lists spec (.ok listing) ∧
    text = if o.check then listing ++ "\n" ++ (Fsp.CrossCheck.ofSpecification spec).render
      else listing

/-- What stands in the way of an input file. -/
inductive Refuses (o : Options) (s : System) : Prop where
  | unreadable (error : FileError) (h : s.files.read o.input = .error error)
  | notText (bytes : ByteArray) (h : s.files.read o.input = .ok bytes)
      (hbytes : String.fromUTF8? bytes = none)
  | unheard (source : String) (h : s.files.Holds o.input source) (hlost : ¬o.Heard s source)
  | notLoaded (source : String) (failure : LoadFailure) (h : s.files.Holds o.input source)
      (hload : o.Specifies source (.error failure))
  | notSynthesised (source : String) (spec : Specification) (failure : Failure)
      (h : s.files.Holds o.input source) (hload : o.Specifies source (.ok spec))
      (hlisting : o.Lists spec (.error failure))

/-- The standard error takes what is told about the input file, and everything if it is what the
output file stands for. -/
structure IsHeard (o : Options) (s : System) : Prop where
  input : ∀ source, s.files.Holds o.input source → o.Heard s source
  output : ∀ path, o.output = some path → s.files.target path = .ok (.device .diagnostics) →
    s.stderr = none

end Options

open Options (Heard Makes Refuses IsHeard)

theorem compile_of_holds (h : t.Holds path source) (o : Options) (timing : Timing) :
    compile o timing path (t.read path) = compileText o timing path source := by
  obtain ⟨bytes, hread, hsource⟩ := h
  rw [hread]
  unfold compile
  dsimp only
  rw [hsource]

theorem diagnostics_compileText (o : Options) (timing : Timing) (path source : String) :
    (compileText o timing path source).diagnostics = (load o path source).journal.text := by
  unfold compileText
  dsimp only
  cases (load o path source).result <;> rfl

theorem specifies_result_load (o : Options) (source : String) :
    o.Specifies source (load o o.input source).result :=
  (Journal.load_congr false false o.colored o.showsWarnings o.input source).1

/-- A text is compiled, or its file is refused. -/
theorem compileText_cases (hholds : s.files.Holds o.input source) (hheard : o.Heard s source)
    (timing : Timing) :
    (∃ text, (compileText o timing o.input source).result = .ok text ∧ o.Makes s text) ∨
      ∃ failure, (compileText o timing o.input source).result = .error failure ∧ o.Refuses s := by
  have hspecifies := specifies_result_load o source
  unfold compileText
  dsimp only
  cases hload : (load o o.input source).result with
  | error failure =>
      rw [hload] at hspecifies
      exact Or.inr ⟨_, rfl, .notLoaded source failure hholds hspecifies⟩
  | ok spec =>
      rw [hload] at hspecifies
      dsimp only
      rw [listing_snd]
      cases hlisting : spec.synthesise.bind (Fsp.renderListing o.deterministic) with
      | error failure =>
          exact Or.inr ⟨_, rfl, .notSynthesised source spec failure hholds hspecifies hlisting⟩
      | ok listing =>
          exact Or.inl ⟨_, rfl, ⟨source, spec, listing, hholds, hheard, hspecifies, hlisting, rfl⟩⟩

/-! ## What a run leaves behind -/

namespace Outcome

/-- A run that fails leaves everything as it was. -/
structure Untouched (outcome : Outcome) (files : FileTree) : Prop where
  code : outcome.code ≠ 0
  stdout : outcome.stdout = .empty
  files : outcome.files = files

/-- As much of some bytes as it takes becomes the whole content of a file, and nothing else is
touched. The run succeeds exactly if that is all of them. -/
structure Writes (outcome : Outcome) (files : FileTree) (path : String) (location : Location)
    (access : Access) (bytes : ByteArray) : Prop where
  code : outcome.code = 0 ↔ Limit.part access.limit bytes = bytes
  stdout : outcome.stdout = .empty
  content : outcome.files.nodes.get? location =
    some (.file (Limit.part access.limit bytes) access)
  /-- Whoever may read the file reads that. -/
  reading : access.reading = none →
    outcome.files.read path = .ok (Limit.part access.limit bytes)
  frame : files.DiffersAt outcome.files location

/-- As many bytes as it takes are what the standard output has got. -/
structure Prints (outcome : Outcome) (s : System) (bytes : ByteArray) : Prop where
  code : outcome.code = 0 ↔ Limit.part s.stdout bytes = bytes
  stdout : outcome.stdout = Limit.part s.stdout bytes
  files : outcome.files = s.files

/-- What becomes of bytes that a device is handed. -/
def HandedTo (outcome : Outcome) (s : System) (device : Device) (bytes : ByteArray) : Prop :=
  match device with
  | .output => outcome.Prints s bytes
  | .lossy limit =>
    (outcome.code = 0 ↔ Limit.part limit bytes = bytes) ∧ outcome.stdout = .empty ∧
      outcome.files = s.files
  | .diagnostics =>
    outcome.stdout = .empty ∧ outcome.files = s.files ∧ ∃ before after,
      outcome.stderr = Limit.part s.stderr (before ++ bytes ++ after) ∧
      (outcome.code = 0 ↔
        Limit.part s.stderr (before ++ bytes) = Limit.part s.stderr before ++ bytes)

/-- Bytes are delivered: to the standard output, or to the output file. -/
def Delivers (outcome : Outcome) (s : System) (output : Option String) (bytes : ByteArray) :
    Prop :=
  match output with
  | none => outcome.Prints s bytes
  | some path =>
    match s.files.target path with
    | .error _ => outcome.Untouched s.files
    | .ok (.location location access) => outcome.Writes s.files path location access bytes
    | .ok (.device device) => outcome.HandedTo s device bytes

/-- Two runs that differ in what they tell at most. -/
structure SameBut (outcome outcome' : Outcome) : Prop where
  code : outcome.code = outcome'.code
  stdout : outcome.stdout = outcome'.stdout
  files : outcome.files = outcome'.files

end Outcome

section Delivering

variable {err : Sink} {told : ByteArray}

theorem untouched_failed (files : FileTree) (err : Sink) (failure : RunFailure) :
    (failed files err .empty failure).Untouched files :=
  ⟨Nat.one_ne_zero, rfl, rfl⟩

theorem code_written (o : Options) (path : String) (files : FileTree) (err : Sink)
    (stdout : ByteArray) (error? : Option FileError) :
    (written o path files err stdout error?).code = 0 ↔ error? = none := by
  cases error? with
  | none => exact iff_of_true rfl rfl
  | some error => exact iff_of_false Nat.one_ne_zero (by simp)

theorem stdout_written (o : Options) (path : String) (files : FileTree) (err : Sink)
    (stdout : ByteArray) (error? : Option FileError) :
    (written o path files err stdout error?).stdout = stdout := by
  cases error? <;> rfl

theorem files_written (o : Options) (path : String) (files : FileTree) (err : Sink)
    (stdout : ByteArray) (error? : Option FileError) :
    (written o path files err stdout error?).files = files := by
  cases error? <;> rfl

/-- Behind what has been told there is one line more. -/
theorem exists_stderr_written (herr : err.Holds s.stderr told) (o : Options) (path : String)
    (files : FileTree) (stdout : ByteArray) (error? : Option FileError) :
    ∃ after, (written o path files err stdout error?).stderr =
      Limit.part s.stderr (told ++ after) := by
  cases error? with
  | none => exact ⟨_, (herr.write _).2⟩
  | some error => exact ⟨_, (herr.write _).2⟩

theorem prints_print (s : System) (err : Sink) (bytes : ByteArray) :
    (print s err bytes).Prints s bytes := by
  have hcode : ((Sink.start s.stdout).write bytes).2 = none ↔ Limit.part s.stdout bytes = bytes :=
    Sink.write_start_eq_none_iff
  have hcontent := Sink.content_write_start s.stdout bytes
  unfold print
  dsimp only
  cases herror : ((Sink.start s.stdout).write bytes).2 with
  | none => exact ⟨iff_of_true rfl (hcode.mp herror), hcontent, rfl⟩
  | some error =>
      refine ⟨iff_of_false Nat.one_ne_zero fun hall => ?_, hcontent, rfl⟩
      exact absurd (herror.symm.trans (hcode.mpr hall)) (by simp)

theorem delivers_deliverTo (herr : err.Holds s.stderr told) (o : Options) (bytes : ByteArray)
    (path : String) : (deliverTo o s err bytes path).Delivers s (some path) bytes := by
  unfold deliverTo Outcome.Delivers
  dsimp only
  cases htarget : s.files.target path with
  | error error => exact untouched_failed s.files err _
  | ok target =>
      cases target with
      | location location access =>
          refine ⟨(code_written ..).trans Sink.write_start_eq_none_iff, stdout_written .., ?_, ?_,
            ?_⟩
          · rw [files_written, FileTree.get?_put, Sink.content_write_start]
          · intro hreading
            rw [files_written, FileTree.read_put_of_target htarget hreading,
              Sink.content_write_start]
          · rw [files_written]
            exact FileTree.differsAt_put ..
      | device device =>
          cases device with
          | lossy limit =>
              exact ⟨(code_written ..).trans Sink.write_start_eq_none_iff, stdout_written ..,
                files_written ..⟩
          | output =>
              refine ⟨(code_written ..).trans Sink.write_start_eq_none_iff, ?_, files_written ..⟩
              rw [stdout_written, Sink.content_write_start]
          | diagnostics =>
              obtain ⟨after, hafter⟩ := exists_stderr_written (herr.write bytes) o path s.files
                .empty (err.write bytes).2
              refine ⟨stdout_written .., files_written .., told, after, hafter, ?_⟩
              have hpart := Limit.part_part_append s.stderr told bytes
              rw [code_written, Sink.write_eq_none_iff, herr.1, herr.2, hpart]

theorem delivers_deliver (herr : err.Holds s.stderr told) (o : Options) (text : String) :
    (deliver o s err (.ok text)).Delivers s o.output text.toUTF8 := by
  unfold deliver
  cases o.output with
  | none => exact prints_print s err _
  | some path => exact delivers_deliverTo herr o _ path

end Delivering

/-! ## Runs -/

/-- Diagnostics that are taken keep nothing from being delivered. -/
theorem exists_run_eq_deliver {c : Compiled}
    (hcompiled : compile o timing o.input (s.files.read o.input) = c)
    (htaken : Limit.part s.stderr c.diagnostics.toUTF8 = c.diagnostics.toUTF8) :
    ∃ err told, err.Holds s.stderr told ∧ run o timing s = deliver o s err c.result := by
  have htold : ((Sink.start s.stderr).write c.diagnostics.toUTF8).2 = none :=
    Sink.write_start_eq_none_iff.mpr htaken
  refine ⟨_, _, ((Sink.holds_start _).write c.diagnostics.toUTF8).write c.messages.toUTF8, ?_⟩
  unfold run
  rw [hcompiled]
  dsimp only
  rw [htold]

/-- A run without diagnostics fails if nothing has been compiled. -/
theorem exists_run_eq_failed {failure : RunFailure}
    (hcompiled : compile o timing o.input (s.files.read o.input) = ⟨"", "", .error failure⟩) :
    ∃ err failure, run o timing s = failed s.files err .empty failure := by
  have hnothing : Limit.part s.stderr "".toUTF8 = "".toUTF8 :=
    Limit.part_eq_self_iff.mpr fun l _ => Nat.zero_le l.bytes
  obtain ⟨err, told, -, hrun⟩ := exists_run_eq_deliver hcompiled hnothing
  exact ⟨err, failure, hrun⟩

/-- A run breaks off if its diagnostics are not taken. -/
theorem untouched_run_of_unheard (h : s.files.Holds o.input source) (hlost : ¬o.Heard s source) :
    (run o timing s).Untouched s.files := by
  cases hwrite : ((Sink.start s.stderr).write
      (compileText o timing o.input source).diagnostics.toUTF8).2 with
  | none =>
      refine absurd (Sink.write_start_eq_none_iff.mp hwrite) ?_
      rwa [diagnostics_compileText]
  | some error =>
      have hcode : brokenCode ≠ 0 := by decide
      unfold run
      rw [compile_of_holds h]
      dsimp only
      rw [hwrite]
      exact ⟨hcode, rfl, rfl⟩

/-- A text is made and handed on, or the input file is refused: the run fails, or it breaks off
where not even its diagnostics are heard. -/
theorem run_cases (o : Options) (timing : Timing) (s : System) :
    (∃ text err told, o.Makes s text ∧ err.Holds s.stderr told ∧
        run o timing s = deliver o s err (.ok text)) ∨
      (o.Refuses s ∧ ∃ err failure, run o timing s = failed s.files err .empty failure) ∨
      ∃ source, s.files.Holds o.input source ∧ ¬o.Heard s source ∧
        (run o timing s).Untouched s.files := by
  cases hread : s.files.read o.input with
  | error error =>
      have hcompiled : compile o timing o.input (s.files.read o.input) =
          ⟨"", "", .error (.unreadable o.input error)⟩ := by rw [hread]; rfl
      exact Or.inr (Or.inl ⟨.unreadable error hread, exists_run_eq_failed hcompiled⟩)
  | ok bytes =>
      cases hbytes : String.fromUTF8? bytes with
      | none =>
          have hcompiled : compile o timing o.input (s.files.read o.input) =
              ⟨"", "", .error (.unreadable o.input .invalidText)⟩ := by
            rw [hread]
            unfold compile
            dsimp only
            rw [hbytes]
          exact Or.inr (Or.inl ⟨.notText bytes hread hbytes, exists_run_eq_failed hcompiled⟩)
      | some source =>
          have hholds : s.files.Holds o.input source := ⟨bytes, hread, hbytes⟩
          by_cases hheard : o.Heard s source
          · obtain ⟨err, told, herr, hrun⟩ := exists_run_eq_deliver
              (compile_of_holds hholds o timing) (by rwa [diagnostics_compileText])
            rcases compileText_cases hholds hheard timing with
              ⟨text, hresult, hmakes⟩ | ⟨failure, hresult, hrefuses⟩
            · rw [hresult] at hrun
              exact Or.inl ⟨text, err, told, hmakes, herr, hrun⟩
            · rw [hresult] at hrun
              exact Or.inr (Or.inl ⟨hrefuses, err, failure, hrun⟩)
          · exact Or.inr (Or.inr ⟨source, hholds, hheard,
              untouched_run_of_unheard hholds hheard⟩)

/-- At most one text is made of an input file. -/
theorem Options.Makes.unique {text' : String} (h : o.Makes s text) (h' : o.Makes s text') :
    text = text' := by
  obtain ⟨source, spec, listing, hholds, -, hload, hlisting, rfl⟩ := h
  obtain ⟨source', spec', listing', hholds', -, hload', hlisting', rfl⟩ := h'
  obtain rfl := hholds.unique hholds'
  obtain rfl := Except.ok.inj (hload.symm.trans hload')
  obtain rfl := Except.ok.inj (hlisting.symm.trans hlisting')
  rfl

/-- What is made is never empty: it begins with the header. -/
theorem Options.Makes.exists_eq_header_append (h : o.Makes s text) :
    ∃ rest, text = Fsp.header ++ rest := by
  obtain ⟨source, spec, listing, -, -, -, hlisting, rfl⟩ := h
  obtain ⟨components, -, hrendered⟩ := FileTree.exists_of_bind_eq_ok hlisting
  have hheader : ∃ rest, listing = Fsp.header ++ rest := by
    unfold Fsp.renderListing at hrendered
    cases hprocesses : Fsp.renderComponents o.deterministic components with
    | error failure =>
        rw [hprocesses] at hrendered
        exact absurd hrendered (by simp [Except.map])
    | ok processes =>
        rw [hprocesses] at hrendered
        obtain rfl := Except.ok.inj hrendered
        exact ⟨_, String.append_assoc⟩
  obtain ⟨rest, rfl⟩ := hheader
  split
  · exact ⟨_, String.append_assoc.trans String.append_assoc⟩
  · exact ⟨rest, rfl⟩

theorem Options.Makes.one_lt_size (h : o.Makes s text) : 1 < text.toUTF8.size := by
  obtain ⟨rest, rfl⟩ := h.exists_eq_header_append
  have hsize : (Fsp.header ++ rest).toUTF8.size =
      Fsp.header.toUTF8.size + rest.toUTF8.size := by
    rw [← ByteArray.size_append]
    exact congrArg ByteArray.size String.toByteArray_append
  have hheader : 1 < Fsp.header.toUTF8.size := by decide +kernel
  omega

/-- Of an accepted text something is made, whatever is asked for. -/
theorem Options.exists_makes {spec : Specification} (hholds : s.files.Holds o.input source)
    (hheard : o.Heard s source) (hload : o.Specifies source (.ok spec)) :
    ∃ text, o.Makes s text := by
  obtain ⟨d, -, rfl⟩ := Journal.exists_document_of_load hload
  obtain ⟨listing, hlisting⟩ := d.processable_load.listing o.deterministic 0
  have hlists : o.Lists d.load.spec (.ok listing) :=
    (SynthesisRun.listing_ofComponents ..).symm.trans (congrArg SynthesisRun.listing hlisting)
  exact ⟨_, source, d.load.spec, listing, hholds, hheard, hload, hlists, rfl⟩

theorem Options.Makes.not_refuses (h : o.Makes s text) : ¬o.Refuses s := by
  obtain ⟨source, spec, listing, hholds, hheard, hload, hlisting, -⟩ := h
  have ⟨bytes, hread, hbytes⟩ := hholds
  intro hrefuses
  cases hrefuses with
  | unreadable error hread' => exact absurd (hread.symm.trans hread') (by simp)
  | notText bytes' hread' hbytes' =>
      obtain rfl := Except.ok.inj (hread.symm.trans hread')
      exact absurd (hbytes.symm.trans hbytes') (by simp)
  | unheard source' hholds' hlost =>
      obtain rfl := hholds.unique hholds'
      exact hlost hheard
  | notLoaded source' failure hholds' hload' =>
      obtain rfl := hholds.unique hholds'
      exact absurd (hload.symm.trans hload') (by simp)
  | notSynthesised source' spec' failure hholds' hload' hlisting' =>
      obtain rfl := hholds.unique hholds'
      obtain rfl := Except.ok.inj (hload.symm.trans hload')
      exact absurd (hlisting.symm.trans hlisting') (by simp)

/-- What stands in the way is listed completely. -/
theorem refuses_iff (o : Options) (s : System) : o.Refuses s ↔ ¬∃ text, o.Makes s text := by
  refine ⟨fun hrefuses ⟨text, hmakes⟩ => hmakes.not_refuses hrefuses, fun hnone => ?_⟩
  rcases run_cases o ⟨0, .inTurn⟩ s with
    ⟨text, _, _, hmakes, -⟩ | ⟨hrefuses, -⟩ | ⟨source, hholds, hlost, -⟩
  · exact absurd ⟨text, hmakes⟩ hnone
  · exact hrefuses
  · exact .unheard source hholds hlost

theorem untouched_run (h : o.Refuses s) (timing : Timing) :
    (run o timing s).Untouched s.files := by
  rcases run_cases o timing s with
    ⟨text, _, _, hmakes, -⟩ | ⟨-, err, failure, hrun⟩ | ⟨_, -, -, huntouched⟩
  · exact absurd h hmakes.not_refuses
  · rw [hrun]
    exact untouched_failed s.files err failure
  · exact huntouched

/-- A run that is heard does not break off. -/
theorem exists_run_of_refuses (h : o.Refuses s) (hheard : o.IsHeard s) (timing : Timing) :
    ∃ err failure, run o timing s = failed s.files err .empty failure := by
  rcases run_cases o timing s with
    ⟨text, _, _, hmakes, -⟩ | ⟨-, hfailed⟩ | ⟨source, hholds, hlost, -⟩
  · exact absurd h hmakes.not_refuses
  · exact hfailed
  · exact absurd (hheard.input source hholds) hlost

theorem exists_run_of_makes (h : o.Makes s text) (timing : Timing) :
    ∃ err told, err.Holds s.stderr told ∧ run o timing s = deliver o s err (.ok text) := by
  rcases run_cases o timing s with
    ⟨text', err, told, hmakes, herr, hrun⟩ | ⟨hrefuses, -⟩ | ⟨source, hholds, hlost, -⟩
  · obtain rfl := h.unique hmakes
    exact ⟨err, told, herr, hrun⟩
  · exact absurd hrefuses h.not_refuses
  · exact absurd (.unheard source hholds hlost) h.not_refuses

theorem delivers_run (h : o.Makes s text) (timing : Timing) :
    (run o timing s).Delivers s o.output text.toUTF8 := by
  obtain ⟨err, told, herr, hrun⟩ := exists_run_of_makes h timing
  rw [hrun]
  exact delivers_deliver herr o text

/-! ## What is told makes no difference -/

theorem sameBut_written (o o' : Options) (path : String) (files : FileTree) (err err' : Sink)
    (stdout : ByteArray) (error? : Option FileError) :
    (written o path files err stdout error?).SameBut
      (written o' path files err' stdout error?) := by
  cases error? <;> exact ⟨rfl, rfl, rfl⟩

theorem sameBut_print (s : System) (err err' : Sink) (bytes : ByteArray) :
    (print s err bytes).SameBut (print s err' bytes) := by
  unfold print
  dsimp only
  cases ((Sink.start s.stdout).write bytes).2 <;> exact ⟨rfl, rfl, rfl⟩

/-- What has been told before a text is delivered does not matter to it, unless it is told in the
same place. -/
theorem sameBut_deliver {err err' : Sink} {told told' : ByteArray}
    (herr : err.Holds s.stderr told) (herr' : err'.Holds s.stderr told')
    (houtput : o.output = o'.output)
    (hdiagnostics : ∀ path, o.output = some path →
      s.files.target path = .ok (.device .diagnostics) → s.stderr = none) (text : String) :
    (deliver o s err (.ok text)).SameBut (deliver o' s err' (.ok text)) := by
  unfold deliver
  dsimp only
  rw [← houtput]
  cases hpath : o.output with
  | none => exact sameBut_print s err err' _
  | some path =>
      dsimp only
      unfold deliverTo
      cases htarget : s.files.target path with
      | error error => exact ⟨rfl, rfl, rfl⟩
      | ok target =>
          cases target with
          | location location access => exact sameBut_written ..
          | device device =>
              cases device with
              | lossy limit => exact sameBut_written ..
              | output => exact sameBut_written ..
              | diagnostics =>
                  have hlimit := hdiagnostics path hpath htarget
                  have hall : ∀ {e : Sink} {told : ByteArray}, e.Holds s.stderr told →
                      (e.write text.toUTF8).2 = none := by
                    intro e told he
                    rw [Sink.write_eq_none_iff, he.1, hlimit]
                    rfl
                  dsimp only
                  rw [hall herr, hall herr']
                  exact sameBut_written ..

/-- What is made depends on what is asked for, as long as what is told is heard. -/
theorem Options.Makes.of_asked (h : o.Makes s text) (hasked : o.asked = o'.asked)
    (hheard : o'.IsHeard s) : o'.Makes s text := by
  obtain ⟨hinput, -, hdeterministic, hcheck⟩ := Options.asked_eq_iff.mp hasked
  obtain ⟨source, spec, listing, hholds, -, hload, hlisting, rfl⟩ := h
  rw [hinput] at hholds
  unfold Specifies at hload
  unfold Lists at hlisting
  rw [hinput] at hload
  rw [hdeterministic] at hlisting
  rw [hcheck]
  exact ⟨source, spec, listing, hholds, hheard.input source hholds, hload, hlisting, rfl⟩

/-- The same is made for two lists of options, and their runs differ in what they tell at most, if
both are heard. -/
def Options.Alike (o o' : Options) (s : System) : Prop :=
  o.IsHeard s → o'.IsHeard s →
    (∀ text, o.Makes s text ↔ o'.Makes s text) ∧
      ∀ timing timing', (run o timing s).SameBut (run o' timing' s)

theorem alike_of_asked (hasked : o.asked = o'.asked) (s : System) : o.Alike o' s := by
  intro hheard hheard'
  have hmakes : ∀ text, o.Makes s text ↔ o'.Makes s text := fun text =>
    ⟨fun h => h.of_asked hasked hheard', fun h => h.of_asked hasked.symm hheard⟩
  refine ⟨hmakes, fun timing timing' => ?_⟩
  by_cases hsome : ∃ text, o.Makes s text
  · obtain ⟨text, htext⟩ := hsome
    obtain ⟨err, told, herr, hrun⟩ := exists_run_of_makes htext timing
    obtain ⟨err', told', herr', hrun'⟩ := exists_run_of_makes ((hmakes text).mp htext) timing'
    rw [hrun, hrun']
    exact sameBut_deliver herr herr' (Options.asked_eq_iff.mp hasked).2.1 hheard.output text
  · have hnone' : ¬∃ text, o'.Makes s text := fun ⟨text, htext⟩ =>
      hsome ⟨text, (hmakes text).mpr htext⟩
    obtain ⟨err, failure, hrun⟩ :=
      exists_run_of_refuses ((refuses_iff o s).mpr hsome) hheard timing
    obtain ⟨err', failure', hrun'⟩ :=
      exists_run_of_refuses ((refuses_iff o' s).mpr hnone') hheard' timing'
    rw [hrun, hrun']
    exact ⟨rfl, rfl, rfl⟩

/-- A standard error that takes everything hears everything. -/
theorem isHeard_of_unlimited (o : Options) (h : s.stderr = none) : o.IsHeard s := by
  refine ⟨fun source _ => ?_, fun _ _ _ => h⟩
  unfold Heard
  rw [h]
  rfl

/--
**What a run delivers is decided by the input file, and where it goes by the output.** For every
accepted command line, the input file is refused or a text is made of it, and not both. If it is
refused (it cannot be read as text, is not accepted, or synthesis fails, or the standard error
does not take the diagnostics), the code is not zero, the standard output is empty and no file is
touched. Otherwise the text is delivered. Without an output file it goes to the standard output
and no file is touched; with one it becomes the whole content of that file, all other files stay
and the standard output is empty. If the file cannot be opened, the run fails and leaves
everything as it was. If the text is not taken completely, by the file or by the standard output,
the run fails after the part that is taken; of the old content of the file nothing is left. A
device that is named as the output file is handed the text, and no file is touched.

Whatever else is asked for, even by other arguments, does not matter: two runs of which the same
input, output, option and cross-check are asked make the same text, and have the same code, output
and files, as long as they are heard. Arguments about other matters may be left out.
-/
theorem run_delivers {args : List String} (h : Options.parse? args = some o) (s : System)
    (timing : Timing) :
    (o.Refuses s ↔ ¬∃ text, o.Makes s text) ∧
      (o.Refuses s → (run o timing s).Untouched s.files) ∧
      (∀ text, o.Makes s text → (run o timing s).Delivers s o.output text.toUTF8) ∧
      (∀ args' o', Options.parse? args' = some o' → o'.asked = o.asked → o'.Alike o s) ∧
      ∀ before extra after settings, args = before ++ extra ++ after →
        readFrom? .anything before = some (settings, .anything) → Incidental extra →
        ∃ o', Options.parse? (before ++ after) = some o' ∧ o'.Alike o s := by
  refine ⟨refuses_iff o s, fun hrefuses => untouched_run hrefuses timing,
    fun text hmakes => delivers_run hmakes timing,
    fun _ _ _ hasked => alike_of_asked hasked s,
    fun before extra after settings hargs hbefore hextra => ?_⟩
  rw [hargs] at h
  obtain ⟨o', ho', hasked⟩ := Options.exists_parse?_without h hbefore hextra
  exact ⟨o', ho', alike_of_asked hasked s⟩

/-- A lamp that is switched on once; nobody says when it is dimmed. -/
def lampText : String :=
  "component Lamp; bmsc On \x7b instance Lamp \x7b message press; \x7d \x7d bmsc Dim \x7b\x7d " ++
    "hmsc \x7b init -> On; On -> final; \x7d"

/-- A directory with the lamp and with a file that takes nothing more, on a system with a standard
output. -/
def desk : FileTree :=
  let system : FileTree :=
    ⟨OrderedMap.empty.insert ["dev", "stdout"] (.device (.ok .output) (.ok .empty)), ["desk"], [],
      fun _ => none, fun _ => .ok .all⟩
  (system.put ["desk", "full.lts"] "old".toUTF8 ⟨none, none, some ⟨0, .noSpace⟩⟩).put
    ["desk", "lamp.msc"] lampText.toUTF8 .all

theorem holds_desk : desk.Holds "lamp.msc" lampText := by
  have hread : desk.read "lamp.msc" = .ok lampText.toUTF8 :=
    FileTree.read_put_of_target rfl rfl lampText.toUTF8
  refine ⟨_, hread, ?_⟩
  unfold String.fromUTF8?
  exact dif_pos lampText.isValidUTF8

theorem exists_makes_desk (hinput : o.input = "lamp.msc") (hfiles : s.files = desk)
    (hheard : o.Heard s lampText) : ∃ text, o.Makes s text := by
  have haccepted : ((Journal.start false false).load "lamp.msc" lampText).result.toOption.isSome =
      true := by decide +kernel
  cases hload : ((Journal.start false false).load "lamp.msc" lampText).result with
  | error failure =>
      rw [hload] at haccepted
      exact absurd haccepted (by simp [Except.toOption])
  | ok spec =>
      have hholds : s.files.Holds o.input lampText := by
        rw [hinput, hfiles]
        exact holds_desk
      have hspecifies : o.Specifies lampText (.ok spec) := by
        unfold Options.Specifies
        rw [hinput]
        exact hload
      exact Options.exists_makes hholds hheard hspecifies

/-- The lamp is written to a file, in turn or at the same time and with or without messages. -/
theorem run_delivers_lamp :
    ∃ o o' text, Options.parse? ["lamp.msc", "-jvv", "-o", "lamp.lts", "--check"] = some o ∧
      Options.parse? ["lamp.msc", "-o", "lamp.lts", "--check"] = some o' ∧
      o.Makes ⟨desk, none, none⟩ text ∧
      (run o ⟨7, .lastFirst⟩ ⟨desk, none, none⟩).code = 0 ∧
      (run o ⟨7, .lastFirst⟩ ⟨desk, none, none⟩).files.read "lamp.lts" = .ok text.toUTF8 ∧
      desk.DiffersAt (run o ⟨7, .lastFirst⟩ ⟨desk, none, none⟩).files ["desk", "lamp.lts"] ∧
      (run o' ⟨9, .inTurn⟩ ⟨desk, none, none⟩).SameBut
        (run o ⟨7, .lastFirst⟩ ⟨desk, none, none⟩) := by
  have hparse : Options.parse? ["lamp.msc", "-jvv", "-o", "lamp.lts", "--check"] =
      some ⟨"lamp.msc", some "lamp.lts", false, true, true, 2, 0, .auto⟩ := by decide +kernel
  obtain ⟨-, -, hdelivers, -, hwithout⟩ := run_delivers hparse ⟨desk, none, none⟩ ⟨7, .lastFirst⟩
  obtain ⟨o', ho', halike⟩ := hwithout ["lamp.msc"] ["-jvv"] ["-o", "lamp.lts", "--check"]
    [.input "lamp.msc"] rfl rfl (.letters (by simp) (by simp))
  obtain ⟨text, hmakes⟩ := exists_makes_desk
    (o := ⟨"lamp.msc", some "lamp.lts", false, true, true, 2, 0, .auto⟩)
    (s := ⟨desk, none, none⟩) rfl rfl rfl
  obtain ⟨hcode, -, -, hread, hframe⟩ := hdelivers text hmakes
  obtain ⟨-, hsame⟩ := halike (isHeard_of_unlimited o' rfl) (isHeard_of_unlimited _ rfl)
  exact ⟨_, o', text, hparse, ho', hmakes, hcode.mpr rfl, hread rfl, hframe, hsame _ _⟩

/-! ## Neither all nor nothing -/

/-- One byte is not enough for what is made. -/
theorem part_ne_of_makes {limit : Limit} (h : o.Makes s text) (hlimit : limit.bytes ≤ 1) :
    Limit.part (some limit) text.toUTF8 ≠ text.toUTF8 := by
  intro hall
  have hfits := Limit.part_eq_self_iff.mp hall limit rfl
  exact absurd h.one_lt_size (Nat.not_lt.mpr (Nat.le_trans hfits hlimit))

theorem part_zero (error : FileError) (content : ByteArray) :
    Limit.part (some ⟨0, error⟩) content = .empty :=
  ByteArray.extract_same

theorem heard_desk_of_quiet :
    Heard ⟨"lamp.msc", none, false, false, false, 0, 0, .auto⟩
      ⟨desk, none, some ⟨0, .noSpace⟩⟩ lampText := by
  have hquiet : (load ⟨"lamp.msc", none, false, false, false, 0, 0, .auto⟩ "lamp.msc"
      lampText).journal.text = "" := by decide +kernel
  unfold Options.Heard
  rw [hquiet]
  exact part_zero ..

theorem not_heard_desk_of_verbose :
    ¬Heard ⟨"lamp.msc", none, false, false, false, 1, 0, .auto⟩
      ⟨desk, none, some ⟨0, .noSpace⟩⟩ lampText := by
  have hwarned : (load ⟨"lamp.msc", none, false, false, false, 1, 0, .auto⟩ "lamp.msc"
      lampText).journal.text ≠ "" := by decide +kernel
  intro hheard
  exact hwarned (String.toByteArray_inj.mp (hheard.symm.trans (part_zero ..)))

/--
**A run need not deliver all or leave everything as it was.** The standard output does not stay
empty if it is what the output file stands for. A file that takes no more has lost its old
content. The standard output may get a part of the text. And a warning that is not taken by the
standard error breaks off a run that succeeds without it.
-/
theorem run_falls_short :
    (∃ o text, Options.parse? ["lamp.msc", "-o", "/dev/stdout"] = some o ∧
      o.Makes ⟨desk, none, none⟩ text ∧ 1 < text.toUTF8.size ∧
      (run o ⟨0, .inTurn⟩ ⟨desk, none, none⟩).code = 0 ∧
      (run o ⟨0, .inTurn⟩ ⟨desk, none, none⟩).stdout = text.toUTF8 ∧
      (run o ⟨0, .inTurn⟩ ⟨desk, none, none⟩).files = desk) ∧
    (∃ o, Options.parse? ["lamp.msc", "-o", "full.lts"] = some o ∧
      desk.read "full.lts" = .ok "old".toUTF8 ∧
      (run o ⟨0, .inTurn⟩ ⟨desk, none, none⟩).code ≠ 0 ∧
      (run o ⟨0, .inTurn⟩ ⟨desk, none, none⟩).files.read "full.lts" = .ok .empty) ∧
    (∃ o, Options.parse? ["lamp.msc"] = some o ∧
      (run o ⟨0, .inTurn⟩ ⟨desk, some ⟨1, .noSpace⟩, none⟩).code ≠ 0 ∧
      (run o ⟨0, .inTurn⟩ ⟨desk, some ⟨1, .noSpace⟩, none⟩).stdout.size = 1) ∧
    ∃ o o', Options.parse? ["lamp.msc"] = some o ∧ Options.parse? ["lamp.msc", "-v"] = some o' ∧
      (run o ⟨0, .inTurn⟩ ⟨desk, none, some ⟨0, .noSpace⟩⟩).code = 0 ∧
      (run o' ⟨0, .inTurn⟩ ⟨desk, none, some ⟨0, .noSpace⟩⟩).code ≠ 0 := by
  have hplain : Options.parse? ["lamp.msc"] =
      some ⟨"lamp.msc", none, false, false, false, 0, 0, .auto⟩ := by decide +kernel
  have hverbose : Options.parse? ["lamp.msc", "-v"] =
      some ⟨"lamp.msc", none, false, false, false, 1, 0, .auto⟩ := by decide +kernel
  have houtput : ∀ path ∈ ["/dev/stdout", "full.lts"], Options.parse? ["lamp.msc", "-o", path] =
      some ⟨"lamp.msc", some path, false, false, false, 0, 0, .auto⟩ := by decide +kernel
  refine ⟨?_, ?_, ?_, ?_⟩
  · obtain ⟨text, hmakes⟩ := exists_makes_desk
      (o := ⟨"lamp.msc", some "/dev/stdout", false, false, false, 0, 0, .auto⟩)
      (s := ⟨desk, none, none⟩) rfl rfl rfl
    obtain ⟨hcode, hstdout, hfiles⟩ := delivers_run hmakes ⟨0, .inTurn⟩
    exact ⟨_, text, houtput "/dev/stdout" (by simp), hmakes, hmakes.one_lt_size, hcode.mpr rfl,
      hstdout, hfiles⟩
  · obtain ⟨text, hmakes⟩ := exists_makes_desk
      (o := ⟨"lamp.msc", some "full.lts", false, false, false, 0, 0, .auto⟩)
      (s := ⟨desk, none, none⟩) rfl rfl rfl
    obtain ⟨hcode, -, -, hread, -⟩ := delivers_run hmakes ⟨0, .inTurn⟩
    exact ⟨_, houtput "full.lts" (by simp), rfl,
      fun hzero => part_ne_of_makes hmakes (Nat.zero_le 1) (hcode.mp hzero),
      (hread rfl).trans (congrArg _ (part_zero ..))⟩
  · obtain ⟨text, hmakes⟩ := exists_makes_desk
      (o := ⟨"lamp.msc", none, false, false, false, 0, 0, .auto⟩)
      (s := ⟨desk, some ⟨1, .noSpace⟩, none⟩) rfl rfl rfl
    obtain ⟨hcode, hstdout, -⟩ := delivers_run hmakes ⟨0, .inTurn⟩
    have hone : (Limit.part (some ⟨1, .noSpace⟩) text.toUTF8).size = 1 :=
      ByteArray.size_extract.trans (Nat.min_eq_left (Nat.le_of_lt hmakes.one_lt_size))
    exact ⟨_, hplain, fun hzero => part_ne_of_makes hmakes (Nat.le_refl 1) (hcode.mp hzero),
      (congrArg ByteArray.size hstdout).trans hone⟩
  · obtain ⟨text, hmakes⟩ := exists_makes_desk rfl rfl heard_desk_of_quiet
    exact ⟨_, _, hplain, hverbose, (delivers_run hmakes ⟨0, .inTurn⟩).code.mpr rfl,
      (untouched_run_of_unheard holds_desk not_heard_desk_of_verbose).code⟩

end Command

end ScenarioFsp
