import ScenarioFsp.Command.ControlSequence
import ScenarioFsp.Command.Options
import ScenarioFsp.Fsp.Listing

/-!
# The log of a run

Each step of a run leaves messages, which are shown if their level is asked for.
They are computed from what the step has made, so that no step knows of them.
-/

namespace ScenarioFsp

namespace Command

/-- A message of the log, with the part of the program it comes from. -/
structure LogMessage where
  level : LogLevel
  source : String
  text : String
deriving DecidableEq, Repr

namespace LogMessage

/-- The name of a level, padded to the longest. -/
def levelText : LogLevel → String
  | .off => "OFF  "
  | .error => "ERROR"
  | .warn => "WARN "
  | .info => "INFO "
  | .debug => "DEBUG"
  | .trace => "TRACE"

/-- Lines after the first are set four columns in. -/
def indent (text : String) : String :=
  String.ofList (text.toList.flatMap fun c => if c = '\n' then '\n' :: List.replicate 4 ' ' else [c])

/-- A message is shown as it looks in a terminal. -/
def render (m : LogMessage) : String :=
  ControlSequence.strip s!"[{levelText m.level} {m.source}] {indent m.text}\n"

/-- The messages that are shown at a level. -/
def renderAll (level : LogLevel) (messages : List LogMessage) : String :=
  String.join ((messages.filter fun m => level.shows m.level).map render)

end LogMessage

namespace Log

/-- After loading. -/
def loaded (name : String) (spec : Specification) : LogMessage :=
  ⟨.info, "mscsynth::parser",
    s!"loaded {name}: {spec.scenarios.length} bMSCs, {spec.components.length} components"⟩

/-- After relating the scenarios. -/
def related (common : Relation) : LogMessage :=
  ⟨.debug, "mscsynth::continuation", s!"common continuation relation has {common.size} pairs"⟩

/-- After extracting the productions of a lifeline. -/
def extracted (lifeline : String × Lifeline) (added : Nat) : LogMessage :=
  ⟨.trace, "mscsynth::extract",
    s!"bMSC {lifeline.1}: {lifeline.2.length} events, {added} new productions"⟩

/-- After deriving the grammar of a component: its empty rules are the ones that were missing. -/
def derived (d : Derivation) : List LogMessage :=
  (d.lifelines.zip (extractionCounts d.lifelines)).map (fun p => extracted p.1 p.2) ++
  [⟨.trace, "mscsynth::rewrite",
      s!"rewrote {d.productions.size} productions into {d.rooted.size}"⟩,
    ⟨.debug, "mscsynth::synthesis",
      s!"{d.component}: {d.productions.size} productions, {d.rooted.size} after rewriting"⟩] ++
  (d.grammar.ruleList.filter Rule.isEmpty).map fun r =>
    ⟨.debug, "mscsynth::grammar", s!"adding empty rule for {r.symbol}"⟩

/-- A field of the statistics. -/
def field (name : String) (value : Nat) : String := s!"{name}: {value}"

/-- The statistics as a record; its fields have names of their own in the log. -/
def statisticsText (s : Statistics) : String :=
  "SimplifyStats \x7b " ++ ", ".intercalate
    [field "passes" s.passes, field "unreachable_rules" s.unusedRules,
      field "trivial_productions" s.silentAlternatives,
      field "recursive_alternatives" s.silentLoops, field "inlined_rules" s.inlinedRules,
      field "duplicate_alternatives" s.repeatedAlternatives,
      field "merged_rules" s.mergedRules] ++ " \x7d"

/-- After simplifying the grammar of a component. -/
def simplified (c : SynthesisedComponent) : List LogMessage :=
  [⟨.debug, "mscsynth::simplify",
      s!"simplified grammar in {c.statistics.passes} passes: {statisticsText c.statistics}"⟩,
    ⟨.debug, "mscsynth::synthesis",
      s!"{c.name}: simplified from {c.derivation.grammar.numRules} to {c.grammar.numRules} rules"⟩]

/-- Over a whole synthesis, without the time that it took. The components stand in their order here;
where they are synthesised at the same time, their messages may be mixed. -/
def synthesised (spec : Specification) : List LogMessage :=
  match spec.commonRelation with
  | .error _ => []
  | .ok common =>
    related common :: spec.componentIds.flatMap fun id =>
      match spec.synthesiseComponent common id with
      | .error _ => []
      | .ok c => derived c.derivation ++ simplified c

/-- A message about the progress of a synthesis. -/
def status (text : String) : LogMessage := ⟨.info, "mscsynth::synthesis", text⟩

/-- After writing the listing. -/
def wrote (path : String) : LogMessage := ⟨.info, "mscsynth", s!"wrote {path}"⟩

end Log

end Command

end ScenarioFsp
