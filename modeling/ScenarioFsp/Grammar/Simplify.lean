import ScenarioFsp.Grammar.Inlining
import ScenarioFsp.Grammar.Merging
import ScenarioFsp.Grammar.Silence

/-!
# Simplification

The six reductions are applied in turn, and the turn is repeated until it makes
no change. From the second pass on every pass that changes something leaves
fewer rules and alternatives together than it found, and the first one at most
copies every alternative to every rule; `passBound` allows for that.
-/

namespace ScenarioFsp

/-- The reductions of a grammar. -/
inductive Reduction where
  | dropUnused
  | foldSilent
  | dropSilentLoops
  | inlineSingles
  | dropRepeats
  | mergeTwins
deriving DecidableEq, Repr

/-- What a reduction does to a grammar. -/
def Reduction.apply : Reduction → Grammar → Except Failure Change
  | dropUnused, g => g.dropUnused
  | foldSilent, g => g.foldSilent
  | dropSilentLoops, g => .ok g.dropSilentLoops
  | inlineSingles, g => g.inlineSingles
  | dropRepeats, g => .ok g.dropRepeats
  | mergeTwins, g => g.mergeTwins

/-- How many passes were made, and how many changes by each reduction. -/
@[ext]
structure Statistics where
  passes : Nat
  unusedRules : Nat
  silentAlternatives : Nat
  silentLoops : Nat
  inlinedRules : Nat
  repeatedAlternatives : Nat
  mergedRules : Nat
deriving DecidableEq, Repr

namespace Statistics

/-- Before anything has been done. -/
def zero : Statistics := ⟨0, 0, 0, 0, 0, 0, 0⟩

/-- What has been done by two runs together. -/
def add (s t : Statistics) : Statistics where
  passes := s.passes + t.passes
  unusedRules := s.unusedRules + t.unusedRules
  silentAlternatives := s.silentAlternatives + t.silentAlternatives
  silentLoops := s.silentLoops + t.silentLoops
  inlinedRules := s.inlinedRules + t.inlinedRules
  repeatedAlternatives := s.repeatedAlternatives + t.repeatedAlternatives
  mergedRules := s.mergedRules + t.mergedRules

/-- The number of all changes; passes are none. -/
def totalChanges (s : Statistics) : Nat :=
  s.unusedRules + s.silentAlternatives + s.silentLoops + s.inlinedRules +
    s.repeatedAlternatives + s.mergedRules

end Statistics

namespace Grammar

/-- Applies each reduction once. -/
def pass (g : Grammar) : Except Failure (Grammar × Statistics) := do
  let unused ← g.dropUnused
  let silent ← unused.grammar.foldSilent
  let loops := silent.grammar.dropSilentLoops
  let singles ← loops.grammar.inlineSingles
  let repeats := singles.grammar.dropRepeats
  let twins ← repeats.grammar.mergeTwins
  return (twins.grammar,
    ⟨1, unused.count, silent.count, loops.count, singles.count, repeats.count, twins.count⟩)

/-- Makes passes, at most `n`, until one makes no change. -/
def passes : Nat → Grammar → Statistics → Except Failure (Grammar × Statistics)
  | 0, g, stats => .ok (g, stats)
  | n + 1, g, stats =>
    g.pass.bind fun next =>
      if next.2.totalChanges = 0 then .ok (next.1, stats.add next.2)
      else passes n next.1 (stats.add next.2)

/-- More passes than a grammar of this size can need. -/
def passBound (g : Grammar) : Nat :=
  let size := g.numRules + g.numAlternatives + 2
  size * size

/-- Applies the reductions until none of them changes anything. -/
def simplify (g : Grammar) : Except Failure (Grammar × Statistics) :=
  passes g.passBound g .zero

end Grammar

end ScenarioFsp
