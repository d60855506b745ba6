import ScenarioFsp.Grammar.Usage

/-!
# Equal alternatives and equal rules

Of several equal alternatives of a rule the first is kept. Two rules are twins
if they have the same alternatives once each writes `<self>` for its own symbol;
order and repeats do not matter. Of a group of twins one survives, `Init` if it
is among them and else the first, and the others are renamed to it.
-/

namespace ScenarioFsp

namespace Grammar

/-- Drops repeated alternatives, and counts them. -/
def dropRepeats (g : Grammar) : Change :=
  let kept := g.mapAlternatives distinct
  ⟨kept, g.numAlternatives - kept.numAlternatives⟩

/-! ## Twins -/

/-- What a rule writes for its own symbol when it is compared. -/
def selfReference : Symbol := "<self>"

/-- The alternatives of a rule without its name: what follows the start, in order and once. -/
def shape (r : Rule) : List (List Symbol) :=
  (OrderedSet.ofList (r.alternatives.map fun p =>
    p.tail.map fun s => if s = r.symbol then selfReference else s)).toList

/-- The symbols of the rules of each shape, in the order of the shapes. -/
def twinGroups (g : Grammar) : List (List Symbol) :=
  let shaped := g.ruleList.map fun r => (shape r, r.symbol)
  (OrderedSet.ofList (shaped.map Prod.fst)).toList.map fun key =>
    (shaped.filter fun p => decide (p.1 = key)).map Prod.snd

/-- The member of a group that stands for the others. -/
def survivor (group : List Symbol) : Symbol :=
  if start ∈ group then start else group.headD start

/-- The renamings of a group, unless it has a single member. -/
def renamings (group : List Symbol) : List (Symbol × Symbol) :=
  if group.length ≤ 1 then []
  else (group.filter fun s => decide (s ≠ survivor group)).map fun s => (s, survivor group)

/-- Which symbol stands for which; where groups disagree, the last one decides. -/
def twinNames (g : Grammar) : OrderedMap Symbol Symbol :=
  (g.twinGroups.flatMap renamings).foldl (fun m p => m.insert p.1 p.2) .empty

/-- A production that ends in a renamed symbol ends in the new one. -/
def renameEnd (names : OrderedMap Symbol Symbol) (p : Production) : Production :=
  match p.last?.bind names.get? with
  | some symbol => p.endingAt symbol
  | none => p

/-- The grammar with the renamed rules dropped and the ends renamed. -/
def renamed (g : Grammar) (names : OrderedMap Symbol Symbol) : Grammar :=
  (g.keepRules fun key => !names.hasKey key).mapAlternatives fun ps => ps.map (renameEnd names)

/-- Merges twins, and counts the rules that were renamed. -/
def mergeTwins (g : Grammar) : Except Failure Change :=
  (Production.needSymbols .noTail g.alternatives).map fun _ =>
    ⟨g.renamed g.twinNames, g.twinNames.size⟩

end Grammar

end ScenarioFsp
