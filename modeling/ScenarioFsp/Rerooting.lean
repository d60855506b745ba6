import ScenarioFsp.OrderedSet
import ScenarioFsp.Production
import ScenarioFsp.Relation

/-!
# Re-rooting

A production is copied to every point at which the relation lets it start. One
whose start is related to nothing stays as it is.
-/

namespace ScenarioFsp

/-- The copies of a production. -/
def Production.copies (relation : Relation) (p : Production) : List Production :=
  match (p.first?.map relation.image).getD [] with
  | [] => [p]
  | points => points.map fun point => p.startingAt point

/-- The copies of all productions. -/
def reroot (relation : Relation) (ps : OrderedSet Production) : OrderedSet Production :=
  .ofList (ps.toList.flatMap fun p => p.copies relation)

end ScenarioFsp
