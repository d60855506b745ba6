import ScenarioFsp.Event

/-!
# Scenario documents

A document is a sequence of items: declarations of components, scenarios with a
lifeline block per component, and flow blocks with the arrows of the flow graph.
Names carry the place where they stand, because problems are blamed on places.
-/

namespace ScenarioFsp

/-- The bytes of a text from `start` up to and without `stop`. -/
structure Span where
  start : Nat
  stop : Nat
deriving DecidableEq, Repr

namespace Document

/-- A word of the document with its place. -/
structure Name where
  text : String
  span : Span
deriving DecidableEq, Repr

/-- One name or more, separated by commas. -/
structure NameList where
  first : Name
  more : List Name
deriving DecidableEq, Repr

/-- All names, in the order of the text. -/
def NameList.toList (names : NameList) : List Name := names.first :: names.more

/-- What a component does in the scenario around the block. -/
structure LifelineBlock where
  component : Name
  events : Lifeline
deriving DecidableEq, Repr

/-- A scenario by its name, with a block for each component that takes part. -/
structure ScenarioBlock where
  name : Name
  lifelines : List LifelineBlock
deriving DecidableEq, Repr

/-- Arrows of the flow graph that leave the same node. -/
structure Arrows where
  source : Name
  targets : NameList
deriving DecidableEq, Repr

/-- The three kinds of blocks that a document is made of. -/
inductive Item where
  | components (names : NameList)
  | scenario (block : ScenarioBlock)
  | flow (arrows : List Arrows)
deriving DecidableEq, Repr

end Document

/-- The items of a document in order. -/
structure Document where
  items : List Document.Item
deriving DecidableEq, Repr

end ScenarioFsp
