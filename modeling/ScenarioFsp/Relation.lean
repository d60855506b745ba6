import ScenarioFsp.OrderedSet
import ScenarioFsp.Reachability
import ScenarioFsp.Symbol

/-!
# Relations between symbols

A relation says at which points a production may start: `a` related to `b` means
that what starts at `a` may also start at `b`. Relations are finite and may be
cyclic. The closure relates a symbol to all that it reaches in one step or more,
so to itself only if it lies on a cycle.
-/

namespace ScenarioFsp

/-- A finite binary relation between symbols. -/
@[ext]
structure Relation where
  pairs : OrderedSet (Symbol × Symbol)
deriving DecidableEq

namespace Relation

/-- Nothing is related. -/
def empty : Relation := ⟨.empty⟩

/-- The relation of some pairs, in any order and with repetitions. -/
def ofPairs (l : List (Symbol × Symbol)) : Relation := ⟨.ofList l⟩

/-- Whether `a` is related to `b`. -/
def contains (r : Relation) (a b : Symbol) : Bool := decide ((a, b) ∈ r.pairs)

/-- Relates `a` to `b` as well. -/
def add (r : Relation) (a b : Symbol) : Relation := ⟨r.pairs.insert (a, b)⟩

/-- What one of two relations relates. -/
def union (r s : Relation) : Relation := ⟨r.pairs.union s.pairs⟩

/-- The number of pairs. -/
def size (r : Relation) : Nat := r.pairs.size

/-- The symbols that `a` is related to, in order. -/
def image (r : Relation) (a : Symbol) : List Symbol :=
  (r.pairs.toList.filter fun p => decide (p.1 = a)).map Prod.snd

/-- The symbols that are related to something. -/
def sources (r : Relation) : OrderedSet Symbol := .ofList (r.pairs.toList.map Prod.fst)

/-- The symbols that something is related to. -/
def targets (r : Relation) : OrderedSet Symbol := .ofList (r.pairs.toList.map Prod.snd)

/-- All that `a` reaches in one step or more. -/
def reached (r : Relation) (a : Symbol) : List Symbol :=
  reachable r.image r.targets.toList (r.image a)

/-- The transitive closure. -/
def closure (r : Relation) : Relation :=
  ofPairs (r.sources.toList.flatMap fun a => (r.reached a).map fun b => (a, b))

end Relation

end ScenarioFsp
