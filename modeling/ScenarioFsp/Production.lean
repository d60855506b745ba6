import ScenarioFsp.Order
import ScenarioFsp.Symbol
import ScenarioFsp.Failure

/-!
# Productions

A production is flat: a start symbol, actions, and an end symbol at which some
rule goes on. It is kept as the plain list of these symbols. A production of one
symbol starts and ends there without an action. One without any symbol is no
production of a grammar, but joining two productions of one symbol makes it;
whoever then asks for its start, its end or its tail gets a `Fault`.
-/

namespace ScenarioFsp

/-- A start symbol, actions, and an end symbol. -/
@[ext]
structure Production where
  symbols : List Symbol
deriving DecidableEq, Repr

namespace Production

/-- Productions are ordered as lists of symbols. -/
instance : Ordered Production :=
  Ordered.byKey symbols fun {_ _} h => Production.ext h

/-- The production made of the given symbols, of which there is at least one. -/
def ofSymbols (symbols : List Symbol) : Except Failure Production :=
  if symbols.isEmpty then .error (.fault .noStartSymbol) else .ok ⟨symbols⟩

/-! ## Parts -/

/-- The symbol that the production starts from. -/
def first? (p : Production) : Option Symbol := p.symbols.head?

/-- The symbol that the production ends in. -/
def last? (p : Production) : Option Symbol := p.symbols.getLast?

/-- The actions followed by the end symbol. -/
def tail (p : Production) : List Symbol := p.symbols.tail

/-- What stands between the start and the end. -/
def actions (p : Production) : List Symbol := p.tail.dropLast

/-- Whether the production has actions and none of them can be observed. -/
def isSilent (p : Production) : Bool :=
  !p.actions.isEmpty && p.actions.all fun a => decide (a = Symbol.tau)

/-- The actions that can be observed. -/
def visible (p : Production) : List Symbol :=
  p.actions.filter fun a => decide (a ≠ Symbol.tau)

/-- Whether the production has no symbols at all, not even a start. -/
def isEmpty (p : Production) : Bool := p.symbols.isEmpty

/-- The symbols with arrows between them. -/
def render (p : Production) : String := " -> ".intercalate p.symbols

/-! ## Changes -/

/-- The production with one more symbol at its end. -/
def push (p : Production) (symbol : Symbol) : Production := ⟨p.symbols ++ [symbol]⟩

/-- The same production from another start. -/
def startingAt (symbol : Symbol) (p : Production) : Production := ⟨symbol :: p.tail⟩

/-- The same production to another end. -/
def endingAt (symbol : Symbol) (p : Production) : Production := ⟨p.symbols.dropLast ++ [symbol]⟩

/-- Goes on with `q` where `p` ends. -/
def splice (p q : Production) : Production := ⟨p.symbols.dropLast ++ q.tail⟩

/-! ## Parts that a production without symbols does not have -/

/-- The symbol that the production starts from; it is a fault if there is none. -/
def first (p : Production) : Except Failure Symbol :=
  match p.first? with
  | some symbol => .ok symbol
  | none => .error (.fault .noFirst)

/-- The symbol that the production ends in; it is a fault if there is none. -/
def last (p : Production) : Except Failure Symbol :=
  match p.last? with
  | some symbol => .ok symbol
  | none => .error (.fault .noLast)

/-- Stops with `fault` if there is a production without symbols among `ps`. -/
def needSymbols (fault : Fault) (ps : List Production) : Except Failure Unit :=
  if ps.any isEmpty then .error (.fault fault) else .ok ()

end Production

end ScenarioFsp
