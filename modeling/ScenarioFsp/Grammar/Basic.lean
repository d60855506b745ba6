import ScenarioFsp.Grammar.Rule
import ScenarioFsp.OrderedMap

/-!
# Grammars

The grammar of a component is rooted at `Init`. Its rules are kept in the order
of the keys under which they are stored. In a sound grammar a rule is stored
under its own symbol and its alternatives start with it; `check` says so. A
grammar made by `ofRules` is sound, and every symbol in which an alternative
ends has a rule, `Final` aside: there a component has ended.
-/

namespace ScenarioFsp

/-- Rules by the symbol under which they are stored. -/
@[ext]
structure Grammar where
  rules : OrderedMap Symbol Rule
deriving DecidableEq

namespace Grammar

/-! ## Reading a grammar -/

/-- Where every run starts. -/
def start : Symbol := Symbol.init

/-- The rule stored under `symbol`. -/
def rule? (g : Grammar) (symbol : Symbol) : Option Rule := g.rules.get? symbol

/-- Whether a rule is stored under `symbol`. -/
def hasRule (g : Grammar) (symbol : Symbol) : Bool := g.rules.hasKey symbol

/-- The keys under which rules are stored, in order. -/
def symbols (g : Grammar) : List Symbol := g.rules.keys

/-- The rules in the order of their keys. -/
def ruleList (g : Grammar) : List Rule := g.rules.values

/-- The alternatives of all rules, rule by rule. -/
def alternatives (g : Grammar) : List Production := g.ruleList.flatMap Rule.alternatives

/-- The alternatives of the rule stored under `symbol`. -/
def alternativesOf (g : Grammar) (symbol : Symbol) : List Production :=
  ((g.rule? symbol).map Rule.alternatives).getD []

/-- The number of rules. -/
def numRules (g : Grammar) : Nat := g.rules.size

/-- The number of alternatives of all rules. -/
def numAlternatives (g : Grammar) : Nat := g.alternatives.length

/-! ## Changing a grammar -/

/-- Changes every rule, knowing its key. -/
def mapRules (f : Symbol → Rule → Rule) (g : Grammar) : Grammar := ⟨g.rules.mapValues f⟩

/-- Changes the alternatives of every rule. -/
def mapAlternatives (f : List Production → List Production) (g : Grammar) : Grammar :=
  g.mapRules fun _ r => { r with alternatives := f r.alternatives }

/-- Keeps the rules whose key passes. -/
def keepRules (keep : Symbol → Bool) (g : Grammar) : Grammar :=
  ⟨g.rules.filter fun key _ => keep key⟩

/-- Stores a rule under a key, whatever they are. -/
def store (g : Grammar) (key : Symbol) (r : Rule) : Grammar := ⟨g.rules.insert key r⟩

/-- Adds an alternative, whatever it is, to the rule stored under a key. -/
def appendAlternative (g : Grammar) (key : Symbol) (p : Production) : Grammar :=
  match g.rule? key with
  | some r => g.store key { r with alternatives := r.alternatives ++ [p] }
  | none => g

/-! ## Building a grammar -/

/-- The grammar with one more rule: a new rule has to be well placed, a known one grows. -/
def addRule (g : Grammar) (r : Rule) : Except Failure Grammar :=
  match g.rule? r.symbol with
  | none => r.check.map fun _ => g.store r.symbol r
  | some known => (known.addAll r.alternatives).map fun known => g.store r.symbol known

/-- Adds rules one after the other. -/
def addRules (g : Grammar) : List Rule → Except Failure Grammar
  | [] => .ok g
  | r :: rs => g.addRule r >>= fun g => addRules g rs

/-- The symbols that need a rule and have none. -/
def undefinedSymbols (g : Grammar) : OrderedSet Symbol :=
  (OrderedSet.ofList (start :: g.alternatives.filterMap Production.last?)).filter fun symbol =>
    decide (symbol ≠ Symbol.final) && !g.hasRule symbol

/-- The grammar with an empty rule for every symbol that needs one. -/
def complete (g : Grammar) : Grammar :=
  g.undefinedSymbols.toList.foldl (fun g symbol => g.store symbol (Rule.none symbol)) g

/-- The complete grammar of the given rules. -/
def ofRules (rules : List Rule) : Except Failure Grammar :=
  (addRules ⟨.empty⟩ rules).map complete

/-! ## Soundness -/

/-- Stops at the first rule that is not stored under its symbol or not well placed. -/
def check (g : Grammar) : Except Failure Unit :=
  g.rules.entries.forM fun entry =>
    if entry.1 = entry.2.symbol then entry.2.check
    else .error (.misplacedRule entry.2.symbol entry.1)

end Grammar

end ScenarioFsp
