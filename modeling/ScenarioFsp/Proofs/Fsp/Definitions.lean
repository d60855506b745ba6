import Mathlib.Data.List.Nodup
import ScenarioFsp.Fsp.Process
import ScenarioFsp.Proofs.Grammar.Counts
import ScenarioFsp.Proofs.Synthesis

/-!
# What a component's process defines

The text of a process is a heading, definitions, and the hiding of `_tau` where that
is needed (`Process.render_eq`). Every rule is one definition, `Init` comes first and
the others follow in order; the clause for `Final` is one more, shared by all runs
that end there. A choice names at its end the process to go on with. In the process
of a well-formed grammar every name that is gone on with is defined, and none is
defined twice.
-/

namespace ScenarioFsp

namespace Fsp

/-! ## The text of a process, taken apart -/

/-- A name, and what stands for it. -/
structure Definition where
  name : Symbol
  body : String
deriving DecidableEq, Repr

namespace Definition

/-- A definition as it is written. -/
def render (d : Definition) : String := d.name ++ " = " ++ d.body

/-- The definition of a local process; without choices it stops. -/
def ofLocal (l : LocalProcess) : Definition :=
  ⟨l.name, if l.choices.isEmpty then "STOP"
    else "(" ++ " | ".intercalate (l.choices.map LocalProcess.renderChoice) ++ ")"⟩

/-- What runs that end in `Final` share. -/
def sharedFinal : Definition := ⟨Symbol.final, "(_tau->STOP)"⟩

end Definition

/-- What is written behind the definitions. -/
def Closing.hiding : Closing → String
  | sharedFinal => hideTau
  | hidden => hideTau
  | plain => ""

namespace Process

/-- What is written in front of the definitions. -/
def heading (p : Process) : String :=
  (if p.deterministic then "deterministic " else "") ++ s!"minimal {p.name} = {Grammar.start}"

/-- The definitions in the order of the text. -/
def definitions (p : Process) : List Definition :=
  p.locals.map Definition.ofLocal ++
    if p.closing = .sharedFinal then [Definition.sharedFinal] else []

/-- The names that the text defines. -/
def names (p : Process) : List Symbol := p.definitions.map Definition.name

end Process

theorem LocalProcess.render_eq (l : LocalProcess) : l.render = (Definition.ofLocal l).render := by
  obtain ⟨name, choices⟩ := l
  cases choices with
  | nil =>
      show name ++ " = STOP" = name ++ " = " ++ "STOP"
      rw [String.append_assoc]
      rfl
  | cons choice choices =>
      show name ++ " = (" ++ _ ++ ")" = name ++ " = " ++ ("(" ++ _ ++ ")")
      have hopen : " = (" = " = " ++ "(" := rfl
      simp only [hopen, String.append_assoc]

/-- The shared clause is one more definition, and the hiding stands behind all of them. -/
theorem Closing.render_eq (c : Closing) :
    c.render ++ "\n" =
      String.join ((if c = .sharedFinal then [Definition.sharedFinal] else []).map fun d =>
        ",\n" ++ d.render) ++ (c.hiding ++ ".\n\n") := by
  cases c <;> rfl

theorem join_eq_intercalate (separator first : String) (rest : List String) :
    first ++ String.join (rest.map fun s => separator ++ s) =
      separator.intercalate (first :: rest) := by
  induction rest generalizing first with
  | nil => rw [List.map_nil, String.join_nil, String.append_empty, String.intercalate_singleton]
  | cons second rest ih =>
      rw [String.intercalate_cons_cons, ← ih, List.map_cons, String.join_cons]
      simp only [String.append_assoc]

/-- **The text of a process**: the heading and the definitions, one behind the other, and the
hiding. -/
theorem Process.render_eq (p : Process) :
    p.render = ",\n".intercalate (p.heading :: p.definitions.map Definition.render) ++
      p.closing.hiding ++ ".\n\n" := by
  have hlocals : p.locals.map (fun l => ",\n" ++ l.render) =
      p.locals.map ((fun d => ",\n" ++ d.render) ∘ Definition.ofLocal) :=
    List.map_congr_left fun l _ => congrArg _ l.render_eq
  have hopen : p.render = p.heading ++ String.join (p.locals.map fun l => ",\n" ++ l.render) ++
      (p.closing.render ++ "\n") := String.append_assoc
  rw [hopen, hlocals, p.closing.render_eq, ← join_eq_intercalate, List.map_map]
  unfold definitions
  rw [List.map_append, String.join_append, List.map_map]
  simp only [String.append_assoc]
  rfl

end Fsp

/-! ## Rules in their order -/

namespace Grammar

variable {g : Grammar}

theorem Sound.map_symbol_ruleList (hg : g.Sound) : g.ruleList.map Rule.symbol = g.symbols := by
  unfold ruleList symbols OrderedMap.values OrderedMap.keys
  rw [List.map_map]
  exact List.map_congr_left fun entry hmem => hg.keyed entry.1 entry.2 (mem_entries_iff.mp hmem)

theorem Sound.sorted_ruleList (hg : g.Sound) :
    g.ruleList.Pairwise fun r r' => Ordered.before r.symbol r'.symbol = true := by
  have hsorted : (g.ruleList.map Rule.symbol).Pairwise fun a b => Ordered.before a b = true := by
    rw [hg.map_symbol_ruleList]
    exact g.rules.keys_sorted
  exact List.pairwise_map.mp hsorted

theorem Sound.nodup_ruleList (hg : g.Sound) : g.ruleList.Nodup := by
  have hnodup := g.nodup_symbols
  rw [← hg.map_symbol_ruleList] at hnodup
  exact hnodup.of_map _

end Grammar

namespace Fsp

variable {g : Grammar}

/-- `Init` first, the others as they are stored, and none of them twice. -/
theorem exists_orderedRules (hg : g.Sound) (hstart : g.hasRule Grammar.start = true) :
    ∃ first rest, Process.orderedRules g = first :: rest ∧ first.symbol = Grammar.start ∧
      rest.Sublist g.ruleList ∧ (first :: rest).Perm g.ruleList := by
  obtain ⟨first, hfirst⟩ := Grammar.hasRule_iff.mp hstart
  have hsymbol := hg.keyed _ _ hfirst
  refine ⟨first, g.ruleList.filter fun r => decide (r.symbol ≠ Grammar.start), ?_, hsymbol,
    List.filter_sublist, ?_⟩
  · unfold Process.orderedRules
    rw [hfirst]
    rfl
  · refine (List.perm_ext_iff_of_nodup ?_ hg.nodup_ruleList).mpr fun r => ?_
    · refine List.nodup_cons.mpr ⟨?_, hg.nodup_ruleList.filter _⟩
      simp [hsymbol]
    · rw [List.mem_cons, List.mem_filter, decide_eq_true_eq]
      refine ⟨fun h => ?_, fun h => ?_⟩
      · rcases h with rfl | ⟨hmem, -⟩
        · exact Grammar.mem_ruleList_iff.mpr ⟨_, hfirst⟩
        · exact hmem
      · by_cases hr : r.symbol = Grammar.start
        · have hrule := hg.mem_ruleList_iff.mp h
          rw [hr, hfirst] at hrule
          exact Or.inl (Option.some.inj hrule).symm
        · exact Or.inr ⟨h, hr⟩

/-! ## Names -/

theorem names_ofGrammar (g : Grammar) (deterministic : Bool) (name : String) :
    (Process.ofGrammar deterministic name g).names =
      (Process.orderedRules g).map Rule.symbol ++
        if Process.closingOf g = .sharedFinal then [Symbol.final] else [] := by
  unfold Process.names Process.definitions Process.ofGrammar
  rw [List.map_append, List.map_map, List.map_map]
  congr 1
  split <;> rfl

theorem closingOf_eq_sharedFinal_iff :
    Process.closingOf g = .sharedFinal ↔
      g.hasRule Symbol.final = false ∧ ∃ p ∈ g.alternatives, p.last? = some Symbol.final := by
  have hneeds : Process.closingOf g = .sharedFinal ↔ Process.needsFinal g = true := by
    unfold Process.closingOf
    cases Process.needsFinal g <;> cases Process.performsTau g <;> simp
  rw [hneeds]
  simp [Process.needsFinal]

/-- Defined are the symbols of the rules, and `Final` if its clause is shared. -/
theorem mem_names_iff (hg : g.Sound) (hstart : g.hasRule Grammar.start = true)
    (deterministic : Bool) (name : String) {s : Symbol} :
    s ∈ (Process.ofGrammar deterministic name g).names ↔
      g.hasRule s = true ∨ (Process.closingOf g = .sharedFinal ∧ s = Symbol.final) := by
  obtain ⟨first, rest, hordered, -, -, hperm⟩ := exists_orderedRules hg hstart
  rw [names_ofGrammar, hordered, List.mem_append, (hperm.map Rule.symbol).mem_iff,
    hg.map_symbol_ruleList, Grammar.mem_symbols_iff]
  refine or_congr_right ?_
  split
  · rename_i hshared
    rw [List.mem_singleton, and_iff_right hshared]
  · rename_i hshared
    simp [hshared]

theorem nodup_names (hg : g.Sound) (hstart : g.hasRule Grammar.start = true)
    (deterministic : Bool) (name : String) :
    (Process.ofGrammar deterministic name g).names.Nodup := by
  obtain ⟨first, rest, hordered, -, -, hperm⟩ := exists_orderedRules hg hstart
  have hrules : ((first :: rest).map Rule.symbol).Perm g.symbols := by
    rw [← hg.map_symbol_ruleList]
    exact hperm.map Rule.symbol
  rw [names_ofGrammar, hordered]
  split
  · rename_i hshared
    -- the clause is shared only if no rule is called `Final`
    have hnone := (closingOf_eq_sharedFinal_iff.mp hshared).1
    refine List.nodup_append.mpr ⟨hrules.nodup_iff.mpr g.nodup_symbols, List.nodup_singleton _, ?_⟩
    rintro s hs s' hs' rfl
    rw [List.mem_singleton.mp hs'] at hs
    rw [Grammar.mem_symbols_iff.mp (hrules.mem_iff.mp hs)] at hnone
    exact absurd hnone (by simp)
  · rw [List.append_nil]
    exact hrules.nodup_iff.mpr g.nodup_symbols

/-- Where an alternative of a well-formed grammar ends, a definition goes on. -/
theorem end_mem_names (hg : g.WellFormed) (deterministic : Bool) (name : String)
    {p : Production} (hp : p ∈ g.alternatives) :
    ∃ e, p.tail = p.actions ++ [e] ∧ e ∈ (Process.ofGrammar deterministic name g).names := by
  obtain ⟨e, hl, hend⟩ := hg.ends p hp
  have htail := Production.tail_ne_nil_of_actions (hg.acts p hp)
  have hlast := hl
  rw [Production.last?_eq_getLast?_tail htail] at hlast
  refine ⟨e, (List.dropLast_append_getLast? e hlast).symm, ?_⟩
  rw [mem_names_iff hg.sound hg.start deterministic name]
  cases hrule : g.hasRule e with
  | true => exact Or.inl rfl
  | false =>
      rw [hrule] at hend
      obtain rfl := hend.resolve_left (by simp)
      exact Or.inr ⟨closingOf_eq_sharedFinal_iff.mpr ⟨hrule, p, hp, hl⟩, rfl⟩

/-- Where `_tau` is performed it is hidden. -/
theorem hiding_of_performs {p : Production} (hp : p ∈ g.alternatives)
    (ht : Symbol.tau ∈ p.actions) : (Process.closingOf g).hiding = hideTau := by
  have htau : Process.performsTau g = true := by
    simp only [Process.performsTau, List.any_eq_true, decide_eq_true_eq]
    exact ⟨p, hp, _, ht, rfl⟩
  unfold Process.closingOf
  rw [htau]
  cases Process.needsFinal g <;> rfl

/-- **Writing the text of a sound grammar never fails.** -/
theorem renderComponent_eq_ok (hg : g.Sound) (deterministic : Bool) (name : String) :
    renderComponent deterministic name g = .ok (Process.ofGrammar deterministic name g).render := by
  have hprinted : ∀ p ∈ (Process.orderedRules g).flatMap Rule.alternatives,
      ∃ s, p ∈ g.alternativesOf s := by
    intro p hp
    obtain ⟨r, hr, hpr⟩ := List.mem_flatMap.mp hp
    have hrule : r ∈ g.ruleList := by
      rcases List.mem_append.mp hr with hfirst | hrest
      · exact Grammar.mem_ruleList_iff.mpr ⟨_, Option.mem_toList.mp hfirst⟩
      · exact List.mem_of_mem_filter hrest
    exact Grammar.mem_alternatives_iff.mp (List.mem_flatMap.mpr ⟨r, hrule, hpr⟩)
  have hsearched : ∀ p ∈ searchedForFinal g, ∃ s, p ∈ g.alternativesOf s := by
    intro p hp
    refine Grammar.mem_alternatives_iff.mp ?_
    unfold searchedForFinal at hp
    split at hp
    · exact absurd hp List.not_mem_nil
    · exact (List.takeWhile_sublist _).subset hp
  unfold renderComponent
  rw [hg.needSymbols_eq_ok hprinted, hg.needSymbols_eq_ok hsearched]
  rfl

/-! ## The process of a synthesised component -/

/-- What the process `p` says of the grammar `g`: each of its rules once, and nothing that it does
not also define. -/
structure Process.Covers (p : Process) (g : Grammar) : Prop where
  /-- `Init` is defined first, the others follow in order, and the shared clause comes last. -/
  rules : ∃ first rest, first.symbol = Grammar.start ∧
    (rest.Pairwise fun r r' => Ordered.before r.symbol r'.symbol = true) ∧
    (first :: rest).Perm g.ruleList ∧
    p.definitions = (first :: rest).map (fun r => .ofLocal (.ofRule r)) ++
      if p.closing = .sharedFinal then [.sharedFinal] else []
  names : p.names.Nodup
  /-- The last symbol of a choice is defined exactly once. -/
  ends : ∀ q ∈ g.alternatives, ∃ e, q.tail = q.actions ++ [e] ∧ p.names.count e = 1
  shared : p.closing = .sharedFinal ↔
    g.hasRule Symbol.final = false ∧ ∃ q ∈ g.alternatives, q.last? = some Symbol.final
  hidden : ∀ q ∈ g.alternatives, Symbol.tau ∈ q.actions → p.closing.hiding = hideTau

theorem covers_ofGrammar (hg : g.WellFormed) (deterministic : Bool) (name : String) :
    (Process.ofGrammar deterministic name g).Covers g := by
  have hnodup := nodup_names hg.sound hg.start deterministic name
  refine ⟨?_, hnodup, fun q hq => ?_, closingOf_eq_sharedFinal_iff, fun q => hiding_of_performs⟩
  · obtain ⟨first, rest, hordered, hfirst, hrest, hperm⟩ := exists_orderedRules hg.sound hg.start
    refine ⟨first, rest, hfirst, hg.sound.sorted_ruleList.sublist hrest, hperm, ?_⟩
    unfold Process.definitions Process.ofGrammar
    rw [hordered, List.map_map]
    rfl
  · obtain ⟨e, htail, hmem⟩ := end_mem_names hg deterministic name hq
    exact ⟨e, htail, List.count_eq_one_of_mem hnodup hmem⟩

end Fsp

/-- The process that is written for a component. -/
def SynthesisedComponent.process (c : SynthesisedComponent) (deterministic : Bool) : Fsp.Process :=
  .ofGrammar deterministic c.name c.grammar

namespace Specification

/--
**Every name in the text of a synthesised component is defined exactly once.** The
text consists of the heading, the definitions and the hiding. Each rule of the grammar
is one definition, `Init` first and the others in order. The symbol in which a printed
alternative ends is defined once. The clause for `Final` is there exactly if some
alternative ends in `Final` and no rule takes over, and `_tau` is hidden wherever it
is performed.
-/
theorem renderComponent_defines_once {spec : Specification} {common : Relation}
    {id : ComponentId} {c : SynthesisedComponent} (h : spec.synthesiseComponent common id = .ok c)
    (deterministic : Bool) :
    Fsp.renderComponent deterministic c.name c.grammar =
        .ok (",\n".intercalate ((c.process deterministic).heading ::
            (c.process deterministic).definitions.map Fsp.Definition.render) ++
          (c.process deterministic).closing.hiding ++ ".\n\n") ∧
      (c.process deterministic).Covers c.grammar := by
  obtain ⟨-, -, -, hgood⟩ := steps_of_synthesiseComponent h
  refine ⟨?_, Fsp.covers_ofGrammar hgood deterministic c.name⟩
  rw [Fsp.renderComponent_eq_ok hgood.sound, Fsp.Process.render_eq]
  rfl

theorem renderComponent_defines_once_session :
    ∃ c, session.synthesiseComponent (.ofPairs session.commonPairs) ⟨1⟩ = .ok c ∧
      (c.process true).names = ["Init", "E_Work"] ∧ (c.process true).closing = .hidden ∧
      (c.process true).Covers c.grammar ∧
      Fsp.renderComponent true c.name c.grammar =
        .ok ("deterministic minimal Server = Init,\nInit = (login -> _tau -> get -> E_Work)," ++
          "\nE_Work = STOP\\\x7b_tau\x7d.\n\n") := by
  have hsome : ((session.synthesiseComponent (.ofPairs session.commonPairs) ⟨1⟩).map fun c =>
      c.process true) = .ok ⟨true, "Server", [⟨"Init", [["login", "_tau", "get", "E_Work"]]⟩,
        ⟨"E_Work", []⟩], .hidden⟩ := by decide +kernel
  cases hc : session.synthesiseComponent (.ofPairs session.commonPairs) ⟨1⟩ with
  | error e =>
      rw [hc] at hsome
      exact absurd hsome (by simp [Except.map])
  | ok c =>
      rw [hc] at hsome
      have hprocess : c.process true = _ := Except.ok.inj hsome
      obtain ⟨htext, hcovers⟩ := renderComponent_defines_once hc true
      refine ⟨c, rfl, ?_, ?_, hcovers, ?_⟩
      · rw [hprocess]
        rfl
      · rw [hprocess]
      · rw [htext, hprocess]
        rfl

end Specification

end ScenarioFsp
