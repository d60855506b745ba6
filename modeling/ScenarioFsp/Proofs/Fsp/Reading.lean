import Mathlib.Data.List.DropRight
import ScenarioFsp.Proofs.Document.Grammar
import ScenarioFsp.Proofs.Fsp.Definitions

/-!
# Reading a process back

The text of a process is made for another tool, but it can be read back: the name, the
option and the grammar are all in it (`renderComponent_determines`). A word is made of
letters, digits, underscores and points, so that every other character tells words apart.
Most of them only make the text pleasant to read. Once these are left out, a single
character stands between two words, and the text can be split there.

Two things in the text are not part of the grammar: the clause for `Final` that is shared
by all runs, and the hiding of `_tau`. The hiding begins with the only backslash. The
clause is the one definition that is not written as the definitions of rules are: if it is
read as one and written again, another text comes out. A rule for `Final` that performs
`_tau` and goes on to `STOP` differs from it by two blanks.
-/

namespace ScenarioFsp

namespace Fsp

open Document (isLabelPart isSpelled)

/-! ## Joining and splitting -/

section Joining

variable {mark : Char} {separator : List Char} {ls : List (List Char)}

theorem mem_intercalate {ch : Char} (h : ch ∈ separator.intercalate ls) :
    ch ∈ separator ∨ ∃ l ∈ ls, ch ∈ l := by
  induction ls with
  | nil => exact absurd h (by simp)
  | cons l ls ih =>
      cases ls with
      | nil =>
          rw [List.intercalate_singleton] at h
          exact Or.inr ⟨l, List.mem_cons_self, h⟩
      | cons m ls =>
          rw [List.intercalate_cons_cons, List.mem_append, List.mem_append] at h
          rcases h with (hl | hseparator) | hmore
          · exact Or.inr ⟨l, List.mem_cons_self, hl⟩
          · exact Or.inl hseparator
          · refine (ih hmore).imp_right fun hm => ?_
            obtain ⟨l', hl', hch⟩ := hm
            exact ⟨l', List.mem_cons_of_mem _ hl', hch⟩

theorem filter_intercalate (keep : Char → Bool) (separator : List Char) (ls : List (List Char)) :
    (separator.intercalate ls).filter keep =
      (separator.filter keep).intercalate (ls.map (List.filter keep)) := by
  induction ls with
  | nil => rfl
  | cons l ls ih =>
      cases ls with
      | nil => simp
      | cons m ls =>
          simp only [List.map_cons] at ih ⊢
          rw [List.intercalate_cons_cons, List.filter_append, List.filter_append, ih,
            List.intercalate_cons_cons]

/-- What follows the mark in a separator goes to the next piece. -/
theorem intercalate_cons_mark (mark : Char) (more first : List Char) (rest : List (List Char)) :
    (mark :: more).intercalate (first :: rest) =
      [mark].intercalate (first :: rest.map fun l => more ++ l) := by
  induction rest generalizing first with
  | nil => simp
  | cons second rest ih =>
      rw [List.intercalate_cons_cons, ih, List.map_cons, List.intercalate_cons_cons]
      cases rest <;> simp

end Joining

/-! ## Words -/

/-- A word is made of letters, digits, underscores and points. -/
def isWord : String → Bool := isSpelled isLabelPart isLabelPart

section Words

variable {s : String} {ch : Char}

theorem forall_mem_of_isSpelled {isFirst isOther keep : Char → Bool}
    (hfirst : ∀ ch, isFirst ch = true → keep ch = true)
    (hother : ∀ ch, isOther ch = true → keep ch = true) (h : isSpelled isFirst isOther s = true) :
    ∀ ch ∈ s.toList, keep ch = true := by
  intro ch hch
  unfold isSpelled at h
  cases hs : s.toList with
  | nil =>
      rw [hs] at hch
      exact absurd hch List.not_mem_nil
  | cons first others =>
      rw [hs] at h hch
      simp only [Bool.and_eq_true, List.all_eq_true] at h
      rcases List.mem_cons.mp hch with rfl | hothers
      · exact hfirst ch h.1
      · exact hother ch (h.2 ch hothers)

theorem isWord_of_forall (hne : s.toList ≠ []) (h : ∀ ch ∈ s.toList, isLabelPart ch = true) :
    isWord s = true := by
  unfold isWord isSpelled
  cases hs : s.toList with
  | nil => exact absurd hs hne
  | cons first others =>
      rw [hs] at h
      obtain ⟨hfirst, hothers⟩ := List.forall_mem_cons.mp h
      simpa [hfirst] using hothers

theorem isLabelPart_of_isWord (h : isWord s = true) (hch : ch ∈ s.toList) :
    isLabelPart ch = true :=
  forall_mem_of_isSpelled (fun _ => id) (fun _ => id) h ch hch

theorem toList_ne_nil_of_isSpelled {isFirst isOther : Char → Bool}
    (h : isSpelled isFirst isOther s = true) : s.toList ≠ [] := by
  intro hnil
  unfold isSpelled at h
  rw [hnil] at h
  exact absurd h (by simp)

theorem toList_ne_nil_of_isWord (h : isWord s = true) : s.toList ≠ [] :=
  toList_ne_nil_of_isSpelled h

theorem not_mem_of_isWord (h : isWord s = true) (hch : isLabelPart ch = false) :
    ch ∉ s.toList := by
  intro hmem
  rw [isLabelPart_of_isWord h hmem] at hch
  exact absurd hch (by simp)

end Words

/-! ## The reader -/

/-- Whether a character is part of a word, or needed to tell words apart. -/
def isTelling (ch : Char) : Bool :=
  isLabelPart ch || decide (ch = '=' ∨ ch = '(' ∨ ch = '|' ∨ ch = '-')

/-- The symbols of a choice; blanks and the heads of arrows are gone by then. -/
def readChoice (choice : List Char) : List Symbol :=
  if choice.isEmpty then [] else (choice.splitOn '-').map String.ofList

/-- The choices within parentheses; without them there are none. -/
def readChoices : List Char → List (List Symbol)
  | '(' :: choices => (choices.splitOn '|').map readChoice
  | _ => []

namespace LocalProcess

/-- The local process of which a text is the definition, if it is one of a local process. -/
def guess (text : List Char) : LocalProcess :=
  match (text.filter isTelling).splitOn '=' with
  | [name, body] => ⟨String.ofList name, readChoices body⟩
  | _ => ⟨"", []⟩

/-- The local process that is written as the text. -/
def read? (text : List Char) : Option LocalProcess :=
  if (guess text).render.toList = text then some (guess text) else none

/-- The rule that a local process is written for. -/
def rule (l : LocalProcess) : Rule := ⟨l.name, l.choices.map fun tail => ⟨l.name :: tail⟩⟩

end LocalProcess

/-- The option and the name in front of the definitions. -/
def readHeading (heading : List Char) : Option (Bool × String) :=
  match heading.splitOn ' ' with
  | [_, name, _, _] => some (false, String.ofList name)
  | [_, _, name, _, _] => some (true, String.ofList name)
  | _ => none

/-- The text of a process without its end, and without the hiding if there is any. -/
def stated (text : String) : List Char :=
  (text.toList.rdrop 3).takeWhile fun ch => decide (ch ≠ '\\')

/-- The option, the name and the grammar of a process. A line end stands in front of every
definition. -/
def readComponent (text : String) : Option (Bool × String × Grammar) :=
  match (stated text).splitOn ',' with
  | [] => none
  | heading :: definitions =>
    let rules := definitions.filterMap fun d => (LocalProcess.read? d.tail).map LocalProcess.rule
    (readHeading heading).bind fun (deterministic, name) =>
      (Grammar.addRules ⟨.empty⟩ rules).toOption.map fun g => (deterministic, name, g)

/-! ## Local processes -/

/-- The name and the symbols are words. -/
structure LocalProcess.Worded (l : LocalProcess) : Prop where
  name : isWord l.name = true
  symbols : ∀ choice ∈ l.choices, ∀ s ∈ choice, isWord s = true

namespace LocalProcess

theorem toList_renderChoice (choice : List Symbol) :
    (renderChoice choice).toList = [' ', '-', '>', ' '].intercalate (choice.map String.toList) :=
  String.toList_intercalate

theorem toList_render_stop (name : Symbol) :
    (LocalProcess.mk name []).render.toList =
      name.toList ++ [' ', '=', ' ', 'S', 'T', 'O', 'P'] := by
  show (name ++ " = STOP").toList = _
  rw [String.toList_append]
  rfl

theorem toList_render_choices (name : Symbol) {choices : List (List Symbol)} (h : choices ≠ []) :
    (LocalProcess.mk name choices).render.toList =
      name.toList ++ ([' ', '=', ' ', '('] ++ [' ', '|', ' '].intercalate
        (choices.map fun choice => (renderChoice choice).toList) ++ [')']) := by
  have hrender : (LocalProcess.mk name choices).render =
      name ++ " = (" ++ " | ".intercalate (choices.map renderChoice) ++ ")" := by
    unfold render
    rw [if_neg (by simpa using h)]
  rw [hrender]
  simp only [String.toList_append, String.toList_intercalate, List.map_map, List.append_assoc]
  rfl

/-- The text is made of the words and of a few other characters. -/
theorem forall_mem_render {keep : Char → Bool} {l : LocalProcess}
    (hfixed : [' ', '=', '(', '|', '-', '>', ')', 'S', 'T', 'O', 'P'].all keep = true)
    (hname : ∀ ch ∈ l.name.toList, keep ch = true)
    (hsymbols : ∀ choice ∈ l.choices, ∀ s ∈ choice, ∀ ch ∈ s.toList, keep ch = true) :
    ∀ ch ∈ l.render.toList, keep ch = true := by
  obtain ⟨name, choices⟩ := l
  have hfixed := List.all_eq_true.mp hfixed
  intro ch hch
  by_cases hnone : choices = []
  · subst hnone
    rw [toList_render_stop, List.mem_append] at hch
    rcases hch with hch | hch
    · exact hname ch hch
    · exact hfixed ch (by simp at hch ⊢; tauto)
  · rw [toList_render_choices name hnone, List.mem_append, List.mem_append, List.mem_append] at hch
    rcases hch with hch | (hch | hch) | hch
    · exact hname ch hch
    · exact hfixed ch (by simp at hch ⊢; tauto)
    · rcases mem_intercalate hch with hch | ⟨_, hmem, hch⟩
      · exact hfixed ch (by simp at hch ⊢; tauto)
      obtain ⟨choice, hchoice, rfl⟩ := List.mem_map.mp hmem
      rw [toList_renderChoice] at hch
      rcases mem_intercalate hch with hch | ⟨_, hmem, hch⟩
      · exact hfixed ch (by simp at hch ⊢; tauto)
      obtain ⟨s, hs, rfl⟩ := List.mem_map.mp hmem
      exact hsymbols choice hchoice s hs ch hch
    · exact hfixed ch (by simp at hch ⊢; tauto)

/-! ### Reading one back -/

theorem filter_word {s : Symbol} (h : isWord s = true) : s.toList.filter isTelling = s.toList := by
  rw [List.filter_eq_self]
  intro ch hch
  rw [isTelling, isLabelPart_of_isWord h hch, Bool.true_or]

/-- What is left of a choice. -/
def told (choice : List Symbol) : List Char := ['-'].intercalate (choice.map String.toList)

theorem filter_renderChoice {choice : List Symbol} (h : ∀ s ∈ choice, isWord s = true) :
    (renderChoice choice).toList.filter isTelling = told choice := by
  rw [toList_renderChoice, filter_intercalate, List.map_map]
  have hwords : choice.map (List.filter isTelling ∘ String.toList) = choice.map String.toList :=
    List.map_congr_left fun s hs => filter_word (h s hs)
  rw [hwords]
  rfl

theorem forall_mem_told {choice : List Symbol} (h : ∀ s ∈ choice, isWord s = true) {ch : Char}
    (hch : ch ∈ told choice) : isLabelPart ch = true ∨ ch = '-' := by
  rcases mem_intercalate hch with hmark | ⟨_, hmem, hch⟩
  · exact Or.inr (List.mem_singleton.mp hmark)
  · obtain ⟨s, hs, rfl⟩ := List.mem_map.mp hmem
    exact Or.inl (isLabelPart_of_isWord (h s hs) hch)

theorem readChoice_told {choice : List Symbol} (h : ∀ s ∈ choice, isWord s = true) :
    readChoice (told choice) = choice := by
  cases choice with
  | nil => rfl
  | cons s choice =>
      have hfirst := toList_ne_nil_of_isWord (h s List.mem_cons_self)
      have hsome : (told (s :: choice)).isEmpty = false := by
        unfold told
        rw [List.isEmpty_eq_false_iff]
        cases choice with
        | nil => simpa using hfirst
        | cons s' choice => simp [List.intercalate_cons_cons]
      have hsplit : (told (s :: choice)).splitOn '-' = (s :: choice).map String.toList := by
        refine List.splitOn_intercalate '-' (fun l hl => ?_) (by simp)
        obtain ⟨s', hs', rfl⟩ := List.mem_map.mp hl
        exact not_mem_of_isWord (h s' hs') (by decide)
      unfold readChoice
      rw [hsome, hsplit, List.map_map]
      simp [Function.comp_def]

/-- What is left behind the name. -/
def toldBody (choices : List (List Symbol)) : List Char :=
  if choices = [] then ['S', 'T', 'O', 'P'] else '(' :: ['|'].intercalate (choices.map told)

theorem readChoices_toldBody {choices : List (List Symbol)}
    (h : ∀ choice ∈ choices, ∀ s ∈ choice, isWord s = true) :
    readChoices (toldBody choices) = choices := by
  by_cases hnone : choices = []
  · subst hnone
    rfl
  · unfold toldBody
    rw [if_neg hnone]
    have hsplit : (['|'].intercalate (choices.map told)).splitOn '|' = choices.map told := by
      refine List.splitOn_intercalate '|' (fun l hl => ?_) (by simpa using hnone)
      obtain ⟨choice, hchoice, rfl⟩ := List.mem_map.mp hl
      intro hmem
      exact absurd (forall_mem_told (h choice hchoice) hmem) (by decide)
    show ((['|'].intercalate (choices.map told)).splitOn '|').map readChoice = choices
    rw [hsplit, List.map_map]
    exact (List.map_congr_left fun choice hchoice => readChoice_told (h choice hchoice)).trans
      (List.map_id _)

variable {l : LocalProcess}

theorem filter_render (h : l.Worded) :
    l.render.toList.filter isTelling = ['='].intercalate [l.name.toList, toldBody l.choices] := by
  obtain ⟨name, choices⟩ := l
  have hname := filter_word h.name
  rw [List.intercalate_cons_cons, List.intercalate_singleton, List.append_assoc]
  by_cases hnone : choices = []
  · subst hnone
    rw [toList_render_stop, List.filter_append, hname]
    rfl
  · have hchoices : choices.map (List.filter isTelling ∘ fun choice =>
        (renderChoice choice).toList) = choices.map told :=
      List.map_congr_left fun choice hchoice => filter_renderChoice (h.symbols choice hchoice)
    have hmarks : ∀ inner : List Char, [' ', '=', ' ', '('].filter isTelling ++ inner ++
        [')'].filter isTelling = ['='] ++ ('(' :: inner) := by
      intro inner
      show ['=', '('] ++ inner ++ [] = _
      rw [List.append_nil]
      rfl
    rw [toList_render_choices name hnone, List.filter_append, List.filter_append,
      List.filter_append, hname, filter_intercalate, List.map_map, hchoices, hmarks]
    unfold toldBody
    rw [if_neg hnone]
    rfl

/-- The definition of a local process tells what it is. -/
theorem guess_render (h : l.Worded) : guess l.render.toList = l := by
  have hsplit : (l.render.toList.filter isTelling).splitOn '=' =
      [l.name.toList, toldBody l.choices] := by
    rw [filter_render h]
    refine List.splitOn_intercalate '=' (fun piece hpiece => ?_) (by simp)
    rcases List.mem_cons.mp hpiece with rfl | hbody
    · exact not_mem_of_isWord h.name (by decide)
    · rw [List.mem_singleton.mp hbody]
      intro hmem
      unfold toldBody at hmem
      split at hmem
      · exact absurd hmem (by decide)
      · rcases List.mem_cons.mp hmem with heq | hmem
        · exact absurd heq (by decide)
        · rcases mem_intercalate hmem with hmark | ⟨_, hmem, hch⟩
          · exact absurd hmark (by decide)
          · obtain ⟨choice, hchoice, rfl⟩ := List.mem_map.mp hmem
            exact absurd (forall_mem_told (h.symbols choice hchoice) hch) (by decide)
  unfold guess
  rw [hsplit]
  simp only [String.ofList_toList, readChoices_toldBody h.symbols]

theorem read?_render (h : l.Worded) : read? l.render.toList = some l := by
  unfold read?
  rw [guess_render h, if_pos rfl]

/-- The shared clause is not the definition of any rule. -/
theorem read?_sharedFinal : read? Definition.sharedFinal.render.toList = none := by
  decide +kernel

theorem rule_ofRule {r : Rule} (h : ∀ p ∈ r.alternatives, p.first? = some r.symbol) :
    (ofRule r).rule = r := by
  refine Rule.ext rfl ?_
  show (r.alternatives.map Production.tail).map _ = r.alternatives
  rw [List.map_map]
  refine (List.map_congr_left fun p hp => ?_).trans (List.map_id _)
  exact Production.ext (Production.symbols_eq_cons (h p hp)).symm

end LocalProcess

/-! ## Processes -/

namespace Process

variable {p : Process}

/-- What the reader needs of a process: all its names are words. -/
structure Worded (p : Process) : Prop where
  name : isWord p.name = true
  locals : ∀ l ∈ p.locals, l.Worded

/-- The words of the heading. -/
def headingWords (p : Process) : List String :=
  (if p.deterministic then ["deterministic"] else []) ++ ["minimal", p.name, "=", Grammar.start]

theorem heading_eq (p : Process) : p.heading = " ".intercalate p.headingWords := by
  obtain ⟨deterministic, name, locals, closing⟩ := p
  have hplain : s!"minimal {name} = {Grammar.start}" =
      " ".intercalate ["minimal", name, "=", Grammar.start] := by
    have hminimal : "minimal " = "minimal" ++ " " := rfl
    have hequals : " = " = " " ++ "=" ++ " " := rfl
    show "minimal " ++ name ++ " = " ++ Grammar.start = _
    rw [hminimal, hequals]
    simp only [String.intercalate_cons_cons, String.intercalate_singleton, String.append_assoc]
  cases deterministic with
  | false => exact hplain
  | true =>
      show "deterministic" ++ " " ++ s!"minimal {name} = {Grammar.start}" = _
      rw [hplain]
      exact String.intercalate_cons_cons.symm

theorem mem_headingWords {word : String} (h : word ∈ p.headingWords) :
    word = p.name ∨ word ∈ ["deterministic", "minimal", "=", "Init"] := by
  unfold headingWords at h
  cases hd : p.deterministic <;> simp [hd, Grammar.start, Symbol.init] at h ⊢ <;> tauto

theorem readHeading_heading (h : isWord p.name = true) :
    readHeading p.heading.toList = some (p.deterministic, p.name) := by
  have hblanks : ∀ word ∈ ["deterministic", "minimal", "=", "Init"], ' ' ∉ word.toList := by
    decide
  have hsplit : p.heading.toList.splitOn ' ' = p.headingWords.map String.toList := by
    rw [heading_eq, String.toList_intercalate]
    refine List.splitOn_intercalate ' ' (fun piece hpiece => ?_) (by simp [headingWords])
    obtain ⟨word, hword, rfl⟩ := List.mem_map.mp hpiece
    rcases mem_headingWords hword with rfl | hfixed
    · exact not_mem_of_isWord h (by decide)
    · exact hblanks word hfixed
  unfold readHeading
  rw [hsplit]
  unfold headingWords
  cases p.deterministic with
  | false => exact congrArg (fun name => some (false, name)) String.ofList_toList
  | true => exact congrArg (fun name => some (true, name)) String.ofList_toList

/-- Whether a character stands neither between two definitions nor in front of the hiding. -/
def isInner (ch : Char) : Bool := decide (ch ≠ ',' ∧ ch ≠ '\\')

theorem isInner_of_isWord {s : String} (h : isWord s = true) :
    ∀ ch ∈ s.toList, isInner ch = true := by
  intro ch hch
  refine decide_eq_true ⟨?_, ?_⟩
  · rintro rfl
    exact not_mem_of_isWord h (by decide) hch
  · rintro rfl
    exact not_mem_of_isWord h (by decide) hch

theorem forall_mem_definition (h : p.Worded) {d : Definition} (hd : d ∈ p.definitions) :
    ∀ ch ∈ d.render.toList, isInner ch = true := by
  rcases List.mem_append.mp hd with hlocal | hshared
  · obtain ⟨l, hl, rfl⟩ := List.mem_map.mp hlocal
    rw [← LocalProcess.render_eq]
    exact LocalProcess.forall_mem_render (by decide) (isInner_of_isWord (h.locals l hl).name)
      fun choice hchoice s hs => isInner_of_isWord ((h.locals l hl).symbols choice hchoice s hs)
  · split at hshared
    · rw [List.mem_singleton.mp hshared]
      exact List.all_eq_true.mp (by decide +kernel)
    · exact absurd hshared List.not_mem_nil

theorem forall_mem_heading (h : isWord p.name = true) :
    ∀ ch ∈ p.heading.toList, isInner ch = true := by
  have hfixed : ∀ word ∈ [" ", "deterministic", "minimal", "=", "Init"],
      word.toList.all isInner = true := by decide
  intro ch hch
  rw [heading_eq, String.toList_intercalate] at hch
  rcases mem_intercalate hch with hblank | ⟨_, hmem, hch⟩
  · exact List.all_eq_true.mp (hfixed " " (by decide)) ch hblank
  · obtain ⟨word, hword, rfl⟩ := List.mem_map.mp hmem
    rcases mem_headingWords hword with rfl | hword
    · exact isInner_of_isWord h ch hch
    · exact List.all_eq_true.mp (hfixed word (List.mem_cons_of_mem _ hword)) ch hch

/-- The heading and the definitions, each of which stands behind a comma and a line end. -/
def pieces (p : Process) : List (List Char) :=
  p.heading.toList :: p.definitions.map fun d => '\n' :: d.render.toList

theorem not_mem_pieces (h : p.Worded) {piece : List Char} (hpiece : piece ∈ p.pieces) :
    ',' ∉ piece ∧ '\\' ∉ piece := by
  have hinner : ∀ ch ∈ piece, ch = '\n' ∨ isInner ch = true := by
    intro ch hch
    rcases List.mem_cons.mp hpiece with rfl | hmem
    · exact Or.inr (forall_mem_heading h.name ch hch)
    · obtain ⟨d, hd, rfl⟩ := List.mem_map.mp hmem
      exact (List.mem_cons.mp hch).imp_right (forall_mem_definition h hd ch)
  exact ⟨fun hch => absurd (hinner _ hch) (by decide), fun hch => absurd (hinner _ hch) (by decide)⟩

/-- The text without its end and the hiding. -/
theorem stated_render (h : p.Worded) : stated p.render = [','].intercalate p.pieces := by
  have htext : (",\n".intercalate (p.heading :: p.definitions.map Definition.render)).toList =
      [','].intercalate p.pieces := by
    rw [String.toList_intercalate, List.map_cons, List.map_map]
    show [',', '\n'].intercalate _ = _
    rw [intercalate_cons_mark, List.map_map]
    rfl
  have hall : ∀ ch ∈ [','].intercalate p.pieces, decide (ch ≠ '\\') = true := by
    intro ch hch
    rw [decide_eq_true_eq]
    rintro rfl
    rcases mem_intercalate hch with hcomma | ⟨piece, hpiece, hch⟩
    · exact absurd hcomma (by decide)
    · exact (not_mem_pieces h hpiece).2 hch
  have hhiding : p.closing.hiding.toList.takeWhile (fun ch => decide (ch ≠ '\\')) = [] := by
    cases p.closing <;> decide
  unfold stated
  rw [Process.render_eq, String.toList_append, String.toList_append, htext]
  have hdrop : ([','].intercalate p.pieces ++ p.closing.hiding.toList ++ ".\n\n".toList).rdrop 3 =
      [','].intercalate p.pieces ++ p.closing.hiding.toList := List.rdrop_append_length
  rw [hdrop, List.takeWhile_append_of_pos hall, hhiding, List.append_nil]

/-- The clause that runs share is passed over, and the definitions of rules are read back. -/
theorem filterMap_read?_definitions (h : p.Worded) :
    (p.definitions.map fun d => '\n' :: d.render.toList).filterMap
        (fun d => (LocalProcess.read? d.tail).map LocalProcess.rule) =
      p.locals.map LocalProcess.rule := by
  have hlocals : (p.locals.map Definition.ofLocal).filterMap
      (fun d => (LocalProcess.read? d.render.toList).map LocalProcess.rule) =
        p.locals.map LocalProcess.rule := by
    rw [List.filterMap_map]
    refine (List.filterMap_congr fun l hl => ?_).trans
      (congrFun (List.filterMap_eq_map (f := LocalProcess.rule)) p.locals)
    show (LocalProcess.read? (Definition.ofLocal l).render.toList).map _ = _
    rw [← LocalProcess.render_eq, LocalProcess.read?_render (h.locals l hl)]
    rfl
  have hshared : (if p.closing = .sharedFinal then [Definition.sharedFinal] else []).filterMap
      (fun d => (LocalProcess.read? d.render.toList).map LocalProcess.rule) = [] := by
    split
    · rw [List.filterMap_cons, LocalProcess.read?_sharedFinal]
      rfl
    · rfl
  rw [List.filterMap_map]
  show p.definitions.filterMap _ = _
  unfold definitions
  rw [List.filterMap_append]
  exact (congrArg₂ (· ++ ·) hlocals hshared).trans (List.append_nil _)

/-- **A process is read back from its text**, up to how it closes. -/
theorem readComponent_render (h : p.Worded) :
    readComponent p.render =
      (Grammar.addRules ⟨.empty⟩ (p.locals.map LocalProcess.rule)).toOption.map fun g =>
        (p.deterministic, p.name, g) := by
  have hsplit : (stated p.render).splitOn ',' = p.pieces := by
    rw [stated_render h]
    exact List.splitOn_intercalate ',' (fun piece hpiece => (not_mem_pieces h hpiece).1)
      (by simp [pieces])
  unfold readComponent
  rw [hsplit]
  unfold pieces
  dsimp only
  rw [filterMap_read?_definitions h, readHeading_heading h.name]
  rfl

end Process

/-! ## Grammars -/

variable {g g' : Grammar} {name name' : String}

/-- All symbols are words. -/
structure Worded (g : Grammar) : Prop where
  rules : ∀ r ∈ g.ruleList, isWord r.symbol = true
  alternatives : ∀ p ∈ g.alternatives, ∀ s ∈ p.symbols, isWord s = true

theorem perm_orderedRules (hg : g.Sound) : (Process.orderedRules g).Perm g.ruleList := by
  cases hstart : g.rule? Grammar.start with
  | some r =>
      obtain ⟨first, rest, hordered, -, -, hperm⟩ :=
        exists_orderedRules hg (Grammar.hasRule_iff.mpr ⟨r, hstart⟩)
      rw [hordered]
      exact hperm
  | none =>
      have hall : g.ruleList.filter (fun r => decide (r.symbol ≠ Grammar.start)) = g.ruleList := by
        refine List.filter_eq_self.mpr fun r hr => ?_
        rw [decide_eq_true_eq]
        intro heq
        have hrule := hg.mem_ruleList_iff.mp hr
        rw [heq, hstart] at hrule
        exact absurd hrule (by simp)
      unfold Process.orderedRules
      rw [hstart, hall]
      exact List.Perm.refl _

/-- Adding the printed rules one after the other gives the grammar again. -/
theorem addRules_orderedRules (hg : g.Sound) :
    Grammar.addRules ⟨.empty⟩ (Process.orderedRules g) = .ok g := by
  have hperm := perm_orderedRules hg
  have hnodup : ((Process.orderedRules g).map Rule.symbol).Nodup := by
    rw [(hperm.map Rule.symbol).nodup_iff, hg.map_symbol_ruleList]
    exact g.nodup_symbols
  have hcheck : ∀ r ∈ Process.orderedRules g, r.check = .ok () := by
    intro r hr
    have hrule := hg.mem_ruleList_iff.mp (hperm.mem_iff.mp hr)
    exact Rule.check_eq_ok_iff.mpr fun p hp => hg.placed _ r p hrule hp
  obtain ⟨g', hadd, hrules⟩ :=
    Grammar.exists_addRules (g := ⟨.empty⟩) hnodup (fun _ _ => rfl) hcheck
  have hsame : g' = g := by
    refine Grammar.eq_of_rule? fun s => Option.ext fun r => ?_
    rw [hrules, or_iff_left (by simp [Grammar.rule?, OrderedMap.get?, OrderedMap.empty]),
      hperm.mem_iff, hg.mem_ruleList_iff]
    refine ⟨fun h => ?_, fun h => ?_⟩
    · obtain ⟨hr, rfl⟩ := h
      exact hr
    · have hsymbol := hg.keyed s r h
      exact ⟨by rw [hsymbol]; exact h, hsymbol⟩
  rw [hadd, hsame]

theorem worded_ofGrammar (hg : g.Sound) (hname : isWord name = true) (hwords : Worded g)
    (deterministic : Bool) : (Process.ofGrammar deterministic name g).Worded := by
  refine ⟨hname, fun l hl => ?_⟩
  obtain ⟨r, hr, rfl⟩ := List.mem_map.mp hl
  have hmem := (perm_orderedRules hg).mem_iff.mp hr
  refine ⟨hwords.rules r hmem, fun choice hchoice s hs => ?_⟩
  obtain ⟨p, hp, rfl⟩ := List.mem_map.mp hchoice
  exact hwords.alternatives p (List.mem_flatMap.mpr ⟨r, hmem, hp⟩) s (List.mem_of_mem_tail hs)

theorem readComponent_ofGrammar (hg : g.Sound) (hname : isWord name = true) (hwords : Worded g)
    (deterministic : Bool) :
    readComponent (Process.ofGrammar deterministic name g).render =
      some (deterministic, name, g) := by
  have hrules : (Process.ofGrammar deterministic name g).locals.map LocalProcess.rule =
      Process.orderedRules g := by
    show ((Process.orderedRules g).map LocalProcess.ofRule).map LocalProcess.rule = _
    rw [List.map_map]
    refine (List.map_congr_left fun r hr => ?_).trans (List.map_id _)
    have hrule := hg.mem_ruleList_iff.mp ((perm_orderedRules hg).mem_iff.mp hr)
    exact LocalProcess.rule_ofRule fun p hp => hg.placed _ r p hrule hp
  rw [Process.readComponent_render (worded_ofGrammar hg hname hwords deterministic), hrules,
    addRules_orderedRules hg]
  rfl

/--
**The text of a process determines its grammar.** For a name and a grammar made of words the
text is written, and the name, the option and the grammar with all its rules are read back
from it. The clause that is shared by all runs to `Final` is not taken for a rule, and the
hiding is not taken for a part of one. So no two grammars have the same text.
-/
theorem renderComponent_determines {deterministic deterministic' : Bool}
    (hg : g.check = .ok ()) (hname : isWord name = true) (hwords : Worded g)
    (hg' : g'.check = .ok ()) (hname' : isWord name' = true) (hwords' : Worded g') :
    (∃ text, renderComponent deterministic name g = .ok text ∧
      readComponent text = some (deterministic, name, g)) ∧
    (renderComponent deterministic name g = renderComponent deterministic' name' g' →
      name = name' ∧ deterministic = deterministic' ∧ g = g') := by
  have hsound := Grammar.check_eq_ok_iff.mp hg
  have hsound' := Grammar.check_eq_ok_iff.mp hg'
  have hread := readComponent_ofGrammar hsound hname hwords deterministic
  have hread' := readComponent_ofGrammar hsound' hname' hwords' deterministic'
  have hok := renderComponent_eq_ok hsound deterministic name
  refine ⟨⟨_, hok, hread⟩, fun h => ?_⟩
  rw [hok, renderComponent_eq_ok hsound'] at h
  rw [Except.ok.inj h, hread'] at hread
  simp only [Option.some.injEq, Prod.mk.injEq] at hread
  exact ⟨hread.2.1.symm, hread.1.symm, hread.2.2.symm⟩

/-- A choice that ends in `Final`, and one without actions. -/
def ending : Grammar :=
  (⟨.empty⟩ : Grammar).store "Init" ⟨"Init", [⟨["Init", "send.1", "Final"]⟩, ⟨["Init"]⟩]⟩

/-- The same with a rule that does what the shared clause does. -/
def goingOn : Grammar :=
  ending.store "Final" ⟨"Final", [⟨["Final", "_tau", "STOP"]⟩]⟩

theorem renderComponent_determines_ending :
    renderComponent false "Server" ending = .ok ("minimal Server = Init,\n" ++
        "Init = (send.1 -> Final | ),\nFinal = (_tau->STOP)\\\x7b_tau\x7d.\n\n") ∧
      (∃ text, renderComponent false "Server" ending = .ok text ∧
        readComponent text = some (false, "Server", ending)) ∧
      renderComponent false "Server" ending ≠ renderComponent false "Server" goingOn := by
  obtain ⟨hread, hsame⟩ := @renderComponent_determines ending goingOn "Server" "Server" false false
    (by decide +kernel) (by decide +kernel) ⟨by decide +kernel, by decide +kernel⟩
    (by decide +kernel) (by decide +kernel) ⟨by decide +kernel, by decide +kernel⟩
  refine ⟨by decide +kernel, hread, fun h => ?_⟩
  exact absurd (congrArg (fun g => g.hasRule "Final") (hsame h).2.2) (by decide +kernel)

end Fsp

end ScenarioFsp
