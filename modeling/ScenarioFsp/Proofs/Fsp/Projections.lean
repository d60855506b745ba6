import ScenarioFsp.Proofs.Document.Accepted
import ScenarioFsp.Proofs.Document.Natural
import ScenarioFsp.Proofs.Document.Recognition
import ScenarioFsp.Proofs.Fsp.Reading

/-!
# Reading a cross-check back

The text of a cross-check says how scenarios follow each other and in which of them a
component does something, and it says nothing else: two specifications have the same text
exactly if they agree on this (`render_crossCheck_eq_iff`). What happens on a lifeline,
which scenarios may come last, and whether an empty lifeline is there at all leaves no
trace in the text.

The text is read back sentence by sentence. Names are identifiers here, so a point stands
only at the end of a sentence. The first sentence lists the processes, the last three
pieces do not depend on the specification beyond the names of the components, and every
sentence between them is the projection onto one component.
-/

namespace ScenarioFsp

namespace Fsp

open Document (isIdentifier isLabelPart isLetterOrDigit isSpelled)

namespace CrossCheck

/-! ## The reader -/

/-- The name and the scenarios to go on with, from the definition of a process. -/
def readNode (text : List Char) : String × List String :=
  let l := LocalProcess.guess text
  (l.name, l.choices.filterMap List.getLast?)

/-- Whether a character is part of a word, or stands between two actions. -/
def isListed (ch : Char) : Bool := isLabelPart ch || decide (ch = ',')

/-- The scenarios that are left by the actions of a list. -/
def readActions (actions : List Char) : List String :=
  if (actions.filter isListed).isEmpty then []
  else ((actions.filter isListed).splitOn ',').map fun action => String.ofList action.tail

/-- What stands in front of the name in a projection. -/
def opening : String := "deterministic ||Det"

/-- The component of a projection and its scenarios, read off the sentence. -/
def readProjection (sentence : List Char) : String × List String :=
  match sentence.splitOn '@' with
  | [front, actions] =>
    (String.ofList ((front.drop opening.toList.length).takeWhile fun ch => decide (ch ≠ ' ')),
      readActions actions)
  | _ => ("", [])

/-- What stands in front of the first process. -/
def option : String := "deterministic "

/-- The processes. Every one but the first stands on a line of its own. -/
def readProcesses (sentence : List Char) : List String × List (String × List String) :=
  match sentence.splitOn ',' with
  | [] => ([], [])
  | first :: nodes =>
    ((readNode (first.drop option.toList.length)).2, nodes.map fun node => readNode node.tail)

/-- What a text says, if it is one of a cross-check. -/
def read (text : String) : CrossCheck :=
  match text.toList.splitOn '.' with
  | processes :: _ :: rest =>
    ⟨(readProcesses processes).1, (readProcesses processes).2, (rest.rdrop 3).map fun sentence =>
      readProjection sentence.tail⟩
  | _ => ⟨[], [], []⟩

/-! ## Identifiers -/

section Identifiers

variable {s : String} {ch : Char}

theorem isLetterOrDigit_of_isIdentifier (h : isIdentifier s = true) (hch : ch ∈ s.toList) :
    isLetterOrDigit ch = true :=
  forall_mem_of_isSpelled (fun _ => Document.isLetterOrDigit_of_isLetter) (fun _ => id) h ch hch

theorem not_mem_of_isIdentifier (h : isIdentifier s = true) (hch : isLetterOrDigit ch = false) :
    ch ∉ s.toList := by
  intro hmem
  rw [isLetterOrDigit_of_isIdentifier h hmem] at hch
  exact absurd hch (by simp)

theorem isWord_of_isIdentifier (h : isIdentifier s = true) : isWord s = true :=
  isWord_of_forall (toList_ne_nil_of_isSpelled h) fun _ hch =>
    Document.isLabelPart_of_isLetterOrDigit (isLetterOrDigit_of_isIdentifier h hch)

theorem toList_leaving (s : String) : (leaving s).toList = '_' :: s.toList := by
  unfold leaving
  rw [String.toList_append]
  rfl

theorem isLetterOrDigit_of_mem_leaving (h : isIdentifier s = true)
    (hch : ch ∈ (leaving s).toList) : isLetterOrDigit ch = true := by
  rw [toList_leaving] at hch
  rcases List.mem_cons.mp hch with rfl | hch
  · decide
  · exact isLetterOrDigit_of_isIdentifier h hch

theorem isWord_leaving (h : isIdentifier s = true) : isWord (leaving s) = true := by
  refine isWord_of_forall ?_ fun _ hch =>
    Document.isLabelPart_of_isLetterOrDigit (isLetterOrDigit_of_mem_leaving h hch)
  rw [toList_leaving]
  exact List.cons_ne_nil _ _

end Identifiers

/-! ## Processes -/

/-- A choice between scenarios, as a local process. -/
def choosing (name action : String) (targets : List String) : LocalProcess :=
  ⟨name, targets.map fun target => [action, target]⟩

theorem renderChoice_eq (name action : String) (targets : List String) :
    renderChoice name action targets = (choosing name action targets).render := by
  have hchoice : ∀ target, action ++ " -> " ++ target =
      LocalProcess.renderChoice [action, target] := by
    intro target
    unfold LocalProcess.renderChoice
    rw [String.intercalate_cons_cons, String.intercalate_singleton]
  unfold renderChoice LocalProcess.render choosing
  rw [List.isEmpty_map, List.map_map]
  simp only [hchoice]
  rfl

/-- All names of a cross-check are identifiers. -/
structure Named (c : CrossCheck) : Prop where
  initial : ∀ s ∈ c.initial, isIdentifier s = true
  nodes : ∀ node ∈ c.graph, isIdentifier node.1 = true
  targets : ∀ node ∈ c.graph, ∀ s ∈ node.2, isIdentifier s = true
  components : ∀ p ∈ c.projections, isIdentifier p.1 = true
  active : ∀ p ∈ c.projections, ∀ s ∈ p.2, isIdentifier s = true

section Choosing

variable {name action : String} {targets : List String}

theorem worded_choosing (hname : isWord name = true) (haction : isWord action = true)
    (htargets : ∀ s ∈ targets, isIdentifier s = true) : (choosing name action targets).Worded := by
  refine ⟨hname, fun choice hchoice s hs => ?_⟩
  obtain ⟨target, htarget, rfl⟩ := List.mem_map.mp hchoice
  rcases List.mem_cons.mp hs with rfl | hs
  · exact haction
  · rw [List.mem_singleton.mp hs]
    exact isWord_of_isIdentifier (htargets target htarget)

theorem readNode_choosing (hname : isWord name = true) (haction : isWord action = true)
    (htargets : ∀ s ∈ targets, isIdentifier s = true) :
    readNode (choosing name action targets).render.toList = (name, targets) := by
  unfold readNode
  rw [LocalProcess.guess_render (worded_choosing hname haction htargets)]
  refine Prod.ext rfl ?_
  show (targets.map _).filterMap _ = targets
  rw [List.filterMap_map]
  exact List.filterMap_some

/-- Neither a comma nor a point stands in the definition. -/
theorem not_mem_choosing {ch : Char}
    (hch : ch = ',' ∨ ch = '.') (hname : ∀ ch ∈ name.toList, isLetterOrDigit ch = true)
    (haction : ∀ ch ∈ action.toList, isLetterOrDigit ch = true)
    (htargets : ∀ s ∈ targets, isIdentifier s = true) :
    ch ∉ (choosing name action targets).render.toList := by
  have hpart : ∀ ch, isLetterOrDigit ch = true → decide (ch ≠ ',' ∧ ch ≠ '.') = true := by
    intro ch hletter
    refine decide_eq_true ⟨?_, ?_⟩
    · rintro rfl
      exact absurd hletter (by decide)
    · rintro rfl
      exact absurd hletter (by decide)
  have hall : ∀ ch ∈ (choosing name action targets).render.toList,
      decide (ch ≠ ',' ∧ ch ≠ '.') = true := by
    refine LocalProcess.forall_mem_render (by decide) (fun ch hch => hpart ch (hname ch hch))
      fun choice hchoice s hs ch hch => ?_
    obtain ⟨target, htarget, rfl⟩ := List.mem_map.mp hchoice
    rcases List.mem_cons.mp hs with rfl | hs
    · exact hpart ch (haction ch hch)
    · rw [List.mem_singleton.mp hs] at hch
      exact hpart ch (isLetterOrDigit_of_isIdentifier (htargets target htarget) hch)
  intro hmem
  have hne := of_decide_eq_true (hall ch hmem)
  exact hch.elim hne.1 hne.2

end Choosing

/-! ## Sentences -/

/-- The definitions of the processes, the first of which starts the graph. -/
def processes (c : CrossCheck) : List String :=
  (option ++ (choosing "DetHMSC" "init" c.initial).render) ::
    c.graph.map fun node => (choosing node.1 (leaving node.1) node.2).render

/-- The sentence of a projection, without the point. -/
def projectionSentence (p : String × List String) : String :=
  opening ++ p.1 ++ " = DetHMSC@\x7b" ++ ", ".intercalate (p.2.map leaving) ++ "\x7d"

/-- The sentence of the composition, without the point. -/
def composedSentence (c : CrossCheck) : String :=
  "deterministic ||ComposedHMSC = (" ++
    " || ".intercalate (c.projections.map fun p => "Det" ++ p.1) ++ ")"

/-- What stands between the points of a cross-check. -/
def sentences (c : CrossCheck) : List String :=
  ",\n".intercalate c.processes :: "property ||HSMC = DetHMSC\\\x7binit\x7d" ::
    (c.projections.map projectionSentence ++
      [c.composedSentence, "||Check = (HSMC || ComposedHMSC)", ""])

theorem join_eq_intercalate_concat (separator : String) (ls : List String) :
    String.join (ls.map fun s => s ++ separator) = separator.intercalate (ls ++ [""]) := by
  induction ls with
  | nil => rfl
  | cons s ls ih =>
      rw [List.map_cons, String.join_cons, ih]
      cases ls with
      | nil => simp [String.intercalate_cons_cons]
      | cons s' ls => simp [String.intercalate_cons_cons]

/-- A point and a line end stand behind every sentence. -/
theorem renderProjection_eq (p : String × List String) :
    renderProjection p = projectionSentence p ++ ".\n" := by
  have hclosing : "\x7d.\n" = "\x7d" ++ ".\n" := rfl
  show _ = opening ++ p.1 ++ " = DetHMSC@\x7b" ++ _ ++ "\x7d" ++ ".\n"
  unfold renderProjection
  rw [hclosing, ← String.append_assoc]
  rfl

theorem render_eq (c : CrossCheck) : c.render = ".\n".intercalate c.sentences := by
  have hsentences : c.sentences = (",\n".intercalate c.processes ::
      "property ||HSMC = DetHMSC\\\x7binit\x7d" :: (c.projections.map projectionSentence ++
        [c.composedSentence, "||Check = (HSMC || ComposedHMSC)"])) ++ [""] := by
    unfold sentences
    simp
  have hprojections : (c.projections.map projectionSentence).map (fun s => s ++ ".\n") =
      c.projections.map renderProjection := by
    rw [List.map_map]
    exact List.map_congr_left fun p _ => (renderProjection_eq p).symm
  have hcomposed : "deterministic ||ComposedHMSC = (" ++
      " || ".intercalate (c.projections.map fun p => "Det" ++ p.1) ++ ").\n" =
        c.composedSentence ++ ".\n" := by
    have hclosing : ").\n" = ")" ++ ".\n" := rfl
    rw [hclosing, ← String.append_assoc]
    rfl
  have hproperty : "property ||HSMC = DetHMSC\\\x7binit\x7d.\n" =
      "property ||HSMC = DetHMSC\\\x7binit\x7d" ++ ".\n" := rfl
  have hcheck : "||Check = (HSMC || ComposedHMSC).\n" =
      "||Check = (HSMC || ComposedHMSC)" ++ ".\n" := rfl
  have hrender : c.render = ",\n".intercalate c.processes ++ ".\n" ++
      "property ||HSMC = DetHMSC\\\x7binit\x7d.\n" ++
      String.join (c.projections.map renderProjection) ++ (c.composedSentence ++ ".\n") ++
      "||Check = (HSMC || ComposedHMSC).\n" := by
    unfold render processes
    simp only [renderChoice_eq]
    rw [← hcomposed]
    rfl
  rw [hrender, hproperty, hcheck, hsentences, ← join_eq_intercalate_concat, List.map_cons,
    List.map_cons, List.map_append, hprojections]
  simp only [String.join_cons, String.join_append, List.map_cons, List.map_nil, String.join_nil,
    String.append_assoc, String.append_empty]

/-! ## Reading the sentences -/

section Reading

variable {c : CrossCheck}

/-- The definitions of the processes hold no comma and no point. -/
theorem not_mem_processes (hc : c.Named) {ch : Char} (hch : ch = ',' ∨ ch = '.') {p : String}
    (hp : p ∈ c.processes) : ch ∉ p.toList := by
  rcases List.mem_cons.mp hp with rfl | hp
  · rw [String.toList_append, List.mem_append, not_or]
    refine ⟨?_, not_mem_choosing hch (List.all_eq_true.mp (by decide))
      (List.all_eq_true.mp (by decide)) hc.initial⟩
    rcases hch with rfl | rfl <;> decide
  · obtain ⟨node, hnode, rfl⟩ := List.mem_map.mp hp
    exact not_mem_choosing hch (fun _ => isLetterOrDigit_of_isIdentifier (hc.nodes node hnode))
      (fun _ => isLetterOrDigit_of_mem_leaving (hc.nodes node hnode)) (hc.targets node hnode)

/-- The first process, and the others with the line ends in front of them. -/
theorem splitOn_processes (hc : c.Named) :
    (",\n".intercalate c.processes).toList.splitOn ',' =
      (option ++ (choosing "DetHMSC" "init" c.initial).render).toList ::
        c.graph.map fun node =>
          '\n' :: (choosing node.1 (leaving node.1) node.2).render.toList := by
  have hlines : (",\n".intercalate c.processes).toList = [','].intercalate
      ((option ++ (choosing "DetHMSC" "init" c.initial).render).toList ::
        c.graph.map fun node =>
          '\n' :: (choosing node.1 (leaving node.1) node.2).render.toList) := by
    rw [String.toList_intercalate]
    unfold processes
    show [',', '\n'].intercalate _ = _
    rw [List.map_cons, intercalate_cons_mark, List.map_map, List.map_map]
    rfl
  rw [hlines]
  refine List.splitOn_intercalate ',' (fun piece hpiece => ?_) (by simp)
  rcases List.mem_cons.mp hpiece with rfl | hpiece
  · exact not_mem_processes hc (Or.inl rfl) List.mem_cons_self
  · obtain ⟨node, hnode, rfl⟩ := List.mem_map.mp hpiece
    rw [List.mem_cons, not_or]
    exact ⟨by decide, not_mem_processes hc (Or.inl rfl)
      (List.mem_cons_of_mem _ (List.mem_map.mpr ⟨node, hnode, rfl⟩))⟩

theorem readProcesses_eq (hc : c.Named) :
    readProcesses (",\n".intercalate c.processes).toList = (c.initial, c.graph) := by
  have hfirst : readNode ((option ++ (choosing "DetHMSC" "init" c.initial).render).toList.drop
      option.toList.length) = ("DetHMSC", c.initial) := by
    rw [String.toList_append, List.drop_left]
    exact readNode_choosing (by decide) (by decide) hc.initial
  have hnodes : (c.graph.map fun node =>
      '\n' :: (choosing node.1 (leaving node.1) node.2).render.toList).map
        (fun node => readNode node.tail) = c.graph := by
    rw [List.map_map]
    refine (List.map_congr_left fun node hnode => ?_).trans (List.map_id _)
    exact readNode_choosing (isWord_of_isIdentifier (hc.nodes node hnode))
      (isWord_leaving (hc.nodes node hnode)) (hc.targets node hnode)
  unfold readProcesses
  rw [splitOn_processes hc]
  dsimp only
  rw [hfirst, hnodes]

/-- The actions of a projection. -/
def actionList (scenarios : List String) : List Char :=
  '\x7b' :: ([',', ' '].intercalate (scenarios.map fun s => '_' :: s.toList) ++ ['\x7d'])

theorem readActions_actionList {scenarios : List String}
    (h : ∀ s ∈ scenarios, isIdentifier s = true) :
    readActions (actionList scenarios) = scenarios := by
  have hword : ∀ s ∈ scenarios, ('_' :: s.toList).filter isListed = '_' :: s.toList := by
    intro s hs
    refine List.filter_eq_self.mpr fun ch hch => ?_
    rw [← toList_leaving] at hch
    unfold isListed
    rw [Document.isLabelPart_of_isLetterOrDigit (isLetterOrDigit_of_mem_leaving (h s hs) hch),
      Bool.true_or]
  have hlisted : (actionList scenarios).filter isListed =
      [','].intercalate (scenarios.map fun s => '_' :: s.toList) := by
    have hmarks : ∀ inner : List Char, ('\x7b' :: (inner ++ ['\x7d'])).filter isListed =
        inner.filter isListed := by
      intro inner
      rw [List.filter_cons_of_neg (by decide), List.filter_append]
      exact List.append_nil _
    unfold actionList
    rw [hmarks, filter_intercalate, List.map_map]
    exact congrArg _ (List.map_congr_left hword)
  unfold readActions
  rw [hlisted]
  cases scenarios with
  | nil => rfl
  | cons s scenarios =>
      have hsome : ([','].intercalate ((s :: scenarios).map fun s => '_' :: s.toList)).isEmpty =
          false := by
        rw [List.map_cons]
        cases scenarios <;> simp [List.intercalate_cons_cons]
      have hsplit : ([','].intercalate ((s :: scenarios).map fun s => '_' :: s.toList)).splitOn
          ',' = (s :: scenarios).map fun s => '_' :: s.toList := by
        refine List.splitOn_intercalate ',' (fun action haction => ?_) (by simp)
        obtain ⟨s', hs', rfl⟩ := List.mem_map.mp haction
        rw [List.mem_cons, not_or]
        exact ⟨by decide, not_mem_of_isIdentifier (h s' hs') (by decide)⟩
      rw [hsome, hsplit, List.map_map]
      simp [Function.comp_def]

theorem toList_projectionSentence (p : String × List String) :
    (projectionSentence p).toList =
      opening.toList ++ (p.1.toList ++ " = DetHMSC".toList) ++ '@' :: actionList p.2 := by
  unfold projectionSentence actionList
  simp only [String.toList_append, String.toList_intercalate, List.map_map, List.append_assoc,
    Function.comp_def, toList_leaving]
  rfl

theorem not_mem_actionList {scenarios : List String} (h : ∀ s ∈ scenarios, isIdentifier s = true)
    {ch : Char} (hch : ch = '@' ∨ ch = '.') : ch ∉ actionList scenarios := by
  have hmarks : ch ≠ '\x7b' ∧ ch ≠ '\x7d' ∧ ch ≠ ',' ∧ ch ≠ ' ' ∧ ch ≠ '_' := by
    rcases hch with rfl | rfl <;> decide
  have hletter : isLetterOrDigit ch = false := by
    rcases hch with rfl | rfl <;> decide
  unfold actionList
  rw [List.mem_cons, List.mem_append, not_or, not_or]
  refine ⟨hmarks.1, fun hmem => ?_, fun hmem => hmarks.2.1 (List.mem_singleton.mp hmem)⟩
  rcases mem_intercalate hmem with hmark | ⟨_, haction, hmem⟩
  · simp [hmarks] at hmark
  · obtain ⟨s, hs, rfl⟩ := List.mem_map.mp haction
    rcases List.mem_cons.mp hmem with heq | hmem
    · exact hmarks.2.2.2.2 heq
    · exact not_mem_of_isIdentifier (h s hs) hletter hmem

theorem readProjection_projectionSentence {p : String × List String}
    (hname : isIdentifier p.1 = true) (hactive : ∀ s ∈ p.2, isIdentifier s = true) :
    readProjection (projectionSentence p).toList = p := by
  have hfront : '@' ∉ opening.toList ++ (p.1.toList ++ " = DetHMSC".toList) := by
    rw [List.mem_append, List.mem_append, not_or, not_or]
    exact ⟨by decide, not_mem_of_isIdentifier hname (by decide), by decide⟩
  have hsplit : (projectionSentence p).toList.splitOn '@' =
      [opening.toList ++ (p.1.toList ++ " = DetHMSC".toList), actionList p.2] := by
    have hpieces : (projectionSentence p).toList = ['@'].intercalate
        [opening.toList ++ (p.1.toList ++ " = DetHMSC".toList), actionList p.2] := by
      rw [toList_projectionSentence, List.intercalate_cons_cons, List.intercalate_singleton,
        List.append_assoc _ ['@']]
      rfl
    rw [hpieces]
    refine List.splitOn_intercalate '@' (fun piece hpiece => ?_) (by simp)
    rcases List.mem_cons.mp hpiece with rfl | hpiece
    · exact hfront
    · rw [List.mem_singleton.mp hpiece]
      exact not_mem_actionList hactive (Or.inl rfl)
  have hword : ∀ ch ∈ p.1.toList, decide (ch ≠ ' ') = true := by
    intro ch hch
    rw [decide_eq_true_eq]
    rintro rfl
    exact not_mem_of_isIdentifier hname (by decide) hch
  have hblank : " = DetHMSC".toList.takeWhile (fun ch => decide (ch ≠ ' ')) = [] := by decide
  unfold readProjection
  rw [hsplit]
  dsimp only
  rw [List.drop_left, List.takeWhile_append_of_pos hword, hblank, List.append_nil,
    String.ofList_toList, readActions_actionList hactive]

theorem not_mem_composedSentence (hc : c.Named) : '.' ∉ c.composedSentence.toList := by
  unfold composedSentence
  simp only [String.toList_append, String.toList_intercalate, List.mem_append, not_or]
  refine ⟨⟨by decide, fun hmem => ?_⟩, by decide⟩
  rcases mem_intercalate hmem with hmark | ⟨_, hname, hmem⟩
  · exact absurd hmark (by decide)
  · rw [List.map_map] at hname
    obtain ⟨p, hp, rfl⟩ := List.mem_map.mp hname
    rw [Function.comp_apply, String.toList_append, List.mem_append] at hmem
    rcases hmem with hmem | hmem
    · exact absurd hmem (by decide)
    · exact not_mem_of_isIdentifier (hc.components p hp) (by decide) hmem

/-- Points stand behind the sentences only. -/
theorem not_mem_sentences (hc : c.Named) {s : String} (hs : s ∈ c.sentences) :
    '.' ∉ s.toList := by
  have hlast : ∀ s ∈ ["||Check = (HSMC || ComposedHMSC)", ""], '.' ∉ s.toList := by decide
  rcases List.mem_cons.mp hs with rfl | hs
  · rw [String.toList_intercalate]
    intro hmem
    rcases mem_intercalate hmem with hmark | ⟨_, hprocess, hmem⟩
    · exact absurd hmark (by decide)
    · obtain ⟨p, hp, rfl⟩ := List.mem_map.mp hprocess
      exact not_mem_processes hc (Or.inr rfl) hp hmem
  rcases List.mem_cons.mp hs with rfl | hs
  · decide
  rcases List.mem_append.mp hs with hs | hs
  · obtain ⟨p, hp, rfl⟩ := List.mem_map.mp hs
    rw [toList_projectionSentence, List.mem_append, List.mem_append, List.mem_append,
      List.mem_cons]
    simp only [not_or]
    exact ⟨⟨by decide, not_mem_of_isIdentifier (hc.components p hp) (by decide), by decide⟩,
      by decide, not_mem_actionList (hc.active p hp) (Or.inr rfl)⟩
  · rcases List.mem_cons.mp hs with rfl | hs
    · exact not_mem_composedSentence hc
    · exact hlast s hs

/-- **A cross-check is read back from its text.** -/
theorem read_render (hc : c.Named) : read c.render = c := by
  have hlines : c.render.toList = ['.'].intercalate ((",\n".intercalate c.processes).toList ::
      c.sentences.tail.map fun s => '\n' :: s.toList) := by
    rw [render_eq, String.toList_intercalate]
    show ['.', '\n'].intercalate _ = _
    unfold sentences
    rw [List.map_cons, intercalate_cons_mark, List.map_map]
    rfl
  have hsplit : c.render.toList.splitOn '.' =
      (",\n".intercalate c.processes).toList :: c.sentences.tail.map fun s => '\n' :: s.toList := by
    rw [hlines]
    refine List.splitOn_intercalate '.' (fun sentence hsentence => ?_) (by simp)
    rcases List.mem_cons.mp hsentence with rfl | hsentence
    · exact not_mem_sentences hc List.mem_cons_self
    · obtain ⟨s, hs, rfl⟩ := List.mem_map.mp hsentence
      rw [List.mem_cons, not_or]
      exact ⟨by decide, not_mem_sentences hc (List.mem_of_mem_tail hs)⟩
  have hprojections : ∀ rest : List (List Char), rest.length = 3 →
      (((c.projections.map fun p => '\n' :: (projectionSentence p).toList) ++ rest).rdrop 3).map
        (fun sentence => readProjection sentence.tail) = c.projections := by
    intro rest hrest
    rw [← hrest, List.rdrop_append_length, List.map_map]
    refine (List.map_congr_left fun p hp => ?_).trans (List.map_id _)
    exact readProjection_projectionSentence (hc.components p hp) (hc.active p hp)
  unfold read
  rw [hsplit]
  unfold sentences
  rw [List.tail_cons, List.map_cons, List.map_append, List.map_map]
  dsimp only
  rw [readProcesses_eq hc]
  exact congrArg (CrossCheck.mk c.initial c.graph) (hprojections _ rfl)

end Reading

end CrossCheck

end Fsp

/-! ## What the text depends on -/

/-- The scenarios in which a component does something. -/
def Component.active (c : Component) : List ScenarioId :=
  (c.lifelines.entries.filter fun entry => !entry.2.isEmpty).map Prod.fst

section Active

variable {c c' : Component} {id : ScenarioId}

theorem Component.mem_active_iff : id ∈ c.active ↔ c.lifeline id ≠ [] := by
  have hentry : id ∈ c.active ↔ ∃ events, c.lifelines.get? id = some events ∧ events ≠ [] := by
    unfold active
    simp only [List.mem_map, List.mem_filter, Bool.not_eq_true', List.isEmpty_eq_false_iff]
    refine ⟨fun h => ?_, fun h => ?_⟩
    · obtain ⟨⟨_, events⟩, ⟨hmem, hevents⟩, rfl⟩ := h
      exact ⟨events, OrderedMap.get?_eq_some_iff.mpr hmem, hevents⟩
    · obtain ⟨events, hget, hevents⟩ := h
      exact ⟨(id, events), ⟨OrderedMap.get?_eq_some_iff.mp hget, hevents⟩, rfl⟩
  rw [hentry]
  unfold Component.lifeline
  cases c.lifelines.get? id with
  | none => simp
  | some events => simp

/-- The numbers are listed in order, so that they are the same list if they are the same set. -/
theorem Component.active_eq_iff :
    c.active = c'.active ↔ ∀ id, c.lifeline id ≠ [] ↔ c'.lifeline id ≠ [] := by
  have hsorted : ∀ c : Component, c.active.Pairwise fun a b => Ordered.before a b = true :=
    fun c => c.lifelines.keys_sorted.sublist (List.filter_sublist.map Prod.fst)
  refine ⟨fun h id => ?_, fun h => ?_⟩
  · rw [← Component.mem_active_iff, h, Component.mem_active_iff]
  · refine Ordered.eq_of_mem_iff (fun hab => by simp [Ordered.before_asymm hab]) (hsorted c) (hsorted c')
      fun id => ?_
    rw [Component.mem_active_iff, h id, Component.mem_active_iff]

end Active

namespace Specification

variable {spec spec' : Specification}

/-- The names of scenarios and components are identifiers. -/
structure Named (spec : Specification) : Prop where
  scenarios : ∀ name ∈ spec.scenarios, Document.isIdentifier name = true
  components : ∀ c ∈ spec.components, Document.isIdentifier c.name = true

/-- What a cross-check is about: which scenario may follow which or come first, and where the
components do something. -/
structure SameGraph (spec spec' : Specification) : Prop where
  scenarios : spec.scenarios = spec'.scenarios
  initial : spec.initial = spec'.initial
  continuations : ∀ id, spec.continuations id = spec'.continuations id
  components : spec.components.map Component.name = spec'.components.map Component.name
  active : ∀ (cid : ComponentId) (c c' : Component), spec.component? cid = some c →
    spec'.component? cid = some c' → ∀ id, c.lifeline id ≠ [] ↔ c'.lifeline id ≠ []

theorem namedProjection_eq (c : Component) :
    spec.namedProjection c = (c.name, c.active.map spec.nameOf) := by
  unfold namedProjection Component.active
  rw [List.map_map]
  rfl

theorem nameOf_congr (h : spec.scenarios = spec'.scenarios) : spec.nameOf = spec'.nameOf := by
  funext id
  unfold nameOf scenario?
  rw [h]

theorem declares_congr (h : spec.scenarios = spec'.scenarios) : spec.declares = spec'.declares := by
  funext id
  unfold declares
  rw [h]

theorem scenarioIds_congr (h : spec.scenarios = spec'.scenarios) :
    spec.scenarioIds = spec'.scenarioIds := by
  unfold scenarioIds
  rw [h]

/-- Different lists of declared scenarios have different names. -/
theorem eq_of_map_nameOf {ids ids' : List ScenarioId} (h : ∀ id ∈ ids, spec.declares id = true)
    (h' : ∀ id ∈ ids', spec.declares id = true) (heq : ids.map spec.nameOf = ids'.map spec.nameOf) :
    ids = ids' := by
  rw [← filterMap_scenarioNamed? h, heq, filterMap_scenarioNamed? h']

namespace Closed

theorem declares_continuations (h : spec.Closed) {id t : ScenarioId}
    (ht : t ∈ spec.continuations id) : spec.declares t = true := by
  obtain ⟨e, he, rfl⟩ := List.mem_map.mp ht
  exact h _ (.target (List.mem_of_mem_filter he))

theorem declares_active (h : spec.Closed) {c : Component} (hc : c ∈ spec.components)
    {id : ScenarioId} (hid : id ∈ c.active) : spec.declares id = true := by
  obtain ⟨entry, hentry, rfl⟩ := List.mem_map.mp hid
  exact h _ (.lifeline hc (List.mem_map_of_mem (List.mem_of_mem_filter hentry)))

/-- Nothing follows what is not declared. -/
theorem continuations_eq_nil (h : spec.Closed) {id : ScenarioId} (hid : spec.declares id = false) :
    spec.continuations id = [] := by
  refine List.map_eq_nil_iff.mpr (List.filter_eq_nil_iff.mpr fun e he hsource => ?_)
  have hdeclared := h _ (.source he)
  rw [of_decide_eq_true hsource, hid] at hdeclared
  exact absurd hdeclared (by simp)

theorem named_crossCheck (h : spec.Closed) (hnames : spec.Named) :
    (Fsp.CrossCheck.ofSpecification spec).Named := by
  have hname : ∀ id, spec.declares id = true → Document.isIdentifier (spec.nameOf id) = true :=
    fun id hid => hnames.scenarios _ (nameOf_mem hid)
  rw [h.crossCheck_eq]
  refine ⟨fun s hs => ?_, fun node hnode => ?_, fun node hnode s hs => ?_, fun p hp => ?_,
    fun p hp s hs => ?_⟩
  · obtain ⟨id, hid, rfl⟩ := List.mem_map.mp hs
    exact hname id (h _ (.initial hid))
  · obtain ⟨id, hid, rfl⟩ := List.mem_map.mp hnode
    exact hname id (mem_scenarioIds_iff.mp hid)
  · obtain ⟨id, -, rfl⟩ := List.mem_map.mp hnode
    obtain ⟨t, ht, rfl⟩ := List.mem_map.mp hs
    exact hname t (h.declares_continuations ht)
  · obtain ⟨c, hc, rfl⟩ := List.mem_map.mp hp
    exact hnames.components c hc
  · obtain ⟨c, hc, rfl⟩ := List.mem_map.mp hp
    rw [namedProjection_eq] at hs
    obtain ⟨id, hid, rfl⟩ := List.mem_map.mp hs
    exact hname id (h.declares_active hc hid)

end Closed

theorem SameGraph.crossCheck_eq (hsame : spec.SameGraph spec') (h : spec.Closed)
    (h' : spec'.Closed) :
    Fsp.CrossCheck.ofSpecification spec = Fsp.CrossCheck.ofSpecification spec' := by
  have hname := nameOf_congr hsame.scenarios
  have hnode : spec.namedNode = spec'.namedNode := by
    funext id
    unfold namedNode
    rw [hname, hsame.continuations]
  have hprojections : spec.components.map spec.namedProjection =
      spec'.components.map spec'.namedProjection := by
    have hlength : spec.components.length = spec'.components.length := by
      simpa using congrArg List.length hsame.components
    refine List.ext_getElem (by simpa using hlength) fun i hi hi' => ?_
    rw [List.length_map] at hi hi'
    have hactive : (spec.components[i]).active = (spec'.components[i]).active :=
      Component.active_eq_iff.mpr (hsame.active ⟨i⟩ _ _ (List.getElem?_eq_getElem hi)
        (List.getElem?_eq_getElem hi'))
    have hcomponent : (spec.components[i]).name = (spec'.components[i]).name := by
      have hget := congrArg (fun names => names[i]?) hsame.components
      simpa [hi, hi'] using hget
    rw [List.getElem_map, List.getElem_map, namedProjection_eq, namedProjection_eq, hactive, hname,
      hcomponent]
  rw [h.crossCheck_eq, h'.crossCheck_eq, hsame.initial, hname, hnode,
    scenarioIds_congr hsame.scenarios, hprojections]

theorem sameGraph_of_crossCheck_eq (h : spec.Closed) (h' : spec'.Closed)
    (heq : Fsp.CrossCheck.ofSpecification spec = Fsp.CrossCheck.ofSpecification spec') :
    spec.SameGraph spec' := by
  rw [h.crossCheck_eq, h'.crossCheck_eq, Fsp.CrossCheck.mk.injEq] at heq
  obtain ⟨hinitial, hgraph, hprojections⟩ := heq
  have hscenarios : spec.scenarios = spec'.scenarios := by
    have hfirst := congrArg (List.map Prod.fst) hgraph
    rw [List.map_map, List.map_map] at hfirst
    rw [← map_nameOf_scenarioIds, ← map_nameOf_scenarioIds]
    exact hfirst
  have hname := nameOf_congr hscenarios
  have hsame := declares_congr hscenarios
  have hdeclares : ∀ {id}, spec'.declares id = true → spec.declares id = true := fun hid =>
    (congrFun hsame _).trans hid
  refine ⟨hscenarios, ?_, fun id => ?_, ?_, fun cid c c' hc hc' => ?_⟩
  · rw [← hname] at hinitial
    exact eq_of_map_nameOf (fun id hid => h _ (.initial hid))
      (fun id hid => hdeclares (h' _ (.initial hid))) hinitial
  · cases hid : spec.declares id with
    | false =>
        rw [h.continuations_eq_nil hid,
          h'.continuations_eq_nil ((congrFun hsame id).symm.trans hid)]
    | true =>
        rw [← scenarioIds_congr hscenarios, List.map_inj_left] at hgraph
        have hnode := congrArg Prod.snd (hgraph id (mem_scenarioIds_iff.mpr hid))
        unfold namedNode at hnode
        rw [← hname] at hnode
        exact eq_of_map_nameOf (fun _ => h.declares_continuations)
          (fun _ ht => hdeclares (h'.declares_continuations ht)) hnode
  · have hfirst := congrArg (List.map Prod.fst) hprojections
    rw [List.map_map, List.map_map] at hfirst
    exact hfirst
  · have hget := congrArg (fun projections => projections[cid.index]?) hprojections
    unfold component? at hc hc'
    simp only [List.getElem?_map, hc, hc', Option.map_some, Option.some.injEq, namedProjection_eq,
      Prod.mk.injEq, ← hname] at hget
    exact Component.active_eq_iff.mp (eq_of_map_nameOf
      (fun _ => h.declares_active (List.mem_of_getElem? hc))
      (fun _ hid => hdeclares (h'.declares_active (List.mem_of_getElem? hc') hid)) hget.2)

/--
**The text of the cross-check says what it is about, and nothing else.** If no reference
dangles and all names are identifiers, two specifications have the same text exactly if
their scenarios, the scenarios that come first, the continuations of every scenario and
the names of the components are the same and in the same order, and if every component
does something in the same scenarios.
-/
theorem render_crossCheck_eq_iff (h : spec.Closed) (hnames : spec.Named) (h' : spec'.Closed)
    (hnames' : spec'.Named) :
    (Fsp.CrossCheck.ofSpecification spec).render =
        (Fsp.CrossCheck.ofSpecification spec').render ↔ spec.SameGraph spec' := by
  refine ⟨fun htext => sameGraph_of_crossCheck_eq h h' ?_, fun hsame => ?_⟩
  · have hread := congrArg Fsp.CrossCheck.read htext
    rw [Fsp.CrossCheck.read_render (h.named_crossCheck hnames),
      Fsp.CrossCheck.read_render (h'.named_crossCheck hnames')] at hread
    exact hread
  · rw [hsame.crossCheck_eq h h']

/-- Other messages, no final scenario, and an empty lifeline where there was none. -/
def rewordedSession : Specification :=
  { session with
    components := [⟨"User", ⟨[(⟨0⟩, [.message "hello"]), (⟨1⟩, []), (⟨2⟩, [.condition "Init"])],
      by decide⟩⟩, server]
    finals := []
    components_nodup := by decide
    finals_nodup := by decide }

/-- The server does nothing at the end. -/
def idleSession : Specification :=
  { session with
    components := [user, ⟨"Server", ⟨[(⟨0⟩, [.message "login"]), (⟨2⟩, [])], by decide⟩⟩]
    components_nodup := by decide }

theorem render_crossCheck_eq_iff_session :
    (session.SameGraph rewordedSession ∧
      (Fsp.CrossCheck.ofSpecification session).render =
        (Fsp.CrossCheck.ofSpecification rewordedSession).render) ∧
    (Fsp.CrossCheck.ofSpecification session).render ≠
      (Fsp.CrossCheck.ofSpecification idleSession).render := by
  have hclosed : session.Closed := closed_iff.mpr (by decide)
  have hnames : session.Named := ⟨by decide, by decide⟩
  have hsame := @render_crossCheck_eq_iff session rewordedSession hclosed hnames
    (closed_iff.mpr (by decide)) ⟨by decide, by decide⟩
  have hother := @render_crossCheck_eq_iff session idleSession hclosed hnames
    (closed_iff.mpr (by decide)) ⟨by decide, by decide⟩
  have htext : (Fsp.CrossCheck.ofSpecification session).render =
      (Fsp.CrossCheck.ofSpecification rewordedSession).render := by decide +kernel
  refine ⟨⟨hsame.mp htext, htext⟩, fun heq => ?_⟩
  exact absurd ((hother.mp heq).active ⟨1⟩ _ _ rfl rfl ⟨2⟩) (by decide)

end Specification

end ScenarioFsp
