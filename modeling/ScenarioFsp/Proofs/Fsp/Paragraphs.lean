import ScenarioFsp.Proofs.Fsp.TopLevel

/-!
# The definitions of a listing and of a cross-check

The text of a component's process is one definition, whatever its local processes are. So is the
flow graph with its scenarios, and every composition is one on a line of its own. So a listing is
read as the components and the system (`topLevel_renderListing`), and a cross-check as the graph,
its property, the projections, their composition and the check (`CrossCheck.topLevel_render`), in
the order of the text and each with the words that are mentioned.
-/

namespace ScenarioFsp

namespace Fsp

open Document (isIdentifier isLetterOrDigit)

/-! ## Names -/

section Names

variable {s : String} {parts : List String}

theorem isName_of_isIdentifier (h : isIdentifier s = true) : IsName s :=
  ⟨toList_ne_nil_of_isSpelled h, List.all_eq_true.mpr fun _ =>
    CrossCheck.isLetterOrDigit_of_isIdentifier h⟩

theorem IsName.leaving (h : IsName s) : IsName (CrossCheck.leaving s) := h.append (by decide)

/-- The name of a projection. -/
def projected (component : String) : String := "Det" ++ component

theorem IsName.projected (h : IsName s) : IsName (projected s) := h.append (by decide)

theorem projected_injective {s t : String} (h : projected s = projected t) : s = t :=
  String.append_right_inj _ |>.mp h

/-- The parallel composition of some processes. -/
def composition (front name : String) (parts : List String) : Paragraph :=
  .ofLine front name ("(" ++ " || ".intercalate parts ++ ")")

theorem told_composition (front name : String) (h : ∀ part ∈ parts, IsName part) :
    (composition front name parts).told = ⟨front, name, parts⟩ := by
  refine congrArg (TopLevel.mk front name) ?_
  exact (wordsOf_between (by decide) (by decide) (by decide) (by decide) parts).trans
    (flatMap_wordsOf_names h)

end Names

/-! ## Lines -/

section Lines

variable {front name body : String} {parts : List String}

theorem not_mem_intercalate {separator : String} {ch : Char} (hseparator : ch ∉ separator.toList)
    (h : ∀ part ∈ parts, ch ∉ part.toList) : ch ∉ (separator.intercalate parts).toList := by
  rw [String.toList_intercalate]
  intro hmem
  rcases mem_intercalate hmem with hmem | ⟨_, hpart, hmem⟩
  · exact hseparator hmem
  · obtain ⟨part, hmember, rfl⟩ := List.mem_map.mp hpart
    exact h part hmember hmem

theorem tidy_ofLine (hfront : Paragraph.IsFront front) (hname : IsName name)
    (hbody : '\n' ∉ body.toList) : (Paragraph.ofLine front name body).Tidy :=
  ⟨hfront, hname, hbody, fun _ h => absurd h List.not_mem_nil, List.not_mem_nil, fun _ => rfl⟩

theorem tidy_composition (hfront : Paragraph.IsFront front) (hname : IsName name)
    (hparts : ∀ part ∈ parts, IsName part) : (composition front name parts).Tidy := by
  refine tidy_ofLine hfront hname ?_
  rw [String.toList_append, String.toList_append, List.mem_append, List.mem_append, not_or, not_or]
  exact ⟨⟨by decide, not_mem_intercalate (by decide) fun part hpart =>
    (hparts part hpart).not_mem (by decide)⟩, by decide⟩

/-- The definition of a local process has no line end in it. -/
theorem LocalProcess.Worded.not_mem_render {l : LocalProcess} (h : l.Worded) :
    '\n' ∉ l.render.toList := by
  have hword : ∀ s, isWord s = true → ∀ ch ∈ s.toList, decide (ch ≠ '\n') = true := by
    intro s hs ch hch
    rw [decide_eq_true_eq]
    rintro rfl
    exact not_mem_of_isWord hs (by decide) hch
  intro hmem
  have hall := LocalProcess.forall_mem_render (by decide) (hword _ h.name)
    (fun choice hchoice s hs => hword s (h.symbols choice hchoice s hs)) _ hmem
  exact absurd hall (by decide)

theorem LocalProcess.Worded.not_mem_body {l : LocalProcess} (h : l.Worded) :
    '\n' ∉ (Definition.ofLocal l).body.toList := by
  intro hmem
  refine h.not_mem_render ?_
  rw [LocalProcess.render_eq]
  unfold Definition.render
  rw [String.toList_append]
  exact List.mem_append_right _ hmem

/-- The words of a choice are its actions and the name to go on with. -/
theorem LocalProcess.wordsOf_body {l : LocalProcess}
    (h : ∀ choice ∈ l.choices, ∀ s ∈ choice, IsName s) :
    wordsOf (Definition.ofLocal l).body.toList =
      if l.choices = [] then ["STOP"] else l.choices.flatten := by
  obtain ⟨name, choices⟩ := l
  have hchoice : ∀ choice ∈ choices, wordsOf (renderChoice choice).toList = choice := by
    intro choice hmem
    rw [toList_renderChoice, wordsOf_intercalate (by decide) (by decide), List.flatMap_map]
    exact flatMap_wordsOf_names (h choice hmem)
  unfold Definition.ofLocal
  dsimp only
  by_cases hnone : choices = []
  · have hstop : IsName "STOP" := by decide
    rw [hnone]
    exact hstop.wordsOf
  · rw [if_neg (by simpa using hnone), if_neg hnone,
      wordsOf_between (by decide) (by decide) (by decide) (by decide), List.flatMap_map,
      List.flatMap_congr hchoice, List.flatMap_id']

end Lines

/-! ## The process of a component -/

namespace Process

variable {p : Process}

/-- What stands in front of the name of a component's process. -/
def front (deterministic : Bool) : String :=
  (if deterministic then "deterministic " else "") ++ "minimal "

/-- The process of a component as one definition. -/
def paragraph (p : Process) : Paragraph :=
  ⟨front p.deterministic, p.name, Grammar.start, p.definitions.map Definition.render,
    p.closing.hiding⟩

/-- An empty line stands behind the process. -/
theorem render_eq_paragraph (p : Process) : p.render = p.paragraph.render ++ "\n" := by
  have hfirst : p.heading = p.paragraph.first := by
    unfold heading Paragraph.first paragraph front
    simp only [String.append_assoc]
    rfl
  rw [Process.render_eq, hfirst]
  show p.paragraph.sentence ++ (".\n" ++ "\n") = p.paragraph.sentence ++ ".\n" ++ "\n"
  rw [String.append_assoc]

theorem not_mem_definition (h : p.Worded) {d : Definition} (hd : d ∈ p.definitions) :
    '\n' ∉ d.render.toList := by
  rcases List.mem_append.mp hd with hlocal | hshared
  · obtain ⟨l, hl, rfl⟩ := List.mem_map.mp hlocal
    rw [← LocalProcess.render_eq]
    exact (h.locals l hl).not_mem_render
  · split at hshared
    · rw [List.mem_singleton.mp hshared]
      decide +kernel
    · exact absurd hshared List.not_mem_nil

theorem tidy_paragraph (h : p.Worded) (hname : IsName p.name) (hlocals : p.locals ≠ []) :
    p.paragraph.Tidy := by
  have hfront : ∀ deterministic, Paragraph.IsFront (front deterministic) := by decide
  have hstart : '\n' ∉ Grammar.start.toList := by decide
  refine ⟨hfront _, hname, hstart, fun l hl => ?_, ?_, fun hnone => ?_⟩
  · obtain ⟨d, hd, rfl⟩ := List.mem_map.mp hl
    exact not_mem_definition h hd
  · show '\n' ∉ p.closing.hiding.toList
    cases p.closing <;> decide
  · have hall := List.map_eq_nil_iff.mp hnone
    unfold definitions at hall
    exact absurd (List.map_eq_nil_iff.mp (List.append_eq_nil_iff.mp hall).1) hlocals

theorem topLevel_render (h : p.Worded) (hname : IsName p.name) (hlocals : p.locals ≠ [])
    (rest : List Char) : topLevel (p.render.toList ++ rest) =
      ⟨front p.deterministic, p.name, [Grammar.start]⟩ :: topLevel rest := by
  have htold : p.paragraph.told = ⟨front p.deterministic, p.name, [Grammar.start]⟩ := by
    have hstart : IsName Grammar.start := by decide
    exact congrArg (TopLevel.mk _ _) hstart.wordsOf
  rw [render_eq_paragraph, String.toList_append, List.append_assoc,
    (tidy_paragraph h hname hlocals).topLevel_append, htold]
  exact congrArg _ (topLevel_skip List.not_mem_nil List.not_mem_nil rfl rest)

end Process

/-! ## The definitions of a cross-check -/

namespace CrossCheck

variable {c : CrossCheck}

/-- The flow graph as one definition. -/
def graphParagraph (c : CrossCheck) : Paragraph :=
  ⟨option, "DetHMSC", (Definition.ofLocal (choosing "DetHMSC" "init" c.initial)).body,
    c.graph.map fun node => (choosing node.1 (leaving node.1) node.2).render, ""⟩

/-- The property that the graph is taken for, without its first step. -/
def propertyParagraph : Paragraph := .ofLine "property ||" "HSMC" "DetHMSC\\\x7binit\x7d"

/-- The projection of a component. -/
def projectionParagraph (p : String × List String) : Paragraph :=
  .ofLine "deterministic ||" (projected p.1)
    ("DetHMSC@\x7b" ++ ", ".intercalate (p.2.map leaving) ++ "\x7d")

/-- The composition of all projections. -/
def composedParagraph (c : CrossCheck) : Paragraph :=
  composition "deterministic ||" "ComposedHMSC" (c.projections.map fun p => projected p.1)

/-- The composition that is checked. -/
def checkParagraph : Paragraph := composition "||" "Check" ["HSMC", "ComposedHMSC"]

/-- The text of a cross-check is a sequence of paragraphs. -/
def paragraphs (c : CrossCheck) : List Paragraph :=
  c.graphParagraph :: propertyParagraph ::
    (c.projections.map projectionParagraph ++ [c.composedParagraph, checkParagraph])

theorem sentence_graphParagraph (c : CrossCheck) :
    c.graphParagraph.sentence = ",\n".intercalate c.processes := by
  have hfirst : c.graphParagraph.first =
      option ++ (choosing "DetHMSC" "init" c.initial).render := by
    rw [LocalProcess.render_eq]
    unfold Definition.render
    rw [← String.append_assoc, ← String.append_assoc]
    rfl
  unfold Paragraph.sentence processes
  rw [hfirst]
  exact String.append_empty

theorem sentence_projectionParagraph (p : String × List String) :
    (projectionParagraph p).sentence = projectionSentence p := by
  have hopening : opening = "deterministic ||" ++ "Det" := rfl
  have hequals : " = DetHMSC@\x7b" = " = " ++ "DetHMSC@\x7b" := rfl
  unfold projectionParagraph projectionSentence projected
  rw [Paragraph.sentence_ofLine, hopening, hequals]
  simp only [String.append_assoc]

theorem sentence_composedParagraph (c : CrossCheck) :
    c.composedParagraph.sentence = c.composedSentence := by
  unfold composedParagraph composition composedSentence
  rw [Paragraph.sentence_ofLine, ← String.append_assoc, ← String.append_assoc]
  rfl

/-- A point stands behind every paragraph. -/
theorem render_eq_join (c : CrossCheck) :
    c.render = String.join (c.paragraphs.map Paragraph.render) := by
  have hprojections : c.projections.map (Paragraph.sentence ∘ projectionParagraph) =
      c.projections.map projectionSentence :=
    List.map_congr_left fun p _ => sentence_projectionParagraph p
  have hsentences : c.sentences = c.paragraphs.map Paragraph.sentence ++ [""] := by
    unfold sentences paragraphs
    rw [List.map_cons, List.map_cons, List.map_append, List.map_map, hprojections,
      sentence_graphParagraph]
    simp only [List.map_cons, List.map_nil, sentence_composedParagraph, List.cons_append,
      List.append_assoc, List.nil_append]
    rfl
  rw [render_eq, hsentences, ← join_eq_intercalate_concat, List.map_map]
  rfl

/-! ### What is told of them -/

/-- The graph refers to its initial scenarios behind `init`; without any it stops. -/
def graphDefinition (c : CrossCheck) : TopLevel :=
  ⟨"deterministic ", "DetHMSC",
    if c.initial = [] then ["STOP"] else c.initial.flatMap fun s => ["init", s]⟩

/-- The property refers to the graph, and to the action that it hides. -/
def propertyDefinition : TopLevel := ⟨"property ||", "HSMC", ["DetHMSC", "init"]⟩

/-- A projection refers to the graph, and to the actions of leaving its scenarios. -/
def projectionDefinition (p : String × List String) : TopLevel :=
  ⟨"deterministic ||", projected p.1, "DetHMSC" :: p.2.map leaving⟩

/-- The composition refers to the projection of each component. -/
def composedDefinition (c : CrossCheck) : TopLevel :=
  ⟨"deterministic ||", "ComposedHMSC", c.projections.map fun p => projected p.1⟩

/-- The check refers to the property and to the composition. -/
def checkDefinition : TopLevel := ⟨"||", "Check", ["HSMC", "ComposedHMSC"]⟩

/-- What the text of a cross-check defines. -/
def definitions (c : CrossCheck) : List TopLevel :=
  c.graphDefinition :: propertyDefinition ::
    (c.projections.map projectionDefinition ++ [c.composedDefinition, checkDefinition])

theorem told_graphParagraph (h : ∀ s ∈ c.initial, isIdentifier s = true) :
    c.graphParagraph.told = c.graphDefinition := by
  have hinit : IsName "init" := by decide
  have hwords := LocalProcess.wordsOf_body (l := choosing "DetHMSC" "init" c.initial)
    fun choice hchoice s hs => by
      obtain ⟨target, htarget, rfl⟩ := List.mem_map.mp hchoice
      rcases List.mem_cons.mp hs with rfl | hs
      · exact hinit
      · rw [List.mem_singleton.mp hs]
        exact isName_of_isIdentifier (h target htarget)
  refine congrArg (TopLevel.mk _ _) (hwords.trans ?_)
  unfold choosing
  simp only [List.map_eq_nil_iff, List.flatMap]

theorem told_projectionParagraph {p : String × List String}
    (h : ∀ s ∈ p.2, isIdentifier s = true) :
    (projectionParagraph p).told = projectionDefinition p := by
  have hactions : ∀ action ∈ p.2.map leaving, IsName action := by
    intro action haction
    obtain ⟨s, hs, rfl⟩ := List.mem_map.mp haction
    exact (isName_of_isIdentifier (h s hs)).leaving
  have hgraph : IsName "DetHMSC" := by decide
  refine congrArg (TopLevel.mk _ _) ?_
  have htext : ("DetHMSC@\x7b" ++ ", ".intercalate (p.2.map leaving) ++ "\x7d").toList =
      "DetHMSC".toList ++ "@\x7b".toList ++
        ("" ++ ", ".intercalate (p.2.map leaving) ++ "\x7d").toList := by
    simp only [String.toList_append, List.append_assoc]
    rfl
  show wordsOf ("DetHMSC@\x7b" ++ ", ".intercalate (p.2.map leaving) ++ "\x7d").toList = _
  rw [htext, wordsOf_append_marks (by decide) (by decide), hgraph.wordsOf,
    wordsOf_between (by decide) (by decide) (by decide) (by decide),
    flatMap_wordsOf_names hactions]
  rfl

theorem told_propertyParagraph : propertyParagraph.told = propertyDefinition := by
  decide +kernel

theorem isName_of_mem_projections (h : c.Named) {name : String}
    (hname : name ∈ c.projections.map fun p => projected p.1) : IsName name := by
  obtain ⟨p, hp, rfl⟩ := List.mem_map.mp hname
  exact (isName_of_isIdentifier (h.components p hp)).projected

theorem told_composedParagraph (h : c.Named) : c.composedParagraph.told = c.composedDefinition :=
  told_composition _ _ fun _ => isName_of_mem_projections h

theorem told_checkParagraph : checkParagraph.told = checkDefinition :=
  told_composition _ _ (by decide)

/-! ### Reading them -/

theorem tidy_graphParagraph (h : c.Named) : c.graphParagraph.Tidy := by
  have hchoosing : (choosing "DetHMSC" "init" c.initial).Worded :=
    worded_choosing (by decide) (by decide) h.initial
  have hfront : Paragraph.IsFront option := by decide
  have hgraph : IsName "DetHMSC" := by decide
  refine ⟨hfront, hgraph, hchoosing.not_mem_body, fun l hl => ?_, List.not_mem_nil, fun _ => rfl⟩
  obtain ⟨node, hnode, rfl⟩ := List.mem_map.mp hl
  have hname := h.nodes node hnode
  exact (worded_choosing (isWord_of_isIdentifier hname) (isWord_leaving hname)
    (h.targets node hnode)).not_mem_render

theorem tidy_projectionParagraph {p : String × List String} (hname : isIdentifier p.1 = true)
    (h : ∀ s ∈ p.2, isIdentifier s = true) : (projectionParagraph p).Tidy := by
  refine tidy_ofLine (by decide) (isName_of_isIdentifier hname).projected ?_
  rw [String.toList_append, String.toList_append, List.mem_append, List.mem_append, not_or, not_or]
  refine ⟨⟨by decide, not_mem_intercalate (by decide) fun action haction => ?_⟩, by decide⟩
  obtain ⟨s, hs, rfl⟩ := List.mem_map.mp haction
  exact (isName_of_isIdentifier (h s hs)).leaving.not_mem (by decide)

theorem tidy_of_mem_paragraphs (h : c.Named) {p : Paragraph} (hp : p ∈ c.paragraphs) :
    p.Tidy := by
  rcases List.mem_cons.mp hp with rfl | hp
  · exact tidy_graphParagraph h
  rcases List.mem_cons.mp hp with rfl | hp
  · exact tidy_ofLine (by decide) (by decide) (by decide)
  rcases List.mem_append.mp hp with hp | hp
  · obtain ⟨projection, hprojection, rfl⟩ := List.mem_map.mp hp
    exact tidy_projectionParagraph (h.components _ hprojection) (h.active _ hprojection)
  rcases List.mem_cons.mp hp with rfl | hp
  · exact tidy_composition (by decide) (by decide) fun _ => isName_of_mem_projections h
  · rw [List.mem_singleton.mp hp]
    exact tidy_composition (by decide) (by decide) (by decide)

theorem topLevel_render (h : c.Named) : topLevel c.render.toList = c.definitions := by
  have hread : topLevel ((String.join (c.paragraphs.map Paragraph.render)).toList ++ []) =
      c.paragraphs.map Paragraph.told ++ topLevel [] :=
    topLevel_join (fun p hp => (tidy_of_mem_paragraphs h hp).topLevel_append) []
  have hprojections : c.projections.map (Paragraph.told ∘ projectionParagraph) =
      c.projections.map projectionDefinition :=
    List.map_congr_left fun p hp => told_projectionParagraph (h.active p hp)
  rw [List.append_nil, ← render_eq_join] at hread
  rw [hread]
  unfold paragraphs definitions
  rw [List.map_cons, List.map_cons, List.map_append, List.map_map, hprojections,
    told_graphParagraph h.initial, told_propertyParagraph, List.map_cons, List.map_cons,
    told_composedParagraph h, told_checkParagraph]
  exact List.append_nil _

end CrossCheck

/-! ## The definitions of a listing -/

/-- What the listing needs of a synthesised component. -/
structure Listed (sc : SynthesisedComponent) : Prop where
  name : isIdentifier sc.name = true
  wellFormed : sc.grammar.WellFormed
  worded : Worded sc.grammar

section Listing

variable {components : List SynthesisedComponent} {listing : String} {deterministic : Bool}

theorem Listed.topLevel_render {sc : SynthesisedComponent} (h : Listed sc) (deterministic : Bool)
    (rest : List Char) : topLevel ((sc.process deterministic).render.toList ++ rest) =
      ⟨Process.front deterministic, sc.name, [Grammar.start]⟩ :: topLevel rest := by
  -- `Init` has a rule and with it a local process
  have hlocals : (sc.process deterministic).locals ≠ [] := by
    obtain ⟨first, others, hordered, -⟩ := exists_orderedRules h.wellFormed.sound h.wellFormed.start
    unfold SynthesisedComponent.process Process.ofGrammar
    dsimp only
    rw [hordered]
    exact List.cons_ne_nil _ _
  exact Process.topLevel_render (worded_ofGrammar h.wellFormed.sound
    (CrossCheck.isWord_of_isIdentifier h.name) h.worded deterministic)
    (isName_of_isIdentifier h.name) hlocals rest

theorem renderSystem_eq (parts : List String) :
    renderSystem parts = (composition "||" "System" parts).render := by
  have hopening : "||System = (" = "||" ++ "System" ++ " = " ++ "(" := rfl
  have hclosing : ").\n" = ")" ++ ".\n" := rfl
  unfold renderSystem Paragraph.render composition
  rw [Paragraph.sentence_ofLine, hopening, hclosing]
  simp only [String.append_assoc]

theorem renderListing_eq (h : ∀ sc ∈ components, Listed sc)
    (hlisting : renderListing deterministic components = .ok listing) :
    listing = header ++ String.join (components.map fun sc => (sc.process deterministic).render) ++
      (composition "||" "System" (components.map SynthesisedComponent.name)).render := by
  unfold renderListing renderComponents at hlisting
  cases htexts : components.mapM fun sc => renderComponent deterministic sc.name sc.grammar with
  | error failure =>
      rw [htexts] at hlisting
      exact absurd hlisting (by simp [Except.map])
  | ok texts =>
      have hcollected := map_of_mapM htexts
      rw [List.map_congr_left fun sc hsc =>
        renderComponent_eq_ok (h sc hsc).wellFormed.sound deterministic sc.name] at hcollected
      have hrendered : components.map (fun sc => (sc.process deterministic).render) = texts := by
        refine List.map_injective_iff.mpr (fun _ _ => Except.ok.inj) (Eq.trans ?_ hcollected)
        rw [List.map_map]
        rfl
      rw [htexts] at hlisting
      rw [hrendered, ← Except.ok.inj hlisting, renderSystem_eq]

/-- **The definitions of a listing** are the components and the system. -/
theorem topLevel_renderListing (h : ∀ sc ∈ components, Listed sc)
    (hlisting : renderListing deterministic components = .ok listing) (rest : List Char) :
    topLevel (listing.toList ++ rest) =
      components.map (fun sc => ⟨Process.front deterministic, sc.name, [Grammar.start]⟩) ++
        ⟨"||", "System", components.map SynthesisedComponent.name⟩ :: topLevel rest := by
  have hnames : ∀ name ∈ components.map SynthesisedComponent.name, IsName name := by
    intro name hname
    obtain ⟨sc, hsc, rfl⟩ := List.mem_map.mp hname
    exact isName_of_isIdentifier (h sc hsc).name
  have hsystem : (composition "||" "System" (components.map SynthesisedComponent.name)).Tidy :=
    tidy_composition (by decide) (by decide) hnames
  have hheader : header = "// Automatically generated by mscsynth 0.1.0" ++ "\n" := rfl
  -- the header is a comment without an equals sign, which defines nothing
  rw [renderListing_eq h hlisting, hheader]
  simp only [String.toList_append, List.append_assoc]
  rw [show "\n".toList = ['\n'] from rfl, List.singleton_append,
    topLevel_skip (by decide +kernel) (by decide +kernel) (by decide +kernel),
    topLevel_join fun sc hsc => (h sc hsc).topLevel_render deterministic, hsystem.topLevel_append,
    told_composition _ _ hnames]

end Listing

end Fsp

end ScenarioFsp
