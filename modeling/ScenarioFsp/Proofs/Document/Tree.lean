import ScenarioFsp.Document.Reader

/-!
# Documents as trees

The grammar alone makes a tree of a text: words, and constructs with their parts in
order. What the text means is only found out when somebody walks over that tree. Here
the grammar is read a second time, into trees in place of documents, and the tree that
is read is always the tree of the document (`readTree_eq`). So whoever walks over the
tree of a text meets nothing that a document does not have.
-/

namespace ScenarioFsp

namespace Document

/-! ## Trees -/

/-- A part of a text. Of a word within an event nobody asks for the place. -/
inductive Part where
  | name (name : Name)
  | text (what : Construct) (text : String)
  | node (what : Construct) (parts : List Part)

/-- The tree of an event: its label or its name is a text, not a name with a place. -/
def eventPart : Event → Part
  | .message label => .node .message [.text .label label]
  | .condition label => .node .condition [.text .identifier label]

/-- The tree of a lifeline. -/
def LifelineBlock.part (block : LifelineBlock) : Part :=
  .node .lifeline (.name block.component :: block.events.map eventPart)

/-- The tree of a scenario. -/
def ScenarioBlock.part (block : ScenarioBlock) : Part :=
  .node .scenario (.name block.name :: block.lifelines.map LifelineBlock.part)

/-- A leaf for each name. -/
def NameList.parts (names : NameList) : List Part := names.toList.map Part.name

/-- The tree of arrows that leave the same node. -/
def Arrows.part (arrows : Arrows) : Part :=
  .node .arrows (.name arrows.source :: arrows.targets.parts)

/-- The tree of an item; that of a flow block may have no arrows. -/
def Item.part : Item → Part
  | components names => .node .components names.parts
  | scenario block => block.part
  | flow arrows => .node .flow (arrows.map Arrows.part)

/-- The tree of a document; the end of the text is a part of it. -/
def tree (d : Document) : Part := .node .document (d.items.map Item.part ++ [.node .endOfText []])

/-! ## Reading trees

A reader of parts leaves what its members leave. The words of the language leave nothing, and a
construct leaves a single part.
-/

namespace Part

open Reader

/-- Reads something that leaves no part. -/
def silent (r : Reader Unit) : Reader (List Part) := do
  r
  return []

/-- Reads something that leaves one part. -/
def leaf {α : Type} (r : Reader α) (part : α → Part) : Reader (List Part) := do
  return [part (← r)]

/-- One reader behind the other, with the parts of both. -/
def seq (r s : Reader (List Part)) : Reader (List Part) := do
  let before ← r
  let behind ← s
  return before ++ behind

/-- A reader as often as it can be repeated, with the parts of all. -/
def repeated (r : Reader (List Part)) : Reader (List Part) := do
  return (← many r).flatten

/-- Reads a construct, which leaves one part around those of its members. -/
def rule (what : Construct) (r : Reader (List Part)) : Reader (List Part) :=
  construct what do return [.node what (← r)]

/-- A name. -/
def identifier : Reader (List Part) := leaf Document.identifier Part.name

/-- One name or more, with commas between them. -/
def identifiers : Reader (List Part) :=
  seq identifier (repeated (seq (silent (mark ",")) identifier))

/-- A declaration of components. -/
def components : Reader (List Part) :=
  rule .components (seq (silent (literal "component")) (seq identifiers (silent (mark ";"))))

/-- A message of a lifeline. -/
def message : Reader (List Part) :=
  rule .message (seq (silent (literal "message"))
    (seq (leaf label fun name => .text .label name.text) (silent (mark ";"))))

/-- A condition of a lifeline. -/
def condition : Reader (List Part) :=
  rule .condition (seq (silent (literal "condition"))
    (seq (leaf Document.identifier fun name => .text .identifier name.text) (silent (mark ";"))))

/-- The block of one component within a scenario. -/
def lifelineBlock : Reader (List Part) :=
  rule .lifeline (seq (silent (literal "instance")) (seq identifier (seq (silent (mark "\x7b"))
    (seq (repeated (seq (silent skip) (either message condition))) (silent (mark "\x7d"))))))

/-- The block of a scenario. -/
def scenarioBlock : Reader (List Part) :=
  rule .scenario (seq (silent (literal "bmsc")) (seq identifier (seq (silent (mark "\x7b"))
    (seq (repeated (seq (silent skip) lifelineBlock)) (silent (mark "\x7d"))))))

/-- Arrows that leave the same node. -/
def arrows : Reader (List Part) :=
  rule .arrows (seq identifier (seq (silent (mark "->")) (seq identifiers (silent (mark ";")))))

/-- A block of arrows. -/
def flow : Reader (List Part) :=
  rule .flow (seq (silent (literal "hmsc")) (seq (silent (mark "\x7b"))
    (seq (repeated (seq (silent skip) arrows)) (silent (mark "\x7d")))))

/-- An item of any of the three kinds. -/
def item : Reader (List Part) := either components (either scenarioBlock flow)

/-- A complete document, and the end of the text behind it. -/
def document : Reader (List Part) :=
  rule .document (seq (repeated (seq (silent skip) item))
    (seq (silent skip) (rule .endOfText (silent atEnd))))

end Part

/-- Reads a text as a tree. -/
def readTree (text : String) : Except SyntaxError (List Part) :=
  match Part.document (.ofText text) .none with
  | (some (parts, _), _) => .ok parts
  | (none, tried) => .error ⟨tried.offset, tried.expected⟩

end Document

/-! ## Two readers side by side -/

namespace Reader

open Document (Part)

variable {α β : Type} {r r' : Reader α} {s s' : Reader (List Part)} {P : α → List Part → Prop}

/-- `s` goes where `r` goes, and leaves parts that fit what `r` reads. -/
def Leaves (r : Reader α) (s : Reader (List Part)) (P : α → List Part → Prop) : Prop :=
  ∀ c tried,
    (∃ a parts behind tried', r c tried = (some (a, behind), tried') ∧
        s c tried = (some (parts, behind), tried') ∧ P a parts) ∨
      ∃ tried', r c tried = (none, tried') ∧ s c tried = (none, tried')

theorem bind_apply {γ δ : Type} (r : Reader γ) (next : γ → Reader δ) (c : Cursor)
    (tried : Attempts) : (r >>= next) c tried =
      match r c tried with
      | (some (a, behind), tried) => next a behind tried
      | (none, tried) => (none, tried) := rfl

theorem Leaves.mono {Q : α → List Part → Prop} (h : Leaves r s P)
    (hPQ : ∀ a parts, P a parts → Q a parts) : Leaves r s Q := by
  intro c tried
  rcases h c tried with ⟨a, parts, behind, tried', hr, hs, hP⟩ | hnone
  · exact Or.inl ⟨a, parts, behind, tried', hr, hs, hPQ a parts hP⟩
  · exact Or.inr hnone

/-- What is computed from a reading leaves the same parts. -/
theorem Leaves.map {f : α → β} {Q : β → List Part → Prop} (h : Leaves r s P)
    (hPQ : ∀ a parts, P a parts → Q (f a) parts) : Leaves (r >>= fun a => pure (f a)) s Q := by
  intro c tried
  rw [bind_apply]
  rcases h c tried with ⟨a, parts, behind, tried', hr, hs, hP⟩ | ⟨tried', hr, hs⟩
  · rw [hr]
    exact Or.inl ⟨f a, parts, behind, tried', rfl, hs, hPQ a parts hP⟩
  · rw [hr]
    exact Or.inr ⟨tried', rfl, hs⟩

theorem leaves_leaf (r : Reader α) (part : α → Part) :
    Leaves r (Part.leaf r part) fun a parts => parts = [part a] := by
  intro c tried
  unfold Part.leaf
  rw [bind_apply]
  rcases r c tried with ⟨_ | ⟨a, behind⟩, tried'⟩
  · exact Or.inr ⟨tried', rfl, rfl⟩
  · exact Or.inl ⟨a, [part a], behind, tried', rfl, rfl, rfl⟩

theorem leaves_silent (r : Reader Unit) : Leaves r (Part.silent r) fun _ parts => parts = [] := by
  intro c tried
  unfold Part.silent
  rw [bind_apply]
  rcases r c tried with ⟨_ | ⟨a, behind⟩, tried'⟩
  · exact Or.inr ⟨tried', rfl, rfl⟩
  · exact Or.inl ⟨a, [], behind, tried', rfl, rfl, rfl⟩

theorem Leaves.seq {next : α → Reader β} {Q : β → List Part → Prop} (h : Leaves r s P)
    (hnext : ∀ a parts, P a parts → Leaves (next a) s' fun b rest => Q b (parts ++ rest)) :
    Leaves (r >>= next) (Part.seq s s') Q := by
  intro c tried
  unfold Part.seq
  rw [bind_apply, bind_apply]
  rcases h c tried with ⟨a, parts, behind, tried', hr, hs, hP⟩ | ⟨tried', hr, hs⟩
  · rw [hr, hs]
    dsimp only
    rw [bind_apply]
    rcases hnext a parts hP behind tried' with
      ⟨b, rest, last, tried'', hb, hrest, hQ⟩ | ⟨tried'', hb, hrest⟩
    · rw [hrest]
      exact Or.inl ⟨b, parts ++ rest, last, tried'', hb, rfl, hQ⟩
    · rw [hrest]
      exact Or.inr ⟨tried'', hb, rfl⟩
  · rw [hr, hs]
    exact Or.inr ⟨tried', rfl, rfl⟩

/-- A word of the language is passed on both sides. -/
theorem Leaves.word {w : Reader Unit} (h : Leaves r s P) :
    Leaves (w >>= fun _ => r) (Part.seq (Part.silent w) s) P :=
  (leaves_silent w).seq fun _ parts hparts => by
    subst hparts
    exact h

/-- Behind the last word everything has been left. -/
theorem leaves_last {w : Reader Unit} {a : α} (h : P a []) :
    Leaves (w >>= fun _ => pure a) (Part.silent w) P :=
  (leaves_silent w).map fun _ _ hparts => by
    rw [hparts]
    exact h

theorem Leaves.rule {what : Construct} (h : Leaves r s fun a parts => P a [.node what parts]) :
    Leaves (construct what r) (Part.rule what s) P := by
  intro c tried
  unfold Part.rule construct
  rw [bind_apply]
  rcases h c tried with ⟨a, parts, behind, tried', hr, hs, hP⟩ | ⟨tried', hr, hs⟩
  · rw [hr, hs]
    exact Or.inl ⟨a, [.node what parts], behind, tried', rfl, rfl, hP⟩
  · rw [hr, hs]
    exact Or.inr ⟨_, rfl, rfl⟩

theorem Leaves.either (h : Leaves r s P) (h' : Leaves r' s' P) :
    Leaves (Reader.either r r') (Reader.either s s') P := by
  intro c tried
  unfold Reader.either
  rcases h c tried with ⟨a, parts, behind, tried', hr, hs, hP⟩ | ⟨tried', hr, hs⟩
  · rw [hr, hs]
    exact Or.inl ⟨a, parts, behind, tried', rfl, rfl, hP⟩
  · rw [hr, hs]
    exact h' c tried'

/-- Repetitions go equally far: where the one stops or goes on, so does the other. -/
theorem many_of_leaves {part : α → Part} (h : Leaves r s fun a parts => parts = [part a])
    (c : Cursor) (tried : Attempts) :
    many s c tried =
      ((many r c tried).1.map fun found => (found.1.map fun a => [part a], found.2),
        (many r c tried).2) := by
  have hstep : ∀ c tried, s c tried =
      ((r c tried).1.map fun found => ([part found.1], found.2), (r c tried).2) := by
    intro c tried
    rcases h c tried with ⟨a, parts, behind, tried', hr, hs, rfl⟩ | ⟨tried', hr, hs⟩
    · rw [hr, hs]
      rfl
    · rw [hr, hs]
      rfl
  -- the induction is on what the left reader does; the right one sees the same rest of the text
  fun_induction many r c tried with
  | case1 c tried tried' hnone =>
      rw [many, hstep, hnone]
      rfl
  | case2 c tried a behind tried' hsome hlt as last tried'' hrest ih =>
      rw [many, hstep, hsome]
      dsimp only [Option.map_some]
      rw [if_pos hlt, ih, hrest]
      rfl
  | case3 c tried a behind tried' hsome hlt tried'' hrest ih =>
      rw [many, hstep, hsome]
      dsimp only [Option.map_some]
      rw [if_pos hlt, ih, hrest]
      rfl
  | case4 c tried a behind tried' hsome hlt =>
      rw [many, hstep, hsome]
      dsimp only [Option.map_some]
      rw [if_neg hlt]
      rfl

theorem Leaves.repeated {part : α → Part} (h : Leaves r s fun a parts => parts = [part a]) :
    Leaves (many r) (Part.repeated s) fun as parts => parts = as.map part := by
  intro c tried
  have hflatten : Part.repeated s c tried =
      ((many s c tried).1.map fun found => (found.1.flatten, found.2), (many s c tried).2) := by
    show Reader.bind (many s) (fun parts => Reader.pure parts.flatten) c tried = _
    unfold Reader.bind
    rcases many s c tried with ⟨_ | ⟨parts, behind⟩, tried'⟩ <;> rfl
  rw [hflatten, many_of_leaves h]
  rcases many r c tried with ⟨_ | ⟨as, behind⟩, tried'⟩
  · exact Or.inr ⟨tried', rfl, rfl⟩
  · refine Or.inl ⟨as, _, behind, tried', rfl, rfl, ?_⟩
    show (as.map fun a => [part a]).flatten = as.map part
    rw [← List.flatMap_def, ← List.map_eq_flatMap]

end Reader

/-! ## The tree that is read is the tree of the document -/

namespace Document

open Reader

theorem leaves_nameList :
    Leaves nameList Part.identifiers fun names parts => parts = names.parts := by
  have hmore : Leaves (do mark ","; identifier) (Part.seq (Part.silent (mark ",")) Part.identifier)
      fun name parts => parts = [Part.name name] := (leaves_leaf identifier Part.name).word
  refine (leaves_leaf identifier Part.name).seq fun first parts hfirst => ?_
  exact hmore.repeated.map fun more rest hrest => by
    rw [hfirst, hrest]
    rfl

theorem leaves_components : Leaves components Part.components
    fun names parts => parts = [Item.part (.components names)] := by
  refine Leaves.rule (Leaves.word (leaves_nameList.seq fun names parts hnames => leaves_last ?_))
  rw [hnames, List.append_nil]
  rfl

/-- An event is a construct around a single word. -/
theorem leaves_event {what : Construct} {w : String} {word : Reader Name}
    {inner : Construct} {make : String → Event}
    (hpart : ∀ text, eventPart (make text) = .node what [.text inner text]) :
    Leaves (construct what do
        literal w
        let name ← word
        mark ";"
        return make name.text)
      (Part.rule what (Part.seq (Part.silent (literal w))
        (Part.seq (Part.leaf word fun name => .text inner name.text) (Part.silent (mark ";")))))
      fun e parts => parts = [eventPart e] := by
  refine Leaves.rule (Leaves.word ((leaves_leaf word _).seq fun name parts hname => leaves_last ?_))
  rw [hname, hpart]
  rfl

theorem leaves_lifelineBlock : Leaves lifelineBlock Part.lifelineBlock
    fun block parts => parts = [block.part] := by
  have hevent : Leaves (do skip; either message condition)
      (Part.seq (Part.silent skip) (either Part.message Part.condition))
      fun e parts => parts = [eventPart e] :=
    ((leaves_event fun _ => rfl).either (leaves_event fun _ => rfl)).word
  refine Leaves.rule (Leaves.word ((leaves_leaf identifier Part.name).seq fun name parts hname =>
    Leaves.word (hevent.repeated.seq fun events rest hrest => leaves_last ?_)))
  rw [hname, hrest, List.append_nil]
  rfl

theorem leaves_scenarioBlock : Leaves scenarioBlock Part.scenarioBlock
    fun block parts => parts = [block.part] := by
  have hblock : Leaves (do skip; lifelineBlock) (Part.seq (Part.silent skip) Part.lifelineBlock)
      fun block parts => parts = [block.part] := leaves_lifelineBlock.word
  refine Leaves.rule (Leaves.word ((leaves_leaf identifier Part.name).seq fun name parts hname =>
    Leaves.word (hblock.repeated.seq fun blocks rest hrest => leaves_last ?_)))
  rw [hname, hrest, List.append_nil]
  rfl

theorem leaves_arrows : Leaves arrows Part.arrows fun arrows parts => parts = [arrows.part] := by
  refine Leaves.rule ((leaves_leaf identifier Part.name).seq fun source parts hname =>
    Leaves.word (leaves_nameList.seq fun targets rest hrest => leaves_last ?_))
  rw [hname, hrest, List.append_nil]
  rfl

theorem leaves_flow : Leaves flow Part.flow
    fun arrows parts => parts = [Item.part (.flow arrows)] := by
  have harrows : Leaves (do skip; arrows) (Part.seq (Part.silent skip) Part.arrows)
      fun arrows parts => parts = [arrows.part] := leaves_arrows.word
  refine Leaves.rule (Leaves.word (Leaves.word (harrows.repeated.seq fun all rest hrest =>
    leaves_last ?_)))
  rw [hrest, List.append_nil]
  rfl

theorem leaves_item : Leaves item Part.item fun item parts => parts = [item.part] :=
  (leaves_components.map fun _ _ h => h).either
    ((leaves_scenarioBlock.map fun _ _ h => h).either (leaves_flow.map fun _ _ h => h))

theorem leaves_document : Leaves document Part.document fun d parts => parts = [d.tree] := by
  have hitem : Leaves (do skip; item) (Part.seq (Part.silent skip) Part.item)
      fun item parts => parts = [item.part] := leaves_item.word
  have hend : Leaves (construct .endOfText atEnd) (Part.rule .endOfText (Part.silent atEnd))
      fun _ parts => parts = [.node .endOfText []] :=
    Leaves.rule ((leaves_silent atEnd).mono fun _ _ hparts => by rw [hparts])
  refine Leaves.rule (hitem.repeated.seq fun items parts hitems => Leaves.word (hend.map ?_))
  intro _ rest hrest
  rw [hitems, hrest]
  rfl

/-- **A text is read as a tree exactly if it is read as a document**, and the tree is that of the
document. -/
theorem readTree_eq (text : String) : readTree text = (read text).map fun d => [d.tree] := by
  unfold readTree read
  rcases leaves_document (.ofText text) .none with
    ⟨d, parts, behind, tried, hd, hparts, rfl⟩ | ⟨tried, hd, hparts⟩
  · rw [hd, hparts]
    rfl
  · rw [hd, hparts]
    rfl

end Document

end ScenarioFsp
