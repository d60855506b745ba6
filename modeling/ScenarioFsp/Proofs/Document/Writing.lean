import ScenarioFsp.Proofs.Document.Recognition

/-!
# Writing documents

A document is written as a sequence of tokens. They may be laid out with any gaps between
them, and not even a word of the language and the name behind it need one. Whatever the
layout, the text is read as the document that was written, apart from the places of its
names (`readTree_of_laidOut`): the derivation is put together along the document, each
construct taking its own tokens from those that are left.
-/

namespace ScenarioFsp

namespace Document

open Cursor (Gap Spells)

/-! ## Tokens -/

/-- The names, with commas between them. -/
def NameList.tokens (names : NameList) : List String :=
  names.first.text :: names.more.flatMap fun name => [",", name.text]

/-- The words of an event. -/
def eventTokens : Event → List String
  | .message label => ["message", label, ";"]
  | .condition label => ["condition", label, ";"]

/-- The words of a lifeline, with those of its events in braces. -/
def LifelineBlock.tokens (block : LifelineBlock) : List String :=
  ["instance"] ++ ([block.component.text] ++ (["\x7b"] ++
    (block.events.flatMap eventTokens ++ ["\x7d"])))

/-- The words of a scenario, with those of its lifelines in braces. -/
def ScenarioBlock.tokens (block : ScenarioBlock) : List String :=
  ["bmsc"] ++ ([block.name.text] ++ (["\x7b"] ++
    (block.lifelines.flatMap LifelineBlock.tokens ++ ["\x7d"])))

/-- The words of arrows that leave the same node. -/
def Arrows.tokens (arrows : Arrows) : List String :=
  [arrows.source.text] ++ (["->"] ++ (arrows.targets.tokens ++ [";"]))

/-- The words of an item. -/
def Item.tokens : Item → List String
  | components names => ["component"] ++ (names.tokens ++ [";"])
  | scenario block => block.tokens
  | flow arrows => ["hmsc"] ++ (["\x7b"] ++ (arrows.flatMap Arrows.tokens ++ ["\x7d"]))

/-- The words of a document, in order. -/
def tokens (d : Document) : List String := d.items.flatMap Item.tokens

/-- The tokens stand in a text up to its end, with gaps before, between and behind them. -/
inductive LaidOut : List String → Cursor → Prop where
  | nil {c c' : Cursor} : Gap c c' → c'.rest = [] → LaidOut [] c
  | cons {token : String} {rest : List String} {c c₁ c₂ : Cursor} :
      Gap c c₁ → Spells token.toList c₁ c₂ → LaidOut rest c₂ → LaidOut (token :: rest) c

/-! ## Spelling -/

/-- All names and labels are such that the grammar knows them. -/
structure Spelled (d : Document) : Prop where
  components : ∀ names, .components names ∈ d.items → ∀ name ∈ names.toList,
    isIdentifier name.text = true
  scenarios : ∀ block, .scenario block ∈ d.items → isIdentifier block.name.text = true ∧
    ∀ lifeline ∈ block.lifelines, isIdentifier lifeline.component.text = true ∧
      ∀ e ∈ lifeline.events, hasSpelling e = true
  flows : ∀ all, .flow all ∈ d.items → ∀ arrows ∈ all, isIdentifier arrows.source.text = true ∧
    ∀ name ∈ arrows.targets.toList, isIdentifier name.text = true

/-! ## Documents apart from places -/

/-- A name with its place forgotten. -/
def Name.bare (name : Name) : Name := ⟨name.text, ⟨0, 0⟩⟩

/-- Names with their places forgotten. -/
def NameList.bare (names : NameList) : NameList := ⟨names.first.bare, names.more.map Name.bare⟩

/-- A lifeline with its place forgotten. -/
def LifelineBlock.bare (block : LifelineBlock) : LifelineBlock := ⟨block.component.bare, block.events⟩

/-- A scenario with all places forgotten. -/
def ScenarioBlock.bare (block : ScenarioBlock) : ScenarioBlock :=
  ⟨block.name.bare, block.lifelines.map LifelineBlock.bare⟩

/-- Arrows with all places forgotten. -/
def Arrows.bare (arrows : Arrows) : Arrows := ⟨arrows.source.bare, arrows.targets.bare⟩

/-- An item with all places forgotten. -/
def Item.bare : Item → Item
  | components names => components names.bare
  | scenario block => scenario block.bare
  | flow arrows => flow (arrows.map Arrows.bare)

/-- A document with all places forgotten. -/
def bare (d : Document) : Document := ⟨d.items.map Item.bare⟩

/-! ## Writing along a pattern -/

variable {p q : Pattern} {ts us : List String} {P Q R : List Part → Prop}

/-- Where the tokens stand, the pattern is derived, with parts as they should be. -/
def Writes (ts : List String) (p : Pattern) (P : List Part → Prop) : Prop :=
  ∀ ⦃rest : List String⦄ ⦃c : Cursor⦄, LaidOut (ts ++ rest) c →
    ∃ c₀ parts c₁, Gap c c₀ ∧ Derives p c₀ parts c₁ ∧ P parts ∧ LaidOut rest c₁

/-- The parts of a copy that differs in places only. -/
def Copies {α β : Type} (parts : α → List Part) (bare : α → β) (a : α) (l : List Part) : Prop :=
  ∃ a', bare a' = bare a ∧ l = parts a'

theorem writes_word (word : String) : Writes [word] (.word word) fun parts => parts = [] := by
  intro rest c h
  cases h with
  | cons hgap hspells hrest => exact ⟨_, [], _, hgap, .word hspells, rfl, hrest⟩

theorem writes_name {isFirst isOther : Char → Bool} {text : String}
    (htext : isSpelled isFirst isOther text = true) (part : Name → Part) :
    Writes [text] (.name isFirst isOther part)
      (Copies (fun name => [part name]) Name.bare ⟨text, ⟨0, 0⟩⟩) := by
  intro rest c h
  cases h with
  | @cons _ _ _ c₁ c₂ hgap hspells hrest =>
      unfold isSpelled at htext
      split at htext
      · exact absurd htext Bool.false_ne_true
      · rename_i first others hlist
        obtain ⟨hfirst, hothers⟩ := (Bool.and_eq_true _ _).mp htext
        rw [hlist] at hspells
        refine ⟨c₁, _, c₂, hgap, .name hfirst (List.all_eq_true.mp hothers) hspells, ?_, hrest⟩
        refine ⟨⟨text, ⟨c₁.offset, c₂.offset⟩⟩, rfl, ?_⟩
        rw [← hlist, String.ofList_toList]

theorem Writes.seq (hp : Writes ts p P) (hq : Writes us q Q)
    (h : ∀ before behind, P before → Q behind → R (before ++ behind)) :
    Writes (ts ++ us) (.seq p q) R := by
  intro rest c hlaid
  rw [List.append_assoc] at hlaid
  obtain ⟨c₀, before, c₁, hgap, hbefore, hP, hlaid⟩ := hp hlaid
  obtain ⟨c₂, behind, c₃, hgap', hbehind, hQ, hlaid⟩ := hq hlaid
  exact ⟨c₀, before ++ behind, c₃, hgap, .seq hbefore hgap' hbehind, h _ _ hP hQ, hlaid⟩

/-- A word of the language leaves nothing. -/
theorem Writes.behind (hq : Writes us q Q) (word : String) :
    Writes ([word] ++ us) (.seq (.word word) q) Q :=
  (writes_word word).seq hq fun before behind hbefore hbehind => by
    rw [hbefore]
    exact hbehind

theorem Writes.before (hp : Writes ts p P) (word : String) :
    Writes (ts ++ [word]) (.seq p (.word word)) P :=
  hp.seq (writes_word word) fun before behind hbefore hbehind => by
    rw [hbehind, List.append_nil]
    exact hbefore

theorem Writes.rule {what : Construct} (hp : Writes ts p P)
    (h : ∀ parts, P parts → R [.node what parts]) : Writes ts (.rule what p) R := by
  intro rest c hlaid
  obtain ⟨c₀, parts, c₁, hgap, hderives, hP, hlaid⟩ := hp hlaid
  exact ⟨c₀, _, c₁, hgap, .rule hderives, h parts hP, hlaid⟩

theorem Writes.left (hp : Writes ts p P) : Writes ts (.either p q) P := by
  intro rest c hlaid
  obtain ⟨c₀, parts, c₁, hgap, hderives, h⟩ := hp hlaid
  exact ⟨c₀, parts, c₁, hgap, .left hderives, h⟩

theorem Writes.right (hq : Writes ts q P) : Writes ts (.either p q) P := by
  intro rest c hlaid
  obtain ⟨c₀, parts, c₁, hgap, hderives, h⟩ := hq hlaid
  exact ⟨c₀, parts, c₁, hgap, .right hderives, h⟩

/-- A list is written member by member, and the copies make a copy of the list. -/
theorem writes_many {α β : Type} {tokens : α → List String} {part : α → Part} {bare : α → β}
    {as : List α} (h : ∀ a ∈ as, Writes (tokens a) p (Copies (fun a => [part a]) bare a)) :
    Writes (as.flatMap tokens) (.many p) (Copies (List.map part) (List.map bare) as) := by
  induction as with
  | nil => exact fun _ _ hlaid => ⟨_, [], _, .nil _, .none, ⟨[], rfl, rfl⟩, hlaid⟩
  | cons a as ih =>
      intro rest c hlaid
      rw [List.flatMap_cons, List.append_assoc] at hlaid
      obtain ⟨c₀, parts, c₁, hgap, hderives, ⟨a', ha', rfl⟩, hlaid⟩ :=
        h a List.mem_cons_self hlaid
      obtain ⟨c₂, others, c₃, hgap', hmany, ⟨as', has', rfl⟩, hlaid⟩ :=
        ih (fun b hb => h b (List.mem_cons_of_mem a hb)) hlaid
      refine ⟨c₀, _, c₃, hgap, .more hderives hgap' hmany, ⟨a' :: as', ?_, rfl⟩, hlaid⟩
      rw [List.map_cons, List.map_cons, ha', has']

/-! ## The constructs -/

theorem writes_identifier {name : Name} (h : isIdentifier name.text = true) :
    Writes [name.text] (.identifier .name) (Copies (fun name => [.name name]) Name.bare name) :=
  writes_name h .name

theorem writes_nameList {names : NameList}
    (h : ∀ name ∈ names.toList, isIdentifier name.text = true) :
    Writes names.tokens .identifiers (Copies NameList.parts NameList.bare names) := by
  have hmore : ∀ name ∈ names.more, Writes [",", name.text] (.seq (.word ",") (.identifier .name))
      (Copies (fun name => [.name name]) Name.bare name) := fun name hname =>
    (writes_identifier (h name (List.mem_cons_of_mem _ hname))).behind ","
  refine (writes_identifier (h names.first List.mem_cons_self)).seq (writes_many hmore) ?_
  rintro before behind ⟨first, hfirst, rfl⟩ ⟨more, hmore, rfl⟩
  exact ⟨⟨first, more⟩, by rw [NameList.bare, hfirst, hmore]; rfl, rfl⟩

theorem writes_event {e : Event} (h : hasSpelling e = true) :
    Writes (eventTokens e) .event fun parts => parts = [eventPart e] := by
  cases e with
  | message label =>
      refine Writes.left ((((writes_name h _).before ";").behind "message").rule ?_)
      rintro parts ⟨name, hname, rfl⟩
      have htext : name.text = label := congrArg Name.text hname
      dsimp only
      rw [htext]
      rfl
  | condition label =>
      refine Writes.right ((((writes_name h _).before ";").behind "condition").rule ?_)
      rintro parts ⟨name, hname, rfl⟩
      have htext : name.text = label := congrArg Name.text hname
      dsimp only
      rw [htext]
      rfl

/-- A block is written between its braces. -/
theorem writes_block {word : String} {name : Name} {what : Construct} {α β : Type}
    {tokens : α → List String} {part : α → Part} {bare : α → β} {as : List α}
    (hname : isIdentifier name.text = true)
    (h : ∀ a ∈ as, Writes (tokens a) p (Copies (fun a => [part a]) bare a)) :
    Writes ([word] ++ ([name.text] ++ (["\x7b"] ++ (as.flatMap tokens ++ ["\x7d"]))))
      (.rule what (.seq (.word word) (.seq (.identifier .name) (.seq (.word "\x7b")
        (.seq (.many p) (.word "\x7d"))))))
      fun parts => ∃ (name' : Name) (as' : List α), name'.bare = name.bare ∧
        as'.map bare = as.map bare ∧ parts = [.node what (.name name' :: as'.map part)] := by
  have hinner := (writes_identifier hname).seq (((writes_many h).before "\x7d").behind "\x7b")
    (R := fun parts => ∃ (name' : Name) (as' : List α), name'.bare = name.bare ∧
      as'.map bare = as.map bare ∧ parts = .name name' :: as'.map part) ?_
  · refine (hinner.behind word).rule ?_
    rintro parts ⟨name', as', hname', has', rfl⟩
    exact ⟨name', as', hname', has', rfl⟩
  · rintro before behind ⟨name', hname', rfl⟩ ⟨as', has', rfl⟩
    exact ⟨name', as', hname', has', rfl⟩

theorem writes_lifelineBlock {block : LifelineBlock}
    (hname : isIdentifier block.component.text = true)
    (hevents : ∀ e ∈ block.events, hasSpelling e = true) :
    Writes block.tokens .lifelineBlock
      (Copies (fun block => [block.part]) LifelineBlock.bare block) := by
  have hevent : ∀ e ∈ block.events, Writes (eventTokens e) .event
      (Copies (fun e => [eventPart e]) id e) := fun e he rest c hlaid => by
    obtain ⟨c₀, parts, c₁, hgap, hderives, hparts, hlaid⟩ := writes_event (hevents e he) hlaid
    exact ⟨c₀, parts, c₁, hgap, hderives, ⟨e, rfl, hparts⟩, hlaid⟩
  intro rest c hlaid
  obtain ⟨c₀, parts, c₁, hgap, hderives, ⟨name, events, hname, hevents, rfl⟩, hlaid⟩ :=
    writes_block hname hevent hlaid
  rw [List.map_id, List.map_id] at hevents
  refine ⟨c₀, _, c₁, hgap, hderives, ⟨⟨name, events⟩, ?_, rfl⟩, hlaid⟩
  rw [LifelineBlock.bare, hname, hevents]
  rfl

theorem writes_scenarioBlock {block : ScenarioBlock} (hname : isIdentifier block.name.text = true)
    (hlifelines : ∀ lifeline ∈ block.lifelines, isIdentifier lifeline.component.text = true ∧
      ∀ e ∈ lifeline.events, hasSpelling e = true) :
    Writes block.tokens .scenarioBlock
      (Copies (fun block => [block.part]) ScenarioBlock.bare block) := by
  intro rest c hlaid
  obtain ⟨c₀, parts, c₁, hgap, hderives, ⟨name, lifelines, hname, hlifelines, rfl⟩, hlaid⟩ :=
    writes_block hname (fun lifeline hmem => writes_lifelineBlock (hlifelines lifeline hmem).1
      (hlifelines lifeline hmem).2) hlaid
  refine ⟨c₀, _, c₁, hgap, hderives, ⟨⟨name, lifelines⟩, ?_, rfl⟩, hlaid⟩
  rw [ScenarioBlock.bare, hname, hlifelines]
  rfl

theorem writes_arrows {arrows : Arrows} (hsource : isIdentifier arrows.source.text = true)
    (htargets : ∀ name ∈ arrows.targets.toList, isIdentifier name.text = true) :
    Writes arrows.tokens .arrows (Copies (fun arrows => [arrows.part]) Arrows.bare arrows) := by
  have hinner := (writes_identifier hsource).seq (((writes_nameList htargets).before ";").behind "->")
    (R := fun parts => ∃ arrows' : Arrows, arrows'.bare = arrows.bare ∧
      parts = .name arrows'.source :: arrows'.targets.parts) ?_
  · refine hinner.rule ?_
    rintro parts ⟨arrows', hbare, rfl⟩
    exact ⟨arrows', hbare, rfl⟩
  · rintro before behind ⟨source, hsource, rfl⟩ ⟨targets, htargets, rfl⟩
    exact ⟨⟨source, targets⟩, by rw [Arrows.bare, hsource, htargets]; rfl, rfl⟩

theorem writes_item {d : Document} (h : d.Spelled) {item : Item} (hitem : item ∈ d.items) :
    Writes item.tokens .item (Copies (fun item => [item.part]) Item.bare item) := by
  cases item with
  | components names =>
      have hnames := writes_nameList (h.components names hitem)
      refine Writes.left (((hnames.before ";").behind "component").rule ?_)
      rintro parts ⟨names', hbare, rfl⟩
      exact ⟨.components names', congrArg Item.components hbare, rfl⟩
  | scenario block =>
      obtain ⟨hname, hlifelines⟩ := h.scenarios block hitem
      intro rest c hlaid
      obtain ⟨c₀, parts, c₁, hgap, hderives, ⟨block', hbare, rfl⟩, hlaid⟩ :=
        writes_scenarioBlock hname hlifelines hlaid
      exact ⟨c₀, _, c₁, hgap, .right (.left hderives),
        ⟨.scenario block', congrArg Item.scenario hbare, rfl⟩, hlaid⟩
  | flow all =>
      have hall : ∀ arrows ∈ all, Writes arrows.tokens .arrows
          (Copies (fun arrows => [arrows.part]) Arrows.bare arrows) := fun arrows hmem =>
        writes_arrows (h.flows all hitem arrows hmem).1 (h.flows all hitem arrows hmem).2
      refine Writes.right (Writes.right (Writes.rule
        ((((writes_many hall).before "\x7d").behind "\x7b").behind "hmsc") ?_))
      rintro parts ⟨all', hbare, rfl⟩
      exact ⟨.flow all', congrArg Item.flow hbare, rfl⟩

/-! ## Whole documents -/

/-- **However a document is laid out, it is read**: the tree is that of a document which differs
in places only. -/
theorem readTree_of_laidOut {d : Document} {text : String} (hspelled : d.Spelled)
    (hlaid : LaidOut d.tokens (.ofText text)) :
    ∃ d' : Document, d'.bare = d.bare ∧ readTree text = .ok [d'.tree] := by
  have hitems := writes_many fun item hitem => writes_item hspelled hitem
  rw [← List.append_nil d.tokens] at hlaid
  obtain ⟨c₀, parts, c₁, hgap, hderives, ⟨items, hbare, rfl⟩, hend⟩ := hitems hlaid
  refine ⟨⟨items⟩, congrArg Document.mk hbare, derivable_iff.mp ?_⟩
  -- no token is left behind the items, so there is only a gap up to the end
  cases hend with
  | @nil _ c₂ hgap' hrest =>
      have hall : Derives (.seq (.many .item) .stop) c₀
          (items.map Item.part ++ [.node .endOfText []]) c₂ := .seq hderives hgap' (.stop hrest)
      have hstart : Derives .start (.ofText text) [] (.ofText text) := .start rfl
      exact ⟨c₂, .rule (hstart.seq hgap hall)⟩

/-- Loading depends on the tree only. -/
theorem exists_read_of_readTree {d : Document} {text : String}
    (h : readTree text = .ok [d.tree]) : ∃ d', read text = .ok d' ∧ d'.load = d.load := by
  rw [readTree_eq] at h
  cases hread : read text with
  | error e =>
      rw [hread] at h
      exact nomatch h
  | ok d' =>
      rw [hread] at h
      have htree : d'.tree = d.tree := List.singleton_inj.mp (Except.ok.inj h)
      have hwalk := d'.walk_tree
      rw [htree, d.walk_tree] at hwalk
      exact ⟨d', rfl, (Except.ok.inj hwalk).symm⟩

end Document

end ScenarioFsp
