import ScenarioFsp.Proofs.Document.Tree

/-!
# The grammar of documents

A grammar does not tell how to read. Its rules say what may follow what; between any two
elements there may be blanks and comments, a name is any string of its characters and
need not be the longest, and nothing tells which alternative to take or when a repetition
ends. A text is derived together with a tree: the words of the language leave nothing in
it, and every rule with a name of its own leaves one part.
-/

namespace ScenarioFsp

/-! ## Gaps -/

namespace Cursor

/-- Some characters stand between two places. -/
structure Spells (chars : List Char) (c c' : Cursor) : Prop where
  rest : c.rest = chars ++ c'.rest
  offset : c'.offset = c.offset + bytes chars

/-- Any number of blanks and comments. A comment goes up to the end of its line. -/
inductive Gap : Cursor → Cursor → Prop where
  | nil (c : Cursor) : Gap c c
  | blank {c c₁ c₂ : Cursor} {ch : Char} :
      isBlank ch = true → Spells [ch] c c₁ → Gap c₁ c₂ → Gap c c₂
  | comment {c c₁ c₂ : Cursor} {body : List Char} :
      (∀ ch ∈ body, isLineEnd ch = false) → Spells ('/' :: '/' :: body) c c₁ →
      (∀ ch, c₁.rest.head? = some ch → isLineEnd ch = true) → Gap c₁ c₂ → Gap c c₂

end Cursor

namespace Document

open Cursor (Gap Spells)

/-! ## Rules -/

/-- What rules are made of. -/
inductive Pattern where
  /-- The beginning of the text. -/
  | start
  /-- The end of the text. -/
  | stop
  | word (text : String)
  /-- A word with a first character of one class and all others of another. -/
  | name (isFirst isOther : Char → Bool) (part : Name → Part)
  | seq (p q : Pattern)
  | either (p q : Pattern)
  | many (p : Pattern)
  | rule (what : Construct) (p : Pattern)

/-- A pattern may stand between two places, and leaves some parts. -/
inductive Derives : Pattern → Cursor → List Part → Cursor → Prop where
  | start {c : Cursor} : c.offset = 0 → Derives .start c [] c
  | stop {c : Cursor} : c.rest = [] → Derives .stop c [.node .endOfText []] c
  | word {text : String} {c c' : Cursor} : Spells text.toList c c' → Derives (.word text) c [] c'
  | name {isFirst isOther : Char → Bool} {part : Name → Part} {c c' : Cursor} {first : Char}
      {others : List Char} :
      isFirst first = true → (∀ ch ∈ others, isOther ch = true) → Spells (first :: others) c c' →
      Derives (.name isFirst isOther part) c
        [part ⟨String.ofList (first :: others), ⟨c.offset, c'.offset⟩⟩] c'
  | seq {p q : Pattern} {c c₁ c₂ c₃ : Cursor} {before behind : List Part} :
      Derives p c before c₁ → Gap c₁ c₂ → Derives q c₂ behind c₃ →
      Derives (.seq p q) c (before ++ behind) c₃
  | left {p q : Pattern} {c c' : Cursor} {parts : List Part} :
      Derives p c parts c' → Derives (.either p q) c parts c'
  | right {p q : Pattern} {c c' : Cursor} {parts : List Part} :
      Derives q c parts c' → Derives (.either p q) c parts c'
  | none {p : Pattern} {c : Cursor} : Derives (.many p) c [] c
  | more {p : Pattern} {c c₁ c₂ c₃ : Cursor} {parts others : List Part} :
      Derives p c parts c₁ → Gap c₁ c₂ → Derives (.many p) c₂ others c₃ →
      Derives (.many p) c (parts ++ others) c₃
  | rule {what : Construct} {p : Pattern} {c c' : Cursor} {parts : List Part} :
      Derives p c parts c' → Derives (.rule what p) c [.node what parts] c'

namespace Pattern

/-- A name; its part depends on where it stands. -/
def identifier (part : Name → Part) : Pattern := .name isLetter isLetterOrDigit part

/-- The label of a message. -/
def label : Pattern := .name isLetterOrDigit isLabelPart fun name => .text .label name.text

/-- One name or more, with commas between them. -/
def identifiers : Pattern :=
  .seq (identifier .name) (.many (.seq (.word ",") (identifier .name)))

/-- A declaration `component A, B;`. -/
def components : Pattern :=
  .rule .components (.seq (.word "component") (.seq identifiers (.word ";")))

/-- A message `message label;`. -/
def message : Pattern := .rule .message (.seq (.word "message") (.seq label (.word ";")))

/-- A condition `condition Name;`. -/
def condition : Pattern :=
  .rule .condition (.seq (.word "condition")
    (.seq (identifier fun name => .text .identifier name.text) (.word ";")))

/-- A message or a condition. -/
def event : Pattern := .either message condition

/-- The word `instance`, a name, and events in braces. -/
def lifelineBlock : Pattern :=
  .rule .lifeline (.seq (.word "instance") (.seq (identifier .name) (.seq (.word "\x7b")
    (.seq (.many event) (.word "\x7d")))))

/-- The word `bmsc`, a name, and lifelines in braces. -/
def scenarioBlock : Pattern :=
  .rule .scenario (.seq (.word "bmsc") (.seq (identifier .name) (.seq (.word "\x7b")
    (.seq (.many lifelineBlock) (.word "\x7d")))))

/-- Arrows `Name -> A, B;`. -/
def arrows : Pattern :=
  .rule .arrows (.seq (identifier .name) (.seq (.word "->") (.seq identifiers (.word ";"))))

/-- The word `hmsc`, and arrows in braces. -/
def flow : Pattern :=
  .rule .flow (.seq (.word "hmsc") (.seq (.word "\x7b") (.seq (.many arrows) (.word "\x7d"))))

/-- A declaration of components, a scenario or a flow block. -/
def item : Pattern := .either components (.either scenarioBlock flow)

/-- Any number of items from the beginning of the text to its end. -/
def document : Pattern := .rule .document (.seq .start (.seq (.many item) .stop))

end Pattern

/-- A tree can be derived for a text. -/
def Derivable (text : String) (part : Part) : Prop :=
  ∃ c, Derives .document (.ofText text) [part] c

/-! ## Spelling -/

/-- A first character of one class and all others of another. -/
def isSpelled (isFirst isOther : Char → Bool) (text : String) : Bool :=
  match text.toList with
  | [] => false
  | first :: others => isFirst first && others.all isOther

/-- Whether a string can be a name. -/
def isIdentifier : String → Bool := isSpelled isLetter isLetterOrDigit

/-- Whether a string can be the label of a message. -/
def isLabel : String → Bool := isSpelled isLetterOrDigit isLabelPart

/-- Whether an event can be written down. -/
def hasSpelling : Event → Bool
  | .message label => isLabel label
  | .condition label => isIdentifier label

end Document

/-! ## Gaps and what is behind them -/

namespace Cursor

variable {c c₁ c₂ c' : Cursor} {ch : Char} {chars : List Char}

/-- The character behind the blanks and comments. -/
def next (c : Cursor) : Option Char := c.skip.rest.head?

/-- No gap can begin with the character. -/
def isSolid (ch : Char) : Bool := !isBlank ch && decide (ch ≠ '/')

theorem Spells.length_eq (h : Spells chars c c') : c.rest.length = chars.length + c'.rest.length := by
  rw [h.rest, List.length_append]

theorem skip_eq_of_blank (hch : isBlank ch = true) (h : Spells [ch] c c₁) : c.skip = c₁.skip := by
  unfold skip
  rw [h.rest, h.offset]
  show skipFrom false c.offset (ch :: c₁.rest) = _
  rw [skipFrom, if_neg Bool.false_ne_true, if_pos hch]
  rfl

theorem skipFrom_comment {body rest : List Char} (hbody : ∀ ch ∈ body, isLineEnd ch = false)
    (hrest : ∀ ch, rest.head? = some ch → isLineEnd ch = true) (offset : Nat) :
    skipFrom true offset (body ++ rest) = skipFrom false (offset + bytes body) rest := by
  induction body generalizing offset with
  | nil =>
      cases rest with
      | nil => rfl
      | cons ch rest =>
          have hch := hrest ch rfl
          have hblank : isBlank ch = true := by simp [isBlank, hch]
          show skipFrom true offset (ch :: rest) = skipFrom false offset (ch :: rest)
          rw [skipFrom, if_pos rfl, hch, skipFrom, if_neg Bool.false_ne_true, if_pos hblank]
          rfl
  | cons ch body ih =>
      rw [List.cons_append, skipFrom, if_pos rfl, hbody ch List.mem_cons_self]
      show skipFrom true _ _ = _
      rw [ih fun b hb => hbody b (List.mem_cons_of_mem ch hb), bytes, Nat.add_assoc]

/-- A gap does not change where one gets to when all of it is passed. -/
theorem Gap.skip_eq (h : Gap c c') : c.skip = c'.skip := by
  induction h with
  | nil => rfl
  | blank hch hspells _ ih => exact (skip_eq_of_blank hch hspells).trans ih
  | @comment c c₁ c₂ body hbody hspells hend _ ih =>
      rw [← ih]
      unfold skip
      rw [hspells.rest, hspells.offset]
      show skipFrom false c.offset ('/' :: '/' :: (body ++ c₁.rest)) = _
      rw [skipFrom, if_neg Bool.false_ne_true, if_neg (by decide), if_pos (by simp), skipFrom,
        if_pos rfl, show (!isLineEnd '/') = true from rfl, skipFrom_comment hbody hend]
      congr 1
      simp only [bytes]
      omega

theorem Gap.next_eq (h : Gap c c') : c.next = c'.next := by
  unfold next
  rw [h.skip_eq]

theorem Gap.trans (h₁ : Gap c c₁) (h₂ : Gap c₁ c₂) : Gap c c₂ := by
  induction h₁ with
  | nil => exact h₂
  | blank hch hspells _ ih => exact .blank hch hspells (ih h₂)
  | comment hbody hspells hend _ ih => exact .comment hbody hspells hend (ih h₂)

theorem Gap.length_le (h : Gap c c') : c'.rest.length ≤ c.rest.length := by
  induction h with
  | nil => exact Nat.le_refl _
  | blank _ hspells _ ih => exact Nat.le_trans ih (hspells.length_eq ▸ Nat.le_add_left _ _)
  | comment _ hspells _ _ ih => exact Nat.le_trans ih (hspells.length_eq ▸ Nat.le_add_left _ _)

/-- What is passed is a gap, also when one begins within a comment. -/
theorem gap_skipFrom (offset : Nat) (rest : List Char) :
    Gap ⟨offset, rest⟩ (skipFrom false offset rest) ∧
      ∃ body c₁, (∀ ch ∈ body, isLineEnd ch = false) ∧ Spells body ⟨offset, rest⟩ c₁ ∧
        (∀ ch, c₁.rest.head? = some ch → isLineEnd ch = true) ∧
        Gap c₁ (skipFrom true offset rest) := by
  induction rest generalizing offset with
  | nil =>
      exact ⟨.nil _, [], ⟨offset, []⟩, fun _ h => absurd h List.not_mem_nil, ⟨rfl, rfl⟩,
        fun _ h => (nomatch h), .nil _⟩
  | cons ch rest ih =>
      obtain ⟨hgap, body, c₁, hbody, hspells, hend, hcomment⟩ := ih (offset + ch.utf8Size)
      have hone : Spells [ch] ⟨offset, ch :: rest⟩ ⟨offset + ch.utf8Size, rest⟩ := ⟨rfl, rfl⟩
      constructor
      · rw [skipFrom, if_neg Bool.false_ne_true]
        split
        · rename_i hblank
          exact .blank hblank hone hgap
        split
        · rename_i hslash
          rw [Bool.and_eq_true, decide_eq_true_eq, decide_eq_true_eq] at hslash
          obtain ⟨rfl, hhead⟩ := hslash
          -- the second slash is the first character that the comment passes
          obtain _ | ⟨slash, body⟩ := body
          · rw [← hspells.rest.trans (List.nil_append _)] at hend
            exact absurd (hend '/' hhead) (by decide)
          · obtain ⟨rest, rfl⟩ : ∃ r, rest = '/' :: r := List.head?_eq_some_iff.mp hhead
            obtain rfl : '/' = slash := (List.cons.inj hspells.rest).1
            refine .comment (fun b hb => hbody b (List.mem_cons_of_mem _ hb))
              ⟨congrArg _ hspells.rest, ?_⟩ hend hcomment
            rw [hspells.offset]
            simp only [bytes]
            omega
        · exact .nil _
      · rw [skipFrom, if_pos rfl]
        by_cases hline : isLineEnd ch = true
        · have hblank : isBlank ch = true := by simp [isBlank, hline]
          refine ⟨[], ⟨offset, ch :: rest⟩, fun _ h => absurd h List.not_mem_nil, ⟨rfl, rfl⟩,
            fun b hb => ?_, .blank hblank hone ?_⟩
          · exact Option.some.inj hb ▸ hline
          · rw [hline]
            exact hgap
        · rw [Bool.not_eq_true] at hline
          refine ⟨ch :: body, c₁, fun b hb => ?_, ⟨congrArg _ hspells.rest, ?_⟩, hend, ?_⟩
          · rcases List.mem_cons.mp hb with rfl | hb
            · exact hline
            · exact hbody b hb
          · rw [hspells.offset, bytes, Nat.add_assoc]
          · rw [hline]
            exact hcomment

theorem gap_skip (c : Cursor) : Gap c c.skip := (gap_skipFrom c.offset c.rest).1

/-- Where no gap can begin, none is passed. -/
theorem skip_eq_self {rest : List Char} (hrest : c.rest = ch :: rest) (hch : isSolid ch = true) :
    c.skip = c := by
  obtain ⟨hblank, hslash⟩ := (Bool.and_eq_true _ _).mp hch
  cases c
  cases hrest
  have hslash : ch ≠ '/' := of_decide_eq_true hslash
  unfold skip
  rw [skipFrom, if_neg Bool.false_ne_true, if_neg (by simpa using hblank), if_neg (by simp [hslash])]

theorem next_eq_of_rest {rest : List Char} (hrest : c.rest = ch :: rest) (hch : isSolid ch = true) :
    c.next = some ch := by
  unfold next
  rw [skip_eq_self hrest hch, hrest]
  rfl

/-! ## Words -/

theorem behind_eq_some_iff {word text rest : List Char} :
    behind word text = some rest ↔ text = word ++ rest := by
  induction word generalizing text with
  | nil => exact Option.some_inj
  | cons w ws ih =>
      cases text with
      | nil => exact ⟨fun h => (nomatch h), fun h => (nomatch h)⟩
      | cons c cs =>
          rw [behind, List.cons_append, List.cons.injEq]
          split
          · rename_i heq
            rw [ih]
            exact ⟨fun h => ⟨heq.symm, h⟩, And.right⟩
          · rename_i hne
            exact ⟨fun h => (nomatch h), fun h => absurd h.1.symm hne⟩

theorem pass?_eq_some_iff {word : String} : c.pass? word = some c' ↔ Spells word.toList c c' := by
  unfold pass?
  rw [Option.map_eq_some_iff]
  refine ⟨fun h => ?_, fun h => ⟨c'.rest, behind_eq_some_iff.mpr h.rest, ?_⟩⟩
  · obtain ⟨rest, hrest, rfl⟩ := h
    exact ⟨behind_eq_some_iff.mp hrest, rfl⟩
  · rw [← h.offset]

/-- A run is the one string of the class that cannot go on. -/
theorem run_eq_iff {inClass : Char → Bool} : c.run inClass = (chars, c') ↔
    (∀ ch ∈ chars, inClass ch = true) ∧ (∀ ch, c'.rest.head? = some ch → inClass ch = false) ∧
      Spells chars c c' := by
  unfold run
  dsimp only
  rw [Prod.mk.injEq]
  constructor
  · rintro ⟨rfl, rfl⟩
    refine ⟨fun ch hch => List.all_eq_true.mp List.all_takeWhile ch hch, fun ch hch => ?_,
      ⟨List.takeWhile_append_dropWhile.symm, rfl⟩⟩
    have hnot := List.head?_dropWhile_not inClass c.rest
    rw [hch] at hnot
    exact hnot
  · rintro ⟨hchars, hend, hspells⟩
    have htake : c'.rest.takeWhile inClass = [] := by
      cases hrest : c'.rest with
      | nil => rfl
      | cons ch rest =>
          rw [List.takeWhile_cons, hend ch (by rw [hrest]; rfl), if_neg Bool.false_ne_true]
    have hdrop : c'.rest.dropWhile inClass = c'.rest := by
      have h := List.takeWhile_append_dropWhile (p := inClass) (l := c'.rest)
      rwa [htake, List.nil_append] at h
    have htaken : c.rest.takeWhile inClass = chars := by
      rw [hspells.rest, List.takeWhile_append_of_pos hchars, htake, List.append_nil]
    refine ⟨htaken, ?_⟩
    rw [htaken, ← hspells.offset, hspells.rest, List.dropWhile_append_of_pos hchars, hdrop]

end Cursor

end ScenarioFsp
