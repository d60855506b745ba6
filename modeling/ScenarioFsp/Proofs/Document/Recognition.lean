import ScenarioFsp.Proofs.Document.Lookahead
import ScenarioFsp.Proofs.Document.Walk

/-!
# Exactly what can be derived is read

Each rule of the grammar is read by a reader that is composed as the rule is, and the first
characters of what may follow tell the alternatives and the ends of repetitions apart. So
there is one derivation for each text that is read, and none for any other
(`read_iff_derivable`).
-/

namespace ScenarioFsp

namespace Document

open Reader
open Cursor (Gap)

/-! ## The rules -/

theorem isSolid_of_isLabelPart {ch : Char} (h : isLabelPart ch = true) :
    Cursor.isSolid ch = true := by
  by_contra hnot
  have hch : ch = ' ' ∨ ch = '\t' ∨ ch = '\n' ∨ ch = '\r' ∨ ch = '/' := by
    simp [Cursor.isSolid, Cursor.isBlank, Cursor.isLineEnd] at hnot
    tauto
  rcases hch with rfl | rfl | rfl | rfl | rfl <;> exact absurd h (by decide)

theorem isLabelPart_of_isLetterOrDigit {ch : Char} (h : isLetterOrDigit ch = true) :
    isLabelPart ch = true := by
  rw [isLabelPart, h, Bool.true_or]

theorem isLetterOrDigit_of_isLetter {ch : Char} (h : isLetter ch = true) :
    isLetterOrDigit ch = true := by
  unfold isLetter at h
  unfold isLetterOrDigit Char.isAlphanum
  rw [Bool.or_right_comm, h, Bool.true_or]

theorem isSolid_of_isLetterOrDigit {ch : Char} (h : isLetterOrDigit ch = true) :
    Cursor.isSolid ch = true := isSolid_of_isLabelPart (isLabelPart_of_isLetterOrDigit h)

theorem isSolid_of_isLetter {ch : Char} (h : isLetter ch = true) : Cursor.isSolid ch = true :=
  isSolid_of_isLetterOrDigit (isLetterOrDigit_of_isLetter h)

theorem heads_identifier (part : Name → Part) : (Pattern.identifier part).Heads isLetter :=
  Pattern.heads_name fun _ => isSolid_of_isLetter

theorem reads_identifier (part : Name → Part) {marks : List Char}
    (hmarks : marks.any isLetterOrDigit = false) :
    Reads Gap (Part.leaf identifier part) (.identifier part) (OneOf marks) :=
  (reads_name part (fun _ => isSolid_of_isLetterOrDigit)
    fun _ h => h.eq_false hmarks).skip (heads_identifier part).skip_eq fun _ _ => rfl

theorem heads_label : Pattern.label.Heads isLetterOrDigit :=
  Pattern.heads_name fun _ => isSolid_of_isLetterOrDigit

theorem reads_label : Reads Gap (Part.leaf label fun name => .text .label name.text) .label
    (OneOf [';']) :=
  (reads_name _ (fun _ => isSolid_of_isLabelPart)
    fun _ h => h.eq_false rfl).skip heads_label.skip_eq fun _ _ => rfl

theorem heads_comma : (Pattern.word ",").Heads fun b => decide (b = ',') :=
  Pattern.heads_word "," ',' rfl rfl

theorem heads_semicolon : (Pattern.word ";").Heads fun b => decide (b = ';') :=
  Pattern.heads_word ";" ';' rfl rfl

theorem reads_semicolon : Reads Gap (Part.silent (mark ";")) (.word ";") Always :=
  reads_mark ";" ';' rfl rfl

theorem reads_identifiers : Reads Gap Part.identifiers .identifiers (OneOf [';']) := by
  have hmember : Reads Gap (Part.seq (Part.silent (mark ",")) Part.identifier)
      (.seq (.word ",") (.identifier .name)) (OneOf [',', ';']) :=
    (reads_mark "," ',' rfl rfl).seq (reads_identifier .name rfl) fun _ _ => trivial
  -- behind a member there is a comma or the end of the list, and neither can be part of a name
  have hcomma : ∀ ch, decide (ch = ',') = true → OneOf [',', ';'] (some ch) := fun ch hch =>
    ⟨',', by decide, congrArg some (of_decide_eq_true hch)⟩
  have hmore : ∀ o, OneOf [';'] o → OneOf [',', ';'] o := fun o ⟨ch, hch, ho⟩ =>
    ⟨ch, List.mem_cons_of_mem _ hch, ho⟩
  have hheads := heads_comma.seq (.identifier .name)
  refine (reads_identifier .name rfl).seq (hmember.repeated hheads hcomma hmore ?_)
    (next_many hheads hcomma hmore)
  exact fun ch h => h.eq_false (F := fun b => decide (b = ',')) rfl

theorem reads_components : Reads Eq Part.components .components Always :=
  (reads_identifiers.before reads_semicolon heads_semicolon).behind.rule

theorem heads_components : Pattern.components.Heads fun b => decide (b = 'c') :=
  ((Pattern.heads_word "component" 'c' rfl rfl).seq _).rule _

theorem reads_message : Reads Eq Part.message .message Always :=
  (reads_label.before reads_semicolon heads_semicolon).behind.rule

theorem reads_condition : Reads Eq Part.condition .condition Always :=
  ((reads_identifier _ rfl).before reads_semicolon heads_semicolon).behind.rule

theorem heads_message : Pattern.message.Heads fun b => decide (b = 'm') :=
  ((Pattern.heads_word "message" 'm' rfl rfl).seq _).rule _

theorem heads_condition : Pattern.condition.Heads fun b => decide (b = 'c') :=
  ((Pattern.heads_word "condition" 'c' rfl rfl).seq _).rule _

theorem reads_event : Reads Eq (either Part.message Part.condition) .event Always :=
  reads_message.either reads_condition heads_message heads_condition fun ch h => by
    rw [of_decide_eq_true h]
    rfl

/-- Blocks are read up to the brace that closes them. -/
theorem reads_block {r : Reader (List Part)} {p : Pattern} {F : Char → Bool}
    (h : Reads Eq r p Always) (hp : p.Heads F) (hF : F '\x7d' = false) :
    Reads Gap (Part.seq (Part.silent (mark "\x7b")) (Part.seq
        (Part.repeated (Part.seq (Part.silent skip) r)) (Part.silent (mark "\x7d"))))
      (.seq (.word "\x7b") (.seq (.many p) (.word "\x7d"))) Always := by
  have hmany : Reads Gap (Part.repeated (Part.seq (Part.silent skip) r)) (.many p)
      (OneOf ['\x7d']) :=
    (h.skip hp.skip_eq (seq_skip r)).repeated hp (fun _ _ => trivial) (fun _ _ => trivial)
      fun ch hch => hch.eq_false (by simpa using hF)
  exact (reads_mark "\x7b" '\x7b' rfl rfl).seq (hmany.before
    (reads_mark "\x7d" '\x7d' rfl rfl) (Pattern.heads_word "\x7d" '\x7d' rfl rfl))
      fun _ _ => trivial

theorem heads_brace (p : Pattern) :
    (Pattern.seq (.word "\x7b") p).Heads fun b => decide (b = '\x7b') :=
  (Pattern.heads_word "\x7b" '\x7b' rfl rfl).seq p

theorem reads_lifelineBlock : Reads Eq Part.lifelineBlock .lifelineBlock Always :=
  ((reads_identifier .name rfl).before
    (reads_block reads_event (heads_message.either heads_condition) (by decide))
    (heads_brace _)).behind.rule

theorem heads_lifelineBlock : Pattern.lifelineBlock.Heads fun b => decide (b = 'i') :=
  ((Pattern.heads_word "instance" 'i' rfl rfl).seq _).rule _

theorem reads_scenarioBlock : Reads Eq Part.scenarioBlock .scenarioBlock Always :=
  ((reads_identifier .name rfl).before
    (reads_block reads_lifelineBlock heads_lifelineBlock (by decide)) (heads_brace _)).behind.rule

theorem heads_scenarioBlock : Pattern.scenarioBlock.Heads fun b => decide (b = 'b') :=
  ((Pattern.heads_word "bmsc" 'b' rfl rfl).seq _).rule _

theorem heads_arrow : (Pattern.word "->").Heads fun b => decide (b = '-') :=
  Pattern.heads_word "->" '-' rfl rfl

theorem reads_arrows : Reads Eq Part.arrows .arrows Always := by
  have htargets : Reads Gap (Part.seq (Part.silent (mark "->")) (Part.seq Part.identifiers
      (Part.silent (mark ";")))) (.seq (.word "->") (.seq .identifiers (.word ";"))) Always :=
    (reads_mark "->" '-' rfl rfl).seq (reads_identifiers.before reads_semicolon heads_semicolon)
      fun _ _ => trivial
  exact ((reads_identifier .name rfl).before htargets (heads_arrow.seq _)).rule.exact

theorem heads_arrows : Pattern.arrows.Heads isLetter := ((heads_identifier .name).seq _).rule _

theorem reads_flow : Reads Eq Part.flow .flow Always :=
  (reads_block reads_arrows heads_arrows (by decide)).behind.rule

theorem heads_flow : Pattern.flow.Heads fun b => decide (b = 'h') :=
  ((Pattern.heads_word "hmsc" 'h' rfl rfl).seq _).rule _

theorem reads_item : Reads Eq Part.item .item Always := by
  refine reads_components.either (reads_scenarioBlock.either reads_flow heads_scenarioBlock
    heads_flow fun ch h => ?_) heads_components (heads_scenarioBlock.either heads_flow) fun ch h => ?_
  · rw [of_decide_eq_true h]
    rfl
  · rcases (Bool.or_eq_true _ _).mp h with h | h
    · rw [of_decide_eq_true h]
      rfl
    · rw [of_decide_eq_true h]
      rfl

theorem heads_item : Pattern.item.Heads fun ch =>
    decide (ch = 'c') || (decide (ch = 'b') || decide (ch = 'h')) :=
  heads_components.either (heads_scenarioBlock.either heads_flow)

theorem skip_of_rest_eq_nil {c : Cursor} (h : c.rest = []) : c.skip = c := by
  cases c
  cases h
  rfl

theorem reads_stop : Reads Eq (Part.rule .endOfText (Part.silent atEnd)) .stop Always where
  sound := by
    intro c tried parts c' tried' h
    obtain ⟨inner, behind, hinner, heq⟩ := rule_eq_some.mp h
    cases heq
    obtain ⟨behind', hend, heq⟩ := silent_eq_some.mp hinner
    cases heq
    unfold atEnd at hend
    split at hend
    · rename_i hempty
      cases hend
      exact ⟨c, .nil c, .stop (List.isEmpty_iff.mp hempty)⟩
    · exact nomatch hend
  finds := by
    rintro c _ parts c' tried rfl hstop -
    cases hstop with
    | stop hrest =>
        have hend : atEnd c tried = (some ((), c), tried) := by
          unfold atEnd
          rw [hrest]
          rfl
        have hsilent := silent_eq_some.mpr ⟨c, hend, rfl⟩
        exact ⟨c, tried, rule_eq_some.mpr ⟨[], c, hsilent, rfl⟩, .nil c⟩

/-- The reader of documents starts anywhere; that it starts at the beginning is up to its caller. -/
theorem reads_document :
    Reads Gap Part.document (.rule .document (.seq (.many .item) .stop)) Always := by
  have hitems : Reads Gap (Part.repeated (Part.seq (Part.silent skip) Part.item)) (.many .item)
      fun o => o = none :=
    (reads_item.skip heads_item.skip_eq (seq_skip _)).repeated heads_item (fun _ _ => trivial)
      (fun _ _ => trivial) fun _ h => (nomatch h)
  have hskip : ∀ ⦃c parts c'⦄, Derives .stop c parts c' → c.skip = c := by
    intro c parts c' h
    cases h with
    | stop hrest => exact skip_of_rest_eq_nil hrest
  refine (hitems.seq (reads_stop.skip hskip (seq_skip _)) fun {c parts c'} h _ => ?_).rule
  cases h with
  | stop hrest =>
      show c.skip.rest.head? = none
      rw [skip_of_rest_eq_nil hrest, hrest]
      rfl

/-! ## Whole texts -/

theorem derivable_iff {text : String} {part : Part} :
    Derivable text part ↔ readTree text = .ok [part] := by
  unfold readTree
  constructor
  · rintro ⟨c, hderives⟩
    obtain ⟨parts, rfl⟩ : ∃ parts, part = .node .document parts := by
      cases hderives
      exact ⟨_, rfl⟩
    cases hderives with
    | rule hseq =>
        cases hseq with
        | seq hstart hgap hrest =>
            -- the gap behind the start is passed by the reader of documents itself
            cases hstart
            obtain ⟨c', tried', hread, -⟩ := reads_document.finds .none hgap (.rule hrest) trivial
            rw [hread]
            rfl
  · intro h
    split at h
    · rename_i parts c tried hread
      obtain rfl := Except.ok.inj h
      obtain ⟨c₀, hgap, hderives⟩ := reads_document.sound hread
      cases hderives with
      | rule hrest => exact ⟨c, .rule (.seq (.start rfl) hgap hrest)⟩
    · exact nomatch h

/--
**The reader accepts exactly what the grammar derives.** A text can be read if and only if there
is a derivation for it. There are not two derivations with different trees, and the tree is the
one of the document, over which the walk goes to where loading ends.
-/
theorem read_iff_derivable (text : String) :
    ((∃ d, read text = .ok d) ↔ ∃ part, Derivable text part) ∧
      (∀ part part', Derivable text part → Derivable text part' → part = part') ∧
      ∀ part, Derivable text part →
        ∃ d, read text = .ok d ∧ part = d.tree ∧ walk part = .ok d.load := by
  have htree : ∀ part, Derivable text part ↔ ∃ d, read text = .ok d ∧ part = d.tree := by
    intro part
    rw [derivable_iff, readTree_eq]
    cases hread : read text with
    | error e => exact ⟨fun h => (nomatch h), fun ⟨_, h, _⟩ => (nomatch h)⟩
    | ok d =>
        refine ⟨fun h => ⟨d, rfl, (List.singleton_inj.mp (Except.ok.inj h)).symm⟩, ?_⟩
        rintro ⟨_, hd, rfl⟩
        obtain rfl := Except.ok.inj hd
        rfl
  refine ⟨⟨fun ⟨d, hd⟩ => ⟨d.tree, (htree _).mpr ⟨d, hd, rfl⟩⟩, fun ⟨part, h⟩ => ?_⟩,
    fun part part' h h' => ?_, fun part h => ?_⟩
  · obtain ⟨d, hd, -⟩ := (htree part).mp h
    exact ⟨d, hd⟩
  · obtain ⟨d, hd, rfl⟩ := (htree part).mp h
    obtain ⟨d', hd', rfl⟩ := (htree part').mp h'
    rw [Except.ok.inj (hd.symm.trans hd')]
  · obtain ⟨d, hd, rfl⟩ := (htree part).mp h
    exact ⟨d, hd, rfl, d.walk_tree⟩

/-- A component with the name of a word of the language, and nothing between the two words. -/
def tight : String := "componentcomponent;// the end"

theorem read_iff_derivable_tight : ∃ d, read tight = .ok d ∧ Derivable tight d.tree ∧
    ∀ part, Derivable tight part → part = d.tree := by
  obtain ⟨hread, hunique, htree⟩ := read_iff_derivable tight
  have hsome : (read tight).toOption.isSome = true := by decide +kernel
  cases hd : read tight with
  | error e =>
      rw [hd] at hsome
      exact absurd hsome (by simp [Except.toOption])
  | ok d =>
      obtain ⟨part, hpart⟩ := hread.mp ⟨d, hd⟩
      obtain ⟨d', hd', rfl, -⟩ := htree part hpart
      obtain rfl := Except.ok.inj (hd.symm.trans hd')
      exact ⟨d, rfl, hpart, fun part hother => hunique part d.tree hother hpart⟩

end Document

end ScenarioFsp
