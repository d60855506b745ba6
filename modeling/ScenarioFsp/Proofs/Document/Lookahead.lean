import ScenarioFsp.Proofs.Document.Grammar

/-!
# Reading with one character ahead

A reader never turns back: an alternative that it has taken stays taken, and a name or a
repetition is as long as it can be. This costs no derivation as long as the character
behind the gap tells what comes. `Reads` says of a reader that what it reads can be derived,
and that it reads whatever can be derived in front of certain next characters; the operators
on readers keep this (`Reads.seq`, `Reads.either`, `Reads.repeated`, `Reads.rule`).
-/

namespace ScenarioFsp

namespace Document

open Cursor (Gap Spells)

variable {p q : Pattern} {c c' : Cursor} {parts : List Part} {F G : Char → Bool}

/-! ## First characters -/

/-- Derivations of the pattern begin with a character of the class, not with a gap, and take it. -/
def Pattern.Heads (p : Pattern) (F : Char → Bool) : Prop :=
  ∀ ⦃c parts c'⦄, Derives p c parts c' → ∃ ch rest, c.rest = ch :: rest ∧ F ch = true ∧
    Cursor.isSolid ch = true ∧ c'.rest.length ≤ rest.length

theorem Derives.length_le (h : Derives p c parts c') : c'.rest.length ≤ c.rest.length := by
  induction h with
  | start _ => exact Nat.le_refl _
  | stop _ => exact Nat.le_refl _
  | word hspells => exact hspells.length_eq ▸ Nat.le_add_left _ _
  | name _ _ hspells => exact hspells.length_eq ▸ Nat.le_add_left _ _
  | seq _ hgap _ ih ih' => exact Nat.le_trans ih' (Nat.le_trans hgap.length_le ih)
  | left _ ih => exact ih
  | right _ ih => exact ih
  | none => exact Nat.le_refl _
  | more _ hgap _ ih ih' => exact Nat.le_trans ih' (Nat.le_trans hgap.length_le ih)
  | rule _ ih => exact ih

namespace Pattern

theorem heads_word (text : String) (ch : Char) (htext : text.toList.head? = some ch)
    (hch : Cursor.isSolid ch = true) : (word text).Heads fun b => decide (b = ch) := by
  obtain ⟨others, htext⟩ := List.head?_eq_some_iff.mp htext
  intro c parts c' h
  cases h with
  | word hspells =>
      have hrest := hspells.rest
      rw [htext] at hrest
      exact ⟨ch, others ++ c'.rest, hrest, decide_eq_true rfl, hch, by simp⟩

theorem heads_name {isFirst isOther : Char → Bool} {part : Name → Part}
    (h : ∀ ch, isFirst ch = true → Cursor.isSolid ch = true) :
    (name isFirst isOther part).Heads isFirst := by
  intro c parts c' hname
  cases hname with
  | @name _ _ _ _ _ first others hfirst _ hspells =>
      exact ⟨first, others ++ c'.rest, hspells.rest, hfirst, h _ hfirst, by simp⟩

theorem Heads.seq (h : p.Heads F) (q : Pattern) : (p.seq q).Heads F := by
  intro c parts c' hseq
  cases hseq with
  | seq hp hgap hq =>
      obtain ⟨ch, rest, hrest, hF, hsolid, hle⟩ := h hp
      exact ⟨ch, rest, hrest, hF, hsolid, Nat.le_trans hq.length_le (Nat.le_trans hgap.length_le hle)⟩

theorem Heads.either (h : p.Heads F) (h' : q.Heads G) :
    (p.either q).Heads fun ch => F ch || G ch := by
  intro c parts c' heither
  cases heither with
  | left hp =>
      obtain ⟨ch, rest, hrest, hF, hsolid⟩ := h hp
      exact ⟨ch, rest, hrest, by simp [hF], hsolid⟩
  | right hq =>
      obtain ⟨ch, rest, hrest, hG, hsolid⟩ := h' hq
      exact ⟨ch, rest, hrest, by simp [hG], hsolid⟩

theorem Heads.rule (h : p.Heads F) (what : Construct) : (p.rule what).Heads F := by
  intro c parts c' hrule
  cases hrule with
  | rule hp => exact h hp

theorem Heads.next_eq (h : p.Heads F) (hp : Derives p c parts c') :
    ∃ ch, c.next = some ch ∧ F ch = true := by
  obtain ⟨ch, rest, hrest, hF, hsolid, -⟩ := h hp
  exact ⟨ch, Cursor.next_eq_of_rest hrest hsolid, hF⟩

theorem Heads.skip_eq (h : p.Heads F) ⦃c : Cursor⦄ ⦃parts : List Part⦄ ⦃c' : Cursor⦄
    (hp : Derives p c parts c') : c.skip = c := by
  obtain ⟨ch, rest, hrest, -, hsolid, -⟩ := h hp
  exact Cursor.skip_eq_self hrest hsolid

theorem Heads.length_lt (h : p.Heads F) (hp : Derives p c parts c') :
    c'.rest.length < c.rest.length := by
  obtain ⟨ch, rest, hrest, -, -, hle⟩ := h hp
  rw [hrest]
  exact Nat.lt_succ_of_le hle

end Pattern

end Document

namespace Reader

open Document (Part Pattern Derives)
open Cursor (Gap Spells)

variable {r s : Reader (List Part)} {p q : Pattern} {start : Cursor → Cursor → Prop}
  {S T : Option Char → Prop} {F G : Char → Bool}

/-! ## Readers of patterns -/

/-- What is read is derived, and what can be derived in front of a next character of which `T` is
true is read. A reader that passes a gap itself may start before it. -/
structure Reads (start : Cursor → Cursor → Prop) (r : Reader (List Part)) (p : Pattern)
    (T : Option Char → Prop) : Prop where
  sound : ∀ {c tried parts c' tried'}, r c tried = (some (parts, c'), tried') →
    ∃ c₀, Gap c c₀ ∧ Derives p c₀ parts c'
  finds : ∀ {c c₀ parts c'} (tried : Attempts), start c c₀ → Derives p c₀ parts c' →
    T c'.next → ∃ c'' tried', r c tried = (some (parts, c''), tried') ∧ Gap c'' c'

/-- No condition on what comes next. -/
def Always (_ : Option Char) : Prop := True

theorem Reads.exact (h : Reads Gap r p T) : Reads Eq r p T :=
  ⟨h.sound, fun tried hstart hp hT => h.finds tried (hstart ▸ .nil _) hp hT⟩

/-- Where the pattern cannot begin nothing is read. -/
theorem Reads.eq_none (h : Reads start r p T) (hheads : p.Heads F) {c : Cursor}
    (hnext : ∀ ch, c.next = some ch → F ch = false) (tried : Attempts) :
    (r c tried).1 = none := by
  cases hr : r c tried with
  | mk found tried' =>
      cases found with
      | none => rfl
      | some found =>
          obtain ⟨c₀, hgap, hp⟩ := h.sound hr
          obtain ⟨ch, hch, hF⟩ := hheads.next_eq hp
          exact absurd hF (by rw [hnext ch (hgap.next_eq.trans hch)]; exact Bool.false_ne_true)

/-! ## Operators -/

theorem bind_eq_some {α β : Type} {r : Reader α} {next : α → Reader β} {c : Cursor}
    {tried tried' : Attempts} {found : β × Cursor} :
    (r >>= next) c tried = (some found, tried') ↔ ∃ a behind tried₁,
      r c tried = (some (a, behind), tried₁) ∧ next a behind tried₁ = (some found, tried') := by
  rw [bind_apply]
  constructor
  · intro h
    split at h
    · rename_i a behind tried₁ hr
      exact ⟨a, behind, tried₁, hr, h⟩
    · exact nomatch h
  · rintro ⟨a, behind, tried₁, hr, hnext⟩
    rw [hr]
    exact hnext

theorem construct_eq_some {α : Type} {what : Construct} {r : Reader α} {c : Cursor}
    {tried tried' : Attempts} {found : α × Cursor} :
    construct what r c tried = (some found, tried') ↔ r c tried = (some found, tried') := by
  unfold construct
  split
  · rename_i hnone
    rw [hnone]
    exact ⟨fun h => (nomatch h), fun h => (nomatch h)⟩
  · exact Iff.rfl

theorem silent_eq_some {w : Reader Unit} {c : Cursor} {tried tried' : Attempts}
    {found : List Part × Cursor} : Part.silent w c tried = (some found, tried') ↔
      ∃ behind, w c tried = (some ((), behind), tried') ∧ found = ([], behind) := by
  unfold Part.silent
  rw [bind_eq_some]
  constructor
  · rintro ⟨_, behind, tried₁, hw, hpure⟩
    cases hpure
    exact ⟨behind, hw, rfl⟩
  · rintro ⟨behind, hw, rfl⟩
    exact ⟨(), behind, tried', hw, rfl⟩

theorem rule_eq_some {what : Construct} {c : Cursor} {tried tried' : Attempts}
    {found : List Part × Cursor} : Part.rule what r c tried = (some found, tried') ↔
      ∃ parts behind, r c tried = (some (parts, behind), tried') ∧
        found = ([.node what parts], behind) := by
  unfold Part.rule
  rw [construct_eq_some, bind_eq_some]
  constructor
  · rintro ⟨parts, behind, tried₁, hr, hpure⟩
    cases hpure
    exact ⟨parts, behind, hr, rfl⟩
  · rintro ⟨parts, behind, hr, rfl⟩
    exact ⟨parts, behind, tried', hr, rfl⟩

/-- A reader that passes the gap before it. -/
theorem Reads.skip {r' : Reader (List Part)} (h : Reads Eq r p T)
    (hskip : ∀ ⦃c parts c'⦄, Derives p c parts c' → c.skip = c)
    (hr' : ∀ c tried, r' c tried = r c.skip tried) : Reads Gap r' p T where
  sound := by
    intro c tried parts c' tried' hr
    rw [hr'] at hr
    obtain ⟨c₀, hgap, hp⟩ := h.sound hr
    exact ⟨c₀, (Cursor.gap_skip c).trans hgap, hp⟩
  finds := by
    intro c c₀ parts c' tried hgap hp hT
    rw [hr']
    exact h.finds tried (hgap.skip_eq.trans (hskip hp)) hp hT

theorem seq_skip (r : Reader (List Part)) (c : Cursor) (tried : Attempts) :
    Part.seq (Part.silent Reader.skip) r c tried = r c.skip tried := by
  show Reader.bind r (fun behind => Reader.pure ([] ++ behind)) c.skip tried = _
  unfold Reader.bind
  rcases r c.skip tried with ⟨_ | ⟨parts, behind⟩, tried'⟩ <;> rfl

theorem reads_literal (word : String) :
    Reads Eq (Part.silent (literal word)) (.word word) Always where
  sound := by
    intro c tried parts c' tried' h
    obtain ⟨behind, hliteral, heq⟩ := silent_eq_some.mp h
    cases heq
    unfold literal at hliteral
    obtain ⟨behind', hpass, heq⟩ := Option.map_eq_some_iff.mp (Prod.mk.inj hliteral).1
    cases heq
    exact ⟨c, .nil c, .word (Cursor.pass?_eq_some_iff.mp hpass)⟩
  finds := by
    rintro c _ parts c' tried rfl hword -
    cases hword with
    | word hspells =>
        have hliteral : literal word c tried = (some ((), c'), tried) := by
          unfold literal
          rw [Cursor.pass?_eq_some_iff.mpr hspells]
          rfl
        exact ⟨c', tried, silent_eq_some.mpr ⟨c', hliteral, rfl⟩, .nil c'⟩

theorem reads_mark (word : String) (ch : Char) (hword : word.toList.head? = some ch)
    (hch : Cursor.isSolid ch = true) : Reads Gap (Part.silent (mark word)) (.word word) Always :=
  (reads_literal word).skip (Pattern.heads_word word ch hword hch).skip_eq fun _ _ => rfl

theorem Reads.seq (hr : Reads start r p S) (hs : Reads Gap s q T)
    (hnext : ∀ {c parts c'}, Derives q c parts c' → T c'.next → S c.next) :
    Reads start (Part.seq r s) (.seq p q) T where
  sound := by
    intro c tried parts c' tried' h
    obtain ⟨before, c₁, tried₁, hbefore, h⟩ := bind_eq_some.mp h
    obtain ⟨behind, c₂, tried₂, hbehind, h⟩ := bind_eq_some.mp h
    cases h
    obtain ⟨c₀, hgap, hp⟩ := hr.sound hbefore
    obtain ⟨c₁', hgap', hq⟩ := hs.sound hbehind
    exact ⟨c₀, hgap, .seq hp hgap' hq⟩
  finds := by
    intro c c₀ parts c' tried hstart hseq hT
    cases hseq with
    | seq hp hgap hq =>
        have hS := hgap.next_eq ▸ hnext hq hT
        obtain ⟨c₁, tried₁, hbefore, hgap₁⟩ := hr.finds tried hstart hp hS
        obtain ⟨c₂, tried₂, hbehind, hgap₂⟩ := hs.finds tried₁ (hgap₁.trans hgap) hq hT
        exact ⟨c₂, tried₂, bind_eq_some.mpr ⟨_, c₁, tried₁, hbefore,
          bind_eq_some.mpr ⟨_, c₂, tried₂, hbehind, rfl⟩⟩, hgap₂⟩

/-- Behind a word of the language there may be anything. -/
theorem Reads.behind {word : String} (h : Reads Gap s q T) :
    Reads Eq (Part.seq (Part.silent (literal word)) s) (.seq (.word word) q) T :=
  (reads_literal word).seq h fun _ _ => trivial

theorem Reads.rule {what : Construct} (h : Reads start r p T) :
    Reads start (Part.rule what r) (.rule what p) T where
  sound := by
    intro c tried parts c' tried' hrule
    obtain ⟨inner, behind, hr, heq⟩ := rule_eq_some.mp hrule
    cases heq
    obtain ⟨c₀, hgap, hp⟩ := h.sound hr
    exact ⟨c₀, hgap, .rule hp⟩
  finds := by
    intro c c₀ parts c' tried hstart hrule hT
    cases hrule with
    | rule hp =>
        obtain ⟨c'', tried', hr, hgap⟩ := h.finds tried hstart hp hT
        exact ⟨c'', tried', rule_eq_some.mpr ⟨_, c'', hr, rfl⟩, hgap⟩

/-- Of two alternatives the first is not tried in vain where the second stands. -/
theorem Reads.either (hr : Reads Eq r p T) (hs : Reads Eq s q T) (hp : p.Heads F) (hq : q.Heads G)
    (hFG : ∀ ch, G ch = true → F ch = false) : Reads Eq (Reader.either r s) (.either p q) T where
  sound := by
    intro c tried parts c' tried' h
    unfold Reader.either at h
    split at h
    · obtain ⟨c₀, hgap, hq⟩ := hs.sound h
      exact ⟨c₀, hgap, .right hq⟩
    · obtain ⟨c₀, hgap, hp⟩ := hr.sound h
      exact ⟨c₀, hgap, .left hp⟩
  finds := by
    rintro c _ parts c' tried rfl heither hT
    unfold Reader.either
    cases heither with
    | left hleft =>
        obtain ⟨c'', tried', hfound, hgap⟩ := hr.finds tried rfl hleft hT
        rw [hfound]
        exact ⟨c'', tried', rfl, hgap⟩
    | right hright =>
        obtain ⟨ch, hch, hG⟩ := hq.next_eq hright
        have hnone := hr.eq_none hp (c := c)
          (fun b hb => hFG b (Option.some.inj (hch.symm.trans hb) ▸ hG)) tried
        cases hfound : r c tried with
        | mk found tried' =>
            rw [hfound] at hnone
            cases hnone
            exact hs.finds tried' rfl hright hT

/-! ## Repetitions -/

theorem many_sound (h : Reads Gap r p S) {c c' : Cursor} {tried tried' : Attempts}
    {all : List (List Part)} (hmany : many r c tried = (some (all, c'), tried')) :
    ∃ c₀, Gap c c₀ ∧ Derives (.many p) c₀ all.flatten c' := by
  fun_induction many r c tried generalizing all c' tried' with
  | case1 c tried tried₁ hnone =>
      cases hmany
      exact ⟨c, .nil c, .none⟩
  | case2 c tried parts behind tried₁ hsome hlt others last tried₂ hrest ih =>
      cases hmany
      obtain ⟨c₀, hgap, hp⟩ := h.sound hsome
      obtain ⟨c₁, hgap₁, hothers⟩ := ih hrest
      exact ⟨c₀, hgap, .more hp hgap₁ hothers⟩
  | case3 c tried parts behind tried₁ hsome hlt tried₂ hrest ih =>
      cases hmany
      obtain ⟨c₀, hgap, hp⟩ := h.sound hsome
      exact ⟨c₀, hgap, .more hp (.nil _) .none⟩
  | case4 c tried parts behind tried₁ hsome hlt =>
      cases hmany
      obtain ⟨c₀, hgap, hp⟩ := h.sound hsome
      exact ⟨c₀, hgap, .more hp (.nil _) .none⟩

/-- What follows a repetition follows each of its members, or the next member does. -/
theorem next_many (hp : p.Heads F) (hF : ∀ ch, F ch = true → S (some ch)) (hTS : ∀ o, T o → S o)
    {c c' : Cursor} {parts : List Part} (h : Derives (.many p) c parts c') (hT : T c'.next) :
    S c.next := by
  cases h with
  | none => exact hTS _ hT
  | more hfirst _ _ =>
      obtain ⟨ch, hch, hch'⟩ := hp.next_eq hfirst
      rw [hch]
      exact hF ch hch'

theorem many_finds (h : Reads Gap r p S) (hp : p.Heads F) (hF : ∀ ch, F ch = true → S (some ch))
    (hTS : ∀ o, T o → S o) (hTF : ∀ ch, T (some ch) → F ch = false) {c c₀ c' : Cursor}
    {parts : List Part} (tried : Attempts) (hgap : Gap c c₀) (hmany : Derives (.many p) c₀ parts c')
    (hT : T c'.next) : ∃ all c'' tried', many r c tried = (some (all, c''), tried') ∧
      all.flatten = parts ∧ Gap c'' c' := by
  generalize hpattern : Pattern.many p = pattern at hmany
  induction hmany generalizing c tried with
  | none =>
      cases hpattern
      have hnone := h.eq_none hp (c := c) (fun ch hch => hTF ch (hch ▸ hgap.next_eq ▸ hT)) tried
      cases hr : r c tried with
      | mk found tried' =>
          rw [hr] at hnone
          cases hnone
          refine ⟨[], c, tried', ?_, rfl, hgap⟩
          rw [many, hr]
  | more hfirst hbetween hothers _ ih =>
      cases hpattern
      have hS := hbetween.next_eq ▸ next_many hp hF hTS hothers hT
      obtain ⟨c₁, tried₁, hr, hgap₁⟩ := h.finds tried hgap hfirst hS
      obtain ⟨all, c₂, tried₂, hmany, hall, hgap₂⟩ :=
        ih tried₁ (hgap₁.trans hbetween) hT rfl
      -- the reader has got on, since what it has read is a derivation
      have hlt : c₁.rest.length < c.rest.length := by
        obtain ⟨c₃, hgap₃, hp₃⟩ := h.sound hr
        exact Nat.lt_of_lt_of_le (hp.length_lt hp₃) hgap₃.length_le
      refine ⟨_ :: all, c₂, tried₂, ?_, congrArg _ hall, hgap₂⟩
      rw [many, hr]
      dsimp only
      rw [if_pos hlt, hmany]
  | _ => cases hpattern

theorem Reads.repeated (h : Reads Gap r p S) (hp : p.Heads F)
    (hF : ∀ ch, F ch = true → S (some ch)) (hTS : ∀ o, T o → S o)
    (hTF : ∀ ch, T (some ch) → F ch = false) : Reads Gap (Part.repeated r) (.many p) T where
  sound := by
    intro c tried parts c' tried' hrepeated
    obtain ⟨all, behind, tried₁, hmany, hpure⟩ := bind_eq_some.mp hrepeated
    cases hpure
    exact many_sound h hmany
  finds := by
    intro c c₀ parts c' tried hgap hmany hT
    obtain ⟨all, c'', tried', hfound, hall, hgap'⟩ := many_finds h hp hF hTS hTF tried hgap hmany hT
    exact ⟨c'', tried', bind_eq_some.mpr ⟨all, c'', tried', hfound, hall ▸ rfl⟩, hgap'⟩

/-! ## Names -/

/-- The next character is one of these. -/
def OneOf (marks : List Char) (o : Option Char) : Prop := ∃ ch ∈ marks, o = some ch

theorem OneOf.eq_false {marks : List Char} {ch : Char} (h : OneOf marks (some ch))
    (hF : marks.any F = false) : F ch = false := by
  obtain ⟨b, hb, heq⟩ := h
  rw [Option.some.inj heq]
  exact Bool.eq_false_iff.mpr (List.any_eq_false.mp hF b hb)

/-- In front of a mark. -/
theorem Reads.before {ch : Char} (hr : Reads start r p (OneOf [ch])) (hs : Reads Gap s q T)
    (hq : q.Heads fun b => decide (b = ch)) : Reads start (Part.seq r s) (.seq p q) T :=
  hr.seq hs fun h _ => by
    obtain ⟨b, hb, heq⟩ := hq.next_eq h
    rw [of_decide_eq_true heq] at hb
    exact ⟨ch, List.mem_singleton_self ch, hb⟩

theorem word_eq_some_iff {isFirst isOther : Char → Bool} {c c' : Cursor} {name : Document.Name}
    {tried tried' : Attempts} :
    word isFirst isOther c tried = (some (name, c'), tried') ↔
      tried' = tried ∧ ∃ first others, isFirst first = true ∧ (∀ ch ∈ others, isOther ch = true) ∧
        (∀ ch, c'.rest.head? = some ch → isOther ch = false) ∧ Spells (first :: others) c c' ∧
        name = ⟨String.ofList (first :: others), ⟨c.offset, c'.offset⟩⟩ := by
  have hstep : ∀ {first : Char} {others rest : List Char}, c.rest = first :: rest →
      (Spells others ⟨c.offset + first.utf8Size, rest⟩ c' ↔ Spells (first :: others) c c') := by
    intro first others rest hrest
    refine ⟨fun h => ⟨hrest.trans (congrArg _ h.rest), ?_⟩, fun h => ⟨?_, ?_⟩⟩
    · rw [h.offset, Cursor.bytes, Nat.add_assoc]
    · exact (List.cons.inj (hrest.symm.trans h.rest)).2
    · rw [h.offset, Cursor.bytes, Nat.add_assoc]
  unfold word
  constructor
  · intro h
    split at h
    · cases h
    · rename_i first rest hrest
      split at h
      · rename_i hfirst
        obtain ⟨hothers, hend, hspells⟩ := Cursor.run_eq_iff.mp rfl
        cases h
        exact ⟨rfl, first, _, hfirst, hothers, hend, (hstep hrest).mp hspells, rfl⟩
      · cases h
  · rintro ⟨rfl, first, others, hfirst, hothers, hend, hspells, rfl⟩
    have hrun := Cursor.run_eq_iff.mpr ⟨hothers, hend, (hstep hspells.rest).mpr hspells⟩
    split
    · rename_i hnil
      cases hnil.symm.trans hspells.rest
    · rename_i hrest
      obtain ⟨rfl, rfl⟩ := List.cons.inj (hrest.symm.trans hspells.rest)
      rw [if_pos hfirst]
      dsimp only
      rw [hrun]

theorem reads_name {what : Construct} {isFirst isOther : Char → Bool} (part : Document.Name → Part)
    (hother : ∀ ch, isOther ch = true → Cursor.isSolid ch = true)
    (hT : ∀ ch, T (some ch) → isOther ch = false) :
    Reads Eq (Part.leaf (construct what (word isFirst isOther)) part)
      (.name isFirst isOther part) T where
  sound := by
    intro c tried parts c' tried' h
    obtain ⟨name, behind, tried₁, hname, hpure⟩ := bind_eq_some.mp h
    cases hpure
    obtain ⟨-, first, others, hisFirst, hothers, -, hspells, rfl⟩ :=
      word_eq_some_iff.mp (construct_eq_some.mp hname)
    exact ⟨c, .nil c, .name hisFirst hothers hspells⟩
  finds := by
    rintro c _ parts c' tried rfl hname hnext
    cases hname with
    | name hisFirst hothers hspells =>
        have hend : ∀ ch, c'.rest.head? = some ch → isOther ch = false := by
          intro ch hch
          obtain ⟨rest, hrest⟩ := List.head?_eq_some_iff.mp hch
          -- a further character of the name would be the next one
          by_cases hisOther : isOther ch = true
          · rw [Cursor.next_eq_of_rest hrest (hother ch hisOther)] at hnext
            exact hT ch hnext
          · exact Bool.eq_false_iff.mpr hisOther
        refine ⟨c', tried, bind_eq_some.mpr ⟨_, c', tried, construct_eq_some.mpr ?_, rfl⟩, .nil c'⟩
        exact word_eq_some_iff.mpr ⟨rfl, _, _, hisFirst, hothers, hend, hspells, rfl⟩

end Reader

end ScenarioFsp
