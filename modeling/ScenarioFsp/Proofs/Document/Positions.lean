import Mathlib.Data.List.TakeWhile
import ScenarioFsp.Diagnostic.Snippet
import ScenarioFsp.Proofs.Document.Places

/-!
# Where a reader is told to look

A place is a number of bytes, but a reader is told a line and a column. They are those of
the place: there are as many lines above its own as line feeds in front of it, and the
column counts the characters behind the last of them (`position_eq`). What stands where the
place of a name starts is the name itself (`stands_of_read`), so this is where a reader
finds it (`exists_standsAt`).
-/

namespace ScenarioFsp

namespace Cursor

theorem bytes_append (before after : List Char) :
    bytes (before ++ after) = bytes before + bytes after := by
  induction before with
  | nil => exact (Nat.zero_add _).symm
  | cons c before ih =>
      rw [List.cons_append, bytes, bytes, ih]
      exact (Nat.add_assoc ..).symm

theorem bytes_pos {cs : List Char} (h : cs ≠ []) : 0 < bytes cs := by
  cases cs with
  | nil => exact absurd rfl h
  | cons c cs => exact Nat.lt_of_lt_of_le c.utf8Size_pos (Nat.le_add_right _ _)

end Cursor

open Cursor (bytes bytes_append bytes_pos)

/-! ## Lines and columns -/

namespace Snippet

variable {cs before after : List Char}

/-- The characters behind the last line feed. -/
def lastLine (cs : List Char) : List Char :=
  (cs.reverse.takeWhile fun c => decide (c ≠ '\n')).reverse

theorem lastLine_of_not_mem (h : '\n' ∉ cs) : lastLine cs = cs := by
  have hall : ∀ c ∈ cs.reverse, decide (c ≠ '\n') = true := fun c hc =>
    decide_eq_true fun heq => h (heq ▸ List.mem_reverse.mp hc)
  unfold lastLine
  rw [List.takeWhile_eq_self_iff.mpr hall, List.reverse_reverse]

theorem lastLine_append_lineFeed (before after : List Char) :
    lastLine (before ++ '\n' :: after) = lastLine after := by
  unfold lastLine
  rw [List.reverse_append, List.reverse_cons, List.append_assoc, List.takeWhile_append]
  split
  · rename_i hall
    rw [List.singleton_append, List.takeWhile_cons_of_neg (by simp), List.append_nil,
      (List.takeWhile_prefix _).eq_of_length hall]
  · rfl

theorem le_start_of_mem_numberLines {lines : List (List Char)} {number start : Nat} {line : Line}
    (h : line ∈ numberLines number start lines) : start ≤ line.start := by
  induction lines generalizing number start with
  | nil => exact absurd h List.not_mem_nil
  | cons cs more ih =>
      rcases List.mem_cons.mp h with rfl | hmore
      · exact Nat.le_refl start
      · exact Nat.le_trans (Nat.le_add_right _ _) (ih hmore)

/-- A line that another one follows is not empty. -/
theorem splitLines_fst_ne_nil (h : (splitLines cs).2 ≠ []) : (splitLines cs).1 ≠ [] := by
  cases cs with
  | nil => exact absurd rfl h
  | cons c cs =>
      unfold splitLines
      dsimp only
      split <;> exact List.cons_ne_nil _ _

/-- Lines that are told apart, the first of them behind some more characters. -/
def rows (head cs : List Char) : List (List Char) :=
  (head ++ (splitLines cs).1) :: (splitLines cs).2

theorem rows_lineFeed (head cs : List Char) :
    rows head ('\n' :: cs) = (head ++ ['\n']) :: rows [] cs := by
  unfold rows
  rw [splitLines]
  rfl

theorem rows_cons {c : Char} (h : c ≠ '\n') (head cs : List Char) :
    rows head (c :: cs) = rows (head ++ [c]) cs := by
  unfold rows
  rw [splitLines]
  dsimp only
  rw [if_neg h, List.append_assoc]
  rfl

/-- The last line that starts up to an offset. -/
def lastUpTo (offset : Nat) (lines : List Line) (default : Line) : Line :=
  (lines.filter fun line => Nat.ble line.start offset).getLastD default

/-- All lines behind that of an offset start behind it. -/
theorem lastUpTo_of_nil (number start : Nat) (head cs : List Char) (default : Line) :
    lastUpTo (start + bytes head) (numberLines number start (rows head cs)) default =
      ⟨number, start, head ++ (splitLines cs).1⟩ := by
  have hlater : (numberLines (number + 1) (start + bytes (head ++ (splitLines cs).1))
      (splitLines cs).2).filter (fun line => Nat.ble line.start (start + bytes head)) = [] := by
    refine List.filter_eq_nil_iff.mpr fun line hline => ?_
    have hstart := le_start_of_mem_numberLines hline
    have hmore : (splitLines cs).2 ≠ [] := by
      intro hnil
      rw [hnil] at hline
      exact absurd hline List.not_mem_nil
    have hpos := bytes_pos (splitLines_fst_ne_nil hmore)
    rw [bytes_append] at hstart
    rw [Nat.ble_eq]
    omega
  unfold lastUpTo rows
  rw [numberLines, List.filter_cons_of_pos (by simp), hlater]
  rfl

/-- **The line of an offset**: its number is told by the line feeds in front of it, and it begins
with the characters behind the last of them. -/
theorem lastUpTo_eq (number start : Nat) {head : List Char} (hhead : '\n' ∉ head)
    (before after : List Char) (default : Line) :
    ∃ first rest, lastUpTo (start + bytes (head ++ before))
        (numberLines number start (rows head (before ++ after))) default =
          ⟨number + before.count '\n', first, lastLine (head ++ before) ++ rest⟩ ∧
      first + bytes (lastLine (head ++ before)) = start + bytes (head ++ before) := by
  induction before generalizing number start head default with
  | nil =>
      rw [List.append_nil, lastLine_of_not_mem hhead]
      exact ⟨start, _, lastUpTo_of_nil number start head after default, rfl⟩
  | cons c before ih =>
      rw [List.cons_append]
      by_cases hc : c = '\n'
      · subst hc
        obtain ⟨first, rest, hlast, hfirst⟩ := ih (number + 1) (start + bytes (head ++ ['\n']))
          List.not_mem_nil ⟨number, start, head ++ ['\n']⟩
        have hoffset : start + bytes (head ++ ['\n']) + bytes ([] ++ before) =
            start + bytes (head ++ '\n' :: before) := by
          rw [List.nil_append, Nat.add_assoc, ← bytes_append, List.append_assoc]
          rfl
        have hnumber : number + 1 + before.count '\n' = number + ('\n' :: before).count '\n' := by
          rw [List.count_cons_self]
          omega
        rw [hoffset, hnumber, List.nil_append] at hlast
        rw [hoffset, List.nil_append] at hfirst
        rw [rows_lineFeed, lastLine_append_lineFeed]
        refine ⟨first, rest, ?_, hfirst⟩
        unfold lastUpTo
        rw [numberLines, List.filter_cons_of_pos (by simp), List.getLastD_cons]
        exact hlast
      · have hstill : '\n' ∉ head ++ [c] := by
          simp [hhead, Ne.symm hc]
        have hsplit : head ++ c :: before = (head ++ [c]) ++ before := by simp
        rw [rows_cons hc, hsplit, List.count_cons_of_ne hc]
        exact ih number start hstill default

theorem charsWithin_bytes (cs rest : List Char) :
    charsWithin (bytes cs) (cs ++ rest) = cs.length := by
  induction cs with
  | nil =>
      cases rest with
      | nil => rfl
      | cons c rest => exact if_neg (Nat.not_le.mpr c.utf8Size_pos)
  | cons c cs ih =>
      rw [List.cons_append, charsWithin, bytes, if_pos (Nat.le_add_right _ _),
        Nat.add_sub_cancel_left, ih, List.length_cons]
      exact Nat.add_comm ..

/-- **The line and the column of a place** are told by what stands in front of it. -/
theorem position_eq {file : SourceFile} {line column : Nat}
    (h : file.text.toList = before ++ after) (hline : line = 1 + before.count '\n')
    (hcolumn : column = 1 + (lastLine before).length) :
    position file (bytes before) = s!"{file.name}:{line}:{column}" := by
  obtain ⟨first, rest, hlast, hfirst⟩ :=
    lastUpTo_eq 1 0 List.not_mem_nil before after ⟨1, 0, []⟩
  rw [List.nil_append, Nat.zero_add] at hlast hfirst
  have hat : lineAt file.text (bytes before) =
      ⟨1 + before.count '\n', first, lastLine before ++ rest⟩ := by
    unfold lineAt lines
    rw [h]
    exact hlast
  have hbehind : bytes before - first = bytes (lastLine before) := by omega
  unfold position columnOf
  rw [hat]
  dsimp only
  rw [hbehind, charsWithin_bytes, hline, hcolumn]

end Snippet

/-! ## Names -/

namespace Cursor

variable {c c' : Cursor} {chars all : List Char}

/-- A cursor lies in a text, as many bytes behind its beginning as it says. -/
def LiesIn (c : Cursor) (all : List Char) : Prop :=
  ∃ before, all = before ++ c.rest ∧ bytes before = c.offset

theorem liesIn_ofText (text : String) : (ofText text).LiesIn text.toList := ⟨[], rfl, rfl⟩

theorem Spells.liesIn (h : Spells chars c c') (hc : c.LiesIn all) : c'.LiesIn all := by
  obtain ⟨before, hall, hbefore⟩ := hc
  refine ⟨before ++ chars, ?_, ?_⟩
  · rw [hall, h.rest, List.append_assoc]
  · rw [bytes_append, hbefore, h.offset]

theorem Gap.liesIn (h : Gap c c') (hc : c.LiesIn all) : c'.LiesIn all := by
  induction h with
  | nil => exact hc
  | blank _ hspells _ ih => exact ih (hspells.liesIn hc)
  | comment _ hspells _ _ ih => exact ih (hspells.liesIn hc)

end Cursor

namespace Document

variable {d : Document} {text : String} {name : Name}

/-- The name stands in a text where its place starts. -/
def Name.StandsIn (name : Name) (all : List Char) : Prop :=
  ∃ before after, all = before ++ name.text.toList ++ after ∧ bytes before = name.span.start

/-- **What is derived from a place in a text leaves names where they stand.** -/
theorem Derives.stands {p : Pattern} {c c' : Cursor} {parts : List Part} {all : List Char}
    (h : Derives p c parts c') (hp : p.Keeps) (hc : c.LiesIn all) :
    c'.LiesIn all ∧ ∀ name ∈ Part.allNames parts, name.StandsIn all := by
  induction h with
  | start _ => exact ⟨hc, fun _ hname => absurd hname List.not_mem_nil⟩
  | stop _ => exact ⟨hc, fun _ hname => absurd hname List.not_mem_nil⟩
  | word hspells => exact ⟨hspells.liesIn hc, fun _ hname => absurd hname List.not_mem_nil⟩
  | @name isFirst isOther part c c' first others hfirst hothers hspells =>
      refine ⟨hspells.liesIn hc, fun name hname => ?_⟩
      have hword := isSpelled_ofList hfirst hothers
      rw [Part.allNames, Part.allNames, List.append_nil] at hname
      rcases (hp ⟨String.ofList (first :: others), ⟨c.offset, c'.offset⟩⟩ hword).2 with
        hone | hnone
      · rw [hone] at hname
        obtain rfl := List.mem_singleton.mp hname
        obtain ⟨before, hall, hbefore⟩ := hc
        refine ⟨before, c'.rest, ?_, hbefore⟩
        rw [hall, hspells.rest, String.toList_ofList, List.append_assoc]
      · rw [hnone] at hname
        exact absurd hname List.not_mem_nil
  | seq _ hgap _ ihp ihq =>
      obtain ⟨hmiddle, hnames⟩ := ihp hp.1 hc
      obtain ⟨hend, hnames'⟩ := ihq hp.2 (hgap.liesIn hmiddle)
      rw [Part.allNames_append]
      exact ⟨hend, fun name hname => (List.mem_append.mp hname).elim (hnames name) (hnames' name)⟩
  | left _ ih => exact ih hp.1 hc
  | right _ ih => exact ih hp.2 hc
  | none => exact ⟨hc, fun _ hname => absurd hname List.not_mem_nil⟩
  | more _ hgap _ ihp ihmany =>
      obtain ⟨hmiddle, hnames⟩ := ihp hp hc
      obtain ⟨hend, hnames'⟩ := ihmany hp (hgap.liesIn hmiddle)
      rw [Part.allNames_append]
      exact ⟨hend, fun name hname => (List.mem_append.mp hname).elim (hnames name) (hnames' name)⟩
  | rule _ ih =>
      obtain ⟨hend, hnames⟩ := ih hp hc
      rw [Part.allNames, Part.allNames, List.append_nil, Part.names]
      exact ⟨hend, hnames⟩

/-- **Every name of a document that has been read stands where its place starts.** -/
theorem stands_of_read (h : read text = .ok d) : ∀ name ∈ d.names, name.StandsIn text.toList := by
  obtain ⟨c, hderives⟩ := derivable_of_read h
  have hnames := (hderives.stands keeps_document (Cursor.liesIn_ofText text)).2
  rwa [Part.allNames, Part.allNames, List.append_nil, names_tree] at hnames

/-- The name stands in a line and at a column of a text, both counted from one. -/
def Name.StandsAt (name : Name) (text : String) (line column : Nat) : Prop :=
  ∃ before after, text.toList = before ++ name.text.toList ++ after ∧
    bytes before = name.span.start ∧ line = 1 + before.count '\n' ∧
    column = 1 + (Snippet.lastLine before).length

/-- A reader is told to look where the name stands. -/
theorem Name.StandsIn.exists_standsAt (file : SourceFile) (h : name.StandsIn file.text.toList) :
    ∃ line column, name.StandsAt file.text line column ∧
      Snippet.position file name.span.start = s!"{file.name}:{line}:{column}" := by
  obtain ⟨before, after, hall, hbefore⟩ := h
  have hposition := Snippet.position_eq (hall.trans (List.append_assoc ..)) rfl rfl
  rw [hbefore] at hposition
  exact ⟨_, _, ⟨before, after, hall, hbefore, rfl, rfl⟩, hposition⟩

end Document

end ScenarioFsp
