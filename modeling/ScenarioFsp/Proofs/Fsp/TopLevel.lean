import ScenarioFsp.Proofs.Fsp.Projections

/-!
# The names that a text defines

A text for the other tool is a sequence of top-level definitions. Each begins on a line of its
own; a line that ends in a comma goes on in the next one, which belongs to the same definition
and names a process that is known only there. `topLevel` reads off every definition its name,
what stands in front of it, and the words behind the equals sign, in which other processes may
be named.

Nothing is assumed about a text but that it is put together from paragraphs
(`Paragraph.Tidy.topLevel_append`): what stands in front of a name does not end in a letter, names
are made of letters, and lines end where a paragraph has them end.
-/

namespace ScenarioFsp

namespace Fsp

open Document (isLetterOrDigit)

/-! ## The reader -/

/-- A top-level definition: what stands in front of the name, the name, and the words behind the
equals sign. -/
structure TopLevel where
  front : String
  name : String
  mentions : List String
deriving DecidableEq, Repr

/-- The longest runs of letters, digits and underscores. -/
def wordsOf (text : List Char) : List String :=
  ((text.splitOnP fun ch => !isLetterOrDigit ch).filter fun word => !word.isEmpty).map
    String.ofList

/-- The definition that a line begins. -/
def TopLevel.read (line : List Char) : TopLevel :=
  let head := (line.takeWhile fun ch => decide (ch ≠ '=')).rdropWhile fun ch => decide (ch = ' ')
  ⟨String.ofList (head.rdropWhile isLetterOrDigit), String.ofList (head.rtakeWhile isLetterOrDigit),
    wordsOf (line.dropWhile fun ch => decide (ch ≠ '='))⟩

/-- Whether the next line belongs to the same definition. -/
def goesOn (line : List Char) : Bool := decide (line.getLast? = some ',')

/-- The lines that are not the continuation of another one. -/
def firstLines (continued : Bool) : List (List Char) → List (List Char)
  | [] => []
  | line :: lines =>
    if continued then firstLines (goesOn line) lines
    else line :: firstLines (goesOn line) lines

/-- The definitions in some lines; comments and empty lines hold none. -/
def definitionsIn (lines : List (List Char)) : List TopLevel :=
  ((firstLines false lines).filter fun line => decide ('=' ∈ line)).map TopLevel.read

/-- The top-level definitions of a text. -/
def topLevel (text : List Char) : List TopLevel := definitionsIn (text.splitOn '\n')

/-! ## Words -/

/-- A name is made of letters, digits and underscores. -/
def IsName (s : String) : Prop := s.toList ≠ [] ∧ s.toList.all isLetterOrDigit = true

instance (s : String) : Decidable (IsName s) := inferInstanceAs (Decidable (_ ∧ _))

/-- Whether no character is part of a name. -/
def areMarks (text : List Char) : Bool := text.all fun ch => !isLetterOrDigit ch

section Words

variable {s : String} {marks : List Char}

theorem areMarks_cons {mark : Char} :
    areMarks (mark :: marks) = true ↔ isLetterOrDigit mark = false ∧ areMarks marks = true := by
  unfold areMarks
  rw [List.all_cons, Bool.and_eq_true, Bool.not_eq_true']

theorem IsName.forall_mem (h : IsName s) : ∀ ch ∈ s.toList, isLetterOrDigit ch = true :=
  List.all_eq_true.mp h.2

theorem IsName.not_mem (h : IsName s) {ch : Char} (hch : isLetterOrDigit ch = false) :
    ch ∉ s.toList := by
  intro hmem
  rw [h.forall_mem ch hmem] at hch
  exact absurd hch (by simp)

theorem IsName.append {mark : String} (hmark : mark.toList.all isLetterOrDigit = true)
    (h : IsName s) : IsName (mark ++ s) := by
  unfold IsName
  rw [String.toList_append, List.all_append, hmark, h.2]
  exact ⟨List.append_ne_nil_of_right_ne_nil _ h.1, rfl⟩

theorem wordsOf_append_cons {mark : Char} (h : isLetterOrDigit mark = false) (l r : List Char) :
    wordsOf (l ++ mark :: r) = wordsOf l ++ wordsOf r := by
  unfold wordsOf
  rw [List.splitOnP_append_cons l r (by rw [h]; rfl), List.filter_append, List.map_append]

theorem wordsOf_marks (h : areMarks marks = true) (r : List Char) :
    wordsOf (marks ++ r) = wordsOf r := by
  induction marks with
  | nil => rfl
  | cons mark marks ih =>
      obtain ⟨hmark, hmarks⟩ := areMarks_cons.mp h
      rw [List.cons_append]
      exact (wordsOf_append_cons hmark [] _).trans (ih hmarks)

/-- Marks tell words apart. -/
theorem wordsOf_append_marks (hne : marks ≠ []) (h : areMarks marks = true)
    (l r : List Char) : wordsOf (l ++ marks ++ r) = wordsOf l ++ wordsOf r := by
  cases marks with
  | nil => exact absurd rfl hne
  | cons mark marks =>
      obtain ⟨hmark, hmarks⟩ := areMarks_cons.mp h
      rw [List.append_assoc, List.cons_append, wordsOf_append_cons hmark, wordsOf_marks hmarks]

theorem wordsOf_marks_right (h : areMarks marks = true) (l : List Char) :
    wordsOf (l ++ marks) = wordsOf l := by
  cases marks with
  | nil => rw [List.append_nil]
  | cons mark marks =>
      have hall := wordsOf_append_marks (List.cons_ne_nil _ _) h l []
      rw [List.append_nil] at hall
      exact hall.trans (List.append_nil _)

theorem IsName.wordsOf (h : IsName s) : wordsOf s.toList = [s] := by
  have hsplit : (s.toList.splitOnP fun ch => !isLetterOrDigit ch) = [s.toList] :=
    List.splitOnP_eq_singleton fun ch hch => by rw [h.forall_mem ch hch]; rfl
  have hsome : s.toList.isEmpty = false := List.isEmpty_eq_false_iff.mpr h.1
  unfold Fsp.wordsOf
  rw [hsplit]
  simp [hsome]

theorem wordsOf_intercalate (hne : marks ≠ []) (h : areMarks marks = true)
    (ls : List (List Char)) : wordsOf (marks.intercalate ls) = ls.flatMap wordsOf := by
  induction ls with
  | nil => rfl
  | cons l ls ih =>
      cases ls with
      | nil => simp
      | cons m ls =>
          rw [List.intercalate_cons_cons, wordsOf_append_marks hne h, ih]
          rfl

/-- The words of a list with marks around it. -/
theorem wordsOf_between {opening separator closing : String}
    (hopening : areMarks opening.toList = true) (hne : separator.toList ≠ [])
    (hseparator : areMarks separator.toList = true) (hclosing : areMarks closing.toList = true)
    (ls : List String) :
    wordsOf (opening ++ separator.intercalate ls ++ closing).toList =
      ls.flatMap fun l => wordsOf l.toList := by
  rw [String.toList_append, wordsOf_marks_right hclosing, String.toList_append,
    wordsOf_marks hopening, String.toList_intercalate, wordsOf_intercalate hne hseparator,
    List.flatMap_map]

theorem flatMap_wordsOf_names {names : List String} (h : ∀ s ∈ names, IsName s) :
    (names.flatMap fun s => wordsOf s.toList) = names := by
  rw [List.flatMap_congr fun s hs => (h s hs).wordsOf]
  exact List.flatMap_singleton' names

end Words

/-! ## Lines -/

section Lines

theorem rdropWhile_append {p : Char → Bool} {l m : List Char} (h : ∀ ch ∈ m, p ch = true) :
    (l ++ m).rdropWhile p = l.rdropWhile p := by
  unfold List.rdropWhile
  rw [List.reverse_append, List.dropWhile_append_of_pos]
  exact fun ch hch => h ch (List.mem_reverse.mp hch)

theorem rtakeWhile_append {p : Char → Bool} {l m : List Char} (h : ∀ ch ∈ m, p ch = true)
    (hl : l.rdropWhile p = l) : (l ++ m).rtakeWhile p = m := by
  have hdrop : l.reverse.dropWhile p = l.reverse := by
    unfold List.rdropWhile at hl
    exact List.reverse_eq_iff.mp hl
  have hnone : l.reverse.takeWhile p = [] := by
    have hall := List.takeWhile_append_dropWhile (p := p) (l := l.reverse)
    rw [hdrop] at hall
    exact List.append_left_eq_self.mp hall
  have hall : ∀ ch ∈ m.reverse, p ch = true := fun ch hch => h ch (List.mem_reverse.mp hch)
  unfold List.rtakeWhile
  rw [List.reverse_append, List.takeWhile_append_of_pos hall, hnone, List.append_nil,
    List.reverse_reverse]

variable {line rest : List Char}

theorem firstLines_cons (continued : Bool) (line : List Char) (lines : List (List Char)) :
    firstLines continued (line :: lines) =
      (if continued then [] else [line]) ++ firstLines (goesOn line) lines := by
  cases continued <;> rfl

/-- A line that defines nothing is passed over. -/
theorem topLevel_skip (hline : '\n' ∉ line) (hnone : '=' ∉ line) (hends : goesOn line = false)
    (rest : List Char) : topLevel (line ++ '\n' :: rest) = topLevel rest := by
  unfold topLevel definitionsIn
  rw [List.splitOn_append_cons_self_of_not_mem hline, firstLines_cons, hends, if_neg (by simp),
    List.singleton_append, List.filter_cons_of_neg (by simpa using hnone)]

end Lines

/-! ## Paragraphs -/

/-- A definition as it is written, over as many lines as it has local processes. -/
structure Paragraph where
  front : String
  name : String
  body : String
  locals : List String
  closing : String

namespace Paragraph

variable {p : Paragraph}

/-- The definition of the name. -/
def first (p : Paragraph) : String := p.front ++ p.name ++ " = " ++ p.body

/-- The paragraph without its end. -/
def sentence (p : Paragraph) : String := ",\n".intercalate (p.first :: p.locals) ++ p.closing

/-- A paragraph as it is written, with its point and a line break. -/
def render (p : Paragraph) : String := p.sentence ++ ".\n"

/-- A definition without local processes. -/
def ofLine (front name body : String) : Paragraph := ⟨front, name, body, [], ""⟩

theorem sentence_ofLine (front name body : String) :
    (ofLine front name body).sentence = front ++ name ++ " = " ++ body := by
  unfold sentence
  rw [show (ofLine front name body).locals = [] from rfl, String.intercalate_singleton]
  exact String.append_empty

/-- What is told of it at the top level. -/
def told (p : Paragraph) : TopLevel := ⟨p.front, p.name, wordsOf p.body.toList⟩

/-- What stands in front of a name does not end in a letter. -/
def IsFront (front : String) : Prop :=
  '=' ∉ front.toList ∧ '\n' ∉ front.toList ∧
    front.toList.rdropWhile isLetterOrDigit = front.toList

instance (front : String) : Decidable (IsFront front) := inferInstanceAs (Decidable (_ ∧ _ ∧ _))

/-- Names are made of letters, and lines end only behind the local processes. -/
structure Tidy (p : Paragraph) : Prop where
  front : IsFront p.front
  name : IsName p.name
  body : '\n' ∉ p.body.toList
  locals : ∀ l ∈ p.locals, '\n' ∉ l.toList
  closing : '\n' ∉ p.closing.toList
  /-- Something is hidden in local processes only. -/
  short : p.locals = [] → p.closing = ""

theorem toList_first (p : Paragraph) :
    p.first.toList = p.front.toList ++ p.name.toList ++ [' '] ++ '=' :: (' ' :: p.body.toList) := by
  unfold first
  simp only [String.toList_append, List.append_assoc]
  rfl

/-- The name and what stands in front are told apart by where letters begin. -/
theorem Tidy.read_first (h : p.Tidy) {marks : List Char}
    (hmarks : areMarks marks = true) :
    TopLevel.read (p.first.toList ++ marks) = p.told := by
  have hequals : ∀ ch ∈ p.front.toList ++ p.name.toList ++ [' '], decide (ch ≠ '=') = true := by
    intro ch hch
    rw [decide_eq_true_eq]
    rintro rfl
    simp only [List.mem_append, List.mem_singleton] at hch
    rcases hch with (hch | hch) | hch
    · exact h.front.1 hch
    · exact h.name.not_mem (by decide) hch
    · exact absurd hch (by decide)
  -- only the blank in front of the equals sign is dropped, as a name does not end in one
  have hlast : (p.front.toList ++ p.name.toList).rdropWhile (fun ch => decide (ch = ' ')) =
      p.front.toList ++ p.name.toList := by
    rw [List.rdropWhile_eq_self_iff]
    intro hsome hblank
    rw [List.getLast_append_of_ne_nil hsome h.name.1, decide_eq_true_eq] at hblank
    exact h.name.not_mem (by decide) (hblank ▸ List.getLast_mem h.name.1)
  have hline : p.first.toList ++ marks = p.front.toList ++ p.name.toList ++ [' '] ++
      '=' :: (' ' :: p.body.toList ++ marks) := by
    rw [toList_first, List.append_assoc]
    rfl
  have hwords : wordsOf ('=' :: (' ' :: p.body.toList ++ marks)) = wordsOf p.body.toList := by
    have hopening : areMarks ['=', ' '] = true := by decide
    exact (wordsOf_marks hopening _).trans (wordsOf_marks_right hmarks _)
  unfold TopLevel.read
  rw [hline, List.takeWhile_append_of_pos hequals, List.dropWhile_append_of_pos hequals,
    List.takeWhile_cons_of_neg (by simp), List.dropWhile_cons_of_neg (by simp), List.append_nil,
    List.rdropWhile_concat_pos _ _ _ (by simp), hlast, hwords]
  dsimp only
  rw [rdropWhile_append h.name.forall_mem, h.front.2.2,
    rtakeWhile_append h.name.forall_mem h.front.2.2, String.ofList_toList, String.ofList_toList]
  rfl

/-- The lines of a paragraph behind its first one belong to it. -/
theorem firstLines_lines {first : List Char} {locals : List String} {ending rest : List Char}
    (continued : Bool) (hfirst : '\n' ∉ first) (hlocals : ∀ l ∈ locals, '\n' ∉ l.toList)
    (hending : '\n' ∉ ending) (hends : ∀ line, goesOn (line ++ ending) = false) :
    firstLines continued (([',', '\n'].intercalate (first :: locals.map String.toList) ++ ending ++
        '\n' :: rest).splitOn '\n') =
      (if continued then [] else [first ++ if locals = [] then ending else [',']]) ++
        firstLines false (rest.splitOn '\n') := by
  -- the second line is read as the continuation of the first, so `continued` changes
  induction locals generalizing first continued with
  | nil =>
      have hline : '\n' ∉ first ++ ending := by
        rw [List.mem_append, not_or]
        exact ⟨hfirst, hending⟩
      rw [List.map_nil, List.intercalate_singleton, List.splitOn_append_cons_self_of_not_mem hline,
        firstLines_cons, hends, if_pos rfl]
  | cons second locals ih =>
      obtain ⟨hsecond, hmore⟩ := List.forall_mem_cons.mp hlocals
      have hline : '\n' ∉ first ++ [','] := by
        rw [List.mem_append, not_or]
        exact ⟨hfirst, by decide⟩
      have hsplit : [',', '\n'].intercalate (first :: (second :: locals).map String.toList) ++
          ending ++ '\n' :: rest = first ++ [','] ++ '\n' ::
            ([',', '\n'].intercalate (second.toList :: locals.map String.toList) ++ ending ++
              '\n' :: rest) := by
        rw [List.map_cons, List.intercalate_cons_cons]
        simp only [List.append_assoc, List.cons_append, List.nil_append]
      have hon : goesOn (first ++ [',']) = true := by
        unfold goesOn
        rw [List.getLast?_concat]
        rfl
      rw [hsplit, List.splitOn_append_cons_self_of_not_mem hline, firstLines_cons, hon,
        ih true hsecond hmore, if_pos rfl, List.nil_append, if_neg (List.cons_ne_nil _ _)]

/-- **A paragraph is one definition.** -/
theorem Tidy.topLevel_append (h : p.Tidy) (rest : List Char) :
    topLevel (p.render.toList ++ rest) = p.told :: topLevel rest := by
  have hfirst : '\n' ∉ p.first.toList := by
    rw [toList_first]
    simp only [List.mem_append, List.mem_cons, List.not_mem_nil, or_false, not_or]
    exact ⟨⟨⟨h.front.2.1, h.name.not_mem (by decide)⟩, by decide⟩, by decide, by decide, h.body⟩
  have hequals : ∀ marks, '=' ∈ p.first.toList ++ marks := by
    intro marks
    rw [toList_first]
    simp
  have hending : '\n' ∉ p.closing.toList ++ ['.'] := by
    rw [List.mem_append, not_or]
    exact ⟨h.closing, by decide⟩
  have hends : ∀ line, goesOn (line ++ (p.closing.toList ++ ['.'])) = false := by
    intro line
    unfold goesOn
    rw [← List.append_assoc, List.getLast?_concat]
    rfl
  have htext : p.render.toList ++ rest =
      [',', '\n'].intercalate (p.first.toList :: p.locals.map String.toList) ++
        (p.closing.toList ++ ['.']) ++ '\n' :: rest := by
    unfold render sentence
    simp only [String.toList_append, String.toList_intercalate, List.map_cons, List.append_assoc]
    rfl
  -- what is hidden is not on the first line
  have hline : TopLevel.read (p.first.toList ++
      if p.locals = [] then p.closing.toList ++ ['.'] else [',']) = p.told := by
    split
    · rename_i hnone
      rw [h.short hnone]
      exact h.read_first (by decide)
    · exact h.read_first (by decide)
  unfold topLevel definitionsIn
  rw [htext, firstLines_lines false hfirst h.locals hending hends, if_neg (by simp),
    List.singleton_append, List.filter_cons_of_pos (by simpa using hequals _), List.map_cons, hline]

end Paragraph

/-- Definitions that are written one behind the other are read one behind the other. -/
theorem topLevel_join {α : Type} {text : α → String} {told : α → TopLevel} {as : List α}
    (h : ∀ a ∈ as, ∀ rest, topLevel ((text a).toList ++ rest) = told a :: topLevel rest)
    (rest : List Char) :
    topLevel ((String.join (as.map text)).toList ++ rest) = as.map told ++ topLevel rest := by
  induction as with
  | nil => rfl
  | cons a as ih =>
      obtain ⟨ha, has⟩ := List.forall_mem_cons.mp h
      rw [List.map_cons, String.join_cons, String.toList_append, List.append_assoc, ha, ih has]
      rfl

end Fsp

end ScenarioFsp
