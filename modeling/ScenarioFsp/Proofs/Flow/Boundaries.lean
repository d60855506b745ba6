import Mathlib.Data.List.Chain
import ScenarioFsp.Proofs.Flow.Lifelines

/-!
# Boundaries and segments of lifelines

A lifeline is written as boundaries with segments of messages between them. Every
condition is a boundary. In front of a lifeline that opens with a message stands the
beginning of its scenario, and behind one that closes with a message the end of it. So
there is a segment between any two neighbouring boundaries, which may be empty, and the
productions of the lifeline are these segments from boundary to boundary
(`productions_eq_between`).

Productions can also be found in one pass over the events, which keeps the production
under way and whether it has an action yet (`Scan`). That ends in the same productions
(`finish_foldl_step`).
-/

namespace ScenarioFsp

open ScenarioFsp.Symbol (beginOf endOf ofCondition)

namespace Lifeline

/-! ## Boundaries, segments -/

/-- Whether the first event is a message, so that the beginning of the scenario is a boundary. -/
def opensWithMessage (events : Lifeline) : Bool := events.head?.any fun e => e.point?.isNone

/-- Whether the last event is a message, so that the end of the scenario is a boundary. -/
def closesWithMessage (events : Lifeline) : Bool := events.getLast?.any fun e => e.point?.isNone

/-- The boundaries of a lifeline, in order. -/
def boundaries (scenario : String) (events : Lifeline) : List Symbol :=
  (if opensWithMessage events then [beginOf scenario] else []) ++ events.filterMap Event.point? ++
    (if closesWithMessage events then [endOf scenario] else [])

/-- The messages before the first condition, between conditions, and behind the last one. -/
def blocks (events : Lifeline) : List (List String) :=
  (events.splitOnP fun e => e.point?.isSome).map messages

/-- The blocks behind the first boundary: there is nothing before a leading condition. -/
def blocksBehind (events : Lifeline) : List (List String) :=
  if opensWithMessage events then blocks events else (blocks events).tail

/-- The messages between boundaries: there is nothing behind a trailing condition. -/
def segments (events : Lifeline) : List (List String) :=
  if closesWithMessage events then blocksBehind events else (blocksBehind events).dropLast

/-- The productions that lead from each boundary through a segment to the next boundary; an empty
segment becomes one silent action. -/
def between (boundaries : List Symbol) (segments : List (List String)) : List Production :=
  (boundaries.zip (segments.zip boundaries.tail)).map fun (start, segment, stop) =>
    ⟨[start] ++ (if segment = [] then [Symbol.tau] else segment) ++ [stop]⟩

variable {scenario : String} {events rest : Lifeline} {start : Symbol} {actions : List String}

/-! ## Events one by one -/

theorem blocks_message (label : String) (rest : Lifeline) :
    blocks (.message label :: rest) = (blocks rest).modifyHead (label :: ·) := by
  unfold blocks
  rw [List.splitOnP_cons_eq_if_modifyHead]
  cases rest.splitOnP fun e => e.point?.isSome with
  | nil => rfl
  | cons block more => rfl

theorem blocks_condition (label : String) (rest : Lifeline) :
    blocks (.condition label :: rest) = [] :: blocks rest := by
  unfold blocks
  rw [List.splitOnP_cons_eq_if_modifyHead]
  rfl

theorem length_blocks (events : Lifeline) :
    (blocks events).length = (events.filterMap Event.point?).length + 1 := by
  induction events with
  | nil => rfl
  | cons e rest ih =>
      cases e with
      | message label =>
          rw [blocks_message, List.length_modifyHead, ih]
          rfl
      | condition label =>
          rw [blocks_condition, List.length_cons, ih]
          rfl

theorem flatten_blocks (events : Lifeline) : (blocks events).flatten = messages events := by
  induction events with
  | nil => rfl
  | cons e rest ih =>
      cases e with
      | message label =>
          rw [blocks_message]
          have hcons : messages (.message label :: rest) = label :: messages rest := rfl
          rw [hcons, ← ih]
          cases hblocks : blocks rest with
          | nil => exact absurd hblocks (List.ne_nil_of_length_eq_add_one (length_blocks rest))
          | cons block more => rfl
      | condition label =>
          rw [blocks_condition, List.flatten_cons, ih]
          rfl

/-- Messages in front join the first block. -/
theorem blocks_append (actions : List String) (rest : Lifeline) :
    blocks (actions.map Event.message ++ rest) = (blocks rest).modifyHead (actions ++ ·) := by
  induction actions with
  | nil =>
      show blocks rest = (blocks rest).modifyHead ([] ++ ·)
      cases blocks rest with
      | nil => rfl
      | cons block more => rfl
  | cons a actions ih =>
      rw [List.map_cons, List.cons_append, blocks_message, ih, List.modifyHead_modifyHead]
      rfl

theorem closesWithMessage_condition (front : Lifeline) (label : String) (rest : Lifeline) :
    closesWithMessage (front ++ .condition label :: rest) = closesWithMessage rest := by
  unfold closesWithMessage
  rw [List.getLast?_append_cons]
  cases rest with
  | nil => rfl
  | cons e rest => rw [List.getLast?_cons_cons]

theorem closesWithMessage_messages (actions : List String) :
    closesWithMessage (actions.map Event.message) = !actions.isEmpty := by
  unfold closesWithMessage
  rw [List.getLast?_map]
  cases actions with
  | nil => rfl
  | cons a as => simp [List.getLast?_cons, Event.point?]

/-! ## The productions -/

theorem between_cons (start stop : Symbol) (boundaries : List Symbol) (segment : List String)
    (segments : List (List String)) :
    between (start :: stop :: boundaries) (segment :: segments) =
      piece start segment stop :: between (stop :: boundaries) segments := by
  unfold between piece
  cases segment <;> rfl

/-- A last segment that no boundary follows does not matter. -/
theorem between_dropLast {boundaries : List Symbol} {segments : List (List String)}
    (h : boundaries.length ≤ segments.length) :
    between boundaries segments.dropLast = between boundaries segments := by
  have hzip : segments.dropLast.zip boundaries.tail = segments.zip boundaries.tail := by
    rw [List.zip_eq_zip_take_min, @List.zip_eq_zip_take_min _ _ segments, List.dropLast_eq_take,
      List.length_take, List.length_tail, List.take_take]
    congr 2 <;> omega
  unfold between
  rw [hzip]

/-- The rest of a lifeline, given the messages since the last boundary. -/
theorem cut_eq_between (events : Lifeline) :
    cut scenario start actions events =
      between (start :: (events.filterMap Event.point? ++
        if closesWithMessage (actions.map Event.message ++ events) then [endOf scenario] else []))
        (blocks (actions.map Event.message ++ events)) := by
  induction events generalizing start actions with
  | nil =>
      rw [List.append_nil, closesWithMessage_messages]
      have hblocks := blocks_append actions []
      rw [List.append_nil] at hblocks
      rw [hblocks]
      cases actions with
      | nil => rfl
      | cons a as => simp [cut, between, blocks, piece, messages]
  | cons e rest ih =>
      cases e with
      | message label =>
          -- the message joins those since the last boundary
          have hjoin : actions.map Event.message ++ .message label :: rest =
              (actions ++ [label]).map Event.message ++ rest := by simp
          rw [hjoin]
          exact ih
      | condition label =>
          have hblocks : blocks (actions.map Event.message ++ .condition label :: rest) =
              actions :: blocks rest := by
            rw [blocks_append, blocks_condition, List.modifyHead_cons, List.append_nil]
          have hrest := @ih (ofCondition label) []
          rw [closesWithMessage_condition, hblocks]
          refine Eq.trans ?_ (between_cons start (ofCondition label) _ actions _).symm
          exact congrArg (piece start actions (ofCondition label) :: ·) hrest

/-- There is one boundary more than blocks behind the first, if messages follow the last. -/
theorem length_boundaries (scenario : String) (events : Lifeline) :
    (boundaries scenario events).length =
      (blocksBehind events).length + if closesWithMessage events then 1 else 0 := by
  have hblocks := length_blocks events
  unfold boundaries blocksBehind
  rw [List.length_append, List.length_append]
  cases opensWithMessage events <;> cases closesWithMessage events <;>
    simp [hblocks, Nat.add_comm]

theorem between_segments (scenario : String) (events : Lifeline) :
    between (boundaries scenario events) (segments events) =
      between (boundaries scenario events) (blocksBehind events) := by
  have hlength := length_boundaries scenario events
  unfold segments
  cases hcloses : closesWithMessage events with
  | true => rfl
  | false =>
      rw [hcloses] at hlength
      exact between_dropLast (Nat.le_of_eq hlength)

/-- **The productions of a lifeline are its segments from boundary to boundary.** -/
theorem productions_eq_between (scenario : String) (events : Lifeline) :
    productions scenario events = between (boundaries scenario events) (segments events) := by
  rw [between_segments]
  cases events with
  | nil => rfl
  | cons e rest =>
      cases e with
      | message label => exact cut_eq_between (.message label :: rest)
      | condition label =>
          have hcloses : closesWithMessage (.condition label :: rest) = closesWithMessage rest :=
            closesWithMessage_condition [] label rest
          have hbehind : blocksBehind (.condition label :: rest) = blocks rest :=
            congrArg List.tail (blocks_condition label rest)
          unfold boundaries
          rw [hbehind, hcloses]
          exact cut_eq_between rest

/-! ## What the segments hold -/

theorem segments_length (h : events ≠ []) :
    (boundaries scenario events).length = (segments events).length + 1 := by
  have hlength := length_boundaries scenario events
  -- a lifeline that is not empty has a boundary
  have hpos : 0 < (boundaries scenario events).length := by
    cases events with
    | nil => exact absurd rfl h
    | cons e rest => cases e <;> simp [boundaries, opensWithMessage, Event.point?]
  unfold segments
  cases hcloses : closesWithMessage events with
  | true =>
      rw [hcloses] at hlength
      exact hlength
  | false =>
      rw [hcloses] at hlength
      simp only [Bool.false_eq_true, if_false, List.length_dropLast] at hlength ⊢
      omega

/-- A condition ends a block. -/
theorem blocks_append_condition (front : Lifeline) (label : String) :
    blocks (front ++ [.condition label]) = blocks front ++ [[]] := by
  induction front with
  | nil => exact blocks_condition label []
  | cons e front ih =>
      cases e with
      | message l =>
          rw [List.cons_append, blocks_message, blocks_message, ih]
          cases hblocks : blocks front with
          | nil => exact absurd hblocks (List.ne_nil_of_length_eq_add_one (length_blocks front))
          | cons block more => rfl
      | condition l => rw [List.cons_append, blocks_condition, blocks_condition, ih, List.cons_append]

/-- Behind a trailing condition stands an empty block. -/
theorem eq_nil_of_last_block (h : closesWithMessage events = false) :
    ∀ block ∈ (blocks events).getLast?, block = [] := by
  intro block hblock
  rcases List.eq_nil_or_concat' events with rfl | ⟨front, e, rfl⟩
  · exact (Option.some.inj hblock).symm
  · cases e with
    | message label =>
        unfold closesWithMessage at h
        rw [List.getLast?_concat] at h
        exact absurd h (by simp [Event.point?])
    | condition label =>
        rw [blocks_append_condition, List.getLast?_concat] at hblock
        exact (Option.some.inj hblock).symm

theorem flatten_dropLast {blocks : List (List String)} (h : ∀ block ∈ blocks.getLast?, block = []) :
    blocks.dropLast.flatten = blocks.flatten := by
  rcases List.eq_nil_or_concat' blocks with rfl | ⟨front, block, rfl⟩
  · rfl
  · rw [h block (by rw [List.getLast?_concat]; rfl), List.dropLast_concat, List.flatten_append]
    exact (List.append_nil _).symm

theorem flatten_blocksBehind (events : Lifeline) :
    (blocksBehind events).flatten = messages events := by
  rw [← flatten_blocks]
  cases events with
  | nil => rfl
  | cons e rest =>
      cases e with
      | message label => rfl
      | condition label =>
          -- the block before the condition is empty
          show (blocks (.condition label :: rest)).tail.flatten = _
          rw [blocks_condition]
          rfl

/-- Nothing is said before a leading condition or behind a trailing one. -/
theorem flatten_segments (events : Lifeline) : (segments events).flatten = messages events := by
  unfold segments
  rw [← flatten_blocksBehind]
  cases hcloses : closesWithMessage events with
  | true => rfl
  | false =>
      refine flatten_dropLast fun block hblock => eq_nil_of_last_block hcloses block ?_
      unfold blocksBehind at hblock
      split at hblock
      · exact hblock
      · rw [List.getLast?_tail] at hblock
        split at hblock
        · exact absurd hblock (by simp)
        · exact hblock

/-! ## One pass over the events -/

/-- A pass that is under way: the production since the last boundary, whether it has an action,
and the productions found before. -/
structure Scan where
  current : Production
  acted : Bool
  found : OrderedSet Production

namespace Scan

/-- One event more: a message prolongs the production, and a condition ends it and begins another.
Where nothing was done in between, that is a silent step. -/
def step (s : Scan) : Event → Scan
  | .message label => { s with current := s.current.push label, acted := true }
  | .condition label =>
    let acting := if s.acted then s.current else s.current.push Symbol.tau
    ⟨⟨[ofCondition label]⟩, false, s.found.insert (acting.push (ofCondition label))⟩

/-- Behind the last event, what has been done since the last boundary leads to the end. -/
def finish (scenario : String) (s : Scan) : OrderedSet Production :=
  if s.acted then s.found.insert (s.current.push (endOf scenario)) else s.found

/-- Adds the productions of a lifeline to those found before. -/
def lifeline (scenario : String) (found : OrderedSet Production) : Lifeline → OrderedSet Production
  | [] => found
  | first :: rest =>
    match first.point? with
    | some point => (rest.foldl step ⟨⟨[point]⟩, false, found⟩).finish scenario
    | none => ((first :: rest).foldl step ⟨⟨[beginOf scenario]⟩, false, found⟩).finish scenario

/-- The productions of several lifelines, one pass for each. -/
def lifelines (ls : List (String × Lifeline)) : OrderedSet Production :=
  ls.foldl (fun found l => lifeline l.1 found l.2) .empty

variable {found : OrderedSet Production}

/-- From a state with some actions since `start`, a pass finds what is cut off the rest. -/
theorem finish_foldl_step (events : Lifeline) :
    (events.foldl step ⟨⟨start :: actions⟩, !actions.isEmpty, found⟩).finish scenario =
      (cut scenario start actions events).foldl (fun found p => found.insert p) found := by
  induction events generalizing start actions found with
  | nil =>
      cases actions with
      | nil => rfl
      | cons a as => rfl
  | cons e rest ih =>
      cases e with
      | message label =>
          have hrest := @ih start (actions ++ [label]) found
          have hacted : (!(actions ++ [label]).isEmpty) = true := by simp
          rw [hacted] at hrest
          exact hrest
      | condition label =>
          have hpiece : ((if !actions.isEmpty then (⟨start :: actions⟩ : Production)
              else (⟨start :: actions⟩ : Production).push Symbol.tau).push (ofCondition label)) =
                piece start actions (ofCondition label) := by
            cases actions with
            | nil => rfl
            | cons a as => rfl
          have hrest := @ih (ofCondition label) []
            (found.insert (piece start actions (ofCondition label)))
          rw [← hpiece] at hrest
          unfold cut
          rw [List.foldl_cons, List.foldl_cons, ← hpiece]
          exact hrest

theorem lifeline_eq (scenario : String) (found : OrderedSet Production) (events : Lifeline) :
    lifeline scenario found events =
      (productions scenario events).foldl (fun found p => found.insert p) found := by
  cases events with
  | nil => rfl
  | cons e rest =>
      cases e with
      | message label => exact @finish_foldl_step scenario _ [] found _
      | condition label => exact @finish_foldl_step scenario _ [] found _

/-- **One pass for each lifeline finds what is extracted.** -/
theorem lifelines_eq_extract (ls : List (String × Lifeline)) : lifelines ls = extract ls := by
  have hmem : ∀ (found : OrderedSet Production) (p : Production),
      p ∈ ls.foldl (fun found l => lifeline l.1 found l.2) found ↔
        p ∈ ls.flatMap (fun l => productions l.1 l.2) ∨ p ∈ found := by
    induction ls with
    | nil => simp
    | cons l ls ih =>
        intro found p
        rw [List.foldl_cons, ih, lifeline_eq, OrderedSet.mem_foldl_insert, List.flatMap_cons,
          List.mem_append, or_left_comm, or_assoc]
  refine OrderedSet.ext_mem fun p => ?_
  unfold lifelines extract
  rw [hmem, OrderedSet.mem_ofList]
  exact or_iff_left List.not_mem_nil

end Scan

end Lifeline

/-! ## Extraction -/

theorem Threads.isChain {s e : Symbol} {ps : List Production} (h : Threads s ps e) :
    ps.IsChain fun p q => p.last? = q.first? := by
  induction h with
  | nil s => exact .nil
  | cons _ hlast hrest ih =>
      cases hrest with
      | nil => exact .singleton _
      | cons hfirst _ _ => exact List.isChain_cons_cons.mpr ⟨hlast.trans hfirst.symm, ih⟩

open Lifeline

theorem extract_singleton (scenario : String) (events : Lifeline) :
    extract [(scenario, events)] = .ofList (productions scenario events) := by
  unfold extract
  rw [List.flatMap_singleton]

theorem mem_extract_iff_exists {ls : List (String × Lifeline)} {p : Production} :
    p ∈ extract ls ↔ ∃ l ∈ ls, p ∈ extract [l] := by
  unfold extract
  simp only [OrderedSet.mem_ofList, List.mem_flatMap, List.mem_singleton, exists_eq_left]

theorem extract_eq_empty_iff {scenario : String} {events : Lifeline} :
    extract [(scenario, events)] = .empty ↔
      events = [] ∨ ∃ label, events = [.condition label] := by
  rw [extract_singleton]
  refine ⟨fun h => ?_, fun h => ?_⟩
  · have hnone : productions scenario events = [] := by
      refine List.eq_nil_iff_forall_not_mem.mpr fun p hp => ?_
      have hmem : p ∈ OrderedSet.ofList (productions scenario events) :=
        OrderedSet.mem_ofList.mpr hp
      rw [h] at hmem
      exact List.not_mem_nil hmem
    exact productions_eq_nil hnone
  · rcases h with rfl | ⟨label, rfl⟩
    · rfl
    · rfl

/--
**Lifelines are split at their boundaries, and nothing is lost or invented.** What is
extracted from a lifeline are exactly its segments from each boundary to the next, where
an empty segment is one silent action. Each of these productions ends where the next one
starts, there are as many segments as there are neighbouring boundaries, and in order
the segments hold the messages of the lifeline. From several lifelines the union of what
each of them gives is extracted; only an empty lifeline and a lone condition give
nothing. One pass over the events of each lifeline finds all this.
-/
theorem extract_splits_at_boundaries :
    (∀ scenario events,
      extract [(scenario, events)] =
        .ofList (between (boundaries scenario events) (segments events)) ∧
      (between (boundaries scenario events) (segments events)).IsChain
        (fun p q => p.last? = q.first?) ∧
      (events ≠ [] → (boundaries scenario events).length = (segments events).length + 1) ∧
      (segments events).flatten = messages events ∧
      (extract [(scenario, events)] = .empty ↔
        events = [] ∨ ∃ label, events = [.condition label])) ∧
      (∀ ls p, p ∈ extract ls ↔ ∃ l ∈ ls, p ∈ extract [l]) ∧
      ∀ ls, Scan.lifelines ls = extract ls := by
  refine ⟨fun scenario events => ⟨?_, ?_, segments_length, flatten_segments events,
    extract_eq_empty_iff⟩, fun _ _ => mem_extract_iff_exists, Scan.lifelines_eq_extract⟩
  · rw [extract_singleton, productions_eq_between]
  · rw [← productions_eq_between]
    by_cases hnil : events = []
    · rw [hnil]
      exact .nil
    · exact (threads_productions hnil).isChain

/-- Between the two adjacent conditions nothing is said. -/
theorem extract_splits_at_boundaries_adjacent :
    extract [("Work", [.message "a", .condition "Mid", .condition "Final", .message "b"])] =
        .ofList [⟨["B_Work", "a", "C_Mid"]⟩, ⟨["C_Mid", "_tau", "Final"]⟩,
          ⟨["Final", "b", "E_Work"]⟩] ∧
      (boundaries "Work"
        [.message "a", .condition "Mid", .condition "Final", .message "b"]).length = 4 := by
  obtain ⟨hsplit, -⟩ := extract_splits_at_boundaries
  obtain ⟨hextract, -, hlength, -⟩ := hsplit "Work"
    [.message "a", .condition "Mid", .condition "Final", .message "b"]
  exact ⟨hextract.trans (by decide), (hlength (by decide)).trans (by decide)⟩

end ScenarioFsp
