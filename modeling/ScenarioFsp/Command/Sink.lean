/-!
# Places to write to

Whatever is written to need not take it all: a disk may be full, and nobody may listen any
more. A `Sink` holds the bytes that have been taken so far. If a write cannot be completed,
the sink holds as many bytes as it takes, and the writer is told why.
-/

namespace ScenarioFsp

namespace Command

/-- Why a file cannot be read or written. -/
inductive FileError where
  | notFound
  | noDevice
  | outOfMemory
  | denied
  | notADirectory
  | isADirectory
  | noSpace
  | nameTooLong
  | invalidText
  /-- Any other reason, as the system puts it. -/
  | other (text : String)
deriving DecidableEq, Repr

/-- The text of the system about an error. -/
def FileError.message : FileError → String
  | notFound => "No such file or directory (os error 2)"
  | noDevice => "No such device or address (os error 6)"
  | outOfMemory => "out of memory"
  | denied => "Permission denied (os error 13)"
  | notADirectory => "Not a directory (os error 20)"
  | isADirectory => "Is a directory (os error 21)"
  | noSpace => "No space left on device (os error 28)"
  | nameTooLong => "File name too long (os error 36)"
  | invalidText => "stream did not contain valid UTF-8"
  | other text => text

/-- How many bytes are taken, and why no more are. -/
structure Limit where
  bytes : Nat
  error : FileError
deriving DecidableEq, Repr

/-- As much of some bytes as is taken. -/
def Limit.part (limit : Option Limit) (content : ByteArray) : ByteArray :=
  match limit with
  | none => content
  | some l => content.extract 0 l.bytes

namespace Limit

theorem extract_of_size_le {content : ByteArray} {n : Nat} (h : content.size ≤ n) :
    content.extract 0 n = content := by
  have hrest : content.extract content.size n = .empty := by
    rw [← ByteArray.size_eq_zero_iff, ByteArray.size_extract, Nat.min_eq_right h, Nat.sub_self]
  rw [ByteArray.extract_eq_extract_append_extract content.size (Nat.zero_le _) h, hrest,
    ByteArray.append_empty, ByteArray.extract_zero_size]

theorem part_eq_self_iff {limit : Option Limit} {content : ByteArray} :
    part limit content = content ↔ ∀ l, limit = some l → content.size ≤ l.bytes := by
  cases limit with
  | none => exact iff_of_true rfl fun _ h => (nomatch h)
  | some l =>
      refine ⟨fun h l' hl => ?_, fun h => extract_of_size_le (h l rfl)⟩
      obtain rfl := Option.some.inj hl
      have hsize := congrArg ByteArray.size h
      unfold part at hsize
      rw [ByteArray.size_extract] at hsize
      omega

/-- What has been left out stays out. -/
theorem part_part_append (limit : Option Limit) (before after : ByteArray) :
    part limit (part limit before ++ after) = part limit (before ++ after) := by
  cases limit with
  | none => rfl
  | some l =>
      have hsize : l.bytes - min l.bytes before.size = l.bytes - before.size := by omega
      simp only [part, ByteArray.extract_append, ByteArray.extract_extract, ByteArray.size_extract,
        Nat.zero_add, Nat.min_self, Nat.sub_zero, Nat.zero_sub, hsize]

end Limit

/-- Bytes that have been taken, where there may be a limit to all of them. -/
structure Sink where
  content : ByteArray
  limit : Option Limit

namespace Sink

/-- Nothing has been written yet. -/
def start (limit : Option Limit) : Sink := ⟨.empty, limit⟩

/-- Writes some bytes, and tells why not all of them were taken. -/
def write (s : Sink) (bytes : ByteArray) : Sink × Option FileError :=
  let wanted := s.content ++ bytes
  (⟨Limit.part s.limit wanted, s.limit⟩,
    s.limit.bind fun l => if Nat.ble wanted.size l.bytes then none else some l.error)

/-- The sink holds what it takes of all that has been written to it. -/
def Holds (s : Sink) (limit : Option Limit) (all : ByteArray) : Prop :=
  s.limit = limit ∧ s.content = Limit.part limit all

theorem holds_start (limit : Option Limit) : (start limit).Holds limit .empty := by
  have hempty : Limit.part limit .empty = .empty :=
    Limit.part_eq_self_iff.mpr fun l _ => Nat.zero_le l.bytes
  exact ⟨rfl, hempty.symm⟩

/-- However it was written, in one piece or in several. -/
theorem Holds.write {s : Sink} {limit : Option Limit} {all : ByteArray} (h : s.Holds limit all)
    (bytes : ByteArray) : (s.write bytes).1.Holds limit (all ++ bytes) := by
  obtain ⟨rfl, hcontent⟩ := h
  refine ⟨rfl, ?_⟩
  rw [← Limit.part_part_append, ← hcontent]
  rfl

theorem content_write_start (limit : Option Limit) (bytes : ByteArray) :
    ((start limit).write bytes).1.content = Limit.part limit bytes :=
  congrArg (Limit.part limit) ByteArray.empty_append

/-- A write is completed if nothing has to be left out. -/
theorem write_eq_none_iff {s : Sink} {bytes : ByteArray} :
    (s.write bytes).2 = none ↔ Limit.part s.limit (s.content ++ bytes) = s.content ++ bytes := by
  rw [Limit.part_eq_self_iff]
  unfold write
  cases s.limit with
  | none => exact iff_of_true rfl fun _ h => (nomatch h)
  | some l => simp

theorem write_start_eq_none_iff {limit : Option Limit} {bytes : ByteArray} :
    ((start limit).write bytes).2 = none ↔ Limit.part limit bytes = bytes := by
  have hempty : ByteArray.empty ++ bytes = bytes := ByteArray.empty_append
  rw [write_eq_none_iff]
  show Limit.part limit (ByteArray.empty ++ bytes) = ByteArray.empty ++ bytes ↔ _
  rw [hempty]

end Sink

end Command

end ScenarioFsp
