import Xtr.Requests
import Xtr.Wire

/-!
# Frames on the command socket

The frames of `requests.hpp` and `responses.hpp` as the bytes that are sent: a header with
the id, and the payload behind it where its alignment puts it.  The padding of an object
holds whatever was in its memory.

Each end reads back what the other sent.  The logger is given exactly the request that a
client has written (`Request.complete`, `replies_request`), and a client finds the sinks,
the success or the reason of the error that the logger has written (`readReply_bytes`).
-/
namespace Xtr.Xtrctl
open Wire
open Logger (LogLevel PatternType Pattern Patterns Received)
open Dispatcher (Reply headerSize frameId)

/-! ## Requests -/

deriving instance DecidableEq for Pattern

/-- The requests of `requests.hpp`. -/
inductive Request
  | status (p : Pattern)
  | setLevel (level : LogLevel) (p : Pattern)
  | reopen
  deriving DecidableEq

/-- A `pattern` at an offset. -/
def patternBytes (mem : Nat → UInt8) (offset : Nat) (p : Pattern) : Str :=
  ofInt p.type.toInt ++ ([if p.ignoreCase then 1 else 0] ++ (p.text ++ memory mem (offset + 261) 3))

/-- The frame of a request. -/
def Request.bytes (mem : Nat → UInt8) : Request → Str
  | .status p => word 4 0 ++ patternBytes mem 4 p
  | .setLevel level p => word 4 1 ++ (ofInt level.toInt ++ patternBytes mem 8 p)
  | .reopen => word 4 5

/-- The text of a pattern is an array of 256 characters. -/
def Request.Sized : Request → Prop
  | .status p | .setLevel _ p => p.text.length = 256
  | .reopen => True

/-- What the handlers are given; `errnum` is what `reopen` will return. -/
def Request.received (errnum : Nat) : Request → Received
  | .status p => .status p
  | .setLevel level p => .setLevel level.toInt p
  | .reopen => .reopen errnum

theorem patternType_toInt (t : PatternType) : Logger.patternType t.toInt = t := by
  cases t <;> rfl

theorem logLevel_bounds (level : LogLevel) : 0 ≤ level.toInt ∧ level.toInt ≤ 5 := by
  cases level <;> decide

theorem patternType_bounds (t : PatternType) : 0 ≤ t.toInt ∧ t.toInt ≤ 3 := by
  cases t <;> decide

theorem length_patternBytes {mem : Nat → UInt8} {offset : Nat} {p : Pattern}
    (h : p.text.length = 256) : (patternBytes mem offset p).length = 264 := by
  simp [patternBytes, h]

theorem readInt_append {before after : Str} {offset : Nat} {n : Int}
    (hoffset : before.length = offset) (hlo : -2 ^ 31 ≤ n) (hhi : n < 2 ^ 31) :
    Logger.readInt (before ++ (ofInt n ++ after)) offset = n := by
  show int (slice (before ++ (ofInt n ++ after)) offset 4) = n
  rw [slice_append after hoffset (length_ofInt n), int_ofInt hlo hhi]

/-- A pattern is read back. -/
theorem readPattern_append {before : Str} {offset : Nat} {mem : Nat → UInt8} {p : Pattern}
    (hoffset : before.length = offset) (htext : p.text.length = 256) :
    Logger.readPattern (before ++ patternBytes mem offset p) offset = p := by
  obtain ⟨hlo, hhi⟩ := patternType_bounds p.type
  have htype : Logger.readInt (before ++ patternBytes mem offset p) offset = p.type.toInt :=
    readInt_append hoffset (by omega) (by omega)
  have hcase : slice (before ++ patternBytes mem offset p) (offset + 4) 1 =
      [if p.ignoreCase then 1 else 0] := by
    rw [patternBytes, ← List.append_assoc]
    exact slice_append _ (by simp [hoffset]) rfl
  have hbody : slice (before ++ patternBytes mem offset p) (offset + 5) 256 = p.text := by
    rw [patternBytes, ← List.append_assoc, ← List.append_assoc]
    exact slice_append _ (by simp [hoffset]) htext
  have hget : (before ++ patternBytes mem offset p).getD (offset + 4) 0 =
      if p.ignoreCase then 1 else 0 := by
    have hhead := congrArg (fun bytes => bytes.getD 0 0) hcase
    simpa [slice, List.getD_eq_getElem?_getD, List.getElem?_take] using hhead
  have hignore : decide ((before ++ patternBytes mem offset p).getD (offset + 4) 0 ≠ 0) =
      p.ignoreCase := by
    rw [hget]
    cases p.ignoreCase <;> rfl
  show Pattern.mk (Logger.patternType (Logger.readInt _ offset)) (decide _)
    (slice (before ++ patternBytes mem offset p) (offset + 5) 256) = p
  rw [htype, patternType_toInt, hbody, hignore]

/-- The id comes first. -/
theorem frameId_append {id : Nat} (payload : Str) (h : id < 256 ^ 4) :
    frameId (word 4 id ++ payload) = id := by
  show value ((word 4 id ++ payload).take 4) = id
  rw [List.take_left' (length_word 4 id), value_word_of_lt h]

/-- **What a client writes is what the logger reads.** -/
theorem Request.complete (mem : Nat → UInt8) {r : Request} (h : r.Sized) (errnum : Nat) :
    Logger.Complete (r.bytes mem) ∧
      Logger.readRequest (r.bytes mem) errnum (frameId (r.bytes mem)) = r.received errnum := by
  cases r with
  | status p =>
    have hid : frameId (Request.bytes mem (.status p)) = 0 := frameId_append _ (by decide)
    have hlen : (Request.bytes mem (.status p)).length = 268 := by
      rw [Request.bytes, List.length_append, length_patternBytes h, length_word]
    refine ⟨?_, ?_⟩
    · rw [Logger.Complete, hid, hlen]
      rfl
    · rw [hid]
      exact congrArg Received.status (readPattern_append (length_word 4 0) h)
  | setLevel level p =>
    have hid : frameId (Request.bytes mem (.setLevel level p)) = 1 := frameId_append _ (by decide)
    have hlen : (Request.bytes mem (.setLevel level p)).length = 272 := by
      rw [Request.bytes, List.length_append, List.length_append, length_patternBytes h, length_word,
        length_ofInt]
    obtain ⟨hlo, hhi⟩ := logLevel_bounds level
    refine ⟨?_, ?_⟩
    · rw [Logger.Complete, hid, hlen]
      rfl
    · rw [hid]
      refine congrArg₂ Received.setLevel
        (readInt_append (length_word 4 1) (by omega) (by omega)) ?_
      rw [Request.bytes, ← List.append_assoc]
      exact readPattern_append (by simp) h
  | reopen => exact ⟨rfl, rfl⟩

section Server
variable {V : Type} {lib : Patterns} {strerror : Nat → Str} {s : Logger.State V}
  {levels : Nat → Int} {errnum : Nat}

theorem thrown_callback (r : Received) :
    (Logger.callback lib strerror s levels r).1.thrown = none := by
  cases r <;> rfl

/-- **The logger carries out what a client asks for**: the dispatcher takes the bytes for a
complete frame, and sends what the handler of the request sends. -/
theorem replies_request {mem : Nat → UInt8} {r : Request} (h : r.Sized)
    (sends : Nat → Dispatcher.SendResult) :
    Dispatcher.replies Dispatcher.registered
        ⟨.frame (r.bytes mem),
          (Logger.callback lib strerror s levels (r.received errnum)).1, sends⟩ =
      (Logger.callback lib strerror s levels (r.received errnum)).1.frames := by
  obtain ⟨hcomplete, -⟩ := r.complete mem h errnum
  have hcomplete : Dispatcher.registered (frameId (r.bytes mem)) = some (r.bytes mem).length :=
    hcomplete
  have hle := (Logger.registered_bounds hcomplete).1
  have hpos : ¬ (r.bytes mem).length = 0 := by
    unfold headerSize at hle
    omega
  simp only [Dispatcher.replies, if_neg hpos, if_neg (Nat.not_lt.mpr hle), hcomplete,
    not_true_eq_false, ne_eq, if_false, thrown_callback, Option.map_none, Option.toList_none,
    List.append_nil]

end Server

/-! ## Replies -/

/-- The frame of a reply. -/
def replyBytes (mem : Nat → UInt8) : Reply → Str
  | .sinkInfo level bufCapacity bufNbytes droppedCount name =>
    word 4 2 ++ (memory mem 4 4 ++ (ofInt level ++ (memory mem 12 4 ++ (word 8 bufCapacity ++
      (word 8 bufNbytes ++ (word 8 droppedCount ++ name))))))
  | .success => word 4 3
  | .error reason => word 4 4 ++ reason

/-- The fields fit in the types they have, and the arrays are of their sizes.  A count of
dropped records need not fit. -/
def Sized : Reply → Prop
  | .sinkInfo level bufCapacity bufNbytes _ name =>
    (-2 ^ 31 ≤ level ∧ level < 2 ^ 31) ∧ bufCapacity < 2 ^ 64 ∧ bufNbytes < 2 ^ 64 ∧
      name.length = 128
  | .success => True
  | .error reason => reason.length = 256

/-- `sink_info`, as a client holds it. -/
structure SinkInfo where
  level : Int
  bufCapacity : Nat
  bufNbytes : Nat
  droppedCount : Nat
  name : Str
  deriving DecidableEq

/-- The payload of a `frame<sink_info>`. -/
def readSinkInfo (bytes : Str) : SinkInfo where
  level := int (slice bytes 8 4)
  bufCapacity := value (slice bytes 16 8)
  bufNbytes := value (slice bytes 24 8)
  droppedCount := value (slice bytes 32 8)
  name := slice bytes 40 128

/-- What is found in a frame, which may be another than its id says. -/
inductive Found
  | sinkInfo (info : SinkInfo)
  | success
  | error (reason : Str)
  | bad (reason : Str)

/-- `frame_cast` to a frame of `size` bytes. -/
def frameCast (bytes : Str) (size : Nat) (found : Found) : Found :=
  if bytes.length ≠ size then .bad (text "Invalid frame length") else found

/-- The body of the loop of `main` for a message that is not empty. -/
def readReply (bytes : Str) : Found :=
  if bytes.length < headerSize then .bad (text "Incomplete frame header")
  else match frameId bytes with
    | 2 => frameCast bytes 168 (.sinkInfo (readSinkInfo bytes))
    | 3 => .success
    | 4 => frameCast bytes 260 (.error (slice bytes 4 256))
    | _ => .bad (text "Invalid frame id")

/-- What a client should find; a count starts again at zero where a `size_t` does. -/
def found : Reply → Found
  | .sinkInfo level bufCapacity bufNbytes droppedCount name =>
    .sinkInfo ⟨level, bufCapacity, bufNbytes, droppedCount % 2 ^ 64, name⟩
  | .success => .success
  | .error reason => .error reason

/-- The fields of a `sink_info` are read back. -/
theorem readSinkInfo_bytes {mem : Nat → UInt8} {level : Int} {capacity nbytes dropped : Nat}
    {name : Str} (h : Sized (.sinkInfo level capacity nbytes dropped name)) :
    readSinkInfo (replyBytes mem (.sinkInfo level capacity nbytes dropped name)) =
      ⟨level, capacity, nbytes, dropped % 2 ^ 64, name⟩ := by
  obtain ⟨⟨hlo, hhi⟩, hcapacity, hnbytes, hname⟩ := h
  -- each field behind those before it
  have hlevel : slice (replyBytes mem (.sinkInfo level capacity nbytes dropped name)) 8 4 =
      ofInt level := by
    have hfield := @slice_append (word 4 2 ++ memory mem 4 4) (ofInt level) 8 4
      (memory mem 12 4 ++ (word 8 capacity ++ (word 8 nbytes ++ (word 8 dropped ++ name))))
      (by simp) (by simp)
    simpa only [replyBytes, List.append_assoc] using hfield
  have hcap : slice (replyBytes mem (.sinkInfo level capacity nbytes dropped name)) 16 8 =
      word 8 capacity := by
    have hfield := @slice_append (word 4 2 ++ memory mem 4 4 ++ ofInt level ++ memory mem 12 4)
      (word 8 capacity) 16 8 (word 8 nbytes ++ (word 8 dropped ++ name)) (by simp) (by simp)
    simpa only [replyBytes, List.append_assoc] using hfield
  have hused : slice (replyBytes mem (.sinkInfo level capacity nbytes dropped name)) 24 8 =
      word 8 nbytes := by
    have hfield := @slice_append (word 4 2 ++ memory mem 4 4 ++ ofInt level ++ memory mem 12 4 ++
      word 8 capacity) (word 8 nbytes) 24 8 (word 8 dropped ++ name) (by simp) (by simp)
    simpa only [replyBytes, List.append_assoc] using hfield
  have hdrop : slice (replyBytes mem (.sinkInfo level capacity nbytes dropped name)) 32 8 =
      word 8 dropped := by
    have hfield := @slice_append (word 4 2 ++ memory mem 4 4 ++ ofInt level ++ memory mem 12 4 ++
      word 8 capacity ++ word 8 nbytes) (word 8 dropped) 32 8 name (by simp) (by simp)
    simpa only [replyBytes, List.append_assoc] using hfield
  have hlast : slice (replyBytes mem (.sinkInfo level capacity nbytes dropped name)) 40 128 =
      name := by
    have hfield := @slice_last (word 4 2 ++ memory mem 4 4 ++ ofInt level ++ memory mem 12 4 ++
      word 8 capacity ++ word 8 nbytes ++ word 8 dropped) name 40 128 (by simp) hname
    simpa only [replyBytes, List.append_assoc] using hfield
  have hwrap : 256 ^ 8 = 2 ^ 64 := by decide
  rw [readSinkInfo, hlevel, hcap, hused, hdrop, hlast, int_ofInt hlo hhi,
    value_word_of_lt hcapacity, value_word_of_lt hnbytes, value_word, hwrap]

theorem length_replyBytes (mem : Nat → UInt8) {r : Reply} (h : Sized r) :
    headerSize ≤ (replyBytes mem r).length ∧ (replyBytes mem r).length ≤ 260 := by
  cases r with
  | sinkInfo level capacity nbytes dropped name =>
    have hname : name.length = 128 := h.2.2.2
    simp [replyBytes, hname, headerSize]
  | success => simp [replyBytes, headerSize]
  | error reason =>
    have hreason : reason.length = 256 := h
    simp [replyBytes, hreason, headerSize]

/-- **What the logger writes is what a client reads.** -/
theorem readReply_bytes (mem : Nat → UInt8) {r : Reply} (h : Sized r) :
    readReply (replyBytes mem r) = found r := by
  have hshort := Nat.not_lt.mpr (length_replyBytes mem h).1
  cases r with
  | sinkInfo level capacity nbytes dropped name =>
    have hid : frameId (replyBytes mem (.sinkInfo level capacity nbytes dropped name)) = 2 :=
      frameId_append _ (by decide)
    have hname : name.length = 128 := h.2.2.2
    have hlen : (replyBytes mem (.sinkInfo level capacity nbytes dropped name)).length = 168 := by
      simp [replyBytes, hname]
    rw [readReply, if_neg hshort, hid]
    show frameCast _ 168 _ = _
    rw [frameCast, if_neg (not_not_intro hlen), readSinkInfo_bytes h]
    rfl
  | success => rfl
  | error reason =>
    have hid : frameId (replyBytes mem (.error reason)) = 4 := frameId_append _ (by decide)
    have hreason : reason.length = 256 := h
    have hlen : (replyBytes mem (.error reason)).length = 260 := by simp [replyBytes, hreason]
    have hfield : slice (replyBytes mem (.error reason)) 4 256 = reason :=
      slice_last (length_word 4 4) hreason
    rw [readReply, if_neg hshort, hid]
    show frameCast _ 260 _ = _
    rw [frameCast, if_neg (not_not_intro hlen), hfield]
    rfl

end Xtr.Xtrctl
