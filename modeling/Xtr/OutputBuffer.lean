import Mathlib.Data.List.Basic

/-!
# The output buffer

`detail::buffer` over a storage that does not fail.  Lines are copied into the span
that `allocate_buffer` last returned; a full span is submitted and the next one
allocated.  The storage is the list of the calls made to it; what it decides is how
large the spans are.  The calls keep to what the storage asks of them (`Keeps`).
-/
namespace Xtr

/-- The calls of `storage_interface`. -/
inductive StorageCall
  | allocateBuffer
  | submitBuffer (bytes : List UInt8)
  | flush
  | sync
  | reopen
  deriving DecidableEq

/-- The bytes a call submits. -/
def StorageCall.bytes : StorageCall → List UInt8
  | .submitBuffer bytes => bytes
  | _ => []

/-- The sizes of the spans `allocate_buffer` returns, one after the other.  A span is
never empty. -/
structure SpanSizes where
  size : Nat → Nat
  pos : ∀ k, 0 < size k

/-- `detail::buffer`: the bytes from `begin_` to `pos_`, the distance from `pos_` to
`end_`, and the calls made to `storage_`. -/
structure OutputBuffer where
  pending : List UInt8
  room : Nat
  calls : List StorageCall
  deriving DecidableEq

namespace OutputBuffer

def empty : OutputBuffer := ⟨[], 0, []⟩

def call (b : OutputBuffer) (c : StorageCall) : OutputBuffer := { b with calls := b.calls ++ [c] }

/-- `submit_buffer(begin_, pos_ - begin_)`, unless nothing is pending. -/
def submit (b : OutputBuffer) : OutputBuffer :=
  if b.pending = [] then b else b.call (.submitBuffer b.pending)

/-- `flush`. -/
def flush (b : OutputBuffer) : OutputBuffer :=
  let b := if b.pending = [] then b else { b.submit with pending := [], room := 0 }
  b.call .flush

variable (sizes : SpanSizes)

/-- `next_buffer`. -/
def nextBuffer (b : OutputBuffer) : OutputBuffer :=
  let b := b.submit
  { b.call .allocateBuffer with
    pending := [], room := sizes.size (b.calls.count .allocateBuffer) }

/-- The loop of `append`: each round copies at least one byte. -/
def append : Nat → OutputBuffer → List UInt8 → OutputBuffer
  | 0, b, _ => b
  | fuel + 1, b, bytes =>
    if bytes = [] then b
    else
      let b := if b.room = 0 then b.nextBuffer sizes else b
      let n := min bytes.length b.room
      append fuel { b with pending := b.pending ++ bytes.take n, room := b.room - n }
        (bytes.drop n)

/-- `append_line`. -/
def appendLine (b : OutputBuffer) (line : List UInt8) : OutputBuffer :=
  b.append sizes line.length line

/-- Everything submitted, and what is pending. -/
def output (b : OutputBuffer) : List UInt8 := b.calls.flatMap StorageCall.bytes ++ b.pending

/-! ## The output -/

theorem output_call (b : OutputBuffer) {c : StorageCall} (hc : c.bytes = []) :
    (b.call c).output = b.output := by
  simp only [output, call, List.flatMap_append, List.flatMap_singleton, hc, List.append_nil]

/-- Submitting moves the pending bytes to the storage. -/
theorem output_submit (b : OutputBuffer) (room : Nat) :
    ({ b.submit with pending := [], room := room } : OutputBuffer).output = b.output := by
  unfold submit
  split
  · rename_i h
    simp only [output, h]
  · simp only [output, call, List.flatMap_append, List.flatMap_singleton, StorageCall.bytes,
      List.append_nil]

@[simp] theorem output_flush (b : OutputBuffer) : b.flush.output = b.output := by
  unfold flush
  rw [output_call _ rfl]
  split
  · rfl
  · exact output_submit b 0

@[simp] theorem pending_flush (b : OutputBuffer) : b.flush.pending = [] := by
  unfold flush
  split
  · rename_i h
    exact h
  · rfl

theorem output_nextBuffer (b : OutputBuffer) : (b.nextBuffer sizes).output = b.output := by
  unfold nextBuffer
  have h := output_submit b (sizes.size (b.submit.calls.count .allocateBuffer))
  rw [← h]
  simp only [output, call, List.flatMap_append, List.flatMap_singleton, StorageCall.bytes,
    List.append_nil]

theorem room_nextBuffer_pos (b : OutputBuffer) : 0 < (b.nextBuffer sizes).room := sizes.pos _

theorem output_append {fuel : Nat} {b : OutputBuffer} {bytes : List UInt8}
    (h : bytes.length ≤ fuel) : (b.append sizes fuel bytes).output = b.output ++ bytes := by
  induction fuel generalizing b bytes with
  | zero =>
    rw [List.length_eq_zero_iff.mp (Nat.le_zero.mp h), append, List.append_nil]
  | succ fuel ih =>
    rw [append]
    split
    · rename_i hnil
      rw [hnil, List.append_nil]
    · rename_i hne
      have hlen : 0 < bytes.length := List.length_pos_iff.mpr hne
      -- after `next_buffer` there is room for at least one byte
      obtain ⟨b', hb', hout, hroom⟩ : ∃ b', (if b.room = 0 then b.nextBuffer sizes else b) = b' ∧
          b'.output = b.output ∧ 0 < b'.room := by
        split
        · exact ⟨_, rfl, output_nextBuffer sizes b, room_nextBuffer_pos sizes b⟩
        · rename_i hr
          exact ⟨_, rfl, rfl, Nat.pos_of_ne_zero hr⟩
      simp only [hb']
      rw [ih (by rw [List.length_drop]; omega), ← hout]
      show b'.calls.flatMap StorageCall.bytes ++ (b'.pending ++ _) ++ _ =
        b'.calls.flatMap StorageCall.bytes ++ b'.pending ++ bytes
      simp only [List.append_assoc, List.take_append_drop]

/-- **A line is appended to the output**, wherever the spans end. -/
@[simp] theorem output_appendLine (b : OutputBuffer) (line : List UInt8) :
    (b.appendLine sizes line).output = b.output ++ line :=
  output_append sizes (Nat.le_refl _)

/-! ## The calls -/

theorem calls_submit (b : OutputBuffer) : b.calls <+: b.submit.calls := by
  unfold submit
  split
  · exact List.prefix_rfl
  · exact List.prefix_append _ _

/-- What `flush` submits is all there is, and it comes before the storage's own `flush`. -/
theorem calls_flush (b : OutputBuffer) : ∃ before, b.flush.calls = before ++ [.flush] ∧
    b.calls <+: before ∧ before.flatMap StorageCall.bytes = b.output := by
  unfold flush
  by_cases h : b.pending = []
  · rw [if_pos h]
    exact ⟨b.calls, rfl, List.prefix_rfl, by rw [output, h, List.append_nil]⟩
  · rw [if_neg h]
    refine ⟨b.submit.calls, rfl, calls_submit b, ?_⟩
    rw [← output_submit b 0, output]
    exact (List.append_nil _).symm

theorem calls_prefix_flush (b : OutputBuffer) : b.calls <+: b.flush.calls := by
  obtain ⟨before, heq, hbefore, -⟩ := calls_flush b
  rw [heq]
  exact hbefore.trans (List.prefix_append _ _)

theorem calls_append (fuel : Nat) (b : OutputBuffer) (bytes : List UInt8) :
    b.calls <+: (b.append sizes fuel bytes).calls := by
  induction fuel generalizing b bytes with
  | zero => exact List.prefix_rfl
  | succ fuel ih =>
    rw [append]
    split
    · exact List.prefix_rfl
    · refine List.IsPrefix.trans ?_ (ih _ _)
      split
      · exact (calls_submit b).trans (List.prefix_append _ _)
      · exact List.prefix_rfl

theorem calls_appendLine (b : OutputBuffer) (line : List UInt8) :
    b.calls <+: (b.appendLine sizes line).calls :=
  calls_append sizes _ b line

end OutputBuffer

/-! ## The protocol of the storage -/

/-- Whether a buffer is held after a call, if the call may be made: one buffer is held at
a time, it is submitted with no more bytes than fit, and `reopen` finds none held. -/
def StorageCall.hold (capacity : Nat) (held : Bool) : StorageCall → Option Bool
  | .allocateBuffer => if held then none else some true
  | .submitBuffer bytes => if held ∧ bytes.length ≤ capacity then some false else none
  | .flush | .sync => some held
  | .reopen => if held then none else some false

/-- Whether a buffer is held after the calls, if they may be made one after the other. -/
def StorageCall.holds (capacity : Nat) (calls : List StorageCall) : Option Bool :=
  calls.foldlM (StorageCall.hold capacity) false

theorem StorageCall.holds_append (capacity : Nat) (calls more : List StorageCall) :
    holds capacity (calls ++ more) =
      (holds capacity calls).bind fun held => more.foldlM (StorageCall.hold capacity) held :=
  List.foldlM_append

/-- One more call. -/
theorem StorageCall.holds_concat {capacity : Nat} {calls : List StorageCall} {c : StorageCall}
    {held held' : Bool} (h : holds capacity calls = some held)
    (hc : c.hold capacity held = some held') : holds capacity (calls ++ [c]) = some held' := by
  rw [holds_append, h]
  show List.foldlM _ held [c] = _
  rw [List.foldlM_cons, hc]
  rfl

/-- Calls that may be made may be made up to any of them. -/
theorem StorageCall.holds_prefix {capacity : Nat} {calls more : List StorageCall} {held : Bool}
    (h : holds capacity (calls ++ more) = some held) :
    ∃ held', holds capacity calls = some held' := by
  rw [holds_append] at h
  obtain ⟨held', h', -⟩ := Option.bind_eq_some_iff.mp h
  exact ⟨held', h'⟩

namespace OutputBuffer
variable {capacity : Nat} {b : OutputBuffer}

/-- **The calls keep to the protocol**, and a buffer is held while there are bytes in it. -/
structure Keeps (capacity : Nat) (b : OutputBuffer) : Prop where
  holds : StorageCall.holds capacity b.calls = some (decide (b.pending ≠ []))
  room : b.pending.length + b.room ≤ capacity
  closed : b.pending = [] → b.room = 0

theorem keeps_empty : Keeps capacity empty := ⟨rfl, Nat.zero_le _, fun _ => rfl⟩

theorem Keeps.submit (h : Keeps capacity b) :
    StorageCall.holds capacity b.submit.calls = some false := by
  unfold OutputBuffer.submit
  split
  · rename_i hnil
    rw [h.holds, decide_eq_false (not_not_intro hnil)]
  · rename_i hne
    refine StorageCall.holds_concat h.holds ?_
    rw [decide_eq_true hne]
    have hroom := h.room
    exact if_pos ⟨rfl, by omega⟩

theorem Keeps.flush (h : Keeps capacity b) : Keeps capacity b.flush := by
  have hcalls : StorageCall.holds capacity b.flush.calls = some false ∧ b.flush.room = 0 := by
    unfold OutputBuffer.flush
    split
    · rename_i hnil
      refine ⟨StorageCall.holds_concat h.holds ?_, h.closed hnil⟩
      rw [decide_eq_false (not_not_intro hnil)]
      rfl
    · exact ⟨StorageCall.holds_concat h.submit rfl, rfl⟩
  refine ⟨?_, ?_, fun _ => hcalls.2⟩
  · rw [hcalls.1, pending_flush]
    rfl
  · rw [hcalls.2, pending_flush]
    exact Nat.zero_le _

/-- `sync` and `reopen` come after a flush. -/
theorem Keeps.flush_call {c : StorageCall} (h : Keeps capacity b)
    (hc : c.hold capacity false = some false) : Keeps capacity (b.flush.call c) := by
  have hf := h.flush
  have hnil := pending_flush b
  have hfalse : StorageCall.holds capacity b.flush.calls = some false := by
    rw [hf.holds, hnil]
    rfl
  refine ⟨StorageCall.holds_concat hfalse (hc.trans ?_), hf.room, hf.closed⟩
  · show _ = some (decide (b.flush.pending ≠ []))
    rw [hnil]
    rfl

theorem Keeps.append {sizes : SpanSizes} (hsizes : ∀ k, sizes.size k ≤ capacity)
    (fuel : Nat) (bytes : List UInt8) (h : Keeps capacity b) :
    Keeps capacity (b.append sizes fuel bytes) := by
  induction fuel generalizing b bytes with
  | zero => exact h
  | succ fuel ih =>
    rw [OutputBuffer.append]
    split
    · exact h
    · rename_i hne
      -- there is a buffer with room for at least one byte
      obtain ⟨b', hb', hholds, hroom, hpos⟩ : ∃ b',
          (if b.room = 0 then b.nextBuffer sizes else b) = b' ∧
          StorageCall.holds capacity b'.calls = some true ∧
          b'.pending.length + b'.room ≤ capacity ∧ 0 < b'.room := by
        split
        · refine ⟨_, rfl, StorageCall.holds_concat h.submit rfl, ?_, room_nextBuffer_pos sizes b⟩
          show 0 + sizes.size _ ≤ capacity
          rw [Nat.zero_add]
          exact hsizes _
        · rename_i hr
          refine ⟨b, rfl, ?_, h.room, Nat.pos_of_ne_zero hr⟩
          have hpending : b.pending ≠ [] := fun hnil => hr (h.closed hnil)
          rw [h.holds, decide_eq_true hpending]
      simp only [hb']
      have hlen : 0 < bytes.length := List.length_pos_iff.mpr hne
      have hcopied : b'.pending ++ bytes.take (min bytes.length b'.room) ≠ [] := by
        rw [← List.length_pos_iff, List.length_append, List.length_take]
        omega
      refine ih _ ⟨?_, ?_, fun hnil => absurd hnil hcopied⟩
      · rw [decide_eq_true hcopied]
        exact hholds
      · rw [List.length_append, List.length_take]
        show _ + (b'.room - min bytes.length b'.room) ≤ capacity
        omega

end OutputBuffer
end Xtr
