import Xtr.FailingBuffer

/-!
# The buffer over `posix_fd_storage`

`posix_fd_storage` has one buffer, which `allocate_buffer` always returns, and its
`submit_buffer` is a loop around `write(2)`: a short count makes it go on with the rest, and
an error makes it throw, whatever has been written by then.

A step is one `write(2)` returning, or a step of the buffer (`FailingBuffer`) between two
calls of the storage.
-/
namespace Xtr.PosixStorage
open Buffer (CharSpan)
open FailingBuffer (Pc Fires fires_of_step)

variable {α : Type}

/-! ## The storage -/

/-- The result of `write(2)`: a count, or `-1` with `errno` being `EINTR` or something else. -/
inductive WriteResult
  | wrote (n : Nat)
  | eintr
  | error
  deriving DecidableEq

/-- The buffer, what has been written to the file, and what `submit_buffer` has left to
write (`buf` and `size`). -/
structure State (α : Type) where
  buf : FailingBuffer.State α
  file : List α
  left : List α
  deriving DecidableEq

inductive Event (α : Type)
  /-- `print`, with the text of the statement; `none` if formatting throws. -/
  | print (text : Option (List α))
  | flush
  /-- One round of `append`. -/
  | round
  /-- A call of `write(2)` in `submit_buffer`. -/
  | write (result : WriteResult)
  /-- `submit_buffer` returns, with `size` zero. -/
  | submitBufferReturns
  | allocateBuffer
  | flushReturns
  deriving DecidableEq

/-- The buffer makes a step; if that is a call of `submit_buffer`, everything that is pending
is to be written. -/
def State.call (s : State α) (e : FailingBuffer.Event α) : Option (State α) :=
  (FailingBuffer.step s.buf e).map fun b =>
    { s with buf := b, left := if b.pc.isSubmitting then b.pending else [] }

/-- `XTR_TEMP_FAILURE_RETRY` and the loop of `submit_buffer`, once. -/
def write (s : State α) : WriteResult → Option (State α)
  | .eintr => some s
  | .wrote n =>
    if n ≤ s.left.length then some { s with file := s.file ++ s.left.take n, left := s.left.drop n }
    else none
  | .error => s.call (.submitReturns false)

section Operations
variable (buf_ : CharSpan)

def step (s : State α) : Event α → Option (State α)
  | .print text => s.call (.print text)
  | .flush => s.call .flush
  | .round => s.call .round
  | .write result => if s.left = [] then none else write s result
  | .submitBufferReturns => if s.left = [] then s.call (.submitReturns true) else none
  | .allocateBuffer => s.call (.allocateReturns (some buf_))
  | .flushReturns => s.call (.flushReturns true)

def machine : Machine (State α) (Event α) where
  init s := s = ⟨FailingBuffer.initial, [], []⟩
  step := step buf_

end Operations

/-! ## What is yet to be written -/

/-- What is in the buffer and not in the file, where `left` is what `submit_buffer` has left
to write, and what `append` has not copied of the line. -/
def staged (b : FailingBuffer.State α) (left : List α) : List α :=
  (if b.pc.isSubmitting then left else if b.pc.isAllocating then [] else b.pending) ++
    (b.pc.first.map b.line.drop).getD []

/-- The log: every line that was formatted. -/
def stream (b : FailingBuffer.State α) : List α := b.lines.flatten

/-- **What is in the file and what is yet to be written are parts of the log, in order.** -/
structure InOrder (s : State α) : Prop where
  sublist : (s.file ++ staged s.buf s.left).Sublist (stream s.buf)
  submitting : s.left ≠ [] → s.buf.pc.isSubmitting = true

/-- `write(2)` fails only before `submit_buffer` has written anything. -/
def FailsFirst (s : State α) (e : Event α) : Prop :=
  e = .write .error → s.left = s.buf.pending

instance [DecidableEq α] (s : State α) (e : Event α) : Decidable (FailsFirst s e) :=
  inferInstanceAs (Decidable (e = .write .error → s.left = s.buf.pending))

variable {s s' : State α} {b b' : FailingBuffer.State α}

section Staged
variable {left : List α} {first : Nat}

theorem staged_append (h : b.pc = .append first) :
    staged b left = b.pending ++ b.line.drop first := by
  rw [staged, h]
  rfl

theorem staged_idle (h : b.pc = .idle) : staged b left = b.pending := by
  rw [staged, h]
  exact List.append_nil _

theorem staged_flush (h : b.pc = .flush) : staged b left = b.pending := by
  rw [staged, h]
  exact List.append_nil _

theorem staged_nextBufferSubmit (h : b.pc = .nextBufferSubmit first) :
    staged b left = left ++ b.line.drop first := by
  rw [staged, h]
  rfl

theorem staged_nextBufferAllocate (h : b.pc = .nextBufferAllocate first) :
    staged b left = b.line.drop first := by
  rw [staged, h]
  rfl

theorem staged_flushSubmit (h : b.pc = .flushSubmit) : staged b left = left := by
  rw [staged, h]
  exact List.append_nil _

end Staged

/-- A step of the buffer that formats no line: nothing comes to what is yet to be written, and
what `submit_buffer` gets next is all that is pending. -/
theorem staged_sublist {e : FailingBuffer.Event α} {left : List α} (hf : Fires b e b')
    (hlines : b'.lines = b.lines) (ha : e ≠ .allocateReturns none)
    (hfalse : e = .submitReturns false → left = b.pending) :
    (staged b' b'.pending).Sublist (staged b left) := by
  cases hf with
  | @print text hpc =>
    cases text with
    | none =>
      rw [staged_idle hpc, staged_idle rfl]
      exact List.Sublist.refl _
    | some text => simp [FailingBuffer.print] at hlines
  | flush hpc =>
    rw [staged_idle hpc]
    unfold FailingBuffer.flush
    split
    · rw [staged_flushSubmit rfl]
    · rw [staged_flush rfl]
  | done hpc =>
    rw [staged_append hpc, staged_idle rfl]
    exact List.sublist_append_left _ _
  | full hpc => rw [staged_append hpc, staged_nextBufferSubmit rfl]
  | empty hpc =>
    rw [staged_append hpc, staged_nextBufferAllocate rfl]
    exact List.sublist_append_right _ _
  | @copy first n hpc =>
    rw [staged_append hpc, staged_append rfl]
    show (b.pending ++ (b.line.drop first).take n ++ b.line.drop (first + n)).Sublist _
    rw [List.append_assoc, ← List.drop_drop, List.take_append_drop]
  | submitted hpc =>
    rw [staged_nextBufferSubmit hpc, staged_nextBufferAllocate rfl]
    exact List.sublist_append_right _ _
  | submitThrows hpc =>
    rw [staged_nextBufferSubmit hpc, staged_idle rfl, hfalse rfl]
    exact List.sublist_append_left _ _
  | allocated hpc =>
    rw [staged_nextBufferAllocate hpc, staged_append rfl]
    exact List.Sublist.refl _
  | allocateThrows hpc => exact absurd rfl ha
  | flushSubmitted hpc =>
    rw [staged_flush rfl]
    exact List.nil_sublist _
  | flushSubmitThrows hpc =>
    rw [staged_flushSubmit hpc, staged_idle rfl, hfalse rfl]
    exact List.Sublist.refl _
  | flushed hpc => rw [staged_flush hpc, staged_idle rfl]

/-- A line is formatted: it is yet to be written, after all the rest. -/
theorem staged_print (h : b.pc = .idle) (text left : List α) :
    staged (FailingBuffer.print b (some text)) left = staged b left ++ (b.line ++ text) ∧
      stream (FailingBuffer.print b (some text)) = stream b ++ (b.line ++ text) := by
  constructor
  · rw [staged_idle h, staged_append rfl]
    rfl
  · show (b.lines ++ [b.line ++ text]).flatten = stream b ++ (b.line ++ text)
    rw [List.flatten_append, List.flatten_singleton]
    rfl

theorem lines_eq_or_print {e : FailingBuffer.Event α} (hf : Fires b e b') :
    b'.lines = b.lines ∨
      ∃ text, b.pc = .idle ∧ b' = FailingBuffer.print b (some text) := by
  cases hf
  case print text hpc =>
    cases text with
    | none => exact .inl rfl
    | some text => exact .inr ⟨text, hpc, rfl⟩
  all_goals exact .inl rfl

/-! ## The steps -/

/-- What `submit_buffer` has left does not matter outside of it. -/
theorem staged_entered (b : FailingBuffer.State α) :
    staged b (if b.pc.isSubmitting then b.pending else []) = staged b b.pending := by
  unfold staged
  cases b.pc.isSubmitting <;> rfl

theorem InOrder.call {e : FailingBuffer.Event α} (h : InOrder s) (hs : s.call e = some s')
    (ha : e ≠ .allocateReturns none)
    (hfalse : e = .submitReturns false → s.left = s.buf.pending) : InOrder s' := by
  obtain ⟨b', hb, rfl⟩ := Option.map_eq_some_iff.mp hs
  have hf := fires_of_step hb
  refine ⟨?_, fun hleft => ?_⟩
  · show (s.file ++ staged b' _).Sublist (stream b')
    rw [staged_entered]
    rcases lines_eq_or_print hf with hlines | ⟨text, hpc, rfl⟩
    · rw [stream, hlines]
      exact ((List.Sublist.refl _).append (staged_sublist hf hlines ha hfalse)).trans h.sublist
    · obtain ⟨hstaged, hstream⟩ := staged_print hpc text s.buf.pending
      have hsub := h.sublist
      rw [staged_idle hpc] at hsub
      show (s.file ++ staged _ s.buf.pending).Sublist _
      rw [hstaged, hstream, ← List.append_assoc, staged_idle hpc]
      exact hsub.append_right _
  · by_contra hpc
    exact hleft (if_neg hpc)

/-- What `write(2)` takes from the front of what is left comes to the end of the file. -/
theorem InOrder.wrote (h : InOrder s) (hleft : s.left ≠ []) (n : Nat) :
    InOrder { s with file := s.file ++ s.left.take n, left := s.left.drop n } := by
  have hpc := h.submitting hleft
  refine ⟨?_, fun _ => hpc⟩
  have hsub := h.sublist
  simp only [staged, hpc, if_true] at hsub ⊢
  rw [List.append_assoc, ← List.append_assoc (s.left.take n), List.take_append_drop]
  exact hsub

/-- What a step is: an interrupted `write(2)`, one that writes, or a step of the buffer, in
which `allocate_buffer` does not throw and `submit_buffer` only if `write(2)` fails. -/
theorem step_cases {buf_ : CharSpan} {e : Event α} (hs : step buf_ s e = some s') :
    s' = s ∨
      (∃ n, s.left ≠ [] ∧
        s' = { s with file := s.file ++ s.left.take n, left := s.left.drop n }) ∨
      ∃ e', s.call e' = some s' ∧ e' ≠ .allocateReturns none ∧
        (e' = .submitReturns false → e = .write .error) := by
  cases e with
  | print text => exact .inr (.inr ⟨_, hs, nofun, nofun⟩)
  | flush => exact .inr (.inr ⟨_, hs, nofun, nofun⟩)
  | round => exact .inr (.inr ⟨_, hs, nofun, nofun⟩)
  | allocateBuffer => exact .inr (.inr ⟨_, hs, nofun, nofun⟩)
  | flushReturns => exact .inr (.inr ⟨_, hs, nofun, nofun⟩)
  | submitBufferReturns =>
    obtain ⟨-, hs⟩ := Option.ite_none_right_eq_some.mp hs
    exact .inr (.inr ⟨_, hs, nofun, nofun⟩)
  | write result =>
    obtain ⟨hleft, hs⟩ := Option.ite_none_left_eq_some.mp hs
    cases result with
    | eintr => exact .inl (Option.some.inj hs).symm
    | wrote n =>
      obtain ⟨-, hs⟩ := Option.ite_none_right_eq_some.mp hs
      exact .inr (.inl ⟨n, hleft, (Option.some.inj hs).symm⟩)
    | error => exact .inr (.inr ⟨_, hs, nofun, fun _ => rfl⟩)

theorem InOrder.step {buf_ : CharSpan} {e : Event α} (h : InOrder s) (hp : FailsFirst s e)
    (hs : step buf_ s e = some s') : InOrder s' := by
  rcases step_cases hs with rfl | ⟨n, hleft, rfl⟩ | ⟨e', hcall, ha, hfalse⟩
  · exact h
  · exact h.wrote hleft n
  · exact h.call hcall ha fun he => hp (hfalse he)

/-- **Over `posix_fd_storage` the buffer keeps to the storage protocol**, whatever `write(2)`
does: its one buffer is always there to be allocated. -/
theorem respects_of_reachable {buf_ : CharSpan} (h : (machine buf_).Reachable s) :
    FailingBuffer.Respects s.buf.trace := by
  have hbuf : FailingBuffer.machine.ReachableBy FailingBuffer.ThrowsBeforeSubmit s.buf := by
    induction h with
    | start h0 =>
      subst h0
      exact .start rfl
    | next _ _ hs ih =>
      rcases step_cases hs with rfl | ⟨n, -, rfl⟩ | ⟨e', hcall, ha, -⟩
      · exact ih
      · exact ih
      · obtain ⟨b', hb, rfl⟩ := Option.map_eq_some_iff.mp hcall
        exact ih.next (fun heq => absurd heq ha) hb
  exact (FailingBuffer.Owned.of_reachableBy hbuf).respects

/-- **Each byte is written at most once** over `posix_fd_storage`, in every run in which
`write(2)` fails only before `submit_buffer` has written anything: the file holds the log with
parts missing. -/
theorem no_byte_written_twice {buf_ : CharSpan} (h : (machine buf_).ReachableBy FailsFirst s) :
    s.file.Sublist (stream s.buf) ∧ ((stream s.buf).Nodup → s.file.Nodup) := by
  have horder : InOrder s := by
    refine h.invariant ?_ ?_
    · rintro _ rfl
      exact ⟨List.nil_sublist _, fun hleft => absurd rfl hleft⟩
    · intro s e s' hi hp hs
      exact hi.step hp hs
  have hsub : s.file.Sublist (stream s.buf) :=
    (List.sublist_append_left _ _).trans horder.sublist
  exact ⟨hsub, fun hnodup => hnodup.sublist hsub⟩

/-- A full disk in the middle of a line, and a disk with room again; then a signal and a short
count.  Two bytes of the line are missing. -/
theorem no_byte_written_twice_recovers : ∃ s, (machine ⟨100, 4⟩).ReachableBy FailsFirst s ∧
    stream s.buf = [1, 2, 3, 4, 5, 6, 7] ∧ s.file = [1, 2, 3, 4, 7] ∧ s.file.Nodup := by
  have hrun : ((machine ⟨100, 4⟩).runBy FailsFirst ⟨FailingBuffer.initial, [], []⟩
      [.print (some [1, 2, 3, 4, 5, 6]), .round, .allocateBuffer, .round, .round, .write .error,
        .print (some [7]), .round, .write .eintr, .write (.wrote 1), .write (.wrote 3),
        .submitBufferReturns, .allocateBuffer, .round, .round, .flush, .write (.wrote 1),
        .submitBufferReturns, .flushReturns]).map (fun s => (stream s.buf, s.file)) =
      some ([1, 2, 3, 4, 5, 6, 7], [1, 2, 3, 4, 7]) := by
    decide +kernel
  obtain ⟨s, hreach, heq⟩ := Machine.exists_reachableBy hrun rfl
  simp only [Prod.mk.injEq] at heq
  obtain ⟨hstream, hfile⟩ := heq
  refine ⟨s, hreach, hstream, hfile, (no_byte_written_twice hreach).2 ?_⟩
  rw [hstream]
  decide

/-- The disk is full after one of two bytes; once there is room again, `flush` writes both. -/
theorem partial_write_repeats : ∃ s, (machine ⟨100, 4⟩).Reachable s ∧
    stream s.buf = [1, 2] ∧ s.file = [1, 1, 2] ∧
    ¬ (s.file.Sublist (stream s.buf) ∧ ((stream s.buf).Nodup → s.file.Nodup)) := by
  have hrun : ((machine ⟨100, 4⟩).run ⟨FailingBuffer.initial, [], []⟩
      [.print (some [1, 2]), .round, .allocateBuffer, .round, .round, .flush, .write (.wrote 1),
        .write .error, .flush, .write (.wrote 2), .submitBufferReturns, .flushReturns]).map
      (fun s => (stream s.buf, s.file)) = some ([1, 2], [1, 1, 2]) := by
    decide +kernel
  obtain ⟨s, hreach, heq⟩ := Machine.exists_reachable hrun rfl
  simp only [Prod.mk.injEq] at heq
  obtain ⟨hstream, hfile⟩ := heq
  refine ⟨s, hreach, hstream, hfile, ?_⟩
  rintro ⟨-, hnodup⟩
  rw [hstream, hfile] at hnodup
  exact absurd (hnodup (by decide)) (by decide)

end Xtr.PosixStorage
