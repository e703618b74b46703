import Xtr.IoUringRotation
import Xtr.LoggerSync

/-!
# The logger on its io_uring storage

The logger and the storage it writes to as one machine.  The logger's steps leave the
calls they make of the storage in `buf.calls`; here the consumer makes these calls one
after the other, each runs on the storage until it returns, and meanwhile threads log
and the kernel completes writes.  The consumer goes on when its calls have returned,
and a thread that waits in `sync` or `close` is woken after the calls that were to be
made before.

The storage never refuses a call (`calls_accepted`).  As long as writes do not fail for
good, and a log that is reopened was renamed or has got all that is pending: when `sync` on
a sink returns, the lines of all its records are on disk, at the beginning of what the log
files hold, and they stay there (`synced_on_disk`); when the logger has closed, the files
hold what they held before and every line that was printed, and nothing else
(`closed_on_disk`).
-/
namespace Xtr.LoggerStorage
variable (V : Type)

/-- A logger whose buffer's spans are the storage's buffers. -/
structure Config where
  logger : Logger.Config V
  storage : IoUring.Config
  spans : ∀ k, logger.sizes.size k = storage.bufferCapacity

structure State where
  logger : Logger.State V
  storage : IoUring.State
  /-- How many of the consumer's calls of the storage have been made. -/
  issued : Nat
  /-- How many come before the thread of a sink is woken. -/
  woken : Nat → Nat

inductive Event
  /-- A thread's event, or the consumer's. -/
  | logger (e : Logger.Event V)
  /-- The consumer makes its next call. -/
  | call
  /-- The kernel or the file system acts, or `io_uring_wait_cqe` returns. -/
  | kernel (e : IoUring.Event)

variable {V} (cfg : Config V)

/-- The storage's event of a call. -/
def callEvent : StorageCall → IoUring.Event
  | .allocateBuffer => .allocateBuffer
  | .submitBuffer bytes => .submitBuffer bytes
  | .flush => .flush
  | .sync => .sync
  | .reopen => .reopen

/-- An event of the storage that is no call. -/
def isKernel : IoUring.Event → Bool
  | .reap | .waitError | .transfer .. | .complete .. | .rename => true
  | _ => false

namespace State
variable (s : State V)

def calls : List StorageCall := s.logger.buf.calls

/-- How many calls have returned. -/
def completed : Nat := if s.storage.pc = .idle then s.issued else s.issued - 1

/-- What an event of the logger waits for. -/
def Enabled (s : State V) : Logger.Event V → Prop
  | .runOnce _ | .consume _ => s.completed = s.calls.length
  | .closeReturn i | .syncReturn i => s.woken i ≤ s.completed
  | _ => True

instance (e : Logger.Event V) : Decidable (s.Enabled e) :=
  match e with
  | .runOnce _ | .consume _ => inferInstanceAs (Decidable (s.completed = s.calls.length))
  | .closeReturn i | .syncReturn i => inferInstanceAs (Decidable (s.woken i ≤ s.completed))
  | .log .. | .setName .. | .registerSink .. | .copy .. | .close .. | .sync .. => .isTrue trivial

/-- The logger steps; a thread that it wakes is woken after the calls so far. -/
def setLogger (l : Logger.State V) : State V :=
  { s with
    logger := l
    woken := fun i => if (s.logger.sinks i).notified then s.woken i else l.buf.calls.length }

end State

def step [DecidableEq V] (s : State V) : Event V → Option (State V)
  | .logger e =>
    if s.Enabled e then (Logger.step cfg.logger s.logger e).map s.setLogger else none
  | .call =>
    match s.calls[s.issued]? with
    | none => none
    | some c => (IoUring.step cfg.storage s.storage (callEvent c)).map fun storage =>
        { s with storage := storage, issued := s.issued + 1 }
  | .kernel e =>
    if isKernel e then (IoUring.step cfg.storage s.storage e).map fun storage =>
        { s with storage := storage }
    else none

/-- A new logger, on a file that is open at its end. -/
def initial (mem : Nat → Nat → Cell Statement V Logger.Command) (file : SparseFile) : State V where
  logger := Logger.initial cfg.logger mem
  storage := IoUring.initial cfg.storage file file.size
  issued := 0
  woken _ := 0

def machine [DecidableEq V] (file : SparseFile) : Machine (State V) (Event V) where
  init s := ∃ mem, s = initial cfg mem file
  step := step cfg

/-- Writes do not fail for good, and a log that is reopened was renamed or is as long as
the pending writes will make it. -/
def Sound (s : State V) : Event V → Prop
  | .logger _ => True
  | .call => s.calls[s.issued]? = some .reopen → IoUring.SeesEnd s.storage .reopen
  | .kernel e => IoUring.Assumed s.storage e

instance (s : State V) (e : Event V) : Decidable (Sound s e) :=
  match e with
  | .logger _ => .isTrue trivial
  | .call => inferInstanceAs (Decidable (_ → _))
  | .kernel e => inferInstanceAs (Decidable (IoUring.Assumed s.storage e))

variable {cfg} {s s' : State V}

/-! ## The consumer keeps to the protocol -/

section Protocol
variable {lcfg : Logger.Config V} {l l' : Logger.State V} {capacity : Nat}

theorem keeps_handle (h : l.buf.Keeps capacity) (r : Logger.Request) :
    (Logger.handle l r).buf.Keeps capacity := by
  cases r with
  | status | setLevel =>
    show (if _ then l else l.fail : Logger.State V).buf.Keeps capacity
    split <;> exact h
  | reopen => exact h.flush_call rfl

theorem keeps_begin (h : l.buf.Keeps capacity) (requests : List Logger.Request) :
    (Logger.begin l requests).buf.Keeps capacity := by
  have hall : (requests.foldl Logger.handle l).buf.Keeps capacity := by
    induction requests generalizing l with
    | nil => exact h
    | cons r rs ih => exact ih (keeps_handle h r)
  unfold Logger.begin
  dsimp only
  split <;> exact hall

theorem keeps_execute (hsizes : ∀ k, lcfg.sizes.size k ≤ capacity) (h : l.buf.Keeps capacity)
    (i : Nat) (hd : Logger.Handle) (e : Logger.Executed V) :
    (Logger.execute lcfg l i hd e).buf.Keeps capacity := by
  cases e with
  | print st args => exact h.append hsizes _ _
  | command c =>
    cases c with
    | addSink t name | setName name | destroy => exact h
    | sync => exact h.flush_call rfl

theorem keeps_step [DecidableEq V] {e : Logger.Event V}
    (hsizes : ∀ k, lcfg.sizes.size k ≤ capacity) (h : l.buf.Keeps capacity)
    (hi : Logger.Inv lcfg l) (hs : Logger.step lcfg l e = some l') : l'.buf.Keeps capacity := by
  cases Logger.fires_of_step hi.rings hi.indexed hi.live hi.destroyLast hs with
  | @runOnce requests =>
    obtain ⟨-, heq⟩ := Option.ite_none_right_eq_some.mp hs
    rw [← Option.some.inj heq]
    exact keeps_begin h requests
  | endPass =>
    unfold Logger.endPass
    split
    · exact h.flush_call rfl
    · exact h
  | visitEmpty =>
    show (Logger.visitEmpty l).buf.Keeps capacity
    unfold Logger.visitEmpty
    split
    · dsimp only
      split
      · exact h.flush
      · exact h
    · exact h
  | execute => exact keeps_execute hsizes (l := l.taken _ _) h _ _ _
  | reportDropped => exact h.append hsizes _ _
  | _ => exact h

end Protocol

/-! ## Calls of the storage -/

section Storage
variable {scfg : IoUring.Config} {t t' : IoUring.State}

/-- The caller has a buffer, or waits for one. -/
def holding (t : IoUring.State) : Bool := t.held.isSome || t.pc = .waiting .allocate

/-- The call that a loop belongs to. -/
def loopCall : IoUring.Loop → StorageCall
  | .allocate => .allocateBuffer
  | .sync => .sync
  | .replace _ => .reopen

theorem holding_idle (h : t.pc = .idle) : holding t = t.held.isSome := by
  rw [holding, h]
  exact Bool.or_false _

theorem holding_allocateLoop (t : IoUring.State) : holding (IoUring.allocateLoop t) = true := by
  unfold IoUring.allocateLoop
  split
  · exact Bool.or_true _
  · rfl

theorem syncLoop_keeps (t : IoUring.State) : holding (IoUring.syncLoop t) = t.held.isSome ∧
    ∀ loop, (IoUring.syncLoop t).pc = .waiting loop → loop = .sync := by
  unfold IoUring.syncLoop
  split
  · exact ⟨Bool.or_false _, fun loop h => by cases h; rfl⟩
  · exact ⟨Bool.or_false _, nofun⟩

theorem replaceLoop_keeps (t : IoUring.State) (fd : IoUring.Descriptor) :
    holding (IoUring.replaceLoop t fd) = t.held.isSome ∧
      ∀ loop, (IoUring.replaceLoop t fd).pc = .waiting loop → loop = .replace fd := by
  unfold IoUring.replaceLoop
  split
  · exact ⟨Bool.or_false _, fun loop h => by cases h; rfl⟩
  · exact ⟨Bool.or_false _, nofun⟩

theorem allocateLoop_waiting (t : IoUring.State) :
    ∀ loop, (IoUring.allocateLoop t).pc = .waiting loop → loop = .allocate := by
  unfold IoUring.allocateLoop
  split
  · exact fun loop h => by cases h; rfl
  · exact nofun

theorem resume_keeps {loop : IoUring.Loop} (hpc : t.pc = .waiting loop) :
    holding (IoUring.resume t loop) = holding t ∧
      ∀ loop', (IoUring.resume t loop).pc = .waiting loop' → loop' = loop := by
  cases loop with
  | allocate =>
    refine ⟨(holding_allocateLoop t).trans ?_, allocateLoop_waiting t⟩
    rw [holding, hpc]
    exact (Bool.or_true _).symm
  | sync =>
    refine ⟨(syncLoop_keeps t).1.trans ?_, (syncLoop_keeps t).2⟩
    rw [holding, hpc]
    exact (Bool.or_false _).symm
  | replace fd =>
    refine ⟨(replaceLoop_keeps t fd).1.trans ?_, (replaceLoop_keeps t fd).2⟩
    rw [holding, hpc]
    exact (Bool.or_false _).symm

theorem submitBuffer_keeps (t : IoUring.State) (i : Nat) (bytes : List UInt8) :
    (IoUring.submitBuffer scfg t i bytes).pc = t.pc ∧
      (IoUring.submitBuffer scfg t i bytes).held = none := by
  have hbatch : ∀ u : IoUring.State, (IoUring.submitBatch scfg u).pc = u.pc ∧
      (IoUring.submitBatch scfg u).held = u.held := by
    intro u
    unfold IoUring.submitBatch
    split <;> exact ⟨rfl, rfl⟩
  simp only [IoUring.submitBuffer, hbatch]
  unfold IoUring.getSqe
  split <;> exact ⟨rfl, rfl⟩

theorem openAtEnd_held (t : IoUring.State) : (IoUring.openAtEnd t).1.held = t.held := by
  unfold IoUring.openAtEnd
  split <;> rfl

/-- **A call that may be made is accepted.** -/
theorem call_accepted (hpc : t.pc = .idle) {c : StorageCall} {held : Bool}
    (hc : c.hold scfg.bufferCapacity (holding t) = some held) :
    ∃ t', IoUring.step scfg t (callEvent c) = some t' ∧ holding t' = held ∧
      ∀ loop, t'.pc = .waiting loop → loopCall loop = c := by
  rw [holding_idle hpc] at hc
  cases c with
  | allocateBuffer =>
    obtain ⟨hnone, hheld⟩ := Option.ite_none_left_eq_some.mp hc
    refine ⟨_, if_pos ⟨hpc, ?_⟩, (holding_allocateLoop t).trans (Option.some.inj hheld),
      fun loop h => by rw [allocateLoop_waiting t loop h]; rfl⟩
    simpa using hnone
  | submitBuffer bytes =>
    obtain ⟨⟨hsome, hle⟩, hheld⟩ := Option.ite_none_right_eq_some.mp hc
    obtain ⟨i, hi⟩ := Option.isSome_iff_exists.mp hsome
    obtain ⟨hkept, hnone⟩ := @submitBuffer_keeps scfg t i bytes
    have hidle := hkept.trans hpc
    refine ⟨IoUring.submitBuffer scfg t i bytes, ?_, ?_, ?_⟩
    · show IoUring.step scfg t (.submitBuffer bytes) = _
      simp only [IoUring.step, hi]
      exact if_pos ⟨hpc, hle⟩
    · rw [holding_idle hidle, hnone, ← Option.some.inj hheld]
      rfl
    · intro loop h
      rw [hidle] at h
      cases h
  | flush =>
    refine ⟨_, if_pos hpc, ?_, fun loop h => ?_⟩
    · exact (holding_idle (show (IoUring.flush t).pc = .idle from hpc)).trans (Option.some.inj hc)
    · rw [show (IoUring.flush t).pc = .idle from hpc] at h
      cases h
  | sync =>
    refine ⟨_, if_pos hpc, (syncLoop_keeps _).1.trans (Option.some.inj hc), fun loop h => ?_⟩
    rw [(syncLoop_keeps _).2 loop h]
    rfl
  | reopen =>
    obtain ⟨hnone, hheld⟩ := Option.ite_none_left_eq_some.mp hc
    refine ⟨_, if_pos hpc, (replaceLoop_keeps _ _).1.trans ?_, fun loop h => ?_⟩
    · show (IoUring.openAtEnd t).1.held.isSome = held
      rw [openAtEnd_held, ← Option.some.inj hheld]
      exact Bool.eq_false_iff.mpr hnone
    · rw [(replaceLoop_keeps _ _).2 loop h]
      rfl

/-- The kernel's events leave the caller where it is, or let it go on. -/
theorem kernel_keeps {e : IoUring.Event} (he : isKernel e = true) (hc : IoUring.Core scfg t)
    (hs : IoUring.step scfg t e = some t') :
    holding t' = holding t ∧ ∀ loop, t'.pc = .waiting loop → t.pc = .waiting loop := by
  have hsame : ∀ {u : IoUring.State}, u.held = t.held → u.pc = t.pc → holding u = holding t ∧
      ∀ loop, u.pc = .waiting loop → t.pc = .waiting loop := by
    intro u hheld hpc
    refine ⟨?_, fun loop h => hpc ▸ h⟩
    rw [holding, hheld, hpc]
    rfl
  cases IoUring.fires_of_step hs with
  | allocateBuffer | submitBuffer | flush | sync | reopen => cases he
  | retry _ hcq _ =>
    obtain ⟨-, hheld, hpc, -⟩ := hc.reapCqe hcq
    exact hsame hheld hpc
  | @reap loop _ _ hwait hcq _ =>
    obtain ⟨-, hheld, hpc, -⟩ := hc.reapCqe hcq
    obtain ⟨hhold, hloop⟩ := resume_keeps (hpc.trans hwait)
    refine ⟨hhold.trans (hsame hheld hpc).1, fun loop' h => ?_⟩
    rw [hloop loop' h]
    exact hwait
  | @waitError loop hwait =>
    obtain ⟨hhold, hloop⟩ := resume_keeps hwait
    refine ⟨hhold, fun loop' h => ?_⟩
    rw [hloop loop' h]
    exact hwait
  | transfer | complete | rename => exact hsame rfl rfl

theorem idle_of_call {c : StorageCall} (hs : IoUring.step scfg t (callEvent c) = some t') :
    t.pc = .idle := by
  cases c with
  | submitBuffer bytes =>
    have hs : IoUring.step scfg t (.submitBuffer bytes) = some t' := hs
    simp only [IoUring.step] at hs
    split at hs
    · cases hs
    · exact (Option.ite_none_right_eq_some.mp hs).1.1
  | allocateBuffer => exact (Option.ite_none_right_eq_some.mp hs).1.1
  | flush | sync | reopen => exact (Option.ite_none_right_eq_some.mp hs).1

theorem callEvent_bytes (c : StorageCall) : (callEvent c).bytes = c.bytes := by
  cases c <;> rfl

theorem kernel_bytes {e : IoUring.Event} (he : isKernel e = true) : e.bytes = [] := by
  cases e <;> first | rfl | cases he

/-- Between calls, nothing becomes pending. -/
theorem pending_kernel {e : IoUring.Event} (he : isKernel e = true) (hpc : t.pc = .idle)
    (hp : t.pending = []) (hs : IoUring.step scfg t e = some t') : t'.pending = [] := by
  cases IoUring.fires_of_step hs with
  | allocateBuffer | submitBuffer | flush | sync | reopen => cases he
  | retry hwait _ _ | reap hwait _ _ | waitError hwait =>
    rw [hpc] at hwait
    cases hwait
  | transfer | rename => exact hp
  | complete hj _ =>
    have hmem := IoUring.mem_pending.mpr (.inl ⟨_, .inr (List.mem_of_getElem? hj), rfl⟩)
    rw [hp] at hmem
    cases hmem

end Storage

/-! ## Every call is accepted -/

/-- **The calls of the storage.**  They are those of its protocol, and it is where the calls
made so far have brought it. -/
structure Called [DecidableEq V] (cfg : Config V) (s : State V) : Prop where
  reachable : (Logger.machine cfg.logger).Reachable s.logger
  keeps : s.logger.buf.Keeps cfg.storage.bufferCapacity
  booked : IoUring.Booked cfg.storage s.storage
  issued_le : s.issued ≤ s.calls.length
  holds : StorageCall.holds cfg.storage.bufferCapacity (s.calls.take s.issued) =
    some (holding s.storage)
  waiting : ∀ loop, s.storage.pc = .waiting loop →
    ∃ before, s.calls.take s.issued = before ++ [loopCall loop]

section Calls
variable [DecidableEq V] {file : SparseFile}

/-- The logger's steps leave the calls that were made as they are. -/
theorem Called.take_logger {e : Logger.Event V} {l : Logger.State V} (h : Called cfg s)
    (hs : Logger.step cfg.logger s.logger e = some l) {n : Nat} (hn : n ≤ s.issued) :
    (s.setLogger l).calls.take n = s.calls.take n := by
  have hi := Logger.Inv.of_reachable h.reachable
  have hf := Logger.fires_of_step hi.rings hi.indexed hi.live hi.destroyLast hs
  obtain ⟨⟨more, hmore⟩, -⟩ := hf.grows
  have hcalls : s.calls ++ more = (s.setLogger l).calls := hmore
  rw [← hcalls, List.take_append_of_le_length (Nat.le_trans hn h.issued_le)]

theorem Called.logger {e : Logger.Event V} {l : Logger.State V} (h : Called cfg s)
    (hs : Logger.step cfg.logger s.logger e = some l) : Called cfg (s.setLogger l) := by
  have hi := Logger.Inv.of_reachable h.reachable
  have hissued := h.take_logger hs (Nat.le_refl _)
  refine ⟨h.reachable.step hs, keeps_step (fun k => Nat.le_of_eq (cfg.spans k)) h.keeps hi hs,
    h.booked, ?_, ?_, ?_⟩
  · have hlen := congrArg List.length hissued
    rw [List.length_take, List.length_take, Nat.min_eq_left h.issued_le] at hlen
    exact min_eq_left_iff.mp hlen
  · exact hissued ▸ h.holds
  · exact hissued ▸ h.waiting

/-- The protocol lets the consumer make its next call. -/
theorem Called.next_hold {c : StorageCall} (h : Called cfg s)
    (hc : s.calls[s.issued]? = some c) : ∃ held,
      StorageCall.holds cfg.storage.bufferCapacity (s.calls.take (s.issued + 1)) = some held ∧
        c.hold cfg.storage.bufferCapacity (holding s.storage) = some held := by
  obtain ⟨hlt, hget⟩ := List.getElem?_eq_some_iff.mp hc
  have hall : StorageCall.holds cfg.storage.bufferCapacity
      (s.calls.take (s.issued + 1) ++ s.calls.drop (s.issued + 1)) =
        some (decide (s.logger.buf.pending ≠ [])) := by
    rw [List.take_append_drop]
    exact h.keeps.holds
  obtain ⟨held, hheld⟩ := StorageCall.holds_prefix hall
  refine ⟨held, hheld, ?_⟩
  rw [List.take_succ_eq_append_getElem hlt, hget, StorageCall.holds_append, h.holds] at hheld
  simpa using hheld

/-- No buffer is held when the consumer reopens the storage. -/
theorem Called.held_reopen (h : Called cfg s) (hpc : s.storage.pc = .idle)
    (hc : s.calls[s.issued]? = some .reopen) : s.storage.held = none := by
  obtain ⟨held, -, hhold⟩ := h.next_hold hc
  rw [holding_idle hpc] at hhold
  obtain ⟨hnone, -⟩ := Option.ite_none_left_eq_some.mp hhold
  simpa using hnone

/-- One more call. -/
theorem Called.call {c : StorageCall} {t : IoUring.State} (h : Called cfg s)
    (hc : s.calls[s.issued]? = some c)
    (hs : IoUring.step cfg.storage s.storage (callEvent c) = some t) :
    Called cfg { s with storage := t, issued := s.issued + 1 } := by
  obtain ⟨hlt, hget⟩ := List.getElem?_eq_some_iff.mp hc
  obtain ⟨held, hheld, hhold⟩ := h.next_hold hc
  obtain ⟨t', hstep, hholding, hloop⟩ := call_accepted (idle_of_call hs) hhold
  obtain rfl : t = t' := Option.some.inj (hs.symm.trans hstep)
  refine ⟨h.reachable, h.keeps, IoUring.step_booked h.booked hs, hlt, ?_, ?_⟩
  · rw [hholding]
    exact hheld
  · intro loop hwait
    refine ⟨s.calls.take s.issued, ?_⟩
    rw [hloop loop hwait, ← hget]
    exact List.take_succ_eq_append_getElem hlt

/-- The kernel gets on with what was called. -/
theorem Called.kernel {e : IoUring.Event} {t : IoUring.State} (h : Called cfg s)
    (he : isKernel e = true) (hs : IoUring.step cfg.storage s.storage e = some t) :
    Called cfg { s with storage := t } := by
  obtain ⟨hholding, hloop⟩ := kernel_keeps he h.booked.core hs
  refine ⟨h.reachable, h.keeps, IoUring.step_booked h.booked hs, h.issued_le, ?_,
    fun loop hwait => h.waiting loop (hloop loop hwait)⟩
  rw [hholding]
  exact h.holds

theorem Called.step {e : Event V} (h : Called cfg s) (hs : step cfg s e = some s') :
    Called cfg s' := by
  cases e with
  | logger e =>
    obtain ⟨-, hs⟩ := Option.ite_none_right_eq_some.mp hs
    obtain ⟨l, hl, rfl⟩ := Option.map_eq_some_iff.mp hs
    exact h.logger hl
  | call =>
    simp only [LoggerStorage.step] at hs
    split at hs
    · cases hs
    · rename_i c hc
      obtain ⟨t, ht, rfl⟩ := Option.map_eq_some_iff.mp hs
      exact h.call hc ht
  | kernel e =>
    obtain ⟨he, hs⟩ := Option.ite_none_right_eq_some.mp hs
    obtain ⟨t, ht, rfl⟩ := Option.map_eq_some_iff.mp hs
    exact h.kernel he ht

theorem Called.of_initial (mem : Nat → Nat → Cell Statement V Logger.Command) :
    Called cfg (initial cfg mem file) where
  reachable := .start ⟨mem, rfl⟩
  keeps := OutputBuffer.keeps_empty
  booked := IoUring.initial_booked file _
  issued_le := Nat.le_refl _
  holds := rfl
  waiting := nofun

end Calls

/-! ## The joint invariant -/

variable {file : SparseFile}

/-- By the first `n` calls the storage was flushed and synced after it had been given the
lines printed up to then, and these have all the log records of sink `i`. -/
def FlushedBy (cfg : Config V) (s : State V) (i n : Nat) : Prop :=
  ∃ before shown rest, before ++ [.flush, .sync] <+: s.calls.take n ∧
    s.logger.printed = shown ++ rest ∧
    before.flatMap StorageCall.bytes = shown.flatMap (Logger.Line.text cfg.logger) ∧
    saidOf i (shown.filterMap Logger.Line.said?) = s.logger.reference i

/-- **The joint invariant.** -/
structure Joined [DecidableEq V] (cfg : Config V) (file : SparseFile) (s : State V) : Prop
    extends Called cfg s where
  rotation : IoUring.Rotation cfg.storage file s.storage
  stream : s.storage.stream = (s.calls.take s.issued).flatMap StorageCall.bytes
  /-- What was synced is settled. -/
  settled : ∀ before, before ++ [.sync] <+: s.calls.take s.completed →
    IoUring.Settled (IoUring.initial cfg.storage file file.size).files s.storage
      (before.flatMap StorageCall.bytes).length
  quiet : s.storage.pc = .idle → ∀ before, s.calls.take s.issued = before ++ [.sync] →
    s.storage.pending = []
  flushed : ∀ i, (s.logger.sinks i).waits = (.syncing, true) → FlushedBy cfg s i (s.woken i)

theorem completed_le (s : State V) : s.completed ≤ s.issued := by
  unfold State.completed
  split
  · exact Nat.le_refl _
  · exact Nat.sub_le _ _

theorem completed_idle (hpc : s.storage.pc = .idle) : s.completed = s.issued := if_pos hpc

theorem completed_busy (hpc : s.storage.pc ≠ .idle) : s.completed = s.issued - 1 := if_neg hpc

/-- A step of the storage after which one more call has returned, or none: what was synced
is still settled, and when the call is `sync`, so is all that was submitted. -/
theorem settled_step {calls : List StorageCall} {t t' : IoUring.State} {e : IoUring.Event}
    {n n' : Nat} (h : ∀ before, before ++ [.sync] <+: calls.take n →
      IoUring.Settled (IoUring.initial cfg.storage file file.size).files t
        (before.flatMap StorageCall.bytes).length)
    (hr : IoUring.Rotation cfg.storage file t) (ha : IoUring.Assumed t e)
    (hsees : IoUring.SeesEnd t e) (hs : IoUring.step cfg.storage t e = some t')
    (hn : n' = n ∨ n' = n + 1 ∧ n < calls.length ∧
      t'.stream = (calls.take n').flatMap StorageCall.bytes ∧
      ∀ before, calls.take n' = before ++ [.sync] → t'.pending = []) :
    ∀ before, before ++ [.sync] <+: calls.take n' →
      IoUring.Settled (IoUring.initial cfg.storage file file.size).files t'
        (before.flatMap StorageCall.bytes).length := by
  intro before hpre
  have hr' := hr.step ha hsees hs
  rcases hn with rfl | ⟨rfl, hlt, hstream, hsync⟩
  · exact (h before hpre).step hr hsees hs
  · rw [List.take_succ_eq_append_getElem hlt] at hpre hstream hsync
    rcases List.prefix_concat_iff.mp hpre with heq | hpre
    · -- the call that has returned is this `sync`
      have hset := IoUring.Settled.of_pending hr'.session hr'.rotated.appended
        (hsync before heq.symm)
      rw [hstream, ← heq, List.flatMap_append, List.flatMap_singleton] at hset
      exact (List.append_nil (before.flatMap StorageCall.bytes)) ▸ hset
    · exact (h before hpre).step hr hsees hs

variable [DecidableEq V]

/-- The logger's steps only add calls. -/
theorem Joined.logger {e : Logger.Event V} {l : Logger.State V} (h : Joined cfg file s)
    (hs : Logger.step cfg.logger s.logger e = some l) : Joined cfg file (s.setLogger l) := by
  have hi := Logger.Inv.of_reachable h.reachable
  have hw := Logger.Written.of_reachable h.reachable
  have hf := Logger.fires_of_step hi.rings hi.indexed hi.live hi.destroyLast hs
  have hi' : Logger.Inv cfg.logger l := hi.step hs
  obtain ⟨⟨more, hmore⟩, ⟨lines, hlines⟩⟩ := hf.grows
  have hcalls : s.calls ++ more = (s.setLogger l).calls := hmore
  have hissued := h.take_logger hs (Nat.le_refl _)
  refine ⟨h.toCalled.logger hs, h.rotation, ?_, ?_, ?_, ?_⟩
  · exact hissued ▸ h.stream
  · have hdone : (s.setLogger l).calls.take (s.setLogger l).completed = s.calls.take s.completed :=
      h.take_logger hs (completed_le s)
    exact hdone ▸ h.settled
  · exact hissued ▸ h.quiet
  · intro i hwait
    by_cases hold : (s.logger.sinks i).waits = (.syncing, true)
    · obtain ⟨before, shown, rest, hpre, hprinted, hbytes, hsaid⟩ := h.flushed i hold
      have hnotified : (s.logger.sinks i).notified = true := congrArg Prod.snd hold
      have hbusy : (s.logger.sinks i).ready = false := by
        have hcall : (s.logger.sinks i).call = .syncing := congrArg Prod.fst hold
        simp [Logger.Sink.ready, hcall]
      refine ⟨before, shown, rest ++ lines, ?_, ?_, hbytes, hsaid.trans (hf.reference hbusy).symm⟩
      · have hwoken : (s.setLogger l).woken i = s.woken i := if_pos hnotified
        rw [hwoken, ← hcalls, List.take_append]
        exact hpre.trans (List.prefix_append _ _)
      · show l.printed = _
        rw [← hlines, hprinted, List.append_assoc]
    · obtain ⟨hun, before, hnew, hbytes⟩ := (hf.synced hi.sinks hw hwait).resolve_left hold
      obtain ⟨_, _, _, _, _, hwake⟩ :=
        (hf.notified hi.sinks Logger.Call.noConfusion hwait).resolve_left hold
      have hnot : ¬ (s.logger.sinks i).notified = true := fun hn => hold (Prod.ext hwake.call hn)
      refine ⟨before, l.printed, [], ?_, (List.append_nil _).symm, hbytes, ?_⟩
      · have hwoken : (s.setLogger l).woken i = l.buf.calls.length := if_neg hnot
        rw [hwoken, ← hnew]
        exact (List.take_length (l := l.buf.calls)).symm ▸ List.prefix_rfl
      · exact hi'.lines_eq_reference (by rw [Logger.State.unconsumed, hun]; rfl)

/-- One more call. -/
theorem Joined.call {c : StorageCall} {t : IoUring.State} (h : Joined cfg file s)
    (hc : s.calls[s.issued]? = some c) (hsees : c = .reopen → IoUring.SeesEnd s.storage .reopen)
    (hs : IoUring.step cfg.storage s.storage (callEvent c) = some t) :
    Joined cfg file { s with storage := t, issued := s.issued + 1 } := by
  obtain ⟨hlt, hget⟩ := List.getElem?_eq_some_iff.mp hc
  have hpc := idle_of_call hs
  have htake : s.calls.take (s.issued + 1) = s.calls.take s.issued ++ [c] := by
    rw [List.take_succ_eq_append_getElem hlt, hget]
  have ha : IoUring.Assumed s.storage (callEvent c) := by
    cases c with
    | reopen => exact h.held_reopen hpc hc
    | _ => trivial
  have hsees' : IoUring.SeesEnd s.storage (callEvent c) := by
    cases c with
    | reopen => exact hsees rfl
    | _ => trivial
  have hstream : t.stream = (s.calls.take (s.issued + 1)).flatMap StorageCall.bytes := by
    rw [IoUring.stream_step hs, h.stream, callEvent_bytes, htake, List.flatMap_append,
      List.flatMap_singleton]
  have hquiet : t.pc = .idle → ∀ before, s.calls.take (s.issued + 1) = before ++ [.sync] →
      t.pending = [] := by
    intro hidle before hlast
    rw [htake] at hlast
    obtain ⟨-, hc⟩ := List.append_inj' hlast rfl
    obtain rfl : c = .sync := List.head_eq_of_cons_eq hc
    have hret : IoUring.SyncReturns cfg.storage s.storage .sync t := ⟨hs, .inl rfl, hidle⟩
    exact hret.pending h.booked
  refine ⟨h.toCalled.call hc hs, h.rotation.step ha hsees' hs, hstream, ?_, hquiet, h.flushed⟩
  refine settled_step h.settled h.rotation ha hsees' hs ?_
  rw [completed_idle hpc]
  by_cases hidle : t.pc = .idle
  · have hdone : ({ s with storage := t, issued := s.issued + 1 } : State V).completed =
        s.issued + 1 := if_pos hidle
    rw [hdone]
    exact .inr ⟨rfl, hlt, hstream, hquiet hidle⟩
  · exact .inl (if_neg hidle)

/-- The kernel gets on with what was called. -/
theorem Joined.kernel {e : IoUring.Event} {t : IoUring.State} (h : Joined cfg file s)
    (he : isKernel e = true) (ha : IoUring.Assumed s.storage e)
    (hs : IoUring.step cfg.storage s.storage e = some t) :
    Joined cfg file { s with storage := t } := by
  have hsees : IoUring.SeesEnd s.storage e := by
    cases e with
    | reopen => cases he
    | _ => trivial
  obtain ⟨-, hloop⟩ := kernel_keeps he h.booked.core hs
  have hstream : t.stream = (s.calls.take s.issued).flatMap StorageCall.bytes := by
    rw [IoUring.stream_step hs, kernel_bytes he, List.append_nil, h.stream]
  have hquiet : t.pc = .idle → ∀ before, s.calls.take s.issued = before ++ [.sync] →
      t.pending = [] := by
    intro hidle before hlast
    cases hpc : s.storage.pc with
    | idle => exact pending_kernel he hpc (h.quiet hpc before hlast) hs
    | waiting loop =>
      obtain ⟨before', hcall⟩ := h.waiting loop hpc
      rw [hlast] at hcall
      obtain ⟨-, hc⟩ := List.append_inj' hcall rfl
      have hsync : loop = .sync := by
        cases loop with
        | sync => rfl
        | allocate | replace _ => cases hc
      have hret : IoUring.SyncReturns cfg.storage s.storage e t :=
        ⟨hs, .inr (hsync ▸ hpc), hidle⟩
      exact hret.pending h.booked
  refine ⟨h.toCalled.kernel he hs, h.rotation.step ha hsees hs, hstream, ?_, hquiet, h.flushed⟩
  refine settled_step h.settled h.rotation ha hsees hs ?_
  by_cases hidle : t.pc = .idle
  · have hdone : ({ s with storage := t } : State V).completed = s.issued := if_pos hidle
    rw [hdone]
    by_cases hpc : s.storage.pc = .idle
    · exact .inl (completed_idle hpc).symm
    · -- the call that was waiting has returned
      rw [completed_busy hpc]
      have hpos : 0 < s.issued := by
        cases hwait : s.storage.pc with
        | idle => exact absurd hwait hpc
        | waiting loop =>
          obtain ⟨before, hcall⟩ := h.waiting loop hwait
          have hlen := congrArg List.length hcall
          rw [List.length_take, List.length_append, List.length_singleton] at hlen
          omega
      have hle := h.issued_le
      have hlt : s.issued - 1 < s.calls.length := by omega
      exact .inr ⟨by omega, hlt, hstream, hquiet hidle⟩
  · have hwas : s.storage.pc ≠ .idle := by
      cases hpc : t.pc with
      | idle => exact absurd hpc hidle
      | waiting loop =>
        rw [hloop loop hpc]
        exact nofun
    exact .inl ((if_neg hidle).trans (if_neg hwas).symm)

theorem Joined.step {e : Event V} (h : Joined cfg file s) (ha : Sound s e)
    (hs : step cfg s e = some s') : Joined cfg file s' := by
  cases e with
  | logger e =>
    obtain ⟨-, hs⟩ := Option.ite_none_right_eq_some.mp hs
    obtain ⟨l, hl, rfl⟩ := Option.map_eq_some_iff.mp hs
    exact h.logger hl
  | call =>
    simp only [LoggerStorage.step] at hs
    split at hs
    · cases hs
    · rename_i c hc
      obtain ⟨t, ht, rfl⟩ := Option.map_eq_some_iff.mp hs
      refine h.call hc (fun hreopen => ha ?_) ht
      rw [hc, hreopen]
  | kernel e =>
    obtain ⟨he, hs⟩ := Option.ite_none_right_eq_some.mp hs
    obtain ⟨t, ht, rfl⟩ := Option.map_eq_some_iff.mp hs
    exact h.kernel he ha ht

theorem Joined.of_initial (mem : Nat → Nat → Cell Statement V Logger.Command) :
    Joined cfg file (initial cfg mem file) where
  toCalled := .of_initial mem
  rotation := .of_initial file
  stream := rfl
  settled before hpre := by
    obtain ⟨more, hmore⟩ := hpre
    cases before <;> cases hmore
  quiet _ before hlast := by
    cases before <;> cases hlast
  flushed i hi := by cases hi

theorem Joined.of_reachable (h : (machine cfg file).ReachableBy Sound s) : Joined cfg file s := by
  refine h.invariant (I := Joined cfg file) ?_ ?_
  · rintro s ⟨mem, rfl⟩
    exact .of_initial mem
  · exact fun s e s' hj ha hs => hj.step ha hs

/-! ## What is on disk -/

/-- What has been synced after so many calls is at the beginning of the disk. -/
theorem Joined.prefix_disk (h : Joined cfg file s) {before : List StorageCall}
    (hpre : before ++ [.flush, .sync] <+: s.calls.take s.completed) :
    file.contents ++ before.flatMap StorageCall.bytes <+: s.storage.disk := by
  have hset := h.settled (before ++ [.flush]) (by rw [List.append_assoc]; exact hpre)
  have hdisk := hset.prefix_disk h.rotation
  have hbytes : (before ++ [StorageCall.flush]).flatMap StorageCall.bytes =
      before.flatMap StorageCall.bytes := by
    rw [List.flatMap_append, List.flatMap_singleton]
    exact List.append_nil _
  -- what was synced is the beginning of what was submitted
  have hstream : before.flatMap StorageCall.bytes <+: s.storage.stream := by
    obtain ⟨more, hmore⟩ := hpre.trans (List.take_prefix_take_left (completed_le s))
    rw [h.stream, ← hmore, List.append_assoc, List.flatMap_append]
    exact List.prefix_append _ _
  rw [hbytes, ← List.prefix_iff_eq_take.mp hstream] at hdisk
  exact hdisk

/-- Calls that have returned have returned for good. -/
theorem completed_step {e : Event V} (h : Joined cfg file s) (hs : step cfg s e = some s') :
    s.calls.take s.completed <+: s'.calls.take s'.completed := by
  cases e with
  | logger e =>
    obtain ⟨-, hs⟩ := Option.ite_none_right_eq_some.mp hs
    obtain ⟨l, hl, rfl⟩ := Option.map_eq_some_iff.mp hs
    have hi := Logger.Inv.of_reachable h.reachable
    obtain ⟨⟨more, hmore⟩, -⟩ :=
      (Logger.fires_of_step hi.rings hi.indexed hi.live hi.destroyLast hl).grows
    show _ <+: l.buf.calls.take s.completed
    rw [← hmore, List.take_append]
    exact List.prefix_append _ _
  | call =>
    simp only [step] at hs
    split at hs
    · cases hs
    · obtain ⟨t, ht, rfl⟩ := Option.map_eq_some_iff.mp hs
      refine List.take_prefix_take_left ?_
      rw [completed_idle (idle_of_call ht)]
      show _ ≤ if t.pc = .idle then s.issued + 1 else s.issued + 1 - 1
      split <;> omega
  | kernel e =>
    obtain ⟨he, hs⟩ := Option.ite_none_right_eq_some.mp hs
    obtain ⟨t, ht, rfl⟩ := Option.map_eq_some_iff.mp hs
    obtain ⟨-, hloop⟩ := kernel_keeps he h.booked.core ht
    refine List.take_prefix_take_left ?_
    cases hpc : t.pc with
    | idle =>
      rw [completed_idle (show ({ s with storage := t } : State V).storage.pc = .idle from hpc)]
      exact completed_le s
    | waiting loop =>
      have hwas : s.storage.pc ≠ .idle := by
        rw [hloop loop hpc]
        exact nofun
      have hnow : ({ s with storage := t } : State V).storage.pc ≠ .idle := by
        show t.pc ≠ .idle
        rw [hpc]
        exact nofun
      rw [completed_busy hwas, completed_busy hnow]

/-- **What a sink has logged is on disk when `sync` returns.**  In every run of the logger on
its io_uring storage in which writes do not fail for good and every reopened log was
renamed or is as long as the pending writes will make it: when `sync` on a sink returns,
there are printed lines with all the log records of the sink, which the log files, one
after the other, begin with, after what they held at first; and so it is ever after. -/
theorem synced_on_disk (h : (machine cfg file).ReachableBy Sound s) (i : Nat)
    (hs : step cfg s (.logger (.syncReturn i)) = some s') :
    ∃ shown rest, s.logger.printed = shown ++ rest ∧
      saidOf i (shown.filterMap Logger.Line.said?) = s.logger.reference i ∧
      ∀ t, ((machine cfg file).after s).ReachableBy Sound t →
        file.contents ++ shown.flatMap (Logger.Line.text cfg.logger) <+: t.storage.disk := by
  have hj := Joined.of_reachable h
  obtain ⟨henabled, hs⟩ := Option.ite_none_right_eq_some.mp hs
  obtain ⟨l, hl, -⟩ := Option.map_eq_some_iff.mp hs
  obtain ⟨⟨hcall, hnotified⟩, -⟩ := Option.ite_none_right_eq_some.mp hl
  obtain ⟨before, shown, rest, hpre, hprinted, hbytes, hsaid⟩ :=
    hj.flushed i (Prod.ext hcall hnotified)
  refine ⟨shown, rest, hprinted, hsaid, fun t ht => ?_⟩
  have hinv : Joined cfg file t ∧ before ++ [.flush, .sync] <+: t.calls.take t.completed := by
    refine ht.invariant (I := fun t => Joined cfg file t ∧
      before ++ [.flush, .sync] <+: t.calls.take t.completed) ?_ ?_
    · rintro t rfl
      exact ⟨hj, hpre.trans (List.take_prefix_take_left henabled)⟩
    · rintro t e u ⟨ht, hpre⟩ ha hs
      exact ⟨ht.step ha hs, hpre.trans (completed_step ht hs)⟩
  rw [← hbytes]
  exact hinv.1.prefix_disk hinv.2

/-- **The closed logger has left every line on disk.**  In such a run, when `run_once` has
returned false, the log files hold what they held at first and the lines that were
printed, and these are, of each sink, those of all its records. -/
theorem closed_on_disk (h : (machine cfg file).ReachableBy Sound s)
    (hpc : s.logger.pc = .stopped) (hdone : s.completed = s.calls.length) :
    s.storage.disk = file.contents ++ s.logger.printed.flatMap (Logger.Line.text cfg.logger) ∧
      ∀ i, s.logger.lines i = s.logger.reference i := by
  have hj := Joined.of_reachable h
  obtain ⟨hi, hsync⟩ := Logger.Synced.of_reachable hj.reachable
  obtain ⟨before, hcalls, -, hbytes⟩ := hsync.stopped hpc
  have hlen : s.calls.length = before.length + 2 := by
    rw [State.calls, hcalls, List.length_append]
    rfl
  have hissued : s.issued = s.calls.length :=
    Nat.le_antisymm hj.issued_le (hdone ▸ completed_le s)
  have hidle : s.storage.pc = .idle := by
    by_contra hbusy
    rw [completed_busy hbusy, hissued] at hdone
    omega
  have hall : s.calls.take s.issued = before ++ [.flush] ++ [.sync] := by
    rw [hissued, List.take_length, State.calls, hcalls, List.append_assoc]
    rfl
  have hr := hj.rotation
  have hdisk := hr.disk_eq (hj.quiet hidle _ hall) (hr.rotated.newest_of_ne fun fd hfd => by
    rw [hidle] at hfd
    cases hfd)
  refine ⟨?_, fun i => hi.lines_eq_reference ?_⟩
  · rw [hdisk, hj.stream, hall, List.flatMap_append, List.flatMap_append, hbytes]
    exact congrArg _ ((List.append_nil _).trans (List.append_nil _))
  · rw [Logger.State.unconsumed, (hi.stopped hpc i).2]
    rfl

/-! ## A run -/

/-- Two buffers, large enough for a line. -/
def wide : IoUring.Config := { IoUring.pair with
  bufferCapacity := 64
  capacity_le := by decide }

theorem onDisk_spans (k : Nat) : Logger.small.sizes.size k = wide.bufferCapacity := rfl

def onDisk : Config UInt8 := ⟨Logger.small, wide, onDisk_spans⟩

/-- A sink logs and syncs, and the consumer gets as far as the line. -/
def logLine : List (Event UInt8) :=
  [.logger (.registerSink 1 [65] []),
    .logger (.log 1 ⟨false, false⟩ Logger.namedLine [.value ⟨1, 1, hasSingleBit_1⟩ 120] []),
    .logger (.sync 1 []), .logger (.runOnce [])] ++
  List.replicate 6 (.logger (.consume []))

/-- The record of `sync` is executed, and the storage waits for a write that is completed in
two parts. -/
def syncLine : List (Event UInt8) :=
  logLine ++ [.call, .logger (.consume []), .call, .call, .call, .kernel (.complete 0 (.wrote 2)),
    .kernel .reap, .kernel (.complete 0 (.wrote 3)), .kernel .reap]

/-- The line is in the file when `sync` returns, after the byte that was there. -/
theorem synced_on_disk_line : ∃ s s', (machine onDisk (SparseFile.empty.append [0])).ReachableBy
      Sound s ∧ step onDisk s (.logger (.syncReturn 1)) = some s' ∧
    ∃ shown rest, s.logger.printed = shown ++ rest ∧
      saidOf 1 (shown.filterMap Logger.Line.said?) = [((Logger.namedLine, [.value 120]), [65])] ∧
      [0] ++ shown.flatMap (Logger.Line.text Logger.small) <+: s.storage.disk := by
  have hrun : ((machine onDisk (SparseFile.empty.append [0])).runBy Sound
      (initial onDisk (fun _ _ => .byte 0) (SparseFile.empty.append [0])) syncLine).any (fun s =>
        (step onDisk s (.logger (.syncReturn 1))).isSome &&
          s.logger.reference 1 = [((Logger.namedLine, [.value 120]), [65])]) = true := by
    decide +kernel
  obtain ⟨s, hs, heq⟩ := (Option.any_eq_true ..).mp hrun
  have hreach : (machine onDisk (SparseFile.empty.append [0])).ReachableBy Sound s :=
    .runBy (.start ⟨_, rfl⟩) hs
  simp only [Bool.and_eq_true, decide_eq_true_eq] at heq
  obtain ⟨s', hreturn⟩ := Option.isSome_iff_exists.mp heq.1
  obtain ⟨shown, rest, hprinted, hsaid, hdisk⟩ := synced_on_disk hreach 1 hreturn
  exact ⟨s, s', hreach, hreturn, shown, rest, hprinted, hsaid.trans heq.2,
    hdisk s (.start rfl)⟩

/-- A sink logs and is closed, and so is the control sink. -/
def closeLogger : List (Event UInt8) :=
  [.logger (.registerSink 1 [65] []),
    .logger (.log 1 ⟨false, false⟩ Logger.namedLine [.value ⟨1, 1, hasSingleBit_1⟩ 120] []),
    .logger (.close 1 []), .logger (.close 0 []), .logger (.runOnce [])] ++
  List.replicate 6 (.logger (.consume [])) ++
  [.call, .logger (.consume []), .logger (.consume []), .logger (.consume []), .call, .call, .call,
    .kernel (.complete 0 (.wrote 5)), .kernel .reap]

theorem closed_on_disk_line : ∃ s, (machine onDisk (SparseFile.empty.append [0])).ReachableBy
      Sound s ∧ s.storage.disk = 0 :: "A: x\n".toUTF8.toList := by
  have hrun : ((machine onDisk (SparseFile.empty.append [0])).runBy Sound
      (initial onDisk (fun _ _ => .byte 0) (SparseFile.empty.append [0])) closeLogger).any (fun s =>
        s.logger.pc = .stopped && s.completed = s.calls.length &&
          s.logger.printed.flatMap (Logger.Line.text Logger.small) =
            "A: x\n".toUTF8.toList) = true := by
    decide +kernel
  obtain ⟨s, hs, heq⟩ := (Option.any_eq_true ..).mp hrun
  have hreach : (machine onDisk (SparseFile.empty.append [0])).ReachableBy Sound s :=
    .runBy (.start ⟨_, rfl⟩) hs
  simp only [Bool.and_eq_true, decide_eq_true_eq] at heq
  obtain ⟨hdisk, -⟩ := closed_on_disk hreach heq.1.1 heq.1.2
  refine ⟨s, hreach, hdisk.trans ?_⟩
  show [0] ++ s.logger.printed.flatMap (Logger.Line.text Logger.small) = _
  rw [heq.2]
  rfl

end Xtr.LoggerStorage
