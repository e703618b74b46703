import Mathlib.Algebra.Group.Nat.Defs
import Mathlib.Logic.Function.Basic
import Xtr.Machine
import Xtr.SparseFile

/-!
# io_uring storage

`io_uring_fd_storage`, with the parts of `fd_storage_base` and `open_at_end` it
rests on, as one machine together with the kernel.

The storage owns `queue_size` buffers.  `allocate_buffer` takes one from the free
list, waiting for completions while there is none; `submit_buffer` prepares a write
of it at a fixed file offset, and hands the prepared writes over every `batch_size`
submissions; `flush` hands them over at once; `sync` and `replace_fd` also wait for
all of them.  All waiting is in `wait_for_one_cqe`, which reaps one completion and
either frees the buffer or, after a short or a retryable write, prepares and hands
over what remains and waits again.

An event is a call, the return of one `io_uring_wait_cqe`, or an action of the
kernel or the file system.  A call runs until it returns or has to wait, and `pc`
says in which loop it waits; kernel events may come in between at any point.

`log` is not part of the program: it records every submitted buffer with the file
and the offset it went to.
-/
namespace Xtr.IoUring

/-! ## State -/

/-- The constructor's arguments, with what it checks of them, and the number of
entries of the submission queue, which `io_uring_queue_init` makes at least as many
as it was asked for. -/
structure Config where
  bufferCapacity : Nat
  queueSize : Nat
  batchSize : Nat
  sqEntries : Nat
  capacity_le : bufferCapacity ≤ 2 ^ 31 - 1
  queue_le : queueSize ≤ 2 ^ 31 - 1
  batch_pos : 0 < batchSize
  batch_le : batchSize ≤ queueSize
  queue_le_entries : queueSize ≤ sqEntries

/-- `io_uring_fd_storage::buffer`; `index_` is the position in `State.buffers` and
`next_` is the free list's. -/
structure Buffer where
  size : Nat
  offset : Nat
  fileOffset : Nat
  data : List UInt8

/-- An open file description: the file and the position `lseek` reports. -/
structure Descriptor where
  file : Nat
  position : Nat
  deriving DecidableEq

/-- A prepared write: the arguments of `io_uring_prep_write_fixed`, the user data,
and the flags. -/
structure Sqe where
  file : Nat
  buffer : Nat
  offset : Nat
  size : Nat
  fileOffset : Nat
  hardlink : Bool
  drain : Bool

/-- `io_uring_cqe::res`: a byte count or a negative error number. -/
inductive Res
  | wrote (n : Nat)
  | again
  | canceled
  | failed (errnum : Nat)
  deriving DecidableEq

structure Cqe where
  buffer : Nat
  res : Res

/-- The loops that call `wait_for_one_cqe`. -/
inductive Loop
  | allocate
  | sync
  | replace (fd : Descriptor)
  deriving DecidableEq

/-- Between calls, or in `io_uring_wait_cqe`. -/
inductive Pc
  | idle
  | waiting (loop : Loop)
  deriving DecidableEq

/-- A submitted buffer: where it goes, and the size the file had when the last
`reopen` before it returned. -/
structure Chunk where
  file : Nat
  start : Nat
  bytes : List UInt8
  floor : Nat
  deriving DecidableEq

structure State where
  /-- The members of the storage. -/
  buffers : Nat → Buffer
  freeList : List Nat
  batchIndex : UInt64
  pendingCqeCount : UInt64
  offset : Nat
  fd : Descriptor
  /-- The buffer the caller was given and has not submitted. -/
  held : Option Nat
  /-- Prepared writes, writes handed over, and their completions. -/
  sq : List Sqe
  inflight : List Sqe
  cq : List Cqe
  /-- How often `io_uring_get_sqe` returned null. -/
  sqFull : Nat
  /-- The file system: files by number, how many exist, and the one `reopen_path_`
  names. -/
  files : Nat → SparseFile
  fileCount : Nat
  path : Option Nat
  pc : Pc
  log : List Chunk
  floor : Nat

/-- The buffers with a write that was not reaped yet. -/
def State.pending (s : State) : List Nat :=
  s.sq.map Sqe.buffer ++ s.inflight.map Sqe.buffer ++ s.cq.map Cqe.buffer

variable (cfg : Config)

/-! ## Operations -/

/-- `io_uring_submit`. -/
def ioUringSubmit (s : State) : State :=
  { s with inflight := s.inflight ++ s.sq, sq := [] }

/-- `flush`. -/
def flush (s : State) : State := { ioUringSubmit s with batchIndex := 0 }

/-- `get_sqe`: a flush empties the queue, so the loop runs at most once. -/
def getSqe (s : State) : State :=
  if s.sq.length < cfg.sqEntries then s else { flush s with sqFull := s.sqFull + 1 }

/-- `io_uring_prep_write_fixed` and `io_uring_sqe_set_data` into the entry that
`io_uring_get_sqe` returned, and the new pending request. -/
def prepWrite (s : State) (sqe : Sqe) : State :=
  { s with sq := s.sq ++ [sqe], pendingCqeCount := s.pendingCqeCount + 1 }

def setBuffer (s : State) (i : Nat) (buf : Buffer) : State :=
  { s with buffers := Function.update s.buffers i buf }

/-- What `submit_buffer` prepares.  The first write of a batch drains the one before. -/
def firstWrite (s : State) (i : Nat) (buf : Buffer) : Sqe where
  file := s.fd.file
  buffer := i
  offset := 0
  size := buf.size
  fileOffset := buf.fileOffset
  hardlink := true
  drain := s.batchIndex.toNat % cfg.batchSize = 0

/-- `submit_buffer` from `get_sqe` to the new batch index. -/
def enqueue (s : State) (i : Nat) (buf : Buffer) : State :=
  { prepWrite s (firstWrite cfg s i buf) with
    offset := s.offset + buf.size
    batchIndex := s.batchIndex + 1
    log := s.log ++ [⟨s.fd.file, buf.fileOffset, buf.data, s.floor⟩] }

/-- The end of `submit_buffer`: a full batch is handed over. -/
def submitBatch (s : State) : State :=
  if s.batchIndex.toNat % cfg.batchSize = 0 then ioUringSubmit s else s

/-- The caller's bytes in the buffer, and their number. -/
def Buffer.fill (buf : Buffer) (bytes : List UInt8) : Buffer :=
  { buf with size := bytes.length, data := bytes }

/-- The caller gives a buffer back. -/
def returnBuffer (s : State) (i : Nat) (buf : Buffer) : State :=
  { setBuffer s i buf with held := none }

/-- `submit_buffer(data, size)`, where `data` is buffer `i` and holds `bytes`. -/
def submitBuffer (s : State) (i : Nat) (bytes : List UInt8) : State :=
  let buf := (s.buffers i).fill bytes
  let s := getSqe cfg (returnBuffer s i buf)
  submitBatch cfg (enqueue cfg s i buf)

/-- What `resubmit_buffer` prepares. -/
def nextWrite (s : State) (i : Nat) (buf : Buffer) : Sqe where
  file := s.fd.file
  buffer := i
  offset := buf.offset
  size := buf.size
  fileOffset := buf.fileOffset
  hardlink := false
  drain := false

/-- The buffer without the bytes that were written. -/
def Buffer.advance (buf : Buffer) (nwritten : Nat) : Buffer :=
  { buf with size := buf.size - nwritten, offset := buf.offset + nwritten,
             fileOffset := buf.fileOffset + nwritten }

/-- `resubmit_buffer`. -/
def resubmitBuffer (s : State) (i nwritten : Nat) : State :=
  let buf := (s.buffers i).advance nwritten
  let s := getSqe cfg (setBuffer s i buf)
  ioUringSubmit (prepWrite s (nextWrite s i buf))

/-- `free_buffer`. -/
def freeBuffer (s : State) (i : Nat) : State := { s with freeList := i :: s.freeList }

/-- The bytes still to be written when a completion with this result is reaped. -/
def Res.retry (res : Res) (size : Nat) : Option Nat :=
  match res with
  | .again | .canceled => some 0
  | .wrote n => if n ≠ size then some n else none
  | .failed _ => none

/-- `wait_for_one_cqe` once a completion is there: the state, and whether it goes
back to waiting. -/
def reapCqe (s : State) (cqe : Cqe) : State × Bool :=
  let s := { s with pendingCqeCount := s.pendingCqeCount - 1 }
  match cqe.res.retry (s.buffers cqe.buffer).size with
  | some nwritten => (resubmitBuffer cfg s cqe.buffer nwritten, true)
  | none => (freeBuffer s cqe.buffer, false)

/-- The loop of `allocate_buffer` and what comes after it. -/
def allocateLoop (s : State) : State :=
  match s.freeList with
  | [] => { s with pc := .waiting .allocate }
  | i :: free =>
    let buf := { s.buffers i with size := 0, offset := 0, fileOffset := s.offset }
    { setBuffer s i buf with pc := .idle, freeList := free, held := some i }

/-- The loop of `sync`; `fsync` has nothing to do here, the model's files are
durable. -/
def syncLoop (s : State) : State :=
  if 0 < s.pendingCqeCount then { s with pc := .waiting .sync } else { s with pc := .idle }

/-- The loop of `replace_fd`, the replacement and `set_offset`. -/
def replaceLoop (s : State) (fd : Descriptor) : State :=
  if 0 < s.pendingCqeCount then { s with pc := .waiting (.replace fd) }
  else { s with pc := .idle, fd := fd, offset := fd.position, floor := (s.files fd.file).size }

/-- A loop evaluates its condition. -/
def resume (s : State) : Loop → State
  | .allocate => allocateLoop s
  | .sync => syncLoop s
  | .replace fd => replaceLoop s fd

/-- `open_at_end` of `reopen_path_`: `O_CREAT` makes an empty file if the path names
none, and the position is the file's size. -/
def openAtEnd (s : State) : State × Descriptor :=
  match s.path with
  | some f => (s, ⟨f, (s.files f).size⟩)
  | none =>
    ({ s with files := Function.update s.files s.fileCount .empty, fileCount := s.fileCount + 1,
              path := some s.fileCount },
      ⟨s.fileCount, 0⟩)

/-! ## The kernel -/

/-- The bytes a write is about, as they are in the buffer. -/
def payload (s : State) (sqe : Sqe) : List UInt8 :=
  ((s.buffers sqe.buffer).data.drop sqe.offset).take sqe.size

/-- The first `n` bytes of a write reach the file. -/
def transfer (s : State) (sqe : Sqe) (n : Nat) : State :=
  let file := (s.files sqe.file).pwrite sqe.fileOffset ((payload s sqe).take n)
  { s with files := Function.update s.files sqe.file file }

/-- How many bytes a result says were written. -/
def Res.count : Res → Nat
  | .wrote n => n
  | _ => 0

/-- Write `j` of those handed over completes: what it reports as written is in the
file. -/
def complete (s : State) (j : Nat) (sqe : Sqe) (res : Res) : State :=
  { transfer s sqe res.count with
    inflight := s.inflight.eraseIdx j, cq := s.cq ++ [⟨sqe.buffer, res⟩] }

/-! ## The machine -/

inductive Event
  /-- Calls. -/
  | allocateBuffer
  | submitBuffer (bytes : List UInt8)
  | flush
  | sync
  | reopen
  /-- `io_uring_wait_cqe` returns a completion, or an error other than `EINTR`. -/
  | reap
  | waitError
  /-- The kernel gets on with a write, or is done with one. -/
  | transfer (j n : Nat)
  | complete (j : Nat) (res : Res)
  /-- Somebody renames the log file. -/
  | rename

/-- One event.  At most one buffer is held: `allocate_buffer` is not called with one. -/
def step (s : State) : Event → Option State
  | .allocateBuffer =>
    if s.pc = .idle ∧ s.held = none then some (allocateLoop s) else none
  | .submitBuffer bytes =>
    match s.held with
    | none => none
    | some i =>
      if s.pc = .idle ∧ bytes.length ≤ cfg.bufferCapacity then some (submitBuffer cfg s i bytes)
      else none
  | .flush => if s.pc = .idle then some (IoUring.flush s) else none
  | .sync => if s.pc = .idle then some (syncLoop (IoUring.flush s)) else none
  | .reopen =>
    if s.pc = .idle then
      let (s, fd) := openAtEnd s
      some (replaceLoop (IoUring.flush s) fd)
    else none
  | .reap =>
    match s.pc, s.cq with
    | .waiting loop, cqe :: cq =>
      match reapCqe cfg { s with cq := cq } cqe with
      | (s, true) => some s
      | (s, false) => some (resume s loop)
    | _, _ => none
  | .waitError =>
    match s.pc with
    | .waiting loop => some (resume s loop)
    | .idle => none
  | .transfer j n =>
    match s.inflight[j]? with
    | some sqe => if n ≤ sqe.size then some (IoUring.transfer s sqe n) else none
    | none => none
  | .complete j res =>
    match s.inflight[j]? with
    | some sqe => if res.count ≤ sqe.size then some (IoUring.complete s j sqe res) else none
    | none => none
  | .rename => some { s with path := none }

/-- What each event does where it can happen; `step` says no more (`fires_of_step`). -/
inductive Fires (s : State) : Event → State → Prop
  | allocateBuffer : s.pc = .idle → s.held = none → Fires s .allocateBuffer (allocateLoop s)
  | submitBuffer {i : Nat} {bytes : List UInt8} : s.pc = .idle → s.held = some i →
      bytes.length ≤ cfg.bufferCapacity →
      Fires s (.submitBuffer bytes) (submitBuffer cfg s i bytes)
  | flush : s.pc = .idle → Fires s .flush (IoUring.flush s)
  | sync : s.pc = .idle → Fires s .sync (syncLoop (IoUring.flush s))
  | reopen : s.pc = .idle →
      Fires s .reopen (replaceLoop (IoUring.flush (openAtEnd s).1) (openAtEnd s).2)
  | retry {loop : Loop} {cqe : Cqe} {cq : List Cqe} : s.pc = .waiting loop → s.cq = cqe :: cq →
      (reapCqe cfg { s with cq := cq } cqe).2 = true →
      Fires s .reap (reapCqe cfg { s with cq := cq } cqe).1
  | reap {loop : Loop} {cqe : Cqe} {cq : List Cqe} : s.pc = .waiting loop → s.cq = cqe :: cq →
      (reapCqe cfg { s with cq := cq } cqe).2 = false →
      Fires s .reap (resume (reapCqe cfg { s with cq := cq } cqe).1 loop)
  | waitError {loop : Loop} : s.pc = .waiting loop → Fires s .waitError (resume s loop)
  | transfer {j n : Nat} {sqe : Sqe} : s.inflight[j]? = some sqe → n ≤ sqe.size →
      Fires s (.transfer j n) (IoUring.transfer s sqe n)
  | complete {j : Nat} {res : Res} {sqe : Sqe} : s.inflight[j]? = some sqe →
      res.count ≤ sqe.size → Fires s (.complete j res) (IoUring.complete s j sqe res)
  | rename : Fires s .rename { s with path := none }

theorem fires_of_step {cfg : Config} {s s' : State} {e : Event} (h : step cfg s e = some s') :
    Fires cfg s e s' := by
  cases e with
  | allocateBuffer =>
    obtain ⟨hc, h⟩ := Option.ite_none_right_eq_some.mp h
    cases h
    exact .allocateBuffer hc.1 hc.2
  | submitBuffer bytes =>
    simp only [step] at h
    split at h
    · cases h
    · rename_i i hi
      obtain ⟨hc, h⟩ := Option.ite_none_right_eq_some.mp h
      cases h
      exact .submitBuffer hc.1 hi hc.2
  | flush =>
    obtain ⟨hc, h⟩ := Option.ite_none_right_eq_some.mp h
    cases h
    exact .flush hc
  | sync =>
    obtain ⟨hc, h⟩ := Option.ite_none_right_eq_some.mp h
    cases h
    exact .sync hc
  | reopen =>
    obtain ⟨hc, h⟩ := Option.ite_none_right_eq_some.mp h
    cases h
    exact .reopen hc
  | reap =>
    simp only [step] at h
    split at h
    · rename_i loop cqe cq hpc hcq
      split at h
      · rename_i t ht
        cases h
        have hfire : Fires cfg s .reap _ := .retry hpc hcq (by rw [ht])
        rwa [ht] at hfire
      · rename_i t ht
        cases h
        have hfire : Fires cfg s .reap _ := .reap hpc hcq (by rw [ht])
        rwa [ht] at hfire
    · cases h
  | waitError =>
    simp only [step] at h
    split at h
    · rename_i loop hpc
      cases h
      exact .waitError hpc
    · cases h
  | transfer j n =>
    simp only [step] at h
    split at h
    · rename_i sqe hj
      obtain ⟨hc, h⟩ := Option.ite_none_right_eq_some.mp h
      cases h
      exact .transfer hj hc
    · cases h
  | complete j res =>
    simp only [step] at h
    split at h
    · rename_i sqe hj
      obtain ⟨hc, h⟩ := Option.ite_none_right_eq_some.mp h
      cases h
      exact .complete hj hc
    · cases h
  | rename =>
    cases h
    exact .rename

/-- The storage as it is constructed, on a file with the given contents and a
descriptor at `position`. -/
def initial (file : SparseFile) (position : Nat) : State where
  buffers _ := ⟨0, 0, 0, []⟩
  freeList := List.range cfg.queueSize
  batchIndex := 0
  pendingCqeCount := 0
  offset := position
  fd := ⟨0, position⟩
  held := none
  sq := []
  inflight := []
  cq := []
  sqFull := 0
  files f := if f = 0 then file else .empty
  fileCount := 1
  path := some 0
  pc := .idle
  log := []
  floor := 0

def machine (file : SparseFile) (position : Nat) : Machine State Event where
  init s := s = initial cfg file position
  step := step cfg

end Xtr.IoUring
