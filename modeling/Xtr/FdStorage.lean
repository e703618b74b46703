import Xtr.CString

/-!
# Choosing a storage

`make_fd_storage`: the io_uring back-end where it works, and else the POSIX one.  The
constructors are followed step by step, since any of their steps may throw, and since
the path to reopen is moved from one to the next: `std::make_unique` first gets the
memory of the object and then moves its argument into the constructor's parameter, so
that from there on the caller's string is empty, whether or not the constructor returns.

What the kernel and the allocator answer in the course of one call is an input
(`Outcomes`).  The texts written to `stderr` are left out.
-/
namespace Xtr.FdStorage

def nullReopenPath : Str := []

/-- What a constructor throws; each is a `std::exception`. -/
inductive Exception
  | badAlloc
  | systemError (errno : Nat) (what : Str)
  | invalidArgument (what : Str)
  deriving DecidableEq

/-- The exception, if the step failed. -/
def check (failed : Bool) (e : Exception) : Except Exception Unit :=
  if failed then .error e else .ok ()

/-- An error number, if the call failed. -/
def checkErrno (errnum : Option Nat) (what : String) : Except Exception Unit :=
  match errnum with
  | none => .ok ()
  | some e => .error (.systemError e (text what))

def ENOENT : Nat := 2
def ENOSYS : Nat := 38
def O_APPEND : Nat := 0x400

/-! ## File descriptors -/

/-- What `lseek(fd, 0, SEEK_CUR)` and `fcntl(fd, F_GETFL)` return, nothing when it
is -1. -/
structure Flags where
  lseek : Option Nat
  getfl : Option Nat
  deriving DecidableEq

/-- `is_seekable`. -/
def isSeekable (f : Flags) : Bool := f.lseek.isSome

/-- `is_append`. -/
def isAppend (f : Flags) : Bool :=
  match f.getfl with
  | none => false
  | some flags => flags &&& O_APPEND ≠ 0

/-- `set_append`: `setfl` says whether `F_SETFL` succeeds. -/
def setAppend (f : Flags) (setfl : Bool) : Bool :=
  match f.getfl with
  | none => false
  | some _ => setfl

/-! ## The constructors -/

/-- `fd_storage_base`. -/
structure Base where
  reopenPath : Str
  fd : Nat
  deriving DecidableEq

inductive Storage
  | ioUring (base : Base) (bufferCapacity queueSize batchSize offset : Nat)
  | posix (base : Base) (bufferCapacity : Nat)
  deriving DecidableEq

def Storage.base : Storage → Base
  | .ioUring base .. => base
  | .posix base _ => base

/-- `fd_storage_base(fd, reopen_path)`, with the outcome of `dup`. -/
def fdStorageBase (dup : Except Nat Nat) (reopenPath : Str) : Except Exception Base :=
  match dup with
  | .ok fd => .ok ⟨reopenPath, fd⟩
  | .error errno => .error (.systemError errno
      (text "xtr::detail::fd_storage_base::fd_storage_base: dup(2) failed"))

/-- The outcomes of the steps of `io_uring_fd_storage`'s constructor. -/
structure RingOutcomes where
  dup : Except Nat Nat
  queueInit : Option Nat
  flags : Flags
  /-- The vector of `iovec`s and the buffers can be allocated. -/
  reserve : Bool
  newBuffers : Bool
  registerBuffers : Option Nat
  /-- `lseek` in `set_offset`. -/
  offset : Option Nat

/-- `allocate_buffers`. -/
def allocateBuffers (k : RingOutcomes) : Except Exception Unit := do
  check (!k.reserve) .badAlloc
  check (!k.newBuffers) .badAlloc
  checkErrno k.registerBuffers
    "xtr::io_uring_fd_storage::allocate_buffers: io_uring_register_buffers failed"

/-- `numeric_limits<int>::max()`, the type of `io_uring_cqe::res` and of `index_`. -/
def maxInt : Nat := 2147483647

/-- `io_uring_fd_storage(fd, reopen_path, buffer_capacity, queue_size, batch_size)`. -/
def ioUringFdStorage (k : RingOutcomes) (bufferCapacity queueSize batchSize : Nat)
    (reopenPath : Str) : Except Exception Storage := do
  let base ← fdStorageBase k.dup reopenPath
  checkErrno k.queueInit "xtr::detail::unique_io_uring: io_uring_queue_init failed"
  check (bufferCapacity > maxInt) (.invalidArgument (text "buffer_capacity too large"))
  check (queueSize > maxInt) (.invalidArgument (text "queue_size too large"))
  check (batchSize = 0) (.invalidArgument (text "batch_size cannot be zero"))
  check (batchSize > queueSize)
    (.invalidArgument (text "batch_size cannot exceed queue size"))
  check (!isSeekable k.flags) (.invalidArgument (text "File descriptor is not seekable"))
  check (isAppend k.flags) (.invalidArgument (text "File descriptor has O_APPEND set"))
  allocateBuffers k
  .ok (.ioUring base bufferCapacity queueSize batchSize (k.offset.getD 0))

/-- The outcomes of the steps of `posix_fd_storage`'s constructor. -/
structure PosixOutcomes where
  dup : Except Nat Nat
  newBuffer : Bool

/-- `posix_fd_storage(fd, reopen_path, buffer_capacity)`. -/
def posixFdStorage (k : PosixOutcomes) (bufferCapacity : Nat) (reopenPath : Str) :
    Except Exception Storage := do
  let base ← fdStorageBase k.dup reopenPath
  check (!k.newBuffer) .badAlloc
  .ok (.posix base bufferCapacity)

def defaultBufferCapacity : Nat := 64 * 1024
def defaultQueueSize : Nat := 1024
def defaultBatchSize : Nat := 32

/-! ## `make_fd_storage` -/

/-- What happens in the health check: to `memfd_create`, the constructor, the write and
`sync`, and `pread`. -/
structure Probe where
  memfd : Bool
  ring : RingOutcomes
  io : Except Exception Unit
  pread : Option Str

/-- `is_io_uring_working`: a tiny ring writes one buffer. -/
def isIoUringWorking (p : Probe) : Bool :=
  p.memfd &&
    match (do let _ ← ioUringFdStorage p.ring 32 2 1 nullReopenPath; p.io) with
    | .error _ => false
    | .ok () => p.pread = some (text "io_uring is working")

/-- What the system answers in the course of one call. -/
structure Outcomes where
  /-- `XTR_USE_IO_URING`. -/
  useIoUring : Bool
  /-- `open_at_end`, when a path is given. -/
  openAtEnd : Except Nat Nat
  /-- `errno` after the probing system call. -/
  setupErrno : Nat
  flags : Flags
  probe : Probe
  /-- The memory of the io_uring storage can be allocated. -/
  newRing : Bool
  ring : RingOutcomes
  appendFlags : Flags
  setfl : Bool
  setAppendErrno : Nat
  newPosix : Bool
  posix : PosixOutcomes

/-- `std::make_unique<T>(fd, std::move(reopen_path))`: what comes of it, and what is left
in `reopen_path`. -/
def makeUnique {α : Type} (new : Bool) (constructor : Str → Except Exception α)
    (reopenPath : Str) : Except Exception α × Str :=
  if new then (constructor reopenPath, []) else (.error .badAlloc, reopenPath)

/-- The end of `detail::make_fd_storage`. -/
def fallback (k : Outcomes) (reopenPath : Str) (fdCreated : Bool) : Except Exception Storage := do
  check (fdCreated && !setAppend k.appendFlags k.setfl) (.systemError k.setAppendErrno
    (text "Failed to set O_APPEND on `" ++ cStr reopenPath ++ text "'"))
  (makeUnique k.newPosix (posixFdStorage k.posix defaultBufferCapacity) reopenPath).1

/-- The io_uring back-end is attempted. -/
def triesIoUring (k : Outcomes) : Bool :=
  k.useIoUring && k.setupErrno ≠ ENOSYS && isSeekable k.flags && !isAppend k.flags &&
    isIoUringWorking k.probe

/-- `detail::make_fd_storage`. -/
def detailMakeFdStorage (k : Outcomes) (reopenPath : Str) (fdCreated : Bool) :
    Except Exception Storage :=
  if triesIoUring k then
    match makeUnique k.newRing
      (ioUringFdStorage k.ring defaultBufferCapacity defaultQueueSize defaultBatchSize)
      reopenPath with
    | (.ok storage, _) => .ok storage
    | (.error _, reopenPath) => fallback k reopenPath fdCreated
  else fallback k reopenPath fdCreated

/-- The overloads of `make_fd_storage`: of a path, of a stream, and of a descriptor. -/
inductive Overload
  | path (path : Str)
  | file (reopenPath : Str)
  | fd (reopenPath : Str)

/-- The path that is passed in. -/
def Overload.reopenPath : Overload → Str
  | .path p => cStr p
  | .file p => p
  | .fd p => p

/-- `make_fd_storage`. -/
def makeFdStorage (k : Outcomes) : Overload → Except Exception Storage
  | .path p =>
    match k.openAtEnd with
    | .error errno => .error (.systemError errno (text "Failed to open `" ++ cStr p ++ text "'"))
    | .ok _ => detailMakeFdStorage k (cStr p) true
  | .file p => detailMakeFdStorage k p false
  | .fd p => detailMakeFdStorage k p false

/-- `reopen`, given what `open_at_end` does with a path: the error number and the new
state. -/
def reopen (b : Base) (openAtEnd : Str → Except Nat Nat) : Nat × Base :=
  if b.reopenPath = nullReopenPath then (ENOENT, b)
  else match openAtEnd (cStr b.reopenPath) with
    | .error errno => (errno, b)
    | .ok fd => (0, { b with fd := fd })

/-! ## What the constructors do with the path -/

theorem bind_eq_ok {α β : Type} {x : Except Exception α} {f : α → Except Exception β} {b : β} :
    (x >>= f) = .ok b ↔ ∃ a, x = .ok a ∧ f a = .ok b := by
  constructor
  · intro h
    cases x with
    | error e => cases h
    | ok a => exact ⟨a, rfl, h⟩
  · rintro ⟨a, rfl, h⟩
    exact h

theorem check_eq_ok {failed : Bool} {e : Exception} {u : Unit} :
    check failed e = .ok u ↔ failed = false := by
  cases failed <;> simp [check]

theorem checkErrno_eq_ok {errnum : Option Nat} {what : String} {u : Unit} :
    checkErrno errnum what = .ok u ↔ errnum = none := by
  cases errnum <;> simp [checkErrno]

theorem fdStorageBase_eq_ok {dup : Except Nat Nat} {path : Str} {b : Base} :
    fdStorageBase dup path = .ok b ↔ ∃ fd, dup = .ok fd ∧ b = ⟨path, fd⟩ := by
  cases dup <;> simp [fdStorageBase, eq_comm]

/-- A step of `io_uring_fd_storage`'s constructor fails. -/
def RingOutcomes.Fails (k : RingOutcomes) : Prop :=
  (∃ errno, k.dup = .error errno) ∨ k.queueInit ≠ none ∨ isSeekable k.flags = false ∨
    isAppend k.flags = true ∨ k.reserve = false ∨ k.newBuffers = false ∨ k.registerBuffers ≠ none

theorem RingOutcomes.not_fails {k : RingOutcomes} : ¬ k.Fails ↔
    (∃ fd, k.dup = .ok fd) ∧ k.queueInit = none ∧ isSeekable k.flags = true ∧
      isAppend k.flags = false ∧ k.reserve = true ∧ k.newBuffers = true ∧
      k.registerBuffers = none := by
  have hdup : (¬ ∃ errno, k.dup = .error errno) ↔ ∃ fd, k.dup = .ok fd := by
    cases k.dup <;> simp
  simp only [Fails, not_or, hdup, ne_eq, not_not, Bool.not_eq_false, Bool.not_eq_true]

/-- The constructor returns when no step fails, with the default arguments or any that
pass the checks, and the storage has the path that was passed. -/
theorem ioUringFdStorage_eq_ok {k : RingOutcomes} {c q n : Nat} {path : Str} {st : Storage} :
    ioUringFdStorage k c q n path = .ok st ↔
      ¬ k.Fails ∧ (c ≤ maxInt ∧ q ≤ maxInt ∧ n ≠ 0 ∧ n ≤ q) ∧
        ∃ fd, k.dup = .ok fd ∧ st = .ioUring ⟨path, fd⟩ c q n (k.offset.getD 0) := by
  unfold ioUringFdStorage allocateBuffers
  simp only [bind_eq_ok, check_eq_ok, checkErrno_eq_ok, fdStorageBase_eq_ok, exists_const,
    RingOutcomes.not_fails, decide_eq_false_iff_not, gt_iff_lt, Nat.not_lt, Bool.not_eq_false']
  constructor
  · rintro ⟨base, ⟨fd, hd, rfl⟩, hq, h1, h2, h3, h4, h5, h6, ⟨h7, h8, h9⟩, hst⟩
    exact ⟨⟨⟨fd, hd⟩, hq, h5, h6, h7, h8, h9⟩, ⟨h1, h2, h3, h4⟩, fd, hd, (Except.ok.inj hst).symm⟩
  · rintro ⟨⟨-, hq, h5, h6, h7, h8, h9⟩, ⟨h1, h2, h3, h4⟩, fd, hd, rfl⟩
    exact ⟨_, ⟨fd, hd, rfl⟩, hq, h1, h2, h3, h4, h5, h6, ⟨h7, h8, h9⟩, rfl⟩

/-- The fall-back returns a storage. -/
def Outcomes.FallsBack (k : Outcomes) (fdCreated : Bool) : Prop :=
  (fdCreated = true → setAppend k.appendFlags k.setfl = true) ∧ k.newPosix = true ∧
    (∃ fd, k.posix.dup = .ok fd) ∧ k.posix.newBuffer = true

theorem fallback_eq_ok {k : Outcomes} {path : Str} {fdCreated : Bool} {st : Storage} :
    fallback k path fdCreated = .ok st ↔ k.FallsBack fdCreated ∧
      ∃ fd, k.posix.dup = .ok fd ∧ st = .posix ⟨path, fd⟩ defaultBufferCapacity := by
  unfold fallback posixFdStorage makeUnique Outcomes.FallsBack
  simp only [bind_eq_ok, check_eq_ok, exists_const, Bool.and_eq_false_imp, Bool.not_eq_false']
  by_cases hnew : k.newPosix = true
  · simp only [hnew, if_true, bind_eq_ok, check_eq_ok, fdStorageBase_eq_ok, exists_const,
      Bool.not_eq_false', true_and]
    constructor
    · rintro ⟨h1, base, ⟨fd, hd, rfl⟩, h2, hst⟩
      exact ⟨⟨h1, ⟨fd, hd⟩, h2⟩, fd, hd, (Except.ok.inj hst).symm⟩
    · rintro ⟨⟨h1, -, h2⟩, fd, hd, rfl⟩
      exact ⟨h1, _, ⟨fd, hd, rfl⟩, h2, rfl⟩
  · simp [hnew]

/-! ## The path that is reopened -/

/-- What is left in `reopen_path` for the fall-back: nothing, once a constructor took
it. -/
def pathLeft (k : Outcomes) (reopenPath : Str) : Str :=
  if triesIoUring k && k.newRing then [] else reopenPath

theorem defaults_pass : defaultBufferCapacity ≤ maxInt ∧ defaultQueueSize ≤ maxInt ∧
    defaultBatchSize ≠ 0 ∧ defaultBatchSize ≤ defaultQueueSize := by
  decide

/-- When the io_uring back-end is returned. -/
def Outcomes.UsesIoUring (k : Outcomes) : Prop :=
  triesIoUring k = true ∧ k.newRing = true ∧ ¬ k.ring.Fails

theorem detailMakeFdStorage_of_uses {k : Outcomes} (h : k.UsesIoUring) (path : Str)
    (fdCreated : Bool) : ∃ st, detailMakeFdStorage k path fdCreated = .ok st ∧
      st.base.reopenPath = path := by
  obtain ⟨htries, hnew, hring⟩ := h
  obtain ⟨⟨fd, hd⟩, -⟩ := RingOutcomes.not_fails.mp hring
  obtain ⟨st, hctor, hpath⟩ : ∃ st, ioUringFdStorage k.ring defaultBufferCapacity defaultQueueSize
      defaultBatchSize path = .ok st ∧ st.base.reopenPath = path :=
    ⟨_, ioUringFdStorage_eq_ok.mpr ⟨hring, defaults_pass, fd, hd, rfl⟩, rfl⟩
  refine ⟨st, ?_, hpath⟩
  unfold detailMakeFdStorage makeUnique
  rw [if_pos htries, if_pos hnew, hctor]

theorem detailMakeFdStorage_of_not_uses {k : Outcomes} (h : ¬ k.UsesIoUring) (path : Str)
    (fdCreated : Bool) :
    detailMakeFdStorage k path fdCreated = fallback k (pathLeft k path) fdCreated := by
  unfold detailMakeFdStorage makeUnique pathLeft
  by_cases htries : triesIoUring k = true
  · rw [if_pos htries, htries, Bool.true_and]
    by_cases hnew : k.newRing = true
    · rw [if_pos hnew, if_pos hnew]
      -- the parameter has taken the path, and then the constructor throws
      cases hctor : ioUringFdStorage k.ring defaultBufferCapacity defaultQueueSize
        defaultBatchSize path with
      | error e => rfl
      | ok st => exact absurd ⟨htries, hnew, (ioUringFdStorage_eq_ok.mp hctor).1⟩ h
    · rw [if_neg hnew, if_neg hnew]
  · rw [if_neg htries, if_neg fun hand => htries (Bool.and_eq_true_iff.mp hand).1]

/-- `detail::make_fd_storage` returns a storage with another path exactly when a
constructor took it and threw, and the fall-back then succeeds. -/
theorem detailMakeFdStorage_keeps_path (k : Outcomes) (path : Str) (fdCreated : Bool) :
    (∀ st, detailMakeFdStorage k path fdCreated = .ok st → st.base.reopenPath = path) ↔
      path = nullReopenPath ∨ triesIoUring k = false ∨ k.newRing = false ∨ ¬ k.ring.Fails ∨
        ¬ k.FallsBack fdCreated := by
  by_cases huses : k.UsesIoUring
  · obtain ⟨st, hst, hpath⟩ := detailMakeFdStorage_of_uses huses path fdCreated
    refine ⟨fun _ => .inr (.inr (.inr (.inl huses.2.2))), fun _ st' hst' => ?_⟩
    obtain rfl := Except.ok.inj (hst.symm.trans hst')
    exact hpath
  rw [detailMakeFdStorage_of_not_uses huses]
  constructor
  · intro h
    by_contra hcon
    simp only [not_or, not_not, Bool.not_eq_false] at hcon
    obtain ⟨hpath, htries, hnew, -, hfalls⟩ := hcon
    obtain ⟨fd, hd⟩ := hfalls.2.2.1
    have hnull := h _ (fallback_eq_ok.mpr ⟨hfalls, fd, hd, rfl⟩)
    simp only [Storage.base, pathLeft, htries, hnew, Bool.and_self, if_true] at hnull
    exact hpath hnull.symm
  · intro h st hst
    obtain ⟨hfalls, fd, -, rfl⟩ := fallback_eq_ok.mp hst
    show pathLeft k path = path
    unfold pathLeft
    rcases h with rfl | htries | hnew | hring | hno
    · exact ite_self _
    · rw [htries, Bool.false_and, if_neg Bool.false_ne_true]
    · rw [hnew, Bool.and_false, if_neg Bool.false_ne_true]
    · refine if_neg fun hand => huses ?_
      obtain ⟨htries, hnew⟩ := Bool.and_eq_true_iff.mp hand
      exact ⟨htries, hnew, hring⟩
    · exact absurd hfalls hno

/-- The descriptor was opened by `make_fd_storage`. -/
def Overload.fdCreated : Overload → Bool
  | .path _ => true
  | _ => false

/-- The path could be opened, where `make_fd_storage` opens it. -/
def Outcomes.Opens (k : Outcomes) (o : Overload) : Prop :=
  o.fdCreated = true → ∃ fd, k.openAtEnd = .ok fd

/-- **When `make_fd_storage` keeps the path.**  It returns a storage that reopens another
path exactly when the path is not empty, the io_uring back-end is attempted, its
constructor takes the path and then throws, and the fall-back succeeds. -/
theorem make_fd_storage_keeps_path (k : Outcomes) (o : Overload) :
    (∀ st, makeFdStorage k o = .ok st → st.base.reopenPath = o.reopenPath) ↔
      o.reopenPath = nullReopenPath ∨ ¬ k.Opens o ∨ triesIoUring k = false ∨
        k.newRing = false ∨ ¬ k.ring.Fails ∨ ¬ k.FallsBack o.fdCreated := by
  have hdetail := detailMakeFdStorage_keeps_path k o.reopenPath o.fdCreated
  by_cases hopen : k.Opens o
  · have heq : makeFdStorage k o = detailMakeFdStorage k o.reopenPath o.fdCreated := by
      cases o with
      | path p =>
        obtain ⟨fd, hfd⟩ := hopen rfl
        simp only [makeFdStorage, hfd, Overload.reopenPath, Overload.fdCreated]
      | file p => rfl
      | fd p => rfl
    rw [heq, hdetail]
    simp only [hopen, not_true, false_or]
  · refine ⟨fun _ => .inr (.inl hopen), fun _ st hst => ?_⟩
    cases o with
    | path p =>
      cases hfd : k.openAtEnd with
      | ok fd => exact absurd (fun _ => ⟨fd, hfd⟩) hopen
      | error e =>
        simp only [makeFdStorage, hfd] at hst
        cases hst
    | file p => exact absurd (fun h => by cases h) hopen
    | fd p => exact absurd (fun h => by cases h) hopen

/-- Everything succeeds. -/
def RingOutcomes.good : RingOutcomes := ⟨.ok 4, none, ⟨some 0, some 1⟩, true, true, none, some 0⟩

/-- The health check passes, and then there is not enough memory for a ring of the
default size. -/
def Outcomes.noMemory : Outcomes where
  useIoUring := true
  openAtEnd := .ok 3
  setupErrno := 14
  flags := ⟨some 0, some 1⟩
  probe := ⟨true, .good, .ok (), some (text "io_uring is working")⟩
  newRing := true
  ring := { RingOutcomes.good with queueInit := some 12 }
  appendFlags := ⟨some 0, some 1⟩
  setfl := true
  setAppendErrno := 0
  newPosix := true
  posix := ⟨.ok 4, true⟩

/-- The path is lost: `reopen` fails, although there is a path to reopen. -/
theorem make_fd_storage_loses_path :
    ∃ st, makeFdStorage .noMemory (.path (text "/var/log/app.log")) = .ok st ∧
      st.base.reopenPath ≠ text "/var/log/app.log" ∧
      (reopen st.base fun _ => .ok 5).1 = ENOENT := by
  refine ⟨.posix ⟨[], 4⟩ defaultBufferCapacity, ?_, ?_, ?_⟩
  · decide +kernel
  · decide +kernel
  · decide +kernel

end Xtr.FdStorage
