import Xtr.IoUringSync

/-!
# Log rotation

A log file is rotated by renaming it and reopening its path: `reopen` finds no file
there, makes one, waits for the writes to the old file and goes on with the new one.
The storage is constructed with the file open at its end, as `open_at_end` leaves it.

Then no file ever has a gap: each is what it was, followed by the buffers submitted
while it was current (`Rotated.expected`), and the files in the order they were made
have all the buffers in the order they were submitted (`sync_settles`).  What is on
disk when `sync` returns stays there while later buffers are submitted, written in
any order, and the file is rotated again: no pending write is for a byte before the
settled ones (`Settled`).
-/
namespace Xtr.IoUring
variable {cfg : Config} {s s' : State} {e : Event}

/-! ## The files in the order they were made -/

/-- The buffers submitted while file `f` was current, one after the other. -/
def State.streamOf (s : State) (f : Nat) : List UInt8 :=
  (s.log.filter fun c => c.file = f).flatMap Chunk.bytes

/-- The buffers that went to the files before the current one. -/
def State.before (s : State) : List UInt8 := (List.range s.fd.file).flatMap s.streamOf

/-- The files one after the other. -/
def State.disk (s : State) : List UInt8 :=
  (List.range s.fileCount).flatMap fun f => (s.files f).contents

/-- Elements in the order of their keys are those of each key, one key after the other. -/
theorem flatMap_filter_range {α : Type} {key : α → Nat} {l : List α} {n : Nat}
    (hsorted : l.Pairwise fun a b => key a ≤ key b) (hlt : ∀ a ∈ l, key a < n) :
    (List.range n).flatMap (fun k => l.filter fun a => key a = k) = l := by
  suffices h : ∀ m, (List.range m).flatMap (fun k => l.filter fun a => key a = k) =
      l.filter fun a => key a < m by
    rw [h n, List.filter_eq_self]
    exact fun a ha => decide_eq_true (hlt a ha)
  intro m
  clear hlt
  induction m with
  | zero => exact (List.filter_eq_nil_iff.mpr fun a _ => by simp).symm
  | succ m ihm =>
    rw [List.range_succ, List.flatMap_append, List.flatMap_singleton, ihm]
    clear ihm
    induction l with
    | nil => rfl
    | cons a l ih =>
      obtain ⟨hle, hsorted⟩ := List.pairwise_cons.mp hsorted
      have hl := ih hsorted
      rcases Nat.lt_trichotomy (key a) m with hlt | heq | hgt
      · rw [List.filter_cons_of_pos (by simpa using hlt),
          List.filter_cons_of_neg (by simpa using Nat.ne_of_lt hlt),
          List.filter_cons_of_pos (by simpa using Nat.lt_succ_of_lt hlt), List.cons_append, hl]
      -- no key after this one is smaller
      · have hnone : l.filter (fun b => key b < m) = [] :=
          List.filter_eq_nil_iff.mpr fun b hb => by
            have := hle b hb
            simp only [decide_eq_true_eq]
            omega
        rw [hnone, List.nil_append] at hl
        rw [List.filter_cons_of_neg (by simp [heq]), hnone, List.nil_append,
          List.filter_cons_of_pos (by simpa using heq),
          List.filter_cons_of_pos (by simp [heq]), hl]
      · rw [List.filter_cons_of_neg (by simp; omega), List.filter_cons_of_neg (by simp; omega),
          List.filter_cons_of_neg (by simp; omega), hl]

/-- The submitted buffers, file by file. -/
theorem stream_eq (hsorted : s.log.Pairwise fun c d => c.file ≤ d.file) {n : Nat}
    (hlt : ∀ c ∈ s.log, c.file < n) : (List.range n).flatMap s.streamOf = s.stream := by
  calc (List.range n).flatMap s.streamOf
      = ((List.range n).flatMap fun k => s.log.filter fun c => c.file = k).flatMap
          Chunk.bytes := List.flatMap_assoc.symm
    _ = s.log.flatMap Chunk.bytes := by rw [flatMap_filter_range hsorted hlt]

/-! ## One file after the other -/

/-- Every file is only written at its end. -/
structure Appended (init : Nat → SparseFile) (s : State) : Prop where
  offset : s.offset = (expected init s.log s.fd.file).size
  expected : ∀ f, expected init s.log f = (init f).append (s.streamOf f)
  sorted : s.log.Pairwise fun c d => c.file ≤ d.file
  file_le : ∀ c ∈ s.log, c.file ≤ s.fd.file

/-- **The rotation invariant.**  The path names the last file that was made, and the
current file is the last one or is about to be replaced by it. -/
structure Rotated (init : Nat → SparseFile) (s : State) : Prop where
  appended : Appended init s
  newest : s.fd.file + 1 = s.fileCount ∨ ∃ fd, s.pc = .waiting (.replace fd)
  path_newest : ∀ p, s.path = some p → p + 1 = s.fileCount
  replacing : ∀ fd, s.pc = .waiting (.replace fd) → fd.file + 1 = s.fileCount ∧
    fd.position = (IoUring.expected init s.log fd.file).size

variable {init : Nat → SparseFile}

theorem Appended.keep (h : Appended init s) (hlog : s'.log = s.log) (hfd : s'.fd = s.fd)
    (hoff : s'.offset = s.offset) : Appended init s' := by
  have hstream : s'.streamOf = s.streamOf := by
    funext f
    rw [State.streamOf, hlog]
    rfl
  refine ⟨?_, ?_, hlog ▸ h.sorted, ?_⟩
  · rw [hoff, hlog, hfd]
    exact h.offset
  · rw [hlog, hstream]
    exact h.expected
  · rw [hlog, hfd]
    exact h.file_le

/-- The steps that submit nothing, make no file and stay with the current one. -/
theorem Rotated.keep (h : Rotated init s) (hlog : s'.log = s.log) (hfd : s'.fd = s.fd)
    (hoff : s'.offset = s.offset) (hcount : s'.fileCount = s.fileCount)
    (hpath : s'.path = s.path ∨ s'.path = none)
    (hpc : s'.pc = s.pc ∨ s.fd.file + 1 = s.fileCount ∧ ∀ fd, s'.pc ≠ .waiting (.replace fd)) :
    Rotated init s' := by
  refine ⟨h.appended.keep hlog hfd hoff, ?_, ?_, ?_⟩
  · rw [hfd, hcount]
    rcases hpc with hpc | ⟨hnew, -⟩
    · rw [hpc]
      exact h.newest
    · exact .inl hnew
  · rw [hcount]
    rcases hpath with hpath | hpath
    · rw [hpath]
      exact h.path_newest
    · rw [hpath]
      exact nofun
  · rw [hlog, hcount]
    rcases hpc with hpc | ⟨-, hno⟩
    · rw [hpc]
      exact h.replacing
    · exact fun fd hfd => absurd hfd (hno fd)

theorem Rotated.newest_of_ne (h : Rotated init s) (hpc : ∀ fd, s.pc ≠ .waiting (.replace fd)) :
    s.fd.file + 1 = s.fileCount :=
  h.newest.resolve_right fun ⟨fd, hfd⟩ => hpc fd hfd

theorem initial_rotated (file : SparseFile) :
    Rotated (initial cfg file file.size).files (initial cfg file file.size) where
  appended := ⟨rfl, fun f => SparseFile.append_nil.symm, .nil, nofun⟩
  newest := .inl rfl
  path_newest p hp := by
    cases hp
    rfl
  replacing := nofun

/-- The buffer goes to the end of the current file. -/
theorem Appended.enqueue {i : Nat} {bytes : List UInt8} (h : Appended init s)
    (hfo : (s.buffers i).fileOffset = s.offset) :
    Appended init (enqueue cfg (returnBuffer s i ((s.buffers i).fill bytes)) i
      ((s.buffers i).fill bytes)) := by
  have hlog : (IoUring.enqueue cfg (returnBuffer s i ((s.buffers i).fill bytes)) i
      ((s.buffers i).fill bytes)).log =
        s.log ++ [⟨s.fd.file, (s.buffers i).fileOffset, bytes, s.floor⟩] := rfl
  have hself : (Chunk.mk s.fd.file (s.buffers i).fileOffset bytes s.floor).write
      (IoUring.expected init s.log) s.fd.file =
        (IoUring.expected init s.log s.fd.file).append bytes := by
    rw [Chunk.write_self]
    show SparseFile.pwrite _ (s.buffers i).fileOffset bytes = _
    rw [hfo, h.offset]
    rfl
  refine ⟨?_, ?_, ?_, ?_⟩
  · show s.offset + bytes.length = _
    rw [hlog, expected_concat]
    show _ = (Chunk.write _ _ s.fd.file).size
    rw [hself, SparseFile.size_append, h.offset]
  · intro f
    rw [hlog, expected_concat, State.streamOf, hlog, List.filter_append]
    by_cases hf : f = s.fd.file
    · subst hf
      rw [hself, h.expected, SparseFile.append_append, List.filter_cons_of_pos (by simp),
        List.filter_nil, List.flatMap_append, List.flatMap_singleton]
      rfl
    · rw [Chunk.write_of_ne _ _ hf, h.expected,
        List.filter_cons_of_neg (by simpa using Ne.symm hf), List.filter_nil, List.append_nil]
      rfl
  · rw [hlog]
    refine List.pairwise_append.mpr ⟨h.sorted, List.pairwise_singleton _ _, fun c hc d hd => ?_⟩
    rw [List.mem_singleton.mp hd]
    exact h.file_le c hc
  · intro c hc
    rw [hlog] at hc
    rcases List.mem_append.mp hc with hc | hc
    · exact h.file_le c hc
    · rw [List.mem_singleton.mp hc]
      exact Nat.le_refl _

theorem Rotated.submitBuffer {i : Nat} {bytes : List UInt8} (h : Rotated init s)
    (hs : Session init s) (hc : Core cfg s) (hpc : s.pc = .idle) (hi : s.held = some i) :
    Rotated init (submitBuffer cfg s i bytes) := by
  have hno : ∀ fd, s.pc ≠ .waiting (.replace fd) := by
    intro fd hfd
    rw [hpc] at hfd
    cases hfd
  rw [submitBuffer_eq hc.length_sq_lt]
  have hq : Rotated init (enqueue cfg (returnBuffer s i ((s.buffers i).fill bytes)) i
      ((s.buffers i).fill bytes)) :=
    ⟨h.appended.enqueue (hs.held i hi).2, .inl (h.newest_of_ne hno), h.path_newest,
      fun fd hfd => absurd hfd (hno fd)⟩
  unfold submitBatch
  split
  · exact hq.keep rfl rfl rfl rfl (.inl rfl) (.inl rfl)
  · exact hq

theorem Rotated.allocateLoop (h : Rotated init s) (hnew : s.fd.file + 1 = s.fileCount) :
    Rotated init (allocateLoop s) := by
  unfold IoUring.allocateLoop
  split
  · exact h.keep rfl rfl rfl rfl (.inl rfl) (.inr ⟨hnew, fun fd => by simp⟩)
  · exact h.keep rfl rfl rfl rfl (.inl rfl) (.inr ⟨hnew, fun fd => by simp⟩)

theorem Rotated.syncLoop (h : Rotated init s) (hnew : s.fd.file + 1 = s.fileCount) :
    Rotated init (syncLoop s) := by
  unfold IoUring.syncLoop
  split
  · exact h.keep rfl rfl rfl rfl (.inl rfl) (.inr ⟨hnew, fun fd => by simp⟩)
  · exact h.keep rfl rfl rfl rfl (.inl rfl) (.inr ⟨hnew, fun fd => by simp⟩)

/-- The new descriptor is at the end of the last file. -/
theorem Appended.replaceLoop {fd : Descriptor} (h : Appended init s)
    (hlt : s.fd.file < s.fileCount) (hpath : ∀ p, s.path = some p → p + 1 = s.fileCount)
    (hnew : fd.file + 1 = s.fileCount)
    (hend : fd.position = (IoUring.expected init s.log fd.file).size) :
    Rotated init (replaceLoop s fd) := by
  unfold IoUring.replaceLoop
  split
  · refine ⟨⟨h.offset, h.expected, h.sorted, h.file_le⟩, .inr ⟨fd, rfl⟩, hpath, ?_⟩
    intro fd' hfd
    cases hfd
    exact ⟨hnew, hend⟩
  · refine ⟨⟨hend, h.expected, h.sorted, fun c hc => ?_⟩, .inl hnew, hpath, nofun⟩
    have := h.file_le c hc
    show c.file ≤ fd.file
    omega

theorem Rotated.reapCqe {cqe : Cqe} {cq : List Cqe} (h : Rotated init s) (hc : Core cfg s)
    (hcq : s.cq = cqe :: cq) : Rotated init (reapCqe cfg { s with cq := cq } cqe).1 := by
  have hr := hc.reaped hcq
  simp only [IoUring.reapCqe]
  cases hretry : cqe.res.retry (s.buffers cqe.buffer).size with
  | none => exact h.keep rfl rfl rfl rfl (.inl rfl) (.inl rfl)
  | some m =>
    dsimp only
    rw [resubmitBuffer_eq hr.length_lt.1]
    exact h.keep rfl rfl rfl rfl (.inl rfl) (.inl rfl)

theorem Rotated.resume {loop : Loop} (h : Rotated init s) (hlt : s.fd.file < s.fileCount)
    (hpc : s.pc = .waiting loop) : Rotated init (resume s loop) := by
  have hnew : (∀ fd, loop ≠ .replace fd) → s.fd.file + 1 = s.fileCount := by
    intro hne
    refine h.newest_of_ne fun fd hfd => hne fd ?_
    rw [hpc] at hfd
    cases hfd
    rfl
  cases loop with
  | allocate => exact h.allocateLoop (hnew fun fd => by simp)
  | sync => exact h.syncLoop (hnew fun fd => by simp)
  | replace fd =>
    obtain ⟨hlast, hend⟩ := h.replacing fd hpc
    exact h.appended.replaceLoop hlt h.path_newest hlast hend

/-- `open_at_end` opens the last file at its end, or makes the next one. -/
theorem Rotated.openAtEnd (h : Rotated init s) (hs : Session init s) (hsees : SeesEnd s .reopen) :
    Appended init (openAtEnd s).1 ∧
      (∀ p, (openAtEnd s).1.path = some p → p + 1 = (openAtEnd s).1.fileCount) ∧
      (openAtEnd s).2.file + 1 = (openAtEnd s).1.fileCount ∧
      (openAtEnd s).2.position =
        (IoUring.expected init (openAtEnd s).1.log (openAtEnd s).2.file).size := by
  obtain ⟨-, -, -, hend, -⟩ := hs.openAtEnd hsees
  unfold IoUring.openAtEnd at hend ⊢
  split
  · rename_i p hp
    simp only [hp] at hend
    exact ⟨h.appended, h.path_newest, h.path_newest p hp,
      Nat.le_antisymm (hs.stored.size_le p) hend⟩
  · refine ⟨h.appended.keep rfl rfl rfl, fun p hp => ?_, rfl, ?_⟩
    · cases hp
      rfl
    · show 0 = (IoUring.expected init s.log s.fileCount).size
      rw [hs.logged.fresh s.fileCount (Nat.le_refl _)]
      rfl

theorem step_rotated (h : Rotated init s) (hs : Session init s) (hb : Booked cfg s)
    (hsees : SeesEnd s e) (hstep : step cfg s e = some s') : Rotated init s' := by
  have hnew : s.pc = .idle → s.fd.file + 1 = s.fileCount := by
    intro hpc
    refine h.newest_of_ne fun fd hfd => ?_
    rw [hpc] at hfd
    cases hfd
  have hflush : Rotated init (flush s) := h.keep rfl rfl rfl rfl (.inl rfl) (.inl rfl)
  cases fires_of_step hstep with
  | allocateBuffer hpc _ => exact h.allocateLoop (hnew hpc)
  | submitBuffer hpc hi _ => exact h.submitBuffer hs hb.core hpc hi
  | flush _ => exact hflush
  | sync hpc => exact hflush.syncLoop (hnew hpc)
  | reopen hpc =>
    obtain ⟨happ, hpath, hlast, hend⟩ := h.openAtEnd hs hsees
    obtain ⟨hopen, -⟩ := hs.openAtEnd hsees
    have hkept : Appended init (flush (openAtEnd s).1) := happ.keep rfl rfl rfl
    exact hkept.replaceLoop hopen.logged.file_lt hpath hlast hend
  | retry _ hcq _ => exact h.reapCqe hb.core hcq
  | reap hpc hcq _ =>
    obtain ⟨-, -, hpc', -⟩ := hb.core.reapCqe hcq
    exact (h.reapCqe hb.core hcq).resume (hs.reapCqe hb.core hcq).logged.file_lt (hpc'.trans hpc)
  | waitError hpc => exact h.resume hs.logged.file_lt hpc
  | transfer _ _ => exact h.keep rfl rfl rfl rfl (.inl rfl) (.inl rfl)
  | complete _ _ => exact h.keep rfl rfl rfl rfl (.inl rfl) (.inl rfl)
  | rename => exact h.keep rfl rfl rfl rfl (.inr rfl) (.inl rfl)

/-! ## What is settled -/

/-- Where byte `n` of the stream belongs in the current file, or where the first of its
bytes does. -/
def State.mark (init : Nat → SparseFile) (s : State) (n : Nat) : Nat :=
  (init s.fd.file).size + (n - s.before.length)

/-- The first `n` submitted bytes are in the files, and no pending write is for one of
them. -/
structure Settled (init : Nat → SparseFile) (s : State) (n : Nat) : Prop where
  le : n ≤ s.stream.length
  size : s.mark init n ≤ (s.files s.fd.file).size
  pending : ∀ i ∈ s.pending, s.mark init n ≤ (s.buffers i).fileOffset

/-- The stream ends with what went to the current file. -/
theorem Appended.stream_eq (h : Appended init s) :
    s.stream = s.before ++ s.streamOf s.fd.file := by
  rw [← IoUring.stream_eq h.sorted fun c hc => Nat.lt_succ_of_le (h.file_le c hc),
    List.range_succ, List.flatMap_append, List.flatMap_singleton, State.before]

/-- A buffer that is submitted next comes after all that is settled. -/
theorem Appended.mark_le (h : Appended init s) {n : Nat} (hn : n ≤ s.stream.length) :
    s.mark init n ≤ s.offset := by
  rw [h.stream_eq, List.length_append] at hn
  rw [h.offset, h.expected, SparseFile.size_append, State.mark]
  omega

variable {n : Nat}

theorem Settled.frame (h : Settled init s n) (hlog : s'.log = s.log) (hfd : s'.fd = s.fd)
    (hsize : (s.files s.fd.file).size ≤ (s'.files s.fd.file).size)
    (hpend : ∀ i ∈ s'.pending, s.mark init n ≤ (s'.buffers i).fileOffset) :
    Settled init s' n := by
  have hstream : s'.stream = s.stream := by rw [State.stream, hlog]; rfl
  have hmark : s'.mark init n = s.mark init n := by
    rw [State.mark, State.before, show s'.streamOf = s.streamOf from funext fun f => by
      rw [State.streamOf, hlog]; rfl, hfd]
    rfl
  refine ⟨hstream ▸ h.le, ?_, hmark ▸ hpend⟩
  rw [hmark, hfd]
  exact Nat.le_trans h.size hsize

/-- With nothing pending, all that was submitted is settled. -/
theorem Settled.of_pending (hs : Session init s) (happ : Appended init s)
    (hp : s.pending = []) : Settled init s s.stream.length := by
  refine ⟨Nat.le_refl _, ?_, fun i hi => ?_⟩
  · rw [hs.stored.files_eq hp, ← happ.offset]
    exact happ.mark_le (Nat.le_refl _)
  · rw [hp] at hi
    cases hi

theorem Settled.allocateLoop (h : Settled init s n) (happ : Appended init s) :
    Settled init (allocateLoop s) n := by
  unfold IoUring.allocateLoop
  split
  · exact h.frame rfl rfl (Nat.le_refl _) h.pending
  · rename_i i free hfree
    refine h.frame rfl rfl (Nat.le_refl _) fun j hj => ?_
    show _ ≤ (Function.update s.buffers i _ j).fileOffset
    by_cases hji : j = i
    · rw [hji, Function.update_self]
      exact happ.mark_le h.le
    · rw [Function.update_of_ne hji]
      exact h.pending j hj

theorem Settled.syncLoop (h : Settled init s n) : Settled init (syncLoop s) n := by
  unfold IoUring.syncLoop
  split <;> exact h.frame rfl rfl (Nat.le_refl _) h.pending

theorem Settled.ioUringSubmit (h : Settled init s n) : Settled init (ioUringSubmit s) n := by
  refine h.frame rfl rfl (Nat.le_refl _) fun i hi => h.pending i ?_
  rw [mem_pending] at hi ⊢
  simpa [IoUring.ioUringSubmit, or_comm] using hi

theorem Settled.flush (h : Settled init s n) : Settled init (flush s) n := by
  have hs := h.ioUringSubmit
  exact hs.frame rfl rfl (Nat.le_refl _) hs.pending

/-- The held buffer is behind all that is settled. -/
theorem Settled.enqueue {i : Nat} {bytes : List UInt8} (h : Settled init s n)
    (happ : Appended init s) (hfo : (s.buffers i).fileOffset = s.offset) :
    Settled init (enqueue cfg (returnBuffer s i ((s.buffers i).fill bytes)) i
      ((s.buffers i).fill bytes)) n := by
  have hlog : (IoUring.enqueue cfg (returnBuffer s i ((s.buffers i).fill bytes)) i
      ((s.buffers i).fill bytes)).log =
        s.log ++ [⟨s.fd.file, (s.buffers i).fileOffset, bytes, s.floor⟩] := rfl
  have hbefore : (IoUring.enqueue cfg (returnBuffer s i ((s.buffers i).fill bytes)) i
      ((s.buffers i).fill bytes)).before = s.before := by
    refine List.flatMap_congr fun f hf => ?_
    have hne : f ≠ s.fd.file := Nat.ne_of_lt (List.mem_range.mp hf)
    rw [State.streamOf, hlog, List.filter_append,
      List.filter_cons_of_neg (by simpa using Ne.symm hne), List.filter_nil, List.append_nil]
    rfl
  have hmark : (IoUring.enqueue cfg (returnBuffer s i ((s.buffers i).fill bytes)) i
      ((s.buffers i).fill bytes)).mark init n = s.mark init n := by
    rw [State.mark, hbefore]
    rfl
  refine ⟨?_, hmark ▸ h.size, fun j hj => ?_⟩
  · rw [State.stream, hlog, List.map_append, List.flatten_append, List.length_append]
    exact Nat.le_trans h.le (Nat.le_add_right _ _)
  · rw [hmark]
    show _ ≤ (Function.update s.buffers i _ j).fileOffset
    by_cases hji : j = i
    · rw [hji, Function.update_self]
      show _ ≤ (s.buffers i).fileOffset
      rw [hfo]
      exact happ.mark_le h.le
    · rw [Function.update_of_ne hji]
      refine h.pending j ?_
      rw [mem_pending] at hj ⊢
      rcases hj with ⟨q, hq | hq, rfl⟩ | hc
      · rcases List.mem_append.mp hq with hq | hq
        · exact .inl ⟨q, .inl hq, rfl⟩
        · rw [List.mem_singleton.mp hq] at hji
          exact absurd rfl hji
      · exact .inl ⟨q, .inr hq, rfl⟩
      · exact .inr hc

theorem Settled.submitBuffer {i : Nat} {bytes : List UInt8} (h : Settled init s n)
    (happ : Appended init s) (hc : Core cfg s) (hfo : (s.buffers i).fileOffset = s.offset) :
    Settled init (submitBuffer cfg s i bytes) n := by
  rw [submitBuffer_eq hc.length_sq_lt]
  have hq : Settled init (IoUring.enqueue cfg (returnBuffer s i ((s.buffers i).fill bytes)) i
      ((s.buffers i).fill bytes)) n := h.enqueue happ hfo
  unfold submitBatch
  split
  · exact hq.ioUringSubmit
  · exact hq

/-- What remains of a buffer is further on in the file. -/
theorem Settled.reapCqe {cqe : Cqe} {cq : List Cqe} (h : Settled init s n) (hc : Core cfg s)
    (hcq : s.cq = cqe :: cq) : Settled init (reapCqe cfg { s with cq := cq } cqe).1 n := by
  have hr := hc.reaped hcq
  have hrest : ∀ j ∈ ({ s with cq := cq } : State).pending, j ∈ s.pending := by
    intro j hj
    rw [mem_pending] at hj ⊢
    rcases hj with hq | ⟨c, hc, rfl⟩
    · exact .inl hq
    · exact .inr ⟨c, hcq ▸ List.mem_cons_of_mem _ hc, rfl⟩
  have hself := h.pending cqe.buffer
    (mem_pending.mpr (.inr ⟨cqe, hcq ▸ List.mem_cons_self, rfl⟩))
  simp only [IoUring.reapCqe]
  cases hretry : cqe.res.retry (s.buffers cqe.buffer).size with
  | none => exact h.frame rfl rfl (Nat.le_refl _) fun j hj => h.pending j (hrest j hj)
  | some m =>
    dsimp only
    rw [resubmitBuffer_eq hr.length_lt.1]
    refine Settled.ioUringSubmit (h.frame rfl rfl (Nat.le_refl _) fun j hj => ?_)
    show _ ≤ (Function.update s.buffers cqe.buffer _ j).fileOffset
    by_cases hji : j = cqe.buffer
    · rw [hji, Function.update_self]
      exact Nat.le_trans hself (Nat.le_add_right _ _)
    · rw [Function.update_of_ne hji]
      refine h.pending j (hrest j ?_)
      rw [mem_pending] at hj ⊢
      rcases hj with ⟨q, hq | hq, rfl⟩ | hc
      · rcases List.mem_append.mp hq with hq | hq
        · exact .inl ⟨q, .inl hq, rfl⟩
        · rw [List.mem_singleton.mp hq] at hji
          exact absurd rfl hji
      · exact .inl ⟨q, .inr hq, rfl⟩
      · exact .inr hc

/-- Nothing is pending when the file changes, and a new file has none of the bytes. -/
theorem Settled.replaceLoop {fd : Descriptor} (h : Settled init s n) (happ : Appended init s)
    (hc : Core cfg s) (hinit : ∀ f, f ≠ 0 → init f = .empty) (hle : s.fd.file ≤ fd.file) :
    Settled init (replaceLoop s fd) n := by
  unfold IoUring.replaceLoop
  split
  · exact h.frame rfl rfl (Nat.le_refl _) h.pending
  · rename_i hzero
    have hp := hc.pending_eq_nil hzero
    refine ⟨h.le, ?_, fun i hi => ?_⟩
    · rcases Nat.eq_or_lt_of_le hle with heq | hlt
      · show (init fd.file).size + (n - ((List.range fd.file).flatMap s.streamOf).length) ≤
          (s.files fd.file).size
        rw [← heq]
        exact h.size
      · show (init fd.file).size + (n - ((List.range fd.file).flatMap s.streamOf).length) ≤ _
        rw [hinit _ (by omega), stream_eq happ.sorted fun c hc => ?_]
        · show 0 + _ ≤ _
          have := h.le
          omega
        · exact Nat.lt_of_le_of_lt (happ.file_le c hc) hlt
    · have hi : i ∈ s.pending := hi
      rw [hp] at hi
      cases hi

theorem Settled.transfer {sqe : Sqe} {m : Nat} (h : Settled init s n) :
    Settled init (transfer s sqe m) n := by
  refine h.frame rfl rfl ?_ h.pending
  show _ ≤ (Function.update s.files sqe.file _ s.fd.file).size
  by_cases hf : s.fd.file = sqe.file
  · rw [hf, Function.update_self]
    exact SparseFile.size_le_pwrite
  · exact Nat.le_of_eq (congrArg SparseFile.size (Function.update_of_ne hf _ _).symm)

theorem Settled.complete {j : Nat} {sqe : Sqe} {res : Res} (h : Settled init s n)
    (hj : s.inflight[j]? = some sqe) : Settled init (complete s j sqe res) n := by
  have ht : Settled init (IoUring.transfer s sqe res.count) n := h.transfer
  refine ht.frame rfl rfl (Nat.le_refl _) fun i hi => ht.pending i ?_
  have hi : i ∈ s.sq.map Sqe.buffer ++ (s.inflight.eraseIdx j).map Sqe.buffer ++
      (s.cq ++ [Cqe.mk sqe.buffer res]).map Cqe.buffer := hi
  show i ∈ s.sq.map Sqe.buffer ++ s.inflight.map Sqe.buffer ++ s.cq.map Cqe.buffer
  simp only [List.mem_append, List.map_append, List.map_cons, List.map_nil,
    List.mem_singleton] at hi ⊢
  rcases hi with (hi | hi) | hi | hi
  · exact .inl (.inl hi)
  · exact .inl (.inr (List.map_subset _ (List.eraseIdx_subset) hi))
  · exact .inr hi
  · subst hi
    exact .inl (.inr (List.mem_map_of_mem (List.mem_of_getElem? hj)))

/-- Making a file leaves the current one alone. -/
theorem Settled.openAtEnd (h : Settled init s n) (hlt : s.fd.file < s.fileCount) :
    Settled init (openAtEnd s).1 n := by
  unfold IoUring.openAtEnd
  split
  · exact h
  · refine h.frame rfl rfl ?_ h.pending
    show _ ≤ (Function.update s.files s.fileCount _ s.fd.file).size
    exact Nat.le_of_eq
      (congrArg SparseFile.size (Function.update_of_ne (Nat.ne_of_lt hlt) _ _).symm)

theorem Settled.resume {loop : Loop} (h : Settled init s n) (hr : Rotated init s)
    (hc : Core cfg s) (hlt : s.fd.file < s.fileCount) (hinit : ∀ f, f ≠ 0 → init f = .empty)
    (hpc : s.pc = .waiting loop) : Settled init (resume s loop) n := by
  cases loop with
  | allocate => exact h.allocateLoop hr.appended
  | sync => exact h.syncLoop
  | replace fd =>
    -- the file that the waiting `reopen` has opened is the last one
    obtain ⟨hlast, -⟩ := hr.replacing fd hpc
    exact h.replaceLoop hr.appended hc hinit (by omega)

/-! ## Runs -/

/-- What holds of a storage whose files are rotated. -/
structure Rotation (cfg : Config) (file : SparseFile) (s : State) : Prop where
  booked : Booked cfg s
  session : Session (initial cfg file file.size).files s
  rotated : Rotated (initial cfg file file.size).files s

theorem initial_files_of_ne {file : SparseFile} {position f : Nat} (hf : f ≠ 0) :
    (initial cfg file position).files f = .empty := by
  show (if f = 0 then file else .empty) = _
  rw [if_neg hf]

theorem Rotation.of_initial (file : SparseFile) :
    Rotation cfg file (initial cfg file file.size) :=
  ⟨initial_booked file _, initial_session file _, initial_rotated file⟩

variable {file : SparseFile}

theorem Rotation.step (h : Rotation cfg file s) (ha : Assumed s e) (hsees : SeesEnd s e)
    (hstep : step cfg s e = some s') : Rotation cfg file s' :=
  ⟨step_booked h.booked hstep, step_session h.session h.booked ha hsees hstep,
    step_rotated h.rotated h.session h.booked hsees hstep⟩

theorem Rotation.of_reachable
    (h : (machine cfg file file.size).ReachableBy (fun s e => Assumed s e ∧ SeesEnd s e) s) :
    Rotation cfg file s := by
  refine Machine.ReachableBy.invariant (I := Rotation cfg file) h ?_ ?_
  · rintro s rfl
    exact .of_initial file
  · rintro s e s' hr ⟨ha, hsees⟩ hs
    exact hr.step ha hsees hs

/-- **What is settled stays settled.** -/
theorem Settled.step (h : Settled (initial cfg file file.size).files s n)
    (hr : Rotation cfg file s) (hsees : SeesEnd s e) (hstep : step cfg s e = some s') :
    Settled (initial cfg file file.size).files s' n := by
  have hinit : ∀ f, f ≠ 0 → (initial cfg file file.size).files f = .empty := fun _ =>
    initial_files_of_ne
  have hc := hr.booked.core
  have happ := hr.rotated.appended
  cases fires_of_step hstep with
  | allocateBuffer _ _ => exact h.allocateLoop happ
  | submitBuffer _ hi _ => exact h.submitBuffer happ hc (hr.session.held _ hi).2
  | flush _ => exact h.flush
  | sync _ => exact h.flush.syncLoop
  | reopen _ =>
    obtain ⟨happ', -, hlast, -⟩ := hr.rotated.openAtEnd hr.session hsees
    obtain ⟨hopen, -⟩ := hr.session.openAtEnd hsees
    have hle : (IoUring.openAtEnd s).1.fd.file ≤ (IoUring.openAtEnd s).2.file := by
      have := hopen.logged.file_lt
      omega
    exact (h.openAtEnd hr.session.logged.file_lt).flush.replaceLoop (happ'.keep rfl rfl rfl)
      (openAtEnd_core hc).flush hinit hle
  | retry _ hcq _ => exact h.reapCqe hc hcq
  | reap hpc hcq _ =>
    obtain ⟨hcore, -, hpc', -⟩ := hc.reapCqe hcq
    exact (h.reapCqe hc hcq).resume (hr.rotated.reapCqe hc hcq) hcore
      (hr.session.reapCqe hc hcq).logged.file_lt hinit (hpc'.trans hpc)
  | waitError hpc => exact h.resume hr.rotated hc hr.session.logged.file_lt hinit hpc
  | transfer _ _ => exact h.transfer
  | complete hj _ => exact h.complete hj
  | rename => exact h.frame rfl rfl (Nat.le_refl _) h.pending

/-- The bytes an event submits. -/
def Event.bytes : Event → List UInt8
  | .submitBuffer bytes => bytes
  | _ => []

theorem log_getSqe (s : State) : (getSqe cfg s).log = s.log := by
  unfold getSqe
  split <;> rfl

theorem log_submitBuffer (s : State) (i : Nat) (bytes : List UInt8) :
    (IoUring.submitBuffer cfg s i bytes).log =
      s.log ++ [⟨s.fd.file, (s.buffers i).fileOffset, bytes, s.floor⟩] := by
  have hbatch : ∀ t : State, (submitBatch cfg t).log = t.log := by
    intro t
    unfold submitBatch
    split <;> rfl
  simp only [IoUring.submitBuffer, hbatch]
  unfold getSqe
  split <;> rfl

theorem log_reapCqe (s : State) (cqe : Cqe) : (reapCqe cfg s cqe).1.log = s.log := by
  simp only [IoUring.reapCqe]
  cases cqe.res.retry (s.buffers cqe.buffer).size with
  | none => rfl
  | some m => exact log_getSqe _

theorem log_resume (s : State) (loop : Loop) : (resume s loop).log = s.log := by
  cases loop with
  | allocate =>
    show (IoUring.allocateLoop s).log = s.log
    unfold IoUring.allocateLoop
    split <;> rfl
  | sync =>
    show (IoUring.syncLoop s).log = s.log
    unfold IoUring.syncLoop
    split <;> rfl
  | replace fd =>
    show (IoUring.replaceLoop s fd).log = s.log
    unfold IoUring.replaceLoop
    split <;> rfl

/-- The stream grows by what is submitted. -/
theorem stream_step (hstep : step cfg s e = some s') : s'.stream = s.stream ++ e.bytes := by
  have hkeep : ∀ {t : State}, t.log = s.log → t.stream = s.stream ++ [] := by
    intro t ht
    rw [List.append_nil, State.stream, ht]
    rfl
  cases fires_of_step hstep with
  | allocateBuffer => exact hkeep (log_resume s .allocate)
  | submitBuffer =>
    rw [State.stream, log_submitBuffer, List.map_append, List.flatten_append, List.map_singleton,
      List.flatten_singleton]
    rfl
  | flush => exact hkeep rfl
  | sync => exact hkeep (log_resume (IoUring.flush s) .sync)
  | reopen =>
    refine hkeep ((log_resume (IoUring.flush (IoUring.openAtEnd s).1)
      (.replace (IoUring.openAtEnd s).2)).trans ?_)
    show (IoUring.openAtEnd s).1.log = s.log
    unfold IoUring.openAtEnd
    split <;> rfl
  | retry => exact hkeep (log_reapCqe _ _)
  | reap => exact hkeep ((log_resume _ _).trans (log_reapCqe _ _))
  | waitError => exact hkeep (log_resume s _)
  | transfer | complete | rename => exact hkeep rfl

/-! ## The disk -/

/-- The files before `m`, and what was in file `m` to begin with. -/
theorem disk_before (file : SparseFile) (stream : Nat → List UInt8) (m : Nat) :
    (List.range m).flatMap (fun f => ((initial cfg file file.size).files f).contents ++ stream f) ++
      ((initial cfg file file.size).files m).contents =
        file.contents ++ (List.range m).flatMap stream := by
  induction m with
  | zero => exact (List.append_nil _).symm
  | succ m ih =>
    rw [List.range_succ, List.flatMap_append, List.flatMap_append, List.flatMap_singleton,
      List.flatMap_singleton, initial_files_of_ne (Nat.succ_ne_zero m), SparseFile.contents_empty,
      List.append_nil, ← List.append_assoc, ih, List.append_assoc]

/-- A file that is not the current one is complete. -/
theorem Rotation.files_eq (h : Rotation cfg file s) {f : Nat} (hf : f ≠ s.fd.file) :
    s.files f = ((initial cfg file file.size).files f).append (s.streamOf f) := by
  rw [← h.rotated.appended.expected f]
  have hst := h.session.stored
  refine SparseFile.ext (funext fun x => (hst.bytes f x).resolve_right fun hp => hf hp.1) ?_
  exact Nat.le_antisymm (hst.size_le f) ((hst.le_size f).resolve_right fun hp => hf hp.1)

theorem take_append_begins (xs ys : List UInt8) (n : Nat) :
    (xs ++ ys).take n <+: xs ++ ys.take (n - xs.length) := by
  rw [List.take_append]
  rcases Nat.le_total n xs.length with hle | hle
  · rw [Nat.sub_eq_zero_of_le hle, List.take_zero, List.append_nil, List.append_nil]
    exact List.take_prefix _ _
  · have htake : xs.take n = xs := List.take_of_length_le hle
    exact htake.symm ▸ List.prefix_rfl

/-- What is settled is at the beginning of the disk. -/
theorem Settled.prefix_disk (h : Settled (initial cfg file file.size).files s n)
    (hr : Rotation cfg file s) : file.contents ++ s.stream.take n <+: s.disk := by
  have happ := hr.rotated.appended
  obtain ⟨k, hk⟩ := Nat.exists_eq_add_of_le hr.session.logged.file_lt
  -- the settled bytes of the current file
  have hcur : ((initial cfg file file.size).files s.fd.file).contents ++
      (s.streamOf s.fd.file).take (n - s.before.length) <+: (s.files s.fd.file).contents := by
    have hpre : ((expected (initial cfg file file.size).files s.log s.fd.file).contents).take
        (s.mark (initial cfg file file.size).files n) <+: (s.files s.fd.file).contents := by
      refine SparseFile.take_contents_prefix ?_ h.size fun x hx => ?_
      · rw [← happ.offset]
        exact happ.mark_le h.le
      · rcases hr.session.stored.bytes s.fd.file x with heq | ⟨-, i, hi, j, -, rfl⟩
        · exact heq
        · have := h.pending i hi
          omega
    rwa [happ.expected, SparseFile.contents_append, State.mark, ← SparseFile.length_contents,
      List.take_length_add_append] at hpre
  have hbefore : (List.range s.fd.file).flatMap (fun f => (s.files f).contents) =
      (List.range s.fd.file).flatMap fun f =>
        ((initial cfg file file.size).files f).contents ++ s.streamOf f := by
    refine List.flatMap_congr fun f hf => ?_
    rw [hr.files_eq (Nat.ne_of_lt (List.mem_range.mp hf)), SparseFile.contents_append]
  have hdisk : (List.range s.fd.file).flatMap (fun f => (s.files f).contents) ++
      (s.files s.fd.file).contents <+: s.disk := by
    rw [State.disk, hk, List.range_add, List.flatMap_append, List.range_succ, List.flatMap_append,
      List.flatMap_singleton]
    exact List.prefix_append _ _
  refine List.IsPrefix.trans ?_ hdisk
  have hcurrent := (List.prefix_append_right_inj ((List.range s.fd.file).flatMap fun f =>
    (s.files f).contents)).mpr hcur
  refine List.IsPrefix.trans ?_ hcurrent
  rw [hbefore, ← List.append_assoc, disk_before, happ.stream_eq, List.append_assoc]
  exact (List.prefix_append_right_inj _).mpr (take_append_begins _ _ _)

/-- With nothing pending, the disk has what was there and all that was submitted. -/
theorem Rotation.disk_eq (h : Rotation cfg file s) (hp : s.pending = [])
    (hnew : s.fd.file + 1 = s.fileCount) : s.disk = file.contents ++ s.stream := by
  have happ := h.rotated.appended
  have hfiles : ∀ f, (s.files f).contents =
      ((initial cfg file file.size).files f).contents ++ s.streamOf f := by
    intro f
    rw [h.session.stored.files_eq hp, happ.expected, SparseFile.contents_append]
  rw [State.disk, ← hnew, List.range_succ, List.flatMap_append, List.flatMap_singleton,
    happ.stream_eq, hfiles, ← List.append_assoc, ← List.append_assoc]
  refine congrArg (· ++ _) ?_
  rw [List.flatMap_congr fun f _ => hfiles f]
  exact disk_before file s.streamOf s.fd.file

/-- **What `sync` has written stays on disk, in order.**  The log is open at its end.  In
every run in which writes do not fail for good, no buffer is held across a `reopen`, and
every `reopen` finds the log renamed, or as long as the pending writes will make it: when
`sync` returns, the files one after the other are what the log had at first and all the
submitted buffers; and whatever is submitted, completed, renamed and reopened after that
in such a run, they go on beginning with it. -/
theorem sync_settles
    (h : (machine cfg file file.size).ReachableBy (fun s e => Assumed s e ∧ SeesEnd s e) s) :
    ∀ e s', Assumed s e → SeesEnd s e → SyncReturns cfg s e s' →
      s'.disk = file.contents ++ s'.stream ∧
      ∀ t, ((machine cfg file file.size).after s').ReachableBy
          (fun s e => Assumed s e ∧ SeesEnd s e) t → file.contents ++ s'.stream <+: t.disk := by
  intro e s' ha hsees hret
  have hr := Rotation.of_reachable h
  have hr' := hr.step ha hsees hret.step
  have hp := hret.pending hr.booked
  refine ⟨hr'.disk_eq hp (hr'.rotated.newest_of_ne fun fd hfd => ?_), fun t ht => ?_⟩
  · rw [hret.idle] at hfd
    cases hfd
  · have hset := Settled.of_pending hr'.session hr'.rotated.appended hp
    have hinv : Rotation cfg file t ∧
        Settled (initial cfg file file.size).files t s'.stream.length ∧ s'.stream <+: t.stream := by
      refine Machine.ReachableBy.invariant (I := fun t => Rotation cfg file t ∧
        Settled (initial cfg file file.size).files t s'.stream.length ∧ s'.stream <+: t.stream)
          ht ?_ ?_
      · rintro t rfl
        exact ⟨hr', hset, List.prefix_rfl⟩
      · rintro t e u ⟨hrt, hsett, hpre⟩ ⟨ha, hsees⟩ hs
        exact ⟨hrt.step ha hsees hs, hsett.step hrt hsees hs,
          hpre.trans (stream_step hs ▸ List.prefix_append _ _)⟩
    obtain ⟨hrt, hsett, hpre⟩ := hinv
    have := hsett.prefix_disk hrt
    rwa [← List.prefix_iff_eq_take.mp hpre] at this

/-- A buffer is written out, the log is renamed and reopened, another buffer is
submitted, and `sync` is about to return. -/
def rotate : List Event :=
  [.allocateBuffer, .submitBuffer [1], .sync, .complete 0 (.wrote 1), .reap, .rename, .reopen,
    .allocateBuffer, .submitBuffer [2], .sync, .complete 0 (.wrote 1)]

/-- Each of two files then has a buffer, after the byte that was there; and they keep them
while a third is submitted. -/
theorem sync_settles_rotate : ∃ s s' t : State,
    (machine pair (SparseFile.empty.append [0]) 1).ReachableBy
      (fun s e => Assumed s e ∧ SeesEnd s e) s ∧ SyncReturns pair s .reap s' ∧ s'.fileCount = 2 ∧
    s'.disk = [0, 1, 2] ∧ t.stream = [1, 2, 3] ∧ [0, 1, 2] <+: t.disk := by
  have hrun : ((machine pair (SparseFile.empty.append [0]) 1).runBy
      (fun s e => Assumed s e ∧ SeesEnd s e) (initial pair (SparseFile.empty.append [0]) 1)
      rotate).any (fun s => s.pc = .waiting .sync && (step pair s .reap).any fun s' =>
        s'.pc = .idle && s'.fileCount = 2 && s'.stream = [1, 2] &&
          (((machine pair (SparseFile.empty.append [0]) 1).after s').runBy
            (fun s e => Assumed s e ∧ SeesEnd s e) s' [.allocateBuffer, .submitBuffer [3]]).any
              fun t => t.stream = [1, 2, 3]) = true := by
    decide +kernel
  obtain ⟨s, hs, heq⟩ := (Option.any_eq_true ..).mp hrun
  have hreach := Machine.ReachableBy.runBy (.start rfl) hs
  simp only [Bool.and_eq_true, decide_eq_true_eq] at heq
  obtain ⟨hpc, hany⟩ := heq
  obtain ⟨s', hs', heq'⟩ := (Option.any_eq_true ..).mp hany
  simp only [Bool.and_eq_true, decide_eq_true_eq] at heq'
  obtain ⟨⟨⟨hidle, hcount⟩, hstream⟩, hnext⟩ := heq'
  obtain ⟨t, ht, hlast⟩ := (Option.any_eq_true ..).mp hnext
  obtain ⟨hdisk, hkept⟩ :=
    sync_settles hreach .reap s' trivial trivial ⟨hs', .inr hpc, hidle⟩
  have hfile : (SparseFile.empty.append [0]).contents = [0] := rfl
  rw [hstream, hfile] at hdisk hkept
  exact ⟨s, s', t, hreach, ⟨hs', .inr hpc, hidle⟩, hcount, hdisk, of_decide_eq_true hlast,
    hkept t (Machine.ReachableBy.runBy (.start rfl) ht)⟩

end Xtr.IoUring
