import Xtr.IoUringData

/-!
# Runs of the io_uring storage

`Stored` over whole runs.  Besides what is pending, a run has to keep the submitted
buffers apart: each goes to the offset where the last one ended (`Logged.below`), and
a reopened file is taken up at a position no earlier than its expected end
(`Session.replacing`).  The second is a condition on the run, `SeesEnd`, because
`reopen` asks for the position before it waits for the writes.

When `sync` returns nothing is pending, so the files are the expected ones.  Without
a `reopen` these are the first file with all the submitted buffers, one after the
other (`sync_writes_stream`).
-/
namespace Xtr.IoUring
variable {cfg : Config} {s s' : State} {e : Event}

/-! ## Conditions on runs -/

def Res.isFailed : Res → Bool
  | .failed _ => true
  | _ => false

/-- Writes do not fail for good, and no buffer is held across a `reopen`. -/
def Assumed (s : State) : Event → Prop
  | .complete _ res => res.isFailed = false
  | .reopen => s.held = none
  | _ => True

/-- When the path still names the current file, `open_at_end` finds its end at or
behind that of every pending write. -/
def SeesEnd (s : State) : Event → Prop
  | .reopen => s.path = some s.fd.file → ∀ i ∈ s.pending, 0 < (s.buffers i).size →
      (s.buffers i).fileOffset + (s.buffers i).size ≤ (s.files s.fd.file).size
  | _ => True

/-- Writes do not fail for good, and there is no `reopen`. -/
def Appends : Event → Prop
  | .complete _ res => res.isFailed = false
  | .reopen => False
  | _ => True

instance : Decidable (Assumed s e) :=
  match e with
  | .complete _ res => inferInstanceAs (Decidable (res.isFailed = false))
  | .reopen => inferInstanceAs (Decidable (s.held = none))
  | .allocateBuffer | .submitBuffer _ | .flush | .sync | .reap | .waitError | .transfer _ _
  | .rename => .isTrue trivial

instance : Decidable (SeesEnd s e) :=
  match e with
  | .reopen => inferInstanceAs (Decidable (s.path = some s.fd.file → ∀ i ∈ s.pending,
      0 < (s.buffers i).size →
        (s.buffers i).fileOffset + (s.buffers i).size ≤ (s.files s.fd.file).size))
  | .allocateBuffer | .submitBuffer _ | .flush | .sync | .reap | .waitError | .transfer _ _
  | .complete _ _ | .rename => .isTrue trivial

instance : Decidable (Appends e) :=
  match e with
  | .complete _ res => inferInstanceAs (Decidable (res.isFailed = false))
  | .reopen => .isFalse id
  | .allocateBuffer | .submitBuffer _ | .flush | .sync | .reap | .waitError | .transfer _ _
  | .rename => .isTrue trivial

theorem Appends.assumed (h : Appends e) : Assumed s e ∧ SeesEnd s e := by
  cases e with
  | reopen => exact h.elim
  | complete j res => exact ⟨h, trivial⟩
  | _ => exact ⟨trivial, trivial⟩

/-! ## The submitted buffers -/

/-- No byte is in both. -/
def Chunk.Disjoint (c d : Chunk) : Prop :=
  c.file = d.file → ∀ k, k < c.bytes.length → ∀ l, l < d.bytes.length → c.start + k ≠ d.start + l

/-- The submitted buffers in the expected files: they are there, apart from each
other, and those of the current file end before `offset_`. -/
structure Logged (init : Nat → SparseFile) (log : List Chunk) (file offset floor fileCount : Nat) :
    Prop where
  below : ∀ c ∈ log, c.file = file → ∀ k, k < c.bytes.length → c.start + k < offset
  inside : ∀ c ∈ log, ∀ k, k < c.bytes.length → c.start + k < (expected init log c.file).size
  kept : ∀ c ∈ log, (expected init log c.file).pread c.start c.bytes.length = c.bytes
  disjoint : log.Pairwise Chunk.Disjoint
  floor_le_start : ∀ c ∈ log, c.floor ≤ c.start
  floor_le : floor ≤ offset
  fresh : ∀ f, fileCount ≤ f → expected init log f = .empty
  file_lt : file < fileCount

/-- One more, at `offset_`. -/
theorem Logged.submit {init : Nat → SparseFile} {log : List Chunk}
    {file offset floor fileCount : Nat} (h : Logged init log file offset floor fileCount)
    {c : Chunk} (hfile : c.file = file) (hstart : c.start = offset) (hfloor : c.floor = floor) :
    Logged init (log ++ [c]) file (offset + c.bytes.length) floor fileCount := by
  have hcase : ∀ {P : Chunk → Prop}, (∀ d ∈ log, P d) → P c → ∀ d ∈ log ++ [c], P d := by
    intro P hlog hc d hd
    rcases List.mem_append.mp hd with hd | hd
    · exact hlog d hd
    · exact List.mem_singleton.mp hd ▸ hc
  refine ⟨hcase ?_ ?_, hcase ?_ ?_, hcase ?_ ?_, ?_, hcase h.floor_le_start ?_, ?_, ?_, h.file_lt⟩
  · intro d hd hdf k hk
    have := h.below d hd hdf k hk
    omega
  · intro _ k hk
    omega
  · intro d hd k hk
    rw [expected_concat]
    exact Nat.lt_of_lt_of_le (h.inside d hd k hk) (c.size_le_write _ _)
  · intro k hk
    rw [expected_concat, c.write_self]
    have hne : c.bytes ≠ [] := List.length_pos_iff.mp (by omega)
    have hend : c.start + c.bytes.length ≤ _ :=
      SparseFile.end_le_pwrite (f := expected init log c.file) hne
    omega
  · -- the new bytes are behind those of every buffer of the same file
    intro d hd
    rw [expected_concat]
    refine Eq.trans (SparseFile.pread_congr fun x hx hlt => ?_) (h.kept d hd)
    refine Chunk.write_data_of_outside fun hdc => .inl ?_
    have := h.below d hd (hdc.trans hfile) (x - d.start) (by omega)
    omega
  · rw [expected_concat, c.write_self]
    exact SparseFile.pread_pwrite_self
  · refine List.pairwise_append.mpr ⟨h.disjoint, List.pairwise_singleton _ _, ?_⟩
    intro d hd c' hc' hdc k hk l hl
    rw [List.mem_singleton] at hc'
    subst hc'
    have := h.below d hd (hdc.trans hfile) k hk
    omega
  · rw [hfloor, hstart]
    exact h.floor_le
  · exact Nat.le_trans h.floor_le (Nat.le_add_right _ _)
  · intro f hf
    rw [expected_concat, c.write_of_ne _ ?_]
    · exact h.fresh f hf
    · have := h.file_lt
      omega

/-- **The invariant of runs.** -/
structure Session (init : Nat → SparseFile) (s : State) : Prop where
  stored : Stored (expected init s.log) s
  logged : Logged init s.log s.fd.file s.offset s.floor s.fileCount
  held : ∀ i, s.held = some i → (s.buffers i).offset = 0 ∧ (s.buffers i).fileOffset = s.offset
  path_lt : ∀ p, s.path = some p → p < s.fileCount
  replacing : ∀ fd, s.pc = .waiting (.replace fd) → s.held = none ∧ fd.file < s.fileCount ∧
    (expected init s.log fd.file).size ≤ fd.position

variable {init : Nat → SparseFile}

theorem initial_session (file : SparseFile) (position : Nat) :
    Session (initial cfg file position).files (initial cfg file position) where
  stored := by
    refine ⟨fun q hq => ?_, fun i hi => ?_, fun c hc => ?_, fun f x => .inl rfl,
      fun f => Nat.le_refl _, fun f => .inl (Nat.le_refl _)⟩
    · rcases hq with hq | hq <;> cases hq
    · cases hi
    · cases hc
  logged := by
    refine ⟨fun c hc => ?_, fun c hc => ?_, fun c hc => ?_, .nil, fun c hc => ?_, Nat.zero_le _,
      fun f hf => ?_, Nat.one_pos⟩
    · cases hc
    · cases hc
    · cases hc
    · cases hc
    · have hne : f ≠ 0 := Nat.pos_iff_ne_zero.mp hf
      show (if f = 0 then file else .empty) = _
      rw [if_neg hne]
  held i hi := by cases hi
  path_lt p hp := by
    cases hp
    exact Nat.one_pos
  replacing fd hfd := by cases hfd

/-! ## Steps -/

/-- The loops, once they are through. -/
theorem Session.allocateLoop (h : Session init s) (hc : Core cfg s) :
    Session init (allocateLoop s) := by
  unfold IoUring.allocateLoop
  split
  · exact ⟨h.stored.frame (fun _ _ => rfl) rfl rfl rfl (fun _ hq => hq) rfl (fun _ => Iff.rfl),
      h.logged, h.held, h.path_lt, fun fd hfd => by cases hfd⟩
  · rename_i i free hfree
    have hne : ∀ j ∈ s.pending, j ≠ i := by
      rintro j hj rfl
      have hcount := List.nodup_iff_count.mp hc.nodup_homes j
      have hpos := List.count_pos_iff.mpr hj
      rw [State.homes, hfree] at hcount
      simp only [List.count_append, List.count_cons_self] at hcount
      omega
    refine ⟨h.stored.frame (fun j hj => Function.update_of_ne (hne j hj) ..) rfl rfl rfl
      (fun _ hq => hq) rfl (fun _ => Iff.rfl), h.logged, ?_, h.path_lt, fun fd hfd => by cases hfd⟩
    intro j hj
    cases hj
    show (Function.update s.buffers i _ i).offset = 0 ∧
      (Function.update s.buffers i _ i).fileOffset = s.offset
    rw [Function.update_self]
    exact ⟨rfl, rfl⟩

theorem Session.syncLoop (h : Session init s) : Session init (syncLoop s) := by
  unfold IoUring.syncLoop
  split <;>
    exact ⟨h.stored.frame (fun _ _ => rfl) rfl rfl rfl (fun _ hq => hq) rfl (fun _ => Iff.rfl),
      h.logged, h.held, h.path_lt, fun fd hfd => by cases hfd⟩

/-- With nothing pending the current file may change. -/
theorem Stored.change_fd {exp : Nat → SparseFile} (h : Stored exp s) (hp : s.pending = [])
    {s' : State} (hsq : s'.sq = s.sq) (hin : s'.inflight = s.inflight) (hcq : s'.cq = s.cq)
    (hfiles : s'.files = s.files) : Stored exp s' := by
  have hpend : s'.pending = [] := by rw [State.pending, hsq, hin, hcq]; exact hp
  refine ⟨?_, ?_, ?_, ?_, ?_, ?_⟩
  · intro q hq
    have := mem_pending.mpr (.inl ⟨q, hq, rfl⟩)
    rw [hpend] at this
    cases this
  · intro i hi
    rw [hpend] at hi
    cases hi
  · intro c hc
    have := mem_pending.mpr (.inr ⟨c, hc, rfl⟩)
    rw [hpend] at this
    cases this
  · intro f x
    rw [hfiles, h.files_eq hp]
    exact .inl rfl
  · intro f
    rw [hfiles]
    exact h.size_le f
  · intro f
    rw [hfiles, h.files_eq hp]
    exact .inl (Nat.le_refl _)

theorem Core.pending_eq_nil (h : Core cfg s) (hzero : ¬ 0 < s.pendingCqeCount) :
    s.pending = [] := by
  rw [pos_iff_toNat, h.count] at hzero
  exact List.length_eq_zero_iff.mp (Nat.eq_zero_of_not_pos hzero)

theorem Session.replaceLoop {fd : Descriptor} (h : Session init s) (hc : Core cfg s)
    (hheld : s.held = none) (hlt : fd.file < s.fileCount)
    (hend : (expected init s.log fd.file).size ≤ fd.position) :
    Session init (replaceLoop s fd) := by
  unfold IoUring.replaceLoop
  split
  · refine ⟨h.stored.frame (fun _ _ => rfl) rfl rfl rfl (fun _ hq => hq) rfl (fun _ => Iff.rfl),
      h.logged, h.held, h.path_lt, ?_⟩
    intro fd' hfd
    cases hfd
    exact ⟨hheld, hlt, hend⟩
  · rename_i hzero
    have hp := hc.pending_eq_nil hzero
    refine ⟨h.stored.change_fd hp rfl rfl rfl rfl, ?_, ?_, h.path_lt, fun fd hfd => by cases hfd⟩
    · refine { h.logged with below := ?_, floor_le := ?_, file_lt := hlt }
      · intro c hc hfile k hk
        have hin := h.logged.inside c hc k hk
        rw [show c.file = fd.file from hfile] at hin
        exact Nat.lt_of_lt_of_le hin hend
      · show (s.files fd.file).size ≤ fd.position
        exact Nat.le_trans (h.stored.size_le _) hend
    · intro i hi
      exact absurd (hheld.symm.trans hi) (by simp)

theorem Session.flush (h : Session init s) : Session init (flush s) :=
  ⟨h.stored.flush, h.logged, h.held, h.path_lt, h.replacing⟩

theorem Session.submitBuffer {i : Nat} {bytes : List UInt8} (h : Session init s) (hc : Core cfg s)
    (hpc : s.pc = .idle) (hi : s.held = some i) : Session init (submitBuffer cfg s i bytes) := by
  obtain ⟨hoff, hfo⟩ := h.held i hi
  have hnot : i ∉ s.pending := by
    intro hmem
    have hcount := List.nodup_iff_count.mp hc.nodup_homes i
    have hpos := List.count_pos_iff.mpr hmem
    rw [State.homes, hi, Option.toList_some] at hcount
    simp only [List.count_append, List.count_cons_self] at hcount
    omega
  rw [submitBuffer_eq hc.length_sq_lt]
  -- the write, as it is recorded
  let c : Chunk := ⟨s.fd.file, (s.buffers i).fileOffset, bytes, s.floor⟩
  have hst : Stored (expected init (s.log ++ [c])) (enqueue cfg
      (returnBuffer s i ((s.buffers i).fill bytes)) i ((s.buffers i).fill bytes)) := by
    rw [expected_concat]
    exact h.stored.enqueue (c := c) hnot rfl hfo hoff hfo rfl
  have hlog : Logged init (s.log ++ [c]) s.fd.file (s.offset + bytes.length) s.floor s.fileCount :=
    h.logged.submit (c := c) rfl hfo rfl
  have hnone : ∀ fd, s.pc = .waiting (.replace fd) → False := by
    intro fd hfd
    rw [hpc] at hfd
    cases hfd
  unfold submitBatch
  split
  · exact ⟨hst.ioUringSubmit, hlog, fun j hj => (by cases hj), h.path_lt,
      fun fd hfd => (hnone fd hfd).elim⟩
  · exact ⟨hst, hlog, fun j hj => (by cases hj), h.path_lt, fun fd hfd => (hnone fd hfd).elim⟩

/-- **One completion**, of a write that did not fail for good. -/
theorem Session.reapCqe {cqe : Cqe} {cq : List Cqe} (h : Session init s) (hc : Core cfg s)
    (hcq : s.cq = cqe :: cq) : Session init (reapCqe cfg { s with cq := cq } cqe).1 := by
  have hd := h.stored.done cqe (hcq ▸ List.mem_cons_self)
  have hnot := fun n => hc.not_mem_rest (n := n) hcq
  have hr := hc.reaped hcq
  simp only [IoUring.reapCqe]
  cases hretry : cqe.res.retry (s.buffers cqe.buffer).size with
  | none =>
    have hall := Res.retry_eq_none hretry hd.ok
    exact ⟨(h.stored.reap (n := s.pendingCqeCount - 1) hcq hall).frame (fun _ _ => rfl) rfl rfl rfl
      (fun _ hq => hq) rfl (fun _ => Iff.rfl), h.logged, h.held, h.path_lt, h.replacing⟩
  | some m =>
    dsimp only
    rw [resubmitBuffer_eq hr.length_lt.1, Res.retry_eq_some hretry]
    refine ⟨(h.stored.reprepare hcq (hnot _) rfl).ioUringSubmit, h.logged, ?_, h.path_lt,
      h.replacing⟩
    -- a held buffer is not the one that was reaped
    intro i hi
    have hi : s.held = some i := hi
    have hne : i ≠ cqe.buffer := by
      rintro rfl
      have hcount := List.nodup_iff_count.mp hc.nodup_homes cqe.buffer
      rw [State.homes, hi, Option.toList_some] at hcount
      simp only [State.pending, hcq, List.map_cons, List.count_append, List.count_cons_self]
        at hcount
      omega
    show (Function.update s.buffers cqe.buffer _ i).offset = 0 ∧
      (Function.update s.buffers cqe.buffer _ i).fileOffset = s.offset
    rw [Function.update_of_ne hne]
    exact h.held i hi

theorem Session.resume {loop : Loop} (h : Session init s) (hc : Core cfg s)
    (hpc : s.pc = .waiting loop) : Session init (resume s loop) := by
  cases loop with
  | allocate => exact h.allocateLoop hc
  | sync => exact h.syncLoop
  | replace fd =>
    obtain ⟨hheld, hlt, hend⟩ := h.replacing fd hpc
    exact h.replaceLoop hc hheld hlt hend

/-- `open_at_end` finds the expected end, or makes a new file. -/
theorem Session.openAtEnd (h : Session init s) (hsees : SeesEnd s .reopen) :
    Session init (openAtEnd s).1 ∧ (openAtEnd s).1.held = s.held ∧
      (openAtEnd s).2.file < (openAtEnd s).1.fileCount ∧
      (expected init s.log (openAtEnd s).2.file).size ≤ (openAtEnd s).2.position ∧
      (openAtEnd s).1.log = s.log := by
  unfold IoUring.openAtEnd
  split
  · rename_i p hp
    refine ⟨h, rfl, h.path_lt p hp, ?_, rfl⟩
    rcases h.stored.le_size p with he | ⟨rfl, i, hi, hpos, hle⟩
    · exact he
    -- bytes that are pending are not behind what `lseek` finds
    · exact Nat.le_trans hle (hsees hp i hi hpos)
  -- no file at the path: the new one is empty, and so expected
  · have hnew := h.logged.fresh s.fileCount (Nat.le_refl _)
    refine ⟨⟨?_, ?_, h.held, ?_, ?_⟩, rfl, Nat.lt_succ_self _, ?_, rfl⟩
    · exact (h.stored.create hnew).frame (fun _ _ => rfl) rfl rfl rfl (fun _ hq => hq) rfl
        (fun _ => Iff.rfl)
    · exact { h.logged with
        fresh := fun f hf => h.logged.fresh f (Nat.le_of_succ_le hf)
        file_lt := Nat.lt_succ_of_lt h.logged.file_lt }
    · intro p hp
      cases hp
      exact Nat.lt_succ_self _
    · intro fd hfd
      obtain ⟨h1, h2, h3⟩ := h.replacing fd hfd
      exact ⟨h1, Nat.lt_succ_of_lt h2, h3⟩
    · rw [hnew]
      exact Nat.le_refl _

theorem step_session (h : Session init s) (hb : Booked cfg s) (ha : Assumed s e)
    (hsees : SeesEnd s e) (hs : step cfg s e = some s') : Session init s' := by
  cases fires_of_step hs with
  | allocateBuffer hpc hheld => exact h.allocateLoop hb.core
  | submitBuffer hpc hi hle => exact h.submitBuffer hb.core hpc hi
  | flush hpc => exact h.flush
  | sync hpc => exact h.flush.syncLoop
  | reopen hpc =>
    obtain ⟨hopen, hheld, hlt, hend, hlog⟩ := h.openAtEnd hsees
    refine hopen.flush.replaceLoop (openAtEnd_core hb.core).flush (hheld.trans ha) hlt ?_
    show (expected init (openAtEnd s).1.log _).size ≤ _
    rw [hlog]
    exact hend
  | retry hpc hcq hretry => exact h.reapCqe hb.core hcq
  | reap hpc hcq hfreed =>
    obtain ⟨hcore, -, hpc', -⟩ := hb.core.reapCqe hcq
    exact (h.reapCqe hb.core hcq).resume hcore (hpc'.trans hpc)
  | waitError hpc => exact h.resume hb.core hpc
  | transfer hj hn =>
    exact ⟨(h.stored.transfer (List.mem_of_getElem? hj) hn).1, h.logged, h.held, h.path_lt,
      h.replacing⟩
  | complete hj hres =>
    refine ⟨h.stored.complete hj hres ?_, h.logged, h.held, h.path_lt, h.replacing⟩
    -- a final error is not among the assumed results
    rintro errnum rfl
    exact absurd ha (by simp [Assumed, Res.isFailed])
  | rename =>
    exact ⟨h.stored.frame (fun _ _ => rfl) rfl rfl rfl (fun _ hq => hq) rfl (fun _ => Iff.rfl),
      h.logged, h.held, fun p hp => (nomatch hp), h.replacing⟩

theorem session_of_reachable {file : SparseFile} {position : Nat}
    (h : (machine cfg file position).ReachableBy (fun s e => Assumed s e ∧ SeesEnd s e) s) :
    Booked cfg s ∧ Session (initial cfg file position).files s := by
  refine Machine.ReachableBy.invariant
    (I := fun s => Booked cfg s ∧ Session (initial cfg file position).files s) h ?_ ?_
  · rintro s rfl
    exact ⟨initial_booked file position, initial_session file position⟩
  · rintro s e s' ⟨hb, hsession⟩ ⟨ha, hsees⟩ hs
    exact ⟨step_booked hb hs, step_session hsession hb ha hsees hs⟩

/-! ## Returning from `sync` -/

/-- `sync` returns in this step. -/
structure SyncReturns (cfg : Config) (s : State) (e : Event) (s' : State) : Prop where
  step : step cfg s e = some s'
  called : e = .sync ∨ s.pc = .waiting .sync
  idle : s'.pc = .idle

theorem syncLoop_pending (h : Core cfg s) (hidle : (syncLoop s).pc = .idle) :
    (syncLoop s).pending = [] := by
  unfold syncLoop at hidle ⊢
  split at hidle
  · cases hidle
  · rename_i hzero
    rw [if_neg hzero]
    exact h.pending_eq_nil hzero

theorem SyncReturns.pending (h : SyncReturns cfg s e s') (hb : Booked cfg s) : s'.pending = [] := by
  obtain ⟨hs, hcall, hidle⟩ := h
  have hwait : e ≠ .sync → s.pc = .waiting .sync := fun hne => hcall.resolve_left hne
  have hbusy : e ≠ .sync → s.pc = .idle → s'.pending = [] := by
    intro hne hpc
    rw [hwait hne] at hpc
    cases hpc
  have hkept : e ≠ .sync → s'.pc = s.pc → s'.pending = [] := fun hne hpc =>
    hbusy hne (hpc ▸ hidle)
  cases fires_of_step hs with
  | allocateBuffer hpc _ => exact hbusy (by simp) hpc
  | submitBuffer hpc _ _ => exact hbusy (by simp) hpc
  | flush hpc => exact hbusy (by simp) hpc
  | sync hpc => exact syncLoop_pending hb.core.flush hidle
  | reopen hpc => exact hbusy (by simp) hpc
  | retry hpc hcq hretry => exact hkept (by simp) (hb.core.reapCqe hcq).2.2.1
  | reap hpc hcq hfreed =>
    have hloop := hpc.symm.trans (hwait (by simp))
    cases hloop
    exact syncLoop_pending (hb.core.reapCqe hcq).1 hidle
  | waitError hpc =>
    have hloop := hpc.symm.trans (hwait (by simp))
    cases hloop
    exact syncLoop_pending hb.core hidle
  | transfer _ _ => exact hkept (by simp) rfl
  | complete _ _ => exact hkept (by simp) rfl
  | rename => exact hkept (by simp) rfl

/-- A completion is reaped. -/
def Event.reaps : Event → Nat
  | .reap => 1
  | _ => 0

/-- A completion is reaped, and what remains of the buffer is handed over again. -/
def State.retries (s : State) : Event → Nat
  | .reap =>
    match s.cq with
    | [] => 0
    | cqe :: _ => if (cqe.res.retry (s.buffers cqe.buffer).size).isSome then 1 else 0
  | _ => 0

/-- Steps from `s` to `t` in which `sync` does not return, with the completions that
are reaped and those of them that are retries. -/
inductive SyncRun (cfg : Config) (s : State) : Nat → Nat → State → Prop
  | here : s.pc = .waiting .sync → SyncRun cfg s 0 0 s
  | next {m r : Nat} {t t' : State} {e : Event} : SyncRun cfg s m r t → step cfg t e = some t' →
      t'.pc = .waiting .sync → SyncRun cfg s (m + e.reaps) (r + t.retries e) t'

theorem pending_syncLoop (s : State) : (syncLoop s).pending = s.pending := by
  unfold syncLoop
  split <;> rfl

/-- While `sync` waits, a completion that is not a retry leaves one write less. -/
theorem length_pending_of_waiting (hb : Booked cfg s) (hpc : s.pc = .waiting .sync)
    (hs : step cfg s e = some s') (hpc' : s'.pc = .waiting .sync) :
    e.reaps + s'.pending.length = s.pending.length + s.retries e := by
  have hidle : s.pc ≠ .idle := by rw [hpc]; simp
  cases fires_of_step hs with
  | allocateBuffer h _ => exact absurd h hidle
  | submitBuffer h _ _ => exact absurd h hidle
  | flush h => exact absurd h hidle
  | sync h => exact absurd h hidle
  | reopen h => exact absurd h hidle
  | @retry loop cqe cq _ hcq hretry =>
    have hr := hb.core.reaped hcq
    have hlen : s.pending.length = s.sq.length + s.inflight.length + (cq.length + 1) := by
      rw [length_pending, hcq, List.length_cons]
    simp only [State.retries, hcq]
    simp only [reapCqe] at hretry ⊢
    cases hres : cqe.res.retry (s.buffers cqe.buffer).size with
    | none => rw [hres] at hretry; cases hretry
    | some n =>
      dsimp only
      rw [resubmitBuffer_eq hr.length_lt.1, length_pending_ioUringSubmit, length_pending_prepWrite,
        length_pending, hlen]
      show 1 + (s.sq.length + s.inflight.length + cq.length + 1) = _ + 1
      omega
  | @reap loop cqe cq hwait hcq hfreed =>
    have hlen : s.pending.length = s.sq.length + s.inflight.length + (cq.length + 1) := by
      rw [length_pending, hcq, List.length_cons]
    have heq := hwait.symm.trans hpc
    cases heq
    simp only [State.retries, hcq]
    simp only [reapCqe] at hfreed ⊢
    cases hres : cqe.res.retry (s.buffers cqe.buffer).size with
    | some n => rw [hres] at hfreed; cases hfreed
    | none =>
      show 1 + (syncLoop _).pending.length = _
      rw [pending_syncLoop, length_pending, hlen]
      show 1 + (s.sq.length + s.inflight.length + cq.length) = _ + 0
      omega
  | waitError hwait =>
    have heq := hwait.symm.trans hpc
    cases heq
    show 0 + (syncLoop s).pending.length = _ + 0
    rw [pending_syncLoop, Nat.zero_add, Nat.add_zero]
  | transfer _ _ => exact Nat.zero_add _
  | complete hj _ => exact (Nat.zero_add _).trans (homes_complete hj).2
  | rename => exact Nat.zero_add _

/-- **`sync` returns.**  As long as it has not, it has reaped fewer completions than
writes were pending and retries were needed. -/
theorem SyncRun.reaps_lt {m r : Nat} {t : State} (h : SyncRun cfg s m r t) (hb : Booked cfg s) :
    m < s.pending.length + r := by
  suffices hrun : Booked cfg t ∧ t.pc = .waiting .sync ∧
      m + t.pending.length = s.pending.length + r by
    obtain ⟨hbt, hpc, heq⟩ := hrun
    have hpos := (hbt.waits .sync hpc).2
    omega
  induction h with
  | here hpc => exact ⟨hb, hpc, by omega⟩
  | next _ hs hpc' ih =>
    obtain ⟨hbt, hpc, heq⟩ := ih
    have hstep := length_pending_of_waiting hbt hpc hs hpc'
    exact ⟨step_booked hbt hs, hpc', by omega⟩

/-! ## Runs without a reopen -/

/-- The submitted buffers, one after the other. -/
def State.stream (s : State) : List UInt8 := (s.log.map Chunk.bytes).flatten

/-- There is one file, and the submitted buffers go to it in a row. -/
structure Streamed (init : Nat → SparseFile) (position : Nat) (s : State) : Prop where
  file : s.fd.file = 0
  offset : s.offset = position + s.stream.length
  expected : expected init s.log 0 = (init 0).pwrite position s.stream
  appends : ∀ fd, s.pc ≠ .waiting (.replace fd)

variable {position : Nat}

theorem Streamed.keep (h : Streamed init position s) (hlog : s'.log = s.log) (hfd : s'.fd = s.fd)
    (hoff : s'.offset = s.offset) (hpc : ∀ fd, s'.pc ≠ .waiting (.replace fd)) :
    Streamed init position s' := by
  have hstream : s'.stream = s.stream := by rw [State.stream, hlog]; rfl
  exact ⟨hfd ▸ h.file, by rw [hoff, hstream]; exact h.offset,
    by rw [hlog, hstream]; exact h.expected, hpc⟩

theorem Streamed.allocateLoop (h : Streamed init position s) :
    Streamed init position (allocateLoop s) := by
  unfold IoUring.allocateLoop
  split
  · exact h.keep rfl rfl rfl (fun fd => by simp)
  · exact h.keep rfl rfl rfl (fun fd => by simp)

theorem Streamed.syncLoop (h : Streamed init position s) :
    Streamed init position (syncLoop s) := by
  unfold IoUring.syncLoop
  split
  · exact h.keep rfl rfl rfl (fun fd => by simp)
  · exact h.keep rfl rfl rfl (fun fd => by simp)

theorem Streamed.submitBuffer {i : Nat} {bytes : List UInt8} (h : Streamed init position s)
    (hs : Session init s) (hc : Core cfg s) (hi : s.held = some i) :
    Streamed init position (submitBuffer cfg s i bytes) := by
  rw [submitBuffer_eq hc.length_sq_lt]
  have hq : Streamed init position (enqueue cfg (returnBuffer s i ((s.buffers i).fill bytes)) i
      ((s.buffers i).fill bytes)) := by
    have hlog : (enqueue cfg (returnBuffer s i ((s.buffers i).fill bytes)) i
        ((s.buffers i).fill bytes)).log =
          s.log ++ [⟨s.fd.file, (s.buffers i).fileOffset, bytes, s.floor⟩] := rfl
    have hstream : (enqueue cfg (returnBuffer s i ((s.buffers i).fill bytes)) i
        ((s.buffers i).fill bytes)).stream = s.stream ++ bytes := by
      rw [State.stream, hlog, List.map_append, List.flatten_append, List.map_singleton,
        List.flatten_singleton]
      rfl
    refine ⟨h.file, ?_, ?_, h.appends⟩
    · rw [hstream, List.length_append, ← Nat.add_assoc, ← h.offset]
      rfl
    · rw [hstream, hlog, expected_concat, (hs.held i hi).2, h.offset, h.file, Chunk.write_self]
      show (IoUring.expected init s.log 0).pwrite (position + s.stream.length) bytes = _
      rw [h.expected, SparseFile.pwrite_append]
  unfold submitBatch
  split
  · exact hq.keep rfl rfl rfl hq.appends
  · exact hq

theorem Streamed.reapCqe {cqe : Cqe} {cq : List Cqe} (h : Streamed init position s)
    (hc : Core cfg s) (hcq : s.cq = cqe :: cq) :
    Streamed init position (reapCqe cfg { s with cq := cq } cqe).1 := by
  have hr := hc.reaped hcq
  simp only [IoUring.reapCqe]
  cases hretry : cqe.res.retry (s.buffers cqe.buffer).size with
  | none => exact h.keep rfl rfl rfl h.appends
  | some m =>
    dsimp only
    rw [resubmitBuffer_eq hr.length_lt.1]
    exact h.keep rfl rfl rfl h.appends

theorem step_streamed (h : Streamed init position s) (hs : Session init s) (hb : Booked cfg s)
    (ha : Appends e) (hstep : step cfg s e = some s') : Streamed init position s' := by
  have hresume : ∀ {t : State} {loop : Loop}, Streamed init position t → s.pc = .waiting loop →
      Streamed init position (resume t loop) := by
    intro t loop ht hpc
    cases loop with
    | allocate => exact ht.allocateLoop
    | sync => exact ht.syncLoop
    | replace fd => exact absurd hpc (h.appends fd)
  cases fires_of_step hstep with
  | allocateBuffer _ _ => exact h.allocateLoop
  | submitBuffer hpc hi _ => exact h.submitBuffer hs hb.core hi
  | flush _ => exact h.keep rfl rfl rfl h.appends
  | sync _ =>
    have hf : Streamed init position (flush s) := h.keep rfl rfl rfl h.appends
    exact hf.syncLoop
  | reopen _ => exact ha.elim
  | retry _ hcq _ => exact h.reapCqe hb.core hcq
  | reap hpc hcq _ => exact hresume (h.reapCqe hb.core hcq) hpc
  | waitError hpc => exact hresume h hpc
  | transfer _ _ => exact h.keep rfl rfl rfl h.appends
  | complete _ _ => exact h.keep rfl rfl rfl h.appends
  | rename => exact h.keep rfl rfl rfl h.appends

theorem streamed_of_reachable {file : SparseFile}
    (h : (machine cfg file position).ReachableBy (fun _ e => Appends e) s) :
    Streamed (initial cfg file position).files position s := by
  suffices hinv : (Booked cfg s ∧ Session (initial cfg file position).files s) ∧
      Streamed (initial cfg file position).files position s from hinv.2
  refine Machine.ReachableBy.invariant
    (I := fun s => (Booked cfg s ∧ Session (initial cfg file position).files s) ∧
      Streamed (initial cfg file position).files position s) h ?_ ?_
  · rintro s rfl
    refine ⟨⟨initial_booked file position, initial_session file position⟩, rfl, rfl, ?_,
      fun fd hfd => (nomatch hfd)⟩
    exact SparseFile.pwrite_nil.symm
  · rintro s e s' ⟨⟨hb, hs⟩, hstr⟩ ha hstep
    obtain ⟨h1, h2⟩ := ha.assumed (s := s)
    exact ⟨⟨step_booked hb hstep, step_session hs hb h1 h2 hstep⟩,
      step_streamed hstr hs hb ha hstep⟩

/-- **The file after `sync`.**  In a run without a `reopen`, whatever the kernel
completes in whatever order, in part, or not at all at first: while `sync` waits there
is a write handed over to wait for, and it waits fewer times than there are writes and
retries; and when it returns, the file has the submitted buffers one after the other
from the initial offset on, and every other byte as before. -/
theorem sync_writes_stream {file : SparseFile}
    (h : (machine cfg file position).ReachableBy (fun _ e => Appends e) s) :
    (s.pc = .waiting .sync → (s.inflight ≠ [] ∨ s.cq ≠ []) ∧
      ∀ m r t, SyncRun cfg s m r t → m < s.pending.length + r) ∧
    ∀ e s', Appends e → SyncReturns cfg s e s' →
      s'.fd.file = 0 ∧ (s'.files 0).pread position s'.stream.length = s'.stream ∧
        ∀ x, x < position ∨ position + s'.stream.length ≤ x →
          (s'.files 0).data x = file.data x := by
  obtain ⟨hb, hs⟩ := session_of_reachable (h.mono fun s e ha => ha.assumed)
  refine ⟨fun hpc => ⟨hb.handed_over hpc, fun m r t hrun => hrun.reaps_lt hb⟩, ?_⟩
  intro e s' ha hret
  obtain ⟨h1, h2⟩ := ha.assumed (s := s)
  have hs' := step_session hs hb h1 h2 hret.step
  have hstr := step_streamed (streamed_of_reachable h) hs hb ha hret.step
  have hfile : s'.files 0 = file.pwrite position s'.stream := by
    rw [hs'.stored.files_eq (hret.pending hb), hstr.expected]
    rfl
  rw [hfile]
  exact ⟨hstr.file, SparseFile.pread_pwrite_self,
    fun x hx => SparseFile.pwrite_data_of_outside hx⟩

/-- Two bytes, written one at a time with an `EAGAIN` in between. -/
def shortWrites : List Event :=
  [.allocateBuffer, .submitBuffer [1, 2], .sync, .complete 0 (.wrote 1), .reap, .complete 0 .again,
    .reap, .complete 0 (.wrote 1)]

/-- They are in the file when `sync` returns. -/
theorem sync_writes_stream_short : ∃ s s', (machine pair .empty 3).ReachableBy
      (fun _ e => Appends e) s ∧ SyncReturns pair s .reap s' ∧ s'.stream = [1, 2] ∧
    (s'.files 0).pread 3 2 = [1, 2] := by
  have hrun : (((machine pair .empty 3).runBy (fun _ e => Appends e) (initial pair .empty 3)
      shortWrites).map fun s => (s.pc, (step pair s .reap).map fun s' => (s'.pc, s'.stream))) =
        some (.waiting .sync, some (.idle, [1, 2])) := by decide +kernel
  obtain ⟨s, hreach, heq⟩ := Machine.exists_reachableBy hrun rfl
  simp only [Prod.mk.injEq] at heq
  obtain ⟨hpc, hstep⟩ := heq
  obtain ⟨s', hs', heq'⟩ := Option.map_eq_some_iff.mp hstep
  simp only [Prod.mk.injEq] at heq'
  obtain ⟨hidle, hstream⟩ := heq'
  have hret : SyncReturns pair s .reap s' := ⟨hs', .inr hpc, hidle⟩
  obtain ⟨-, hread, -⟩ := (sync_writes_stream hreach).2 .reap s' trivial hret
  rw [hstream] at hread
  exact ⟨s, s', hreach, hret, hstream, hread⟩

end Xtr.IoUring
