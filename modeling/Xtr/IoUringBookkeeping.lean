import Mathlib.Data.List.Perm.Basic
import Xtr.IoUring

/-!
# Where the buffers are

Every buffer of the storage is on the free list, held by the caller, or pending,
and `pending_cqe_count_` counts the pending ones.

The point is that waiting never deadlocks.  Prepared writes may stay in the
submission queue while the free list runs dry, but never `batch_size` of them
(`Core.batch`): each submission raises `batch_index_` by one and the queue is handed
over when that reaches a multiple of `batch_size`; the extra hand-overs of
`resubmit_buffer` only empty the queue earlier, and so does the wrap of the
counter.  When `allocate_buffer` waits, all `queue_size ≥ batch_size` buffers are
pending, so at least one of their writes was handed over (`storage_bookkeeping`).
-/
namespace Xtr.IoUring
variable {cfg : Config} {s : State}

/-- Every buffer, by where it is. -/
def State.homes (s : State) : List Nat := s.freeList ++ s.held.toList ++ s.pending

/-- What holds of the storage also in the middle of a call. -/
structure Core (cfg : Config) (s : State) : Prop where
  homes : s.homes.Perm (List.range cfg.queueSize)
  count : s.pendingCqeCount.toNat = s.pending.length
  batch : s.sq.length ≤ s.batchIndex.toNat % cfg.batchSize
  full : s.sqFull = 0

/-- What holds while a loop waits. -/
def Waits (s : State) : Loop → Prop
  | .allocate => s.freeList = [] ∧ s.held = none
  | .sync | .replace _ => s.sq = [] ∧ 0 < s.pending.length

/-- What holds when a loop's condition is evaluated. -/
def Resumes (s : State) : Loop → Prop
  | .allocate => s.held = none
  | .sync | .replace _ => s.sq = []

/-- **The bookkeeping invariant.** -/
structure Booked (cfg : Config) (s : State) : Prop where
  core : Core cfg s
  waits : ∀ loop, s.pc = .waiting loop → Waits s loop

/-! ## Counting -/

theorem length_pending :
    s.pending.length = s.sq.length + s.inflight.length + s.cq.length := by
  simp only [State.pending, List.length_append, List.length_map]

theorem Core.length_homes (h : Core cfg s) :
    s.freeList.length + s.held.toList.length + s.pending.length = cfg.queueSize := by
  have := h.homes.length_eq
  rwa [State.homes, List.length_append, List.length_append, List.length_range] at this

theorem Core.length_pending_lt (h : Core cfg s) : s.pending.length < 2 ^ 64 - 1 := by
  have := h.length_homes
  have := cfg.queue_le
  omega

theorem Core.length_sq_lt (h : Core cfg s) : s.sq.length < cfg.queueSize := by
  have := h.batch
  have := Nat.mod_lt s.batchIndex.toNat cfg.batch_pos
  have := cfg.batch_le
  omega

theorem toNat_add_one {x : UInt64} (h : x.toNat < 2 ^ 64 - 1) : (x + 1).toNat = x.toNat + 1 := by
  rw [UInt64.toNat_add, UInt64.toNat_one, Nat.mod_eq_of_lt (by omega)]

theorem toNat_sub_one {x : UInt64} (h : 0 < x.toNat) : (x - 1).toNat = x.toNat - 1 := by
  have hle : (1 : UInt64) ≤ x := UInt64.le_iff_toNat_le.mpr h
  rw [UInt64.toNat_sub_of_le _ _ hle, UInt64.toNat_one]

theorem pos_iff_toNat {x : UInt64} : 0 < x ↔ 0 < x.toNat := UInt64.lt_iff_toNat_lt

/-! ## Operations -/

/-- The submission queue has room whenever the core invariant holds of its length. -/
theorem getSqe_eq (h : s.sq.length < cfg.queueSize) : getSqe cfg s = s :=
  if_pos (Nat.lt_of_lt_of_le h cfg.queue_le_entries)

theorem submitBuffer_eq {i : Nat} {bytes : List UInt8} (h : s.sq.length < cfg.queueSize) :
    submitBuffer cfg s i bytes = submitBatch cfg (enqueue cfg
      (returnBuffer s i ((s.buffers i).fill bytes)) i ((s.buffers i).fill bytes)) := by
  have hroom : getSqe cfg (returnBuffer s i ((s.buffers i).fill bytes)) = _ := getSqe_eq h
  simp only [submitBuffer, hroom]

theorem resubmitBuffer_eq {i n : Nat} (h : s.sq.length < cfg.queueSize) :
    resubmitBuffer cfg s i n = ioUringSubmit (prepWrite (setBuffer s i ((s.buffers i).advance n))
      (nextWrite s i ((s.buffers i).advance n))) := by
  have hroom : getSqe cfg (setBuffer s i ((s.buffers i).advance n)) = _ := getSqe_eq h
  simp only [resubmitBuffer, hroom]
  rfl

theorem homes_ioUringSubmit : (ioUringSubmit s).homes.Perm s.homes := by
  rw [List.perm_iff_count]
  intro a
  simp only [State.homes, State.pending, ioUringSubmit, List.map_append, List.map_nil,
    List.count_append, List.count_nil]
  omega

theorem length_pending_ioUringSubmit : (ioUringSubmit s).pending.length = s.pending.length := by
  simp only [length_pending, ioUringSubmit, List.length_append, List.length_nil]
  omega

theorem Core.ioUringSubmit (h : Core cfg s) : Core cfg (ioUringSubmit s) where
  homes := homes_ioUringSubmit.trans h.homes
  count := h.count.trans length_pending_ioUringSubmit.symm
  batch := Nat.zero_le _
  full := h.full

theorem Core.flush (h : Core cfg s) : Core cfg (flush s) :=
  ⟨h.ioUringSubmit.homes, h.ioUringSubmit.count, Nat.zero_le _, h.full⟩

/-- One more submission: the batch index reaches a multiple of the batch size, or
its remainder grows by one. -/
theorem batchIndex_succ (x : UInt64) (h : (x + 1).toNat % cfg.batchSize ≠ 0) :
    x.toNat % cfg.batchSize + 1 ≤ (x + 1).toNat % cfg.batchSize := by
  have hx := x.toNat_lt
  by_cases hwrap : x.toNat < 2 ^ 64 - 1
  · rw [toNat_add_one hwrap] at h ⊢
    have hlt := Nat.mod_lt x.toNat cfg.batch_pos
    rw [Nat.add_mod] at h ⊢
    by_cases hone : cfg.batchSize = 1
    · rw [hone, Nat.mod_one] at h
      exact absurd rfl h
    · have hpos := cfg.batch_pos
      rw [Nat.mod_eq_of_lt (show 1 < cfg.batchSize by omega)] at h ⊢
      by_cases hend : x.toNat % cfg.batchSize + 1 < cfg.batchSize
      · exact Nat.le_of_eq (Nat.mod_eq_of_lt hend).symm
      · have : x.toNat % cfg.batchSize + 1 = cfg.batchSize := by omega
        rw [this, Nat.mod_self] at h
        exact absurd rfl h
  · -- the counter wraps to zero, and the queue is handed over
    have hzero : (x + 1).toNat = 0 := by
      rw [UInt64.toNat_add, UInt64.toNat_one]
      omega
    rw [hzero, Nat.zero_mod] at h
    exact absurd rfl h

theorem homes_prepWrite {sqe : Sqe} : (prepWrite s sqe).homes.Perm (sqe.buffer :: s.homes) := by
  rw [List.perm_iff_count]
  intro a
  simp only [State.homes, State.pending, prepWrite, List.map_append, List.map_cons, List.map_nil,
    List.count_append, List.count_cons, List.count_nil]
  omega

theorem length_pending_prepWrite {sqe : Sqe} :
    (prepWrite s sqe).pending.length = s.pending.length + 1 := by
  simp only [length_pending, prepWrite, List.length_append, List.length_singleton]
  omega

/-- A prepared write is counted. -/
theorem count_prepWrite {sqe : Sqe} (hlt : s.pending.length < 2 ^ 64 - 1)
    (hcount : s.pendingCqeCount.toNat = s.pending.length) :
    (prepWrite s sqe).pendingCqeCount.toNat = (prepWrite s sqe).pending.length := by
  rw [length_pending_prepWrite, ← hcount]
  exact toNat_add_one (hcount ▸ hlt)

theorem Core.submitBuffer {i : Nat} {bytes : List UInt8} (h : Core cfg s) (hi : s.held = some i) :
    Core cfg (submitBuffer cfg s i bytes) := by
  rw [submitBuffer_eq h.length_sq_lt]
  generalize (s.buffers i).fill bytes = buf
  -- the state with the write prepared, before the batch is possibly handed over
  have hhomes : (enqueue cfg (returnBuffer s i buf) i buf).homes.Perm
      (List.range cfg.queueSize) := by
    show (prepWrite (returnBuffer s i buf) (firstWrite cfg _ i buf)).homes.Perm _
    refine homes_prepWrite.trans (List.Perm.trans ?_ h.homes)
    rw [List.perm_iff_count]
    intro a
    simp only [State.homes, hi, Option.toList_none, Option.toList_some, List.count_cons,
      List.count_append, List.count_nil, firstWrite, returnBuffer, setBuffer, State.pending]
    omega
  have hcount : (enqueue cfg (returnBuffer s i buf) i buf).pendingCqeCount.toNat =
      (enqueue cfg (returnBuffer s i buf) i buf).pending.length :=
    count_prepWrite h.length_pending_lt h.count
  unfold submitBatch
  split
  · exact ⟨homes_ioUringSubmit.trans hhomes, hcount.trans length_pending_ioUringSubmit.symm,
      Nat.zero_le _, h.full⟩
  · rename_i hne
    refine ⟨hhomes, hcount, ?_, h.full⟩
    have hsucc := batchIndex_succ s.batchIndex hne
    have hbatch := h.batch
    show (s.sq ++ [_]).length ≤ (s.batchIndex + 1).toNat % cfg.batchSize
    rw [List.length_append, List.length_singleton]
    omega

/-- Buffer `i` out of the books: its completion was taken from the queue and counted
off, and it is not on the free list yet. -/
structure Reaped (cfg : Config) (s : State) (i : Nat) : Prop where
  homes : (i :: s.homes).Perm (List.range cfg.queueSize)
  count : s.pendingCqeCount.toNat = s.pending.length
  batch : s.sq.length ≤ s.batchIndex.toNat % cfg.batchSize
  full : s.sqFull = 0

theorem Core.reaped {cqe : Cqe} {cq : List Cqe} (h : Core cfg s) (hcq : s.cq = cqe :: cq) :
    Reaped cfg { s with cq := cq, pendingCqeCount := s.pendingCqeCount - 1 } cqe.buffer := by
  have hlen : s.pending.length = s.sq.length + s.inflight.length + (cq.length + 1) := by
    rw [length_pending, hcq, List.length_cons]
  refine ⟨List.Perm.trans ?_ h.homes, ?_, h.batch, h.full⟩
  · rw [List.perm_iff_count]
    intro a
    simp only [State.homes, State.pending, hcq, List.map_cons, List.count_cons, List.count_append]
    omega
  · rw [length_pending]
    show (s.pendingCqeCount - 1).toNat = s.sq.length + s.inflight.length + cq.length
    rw [toNat_sub_one (by rw [h.count]; omega), h.count, hlen]
    omega

theorem Reaped.freeBuffer {i : Nat} (h : Reaped cfg s i) : Core cfg (freeBuffer s i) :=
  ⟨h.homes, h.count, h.batch, h.full⟩

theorem Reaped.length_lt {i : Nat} (h : Reaped cfg s i) :
    s.sq.length < cfg.queueSize ∧ s.pending.length < 2 ^ 64 - 1 := by
  have hlen := h.homes.length_eq
  rw [List.length_cons, State.homes, List.length_append, List.length_append,
    List.length_range] at hlen
  have := length_pending (s := s)
  have := cfg.queue_le
  omega

theorem Reaped.resubmitBuffer {i n : Nat} (h : Reaped cfg s i) :
    Core cfg (resubmitBuffer cfg s i n) := by
  rw [resubmitBuffer_eq h.length_lt.1]
  refine ⟨homes_ioUringSubmit.trans (homes_prepWrite.trans h.homes), ?_, Nat.zero_le _, h.full⟩
  exact (count_prepWrite h.length_lt.2 h.count).trans length_pending_ioUringSubmit.symm

/-- **One completion**: the buffer goes back to the free list, or stays pending with
everything handed over. -/
theorem Core.reapCqe {cqe : Cqe} {cq : List Cqe} (h : Core cfg s) (hcq : s.cq = cqe :: cq) :
    Core cfg (reapCqe cfg { s with cq := cq } cqe).1 ∧
      (reapCqe cfg { s with cq := cq } cqe).1.held = s.held ∧
      (reapCqe cfg { s with cq := cq } cqe).1.pc = s.pc ∧
      ((reapCqe cfg { s with cq := cq } cqe).2 = true →
        (reapCqe cfg { s with cq := cq } cqe).1.freeList = s.freeList ∧
        (reapCqe cfg { s with cq := cq } cqe).1.sq = [] ∧
        0 < (reapCqe cfg { s with cq := cq } cqe).1.pending.length) ∧
      ((reapCqe cfg { s with cq := cq } cqe).2 = false →
        (reapCqe cfg { s with cq := cq } cqe).1.sq = s.sq) := by
  have hr := h.reaped hcq
  simp only [IoUring.reapCqe]
  cases cqe.res.retry (s.buffers cqe.buffer).size with
  | none => exact ⟨hr.freeBuffer, rfl, rfl, fun he => (nomatch he), fun _ => rfl⟩
  | some n =>
    refine ⟨hr.resubmitBuffer, ?_⟩
    dsimp only
    rw [resubmitBuffer_eq hr.length_lt.1]
    refine ⟨rfl, rfl, fun _ => ⟨rfl, rfl, ?_⟩, fun he => (nomatch he)⟩
    rw [length_pending_ioUringSubmit, length_pending_prepWrite]
    exact Nat.succ_pos _

/-! ## Loops -/

theorem Core.allocateLoop (h : Core cfg s) (hheld : s.held = none) :
    Booked cfg (allocateLoop s) := by
  unfold IoUring.allocateLoop
  split
  · rename_i hfree
    refine ⟨⟨h.homes, h.count, h.batch, h.full⟩, ?_⟩
    intro loop hloop
    cases hloop
    exact ⟨hfree, hheld⟩
  · rename_i i free hfree
    refine ⟨⟨List.Perm.trans ?_ h.homes, h.count, h.batch, h.full⟩, ?_⟩
    · rw [List.perm_iff_count]
      intro a
      simp only [State.homes, setBuffer, State.pending, hfree, hheld, Option.toList_some,
        Option.toList_none, List.count_append, List.count_cons, List.count_nil]
      omega
    · intro loop hloop
      cases hloop

theorem Core.pos_pending (h : Core cfg s) (hpos : 0 < s.pendingCqeCount) :
    0 < s.pending.length := by
  rw [← h.count]
  exact pos_iff_toNat.mp hpos

theorem Core.syncLoop (h : Core cfg s) (hsq : s.sq = []) : Booked cfg (syncLoop s) := by
  unfold IoUring.syncLoop
  split
  · rename_i hpos
    refine ⟨⟨h.homes, h.count, h.batch, h.full⟩, ?_⟩
    intro loop hloop
    cases hloop
    exact ⟨hsq, h.pos_pending hpos⟩
  · refine ⟨⟨h.homes, h.count, h.batch, h.full⟩, ?_⟩
    intro loop hloop
    cases hloop

theorem Core.replaceLoop {fd : Descriptor} (h : Core cfg s) (hsq : s.sq = []) :
    Booked cfg (replaceLoop s fd) := by
  unfold IoUring.replaceLoop
  split
  · rename_i hpos
    refine ⟨⟨h.homes, h.count, h.batch, h.full⟩, ?_⟩
    intro loop hloop
    cases hloop
    exact ⟨hsq, h.pos_pending hpos⟩
  · refine ⟨⟨h.homes, h.count, h.batch, h.full⟩, ?_⟩
    intro loop hloop
    cases hloop

theorem Core.resume {loop : Loop} (h : Core cfg s) (hr : Resumes s loop) :
    Booked cfg (resume s loop) := by
  cases loop with
  | allocate => exact h.allocateLoop hr
  | sync => exact h.syncLoop hr
  | replace fd => exact h.replaceLoop hr

theorem Waits.resumes {loop : Loop} (h : Waits s loop) : Resumes s loop := by
  cases loop with
  | allocate => exact h.2
  | sync | replace fd => exact h.1

/-! ## Runs -/

theorem initial_booked (file : SparseFile) (position : Nat) :
    Booked cfg (initial cfg file position) := by
  refine ⟨⟨?_, rfl, Nat.zero_le _, rfl⟩, ?_⟩
  · show (List.range cfg.queueSize ++ [] ++ []).Perm _
    rw [List.append_nil, List.append_nil]
  · intro loop hloop
    cases hloop

/-- A completed write is in the completion queue instead. -/
theorem homes_complete {j : Nat} {sqe : Sqe} {res : Res} (hj : s.inflight[j]? = some sqe) :
    (complete s j sqe res).homes.Perm s.homes ∧
      (complete s j sqe res).pending.length = s.pending.length := by
  obtain ⟨hlt, hget⟩ := List.getElem?_eq_some_iff.mp hj
  have hperm : (sqe :: s.inflight.eraseIdx j).Perm s.inflight :=
    hget ▸ List.getElem_cons_eraseIdx_perm hlt
  have hmap : (sqe.buffer :: (s.inflight.eraseIdx j).map Sqe.buffer).Perm
      (s.inflight.map Sqe.buffer) := hperm.map Sqe.buffer
  constructor
  · rw [List.perm_iff_count]
    intro a
    have hcount := hmap.count_eq a
    simp only [List.count_cons] at hcount
    simp only [State.homes, State.pending, complete, transfer, List.map_append, List.map_cons,
      List.map_nil, List.count_append, List.count_cons, List.count_nil]
    omega
  · have hlen := hperm.length_eq
    rw [List.length_cons] at hlen
    rw [length_pending, length_pending]
    show s.sq.length + (s.inflight.eraseIdx j).length + (s.cq ++ [_]).length = _
    rw [List.length_append, List.length_singleton]
    omega

theorem Booked.kernel {s' : State} (h : Booked cfg s) (hfree : s'.freeList = s.freeList)
    (hheld : s'.held = s.held) (hhomes : s'.homes.Perm s.homes)
    (hlen : s'.pending.length = s.pending.length) (hsq : s'.sq = s.sq)
    (hcount : s'.pendingCqeCount = s.pendingCqeCount) (hbatch : s'.batchIndex = s.batchIndex)
    (hfull : s'.sqFull = s.sqFull) (hpc : s'.pc = s.pc) : Booked cfg s' := by
  refine ⟨⟨hhomes.trans h.core.homes, ?_, ?_, hfull.trans h.core.full⟩, ?_⟩
  · rw [hcount, hlen]
    exact h.core.count
  · rw [hsq, hbatch]
    exact h.core.batch
  · intro loop hloop
    have hw := h.waits loop (hpc ▸ hloop)
    cases loop with
    | allocate => exact ⟨hfree.trans hw.1, hheld.trans hw.2⟩
    | sync | replace fd => exact ⟨hsq.trans hw.1, hlen ▸ hw.2⟩

theorem openAtEnd_core (h : Core cfg s) : Core cfg (openAtEnd s).1 := by
  unfold openAtEnd
  split
  · exact h
  · exact ⟨h.homes, h.count, h.batch, h.full⟩

theorem step_booked {s' : State} {e : Event} (h : Booked cfg s) (hs : step cfg s e = some s') :
    Booked cfg s' := by
  have hidle : ∀ {t : State}, t.pc = .idle → ∀ loop, t.pc = .waiting loop → Waits t loop := by
    intro t hpc loop hloop
    rw [hpc] at hloop
    cases hloop
  cases fires_of_step hs with
  | allocateBuffer hpc hheld => exact h.core.allocateLoop hheld
  | @submitBuffer i bytes hpc hi hle =>
    refine ⟨h.core.submitBuffer hi, hidle ?_⟩
    rw [submitBuffer_eq h.core.length_sq_lt, submitBatch]
    split <;> exact hpc
  | flush hpc => exact ⟨h.core.flush, hidle hpc⟩
  | sync hpc => exact h.core.flush.syncLoop rfl
  | reopen hpc => exact (openAtEnd_core h.core).flush.replaceLoop rfl
  | @retry loop cqe cq hpc hcq hretry =>
    obtain ⟨hcore, hheld, hpc', hkeep, -⟩ := h.core.reapCqe hcq
    obtain ⟨hfree, hsq, hpos⟩ := hkeep hretry
    refine ⟨hcore, ?_⟩
    intro loop' hloop
    have hw := h.waits loop' (hpc' ▸ hloop)
    cases loop' with
    | allocate => exact ⟨hfree.trans hw.1, hheld.trans hw.2⟩
    | sync | replace fd => exact ⟨hsq, hpos⟩
  | @reap loop cqe cq hpc hcq hfreed =>
    obtain ⟨hcore, hheld, -, -, hkeep⟩ := h.core.reapCqe hcq
    have hr := (h.waits loop hpc).resumes
    refine hcore.resume ?_
    cases loop with
    | allocate => exact hheld.trans hr
    | sync | replace fd => exact (hkeep hfreed).trans hr
  | waitError hpc => exact h.core.resume (h.waits _ hpc).resumes
  | transfer hj hn => exact h.kernel rfl rfl (.refl _) rfl rfl rfl rfl rfl rfl
  | complete hj hres =>
    obtain ⟨hhomes, hlen⟩ := homes_complete hj
    exact h.kernel rfl rfl hhomes hlen rfl rfl rfl rfl rfl
  | rename => exact h.kernel rfl rfl (.refl _) rfl rfl rfl rfl rfl rfl

theorem booked_of_reachable {file : SparseFile} {position : Nat}
    (h : (machine cfg file position).Reachable s) : Booked cfg s := by
  refine h.invariant ?_ ?_
  · rintro s rfl
    exact initial_booked file position
  · intro s e s' hb hs
    exact step_booked hb hs

/-- Whoever waits, waits for a write that was handed over. -/
theorem Booked.handed_over {loop : Loop} (h : Booked cfg s) (hpc : s.pc = .waiting loop) :
    s.inflight ≠ [] ∨ s.cq ≠ [] := by
  have hlen := length_pending (s := s)
  have hpos : s.sq.length < s.pending.length := by
    have hw := h.waits loop hpc
    cases loop with
    | allocate =>
      -- nothing is free or held, so all the buffers are pending
      have hhomes := h.core.length_homes
      rw [hw.1, hw.2] at hhomes
      have hsq := h.core.length_sq_lt
      simp only [List.length_nil, Option.toList_none] at hhomes
      omega
    | sync | replace fd =>
      rw [hw.1]
      exact hw.2
  rw [← List.length_pos_iff, ← List.length_pos_iff]
  omega

/-- **Bookkeeping.**  In every reachable state the free list, the held buffer and the
pending requests are the storage's buffers, each once; `pending_cqe_count_` is the
number of pending requests; `io_uring_get_sqe` has never returned null; and while
`wait_for_one_cqe` waits, a request that was handed over has not been reaped. -/
theorem storage_bookkeeping {file : SparseFile} {position : Nat}
    (h : (machine cfg file position).Reachable s) :
    (s.freeList ++ s.held.toList ++ s.pending).Perm (List.range cfg.queueSize) ∧
      s.pendingCqeCount.toNat = s.pending.length ∧ s.sqFull = 0 ∧
      ∀ loop, s.pc = .waiting loop → s.inflight ≠ [] ∨ s.cq ≠ [] := by
  have hb := booked_of_reachable h
  exact ⟨hb.core.homes, hb.core.count, hb.core.full, fun loop hpc => hb.handed_over hpc⟩

/-- Two buffers, handed over two at a time. -/
def pair : Config where
  bufferCapacity := 4
  queueSize := 2
  batchSize := 2
  sqEntries := 2
  capacity_le := by decide
  queue_le := by decide
  batch_pos := by decide
  batch_le := by decide
  queue_le_entries := by decide

/-- Both buffers are submitted and a third is asked for: the storage waits with two
writes handed over. -/
theorem storage_bookkeeping_pair : ∃ s, (machine pair .empty 0).Reachable s ∧
    s.pc = .waiting .allocate ∧ s.pending.Perm [0, 1] ∧ (s.inflight ≠ [] ∨ s.cq ≠ []) := by
  have hrun : (((machine pair .empty 0).run (initial pair .empty 0) [.allocateBuffer,
      .submitBuffer [1], .allocateBuffer, .submitBuffer [2], .allocateBuffer]).map fun s =>
        (s.pc, s.freeList, s.held)) = some (.waiting .allocate, [], none) := by decide +kernel
  obtain ⟨s, hreach, heq⟩ := Machine.exists_reachable hrun rfl
  obtain ⟨hhomes, -, -, hwait⟩ := storage_bookkeeping hreach
  simp only [Prod.mk.injEq] at heq
  obtain ⟨hpc, hfree, hheld⟩ := heq
  rw [hfree, hheld] at hhomes
  exact ⟨s, hreach, hpc, hhomes, hwait .allocate hpc⟩

end Xtr.IoUring
