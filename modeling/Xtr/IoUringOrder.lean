import Xtr.Buffer
import Xtr.IoUringSync

/-!
# The order of writes on io_uring

`submit_buffer` sets `IOSQE_IO_HARDLINK` on every write, and `IOSQE_IO_DRAIN` on the first of
a batch.  A chain of hard-linked writes ends where the entries are handed over, so two
consecutive writes are ordered if the second is the next entry after the first, with no
`io_uring_submit` in between, or if the second drains.

Which write is the first of a batch is decided by `batch_index_`.  A full batch and `flush`
keep it in step with the calls of `io_uring_submit`, and so does `get_sqe`, which calls
`flush`.  `resubmit_buffer` does not: in the middle of a batch it hands over what is prepared
and leaves the index as it is (`retry_breaks_chain`).

The calls to the ring are recorded beside the state of the storage.
-/
namespace Xtr.IoUring

deriving instance DecidableEq for Sqe

/-! ## The calls to the ring -/

/-- A call to the ring: a write is prepared, by `submit_buffer` or by `resubmit_buffer`, or
`io_uring_submit`. -/
inductive Call
  | first (sqe : Sqe)
  | again (sqe : Sqe)
  | submit
  deriving DecidableEq

section Calls
variable (cfg : Config)

/-- The calls of `get_sqe`. -/
def getSqeCalls (s : State) : List Call :=
  if s.sq.length < cfg.sqEntries then [] else [.submit]

/-- The calls of `submit_buffer`. -/
def submitBufferCalls (s : State) (i : Nat) (bytes : List UInt8) : List Call :=
  let buf := (s.buffers i).fill bytes
  let s := returnBuffer s i buf
  let t := getSqe cfg s
  getSqeCalls cfg s ++ [.first (firstWrite cfg t i buf)] ++
    if (t.batchIndex + 1).toNat % cfg.batchSize = 0 then [.submit] else []

/-- The calls of `resubmit_buffer`. -/
def resubmitBufferCalls (s : State) (i nwritten : Nat) : List Call :=
  let buf := (s.buffers i).advance nwritten
  let s := setBuffer s i buf
  getSqeCalls cfg s ++ [.again (nextWrite (getSqe cfg s) i buf), .submit]

/-- The calls of `wait_for_one_cqe` once a completion is there. -/
def reapCqeCalls (s : State) (cqe : Cqe) : List Call :=
  let s := { s with pendingCqeCount := s.pendingCqeCount - 1 }
  match cqe.res.retry (s.buffers cqe.buffer).size with
  | some nwritten => resubmitBufferCalls cfg s cqe.buffer nwritten
  | none => []

/-- The calls of one step. -/
def ringCalls (s : State) : Event → List Call
  | .submitBuffer bytes =>
    match s.held with
    | some i => submitBufferCalls cfg s i bytes
    | none => []
  | .flush | .sync | .reopen => [.submit]
  | .reap =>
    match s.cq with
    | cqe :: cq => reapCqeCalls cfg { s with cq := cq } cqe
    | [] => []
  | _ => []

/-- The storage, with every call it has made to the ring. -/
structure History where
  state : State
  calls : List Call

def History.step (h : History) (e : Event) : Option History :=
  (IoUring.step cfg h.state e).map fun s => ⟨s, h.calls ++ ringCalls cfg h.state e⟩

def historyMachine (file : SparseFile) (position : Nat) : Machine History Event where
  init h := h = ⟨initial cfg file position, []⟩
  step := History.step cfg

end Calls

/-! ## What the calls do -/

/-- The entries that are prepared and those that were handed over, after a call. -/
def Call.ring (r : List Sqe × List Sqe) : Call → List Sqe × List Sqe
  | .first sqe | .again sqe => (r.1 ++ [sqe], r.2)
  | .submit => ([], r.2 ++ r.1)

/-- The entries of a state. -/
def State.ring (s : State) : List Sqe × List Sqe := (s.sq, s.inflight)

variable {cfg : Config} {s s' : State} {e : Event}

theorem ring_getSqe (s : State) :
    (getSqe cfg s).ring = (getSqeCalls cfg s).foldl Call.ring s.ring := by
  unfold getSqe getSqeCalls
  split <;> rfl

theorem submitBatch_enqueue (s : State) (i : Nat) (buf : Buffer) :
    submitBatch cfg (enqueue cfg s i buf) =
      if (s.batchIndex + 1).toNat % cfg.batchSize = 0 then ioUringSubmit (enqueue cfg s i buf)
      else enqueue cfg s i buf :=
  rfl

theorem ring_submitBuffer (s : State) (i : Nat) (bytes : List UInt8) :
    (submitBuffer cfg s i bytes).ring =
      (submitBufferCalls cfg s i bytes).foldl Call.ring s.ring := by
  unfold submitBuffer submitBufferCalls
  simp only [List.foldl_append]
  have hget : (getSqe cfg (returnBuffer s i ((s.buffers i).fill bytes))).ring = _ := ring_getSqe _
  generalize getSqe cfg (returnBuffer s i ((s.buffers i).fill bytes)) = t at hget ⊢
  rw [show s.ring = (returnBuffer s i ((s.buffers i).fill bytes)).ring from rfl, ← hget]
  rw [submitBatch_enqueue]
  split <;> rfl

theorem ring_resubmitBuffer (s : State) (i nwritten : Nat) :
    (resubmitBuffer cfg s i nwritten).ring =
      (resubmitBufferCalls cfg s i nwritten).foldl Call.ring s.ring := by
  unfold resubmitBuffer resubmitBufferCalls
  simp only [List.foldl_append]
  rw [show s.ring = (setBuffer s i ((s.buffers i).advance nwritten)).ring from rfl, ← ring_getSqe]
  rfl

theorem ring_reapCqe (s : State) (cqe : Cqe) :
    (reapCqe cfg s cqe).1.ring = (reapCqeCalls cfg s cqe).foldl Call.ring s.ring := by
  cases hr : cqe.res.retry (s.buffers cqe.buffer).size with
  | none =>
    simp only [reapCqe, reapCqeCalls, hr]
    rfl
  | some nwritten =>
    simp only [reapCqe, reapCqeCalls, hr]
    exact ring_resubmitBuffer _ cqe.buffer nwritten

/-- The loops leave the ring and the batch alone. -/
theorem resume_keeps (s : State) (loop : Loop) :
    (resume s loop).ring = s.ring ∧ (resume s loop).batchIndex = s.batchIndex := by
  cases loop with
  | allocate =>
    show (allocateLoop s).ring = s.ring ∧ (allocateLoop s).batchIndex = s.batchIndex
    unfold allocateLoop
    split <;> exact ⟨rfl, rfl⟩
  | sync =>
    show (syncLoop s).ring = s.ring ∧ (syncLoop s).batchIndex = s.batchIndex
    unfold syncLoop
    split <;> exact ⟨rfl, rfl⟩
  | replace fd =>
    show (replaceLoop s fd).ring = s.ring ∧ (replaceLoop s fd).batchIndex = s.batchIndex
    unfold replaceLoop
    split <;> exact ⟨rfl, rfl⟩

theorem ring_openAtEnd (s : State) : (openAtEnd s).1.ring = s.ring := by
  unfold openAtEnd
  split <;> rfl

/-- A write is completed by the kernel. -/
def Event.completes : Event → Bool
  | .complete .. => true
  | _ => false

/-- **The calls are what a step does to the ring**: from the entries before it they make those
after it, less the write that the kernel completes. -/
theorem ring_step (hs : step cfg s e = some s') :
    s'.sq = ((ringCalls cfg s e).foldl Call.ring s.ring).1 ∧
      (e.completes = false → s'.ring = (ringCalls cfg s e).foldl Call.ring s.ring) := by
  have hall : s'.ring = (ringCalls cfg s e).foldl Call.ring s.ring →
      s'.sq = ((ringCalls cfg s e).foldl Call.ring s.ring).1 ∧
      (e.completes = false → s'.ring = (ringCalls cfg s e).foldl Call.ring s.ring) :=
    fun h => ⟨congrArg Prod.fst h, fun _ => h⟩
  cases fires_of_step hs with
  | allocateBuffer => exact hall (resume_keeps s .allocate).1
  | @submitBuffer i bytes _ hheld =>
    refine hall ?_
    simp only [ringCalls, hheld]
    exact ring_submitBuffer s i bytes
  | flush => exact hall rfl
  | sync => exact hall (resume_keeps (flush s) .sync).1
  | reopen =>
    refine hall ((resume_keeps (flush (openAtEnd s).1) (.replace (openAtEnd s).2)).1.trans ?_)
    show ([], (openAtEnd s).1.ring.2 ++ (openAtEnd s).1.ring.1) = ([], s.ring.2 ++ s.ring.1)
    rw [ring_openAtEnd]
  | retry _ hcq =>
    refine hall ?_
    simp only [ringCalls, hcq]
    exact ring_reapCqe _ _
  | reap _ hcq =>
    refine hall ?_
    simp only [ringCalls, hcq]
    exact (resume_keeps _ _).1.trans (ring_reapCqe _ _)
  | waitError => exact hall (resume_keeps s _).1
  | transfer => exact hall rfl
  | complete => exact ⟨rfl, nofun⟩
  | rename => exact hall rfl

/-! ## The order -/

/-- **Consecutive writes of `submit_buffer` are ordered**: the second is the next entry after
the first, which is linked to it, or it drains. -/
def Ordered (calls : List Call) : Prop :=
  ∀ before x between y after, calls = before ++ .first x :: between ++ .first y :: after →
    (∀ z, Call.first z ∉ between) → (between = [] ∧ x.hardlink = true) ∨ y.drain = true

/-- The last call prepared a write that is linked to the next entry. -/
def Chained (calls : List Call) : Prop :=
  ∃ before x, calls = before ++ [.first x] ∧ x.hardlink = true

/-- The next write of `submit_buffer` drains. -/
def State.Drains (cfg : Config) (s : State) : Prop := s.batchIndex.toNat % cfg.batchSize = 0

theorem Ordered.nil : Ordered [] := by
  intro before x between y after h
  simp at h

/-- Any call but the preparation of a first write. -/
theorem Ordered.concat {calls : List Call} {c : Call} (h : Ordered calls)
    (hc : ∀ z, c ≠ .first z) : Ordered (calls ++ [c]) := by
  intro before x between y after heq
  rcases Buffer.concat_eq_append_cons heq with ⟨-, hy⟩ | ⟨rest, hrest⟩
  · exact absurd hy.symm (hc y)
  · exact h before x between y rest hrest

theorem Ordered.concat_first {calls : List Call} {y : Sqe} (h : Ordered calls)
    (hy : Chained calls ∨ y.drain = true) : Ordered (calls ++ [.first y]) := by
  intro before x between z after heq hbetween
  rcases Buffer.concat_eq_append_cons heq with ⟨hcalls, hz⟩ | ⟨rest, hrest⟩
  · cases hz
    rcases hy with ⟨init, w, hlast, hlink⟩ | hdrain
    · -- the last call is the preparation of `x`
      rcases List.eq_nil_or_concat between with rfl | ⟨between, c, rfl⟩
      · rw [hlast] at hcalls
        obtain ⟨-, hx⟩ := List.append_inj' hcalls rfl
        cases hx
        exact .inl ⟨rfl, hlink⟩
      · rw [hlast, List.concat_eq_append, ← List.cons_append, ← List.append_assoc] at hcalls
        obtain ⟨-, hc⟩ := List.append_inj' hcalls rfl
        cases hc
        exact absurd (by simp) (hbetween w)
    · exact .inr hdrain
  · exact h before x between z rest hrest hbetween

/-- The order so far, and what the next write of `submit_buffer` needs. -/
structure InStep (cfg : Config) (h : History) : Prop where
  ordered : Ordered h.calls
  next : Chained h.calls ∨ h.state.Drains cfg

/-- A retry is reaped only where a batch ends. -/
def RetriesBetweenBatches (cfg : Config) (h : History) (e : Event) : Prop :=
  0 < h.state.retries e → h.state.batchIndex.toNat % cfg.batchSize = 0

instance (h : History) (e : Event) : Decidable (RetriesBetweenBatches cfg h e) :=
  inferInstanceAs (Decidable (0 < h.state.retries e → _ = 0))

variable {h h' : History} {calls : List Call}

theorem drains_zero (hs : s.batchIndex = 0) : s.Drains cfg := by
  rw [State.Drains, hs]
  exact Nat.zero_mod _

theorem InStep.keep (h : InStep cfg ⟨s, calls⟩) (hb : s'.batchIndex = s.batchIndex) :
    InStep cfg ⟨s', calls⟩ := by
  refine ⟨h.ordered, h.next.imp_right fun hd => ?_⟩
  show s'.batchIndex.toNat % cfg.batchSize = 0
  rw [hb]
  exact hd

/-- `io_uring_submit`, where the next write drains. -/
theorem InStep.submit (h : InStep cfg ⟨s, calls⟩) (hd : s'.Drains cfg) :
    InStep cfg ⟨s', calls ++ [.submit]⟩ :=
  ⟨h.ordered.concat nofun, .inr hd⟩

theorem InStep.getSqe (h : InStep cfg ⟨s, calls⟩) :
    InStep cfg ⟨getSqe cfg s, calls ++ getSqeCalls cfg s⟩ := by
  unfold IoUring.getSqe getSqeCalls
  split
  · rwa [List.append_nil]
  · exact h.submit (drains_zero rfl)

theorem InStep.submitBuffer (h : InStep cfg ⟨s, calls⟩) (i : Nat) (bytes : List UInt8) :
    InStep cfg ⟨submitBuffer cfg s i bytes, calls ++ submitBufferCalls cfg s i bytes⟩ := by
  unfold IoUring.submitBuffer submitBufferCalls
  have hreturn : InStep cfg ⟨returnBuffer s i ((s.buffers i).fill bytes), calls⟩ := h.keep rfl
  have hget := hreturn.getSqe
  dsimp only
  generalize IoUring.getSqe cfg (returnBuffer s i ((s.buffers i).fill bytes)) = t at hget ⊢
  rw [← List.append_assoc, ← List.append_assoc, submitBatch_enqueue]
  have hfirst := hget.ordered.concat_first (y := firstWrite cfg t i ((s.buffers i).fill bytes))
    (hget.next.imp_right fun hd => decide_eq_true hd)
  split
  · -- a full batch: the next write is the first of another
    exact ⟨hfirst.concat nofun, .inr (by assumption)⟩
  · rw [List.append_nil]
    exact ⟨hfirst, .inl ⟨_, _, rfl, rfl⟩⟩

theorem InStep.resubmitBuffer (h : InStep cfg ⟨s, calls⟩) (hd : s.Drains cfg) (i nwritten : Nat) :
    InStep cfg
      ⟨resubmitBuffer cfg s i nwritten, calls ++ resubmitBufferCalls cfg s i nwritten⟩ := by
  have hset : InStep cfg ⟨setBuffer s i ((s.buffers i).advance nwritten), calls⟩ := h.keep rfl
  have hget := hset.getSqe.ordered
  have hdget :
      (IoUring.getSqe cfg (setBuffer s i ((s.buffers i).advance nwritten))).Drains cfg := by
    unfold IoUring.getSqe
    split
    · exact hd
    · exact drains_zero rfl
  unfold resubmitBufferCalls
  rw [← List.append_assoc, ← List.singleton_append, ← List.append_assoc]
  exact ⟨(hget.concat (c := .again _) nofun).concat nofun, .inr hdget⟩

theorem InStep.reapCqe {cqe : Cqe} (h : InStep cfg ⟨s, calls⟩)
    (hd : (cqe.res.retry (s.buffers cqe.buffer).size).isSome = true → s.Drains cfg) :
    InStep cfg ⟨(reapCqe cfg s cqe).1, calls ++ reapCqeCalls cfg s cqe⟩ := by
  have hcount : InStep cfg ⟨{ s with pendingCqeCount := s.pendingCqeCount - 1 }, calls⟩ :=
    h.keep rfl
  cases hr : cqe.res.retry (s.buffers cqe.buffer).size with
  | none =>
    simp only [IoUring.reapCqe, reapCqeCalls, hr, List.append_nil]
    exact hcount.keep rfl
  | some nwritten =>
    simp only [IoUring.reapCqe, reapCqeCalls, hr]
    exact hcount.resubmitBuffer (hd (by rw [hr]; rfl)) cqe.buffer nwritten

/-- **Every step keeps `batch_index_` in step with `io_uring_submit`**, if it is not a retry in
the middle of a batch. -/
theorem InStep.step {e : Event} (hi : InStep cfg ⟨s, calls⟩)
    (hp : RetriesBetweenBatches cfg ⟨s, calls⟩ e) (hs : step cfg s e = some s') :
    InStep cfg ⟨s', calls ++ ringCalls cfg s e⟩ := by
  have hquiet : ∀ {t : State} {e : Event}, ringCalls cfg s e = [] → t.batchIndex = s.batchIndex →
      InStep cfg ⟨t, calls ++ ringCalls cfg s e⟩ := fun hnil hb => by
    rw [hnil, List.append_nil]
    exact hi.keep hb
  have hretry : ∀ {cqe : Cqe} {cq : List Cqe}, e = .reap → s.cq = cqe :: cq →
      (cqe.res.retry (s.buffers cqe.buffer).size).isSome = true → s.Drains cfg := by
    rintro cqe cq rfl hcq hr
    refine hp ?_
    simp only [State.retries, hcq, if_pos hr, Nat.zero_lt_one]
  cases fires_of_step hs with
  | allocateBuffer => exact hquiet rfl (resume_keeps s .allocate).2
  | @submitBuffer i bytes _ hheld =>
    simp only [ringCalls, hheld]
    exact hi.submitBuffer i bytes
  | flush => exact hi.submit (drains_zero rfl)
  | sync => exact hi.submit (drains_zero (resume_keeps (flush s) .sync).2)
  | reopen => exact hi.submit (drains_zero (resume_keeps (flush _) (.replace _)).2)
  | @retry loop cqe cq _ hcq =>
    have hpop : InStep cfg ⟨{ s with cq := cq }, calls⟩ := hi.keep rfl
    simp only [ringCalls, hcq]
    exact hpop.reapCqe (hretry rfl hcq)
  | @reap loop cqe cq _ hcq =>
    have hpop : InStep cfg ⟨{ s with cq := cq }, calls⟩ := hi.keep rfl
    simp only [ringCalls, hcq]
    exact (hpop.reapCqe (hretry rfl hcq)).keep (resume_keeps _ _).2
  | waitError => exact hquiet rfl (resume_keeps s _).2
  | transfer => exact hquiet rfl rfl
  | complete => exact hquiet rfl rfl
  | rename => exact hquiet rfl rfl

/-- **First writes are ordered** in every run in which retries are reaped only where a batch
ends. -/
theorem first_writes_ordered {file : SparseFile} {position : Nat}
    (hr : (historyMachine cfg file position).ReachableBy (RetriesBetweenBatches cfg) h) :
    Ordered h.calls := by
  have hi : InStep cfg h := by
    refine hr.invariant ?_ ?_
    · rintro _ rfl
      exact ⟨.nil, .inr (drains_zero rfl)⟩
    · rintro ⟨s, calls⟩ e h' hi hp hs
      obtain ⟨s', hstep, rfl⟩ := Option.map_eq_some_iff.mp hs
      exact hi.step hp hstep
  exact hi.ordered

/-- The flags of the writes and the calls of `io_uring_submit`, in order. -/
def Call.flags : Call → Option (Bool × Bool)
  | .first sqe | .again sqe => some (sqe.hardlink, sqe.drain)
  | .submit => none

/-- A batch of two is followed by a retry, and the next write drains. -/
theorem first_writes_ordered_retry : ∃ h, (historyMachine pair .empty 0).ReachableBy
      (RetriesBetweenBatches pair) h ∧
    h.calls.map Call.flags = [some (true, true), some (true, false), none, some (false, false),
      none, some (true, true)] ∧ Ordered h.calls := by
  have hrun : ((historyMachine pair .empty 0).runBy (RetriesBetweenBatches pair)
      ⟨initial pair .empty 0, []⟩ [.allocateBuffer, .submitBuffer [1], .allocateBuffer,
        .submitBuffer [2], .allocateBuffer, .complete 0 .again, .reap, .complete 0 (.wrote 1),
        .reap, .submitBuffer [3]]).map (fun h => h.calls.map Call.flags) =
      some [some (true, true), some (true, false), none, some (false, false), none,
        some (true, true)] := by
    decide +kernel
  obtain ⟨h, hreach, hflags⟩ := Machine.exists_reachableBy hrun rfl
  exact ⟨h, hreach, hflags, first_writes_ordered hreach⟩

/-- Three buffers, handed over two at a time. -/
def triple : Config where
  bufferCapacity := 4
  queueSize := 3
  batchSize := 2
  sqEntries := 4
  capacity_le := pair.capacity_le
  queue_le := by decide
  batch_pos := pair.batch_pos
  batch_le := by decide
  queue_le_entries := by decide

/-- `allocate_buffer` waits with one write prepared, and reaps a retry: `resubmit_buffer` hands
the prepared write over, and the write after it neither drains nor is in the same
`io_uring_submit`. -/
theorem retry_breaks_chain : ∃ h, (historyMachine triple .empty 0).Reachable h ∧
    ∃ before x r y after,
      h.calls = before ++ .first x :: [.again r, .submit] ++ .first y :: after ∧
      y.drain = false ∧ ¬ Ordered h.calls := by
  have hrun : ((historyMachine triple .empty 0).run ⟨initial triple .empty 0, []⟩
      [.allocateBuffer, .submitBuffer [1], .allocateBuffer, .submitBuffer [2], .allocateBuffer,
        .submitBuffer [3], .allocateBuffer, .complete 0 .again, .reap, .complete 0 (.wrote 1),
        .reap, .submitBuffer [4]]).map (fun h => h.calls) =
      some ([Call.first ⟨0, 0, 0, 1, 0, true, true⟩, .first ⟨0, 1, 0, 1, 1, true, false⟩,
          .submit] ++
        Call.first ⟨0, 2, 0, 1, 2, true, true⟩ ::
          [Call.again ⟨0, 0, 0, 1, 0, false, false⟩, .submit] ++
        Call.first ⟨0, 1, 0, 1, 3, true, false⟩ :: [Call.submit]) := by
    decide +kernel
  obtain ⟨h, hreach, hcalls⟩ := Machine.exists_reachable hrun rfl
  refine ⟨h, hreach, _, _, _, _, _, hcalls, rfl, fun hordered => ?_⟩
  rcases hordered _ _ _ _ _ hcalls (by simp) with ⟨hnil, -⟩ | hdrain
  · cases hnil
  · cases hdrain

end Xtr.IoUring
