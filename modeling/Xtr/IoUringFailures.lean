import Xtr.IoUringSync

/-!
# Failed writes

A completion that reports an error that will not go away, such as a full disk, frees the
buffer as a complete write does: the storage gives its bytes up and goes on.  So for the
storage, a run with failed writes is one in which they succeeded, and it is another run of
the same machine (`Pretends`), with other files.  The files differ only in what the failed
writes were about.

It follows that a failed write loses its own bytes and no others
(`failed_writes_lose_themselves`): what is submitted before it and after it is written
where it would have been, and no byte outside what was submitted is touched.
-/
namespace Xtr.IoUring
variable {cfg : Config} {s s' : State} {e : Event}

/-! ## What is lost -/

/-- A range of a file. -/
structure Range where
  file : Nat
  start : Nat
  size : Nat
  deriving DecidableEq

/-- What the writes that fail in an event were about. -/
def loses (s : State) : Event → List Range
  | .complete j (.failed _) => (s.inflight[j]?.map fun q => ⟨q.file, q.fileOffset, q.size⟩).toList
  | _ => []

/-- A byte of one of the ranges. -/
def Lost (lost : List Range) (f x : Nat) : Prop :=
  ∃ r ∈ lost, f = r.file ∧ r.start ≤ x ∧ x < r.start + r.size

instance (lost : List Range) (f x : Nat) : Decidable (Lost lost f x) :=
  inferInstanceAs (Decidable (∃ r ∈ lost, _))

/-- The storage, with a record of what was lost. -/
def lossy (cfg : Config) (file : SparseFile) (position : Nat) :
    Machine (State × List Range) Event where
  init s := s = (initial cfg file position, [])
  step s e := (step cfg s.1 e).map fun s' => (s', s.2 ++ loses s.1 e)

/-- There is no `reopen`. -/
def Stays : Event → Prop
  | .reopen => False
  | _ => True

instance : Decidable (Stays e) :=
  match e with
  | .reopen => .isFalse id
  | .allocateBuffer | .submitBuffer _ | .flush | .sync | .reap | .waitError | .transfer _ _
  | .complete _ _ | .rename => .isTrue trivial

/-! ## The same run without failures -/

/-- The event, as if writes did not fail. -/
def pretend (s : State) : Event → Event
  | .complete j (.failed errnum) =>
    match s.inflight[j]? with
    | some q => .complete j (.wrote q.size)
    | none => .complete j (.failed errnum)
  | e => e

/-- Other files and completions. -/
def State.withIo (s : State) (files : Nat → SparseFile) (cq : List Cqe) : State :=
  { s with files := files, cq := cq }

/-- The completion, or one of a write that did not fail. -/
structure AsIf (s : State) (c d : Cqe) : Prop where
  buffer : d.buffer = c.buffer
  res : d.res = c.res ∨ c.res.isFailed = true ∧ d.res = .wrote (s.buffers c.buffer).size

/-- **The same state, as if no write had failed**: the files have what was lost. -/
structure Pretends (lost : List Range) (s : State) (files : Nat → SparseFile) (cq : List Cqe) :
    Prop where
  cq : List.Forall₂ (AsIf s) s.cq cq
  files : ∀ f x, ¬ Lost lost f x → (s.files f).data x = (files f).data x

variable {lost : List Range} {files : Nat → SparseFile} {cq : List Cqe}

/-- The storage does not see the difference. -/
theorem AsIf.retry {c d : Cqe} (h : AsIf s c d) :
    d.res.retry (s.buffers c.buffer).size = c.res.retry (s.buffers c.buffer).size := by
  rcases h.res with heq | ⟨hfailed, hwrote⟩
  · rw [heq]
  · rw [hwrote]
    cases hres : c.res with
    | failed errnum => exact if_neg (not_not_intro rfl)
    | wrote | again | canceled =>
      rw [hres] at hfailed
      cases hfailed

theorem forall₂_asIf {cs ds : List Cqe} (h : List.Forall₂ (AsIf s) cs ds)
    (hbuffers : ∀ c ∈ cs, s'.buffers c.buffer = s.buffers c.buffer) :
    List.Forall₂ (AsIf s') cs ds := by
  induction h with
  | nil => exact .nil
  | cons hcd _ ih =>
    refine .cons ⟨hcd.buffer, ?_⟩ (ih fun c hc => hbuffers c (List.mem_cons_of_mem _ hc))
    rw [hbuffers _ List.mem_cons_self]
    exact hcd.res

/-- Nothing that was completed changes. -/
theorem Pretends.keep (h : Pretends lost s files cq) (hcq : s'.cq = s.cq)
    (hfiles : s'.files = s.files)
    (hbuffers : ∀ c ∈ s.cq, s'.buffers c.buffer = s.buffers c.buffer) :
    Pretends lost s' files cq where
  cq := hcq ▸ forall₂_asIf h.cq hbuffers
  files := hfiles ▸ h.files

/-! ## Steps -/

theorem withIo_allocateLoop :
    allocateLoop (s.withIo files cq) = (allocateLoop s).withIo files cq := by
  unfold allocateLoop State.withIo
  cases s.freeList <;> rfl

theorem withIo_syncLoop : syncLoop (s.withIo files cq) = (syncLoop s).withIo files cq := by
  unfold syncLoop State.withIo
  dsimp only
  split <;> rfl

/-- A loop goes on, other than that of `replace_fd`. -/
theorem withIo_resume {loop : Loop} (hloop : ∀ fd, loop ≠ .replace fd) :
    resume (s.withIo files cq) loop = (resume s loop).withIo files cq := by
  cases loop with
  | allocate => exact withIo_allocateLoop
  | sync => exact withIo_syncLoop
  | replace fd => exact absurd rfl (hloop fd)

theorem withIo_submitBatch :
    submitBatch cfg (s.withIo files cq) = (submitBatch cfg s).withIo files cq := by
  unfold submitBatch
  by_cases hfull : s.batchIndex.toNat % cfg.batchSize = 0
  · rw [if_pos hfull, if_pos (show (s.withIo files cq).batchIndex.toNat % _ = 0 from hfull)]
    rfl
  · rw [if_neg hfull, if_neg (show ¬ (s.withIo files cq).batchIndex.toNat % _ = 0 from hfull)]

theorem withIo_submitBuffer {i : Nat} {bytes : List UInt8} (h : s.sq.length < cfg.queueSize) :
    submitBuffer cfg (s.withIo files cq) i bytes =
      (submitBuffer cfg s i bytes).withIo files cq := by
  have h' : (s.withIo files cq).sq.length < cfg.queueSize := h
  rw [submitBuffer_eq h, submitBuffer_eq h']
  have henqueue : enqueue cfg
      (returnBuffer (s.withIo files cq) i (((s.withIo files cq).buffers i).fill bytes)) i
        (((s.withIo files cq).buffers i).fill bytes) =
        (enqueue cfg (returnBuffer s i ((s.buffers i).fill bytes)) i
          ((s.buffers i).fill bytes)).withIo files cq := rfl
  rw [henqueue, withIo_submitBatch]

theorem withIo_resubmitBuffer {i n : Nat} (h : s.sq.length < cfg.queueSize) :
    resubmitBuffer cfg (s.withIo files cq) i n = (resubmitBuffer cfg s i n).withIo files cq := by
  have h' : (s.withIo files cq).sq.length < cfg.queueSize := h
  rw [resubmitBuffer_eq h, resubmitBuffer_eq h']
  rfl

theorem withIo_reapCqe {c d : Cqe} (h : AsIf s c d) (hlt : s.sq.length < cfg.queueSize) :
    reapCqe cfg (s.withIo files cq) d =
      ((reapCqe cfg s c).1.withIo files cq, (reapCqe cfg s c).2) := by
  have hretry : d.res.retry ((s.withIo files cq).buffers d.buffer).size =
      c.res.retry (s.buffers c.buffer).size := by
    rw [h.buffer]
    exact h.retry
  have hcount : ∀ n, resubmitBuffer cfg
      (State.withIo { s with pendingCqeCount := s.pendingCqeCount - 1 } files cq) c.buffer n =
        (resubmitBuffer cfg { s with pendingCqeCount := s.pendingCqeCount - 1 } c.buffer n).withIo
          files cq := fun n => withIo_resubmitBuffer hlt
  simp only [reapCqe, hretry]
  rw [h.buffer]
  cases c.res.retry (s.buffers c.buffer).size with
  | none => rfl
  | some n => exact congrArg (·, true) (hcount n)

/-- Reaping changes no buffer of another completion. -/
theorem buffers_reapCqe {c : Cqe} {rest : List Cqe} (hc : Core cfg s) (hcq : s.cq = c :: rest) :
    ∀ b ∈ rest, (reapCqe cfg { s with cq := rest } c).1.buffers b.buffer = s.buffers b.buffer := by
  intro b hb
  have hne : b.buffer ≠ c.buffer := by
    intro heq
    have hmem : b.buffer ∈ ({ s with cq := rest, pendingCqeCount := 0 } : State).pending :=
      mem_pending.mpr (.inr ⟨b, hb, rfl⟩)
    exact hc.not_mem_rest hcq (heq ▸ hmem)
  simp only [reapCqe]
  cases c.res.retry (s.buffers c.buffer).size with
  | none => rfl
  | some n =>
    dsimp only
    rw [resubmitBuffer_eq (hc.reaped hcq).length_lt.1]
    exact Function.update_of_ne hne ..

theorem cq_reapCqe {c : Cqe} {rest : List Cqe} (hc : Core cfg s) (hcq : s.cq = c :: rest) :
    (reapCqe cfg { s with cq := rest } c).1.cq = rest ∧
      (reapCqe cfg { s with cq := rest } c).1.files = s.files := by
  simp only [reapCqe]
  cases c.res.retry (s.buffers c.buffer).size with
  | none => exact ⟨rfl, rfl⟩
  | some n =>
    dsimp only
    rw [resubmitBuffer_eq (hc.reaped hcq).length_lt.1]
    exact ⟨rfl, rfl⟩

/-- One completion is reaped, and what is done about it is the same. -/
theorem Pretends.reapCqe {c : Cqe} {rest : List Cqe} (hc : Core cfg s)
    (h : Pretends lost s files cq) (hcq : s.cq = c :: rest) :
    ∃ d ds, cq = d :: ds ∧ Pretends lost (reapCqe cfg { s with cq := rest } c).1 files ds ∧
      IoUring.reapCqe cfg { s.withIo files cq with cq := ds } d =
        ((IoUring.reapCqe cfg { s with cq := rest } c).1.withIo files ds,
          (IoUring.reapCqe cfg { s with cq := rest } c).2) := by
  have hall := h.cq
  rw [hcq] at hall
  obtain ⟨d, ds, hcd, hrest, rfl⟩ := List.forall₂_cons_left_iff.mp hall
  obtain ⟨hcq', hfiles⟩ := cq_reapCqe hc hcq
  refine ⟨d, ds, rfl, ⟨?_, ?_⟩, ?_⟩
  · rw [hcq']
    exact forall₂_asIf hrest (buffers_reapCqe hc hcq)
  · rw [hfiles]
    exact h.files
  · have hcd' : AsIf { s with cq := rest } c d := ⟨hcd.buffer, hcd.res⟩
    exact withIo_reapCqe hcd' (hc.reaped hcq).length_lt.1

/-- Both write the same. -/
theorem Pretends.transfer (h : Pretends lost s files cq) (q : Sqe) (n : Nat) :
    Pretends lost (transfer s q n) (transfer (s.withIo files cq) q n).files cq where
  cq := forall₂_asIf h.cq fun _ _ => rfl
  files := by
    intro f x hx
    show (Function.update s.files q.file ((s.files q.file).pwrite q.fileOffset _) f).data x =
      (Function.update files q.file ((files q.file).pwrite q.fileOffset _) f).data x
    by_cases hf : f = q.file
    · subst hf
      rw [Function.update_self, Function.update_self]
      show (if _ then _ else (s.files q.file).data x) = (if _ then _ else (files q.file).data x)
      rw [h.files q.file x hx]
      rfl
    · rw [Function.update_of_ne hf, Function.update_of_ne hf]
      exact h.files f x hx

/-- A write that fails, and the same write if it did not. -/
theorem Pretends.fail (h : Pretends lost s files cq) (q : Sqe) :
    Pretends (lost ++ [⟨q.file, q.fileOffset, q.size⟩]) s
      (IoUring.transfer (s.withIo files cq) q q.size).files cq where
  cq := h.cq
  files := by
    intro f x hx
    have hold : ¬ Lost lost f x := fun ⟨r, hr, hin⟩ => hx ⟨r, List.mem_append_left _ hr, hin⟩
    rw [h.files f x hold]
    show _ = (Function.update files q.file ((files q.file).pwrite q.fileOffset _) f).data x
    by_cases hf : f = q.file
    · subst hf
      rw [Function.update_self, SparseFile.pwrite_data_of_outside]
      have hnew : ¬ (q.fileOffset ≤ x ∧ x < q.fileOffset + q.size) :=
        fun hin => hx ⟨_, List.mem_append_right _ List.mem_cons_self, rfl, hin⟩
      have hlen : ((payload (s.withIo files cq) q).take q.size).length ≤ q.size :=
        List.length_take_le _ _
      omega
    · rw [Function.update_of_ne hf]

/-- A completion is added. -/
theorem Pretends.completes (h : Pretends lost s files cq) {c d : Cqe} (hcd : AsIf s c d) (j : Nat) :
    Pretends lost { s with inflight := s.inflight.eraseIdx j, cq := s.cq ++ [c] } files
      (cq ++ [d]) where
  cq := forall₂_asIf (List.rel_append h.cq (.cons hcd .nil)) fun _ _ => rfl
  files := h.files

theorem Pretends.allocateLoop (h : Pretends lost s files cq) (hc : Core cfg s) :
    Pretends lost (allocateLoop s) files cq := by
  unfold IoUring.allocateLoop
  split
  · exact h.keep rfl rfl fun _ _ => rfl
  · rename_i i free hfree
    refine h.keep rfl rfl fun c hcq => Function.update_of_ne ?_ ..
    -- a free buffer is not pending
    rintro rfl
    have hcount := List.nodup_iff_count.mp hc.nodup_homes c.buffer
    have hpos := List.count_pos_iff.mpr (mem_pending.mpr (.inr ⟨c, hcq, rfl⟩))
    rw [State.homes, hfree] at hcount
    simp only [List.count_append, List.count_cons_self] at hcount
    omega

theorem Pretends.submitBuffer {i : Nat} {bytes : List UInt8} (h : Pretends lost s files cq)
    (hc : Core cfg s) (hi : s.held = some i) :
    Pretends lost (submitBuffer cfg s i bytes) files cq := by
  have hne : ∀ c ∈ s.cq, c.buffer ≠ i := by
    rintro c hcq rfl
    have hcount := List.nodup_iff_count.mp hc.nodup_homes c.buffer
    have hpos := List.count_pos_iff.mpr (mem_pending.mpr (.inr ⟨c, hcq, rfl⟩))
    rw [State.homes, hi, Option.toList_some] at hcount
    simp only [List.count_append, List.count_cons_self] at hcount
    omega
  rw [submitBuffer_eq hc.length_sq_lt]
  unfold submitBatch
  split <;> exact h.keep rfl rfl fun c hcq => Function.update_of_ne (hne c hcq) ..

theorem Pretends.resume {loop : Loop} (h : Pretends lost s files cq) (hc : Core cfg s)
    (hloop : ∀ fd, loop ≠ .replace fd) : Pretends lost (resume s loop) files cq := by
  cases loop with
  | allocate => exact h.allocateLoop hc
  | sync =>
    show Pretends lost (syncLoop s) files cq
    unfold syncLoop
    split <;> exact h.keep rfl rfl fun _ _ => rfl
  | replace fd => exact absurd rfl (hloop fd)

/-- A loop reaps a completion. -/
theorem step_reap {loop : Loop} {c : Cqe} {rest : List Cqe} (hpc : s.pc = .waiting loop)
    (hcq : s.cq = c :: rest) : step cfg s .reap =
      match reapCqe cfg { s with cq := rest } c with
      | (s, true) => some s
      | (s, false) => some (resume s loop) := by
  cases s
  dsimp only at hpc hcq
  subst hpc hcq
  rfl

/-- **A step is one as if no write had failed.** -/
theorem Pretends.step (h : Pretends lost s files cq) (hc : Core cfg s)
    (hmatches : ∀ q ∈ s.inflight, q.size = (s.buffers q.buffer).size)
    (hreplace : ∀ fd, s.pc ≠ .waiting (.replace fd)) (he : Stays e) (hs : step cfg s e = some s') :
    ∃ files' cq', step cfg (s.withIo files cq) (pretend s e) = some (s'.withIo files' cq') ∧
      Pretends (lost ++ loses s e) s' files' cq' := by
  have hloop : ∀ {loop}, s.pc = .waiting loop → ∀ fd, loop ≠ .replace fd := by
    rintro loop hpc fd rfl
    exact hreplace fd hpc
  -- nothing is lost but when a write fails
  have hnothing : ∀ {t files cq}, Pretends lost t files cq → Pretends (lost ++ []) t files cq :=
    fun h => (List.append_nil lost).symm ▸ h
  cases fires_of_step hs with
  | allocateBuffer hpc hheld =>
    exact ⟨files, cq, (if_pos ⟨hpc, hheld⟩).trans (congrArg some withIo_allocateLoop),
      hnothing (h.allocateLoop hc)⟩
  | @submitBuffer i bytes hpc hi hle =>
    refine ⟨files, cq, ?_, hnothing (h.submitBuffer hc hi)⟩
    have hheld : (s.withIo files cq).held = some i := hi
    simp only [pretend, IoUring.step, hheld]
    exact (if_pos ⟨hpc, hle⟩).trans (congrArg some (withIo_submitBuffer hc.length_sq_lt))
  | flush hpc => exact ⟨files, cq, if_pos hpc, hnothing (h.keep rfl rfl fun _ _ => rfl)⟩
  | sync hpc =>
    have hflush : Pretends lost (flush s) files cq := h.keep rfl rfl fun _ _ => rfl
    have hsync : syncLoop ((flush s).withIo files cq) = (syncLoop (flush s)).withIo files cq :=
      withIo_syncLoop
    have hkind : ∀ fd, Loop.sync ≠ .replace fd := by
      intro fd hfd
      cases hfd
    have hsame : Pretends lost (syncLoop (flush s)) files cq :=
      @Pretends.resume _ _ _ _ _ .sync hflush hc.flush hkind
    exact ⟨files, cq, (if_pos hpc).trans (congrArg some hsync), hnothing hsame⟩
  | reopen => exact he.elim
  | @retry loop c rest hpc hcq hretry =>
    obtain ⟨d, ds, rfl, hpretends, hreap⟩ := h.reapCqe hc hcq
    refine ⟨files, ds, ?_, hnothing hpretends⟩
    have hpc' : (s.withIo files (d :: ds)).pc = .waiting loop := hpc
    show step cfg (s.withIo files (d :: ds)) .reap = _
    rw [step_reap hpc' rfl, hreap, hretry]
  | @reap loop c rest hpc hcq hfreed =>
    obtain ⟨d, ds, rfl, hpretends, hreap⟩ := h.reapCqe hc hcq
    refine ⟨files, ds, ?_, hnothing (hpretends.resume (hc.reapCqe hcq).1 (hloop hpc))⟩
    have hpc' : (s.withIo files (d :: ds)).pc = .waiting loop := hpc
    show step cfg (s.withIo files (d :: ds)) .reap = _
    rw [step_reap hpc' rfl, hreap, hfreed]
    exact congrArg some (withIo_resume (hloop hpc))
  | waitError hpc =>
    refine ⟨files, cq, ?_, hnothing (h.resume hc (hloop hpc))⟩
    have hpc' : (s.withIo files cq).pc = .waiting _ := hpc
    simp only [pretend, IoUring.step, hpc']
    exact congrArg some (withIo_resume (hloop hpc))
  | @transfer j n q hj hn =>
    refine ⟨_, cq, ?_, hnothing (h.transfer q n)⟩
    have hj' : (s.withIo files cq).inflight[j]? = some q := hj
    simp only [pretend, IoUring.step, hj']
    exact if_pos hn
  | @complete j res q hj hres =>
    have hj' : (s.withIo files cq).inflight[j]? = some q := hj
    cases res with
    | failed errnum =>
      have hlost : loses s (.complete j (.failed errnum)) = [⟨q.file, q.fileOffset, q.size⟩] := by
        simp only [loses, hj, Option.map_some, Option.toList_some]
      have hasif : AsIf s ⟨q.buffer, .failed errnum⟩ ⟨q.buffer, .wrote q.size⟩ :=
        ⟨rfl, .inr ⟨rfl, congrArg Res.wrote (hmatches q (List.mem_of_getElem? hj))⟩⟩
      rw [hlost]
      refine ⟨_, _, ?_, ((h.fail q).completes hasif j).keep rfl ?_ fun _ _ => rfl⟩
      · simp only [pretend, hj, IoUring.step, hj']
        exact if_pos (Nat.le_refl _)
      · -- the failed write has not written anything more
        show Function.update s.files q.file ((s.files q.file).pwrite q.fileOffset
          ((payload s q).take 0)) = s.files
        rw [List.take_zero, SparseFile.pwrite_nil, Function.update_eq_self]
    | wrote | again | canceled =>
      refine ⟨_, _, ?_, hnothing ((h.transfer q _).completes ⟨rfl, .inl rfl⟩ j)⟩
      simp only [pretend, IoUring.step, hj']
      exact if_pos hres
  | rename => exact ⟨files, cq, rfl, hnothing (h.keep rfl rfl fun _ _ => rfl)⟩

/-- The writes of that run do not fail. -/
theorem appends_pretend (he : Stays e) (hs : step cfg s e = some s') : Appends (pretend s e) := by
  cases fires_of_step hs with
  | reopen => exact he
  | @complete j res q hj _ =>
    cases res with
    | failed errnum =>
      simp only [pretend, hj]
      rfl
    | wrote | again | canceled => rfl
  | _ => exact trivial

/-! ## Runs -/

/-- **The invariant of runs with failures**: there is a run without them, to the same state
but for the files. -/
structure Recovered (cfg : Config) (init : Nat → SparseFile) (position : Nat) (s : State)
    (lost : List Range) : Prop where
  booked : Booked cfg s
  pretends : ∃ files cq, Pretends lost s files cq ∧ Booked cfg (s.withIo files cq) ∧
    Session init (s.withIo files cq) ∧ Streamed init position (s.withIo files cq)

variable {init : Nat → SparseFile} {position : Nat}

theorem Recovered.step (h : Recovered cfg init position s lost) (he : Stays e)
    (hs : step cfg s e = some s') : Recovered cfg init position s' (lost ++ loses s e) := by
  obtain ⟨files, cq, hpretends, hbooked, hsession, hstreamed⟩ := h.pretends
  have hmatches : ∀ q ∈ s.inflight, q.size = (s.buffers q.buffer).size :=
    fun q hq => (hsession.stored.sqe q (.inr hq)).size
  obtain ⟨files', cq', hstep, hpretends'⟩ :=
    hpretends.step h.booked.core hmatches hstreamed.appends he hs
  have happends := appends_pretend he hs
  obtain ⟨hassumed, hsees⟩ := happends.assumed (s := s.withIo files cq)
  exact ⟨step_booked h.booked hs, files', cq', hpretends', step_booked hbooked hstep,
    step_session hsession hbooked hassumed hsees hstep,
    step_streamed hstreamed hsession hbooked happends hstep⟩

theorem recovered_of_reachable {file : SparseFile}
    (h : (lossy cfg file position).ReachableBy (fun _ e => Stays e) (s, lost)) :
    Recovered cfg (initial cfg file position).files position s lost := by
  refine Machine.ReachableBy.invariant
    (I := fun s => Recovered cfg (initial cfg file position).files position s.1 s.2) h ?_ ?_
  · rintro s rfl
    refine ⟨initial_booked file position, _, [], ⟨.nil, fun _ _ _ => rfl⟩,
      initial_booked file position, initial_session file position, rfl, rfl, ?_,
      fun fd hfd => (nomatch hfd)⟩
    exact SparseFile.pwrite_nil.symm
  · rintro ⟨s, lost⟩ e s' hrecovered he hs
    obtain ⟨t, hstep, rfl⟩ := Option.map_eq_some_iff.mp hs
    exact hrecovered.step he hstep

/-- `sync` returns in a step that is no `reopen`, and in which nothing is lost. -/
theorem SyncReturns.stays (h : SyncReturns cfg s e s') : Stays e ∧ loses s e = [] := by
  have hwaits : e ≠ .sync → s.pc = .waiting .sync := fun hne => h.called.resolve_left hne
  cases fires_of_step h.step with
  | reopen hpc =>
    rw [hwaits (by simp)] at hpc
    cases hpc
  | complete _ _ =>
    have hidle : s.pc = .idle := h.idle
    rw [hwaits (by simp)] at hidle
    cases hidle
  | _ => exact ⟨trivial, rfl⟩

/-- **A failed write loses only its own bytes.**  In a run without a `reopen`, whatever the
kernel completes in whatever order, in part, or with an error: when `sync` returns, the file
has the submitted buffers one after the other from the initial offset on, and every other
byte as before, but for the bytes that writes had left to write when they failed. -/
theorem failed_writes_lose_themselves {file : SparseFile}
    (h : (lossy cfg file position).ReachableBy (fun _ e => Stays e) (s, lost))
    (hret : SyncReturns cfg s e s') {x : Nat} (hx : ¬ Lost lost 0 x) :
    (s'.files 0).data x = (file.pwrite position s'.stream).data x := by
  have hrecovered := recovered_of_reachable h
  obtain ⟨hstays, hnothing⟩ := hret.stays
  have hpending := hret.pending hrecovered.booked
  obtain ⟨files, cq, hpretends, -, hsession, hstreamed⟩ :=
    (hrecovered.step hstays hret.step).pretends
  rw [hnothing, List.append_nil] at hpretends
  -- nothing is pending in the run without failures either
  have hnone : (s'.withIo files cq).pending = [] := by
    have hlen : (s'.withIo files cq).pending.length = s'.pending.length := by
      rw [length_pending, length_pending, hpretends.cq.length_eq]
      rfl
    rw [hpending] at hlen
    exact List.length_eq_zero_iff.mp hlen
  have hfiles : files = expected (initial cfg file position).files s'.log :=
    hsession.stored.files_eq hnone
  have hexpected : expected (initial cfg file position).files s'.log 0 =
      file.pwrite position s'.stream := hstreamed.expected
  rw [hpretends.files 0 x hx, hfiles, hexpected]

/-- Three buffers; the write of the second fails. -/
def fullDisk : List Event :=
  [.allocateBuffer, .submitBuffer [1], .allocateBuffer, .submitBuffer [2], .sync,
    .complete 1 (.failed 28), .complete 0 (.wrote 1), .reap]

/-- The first is in the file, and the second is not. -/
theorem failed_writes_lose_themselves_full : ∃ s lost s',
    (lossy pair .empty 3).ReachableBy (fun _ e => Stays e) (s, lost) ∧
    SyncReturns pair s .reap s' ∧ s'.stream = [1, 2] ∧ lost = [⟨0, 4, 1⟩] ∧
    (s'.files 0).data 3 = 1 ∧ (s'.files 0).data 4 = 0 := by
  have hrun : ((lossy pair .empty 3).runBy (fun _ e => Stays e) (initial pair .empty 3, [])
      fullDisk).any (fun s => s.2 = [⟨0, 4, 1⟩] ∧ s.1.pc = .waiting .sync ∧
        (step pair s.1 .reap).any fun s' =>
          s'.pc = .idle ∧ s'.stream = [1, 2] ∧ (s'.files 0).data 4 = 0) = true := by decide +kernel
  obtain ⟨⟨s, lost⟩, hr, hall⟩ := (Option.any_eq_true ..).mp hrun
  obtain ⟨hlost, hpc, hstep⟩ := of_decide_eq_true hall
  obtain ⟨s', hs', hall⟩ := (Option.any_eq_true ..).mp hstep
  obtain ⟨hidle, hstream, hdata⟩ := of_decide_eq_true hall
  have hreach : (lossy pair .empty 3).ReachableBy (fun _ e => Stays e) (s, lost) :=
    Machine.ReachableBy.runBy (.start rfl) hr
  have hlost : lost = [⟨0, 4, 1⟩] := hlost
  have hret : SyncReturns pair s .reap s' := ⟨hs', .inr hpc, hidle⟩
  have hkept : (s'.files 0).data 3 = _ :=
    failed_writes_lose_themselves hreach hret (by rw [hlost]; decide)
  rw [hstream] at hkept
  exact ⟨s, lost, s', hreach, hret, hstream, hlost, hkept, hdata⟩

end Xtr.IoUring
