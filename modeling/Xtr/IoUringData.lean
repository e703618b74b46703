import Xtr.IoUringBookkeeping

/-!
# What reaches the files

The abstract model is a synchronous storage: every submitted buffer is in its file
at once (`expected`).  The io_uring storage is behind it by exactly the pending
buffers: a byte of a file is what it should be, or it belongs to a pending buffer
that still carries it (`Stored.bytes`).  Short and retryable writes only move the
boundary between the two, so the order in which the kernel completes, and how often
it does so in part, does not matter.
-/
namespace Xtr.IoUring
variable {cfg : Config} {s : State}

/-! ## The synchronous storage -/

/-- The write a submitted buffer asks for. -/
def Chunk.write (files : Nat → SparseFile) (c : Chunk) : Nat → SparseFile :=
  Function.update files c.file ((files c.file).pwrite c.start c.bytes)

/-- The files after all the writes submitted so far. -/
def expected (files : Nat → SparseFile) (log : List Chunk) : Nat → SparseFile :=
  log.foldl Chunk.write files

theorem expected_concat (files : Nat → SparseFile) (log : List Chunk) (c : Chunk) :
    expected files (log ++ [c]) = c.write (expected files log) := by
  rw [expected, List.foldl_append]
  rfl

theorem Chunk.write_self (files : Nat → SparseFile) (c : Chunk) :
    c.write files c.file = (files c.file).pwrite c.start c.bytes :=
  Function.update_self ..

theorem Chunk.write_of_ne (files : Nat → SparseFile) (c : Chunk) {f : Nat} (h : f ≠ c.file) :
    c.write files f = files f :=
  Function.update_of_ne h ..

/-- A write changes the bytes of its range only. -/
theorem Chunk.write_data_of_outside {files : Nat → SparseFile} {c : Chunk} {f x : Nat}
    (h : f = c.file → x < c.start ∨ c.start + c.bytes.length ≤ x) :
    (c.write files f).data x = (files f).data x := by
  by_cases hf : f = c.file
  · subst hf
    rw [c.write_self]
    exact SparseFile.pwrite_data_of_outside (h rfl)
  · rw [c.write_of_ne files hf]

theorem Chunk.size_le_write (files : Nat → SparseFile) (c : Chunk) (f : Nat) :
    (files f).size ≤ (c.write files f).size := by
  by_cases hf : f = c.file
  · subst hf
    rw [c.write_self]
    exact SparseFile.size_le_pwrite
  · exact Nat.le_of_eq (congrArg _ (c.write_of_ne files hf).symm)

/-- A byte is the one it was, or one of the chunk's. -/
theorem Chunk.write_data_cases (files : Nat → SparseFile) (c : Chunk) (f x : Nat) :
    (c.write files f).data x = (files f).data x ∨
      f = c.file ∧ c.start ≤ x ∧ x < c.start + c.bytes.length := by
  by_cases hin : f = c.file ∧ c.start ≤ x ∧ x < c.start + c.bytes.length
  · exact .inr hin
  · refine .inl (Chunk.write_data_of_outside fun hf => ?_)
    have hout := fun hx => hin ⟨hf, hx⟩
    omega

/-- The file is as long as it was, or ends with the chunk. -/
theorem Chunk.write_size_cases (files : Nat → SparseFile) (c : Chunk) (f : Nat) :
    (c.write files f).size ≤ (files f).size ∨
      f = c.file ∧ c.bytes ≠ [] ∧ (c.write files f).size ≤ c.start + c.bytes.length := by
  by_cases hf : f = c.file
  · subst hf
    rw [c.write_self]
    by_cases hgrow : c.bytes ≠ [] ∧ (files c.file).size < c.start + c.bytes.length
    · exact .inr ⟨rfl, hgrow.1, SparseFile.pwrite_size_le (Nat.le_of_lt hgrow.2)
        fun _ => Nat.le_refl _⟩
    · refine .inl (SparseFile.pwrite_size_le (Nat.le_refl _) fun hbytes => ?_)
      exact Nat.not_lt.mp fun hlt => hgrow ⟨hbytes, hlt⟩
  · exact .inl (Nat.le_of_eq (congrArg _ (c.write_of_ne files hf)))

/-! ## Pending buffers -/

/-- The buffer still has to bring `size` bytes to the file, and has them as the file
should have them. -/
structure Buffer.Carries (file : SparseFile) (offset : Nat) (b : Buffer) : Prop where
  length : b.offset + b.size = b.data.length
  bytes : ∀ k, k < b.size → b.data.getD (b.offset + k) 0 = file.data (b.fileOffset + k)
  below : ∀ k, k < b.size → b.fileOffset + k < offset ∧ b.fileOffset + k < file.size

/-- The entry prepares what the buffer carries. -/
structure Sqe.Matches (s : State) (sqe : Sqe) : Prop where
  file : sqe.file = s.fd.file
  offset : sqe.offset = (s.buffers sqe.buffer).offset
  size : sqe.size = (s.buffers sqe.buffer).size
  fileOffset : sqe.fileOffset = (s.buffers sqe.buffer).fileOffset

theorem Sqe.Matches.congr {s' : State} {q : Sqe} (h : q.Matches s) (hfd : s'.fd = s.fd)
    (hbuf : s'.buffers q.buffer = s.buffers q.buffer) : q.Matches s' where
  file := by rw [hfd]; exact h.file
  offset := by rw [hbuf]; exact h.offset
  size := by rw [hbuf]; exact h.size
  fileOffset := by rw [hbuf]; exact h.fileOffset

/-- The bytes the result reports are in the file; a write did not fail for good. -/
structure Cqe.Done (file exp : SparseFile) (s : State) (cqe : Cqe) : Prop where
  count_le : cqe.res.count ≤ (s.buffers cqe.buffer).size
  bytes : ∀ k, k < cqe.res.count →
    file.data ((s.buffers cqe.buffer).fileOffset + k) =
        exp.data ((s.buffers cqe.buffer).fileOffset + k) ∧
      (s.buffers cqe.buffer).fileOffset + k < file.size
  ok : ∀ errnum, cqe.res ≠ .failed errnum

theorem Cqe.Done.congr {s' : State} {file exp : SparseFile} {c : Cqe} (h : c.Done file exp s)
    (hbuf : s'.buffers c.buffer = s.buffers c.buffer) : c.Done file exp s' where
  count_le := by rw [hbuf]; exact h.count_le
  bytes := by rw [hbuf]; exact h.bytes
  ok := h.ok

/-- `x` is a byte that buffer `i` still has to bring. -/
def Buffer.Covers (b : Buffer) (x : Nat) : Prop := ∃ k, k < b.size ∧ x = b.fileOffset + k

/-- A byte the result reports is there, the others are still carried. -/
theorem Cqe.Done.covers {file exp : SparseFile} {c : Cqe} (h : c.Done file exp s) {x : Nat}
    (hx : (s.buffers c.buffer).Covers x) :
    file.data x = exp.data x ∨ ((s.buffers c.buffer).advance c.res.count).Covers x := by
  obtain ⟨k, hk, rfl⟩ := hx
  by_cases hlt : k < c.res.count
  · exact .inl (h.bytes k hlt).1
  · refine .inr ⟨k - c.res.count, ?_, ?_⟩
    · show k - c.res.count < (s.buffers c.buffer).size - c.res.count
      omega
    · show _ = (s.buffers c.buffer).fileOffset + c.res.count + (k - c.res.count)
      omega

/-- A buffer that reaches up to `n` still does, or its last byte is in the file. -/
theorem Cqe.Done.reaches {file exp : SparseFile} {c : Cqe} (h : c.Done file exp s) {n : Nat}
    (hpos : 0 < (s.buffers c.buffer).size)
    (hle : n ≤ (s.buffers c.buffer).fileOffset + (s.buffers c.buffer).size) :
    n ≤ file.size ∨ 0 < ((s.buffers c.buffer).advance c.res.count).size ∧
      n ≤ ((s.buffers c.buffer).advance c.res.count).fileOffset +
        ((s.buffers c.buffer).advance c.res.count).size := by
  have hcount := h.count_le
  by_cases hall : c.res.count = (s.buffers c.buffer).size
  · have hlast := (h.bytes ((s.buffers c.buffer).size - 1) (by omega)).2
    omega
  · right
    show 0 < (s.buffers c.buffer).size - c.res.count ∧
      n ≤ (s.buffers c.buffer).fileOffset + c.res.count +
        ((s.buffers c.buffer).size - c.res.count)
    omega

/-- **The files are the expected ones but for what is pending**, and all that is
pending is for the current file. -/
structure Stored (exp : Nat → SparseFile) (s : State) : Prop where
  sqe : ∀ q, q ∈ s.sq ∨ q ∈ s.inflight → q.Matches s
  carries : ∀ i ∈ s.pending, (s.buffers i).Carries (exp s.fd.file) s.offset
  done : ∀ c ∈ s.cq, c.Done (s.files s.fd.file) (exp s.fd.file) s
  bytes : ∀ f x, (s.files f).data x = (exp f).data x ∨
    f = s.fd.file ∧ ∃ i ∈ s.pending, (s.buffers i).Covers x
  size_le : ∀ f, (s.files f).size ≤ (exp f).size
  le_size : ∀ f, (exp f).size ≤ (s.files f).size ∨
    f = s.fd.file ∧ ∃ i ∈ s.pending, 0 < (s.buffers i).size ∧
      (exp f).size ≤ (s.buffers i).fileOffset + (s.buffers i).size

variable {exp : Nat → SparseFile}

/-- With nothing pending, the files are the expected ones. -/
theorem Stored.files_eq (h : Stored exp s) (hp : s.pending = []) : s.files = exp := by
  funext f
  refine SparseFile.ext (funext fun x => ?_) (Nat.le_antisymm (h.size_le f) ?_)
  · rcases h.bytes f x with he | ⟨-, i, hi, -⟩
    · exact he
    · rw [hp] at hi
      cases hi
  · rcases h.le_size f with he | ⟨-, i, hi, -⟩
    · exact he
    · rw [hp] at hi
      cases hi

theorem mem_pending {i : Nat} : i ∈ s.pending ↔
    (∃ q, (q ∈ s.sq ∨ q ∈ s.inflight) ∧ q.buffer = i) ∨ ∃ c ∈ s.cq, c.buffer = i := by
  simp only [State.pending, List.mem_append, List.mem_map, or_and_right, exists_or]

/-- `s'` is `s` with the write `w` prepared, for buffer `b` as it is from then on. -/
structure Prepared (s s' : State) (w : Sqe) (b : Buffer) : Prop where
  self : s'.buffers w.buffer = b
  other : ∀ i, i ≠ w.buffer → s'.buffers i = s.buffers i
  fd : s'.fd = s.fd
  files : s'.files = s.files
  cq : s'.cq = s.cq
  requests : ∀ q, q ∈ s'.sq ∨ q ∈ s'.inflight ↔ q = w ∨ q ∈ s.sq ∨ q ∈ s.inflight

section Prepared
variable {s' : State} {w : Sqe} {b : Buffer}

/-- A prepared write makes its buffer pending, and no other. -/
theorem Prepared.mem_pending (hp : Prepared s s' w b) {i : Nat} :
    i ∈ s'.pending ↔ i = w.buffer ∨ i ∈ s.pending := by
  rw [IoUring.mem_pending, IoUring.mem_pending, hp.cq]
  simp only [hp.requests]
  constructor
  · rintro (⟨q, rfl | hq, rfl⟩ | hc)
    exacts [.inl rfl, .inr (.inl ⟨q, hq, rfl⟩), .inr (.inr hc)]
  · rintro (rfl | ⟨q, hq, rfl⟩ | hc)
    exacts [.inl ⟨_, .inl rfl, rfl⟩, .inl ⟨q, .inr hq, rfl⟩, .inr hc]

/-- The buffers that were pending are as they were. -/
theorem Prepared.buffers_eq (hp : Prepared s s' w b) (hw : w.buffer ∉ s.pending) {i : Nat}
    (hi : i ∈ s.pending) : s'.buffers i = s.buffers i := by
  refine hp.other i ?_
  rintro rfl
  exact hw hi

theorem Prepared.sqe (hp : Prepared s s' w b) (hw : w.buffer ∉ s.pending)
    (hnew : w.Matches s') (hold : ∀ q, q ∈ s.sq ∨ q ∈ s.inflight → q.Matches s) :
    ∀ q, q ∈ s'.sq ∨ q ∈ s'.inflight → q.Matches s' := by
  intro q hq
  rcases (hp.requests q).mp hq with rfl | hq
  · exact hnew
  · exact (hold q hq).congr hp.fd
      (hp.buffers_eq hw (IoUring.mem_pending.mpr (.inl ⟨q, hq, rfl⟩)))

theorem Prepared.done (hp : Prepared s s' w b) (hw : w.buffer ∉ s.pending) {c : Cqe}
    (hc : c ∈ s.cq) {file exp : SparseFile} (h : c.Done file exp s) : c.Done file exp s' :=
  h.congr (hp.buffers_eq hw (IoUring.mem_pending.mpr (.inr ⟨c, hc, rfl⟩)))

end Prepared

/-- What `Stored` depends on: moving requests between the queues is not seen, nor is
what happens to other buffers. -/
theorem Stored.frame {s' : State} (h : Stored exp s)
    (hbuf : ∀ i ∈ s.pending, s'.buffers i = s.buffers i)
    (hfd : s'.fd = s.fd) (hoff : s'.offset = s.offset) (hfiles : s'.files = s.files)
    (hreq : ∀ q, q ∈ s'.sq ∨ q ∈ s'.inflight → q ∈ s.sq ∨ q ∈ s.inflight)
    (hcq : s'.cq = s.cq) (hpend : ∀ i, i ∈ s'.pending ↔ i ∈ s.pending) : Stored exp s' where
  sqe q hq :=
    (h.sqe q (hreq q hq)).congr hfd (hbuf q.buffer (mem_pending.mpr (.inl ⟨q, hreq q hq, rfl⟩)))
  carries i hi := by
    rw [hbuf i ((hpend i).mp hi), hfd, hoff]
    exact h.carries i ((hpend i).mp hi)
  done c hc := by
    rw [hcq] at hc
    rw [hfiles, hfd]
    exact (h.done c hc).congr (hbuf c.buffer (mem_pending.mpr (.inr ⟨c, hc, rfl⟩)))
  bytes f x := by
    rw [hfiles, hfd]
    rcases h.bytes f x with he | ⟨hf, i, hi, hx⟩
    · exact .inl he
    · exact .inr ⟨hf, i, (hpend i).mpr hi, by rw [hbuf i hi]; exact hx⟩
  size_le f := by
    rw [hfiles]
    exact h.size_le f
  le_size f := by
    rw [hfiles, hfd]
    rcases h.le_size f with he | ⟨hf, i, hi, hx⟩
    · exact .inl he
    · exact .inr ⟨hf, i, (hpend i).mpr hi, by rw [hbuf i hi]; exact hx⟩

/-- Handing over prepared writes does not show. -/
theorem Stored.ioUringSubmit (h : Stored exp s) : Stored exp (ioUringSubmit s) := by
  have hreq : ∀ q, q ∈ (IoUring.ioUringSubmit s).sq ∨ q ∈ (IoUring.ioUringSubmit s).inflight ↔
      q ∈ s.sq ∨ q ∈ s.inflight := by
    intro q
    simp only [IoUring.ioUringSubmit, List.mem_append, List.not_mem_nil, false_or]
    exact or_comm
  refine h.frame (fun _ _ => rfl) rfl rfl rfl (fun q => (hreq q).mp) rfl ?_
  intro i
  rw [mem_pending, mem_pending]
  simp only [hreq]
  rfl

theorem Stored.flush (h : Stored exp s) : Stored exp (flush s) :=
  h.ioUringSubmit.frame (fun _ _ => rfl) rfl rfl rfl (fun _ hq => hq) rfl (fun _ => Iff.rfl)

/-! ## The kernel -/

/-- Files may change toward the expected ones. -/
theorem Stored.advance (h : Stored exp s) {files : Nat → SparseFile}
    (hdata : ∀ f x, (files f).data x = (s.files f).data x ∨ (files f).data x = (exp f).data x)
    (hle : ∀ f, (s.files f).size ≤ (files f).size) (hge : ∀ f, (files f).size ≤ (exp f).size) :
    Stored exp { s with files := files } where
  sqe q hq := (h.sqe q hq).congr rfl rfl
  carries := h.carries
  done c hc := by
    obtain ⟨h1, h2, h3⟩ := h.done c hc
    refine ⟨h1, ?_, h3⟩
    intro k hk
    obtain ⟨hb, hs⟩ := h2 k hk
    refine ⟨?_, Nat.lt_of_lt_of_le hs (hle _)⟩
    rcases hdata s.fd.file ((s.buffers c.buffer).fileOffset + k) with he | he
    · exact he.trans hb
    · exact he
  bytes f x := by
    rcases hdata f x with he | he
    · rcases h.bytes f x with hx | hx
      · exact .inl (he.trans hx)
      · exact .inr hx
    · exact .inl he
  size_le := hge
  le_size f := by
    rcases h.le_size f with hx | hx
    · exact .inl (Nat.le_trans hx (hle f))
    · exact .inr hx

/-- A file that is expected to be empty is created. -/
theorem Stored.create (h : Stored exp s) {n : Nat} (hnew : exp n = .empty) :
    Stored exp { s with files := Function.update s.files n .empty } := by
  have hfile : ∀ f, Function.update s.files n .empty f = s.files f ∨
      Function.update s.files n .empty f = exp f := by
    intro f
    by_cases hf : f = n
    · subst hf
      rw [Function.update_self, hnew]
      exact .inr rfl
    · rw [Function.update_of_ne hf]
      exact .inl rfl
  apply h.advance
  · intro f x
    rcases hfile f with he | he
    · exact .inl (by rw [he])
    · exact .inr (by rw [he])
  · intro f
    rcases hfile f with he | he
    · exact Nat.le_of_eq (by rw [he])
    · rw [he]
      exact h.size_le f
  · intro f
    rcases hfile f with he | he
    · rw [he]
      exact h.size_le f
    · exact Nat.le_of_eq (by rw [he])

theorem Sqe.Matches.payload_spec {q : Sqe} (hq : q.Matches s)
    (hc : (s.buffers q.buffer).Carries (exp s.fd.file) s.offset) {n : Nat} (hn : n ≤ q.size) :
    ((payload s q).take n).length = n ∧
      ∀ k, k < n → ((payload s q).take n).getD k 0 = (exp s.fd.file).data (q.fileOffset + k) := by
  have hlen : ((payload s q).take n).length = n := by
    have := hc.length
    rw [IoUring.payload, List.length_take, List.length_take, List.length_drop, hq.offset, hq.size]
    rw [hq.size] at hn
    omega
  refine ⟨hlen, ?_⟩
  intro k hk
  have hkq : k < q.size := by omega
  rw [List.getD_eq_getElem?_getD, List.getElem?_take_of_lt hk, IoUring.payload,
    List.getElem?_take_of_lt hkq, List.getElem?_drop, ← List.getD_eq_getElem?_getD, hq.offset,
    hq.fileOffset]
  exact hc.bytes k (hq.size ▸ hkq)

/-- The kernel stores the first bytes of a write: they are in the file, and the rest
is as before. -/
theorem Stored.transfer (h : Stored exp s) {q : Sqe} (hmem : q ∈ s.inflight) {n : Nat}
    (hn : n ≤ q.size) :
    Stored exp (transfer s q n) ∧ ∀ k, k < n →
      ((transfer s q n).files s.fd.file).data (q.fileOffset + k) =
          (exp s.fd.file).data (q.fileOffset + k) ∧
        q.fileOffset + k < ((transfer s q n).files s.fd.file).size := by
  have hq := h.sqe q (.inr hmem)
  have hpend : q.buffer ∈ s.pending := mem_pending.mpr (.inl ⟨q, .inr hmem, rfl⟩)
  have hc := h.carries q.buffer hpend
  obtain ⟨hlen, hget⟩ := hq.payload_spec hc hn
  simp only [IoUring.transfer, hq.file]
  generalize (payload s q).take n = bytes at hlen hget
  subst hlen
  -- the file written to, and the others
  have hself : Function.update s.files s.fd.file
      ((s.files s.fd.file).pwrite q.fileOffset bytes) s.fd.file =
        (s.files s.fd.file).pwrite q.fileOffset bytes := Function.update_self ..
  refine ⟨h.advance ?_ ?_ ?_, ?_⟩
  · intro f x
    by_cases hf : f = s.fd.file
    · subst hf
      rw [hself]
      exact SparseFile.pwrite_data_of_agree hget
    · rw [Function.update_of_ne hf]
      exact .inl rfl
  · intro f
    by_cases hf : f = s.fd.file
    · subst hf
      rw [hself]
      exact SparseFile.size_le_pwrite
    · exact Nat.le_of_eq (by rw [Function.update_of_ne hf])
  · intro f
    by_cases hf : f = s.fd.file
    · subst hf
      rw [hself]
      refine SparseFile.pwrite_size_le (h.size_le _) fun hne => ?_
      have hpos : 0 < bytes.length := List.length_pos_iff.mpr hne
      have hlast := (hc.below (bytes.length - 1) (by rw [← hq.size]; omega)).2
      rw [← hq.fileOffset] at hlast
      omega
    · rw [Function.update_of_ne hf]
      exact h.size_le f
  · intro k hk
    rw [hself, SparseFile.pwrite_data_of_inside hk]
    refine ⟨hget k hk, ?_⟩
    have hne : bytes ≠ [] := by
      rintro rfl
      exact absurd hk (Nat.not_lt_zero k)
    have hend : q.fileOffset + bytes.length ≤ _ :=
      SparseFile.end_le_pwrite (f := s.files s.fd.file) hne
    omega

/-- A write completes, not with a final error. -/
theorem Stored.complete (h : Stored exp s) {j : Nat} {q : Sqe} {res : Res}
    (hj : s.inflight[j]? = some q) (hres : res.count ≤ q.size)
    (hok : ∀ errnum, res ≠ .failed errnum) : Stored exp (complete s j q res) := by
  have hmem : q ∈ s.inflight := List.mem_of_getElem? hj
  have hq := h.sqe q (.inr hmem)
  obtain ⟨ht, hdone⟩ := h.transfer hmem hres
  have hpend : ∀ i, i ∈ (IoUring.complete s j q res).pending ↔ i ∈ s.pending := by
    intro i
    -- the buffer moves from the requests to the completions
    have hperm : (IoUring.complete s j q res).homes.Perm s.homes := (homes_complete hj).1
    have hcount := hperm.count_eq i
    rw [← List.count_pos_iff, ← List.count_pos_iff]
    simp only [State.homes, List.count_append] at hcount
    have hfree : (IoUring.complete s j q res).freeList = s.freeList := rfl
    have hheld : (IoUring.complete s j q res).held = s.held := rfl
    rw [hfree, hheld] at hcount
    omega
  refine ⟨?_, ?_, ?_, ?_, ht.size_le, ?_⟩
  · intro q' hq'
    have hold : q' ∈ s.sq ∨ q' ∈ s.inflight := by
      rcases hq' with hq' | hq'
      · exact .inl hq'
      · exact .inr (List.mem_of_mem_eraseIdx hq')
    exact (h.sqe q' hold).congr rfl rfl
  · intro i hi
    exact ht.carries i ((hpend i).mp hi)
  · intro c hc
    rcases List.mem_append.mp hc with hc | hc
    · exact (ht.done c hc).congr rfl
    · rw [List.mem_singleton.mp hc]
      refine ⟨hq.size ▸ hres, ?_, hok⟩
      intro k hk
      have := hdone k hk
      rw [hq.fileOffset] at this
      exact this
  · intro f x
    rcases ht.bytes f x with he | ⟨hf, i, hi, hx⟩
    · exact .inl he
    · exact .inr ⟨hf, i, (hpend i).mpr hi, hx⟩
  · intro f
    rcases ht.le_size f with he | ⟨hf, i, hi, hx⟩
    · exact .inl he
    · exact .inr ⟨hf, i, (hpend i).mpr hi, hx⟩

/-! ## Completions -/

theorem Core.nodup_homes (h : Core cfg s) : s.homes.Nodup :=
  h.homes.nodup_iff.mpr List.nodup_range

/-- The buffer of the completion that is reaped has no other request. -/
theorem Core.not_mem_rest {cqe : Cqe} {cq : List Cqe} {n : UInt64} (h : Core cfg s)
    (hcq : s.cq = cqe :: cq) :
    cqe.buffer ∉ ({ s with cq := cq, pendingCqeCount := n } : State).pending := by
  have hnodup : s.pending.Nodup := (List.nodup_append.mp h.nodup_homes).2.1
  intro hmem
  have hcount := List.nodup_iff_count.mp hnodup cqe.buffer
  have hpos := List.count_pos_iff.mpr hmem
  simp only [State.pending, hcq, List.map_cons, List.count_append, List.count_cons_self]
    at hcount hpos
  omega

/-- A retry goes on where the reported bytes end; they are fewer than the buffer's. -/
theorem Res.retry_eq_some {res : Res} {size n : Nat} (h : res.retry size = some n) :
    n = res.count := by
  cases res with
  | wrote m =>
    simp only [Res.retry] at h
    split at h
    · exact (Option.some.inj h).symm
    · cases h
  | again | canceled => exact (Option.some.inj h).symm
  | failed errnum => cases h

/-- No retry, no error: all of it was written. -/
theorem Res.retry_eq_none {res : Res} {size : Nat} (h : res.retry size = none)
    (hok : ∀ errnum, res ≠ .failed errnum) : res.count = size := by
  cases res with
  | wrote m =>
    simp only [Res.retry] at h
    split at h
    · cases h
    · rename_i heq
      exact not_not.mp heq
  | again | canceled => cases h
  | failed errnum => exact absurd rfl (hok errnum)

theorem Buffer.Carries.advance {file : SparseFile} {offset n : Nat} {b : Buffer}
    (h : b.Carries file offset) (hn : n ≤ b.size) : (b.advance n).Carries file offset where
  length := by
    have := h.length
    show b.offset + n + (b.size - n) = b.data.length
    omega
  bytes k hk := by
    have hk : k < b.size - n := hk
    have := h.bytes (n + k) (by omega)
    rwa [← Nat.add_assoc, ← Nat.add_assoc] at this
  below k hk := by
    have hk : k < b.size - n := hk
    have := h.below (n + k) (by omega)
    rwa [← Nat.add_assoc] at this

section Reap
variable {cqe : Cqe} {cq : List Cqe} {n : UInt64}

theorem mem_pending_reap (hcq : s.cq = cqe :: cq) {i : Nat} :
    i ∈ s.pending ↔
      i = cqe.buffer ∨ i ∈ ({ s with cq := cq, pendingCqeCount := n } : State).pending := by
  simp only [State.pending, hcq, List.map_cons, List.mem_append, List.mem_cons]
  tauto

/-- The buffer was written completely: it need not be pending. -/
theorem Stored.reap (h : Stored exp s) (hcq : s.cq = cqe :: cq)
    (hall : cqe.res.count = (s.buffers cqe.buffer).size) :
    Stored exp { s with cq := cq, pendingCqeCount := n } := by
  have hd := h.done cqe (hcq ▸ List.mem_cons_self)
  refine ⟨?_, ?_, ?_, ?_, h.size_le, ?_⟩
  · intro q hq
    exact (h.sqe q hq).congr rfl rfl
  · intro i hi
    exact h.carries i ((mem_pending_reap hcq).mpr (.inr hi))
  · intro c hc
    exact (h.done c (hcq ▸ List.mem_cons_of_mem _ hc)).congr rfl
  · intro f x
    rcases h.bytes f x with he | ⟨hf, i, hi, hx⟩
    · exact .inl he
    · rcases (mem_pending_reap hcq).mp hi with rfl | hi
      · obtain ⟨k, hk, rfl⟩ := hx
        rw [hf]
        exact .inl (hd.bytes k (hall ▸ hk)).1
      · exact .inr ⟨hf, i, hi, hx⟩
  · intro f
    rcases h.le_size f with he | ⟨hf, i, hi, hpos, hle⟩
    · exact .inl he
    · rcases (mem_pending_reap hcq).mp hi with rfl | hi
      · left
        have hlast := (hd.bytes ((s.buffers cqe.buffer).size - 1) (by omega)).2
        rw [hf] at hle ⊢
        show _ ≤ (s.files s.fd.file).size
        omega
      · exact .inr ⟨hf, i, hi, hpos, hle⟩

/-- The buffer was written in part, or not at all: the rest of it is prepared. -/
theorem Stored.reprepare (h : Stored exp s) (hcq : s.cq = cqe :: cq)
    (hnot : cqe.buffer ∉ ({ s with cq := cq, pendingCqeCount := n } : State).pending)
    {s' : State} (hs' : s' = prepWrite (setBuffer { s with cq := cq, pendingCqeCount := n }
      cqe.buffer ((s.buffers cqe.buffer).advance cqe.res.count))
      (nextWrite { s with cq := cq, pendingCqeCount := n } cqe.buffer
        ((s.buffers cqe.buffer).advance cqe.res.count))) :
    Stored exp s' := by
  have hd := h.done cqe (hcq ▸ List.mem_cons_self)
  have hp : Prepared { s with cq := cq, pendingCqeCount := n } s'
      (nextWrite { s with cq := cq, pendingCqeCount := n } cqe.buffer
        ((s.buffers cqe.buffer).advance cqe.res.count))
      ((s.buffers cqe.buffer).advance cqe.res.count) := by
    rw [hs']
    refine ⟨Function.update_self .., fun i hi => Function.update_of_ne hi .., rfl, rfl, rfl, ?_⟩
    intro q
    simp only [prepWrite, setBuffer, List.mem_append, List.mem_singleton]
    tauto
  have hself : s'.buffers cqe.buffer = (s.buffers cqe.buffer).advance cqe.res.count := hp.self
  have hfd : s'.fd = s.fd := hp.fd
  have hfiles : s'.files = s.files := hp.files
  have hoff : s'.offset = s.offset := by rw [hs']; rfl
  have hpend : ∀ i, i ∈ s'.pending ↔ i ∈ s.pending :=
    fun i => hp.mem_pending.trans (mem_pending_reap hcq).symm
  refine ⟨hp.sqe hnot ⟨?_, ?_, ?_, ?_⟩ fun q hq => (h.sqe q hq).congr rfl rfl, ?_, ?_, ?_,
    hfiles ▸ h.size_le, ?_⟩
  · rw [hfd]
    rfl
  · rw [hp.self]
    rfl
  · rw [hp.self]
    rfl
  · rw [hp.self]
    rfl
  · intro i hi
    have hc := h.carries i ((hpend i).mp hi)
    rw [hfd, hoff]
    by_cases hne : i = cqe.buffer
    · subst hne
      rw [hself]
      exact hc.advance hd.count_le
    · rw [hp.other i hne]
      exact hc
  · intro c hc
    rw [hp.cq] at hc
    rw [hfiles, hfd]
    exact hp.done hnot hc ((h.done c (hcq ▸ List.mem_cons_of_mem _ hc)).congr rfl)
  · intro f x
    rw [hfiles, hfd]
    rcases h.bytes f x with he | ⟨hf, i, hi, hx⟩
    · exact .inl he
    · by_cases hne : i = cqe.buffer
      · subst hne
        rcases hd.covers hx with he | hx
        · rw [hf]
          exact .inl he
        · exact .inr ⟨hf, cqe.buffer, (hpend _).mpr hi, by rw [hself]; exact hx⟩
      · exact .inr ⟨hf, i, (hpend i).mpr hi, by rw [hp.other i hne]; exact hx⟩
  · intro f
    rw [hfiles, hfd]
    rcases h.le_size f with he | ⟨hf, i, hi, hpos, hle⟩
    · exact .inl he
    · by_cases hne : i = cqe.buffer
      · subst hne
        rcases hd.reaches hpos hle with he | hrest
        · rw [hf] at he ⊢
          exact .inl he
        · exact .inr ⟨hf, cqe.buffer, (hpend _).mpr hi, by rw [hself]; exact hrest⟩
      · exact .inr ⟨hf, i, (hpend i).mpr hi, by rw [hp.other i hne]; exact ⟨hpos, hle⟩⟩

end Reap

/-! ## Submissions -/

theorem Buffer.Carries.mono {file file' : SparseFile} {offset offset' : Nat} {b : Buffer}
    (h : b.Carries file offset) (hdata : ∀ x, x < offset → file'.data x = file.data x)
    (hsize : file.size ≤ file'.size) (hoff : offset ≤ offset') : b.Carries file' offset' where
  length := h.length
  bytes k hk := (h.bytes k hk).trans (hdata _ (h.below k hk).1).symm
  below k hk := by
    have := h.below k hk
    omega

/-- A full buffer for the end of the file carries its write. -/
theorem Buffer.Carries.fill {files : Nat → SparseFile} {c : Chunk} {b : Buffer}
    (hoff : b.offset = 0) (hfile : b.fileOffset = c.start) :
    (b.fill c.bytes).Carries (c.write files c.file) (c.start + c.bytes.length) where
  length := by
    show b.offset + c.bytes.length = c.bytes.length
    omega
  bytes k hk := by
    show c.bytes.getD (b.offset + k) 0 = (c.write files c.file).data (b.fileOffset + k)
    rw [hoff, hfile, Nat.zero_add, c.write_self, SparseFile.pwrite_data_of_inside hk]
  below k hk := by
    have hk : k < c.bytes.length := hk
    have hne : c.bytes ≠ [] := List.length_pos_iff.mp (by omega)
    have hend : c.start + c.bytes.length ≤ _ :=
      SparseFile.end_le_pwrite (f := files c.file) hne
    show b.fileOffset + k < _ ∧ b.fileOffset + k < (c.write files c.file).size
    rw [hfile, c.write_self]
    omega

/-- `submit_buffer` up to the hand-over: the expected files have the new bytes, and
they are pending. -/
theorem Stored.enqueue (h : Stored exp s) {i : Nat} {c : Chunk} (hi : i ∉ s.pending)
    (hfile : c.file = s.fd.file) (hstart : c.start = s.offset) (hoff : (s.buffers i).offset = 0)
    (hfo : (s.buffers i).fileOffset = s.offset) {s' : State}
    (hs' : s' = enqueue cfg (returnBuffer s i ((s.buffers i).fill c.bytes)) i
      ((s.buffers i).fill c.bytes)) : Stored (c.write exp) s' := by
  have hp : Prepared s s' (firstWrite cfg s i ((s.buffers i).fill c.bytes))
      ((s.buffers i).fill c.bytes) := by
    rw [hs']
    refine ⟨Function.update_self .., fun j hj => Function.update_of_ne hj .., rfl, rfl, rfl, ?_⟩
    intro q
    show q ∈ s.sq ++ [firstWrite cfg s i ((s.buffers i).fill c.bytes)] ∨ q ∈ s.inflight ↔ _
    rw [List.mem_append, List.mem_singleton]
    tauto
  have hself : s'.buffers i = (s.buffers i).fill c.bytes := hp.self
  have hfd : s'.fd = s.fd := hp.fd
  have hoffset : s'.offset = s.offset + c.bytes.length := by rw [hs']; rfl
  have hpend : ∀ j, j ∈ s'.pending ↔ j = i ∨ j ∈ s.pending := fun j => hp.mem_pending
  have hkeep : ∀ j ∈ s.pending, s'.buffers j = s.buffers j := fun j hj => hp.buffers_eq hi hj
  have hdata : ∀ x, x < s.offset → (c.write exp s.fd.file).data x = (exp s.fd.file).data x :=
    fun x hx => Chunk.write_data_of_outside fun _ => by omega
  refine ⟨hp.sqe hi ⟨?_, ?_, ?_, ?_⟩ h.sqe, ?_, ?_, ?_, ?_, ?_⟩
  · rw [hfd]
    rfl
  · rw [hp.self]
    exact hoff.symm
  · rw [hp.self]
    rfl
  · rw [hp.self]
    rfl
  · intro j hj
    rw [hfd, hoffset]
    rcases (hpend j).mp hj with rfl | hj
    · rw [hself, ← hfile, ← hstart]
      exact Buffer.Carries.fill hoff (hfo.trans hstart.symm)
    · rw [hkeep j hj]
      exact (h.carries j hj).mono hdata (c.size_le_write exp _) (Nat.le_add_right _ _)
  · intro d hd
    rw [hp.cq] at hd
    have hmem : d.buffer ∈ s.pending := mem_pending.mpr (.inr ⟨d, hd, rfl⟩)
    obtain ⟨h1, h2, h3⟩ := h.done d hd
    rw [hp.files, hfd]
    refine hp.done hi hd ⟨h1, fun k hk => ?_, h3⟩
    rw [hdata _ ((h.carries _ hmem).below k (Nat.lt_of_lt_of_le hk h1)).1]
    exact h2 k hk
  · intro f x
    rw [hp.files, hfd]
    rcases c.write_data_cases exp f x with hold | ⟨hf, hle, hlt⟩
    · rw [hold]
      rcases h.bytes f x with he | ⟨hf, j, hj, hx⟩
      · exact .inl he
      · exact .inr ⟨hf, j, (hpend j).mpr (.inr hj), by rw [hkeep j hj]; exact hx⟩
    · -- a new byte is one the new buffer brings
      refine .inr ⟨hf.trans hfile, i, (hpend i).mpr (.inl rfl), ?_⟩
      rw [hself]
      refine ⟨x - c.start, ?_, ?_⟩
      · show x - c.start < c.bytes.length
        omega
      · show x = (s.buffers i).fileOffset + (x - c.start)
        omega
  · intro f
    rw [hp.files]
    exact Nat.le_trans (h.size_le f) (c.size_le_write exp f)
  · intro f
    rw [hp.files, hfd]
    rcases c.write_size_cases exp f with hsame | ⟨hf, hbytes, hend⟩
    · rcases h.le_size f with he | ⟨hf, j, hj, hpos, hle⟩
      · exact .inl (Nat.le_trans hsame he)
      · refine .inr ⟨hf, j, (hpend j).mpr (.inr hj), ?_⟩
        rw [hkeep j hj]
        exact ⟨hpos, Nat.le_trans hsame hle⟩
    · refine .inr ⟨hf.trans hfile, i, (hpend i).mpr (.inl rfl), ?_⟩
      rw [hself]
      refine ⟨List.length_pos_iff.mpr hbytes, ?_⟩
      show _ ≤ (s.buffers i).fileOffset + c.bytes.length
      rw [hfo, ← hstart]
      exact hend

end Xtr.IoUring
