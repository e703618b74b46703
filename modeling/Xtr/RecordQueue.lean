import Mathlib.Algebra.BigOperators.Ring.List
import Xtr.PostDropped

/-!
# A ring of records

The queue of a sink, as its two ends see it.  `W` cells have been committed and `R`
released; the consumer has executed the records up to `P`, and from there to `W` the
ring holds whole records, one after the other (`Queue`).

The producer's side is a call of `post` or `log_impl`, which ends by committing one
more record or by dropping it.  In between the consumer may have released cells: the
call's loads found the reader's counter at values it had earlier.  `produce` runs a
call so: `loads` are the steps in which the counter came to its present value as the
call saw it, starting not before the value the writer knows.

The consumer's side is `read_span`, one trampoline call after the other
(`Queue.next`), and `reduce_readable` (`Queue.release`).
-/
namespace Xtr
variable {F V C : Type} {order : Arrangement}

/-- What a record does and how many cells it takes. -/
structure Frame (F V C : Type) where
  invocation : Invocation F V C
  size : Nat

/-! ## Records and the cells they depend on -/

/-- The variable-length area ends inside the record. -/
theorem Record.area_le_size (addr : Nat) (f : F) (items : List (Item V)) :
    Item.finishAll (funcPos addr (lambdaLayout (items.map Item.entry)) +
        (lambdaLayout (items.map Item.entry)).size) (order.arrange items) ≤
      addr + (Record.logV f items : Record F V C).size order addr := by
  have hend : Item.finishAll (funcPos addr (lambdaLayout (items.map Item.entry)) +
      (lambdaLayout (items.map Item.entry)).size) (order.arrange items) ≤ _ :=
    le_align (show 0 < fptrSize by decide)
  simp only [Record.size]
  omega

/-- The closure ends inside the record. -/
theorem Record.closure_le_size {addr : Nat} {r : Record F V C} {c : Closure V C} {func : Layout}
    (hc : r.closure? = some (c, func)) :
    funcPos addr func + func.size ≤ addr + r.size order addr := by
  have hfunc := le_funcPos addr func
  have hal : func.size ≤ align func.size fptrSize := le_align (by decide)
  cases r with
  | log0 f => cases hc
  | logN f entries | command cmd func' =>
    cases hc
    simp only [Record.size]
    omega
  | logV f items =>
    cases hc
    exact Nat.le_trans (Item.le_finishAll _ (order.arrange items))
      (Record.area_le_size addr f items)

/-- A record takes at least its function pointer. -/
theorem Record.fptrSize_le_size (order : Arrangement) (addr : Nat) (r : Record F V C) :
    fptrSize ≤ r.size order addr := by
  cases hc : r.closure? with
  | none =>
    cases r with
    | log0 f => exact Nat.le_refl _
    | _ => cases hc
  | some cf =>
    obtain ⟨c, func⟩ := cf
    have hend : funcPos addr func + func.size ≤ addr + r.size order addr :=
      Record.closure_le_size hc
    have := le_funcPos addr func
    omega

/-- A record depends on its own cells only. -/
theorem Record.holds_congr {read read' : Nat → Cell F V C} {addr : Nat} {r : Record F V C}
    (h : r.Holds order read addr)
    (hsame : ∀ b, addr ≤ b → b < addr + r.size order addr → read' b = read b) :
    r.Holds order read' addr := by
  have hcells : ∀ b n, addr ≤ b → b + n ≤ addr + r.size order addr →
      cells read' b n = cells read b n := by
    intro b n hb hn
    unfold cells
    refine List.map_congr_left fun k hk => hsame _ (by omega) ?_
    have := List.mem_range.mp hk
    omega
  refine ⟨?_, ?_, ?_⟩
  · rw [hcells addr fptrSize (Nat.le_refl _) (by have := r.fptrSize_le_size order addr; omega)]
    exact h.fptr
  · intro c func hc
    have := le_funcPos addr func
    rw [hcells _ _ (by omega) (Record.closure_le_size hc)]
    exact h.closure c func hc
  · rintro f items rfl
    have hfunc := le_funcPos addr (lambdaLayout (items.map Item.entry))
    refine (h.area f items rfl).congr fun b hb hlt => hsame b (by omega) ?_
    exact Nat.lt_of_lt_of_le hlt (Record.area_le_size addr f items)

/-! ## Frames -/

variable {base : Nat} {rb rb' : RingBuffer (Cell F V C)}

/-- The record that starts `pos` cells into the ring's history. -/
def FrameAt (order : Arrangement) (base : Nat) (rb : RingBuffer (Cell F V C)) (pos : Nat)
    (fr : Frame F V C) : Prop :=
  ∃ r : Record F V C, r.Valid ∧ r.Holds order (rb.readAt base) (base + pos % rb.capacity) ∧
    r.size order (base + pos % rb.capacity) = fr.size ∧ 8 ∣ fr.size ∧ r.invocation = fr.invocation

theorem readAt_add (base : Nat) (rb : RingBuffer (Cell F V C)) (pos k : Nat) :
    rb.readAt base (base + pos % rb.capacity + k) = rb.mem ((pos + k) % rb.capacity) := by
  show rb.mem ((base + pos % rb.capacity + k - base) % rb.capacity) = _
  rw [show base + pos % rb.capacity + k - base = pos % rb.capacity + k by omega, Nat.mod_add_mod]

/-- A frame survives what leaves its cells alone. -/
theorem FrameAt.congr {pos : Nat} {fr : Frame F V C} (h : FrameAt order base rb pos fr)
    (hz : rb'.sizing = rb.sizing) (hsame : ∀ x, pos ≤ x → x < pos + fr.size →
      rb'.mem (x % rb.capacity) = rb.mem (x % rb.capacity)) : FrameAt order base rb' pos fr := by
  have hcap : rb'.capacity = rb.capacity := congrArg Sizing.capacity hz
  obtain ⟨r, hv, hh, hs, h8, hi⟩ := h
  refine ⟨r, hv, ?_, by rw [hcap]; exact hs, h8, hi⟩
  rw [hcap]
  refine Record.holds_congr hh fun b hb hlt => ?_
  obtain ⟨k, rfl⟩ := Nat.exists_eq_add_of_le hb
  have hread := readAt_add base rb' pos k
  rw [hcap] at hread
  rw [hread, readAt_add]
  exact hsame (pos + k) (by omega) (by omega)

/-- The records from `pos` on. -/
def Frames (order : Arrangement) (base : Nat) (rb : RingBuffer (Cell F V C)) :
    Nat → List (Frame F V C) → Prop
  | _, [] => True
  | pos, fr :: frs => FrameAt order base rb pos fr ∧ Frames order base rb (pos + fr.size) frs

/-- How many cells the records take. -/
def extent (frs : List (Frame F V C)) : Nat := (frs.map Frame.size).sum

@[simp] theorem extent_nil : extent ([] : List (Frame F V C)) = 0 := rfl

@[simp] theorem extent_cons (fr : Frame F V C) (frs : List (Frame F V C)) :
    extent (fr :: frs) = fr.size + extent frs := by
  simp [extent]

@[simp] theorem extent_append (frs frs' : List (Frame F V C)) :
    extent (frs ++ frs') = extent frs + extent frs' := by
  simp [extent]

theorem Frames.congr {pos : Nat} {frs : List (Frame F V C)} (h : Frames order base rb pos frs)
    (hz : rb'.sizing = rb.sizing) (hsame : ∀ x, pos ≤ x → x < pos + extent frs →
      rb'.mem (x % rb.capacity) = rb.mem (x % rb.capacity)) : Frames order base rb' pos frs := by
  induction frs generalizing pos with
  | nil => trivial
  | cons fr frs ih =>
    obtain ⟨hfr, hfrs⟩ := h
    rw [extent_cons] at hsame
    exact ⟨hfr.congr hz fun x hx hlt => hsame x hx (by omega),
      ih hfrs fun x hx hlt => hsame x (by omega) (by omega)⟩

theorem Frames.append {pos : Nat} {frs : List (Frame F V C)} {fr : Frame F V C}
    (h : Frames order base rb pos frs) (hfr : FrameAt order base rb (pos + extent frs) fr) :
    Frames order base rb pos (frs ++ [fr]) := by
  induction frs generalizing pos with
  | nil => exact ⟨hfr, trivial⟩
  | cons f frs ih =>
    refine ⟨h.1, ih h.2 ?_⟩
    rw [extent_cons, ← Nat.add_assoc] at hfr
    exact hfr

theorem Frames.last {pos : Nat} {frs : List (Frame F V C)} {fr : Frame F V C}
    (h : Frames order base rb pos (frs ++ [fr])) : FrameAt order base rb (pos + extent frs) fr := by
  induction frs generalizing pos with
  | nil => exact h.1
  | cons f frs ih =>
    rw [extent_cons, ← Nat.add_assoc]
    exact ih h.2

theorem FrameAt.trampoline [DecidableEq F] [DecidableEq V] [DecidableEq C] {pos : Nat}
    {fr : Frame F V C} (h : FrameAt order base rb pos fr) :
    trampoline order (rb.readAt base) (base + pos % rb.capacity) =
      some (fr.invocation, base + pos % rb.capacity + fr.size) := by
  obtain ⟨r, hv, hh, hs, -, hi⟩ := h
  rw [trampoline_of_holds hv hh, hs, hi]

/-! ## The queue -/

/-- **The queue invariant.** -/
structure Queue (order : Arrangement) (base : Nat) (rb : RingBuffer (Cell F V C)) (W R P : Nat)
    (frs : List (Frame F V C)) : Prop where
  grid : Grid base W rb
  counts : ∃ S, rb.Counts W R S ∧ 8 ∣ S
  read8 : 8 ∣ R
  read_le : R ≤ P
  framed : Frames order base rb P frs
  extent_eq : P + extent frs = W

variable {W R P : Nat} {frs : List (Frame F V C)}

theorem Queue.le_written (h : Queue order base rb W R P frs) : P ≤ W := by
  have := h.extent_eq
  omega

theorem Queue.readSpan (h : Queue order base rb W R P frs) :
    rb.readSpan = ⟨R % rb.capacity, W - R⟩ := by
  obtain ⟨S, hc, -⟩ := h.counts
  exact hc.readSpan

theorem Queue.frame8 {fr : Frame F V C} (h : Queue order base rb W R P (fr :: frs)) :
    8 ∣ fr.size ∧ 0 < fr.size := by
  obtain ⟨⟨r, -, -, hs, h8, -⟩, -⟩ := h.framed
  have := r.fptrSize_le_size order (base + P % rb.capacity)
  have : 0 < fptrSize := by decide
  exact ⟨h8, by omega⟩

/-- **The trampoline at the consumer's position executes the next record.** -/
theorem Queue.next [DecidableEq F] [DecidableEq V] [DecidableEq C] {fr : Frame F V C}
    (h : Queue order base rb W R P (fr :: frs)) :
    trampoline order (rb.readAt base) (base + P % rb.capacity) =
      some (fr.invocation, base + P % rb.capacity + fr.size) := by
  exact h.framed.1.trampoline

/-- The consumer is in the middle of a span: it took `span` when `R` cells were released,
and is at address `pos` of it. -/
structure Reading (base : Nat) (rb : RingBuffer (Cell F V C)) (W R P : Nat) (span : Span)
    (pos : Nat) : Prop where
  begin : span.begin = R % rb.capacity
  size : R + span.size ≤ W
  pos : pos = base + R % rb.capacity + (P - R)

/-- **As long as the inner loop goes on there is a next record, and the trampoline
executes it.** -/
theorem Queue.next_reading [DecidableEq F] [DecidableEq V] [DecidableEq C] {span : Span} {pos : Nat}
    (h : Queue order base rb W R P frs) (hr : Reading base rb W R P span pos)
    (hlt : pos < min (base + span.begin + span.size) (base + rb.capacity)) :
    ∃ fr frs', frs = fr :: frs' ∧
      trampoline order (rb.readAt base) pos = some (fr.invocation, pos + fr.size) := by
  have hread := h.read_le
  have hext := h.extent_eq
  have hbegin := hr.begin
  have hsize := hr.size
  have hpos := hr.pos
  have hmod : P % rb.capacity = R % rb.capacity + (P - R) := by
    have hlt : R % rb.capacity + (P - R) < rb.capacity := by omega
    rw [← Nat.mod_eq_of_lt hlt, Nat.mod_add_mod, Nat.add_sub_of_le hread]
  cases frs with
  | nil =>
    rw [extent_nil] at hext
    omega
  | cons fr frs' =>
    refine ⟨fr, frs', rfl, ?_⟩
    have hnext := h.next
    rw [hmod, ← Nat.add_assoc, ← hpos] at hnext
    exact hnext

/-- The span is that of `read_span`. -/
theorem Queue.reading_start (h : Queue order base rb W R P frs) :
    Reading base rb W R R rb.readSpan (base + rb.readSpan.begin) := by
  have hW := h.le_written
  have hR := h.read_le
  rw [h.readSpan]
  refine ⟨rfl, ?_, by simp⟩
  show R + (W - R) ≤ W
  omega

/-- Commits and releases do not concern the consumer's span. -/
theorem Reading.congr {rb' : RingBuffer (Cell F V C)} {W' : Nat} {span : Span} {pos : Nat}
    (hr : Reading base rb W R P span pos) (hz : rb'.sizing = rb.sizing) (hW : W ≤ W') :
    Reading base rb' W' R P span pos := by
  have hcap : rb'.capacity = rb.capacity := congrArg Sizing.capacity hz
  refine ⟨?_, Nat.le_trans hr.size hW, ?_⟩
  · rw [hcap]
    exact hr.begin
  · rw [hcap]
    exact hr.pos

/-- Past a record. -/
theorem Reading.advance {span : Span} {pos n : Nat} (hr : Reading base rb W R P span pos)
    (hle : R ≤ P) : Reading base rb W R (P + n) span (pos + n) :=
  ⟨hr.begin, hr.size, by have := hr.pos; omega⟩

/-- The trampoline at the end of the records before it executes the last one. -/
theorem Queue.last [DecidableEq F] [DecidableEq V] [DecidableEq C] {fr : Frame F V C}
    (h : Queue order base rb W R P (frs ++ [fr])) :
    trampoline order (rb.readAt base) (base + (W - fr.size) % rb.capacity) =
      some (fr.invocation, base + (W - fr.size) % rb.capacity + fr.size) := by
  have hext := h.extent_eq
  rw [extent_append, extent_cons, extent_nil] at hext
  have hpos : W - fr.size = P + extent frs := by omega
  rw [hpos]
  exact h.framed.last.trampoline

theorem Queue.advance {fr : Frame F V C} (h : Queue order base rb W R P (fr :: frs)) :
    Queue order base rb W R (P + fr.size) frs := by
  have hext := h.extent_eq
  rw [extent_cons] at hext
  exact ⟨h.grid, h.counts, h.read8, Nat.le_trans h.read_le (Nat.le_add_right _ _), h.framed.2,
    by omega⟩

/-- Records are whole multiples of eight. -/
theorem Frames.extent8 {pos : Nat} (h : Frames order base rb pos frs) : 8 ∣ extent frs := by
  induction frs generalizing pos with
  | nil => exact ⟨0, rfl⟩
  | cons fr frs ih =>
    obtain ⟨⟨r, -, -, -, h8, -⟩, hfrs⟩ := h
    rw [extent_cons]
    exact Nat.dvd_add h8 (ih hfrs)

/-- `reduce_readable` up to the consumer's position. -/
theorem Queue.release (h : Queue order base rb W R P frs) :
    Queue order base (rb.reduceReadable (P - R)) W P P frs := by
  obtain ⟨S, hc, hS⟩ := h.counts
  have hle := h.read_le
  have hW := h.le_written
  have hP8 : 8 ∣ P := by
    have hW8 := h.grid.written8
    rw [← h.extent_eq] at hW8
    exact (Nat.dvd_add_left h.framed.extent8).mp hW8
  refine ⟨⟨h.grid.base8, h.grid.capacity8, h.grid.capacity_lt, h.grid.written8⟩, ⟨S, ?_, hS⟩, hP8,
    Nat.le_refl P, h.framed.congr rfl fun _ _ _ => rfl, h.extent_eq⟩
  have hred := hc.reduceReadable (show P - R ≤ W - R by omega)
  rwa [Nat.add_sub_of_le hle] at hred

/-- `clear`. -/
theorem Queue.clear (h : Queue order base rb W R P frs) : Queue order base rb.clear 0 0 0 [] :=
  ⟨⟨h.grid.base8, h.grid.capacity8, h.grid.capacity_lt, ⟨0, rfl⟩⟩, ⟨0, .clear rb, ⟨0, rfl⟩⟩,
    ⟨0, rfl⟩, Nat.le_refl 0, trivial, rfl⟩

/-! ## Producing -/

/-- The ring as it was before the reader's last `n` cells. -/
def RingBuffer.rewind (rb : RingBuffer (Cell F V C)) (n : Nat) : RingBuffer (Cell F V C) :=
  { rb with nreadPlusCapacity := rb.nreadPlusCapacity - UInt64.ofNat n }

/-- What the reader's counter is ahead of the writer's copy of it. -/
def RingBuffer.unseen (rb : RingBuffer (Cell F V C)) : Nat :=
  (rb.nreadPlusCapacity - rb.wrnreadPlusCapacity).toNat

/-- A call of the producer, by now complete: its loads found the reader's counter on
the way to its present value. -/
def produce (call : RingBuffer (Cell F V C) → List Nat →
      Option (Outcome × RingBuffer (Cell F V C) × List Nat))
    (rb : RingBuffer (Cell F V C)) (loads : List Nat) :
    Option (Outcome × RingBuffer (Cell F V C)) :=
  if loads.sum ≤ rb.unseen ∧ loads.all (8 ∣ ·) then
    (call (rb.rewind loads.sum) loads).map fun (o, rb', _) =>
      (o, { rb' with nreadPlusCapacity := rb.nreadPlusCapacity })
  else none

theorem Queue.ready (h : Queue order base rb W R P frs) {loads : List Nat}
    (hsum : loads.sum ≤ rb.unseen) (h8 : loads.all (8 ∣ ·) = true) :
    ∃ S, Ready (rb.rewind loads.sum) loads W R (R - loads.sum) S := by
  obtain ⟨S, hc, hS⟩ := h.counts
  have h8 : ∀ n ∈ loads, 8 ∣ n := by simpa using h8
  have hstale := hc.stale
  have hread := hc.read_le
  have hroom := hc.room
  have hcap := rb.capacity_le
  have hunseen : rb.unseen = R - S := by
    have := RingBuffer.toNat_sub_of_totals hc.nread hc.wrnread (by omega) (by omega)
    show (rb.nreadPlusCapacity - rb.wrnreadPlusCapacity).toNat = _
    omega
  have hsum8 : 8 ∣ loads.sum := List.dvd_sum h8
  refine ⟨S, ⟨⟨hc.nwritten, hc.wrnwritten, ?_, hc.wrnread, by omega, by omega, hroom⟩,
    Nat.dvd_sub h.read8 hsum8, hS, h8, by omega, hread⟩⟩
  show (rb.nreadPlusCapacity - UInt64.ofNat loads.sum).toNat =
    (R - loads.sum + rb.capacity) % 2 ^ 64
  rw [UInt64.toNat_sub, hc.nread, UInt64.toNat_ofNat']
  omega

/-- A cell that is not free is as it was. -/
theorem SameOutside.mem_eq {W n x : Nat}
    (h : SameOutside base (base + W % rb.capacity) (base + W % rb.capacity)
      (base + W % rb.capacity + n) rb rb') (hz : rb'.sizing = rb.sizing) (hlt : x < W)
    (hn : W + n ≤ x + rb.capacity) : rb'.mem (x % rb.capacity) = rb.mem (x % rb.capacity) := by
  have hcap : rb'.capacity = rb.capacity := congrArg Sizing.capacity hz
  -- the cell, one turn further on, lies behind the `n` cells from the write position
  have hread := h (base + W % rb.capacity + (x + rb.capacity - W)) (by omega) (by omega) (by omega)
  have hread' := readAt_add base rb' W (x + rb.capacity - W)
  rw [hcap] at hread'
  rw [hread', readAt_add, show W + (x + rb.capacity - W) = x + rb.capacity by omega,
    Nat.add_mod_right] at hread
  exact hread

/-- **The queue after a call**: the reader's counter is where it is, whatever the call
saw of it, and the records are those in the call's memory. -/
theorem Queue.after (h : Queue order base rb W R P frs) {rb₁ : RingBuffer (Cell F V C)}
    {loads : List Nat} {W' R' S' : Nat} {frs' : List (Frame F V C)}
    (hz : rb₁.sizing = rb.sizing) (hr : Ready rb₁ loads W' R R' S') (hW8 : 8 ∣ W')
    (hframed : Frames order base rb₁ P frs') (hext : P + extent frs' = W') :
    Queue order base { rb₁ with nreadPlusCapacity := rb.nreadPlusCapacity } W' R P frs' := by
  obtain ⟨S₀, hc₀, -⟩ := h.counts
  have hcap : rb₁.capacity = rb.capacity := congrArg Sizing.capacity hz
  have hstale := hr.counts.stale
  have hprog := hr.progress
  refine ⟨⟨h.grid.base8, ?_, ?_, hW8⟩, ⟨S', ⟨hr.counts.nwritten, hr.counts.wrnwritten, ?_,
    hr.counts.wrnread, by omega, hr.within, hr.counts.room⟩, hr.seen8⟩, h.read8, h.read_le,
    hframed.congr rfl fun _ _ _ => rfl, hext⟩
  · show 8 ∣ rb₁.capacity
    rw [hcap]
    exact h.grid.capacity8
  · show rb₁.capacity < 2 ^ 32
    rw [hcap]
    exact h.grid.capacity_lt
  · show rb.nreadPlusCapacity.toNat = (R + rb₁.capacity) % 2 ^ 64
    rw [hcap]
    exact hc₀.nread

/-- **A call that commits adds one record at the end.** -/
theorem Queue.commit (h : Queue order base rb W R P frs) {loads : List Nat} {n : Nat}
    {rb₁ : RingBuffer (Cell F V C)} {r : Record F V C}
    (hc : Commits order base W R n (rb.rewind loads.sum) rb₁ r) :
    Queue order base { rb₁ with nreadPlusCapacity := rb.nreadPlusCapacity } (W + n) R P
      (frs ++ [⟨r.invocation, n⟩]) := by
  obtain ⟨loads', R', S', hr, hn⟩ := hc.span
  have hz : rb₁.sizing = rb.sizing := hc.sizing
  have hcap : rb₁.capacity = rb.capacity := congrArg Sizing.capacity hz
  have hn : n ≤ S' + rb.capacity - W := hn
  have hread := h.read_le
  have hstale := hr.counts.stale
  have hprog := hr.progress
  have hroom := hr.counts.room
  rw [hcap] at hroom
  -- the record went to free cells, so those that are framed are as they were
  have hsame : ∀ x, P ≤ x → x < P + extent frs →
      rb₁.mem (x % rb.capacity) = rb.mem (x % rb.capacity) := by
    intro x hx hlt
    rw [h.extent_eq] at hlt
    exact hc.same.mem_eq hz hlt (show W + n ≤ x + rb.capacity by omega)
  refine h.after hz hr (Nat.dvd_add h.grid.written8 hc.size8) ?_ ?_
  · refine Frames.append (h.framed.congr hz hsame) ?_
    rw [h.extent_eq]
    refine ⟨r, hc.valid, ?_, ?_, hc.size8, rfl⟩
    · rw [hcap]
      exact hc.holds
    · rw [hcap]
      exact hc.size
  · rw [extent_append, extent_cons, extent_nil, ← h.extent_eq]
    show P + (extent frs + (n + 0)) = P + extent frs + n
    omega

/-- **A call that drops its record changes nothing here.** -/
theorem Queue.drop (h : Queue order base rb W R P frs) {loads loads' : List Nat}
    {rb₁ : RingBuffer (Cell F V C)} (hd : Drops base W R (rb.rewind loads.sum) rb₁ loads') :
    Queue order base { rb₁ with nreadPlusCapacity := rb.nreadPlusCapacity } W R P frs := by
  obtain ⟨⟨R', S', hr⟩, hz, hsame⟩ := hd
  have hz : rb₁.sizing = rb.sizing := hz
  have hcap : rb₁.capacity = rb.capacity := congrArg Sizing.capacity hz
  have hread := h.read_le
  have hstale := hr.counts.stale
  have hprog := hr.progress
  have hw := hr.counts.writable
  have hroom := hr.counts.room
  rw [hcap] at hw hroom
  -- what was copied before the drop stays in the span
  have hkeep : ∀ x, P ≤ x → x < P + extent frs →
      rb₁.mem (x % rb.capacity) = rb.mem (x % rb.capacity) := by
    intro x hx hlt
    rw [h.extent_eq] at hlt
    exact hsame.mem_eq hz hlt (show W + rb₁.writable ≤ x + rb.capacity by omega)
  exact h.after hz hr h.grid.written8 (h.framed.congr hz hkeep) h.extent_eq

theorem produce_eq_some {call : RingBuffer (Cell F V C) → List Nat →
      Option (Outcome × RingBuffer (Cell F V C) × List Nat)} {loads : List Nat} {o : Outcome}
    (h : produce call rb loads = some (o, rb')) :
    loads.sum ≤ rb.unseen ∧ loads.all (8 ∣ ·) = true ∧ ∃ rb₁ loads₁,
      call (rb.rewind loads.sum) loads = some (o, rb₁, loads₁) ∧
        rb' = { rb₁ with nreadPlusCapacity := rb.nreadPlusCapacity } := by
  obtain ⟨⟨hsum, h8⟩, h⟩ := Option.ite_none_right_eq_some.mp h
  obtain ⟨⟨o', rb₁, loads₁⟩, hcall, heq⟩ := Option.map_eq_some_iff.mp h
  cases heq
  exact ⟨hsum, h8, rb₁, loads₁, hcall, rfl⟩

/-! ### The steps of a call -/

theorem Queue.writeBegin (h : Queue order base rb W R P frs) : rb.writeBegin = W % rb.capacity := by
  obtain ⟨S, hc, -⟩ := h.counts
  exact hc.writeBegin

theorem Queue.acquire (h : Queue order base rb W R P frs) :
    Queue order base rb.acquire W R P frs := by
  obtain ⟨S, hc, -⟩ := h.counts
  exact ⟨⟨h.grid.base8, h.grid.capacity8, h.grid.capacity_lt, h.grid.written8⟩,
    ⟨R, hc.acquire, h.read8⟩, h.read8, h.read_le, h.framed.congr rfl fun _ _ _ => rfl, h.extent_eq⟩

/-- What is written into free cells does not concern the records. -/
theorem Queue.overwrite (h : Queue order base rb W R P frs) {rb' : RingBuffer (Cell F V C)}
    {n : Nat} (hz : rb'.sizing = rb.sizing) (hn : n ≤ rb.writable)
    (hsame : SameOutside base (base + W % rb.capacity) (base + W % rb.capacity)
      (base + W % rb.capacity + n) rb rb')
    (hcounts : ∀ S, rb.Counts W R S → rb'.Counts W R S) : Queue order base rb' W R P frs := by
  have hcap : rb'.capacity = rb.capacity := congrArg Sizing.capacity hz
  obtain ⟨S, hc, hS⟩ := h.counts
  have hread := h.read_le
  have hstale := hc.stale
  have hw := hc.writable
  have hroom := hc.room
  have hkeep : ∀ x, P ≤ x → x < P + extent frs →
      rb'.mem (x % rb.capacity) = rb.mem (x % rb.capacity) := by
    intro x hx hlt
    rw [h.extent_eq] at hlt
    exact hsame.mem_eq hz hlt (by omega)
  refine ⟨⟨h.grid.base8, ?_, ?_, h.grid.written8⟩, ⟨S, hcounts S hc, hS⟩, h.read8, h.read_le,
    h.framed.congr hz hkeep, h.extent_eq⟩
  · rw [hcap]
    exact h.grid.capacity8
  · rw [hcap]
    exact h.grid.capacity_lt

/-- `reduce_writable` once the record is there. -/
theorem Queue.publish (h : Queue order base rb W R P frs) {fr : Frame F V C}
    (hfr : FrameAt order base rb W fr) (hn : fr.size ≤ rb.writable) :
    Queue order base (rb.reduceWritable fr.size) (W + fr.size) R P (frs ++ [fr]) := by
  obtain ⟨S, hc, hS⟩ := h.counts
  have hw := hc.writable
  have h8 : 8 ∣ fr.size := by
    obtain ⟨r, -, -, -, h8, -⟩ := hfr
    exact h8
  refine ⟨⟨h.grid.base8, h.grid.capacity8, h.grid.capacity_lt, Nat.dvd_add h.grid.written8 h8⟩,
    ⟨S, hc.reduceWritable (by omega), hS⟩, h.read8, h.read_le, ?_, ?_⟩
  · refine (h.framed.append ?_).congr rfl fun _ _ _ => rfl
    rw [h.extent_eq]
    exact hfr
  · rw [extent_append, extent_cons, extent_nil, ← h.extent_eq]
    omega

/-- **A log call at the queue.**  It commits a record of its arguments at the end, or
the queue is as it was. -/
theorem Queue.log (h : Queue order base rb W R P frs) {tags : Tags} {f : F} {args : List (Arg V)}
    {loads : List Nat} {o : Outcome}
    (hp : produce (logImpl order base tags f args) rb loads = some (o, rb')) :
    rb'.sizing = rb.sizing ∧
    ((∃ n is, o = .committed n ∧ List.Forall₂ Arg.Recorded args is ∧
      Queue order base rb' (W + n) R P (frs ++ [⟨.print f (is.map Item.reconstructed), n⟩])) ∨
    o = .dropped ∧ Queue order base rb' W R P frs) := by
  obtain ⟨hsum, h8, rb₁, loads₁, hcall, rfl⟩ := produce_eq_some hp
  obtain ⟨S, hr⟩ := h.ready hsum h8
  have hg : Grid base W (rb.rewind loads.sum) :=
    ⟨h.grid.base8, h.grid.capacity8, h.grid.capacity_lt, h.grid.written8⟩
  cases o with
  | committed n =>
    obtain ⟨r, is, hrec, -, hinv, hc⟩ := logImpl_commits hg hr hcall
    exact ⟨hc.sizing, .inl ⟨n, is, rfl, hrec, hinv ▸ h.commit hc⟩⟩
  | dropped =>
    have hd := logImpl_drops hr hcall
    exact ⟨hd.sizing, .inr ⟨rfl, h.drop hd⟩⟩

/-- **A command at the queue**: `post` without the non-blocking tag commits. -/
theorem Queue.post (h : Queue order base rb W R P frs) {c : C} {func : Layout}
    (hpos : 0 < func.size) {loads : List Nat} {o : Outcome} {tags : Tags}
    (hp : produce (post base tags none (.command c) func) rb loads = some (o, rb')) :
    rb'.sizing = rb.sizing ∧
    ((∃ n, o = .committed n ∧ Queue order base rb' (W + n) R P (frs ++ [⟨.command c, n⟩])) ∨
    o = .dropped ∧ Queue order base rb' W R P frs) := by
  obtain ⟨hsum, h8, rb₁, loads₁, hcall, rfl⟩ := produce_eq_some hp
  obtain ⟨S, hr⟩ := h.ready hsum h8
  have hg : Grid base W (rb.rewind loads.sum) :=
    ⟨h.grid.base8, h.grid.capacity8, h.grid.capacity_lt, h.grid.written8⟩
  cases o with
  | committed n =>
    have hc : Commits order base W R n (rb.rewind loads.sum) rb₁ (.command c func) :=
      post_commits hg hr hpos rfl rfl (fun _ _ h => nomatch h) (fun _ => rfl) hcall
    exact ⟨hc.sizing, .inl ⟨n, rfl, h.commit hc⟩⟩
  | dropped =>
    have hd := post_drops hr hcall
    exact ⟨hd.sizing, .inr ⟨rfl, h.drop hd⟩⟩

end Xtr
