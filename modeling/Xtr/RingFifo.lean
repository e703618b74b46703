import Xtr.Machine
import Xtr.RingBuffer

/-!
# The ring buffer is a bounded FIFO queue

The writer and the reader run concurrently, and each of their shared accesses is
one event: a run of `ringMachine` is any interleaving of them.  `write_span` is
cut at its loads, so the reader may move between two iterations of its loop.

The specification is `fifo`, a queue of at most `capacity` cells that remembers
what has been taken out of it.  The ring buffer refines it
(`ringMachine_refines`): a commit appends the cells standing in the write span, a
release takes the cells standing in the read span, and nothing else, in
particular no write into a span, changes what the queue holds.
-/
namespace Xtr
open CircularMemory
variable {β : Type}

/-! ## The specification -/

/-- A queue, and everything taken out of it so far. -/
structure Fifo (β : Type) where
  queue : List β
  taken : List β

inductive FifoAct (β : Type)
  | enqueue (xs : List β)
  | dequeue (n : Nat)
  | clear

/-- The bounded queue. -/
def fifo (cap : Nat) : Machine (Fifo β) (FifoAct β) where
  init q := q = ⟨[], []⟩
  step q
    | .enqueue xs =>
      if q.queue.length + xs.length ≤ cap then some { q with queue := q.queue ++ xs } else none
    | .dequeue n =>
      if n ≤ q.queue.length then
        some ⟨q.queue.drop n, q.taken ++ q.queue.take n⟩
      else none
    | .clear => some ⟨[], []⟩

/-! ## The two parties -/

/-- The buffer with its two users.  `call` is the `write_span` the writer is
spinning in; `wspan` and `rspan` are what is left of the spans last returned to
the writer and to the reader.  `committed` and `consumed` record the cells handed
over by `reduce_writable` and by `reduce_readable` since the last `clear`. -/
structure RingState (β : Type) where
  rb : RingBuffer β
  call : Option (Tags × Nat)
  wspan : Option Span
  rspan : Option Span
  attached : Bool
  committed : List β
  consumed : List β

inductive RingEvent (β : Type)
  | writeSpan (tags : Tags) (minsize : Nat)
  | writeSpanLoop
  | write (i : Nat) (b : β)
  | reduceWritable (nbytes : Nat)
  | attach
  | detach
  | readSpan
  | reduceReadable (nbytes : Nat)
  | clear

namespace RingState

/-- `write_span` spins on, or returns. -/
def polled (s : RingState β) (tags : Tags) (minsize : Nat) : RingBuffer β × Poll → RingState β
  | (rb, .spin) => { s with rb := rb, call := some (tags, minsize), wspan := none }
  | (rb, .ret span) => { s with rb := rb, call := none, wspan := span }

/-- What is left of a span once its first `n` cells have been handed over. -/
def rest (span : Span) (n : Nat) : Span := ⟨span.begin + n, span.size - n⟩

def step (s : RingState β) : RingEvent β → Option (RingState β)
  | .writeSpan tags minsize =>
    match s.call with
    | none =>
      if minsize ≤ s.rb.capacity then some (s.polled tags minsize (s.rb.writeSpan tags minsize))
      else none
    | some _ => none
  | .writeSpanLoop =>
    match s.call with
    | none => none
    | some (tags, minsize) => some (s.polled tags minsize (s.rb.writeSpanLoop tags minsize))
  | .write i b =>
    match s.wspan with
    | none => none
    | some span =>
      if i < span.size then some { s with rb := s.rb.store (span.begin + i) [b] } else none
  | .reduceWritable n =>
    match s.wspan with
    | none => none
    | some span =>
      if n ≤ span.size then
        some { s with
          rb := s.rb.reduceWritable n
          wspan := some (rest span n)
          committed := s.committed ++ window s.rb.mem s.rb.capacity span.begin n }
      else none
  | .attach => some { s with attached := true }
  | .detach => some { s with attached := false, rspan := none }
  | .readSpan => if s.attached then some { s with rspan := some s.rb.readSpan } else none
  | .reduceReadable n =>
    match s.rspan with
    | none => none
    | some span =>
      if n ≤ span.size then
        some { s with
          rb := s.rb.reduceReadable n
          rspan := some (rest span n)
          consumed := s.consumed ++ window s.rb.mem s.rb.capacity span.begin n }
      else none
  | .clear =>
    if s.attached = false ∧ s.call = none then
      some { s with rb := s.rb.clear, wspan := none, committed := [], consumed := [] }
    else none

/-- The queue the state stands for, read off the buffer's own counters. -/
def abs (s : RingState β) : Fifo β := ⟨s.rb.contents, s.consumed⟩

/-- The queue operation an event performs. -/
def label (s : RingState β) : RingEvent β → Option (FifoAct β)
  | .reduceWritable n =>
    s.wspan.map fun span => .enqueue (window s.rb.mem s.rb.capacity span.begin n)
  | .reduceReadable n => some (.dequeue n)
  | .clear => some .clear
  | _ => none

end RingState

/-- A new buffer over some memory, with or without a reader. -/
def ringMachine (sizing : Sizing) (mem : Nat → β) : Machine (RingState β) (RingEvent β) where
  init s := s.rb = .make sizing mem ∧ s.call = none ∧ s.wspan = none ∧ s.rspan = none ∧
    s.committed = [] ∧ s.consumed = []
  step := RingState.step

/-! ## What a step does -/

namespace RingState

/-- The events that can happen in `s`, and what each of them leaves behind. -/
inductive Fires (s : RingState β) : RingEvent β → RingState β → Prop
  | writeSpan {tags : Tags} {minsize : Nat} (hcall : s.call = none)
      (hmin : minsize ≤ s.rb.capacity) :
      Fires s (.writeSpan tags minsize) (s.polled tags minsize (s.rb.writeSpan tags minsize))
  | writeSpanLoop {tags : Tags} {minsize : Nat} (hcall : s.call = some (tags, minsize)) :
      Fires s .writeSpanLoop (s.polled tags minsize (s.rb.writeSpanLoop tags minsize))
  | write {i : Nat} {b : β} {span : Span} (hspan : s.wspan = some span) (hi : i < span.size) :
      Fires s (.write i b) { s with rb := s.rb.store (span.begin + i) [b] }
  | reduceWritable {n : Nat} {span : Span} (hspan : s.wspan = some span) (hn : n ≤ span.size) :
      Fires s (.reduceWritable n) { s with
        rb := s.rb.reduceWritable n
        wspan := some (rest span n)
        committed := s.committed ++ window s.rb.mem s.rb.capacity span.begin n }
  | attach : Fires s .attach { s with attached := true }
  | detach : Fires s .detach { s with attached := false, rspan := none }
  | readSpan (ha : s.attached = true) : Fires s .readSpan { s with rspan := some s.rb.readSpan }
  | reduceReadable {n : Nat} {span : Span} (hspan : s.rspan = some span) (hn : n ≤ span.size) :
      Fires s (.reduceReadable n) { s with
        rb := s.rb.reduceReadable n
        rspan := some (rest span n)
        consumed := s.consumed ++ window s.rb.mem s.rb.capacity span.begin n }
  | clear (ha : s.attached = false) (hcall : s.call = none) :
      Fires s .clear { s with rb := s.rb.clear, wspan := none, committed := [], consumed := [] }

theorem fires_of_step {s s' : RingState β} {e : RingEvent β} (hs : s.step e = some s') :
    Fires s e s' := by
  cases e with
  | writeSpan tags minsize =>
    simp only [step] at hs
    split at hs
    · rename_i hcall
      split at hs
      · cases hs
        exact .writeSpan hcall ‹_›
      · cases hs
    · cases hs
  | writeSpanLoop =>
    simp only [step] at hs
    split at hs
    · cases hs
    · cases hs
      exact .writeSpanLoop ‹_›
  | write i b =>
    simp only [step] at hs
    split at hs
    · cases hs
    · rename_i span hspan
      split at hs
      · cases hs
        exact .write hspan ‹_›
      · cases hs
  | reduceWritable n =>
    simp only [step] at hs
    split at hs
    · cases hs
    · rename_i span hspan
      split at hs
      · cases hs
        exact .reduceWritable hspan ‹_›
      · cases hs
  | attach =>
    cases hs
    exact .attach
  | detach =>
    cases hs
    exact .detach
  | readSpan =>
    simp only [step] at hs
    split at hs
    · cases hs
      exact .readSpan ‹_›
    · cases hs
  | reduceReadable n =>
    simp only [step] at hs
    split at hs
    · cases hs
    · rename_i span hspan
      split at hs
      · cases hs
        exact .reduceReadable hspan ‹_›
      · cases hs
  | clear =>
    simp only [step] at hs
    split at hs
    · rename_i hidle
      cases hs
      exact .clear hidle.1 hidle.2
    · cases hs

/-! ## The invariant -/

/-- `S` is the number of released cells the writer knows of. -/
structure InvAt (s : RingState β) (S : Nat) : Prop where
  counts : s.rb.Counts s.committed.length s.consumed.length S
  conserved : s.committed =
    s.consumed ++ window s.rb.mem s.rb.capacity s.consumed.length
      (s.committed.length - s.consumed.length)
  wspan : ∀ span, s.wspan = some span →
    s.call = none ∧ span.begin % s.rb.capacity = s.committed.length % s.rb.capacity ∧
      span.size ≤ S + s.rb.capacity - s.committed.length
  rspan : ∀ span, s.rspan = some span →
    s.attached = true ∧ span.begin % s.rb.capacity = s.consumed.length % s.rb.capacity ∧
      span.size ≤ s.committed.length - s.consumed.length

/-- The invariant of every run. -/
def Inv (s : RingState β) : Prop := ∃ S, s.InvAt S

theorem InvAt.contents {s : RingState β} {S : Nat} (h : s.InvAt S) :
    s.rb.contents = window s.rb.mem s.rb.capacity s.consumed.length
      (s.committed.length - s.consumed.length) := h.counts.contents

theorem InvAt.contents_length {s : RingState β} {S : Nat} (h : s.InvAt S) :
    s.rb.contents.length = s.committed.length - s.consumed.length := by
  rw [h.contents, window_length]

theorem inv_init {sizing : Sizing} {mem : Nat → β} {s : RingState β}
    (h : (ringMachine sizing mem).init s) : s.Inv := by
  obtain ⟨hrb, hcall, hw, hr, hco, hcn⟩ := h
  refine ⟨0, ?_, ?_, ?_, ?_⟩
  · rw [hrb, hco, hcn]; exact .make sizing mem
  · simp [hco, hcn]
  · intro span h; rw [hw] at h; cases h
  · intro span h; rw [hr] at h; cases h

/-- A poll of the free space, on entry to `write_span` or in its loop: the writer's
copy of the reader's counter may have moved up, and a span that is returned is the
free space by that copy. -/
structure Polls (s : RingState β) (rb : RingBuffer β) (p : Poll) (S : Nat) : Prop where
  counts : rb.Counts s.committed.length s.consumed.length S
  sizing : rb.sizing = s.rb.sizing
  mem : rb.mem = s.rb.mem
  span : ∀ span, p = .ret (some span) → span = rb.writeSpanNow

theorem Polls.capacity {s : RingState β} {rb : RingBuffer β} {p : Poll} {S : Nat}
    (h : Polls s rb p S) : rb.capacity = s.rb.capacity := congrArg Sizing.capacity h.sizing

/-- Entering `write_span` loads the reader's counter unless it is speculative. -/
theorem InvAt.writeSpan_polls {s : RingState β} {S : Nat} (h : s.InvAt S) (tags : Tags)
    (minsize : Nat) :
    ∃ S', Polls s (s.rb.writeSpan tags minsize).1 (s.rb.writeSpan tags minsize).2 S' := by
  obtain ⟨hrb, hspan⟩ := s.rb.writeSpan_spec tags minsize
  have hret : ∀ span, (s.rb.writeSpan tags minsize).2 = .ret (some span) →
      span = (s.rb.writeSpan tags minsize).1.writeSpanNow := fun span hp => (hspan _ hp).1
  rw [hrb] at hret ⊢
  split at hret
  · rw [if_pos ‹_›]
    exact ⟨S, h.counts, rfl, rfl, hret⟩
  · rw [if_neg ‹_›]
    exact ⟨_, h.counts.acquire, rfl, rfl, hret⟩

/-- The loop always loads it. -/
theorem InvAt.writeSpanLoop_polls {s : RingState β} {S : Nat} (h : s.InvAt S) (tags : Tags)
    (minsize : Nat) : Polls s (s.rb.writeSpanLoop tags minsize).1
      (s.rb.writeSpanLoop tags minsize).2 s.consumed.length :=
  ⟨h.counts.acquire, rfl, rfl, fun _ hp => ((s.rb.writeSpanLoop_spec tags minsize).2 _ hp).1⟩

/-- A poll keeps the invariant. -/
theorem InvAt.polled {s : RingState β} {S S' : Nat} (h : s.InvAt S) {rb : RingBuffer β} {p : Poll}
    (hp : Polls s rb p S') (tags : Tags) (minsize : Nat) :
    (s.polled tags minsize (rb, p)).InvAt S' := by
  have hcons : s.committed = s.consumed ++ window rb.mem rb.capacity s.consumed.length
      (s.committed.length - s.consumed.length) := by rw [hp.mem, hp.capacity]; exact h.conserved
  have hrspan : ∀ span, s.rspan = some span → s.attached = true ∧
      span.begin % rb.capacity = s.consumed.length % rb.capacity ∧
        span.size ≤ s.committed.length - s.consumed.length := by rw [hp.capacity]; exact h.rspan
  cases p with
  | spin => exact ⟨hp.counts, hcons, fun _ h => (Option.some_ne_none _ h.symm).elim, hrspan⟩
  | ret sp =>
    refine ⟨hp.counts, hcons, fun span hspan => ⟨rfl, ?_⟩, hrspan⟩
    have hspan : sp = some span := hspan
    rw [hp.span span (by rw [hspan])]
    refine ⟨?_, Nat.le_of_eq hp.counts.writable⟩
    show rb.writeBegin % rb.capacity = s.committed.length % rb.capacity
    rw [hp.counts.writeBegin, Nat.mod_mod]

/-- A write into the held span touches only free cells. -/
theorem InvAt.write {s : RingState β} {S : Nat} (h : s.InvAt S) {span : Span} {i : Nat} (b : β)
    (hspan : s.wspan = some span) (hi : i < span.size) :
    window (s.rb.store (span.begin + i) [b]).mem s.rb.capacity s.consumed.length
      (s.committed.length - s.consumed.length) =
    window s.rb.mem s.rb.capacity s.consumed.length
      (s.committed.length - s.consumed.length) := by
  obtain ⟨-, hbegin, hsize⟩ := h.wspan span hspan
  have hstale := h.counts.stale
  have hle := h.counts.read_le
  have hat : (span.begin + i) % s.rb.capacity =
      (s.committed.length + i) % s.rb.capacity := by rw [Nat.add_mod, hbegin, ← Nat.add_mod]
  show window (CircularMemory.store s.rb.mem s.rb.capacity (span.begin + i) [b]) _ _ _ = _
  rw [store_congr hat]
  exact window_store_of_disjoint [b] (by omega) (by simp only [List.length_singleton]; omega)

/-- What is left of a span starts `n` cells further on. -/
theorem rest_begin {span : Span} {n m cap : Nat} (h : span.begin % cap = m % cap) :
    (rest span n).begin % cap = (m + n) % cap := by
  show (span.begin + n) % cap = (m + n) % cap
  rw [Nat.add_mod, h, ← Nat.add_mod]

/-- A commit extends the committed cells by those standing in the write span. -/
theorem InvAt.reduceWritable {s : RingState β} {S n : Nat} (h : s.InvAt S) {span : Span}
    (hspan : s.wspan = some span) (hn : n ≤ span.size) :
    InvAt { s with
      rb := s.rb.reduceWritable n
      wspan := some (rest span n)
      committed := s.committed ++ window s.rb.mem s.rb.capacity span.begin n } S := by
  obtain ⟨hcall, hbegin, hsize⟩ := h.wspan span hspan
  have hle := h.counts.read_le
  have hlen : (s.committed ++ window s.rb.mem s.rb.capacity span.begin n).length =
      s.committed.length + n := by rw [List.length_append, window_length]
  constructor
  · show (s.rb.reduceWritable n).Counts _ s.consumed.length S
    rw [hlen]
    exact h.counts.reduceWritable (by omega)
  · show s.committed ++ window s.rb.mem s.rb.capacity span.begin n =
      s.consumed ++ window s.rb.mem s.rb.capacity s.consumed.length
        ((s.committed ++ window s.rb.mem s.rb.capacity span.begin n).length - s.consumed.length)
    -- the unread cells, then the new ones
    rw [hlen, show s.committed.length + n - s.consumed.length =
        s.committed.length - s.consumed.length + n by omega, window_add, ← List.append_assoc,
      ← h.conserved, show s.consumed.length + (s.committed.length - s.consumed.length) =
        s.committed.length by omega, window_congr _ _ hbegin]
  · intro sp hsp
    cases hsp
    refine ⟨hcall, ?_, ?_⟩
    · rw [hlen]
      exact rest_begin hbegin
    · show span.size - n ≤ S + s.rb.capacity - _
      rw [hlen]
      omega
  · intro sp hsp
    obtain ⟨ha, hb, hsz⟩ := h.rspan sp hsp
    refine ⟨ha, hb, ?_⟩
    show sp.size ≤ _ - s.consumed.length
    rw [hlen]
    omega

/-- A release takes the cells standing in the read span, which are the next in order. -/
theorem InvAt.reduceReadable {s : RingState β} {S n : Nat} (h : s.InvAt S) {span : Span}
    (hspan : s.rspan = some span) (hn : n ≤ span.size) :
    InvAt { s with
      rb := s.rb.reduceReadable n
      rspan := some (rest span n)
      consumed := s.consumed ++ window s.rb.mem s.rb.capacity span.begin n } S := by
  obtain ⟨ha, hbegin, hsize⟩ := h.rspan span hspan
  have hle := h.counts.read_le
  have hlen : (s.consumed ++ window s.rb.mem s.rb.capacity span.begin n).length =
      s.consumed.length + n := by rw [List.length_append, window_length]
  constructor
  · show (s.rb.reduceReadable n).Counts s.committed.length _ S
    rw [hlen]
    exact h.counts.reduceReadable (by omega)
  · show s.committed = s.consumed ++ window s.rb.mem s.rb.capacity span.begin n ++ _
    rw [hlen, window_congr _ _ hbegin, List.append_assoc]
    show s.committed = s.consumed ++ (window s.rb.mem s.rb.capacity s.consumed.length n ++
      window s.rb.mem s.rb.capacity (s.consumed.length + n)
        (s.committed.length - (s.consumed.length + n)))
    rw [← window_add, show n + (s.committed.length - (s.consumed.length + n)) =
      s.committed.length - s.consumed.length by omega]
    exact h.conserved
  · exact h.wspan
  · intro sp hsp
    cases hsp
    refine ⟨ha, ?_, ?_⟩
    · rw [hlen]
      exact rest_begin hbegin
    · show span.size - n ≤ s.committed.length - _
      rw [hlen]
      omega

theorem Fires.inv {s s' : RingState β} {e : RingEvent β} (hf : Fires s e s') (hi : s.Inv) :
    s'.Inv := by
  obtain ⟨S, h⟩ := hi
  cases hf with
  | writeSpan hcall hmin =>
    obtain ⟨S', hp⟩ := h.writeSpan_polls _ _
    exact ⟨S', h.polled hp _ _⟩
  | writeSpanLoop hcall => exact ⟨_, h.polled (h.writeSpanLoop_polls _ _) _ _⟩
  | write hspan hlt =>
    refine ⟨S, h.counts.store _ _, ?_, h.wspan, h.rspan⟩
    show s.committed = _
    rw [RingBuffer.store_capacity, h.write _ hspan hlt]
    exact h.conserved
  | reduceWritable hspan hn => exact ⟨S, h.reduceWritable hspan hn⟩
  | attach => exact ⟨S, h.counts, h.conserved, h.wspan, fun sp hsp => ⟨rfl, (h.rspan sp hsp).2⟩⟩
  | detach =>
    exact ⟨S, h.counts, h.conserved, h.wspan, fun _ hsp => (Option.some_ne_none _ hsp.symm).elim⟩
  | readSpan ha =>
    refine ⟨S, h.counts, h.conserved, h.wspan, fun sp hsp => ?_⟩
    cases hsp
    rw [h.counts.readSpan]
    exact ⟨ha, Nat.mod_mod _ _, Nat.le_refl _⟩
  | reduceReadable hspan hn => exact ⟨S, h.reduceReadable hspan hn⟩
  | clear ha hcall =>
    refine ⟨0, .clear s.rb, by simp, fun _ hsp => (Option.some_ne_none _ hsp.symm).elim, ?_⟩
    -- a read span is held only while the reader is attached
    intro sp hsp
    have hatt := (h.rspan sp hsp).1
    rw [ha] at hatt
    cases hatt

theorem inv_of_reachable {sizing : Sizing} {mem : Nat → β} {s : RingState β}
    (h : (ringMachine sizing mem).Reachable s) : s.Inv :=
  h.invariant (fun _ => inv_init) fun _ _ _ hi hs => (fires_of_step hs).inv hi

theorem polled_sizing (s : RingState β) (tags : Tags) (minsize : Nat) (p : RingBuffer β × Poll) :
    (s.polled tags minsize p).rb.sizing = p.1.sizing := by
  rcases p with ⟨rb, _ | span⟩ <;> rfl

theorem Fires.sizing {s s' : RingState β} {e : RingEvent β} (hf : Fires s e s') :
    s'.rb.sizing = s.rb.sizing := by
  cases hf with
  | writeSpan hcall hmin =>
    rw [polled_sizing, (s.rb.writeSpan_spec _ _).1]
    split <;> rfl
  | writeSpanLoop hcall => exact polled_sizing ..
  | _ => rfl

theorem sizing_of_reachable {sizing : Sizing} {mem : Nat → β} {s : RingState β}
    (h : (ringMachine sizing mem).Reachable s) : s.rb.sizing = sizing :=
  h.invariant (I := fun s => s.rb.sizing = sizing) (fun _ h0 => by rw [h0.1]; rfl)
    fun _ _ _ hi hs => (fires_of_step hs).sizing.trans hi

/-! ## Refinement -/

/-- The contents do not change while the writer polls. -/
theorem abs_polled {s : RingState β} {S S' : Nat} (h : s.InvAt S) {rb : RingBuffer β} {p : Poll}
    (hp : Polls s rb p S') (tags : Tags) (minsize : Nat) :
    (s.polled tags minsize (rb, p)).abs = s.abs := by
  have hcon : rb.contents = s.rb.contents := by
    rw [hp.counts.contents, h.contents, hp.capacity, hp.mem]
  cases p <;> simp only [abs, polled, hcon]

/-- Committing the first `n` cells of the held span appends them. -/
theorem contents_reduceWritable {s : RingState β} {S n : Nat} (h : s.InvAt S) {span : Span}
    (hspan : s.wspan = some span) (hn : n ≤ span.size) :
    (s.rb.reduceWritable n).contents =
      s.rb.contents ++ window s.rb.mem s.rb.capacity span.begin n := by
  obtain ⟨-, hbegin, hsize⟩ := h.wspan span hspan
  have hle := h.counts.read_le
  rw [(h.counts.reduceWritable (n := n) (by omega)).contents, h.contents,
    window_congr _ _ hbegin]
  show window s.rb.mem s.rb.capacity _ _ = _
  rw [show s.committed.length + n - s.consumed.length =
    s.committed.length - s.consumed.length + n by omega, window_add]
  rw [show s.consumed.length + (s.committed.length - s.consumed.length) =
    s.committed.length by omega]

/-- Releasing `n` cells of the held span drops them. -/
theorem contents_reduceReadable {s : RingState β} {S n : Nat} (h : s.InvAt S) {span : Span}
    (hspan : s.rspan = some span) (hn : n ≤ span.size) :
    (s.rb.reduceReadable n).contents = s.rb.contents.drop n ∧
      s.rb.contents.take n = window s.rb.mem s.rb.capacity span.begin n := by
  obtain ⟨-, hbegin, hsize⟩ := h.rspan span hspan
  rw [(h.counts.reduceReadable (n := n) (by omega)).contents, h.contents,
    window_drop _ _ _ _ _ (by omega), window_take _ _ _ _ _ (by omega),
    window_congr _ _ hbegin, Nat.sub_sub]
  exact ⟨rfl, rfl⟩

theorem ringMachine_refines (sizing : Sizing) (mem : Nat → β) :
    Machine.Refines (ringMachine sizing mem) (fifo sizing.capacity) abs label where
  init s h0 := by
    obtain ⟨S, h⟩ := inv_init h0
    obtain ⟨-, -, -, -, hco, hcn⟩ := h0
    show (⟨s.rb.contents, s.consumed⟩ : Fifo β) = ⟨[], []⟩
    rw [h.contents, hco, hcn]
    rfl
  step s e s' hr hs := by
    obtain ⟨S, h⟩ := inv_of_reachable hr
    have hcap : s.rb.capacity = sizing.capacity := congrArg Sizing.capacity (sizing_of_reachable hr)
    cases fires_of_step hs with
    | writeSpan hcall hmin =>
      obtain ⟨S', hp⟩ := h.writeSpan_polls _ _
      exact abs_polled h hp _ _
    | writeSpanLoop hcall => exact abs_polled h (h.writeSpanLoop_polls _ _) _ _
    | write hspan hlt =>
      show (⟨(s.rb.store _ _).contents, s.consumed⟩ : Fifo β) = ⟨s.rb.contents, s.consumed⟩
      rw [(h.counts.store _ _).contents, RingBuffer.store_capacity, h.write _ hspan hlt,
        h.contents]
    | reduceWritable hspan hn =>
      obtain ⟨-, -, hsize⟩ := h.wspan _ hspan
      have hstale := h.counts.stale
      have hle := h.counts.read_le
      have hroom := h.counts.room
      simp only [label, hspan, Option.map_some]
      show (fifo sizing.capacity).step ⟨s.rb.contents, s.consumed⟩ _ = _
      simp only [fifo, window_length, h.contents_length]
      rw [if_pos (by omega)]
      simp only [abs, contents_reduceWritable h hspan hn]
    | reduceReadable hspan hn =>
      obtain ⟨-, -, hsize⟩ := h.rspan _ hspan
      obtain ⟨hdrop, htake⟩ := contents_reduceReadable h hspan hn
      show (fifo sizing.capacity).step ⟨s.rb.contents, s.consumed⟩ (.dequeue _) = _
      simp only [fifo, h.contents_length]
      rw [if_pos (by omega)]
      simp only [abs, hdrop, htake]
    | clear ha hcall =>
      show some (⟨[], []⟩ : Fifo β) = some ⟨s.rb.clear.contents, []⟩
      rw [(RingBuffer.Counts.clear s.rb).contents]
      rfl
    | attach | detach | readSpan ha => rfl

/-- The span an event returned to its caller. -/
def returned : RingEvent β → RingState β → Option Span
  | .writeSpan .., s => s.wspan
  | .writeSpanLoop, s => s.wspan
  | .readSpan, s => s.rspan
  | _, _ => none

theorem Polls.begin_lt {s : RingState β} {rb : RingBuffer β} {p : Poll} {S : Nat}
    (h : Polls s rb p S) {tags : Tags} {minsize : Nat} {span : Span}
    (hr : (s.polled tags minsize (rb, p)).wspan = some span) : span.begin < s.rb.capacity := by
  cases p with
  | spin => cases hr
  | ret sp =>
    have hr : sp = some span := hr
    rw [h.span span (by rw [hr])]
    show rb.writeBegin < _
    rw [h.counts.writeBegin, h.capacity]
    exact Nat.mod_lt _ s.rb.capacity_pos

/-- Every span that is returned starts in the first mapping. -/
theorem Fires.returned_begin_lt {s s' : RingState β} {e : RingEvent β} {span : Span}
    (hf : Fires s e s') (hi : s.Inv) (hr : returned e s' = some span) :
    span.begin < s.rb.capacity := by
  obtain ⟨S, h⟩ := hi
  cases hf with
  | writeSpan hcall hmin =>
    obtain ⟨S', hp⟩ := h.writeSpan_polls _ _
    exact hp.begin_lt hr
  | writeSpanLoop hcall => exact (h.writeSpanLoop_polls _ _).begin_lt hr
  | readSpan ha =>
    cases hr
    rw [h.counts.readSpan]
    exact Nat.mod_lt _ s.rb.capacity_pos
  | _ => cases hr

/-- What every reachable state guarantees its two users. -/
structure Sound (s : RingState β) (cap : Nat) : Prop where
  /-- The cells taken are the first of the cells committed, in order, and the
  rest stand unread in the buffer. -/
  conserved : s.committed = s.consumed ++ s.rb.contents
  /-- The counters are the totals modulo `2 ^ 64`. -/
  written : s.rb.nwritten.toNat = s.committed.length % 2 ^ 64
  read : s.rb.nread.toNat = s.consumed.length % 2 ^ 64
  occupancy : s.consumed.length ≤ s.committed.length ∧
    s.committed.length - s.consumed.length ≤ cap
  /-- The writer's copies never promise more than the real free space. -/
  writable : s.rb.writable ≤ cap - s.rb.contents.length
  /-- The held write span lies in the free space. -/
  wspan : ∀ span, s.wspan = some span → span.size ≤ cap - s.rb.contents.length
  /-- Each cell of the held read span is the committed cell it stands for. -/
  rspan : ∀ span, s.rspan = some span → ∀ i, i < span.size →
    s.committed[s.consumed.length + i]? = some (s.rb.cell (span.begin + i))

theorem sound_of_inv {s : RingState β} (hi : s.Inv) : s.Sound s.rb.capacity := by
  obtain ⟨S, h⟩ := hi
  have hstale := h.counts.stale
  have hle := h.counts.read_le
  have hroom := h.counts.room
  refine ⟨by rw [h.contents]; exact h.conserved, h.counts.nwritten, h.counts.nread_toNat,
    ⟨hle, by omega⟩, ?_, ?_, ?_⟩
  · rw [h.counts.writable, h.contents_length]
    omega
  · intro span hspan
    have := (h.wspan span hspan).2.2
    rw [h.contents_length]
    omega
  · intro span hspan i hi
    obtain ⟨-, hbegin, hsize⟩ := h.rspan span hspan
    rw [h.conserved, List.getElem?_append_right (by omega), Nat.add_sub_cancel_left,
      window_getElem? _ _ _ _ _ (by simpa using by omega)]
    unfold RingBuffer.cell
    rw [Nat.add_mod span.begin, hbegin, ← Nat.add_mod]

/-- **The ring buffer refines a bounded FIFO queue**, for every capacity and every
interleaving of its writer and its reader. -/
theorem ringBuffer_refines_fifo (sizing : Sizing) (mem : Nat → β) :
    Machine.Refines (ringMachine sizing mem) (fifo sizing.capacity) abs label ∧
    ∀ s, (ringMachine sizing mem).Reachable s →
      s.Sound sizing.capacity ∧
      (∀ e s' span, s.step e = some s' → returned e s' = some span →
        span.begin < sizing.capacity) ∧
      ∀ s', s.step .clear = some s' → s'.rb = .make sizing s.rb.mem ∧ s'.abs = ⟨[], []⟩ := by
  refine ⟨ringMachine_refines sizing mem, fun s hr => ?_⟩
  have hi := inv_of_reachable hr
  have hz := sizing_of_reachable hr
  have hcap : s.rb.capacity = sizing.capacity := congrArg Sizing.capacity hz
  refine ⟨hcap ▸ sound_of_inv hi, fun e s' span hs hret => ?_, fun s' hs => ?_⟩
  · exact hcap ▸ (fires_of_step hs).returned_begin_lt hi hret
  · have habs := (ringMachine_refines sizing mem).step s .clear s' hr hs
    refine ⟨?_, (Option.some.inj habs).symm⟩
    cases fires_of_step hs
    show s.rb.clear = _
    rw [RingBuffer.clear, RingBuffer.make, RingBuffer.capacity, hz]

end RingState
end Xtr
