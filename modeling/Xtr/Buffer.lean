import Xtr.Machine
import Xtr.OutputBuffer

/-!
# The buffer, pointer by pointer

`detail::buffer` as `buffer.cpp` has it: three pointers into the span that
`allocate_buffer` last returned, all of them null before the first call and after a
`flush`.  So null, full and fresh share one test: `pos_ == end_` asks for the next span
in all three.

The storage is any storage that does not fail.  It chooses every span, looking at all
the calls made so far, and during a call it may do what it likes with the memory; all it
promises is that no span is empty (`storage_interface::allocate_buffer`).

`OutputBuffer` is what the rest of the development needs of this, the pointers
forgotten; the last section is the link.
-/
namespace Xtr.Buffer

/-! ## Memory -/

abbrev Memory := Nat → UInt8

/-- `memcpy`. -/
def memcpy (mem : Memory) (dst : Nat) (bytes : List UInt8) : Memory := fun a =>
  if dst ≤ a ∧ a < dst + bytes.length then bytes.getD (a - dst) 0 else mem a

/-- `size` bytes from the address `buf`. -/
def region (mem : Memory) (buf size : Nat) : List UInt8 :=
  (List.range size).map fun k => mem (buf + k)

theorem length_region (mem : Memory) (buf size : Nat) : (region mem buf size).length = size := by
  simp only [region, List.length_map, List.length_range]

/-- Bytes copied behind a region make it longer. -/
theorem region_memcpy (mem : Memory) (buf size : Nat) (bytes : List UInt8) :
    region (memcpy mem (buf + size) bytes) buf (size + bytes.length) =
      region mem buf size ++ bytes := by
  refine List.ext_getElem (by simp [region]) fun k hk hk' => ?_
  simp only [region, List.getElem_map, List.getElem_range]
  rw [length_region] at hk
  by_cases hlt : k < size
  · rw [List.getElem_append_left (by simpa [region] using hlt)]
    simp only [List.getElem_map, List.getElem_range]
    exact if_neg fun hin => by omega
  · obtain ⟨j, rfl⟩ := Nat.exists_eq_add_of_le (Nat.le_of_not_lt hlt)
    have hin : buf + size ≤ buf + (size + j) ∧ buf + (size + j) < buf + size + bytes.length := by
      omega
    have hj : buf + (size + j) - (buf + size) = j := by omega
    rw [List.getElem_append_right (by simp), memcpy, if_pos hin, hj, List.getD_eq_getElem?_getD,
      List.getElem?_eq_getElem (by omega), Option.getD_some]
    simp only [List.length_map, List.length_range, Nat.add_sub_cancel_left]

/-! ## The storage -/

/-- A `std::span<char>`. -/
structure CharSpan where
  data : Nat
  size : Nat
  deriving DecidableEq

/-- A call of `storage_interface`, with the span it returned or the bytes that were at
the submitted address. -/
inductive Call
  | allocateBuffer (span : CharSpan)
  | submitBuffer (buf size : Nat) (bytes : List UInt8)
  | flush
  deriving DecidableEq

/-- A storage that does not fail: the span it returns after the calls so far, and what a
call makes of the memory. -/
structure Storage where
  allocate : List Call → CharSpan
  touch : List Call → Memory → Memory
  pos : ∀ calls, 0 < (allocate calls).size

/-- The span that is allocated and not yet submitted. -/
def outstanding : List Call → Option CharSpan :=
  List.foldl (fun o c => match c with
    | .allocateBuffer span => some span
    | .submitBuffer .. => none
    | .flush => o) none

/-- The submitted bytes, in order. -/
def submitted (calls : List Call) : List UInt8 :=
  calls.flatMap fun
    | .submitBuffer _ _ bytes => bytes
    | _ => []

/-- **The contract of `storage_interface`.**  A span is only allocated when the last one
is submitted; what is submitted is the last allocated span, or some first bytes of it. -/
structure Legal (calls : List Call) : Prop where
  allocate : ∀ before span after, calls = before ++ .allocateBuffer span :: after →
    outstanding before = none
  submit : ∀ before buf size bytes after, calls = before ++ .submitBuffer buf size bytes :: after →
    ∃ span, outstanding before = some span ∧ buf = span.data ∧ 1 ≤ size ∧ size ≤ span.size ∧
      bytes.length = size

theorem outstanding_concat (calls : List Call) (c : Call) :
    outstanding (calls ++ [c]) = match c with
      | .allocateBuffer span => some span
      | .submitBuffer .. => none
      | .flush => outstanding calls := by
  simp only [outstanding, List.foldl_append, List.foldl_cons, List.foldl_nil]

theorem submitted_concat (calls : List Call) (c : Call) :
    submitted (calls ++ [c]) = submitted calls ++ match c with
      | .submitBuffer _ _ bytes => bytes
      | _ => [] := by
  simp only [submitted, List.flatMap_append, List.flatMap_singleton]

theorem Legal.nil : Legal [] where
  allocate before span after h := by cases before <;> cases h
  submit before buf size bytes after h := by cases before <;> cases h

/-- The last element of a list, or one before it. -/
theorem concat_eq_append_cons {α : Type} {xs before after : List α} {x y : α}
    (h : xs ++ [x] = before ++ y :: after) :
    (before = xs ∧ y = x) ∨ ∃ rest, xs = before ++ y :: rest := by
  rcases List.eq_nil_or_concat after with rfl | ⟨rest, z, rfl⟩
  · obtain ⟨h1, h2⟩ := List.append_inj' h rfl
    exact .inl ⟨h1.symm, (List.cons.inj h2).1.symm⟩
  · rw [List.concat_eq_append, ← List.cons_append, ← List.append_assoc] at h
    exact .inr ⟨rest, (List.append_inj' h rfl).1⟩

/-- A call that keeps the contract is made after calls that kept it. -/
theorem Legal.concat {calls : List Call} {c : Call} (h : Legal calls)
    (hc : match c with
      | .allocateBuffer _ => outstanding calls = none
      | .submitBuffer buf size bytes => ∃ span, outstanding calls = some span ∧
          buf = span.data ∧ 1 ≤ size ∧ size ≤ span.size ∧ bytes.length = size
      | .flush => True) : Legal (calls ++ [c]) where
  allocate before span after heq := by
    rcases concat_eq_append_cons heq with ⟨rfl, rfl⟩ | ⟨rest, rfl⟩
    · exact hc
    · exact h.allocate before span rest rfl
  submit before buf size bytes after heq := by
    rcases concat_eq_append_cons heq with ⟨rfl, rfl⟩ | ⟨rest, rfl⟩
    · exact hc
    · exact h.submit before buf size bytes rest rfl

/-! ## The buffer -/

/-- `detail::buffer` with the memory and the calls made to `storage_`. -/
structure State where
  begin_ : Nat
  pos_ : Nat
  end_ : Nat
  mem : Memory
  calls : List Call

def nullptr : Nat := 0

/-- The bytes from `begin_` to `pos_`. -/
def State.pending (b : State) : List UInt8 := region b.mem b.begin_ (b.pos_ - b.begin_)

/-- Everything submitted, and what is pending. -/
def State.output (b : State) : List UInt8 := submitted b.calls ++ b.pending

section Operations
variable (st : Storage)

/-- The storage is called. -/
def State.call (b : State) (c : Call) : State :=
  { b with mem := st.touch (b.calls ++ [c]) b.mem, calls := b.calls ++ [c] }

/-- `storage_->submit_buffer(begin_, pos_ - begin_)`. -/
def submitBuffer (b : State) : State :=
  b.call st (.submitBuffer b.begin_ (b.pos_ - b.begin_) b.pending)

/-- `flush`. -/
def flush (b : State) : State :=
  let b := if b.pos_ ≠ b.begin_ then
      { submitBuffer st b with begin_ := nullptr, pos_ := nullptr, end_ := nullptr }
    else b
  b.call st .flush

/-- `next_buffer`. -/
def nextBuffer (b : State) : State :=
  let b := if b.pos_ ≠ b.begin_ then submitBuffer st b else b
  let s := st.allocate b.calls
  { b.call st (.allocateBuffer s) with
    begin_ := s.data, end_ := s.data + s.size, pos_ := s.data }

/-- `append`, given up after `fuel` rounds. -/
def append (fuel : Nat) (b : State) (bytes : List UInt8) : Option State :=
  if bytes = [] then some b
  else match fuel with
    | 0 => none
    | fuel + 1 =>
      let b := if b.pos_ = b.end_ then nextBuffer st b else b
      let n := min bytes.length (b.end_ - b.pos_)
      append fuel { b with mem := memcpy b.mem b.pos_ (bytes.take n), pos_ := b.pos_ + n }
        (bytes.drop n)

/-- What the consumer calls; `line` is what was formatted into the member of that name. -/
inductive Op
  | appendLine (line : List UInt8)
  | flush

/-- `append_line` gets one round for each byte of the line. -/
def step (b : State) : Op → Option State
  | .appendLine line => append st line.length b line
  | .flush => some (flush st b)

/-- A buffer that was just constructed. -/
def initial (mem : Memory) : State := ⟨nullptr, nullptr, nullptr, mem, []⟩

def machine : Machine State Op where
  init b := ∃ mem, b = initial mem
  step := step st

end Operations

/-! ## The invariant -/

/-- Between two operations.  A span that is allocated holds at least one byte; when there
is none, the three pointers are equal. -/
structure Inv (b : State) : Prop where
  legal : Legal b.calls
  idle : outstanding b.calls = none → b.pos_ = b.begin_ ∧ b.end_ = b.pos_
  filling : ∀ s, outstanding b.calls = some s →
    b.begin_ = s.data ∧ b.end_ = s.data + s.size ∧ b.begin_ < b.pos_ ∧ b.pos_ ≤ b.end_

/-- In `append`, before the bytes are copied: there is a span with room in it. -/
structure Roomy (b : State) (s : CharSpan) : Prop where
  legal : Legal b.calls
  span : outstanding b.calls = some s
  begin_eq : b.begin_ = s.data
  end_eq : b.end_ = s.data + s.size
  begin_le : b.begin_ ≤ b.pos_
  pos_lt : b.pos_ < b.end_

variable (st : Storage) {b : State}

theorem State.pending_of_eq (h : b.pos_ = b.begin_) : b.pending = [] := by
  rw [State.pending, h, Nat.sub_self]
  rfl

theorem Inv.initial (mem : Memory) : Inv (initial mem) where
  legal := .nil
  idle _ := ⟨rfl, rfl⟩
  filling _ h := by cases h

/-- Something is pending exactly when a span is allocated. -/
theorem Inv.outstanding_of_ne (h : Inv b) (hne : b.pos_ ≠ b.begin_) :
    ∃ s, outstanding b.calls = some s := by
  cases ho : outstanding b.calls with
  | none => exact absurd (h.idle ho).1 hne
  | some s => exact ⟨s, rfl⟩

theorem Inv.outstanding_of_eq (h : Inv b) (heq : b.pos_ = b.begin_) :
    outstanding b.calls = none := by
  cases ho : outstanding b.calls with
  | none => rfl
  | some s =>
    obtain ⟨-, -, hlt, -⟩ := h.filling s ho
    omega

/-- What `submit_buffer` gets is the allocated span up to `pos_`. -/
theorem Inv.legal_submitBuffer (h : Inv b) (hne : b.pos_ ≠ b.begin_) :
    Legal (submitBuffer st b).calls := by
  obtain ⟨s, hs⟩ := h.outstanding_of_ne hne
  obtain ⟨hb, he, hlt, hle⟩ := h.filling s hs
  exact h.legal.concat ⟨s, hs, hb, by omega, by omega, length_region ..⟩

variable {st} in
theorem outstanding_submitBuffer : outstanding (submitBuffer st b).calls = none :=
  outstanding_concat ..

variable {st} in
theorem submitted_submitBuffer : submitted (submitBuffer st b).calls = b.output :=
  submitted_concat ..

/-- **After `flush` nothing is pending**, and the output is the same. -/
theorem Inv.flush (h : Inv b) :
    Inv (flush st b) ∧ (flush st b).output = b.output ∧ (flush st b).pending = [] := by
  unfold Buffer.flush
  by_cases hpos : b.pos_ = b.begin_
  · have hidle := h.outstanding_of_eq hpos
    rw [if_neg (not_not.mpr hpos)]
    refine ⟨⟨h.legal.concat trivial, fun _ => h.idle hidle, fun s hs => ?_⟩, ?_,
      State.pending_of_eq hpos⟩
    · have hs' : outstanding (b.calls ++ [.flush]) = some s := hs
      rw [outstanding_concat] at hs'
      rw [hidle] at hs'
      cases hs'
    · show submitted (b.calls ++ [.flush]) ++ State.pending _ = submitted b.calls ++ b.pending
      rw [submitted_concat, State.pending_of_eq hpos, State.pending_of_eq (b := b.call st _) hpos,
        List.append_nil]
  · rw [if_pos hpos]
    refine ⟨⟨(h.legal_submitBuffer st hpos).concat trivial, fun _ => ⟨rfl, rfl⟩, fun s hs => ?_⟩,
      ?_, State.pending_of_eq rfl⟩
    · have hs' : outstanding ((submitBuffer st b).calls ++ [.flush]) = some s := hs
      rw [outstanding_concat, outstanding_submitBuffer] at hs'
      cases hs'
    · show submitted ((submitBuffer st b).calls ++ [.flush]) ++ State.pending _ = b.output
      rw [submitted_concat, submitted_submitBuffer, State.pending_of_eq rfl, List.append_nil,
        List.append_nil]

/-- `next_buffer` is only called on a full span or none, and leaves an empty one. -/
theorem Inv.nextBuffer (h : Inv b) :
    ∃ s, Roomy (nextBuffer st b) s ∧ (nextBuffer st b).output = b.output := by
  -- the storage before `allocate_buffer`
  obtain ⟨c, hc, hlegal, hidle, hout⟩ : ∃ c : State,
      (if b.pos_ ≠ b.begin_ then submitBuffer st b else b) = c ∧ Legal c.calls ∧
        outstanding c.calls = none ∧ submitted c.calls = b.output := by
    by_cases hpos : b.pos_ = b.begin_
    · refine ⟨b, if_neg (not_not.mpr hpos), h.legal, h.outstanding_of_eq hpos, ?_⟩
      rw [State.output, State.pending_of_eq hpos, List.append_nil]
    · exact ⟨_, if_pos hpos, h.legal_submitBuffer st hpos, outstanding_submitBuffer,
        submitted_submitBuffer⟩
  refine ⟨st.allocate c.calls, ?_⟩
  unfold Buffer.nextBuffer
  rw [hc]
  refine ⟨⟨hlegal.concat hidle, outstanding_concat .., rfl, rfl, Nat.le_refl _, ?_⟩, ?_⟩
  · have := st.pos c.calls
    show (st.allocate c.calls).data < _ + _
    omega
  · show submitted (c.calls ++ [_]) ++ State.pending _ = b.output
    rw [submitted_concat, State.pending_of_eq rfl, hout, List.append_nil, List.append_nil]

theorem Inv.roomy (h : Inv b) :
    ∃ c s, (if b.pos_ = b.end_ then Buffer.nextBuffer st b else b) = c ∧ Roomy c s ∧
      c.output = b.output := by
  by_cases hfull : b.pos_ = b.end_
  · obtain ⟨s, hroomy, hout⟩ := h.nextBuffer st
    exact ⟨_, s, if_pos hfull, hroomy, hout⟩
  · have hne : b.pos_ ≠ b.begin_ := by
      intro heq
      exact hfull ((h.idle (h.outstanding_of_eq heq)).2).symm
    obtain ⟨s, hs⟩ := h.outstanding_of_ne hne
    obtain ⟨hb, he, hlt, hle⟩ := h.filling s hs
    exact ⟨b, s, if_neg hfull, ⟨h.legal, hs, hb, he, by omega, by omega⟩, rfl⟩

/-- The copied bytes are pending. -/
theorem Roomy.copy {s : CharSpan} (h : Roomy b s) (chunk : List UInt8) (hpos : 0 < chunk.length)
    (hle : chunk.length ≤ b.end_ - b.pos_) :
    let b' : State := { b with mem := memcpy b.mem b.pos_ chunk, pos_ := b.pos_ + chunk.length }
    Inv b' ∧ b'.pending = b.pending ++ chunk := by
  obtain ⟨hlegal, hspan, hbegin, hend, hbl, hpl⟩ := h
  intro b'
  refine ⟨⟨hlegal, fun hnone => ?_, fun s' hs' => ?_⟩, ?_⟩
  · rw [show outstanding b'.calls = some s from hspan] at hnone
    cases hnone
  · rw [show outstanding b'.calls = some s from hspan] at hs'
    cases hs'
    have hlt : b.begin_ < b.pos_ + chunk.length := by omega
    have hle' : b.pos_ + chunk.length ≤ b.end_ := by omega
    exact ⟨hbegin, hend, hlt, hle'⟩
  · show region (memcpy b.mem b.pos_ chunk) b.begin_ (b.pos_ + chunk.length - b.begin_) =
      b.pending ++ chunk
    obtain ⟨n, hn⟩ := Nat.exists_eq_add_of_le hbl
    have hsize : b.pos_ + chunk.length - b.begin_ = n + chunk.length := by omega
    have hn' : b.pos_ - b.begin_ = n := by omega
    rw [hsize, hn, region_memcpy, State.pending, hn']

/-- One round of `append` copies as much as there is room for, and at least one byte. -/
theorem Roomy.round {s : CharSpan} (h : Roomy b s) {bytes : List UInt8} (hne : bytes ≠ []) :
    let n := min bytes.length (b.end_ - b.pos_)
    let b' : State := { b with mem := memcpy b.mem b.pos_ (bytes.take n), pos_ := b.pos_ + n }
    Inv b' ∧ b'.pending = b.pending ++ bytes.take n ∧ 0 < n := by
  intro n
  have hlen := List.length_pos_iff.mpr hne
  have hlt := h.pos_lt
  have hn : 0 < n := by omega
  have htake : (bytes.take n).length = n := by
    rw [List.length_take]
    omega
  have hcopy := h.copy (bytes.take n) (by omega) (by omega)
  rw [htake] at hcopy
  exact ⟨hcopy.1, hcopy.2, hn⟩

/-- **`append` terminates**, and appends. -/
theorem Inv.append (h : Inv b) {fuel : Nat} {bytes : List UInt8} (hf : bytes.length ≤ fuel) :
    ∃ b', append st fuel b bytes = some b' ∧ Inv b' ∧ b'.output = b.output ++ bytes := by
  induction fuel generalizing b bytes with
  | zero =>
    obtain rfl := List.length_eq_zero_iff.mp (Nat.le_zero.mp hf)
    exact ⟨b, rfl, h, (List.append_nil _).symm⟩
  | succ fuel ih =>
    unfold Buffer.append
    by_cases hnil : bytes = []
    · subst hnil
      exact ⟨b, rfl, h, (List.append_nil _).symm⟩
    · rw [if_neg hnil]
      obtain ⟨c, s, hc, hroomy, hout⟩ := h.roomy st
      obtain ⟨hinv, hcopy, hn⟩ := hroomy.round hnil
      simp only [hc]
      have hdrop : (bytes.drop (min bytes.length (c.end_ - c.pos_))).length ≤ fuel := by
        rw [List.length_drop]
        omega
      obtain ⟨b', hb', hinv', hout'⟩ := ih hinv hdrop
      refine ⟨b', hb', hinv', ?_⟩
      rw [hout', State.output, hcopy, ← hout, State.output]
      simp only [List.append_assoc, List.take_append_drop]

/-! ## Every run -/

/-- The line an operation appends. -/
def Op.line : Op → List UInt8
  | .appendLine line => line
  | .flush => []

/-- One operation: it terminates, and keeps the contract. -/
theorem Inv.step (h : Inv b) (op : Op) :
    ∃ b', step st b op = some b' ∧ Inv b' ∧ b'.output = b.output ++ op.line := by
  cases op with
  | appendLine line => exact h.append st (Nat.le_refl _)
  | flush =>
    obtain ⟨hinv, hout, -⟩ := h.flush st
    exact ⟨_, rfl, hinv, by rw [hout, Op.line, List.append_nil]⟩

theorem Inv.run (h : Inv b) (ops : List Op) :
    ∃ b', (machine st).run b ops = some b' ∧ Inv b' ∧
      b'.output = b.output ++ ops.flatMap Op.line := by
  induction ops generalizing b with
  | nil => exact ⟨b, rfl, h, (List.append_nil _).symm⟩
  | cons op ops ih =>
    obtain ⟨c, hc, hinv, hout⟩ := h.step st op
    obtain ⟨b', hb', hinv', hout'⟩ := ih hinv
    refine ⟨b', ?_, hinv', ?_⟩
    · show ((Buffer.step st b op).bind fun c => (machine st).run c ops) = some b'
      rw [hc]
      exact hb'
    · rw [hout', hout, List.flatMap_cons, List.append_assoc]

/-- **Chunking is transparent and keeps the contract of the storage**, whatever spans the
storage returns and wherever the lines end in them. -/
theorem buffer_chunking (mem : Memory) (ops : List Op) :
    ∃ b, (machine st).run (initial mem) ops = some b ∧
      submitted b.calls ++ b.pending = ops.flatMap Op.line ∧
      Legal b.calls ∧
      ∃ b', step st b .flush = some b' ∧ b'.pending = [] ∧
        submitted b'.calls = ops.flatMap Op.line ∧ Legal b'.calls := by
  obtain ⟨b, hb, hinv, hout⟩ := (Inv.initial mem).run st ops
  obtain ⟨hinv', hout', hpending⟩ := hinv.flush st
  refine ⟨b, hb, hout, hinv.legal, _, rfl, hpending, ?_, hinv'.legal⟩
  rw [State.output, hpending, List.append_nil] at hout'
  rw [hout', hout]
  rfl

/-! ## The pointers forgotten -/

/-- A call without its addresses. -/
def Call.forget : Call → StorageCall
  | .allocateBuffer _ => .allocateBuffer
  | .submitBuffer _ _ bytes => .submitBuffer bytes
  | .flush => .flush

/-- The buffer without its pointers. -/
def State.forget (b : State) : OutputBuffer :=
  ⟨b.pending, b.end_ - b.pos_, b.calls.map Call.forget⟩

section Forget
variable {st} {sizes : SpanSizes}

theorem Inv.pending_eq_nil (h : Inv b) : b.pending = [] ↔ b.pos_ = b.begin_ := by
  refine ⟨fun hnil => ?_, State.pending_of_eq⟩
  by_contra hne
  obtain ⟨s, hs⟩ := h.outstanding_of_ne hne
  obtain ⟨-, -, hlt, -⟩ := h.filling s hs
  have hlen := congrArg List.length hnil
  rw [State.pending, length_region, List.length_nil] at hlen
  omega

theorem forget_call (c : Call) : (b.call st c).calls.map Call.forget =
    b.calls.map Call.forget ++ [c.forget] := by
  simp only [State.call, List.map_append, List.map_cons, List.map_nil]

theorem Inv.forget_flush (h : Inv b) : (Buffer.flush st b).forget = b.forget.flush := by
  unfold Buffer.flush OutputBuffer.flush OutputBuffer.submit
  by_cases hpos : b.pos_ = b.begin_
  · have hnil : b.forget.pending = [] := h.pending_eq_nil.mpr hpos
    rw [if_neg (not_not.mpr hpos), if_pos hnil, State.forget, forget_call,
      State.pending_of_eq (b := b.call st .flush) hpos, ← hnil]
    rfl
  · have hne : b.forget.pending ≠ [] := mt h.pending_eq_nil.mp hpos
    rw [if_pos hpos, if_neg hne, if_neg hne, State.forget, forget_call]
    simp only [submitBuffer, forget_call]
    rfl

/-- The spans have the sizes `sizes`, one after the other. -/
def Storage.Sized (st : Storage) (sizes : SpanSizes) : Prop :=
  ∀ calls, (st.allocate calls).size =
    sizes.size ((calls.map Call.forget).count .allocateBuffer)

theorem Inv.forget_nextBuffer (h : Inv b) (hst : st.Sized sizes) :
    (Buffer.nextBuffer st b).forget = b.forget.nextBuffer sizes := by
  -- the storage before `allocate_buffer`
  have hsubmit : (if b.pos_ ≠ b.begin_ then submitBuffer st b else b).calls.map Call.forget =
      b.forget.submit.calls := by
    unfold OutputBuffer.submit
    by_cases hpos : b.pos_ = b.begin_
    · have hnil : b.forget.pending = [] := h.pending_eq_nil.mpr hpos
      rw [if_neg (not_not.mpr hpos), if_pos hnil]
      rfl
    · have hne : b.forget.pending ≠ [] := mt h.pending_eq_nil.mp hpos
      rw [if_pos hpos, if_neg hne, submitBuffer, forget_call]
      rfl
  simp only [Buffer.nextBuffer, State.forget, forget_call, OutputBuffer.nextBuffer,
    OutputBuffer.call, OutputBuffer.mk.injEq, Nat.add_sub_cancel_left, hst _]
  refine ⟨State.pending_of_eq rfl, ?_, ?_⟩
  · rw [hsubmit]
    rfl
  · rw [hsubmit]
    rfl

/-- **`append` on pointers is `append` of `OutputBuffer`.** -/
theorem Inv.forget_append (h : Inv b) (hst : st.Sized sizes) {fuel : Nat} {bytes : List UInt8}
    {b' : State} (happ : Buffer.append st fuel b bytes = some b') :
    b'.forget = b.forget.append sizes fuel bytes := by
  induction fuel generalizing b bytes with
  | zero =>
    unfold Buffer.append at happ
    split at happ
    · rw [← Option.some.inj happ]
      rfl
    · cases happ
  | succ fuel ih =>
    unfold Buffer.append at happ
    rw [OutputBuffer.append]
    by_cases hnil : bytes = []
    · rw [if_pos hnil] at happ ⊢
      rw [← Option.some.inj happ]
    · rw [if_neg hnil] at happ ⊢
      obtain ⟨c, s, hc, hroomy, hout⟩ := h.roomy st
      have hroom : (if b.forget.room = 0 then b.forget.nextBuffer sizes else b.forget) =
          c.forget := by
        rw [← hc]
        by_cases hfull : b.pos_ = b.end_
        · have h0 : b.forget.room = 0 := by
            show b.end_ - b.pos_ = 0
            omega
          rw [if_pos hfull, if_pos h0, h.forget_nextBuffer hst]
        · rw [if_neg hfull] at hc
          have h0 : b.forget.room ≠ 0 := by
            have := hroomy.pos_lt
            rw [← hc] at this
            show b.end_ - b.pos_ ≠ 0
            omega
          rw [if_neg hfull, if_neg h0]
      obtain ⟨hinv, hcopy, -⟩ := hroomy.round hnil
      simp only [hc] at happ
      simp only [hroom]
      rw [ih hinv happ]
      congr 1
      rw [State.forget, hcopy]
      show (⟨_, c.end_ - (c.pos_ + _), _⟩ : OutputBuffer) = ⟨_, c.end_ - c.pos_ - _, _⟩
      rw [Nat.sub_sub]
      rfl

/-- An operation on the buffer without its pointers. -/
def Op.apply (sizes : SpanSizes) (b : OutputBuffer) : Op → OutputBuffer
  | .appendLine line => b.appendLine sizes line
  | .flush => b.flush

theorem Inv.forget_step (h : Inv b) (hst : st.Sized sizes) {op : Op} {b' : State}
    (hs : Buffer.step st b op = some b') : b'.forget = op.apply sizes b.forget := by
  cases op with
  | appendLine line => exact h.forget_append hst hs
  | flush => rw [← Option.some.inj hs, h.forget_flush, Op.apply]

/-- **The pointers can be forgotten**: every run is a run of `OutputBuffer`. -/
theorem forget_run (hst : st.Sized sizes) {mem : Memory} {ops : List Op}
    (hr : (machine st).run (initial mem) ops = some b) :
    b.forget = ops.foldl (Op.apply sizes) .empty := by
  suffices h : ∀ c, Inv c → (machine st).run c ops = some b →
      b.forget = ops.foldl (Op.apply sizes) c.forget from h _ (.initial mem) hr
  clear hr
  induction ops with
  | nil =>
    intro c _ hr
    rw [← Option.some.inj hr]
    rfl
  | cons op ops ih =>
    intro c hc hr
    obtain ⟨d, hd, hr⟩ := Option.bind_eq_some_iff.mp hr
    obtain ⟨d', hd', hinv, -⟩ := hc.step st op
    obtain rfl : d' = d := Option.some.inj (hd'.symm.trans hd)
    rw [ih d' hinv hr, hc.forget_step hst hd, List.foldl_cons]

end Forget

end Xtr.Buffer
