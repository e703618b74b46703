import Mathlib.Data.List.Sublists
import Xtr.Buffer

/-!
# The buffer over a storage that fails

`detail::buffer` and `print` when `allocate_buffer`, `submit_buffer` and `flush` of the
storage may throw, and formatting too.  An exception leaves `append` in the middle of a line
and `next_buffer` between its two calls; `print` reports it and clears `line`, `flush`
reports it, and both leave the pointers as they are.

A step is one call of the storage returning, or one round of `append`, so that an exception
can come at every point.  The bytes from `begin_` to `pos_` are `pending`, and `room` is the
distance from `pos_` to `end_`.  Bytes are of any type: the buffer never looks at them, and
with bytes that carry their place in the log it can be said of each where it went.

`lines` and `trace` are not part of the program: the lines that were formatted, and the
accesses to the memory of the storage.

Where nothing throws this is `OutputBuffer` (`leads_of_ops`).
-/
namespace Xtr.FailingBuffer
open Buffer (CharSpan nullptr)

variable {α : Type}

/-! ## The state -/

/-- Where `print` or `flush` is; `first` is how much of the line `append` has copied. -/
inductive Pc
  | idle
  | append (first : Nat)
  | nextBufferSubmit (first : Nat)
  | nextBufferAllocate (first : Nat)
  | flushSubmit
  | flush
  deriving DecidableEq

/-- In `submit_buffer`. -/
def Pc.isSubmitting : Pc → Bool
  | .nextBufferSubmit _ | .flushSubmit => true
  | _ => false

/-- What happens to the memory of the storage: bytes are copied to an address, or a call
returns, with `false` for a `submit_buffer` that throws. -/
inductive Action (α : Type)
  | wrote (dst : Nat) (bytes : List α)
  | submitted (buf : Nat) (bytes : List α) (accepted : Bool)
  | allocated (span : CharSpan)
  deriving DecidableEq

structure State (α : Type) where
  begin_ : Nat
  pending : List α
  room : Nat
  line : List α
  pc : Pc
  lines : List (List α)
  trace : List (Action α)
  deriving DecidableEq

def State.pos_ (s : State α) : Nat := s.begin_ + s.pending.length

inductive Event (α : Type)
  /-- `print`, with the text of the statement; `none` if formatting throws. -/
  | print (text : Option (List α))
  | flush
  /-- One round of `append`. -/
  | round
  /-- A call of the storage returns, or throws. -/
  | submitReturns (accepted : Bool)
  | allocateReturns (span : Option CharSpan)
  | flushReturns (ok : Bool)
  deriving DecidableEq

/-! ## The operations -/

def State.access (s : State α) (a : Action α) : State α := { s with trace := s.trace ++ [a] }

/-- The handler of `print`, and the end of `append_line`. -/
def clearLine (s : State α) : State α := { s with line := [], pc := .idle }

/-- `print` up to `append`. -/
def print (s : State α) : Option (List α) → State α
  | none => clearLine s
  | some text =>
    { s with line := s.line ++ text, lines := s.lines ++ [s.line ++ text], pc := .append 0 }

/-- One round of `append`: `next_buffer` is called at the end of the span, and otherwise as
much is copied as there is room for. -/
def appendRound (s : State α) (first : Nat) : State α :=
  if first = s.line.length then clearLine s
  else if s.room = 0 then
    { s with pc := if s.pending ≠ [] then .nextBufferSubmit first else .nextBufferAllocate first }
  else
    let n := min (s.line.length - first) s.room
    let chunk := (s.line.drop first).take n
    { s.access (.wrote s.pos_ chunk) with
      pending := s.pending ++ chunk, room := s.room - n, pc := .append (first + n) }

/-- `submit_buffer` returns to `next_buffer`, which goes on to `allocate_buffer`; if it
throws, the exception ends in `print`. -/
def nextBufferSubmit (s : State α) (first : Nat) (accepted : Bool) : State α :=
  let s := s.access (.submitted s.begin_ s.pending accepted)
  if accepted then { s with pc := .nextBufferAllocate first } else clearLine s

/-- `allocate_buffer` returns to `next_buffer`, and only then are the pointers set. -/
def nextBufferAllocate (s : State α) (first : Nat) : Option CharSpan → State α
  | none => clearLine s
  | some span =>
    { s.access (.allocated span) with
      begin_ := span.data, pending := [], room := span.size, pc := .append first }

/-- `flush` up to its first call. -/
def flush (s : State α) : State α :=
  { s with pc := if s.pending ≠ [] then .flushSubmit else .flush }

/-- `submit_buffer` returns to `flush`, which sets the pointers to null; its handler does
not. -/
def flushSubmit (s : State α) (accepted : Bool) : State α :=
  let s := s.access (.submitted s.begin_ s.pending accepted)
  if accepted then { s with begin_ := nullptr, pending := [], room := 0, pc := .flush }
  else { s with pc := .idle }

def step (s : State α) (e : Event α) : Option (State α) :=
  match e, s.pc with
  | .print text, .idle => some (print s text)
  | .flush, .idle => some (flush s)
  | .round, .append first => some (appendRound s first)
  | .submitReturns accepted, .nextBufferSubmit first => some (nextBufferSubmit s first accepted)
  | .submitReturns accepted, .flushSubmit => some (flushSubmit s accepted)
  | .allocateReturns span, .nextBufferAllocate first => some (nextBufferAllocate s first span)
  | .flushReturns _, .flush => some { s with pc := .idle }
  | _, _ => none

/-- A buffer that was just constructed. -/
def initial : State α := ⟨nullptr, [], 0, [], .idle, [], []⟩

def machine : Machine (State α) (Event α) where
  init s := s = initial
  step := step

/-! ## What a step does -/

/-- What each event does where it can happen; `step` says no more (`fires_of_step`). -/
inductive Fires (s : State α) : Event α → State α → Prop
  | print {text : Option (List α)} : s.pc = .idle → Fires s (.print text) (print s text)
  | flush : s.pc = .idle → Fires s .flush (flush s)
  | done {first : Nat} : s.pc = .append first → first = s.line.length →
      Fires s .round (clearLine s)
  | full {first : Nat} : s.pc = .append first → s.room = 0 → s.pending ≠ [] →
      Fires s .round { s with pc := .nextBufferSubmit first }
  | empty {first : Nat} : s.pc = .append first → s.room = 0 → s.pending = [] →
      Fires s .round { s with pc := .nextBufferAllocate first }
  | copy {first n : Nat} : s.pc = .append first → first ≠ s.line.length →
      n = min (s.line.length - first) s.room →
      Fires s .round { s.access (.wrote s.pos_ ((s.line.drop first).take n)) with
        pending := s.pending ++ (s.line.drop first).take n
        room := s.room - n
        pc := .append (first + n) }
  | submitted {first : Nat} : s.pc = .nextBufferSubmit first →
      Fires s (.submitReturns true)
        { s.access (.submitted s.begin_ s.pending true) with pc := .nextBufferAllocate first }
  | submitThrows {first : Nat} : s.pc = .nextBufferSubmit first →
      Fires s (.submitReturns false)
        (clearLine (s.access (.submitted s.begin_ s.pending false)))
  | allocated {first : Nat} {span : CharSpan} : s.pc = .nextBufferAllocate first →
      Fires s (.allocateReturns (some span)) { s.access (.allocated span) with
        begin_ := span.data, pending := [], room := span.size, pc := .append first }
  | allocateThrows {first : Nat} : s.pc = .nextBufferAllocate first →
      Fires s (.allocateReturns none) (clearLine s)
  | flushSubmitted : s.pc = .flushSubmit →
      Fires s (.submitReturns true) { s.access (.submitted s.begin_ s.pending true) with
        begin_ := nullptr, pending := [], room := 0, pc := .flush }
  | flushSubmitThrows : s.pc = .flushSubmit →
      Fires s (.submitReturns false)
        { s.access (.submitted s.begin_ s.pending false) with pc := .idle }
  | flushed {ok : Bool} : s.pc = .flush → Fires s (.flushReturns ok) { s with pc := .idle }

theorem fires_of_step {s s' : State α} {e : Event α} (h : step s e = some s') : Fires s e s' := by
  unfold step at h
  split at h
  · rename_i hpc
    cases h
    exact .print hpc
  · rename_i hpc
    cases h
    exact .flush hpc
  · rename_i first hpc
    cases h
    unfold appendRound
    by_cases hdone : first = s.line.length
    · rw [if_pos hdone]
      exact .done hpc hdone
    rw [if_neg hdone]
    by_cases hroom : s.room = 0
    · rw [if_pos hroom]
      by_cases hp : s.pending = []
      · rw [if_neg (not_not.mpr hp)]
        exact .empty hpc hroom hp
      · rw [if_pos hp]
        exact .full hpc hroom hp
    · rw [if_neg hroom]
      exact .copy hpc hdone rfl
  · rename_i accepted first hpc
    cases h
    cases accepted with
    | true => exact .submitted hpc
    | false => exact .submitThrows hpc
  · rename_i accepted hpc
    cases h
    cases accepted with
    | true => exact .flushSubmitted hpc
    | false => exact .flushSubmitThrows hpc
  · rename_i span first hpc
    cases h
    cases span with
    | none => exact .allocateThrows hpc
    | some span => exact .allocated hpc
  · rename_i hpc
    cases h
    exact .flushed hpc
  · cases h

variable {s s' : State α} {e : Event α}

/-! ## Whole lines -/

/-- The bytes of an accepted region. -/
def Action.output : Action α → List α
  | .submitted _ bytes true => bytes
  | _ => []

/-- What the storage has accepted. -/
def accepted (trace : List (Action α)) : List α := trace.flatMap Action.output

/-- How much of the line has been copied, while there is one. -/
def Pc.first : Pc → Option Nat
  | .append first | .nextBufferSubmit first | .nextBufferAllocate first => some first
  | _ => none

/-- What is pending has just been accepted, or there is nothing. -/
def Pc.isAllocating : Pc → Bool
  | .nextBufferAllocate _ => true
  | _ => false

/-- What is accepted, and what is pending. -/
def State.output (s : State α) : List α :=
  accepted s.trace ++ if s.pc.isAllocating then [] else s.pending

/-- **The output is made of whole lines**, and of what has been copied of the one `print` is
at. -/
def Whole (s : State α) : Prop :=
  ∃ ls, (ls ++ (s.pc.first.map fun _ => s.line).toList).Sublist s.lines ∧
    s.output = ls.flatten ++ (s.pc.first.map s.line.take).getD []

/-- `allocate_buffer` does not throw. -/
def Allocates (_ : State α) (e : Event α) : Prop := e ≠ .allocateReturns none

/-- `submit_buffer` throws before anything has been copied of a line, or between two lines. -/
def ThrowsBetweenLines (s : State α) (e : Event α) : Prop :=
  e = .submitReturns false → s.pc.first.getD 0 = 0

instance [DecidableEq α] (s : State α) (e : Event α) : Decidable (Allocates s e) :=
  inferInstanceAs (Decidable (e ≠ .allocateReturns none))

instance [DecidableEq α] (s : State α) (e : Event α) : Decidable (ThrowsBetweenLines s e) :=
  inferInstanceAs (Decidable (e = .submitReturns false → s.pc.first.getD 0 = 0))

theorem accepted_concat (trace : List (Action α)) (a : Action α) :
    accepted (trace ++ [a]) = accepted trace ++ a.output := by
  rw [accepted, List.flatMap_append, List.flatMap_singleton]
  rfl

theorem accepted_concat_of_nil (trace : List (Action α)) {a : Action α} (h : a.output = []) :
    accepted (trace ++ [a]) = accepted trace := by
  rw [accepted_concat, h, List.append_nil]

/-- A step that changes neither the line nor what is accepted and pending. -/
theorem Whole.congr (h : Whole s) (hlines : s'.lines = s.lines) (hline : s'.line = s.line)
    (hfirst : s'.pc.first = s.pc.first) (hout : s'.output = s.output) : Whole s' := by
  obtain ⟨ls, hsub, heq⟩ := h
  refine ⟨ls, ?_, ?_⟩
  · rw [hlines, hline, hfirst]
    exact hsub
  · rw [hout, hline, hfirst]
    exact heq

/-- The line is given up before anything of it has been copied. -/
theorem Whole.giveUp (h : Whole s) (hlines : s'.lines = s.lines) (hpc : s'.pc.first = none)
    (hfirst : ∀ first ∈ s.pc.first, first = 0) (hout : s'.output = s.output) : Whole s' := by
  obtain ⟨ls, hsub, heq⟩ := h
  refine ⟨ls, ?_, ?_⟩
  · rw [hpc, hlines, Option.map_none, Option.toList_none, List.append_nil]
    exact (List.sublist_append_left _ _).trans hsub
  · rw [hpc, hout, heq]
    cases hf : s.pc.first with
    | none => rfl
    | some first => rw [hfirst first hf, Option.map_some, Option.getD_some, List.take_zero]; rfl

/-- **Every step keeps the lines whole.** -/
theorem Fires.whole (hf : Fires s e s') (ha : Allocates s e) (ht : ThrowsBetweenLines s e)
    (h : Whole s) : Whole s' := by
  cases hf with
  | @print text hpc =>
    cases text with
    | none =>
      exact h.giveUp rfl rfl (by simp [hpc, Pc.first]) (by simp only [State.output, hpc]; rfl)
    | some text =>
      obtain ⟨ls, hsub, heq⟩ := h
      have hsub' : ls.Sublist s.lines := by simpa [hpc, Pc.first] using hsub
      have heq' : accepted s.trace ++ s.pending = ls.flatten ++ [] := by
        simpa [State.output, hpc, Pc.first, Pc.isAllocating] using heq
      exact ⟨ls, hsub'.append_right _, heq'⟩
  | flush hpc =>
    unfold FailingBuffer.flush
    split <;> exact h.congr rfl rfl (by rw [hpc]; rfl) (by simp only [State.output, hpc]; rfl)
  | @done first hpc hdone =>
    obtain ⟨ls, hsub, heq⟩ := h
    rw [State.output, hpc] at heq
    rw [hpc] at hsub
    refine ⟨ls ++ [s.line], by simpa [clearLine, Pc.first] using hsub, ?_⟩
    rw [List.flatten_append, List.flatten_singleton]
    refine heq.trans ?_
    simp [clearLine, Pc.first, hdone]
  | full hpc =>
    exact h.congr rfl rfl (by rw [hpc]; rfl) (by simp only [State.output, hpc]; rfl)
  | empty hpc _ hp =>
    exact h.congr rfl rfl (by rw [hpc]; rfl) (by simp only [State.output, hpc, hp]; rfl)
  | @copy first n hpc _ hn =>
    obtain ⟨ls, hsub, heq⟩ := h
    rw [State.output, hpc] at heq
    rw [hpc] at hsub
    refine ⟨ls, hsub, ?_⟩
    show accepted (s.trace ++ [_]) ++ (s.pending ++ (s.line.drop first).take n) =
      ls.flatten ++ s.line.take (first + n)
    have heq' : accepted s.trace ++ s.pending = ls.flatten ++ s.line.take first := heq
    rw [accepted_concat_of_nil _ rfl, ← List.append_assoc, heq', List.append_assoc, ← List.take_add]
  | submitted hpc =>
    refine h.congr rfl rfl (by rw [hpc]; rfl) ?_
    show accepted (s.trace ++ [_]) ++ [] = s.output
    rw [accepted_concat, State.output, hpc, List.append_nil]
    rfl
  | @submitThrows first hpc =>
    have hzero : first = 0 := by
      have := ht rfl
      rwa [hpc] at this
    refine h.giveUp rfl rfl (by simp [hpc, Pc.first, hzero]) ?_
    show accepted (s.trace ++ [_]) ++ s.pending = s.output
    rw [accepted_concat_of_nil _ rfl, State.output, hpc]
    rfl
  | allocated hpc =>
    refine h.congr rfl rfl (by rw [hpc]; rfl) ?_
    show accepted (s.trace ++ [_]) ++ [] = s.output
    rw [accepted_concat_of_nil _ rfl, State.output, hpc]
    rfl
  | allocateThrows hpc => exact absurd rfl ha
  | flushSubmitted hpc =>
    refine h.congr rfl rfl (by rw [hpc]; rfl) ?_
    show accepted (s.trace ++ [_]) ++ [] = s.output
    rw [accepted_concat, State.output, hpc, List.append_nil]
    rfl
  | flushSubmitThrows hpc =>
    refine h.congr rfl rfl (by rw [hpc]; rfl) ?_
    show accepted (s.trace ++ [_]) ++ s.pending = s.output
    rw [accepted_concat_of_nil _ rfl, State.output, hpc]
    rfl
  | flushed hpc =>
    exact h.congr rfl rfl (by rw [hpc]; rfl) (by simp only [State.output, hpc]; rfl)

/-- **A failing storage tears no line**, in every run in which `submit_buffer` throws only
between lines: whenever `print` and `flush` have returned, what is accepted and what is
pending are some of the lines, whole and in order. -/
theorem lines_stay_whole
    (h : (machine (α := α)).ReachableBy (fun s e => Allocates s e ∧ ThrowsBetweenLines s e) s)
    (hidle : s.pc = .idle) :
    ∃ ls : List (List α), ls.Sublist s.lines ∧ accepted s.trace ++ s.pending = ls.flatten := by
  have hwhole : Whole s := by
    refine h.invariant ?_ ?_
    · rintro _ rfl
      exact ⟨[], List.nil_sublist _, rfl⟩
    · rintro s e s' hi ⟨ha, ht⟩ hs
      exact (fires_of_step hs).whole ha ht hi
  obtain ⟨ls, hsub, heq⟩ := hwhole
  refine ⟨ls, ?_, ?_⟩
  · simpa [hidle, Pc.first] using hsub
  · simpa [hidle, Pc.first, State.output, Pc.isAllocating] using heq

/-- A line that fills the span, and one that finds the storage failing. -/
theorem lines_stay_whole_full : ∃ s, (machine (α := Nat)).ReachableBy
      (fun s e => Allocates s e ∧ ThrowsBetweenLines s e) s ∧
    s.lines = [[1, 2, 3, 4], [5]] ∧
    ∃ ls : List (List Nat), ls.Sublist s.lines ∧ [1, 2, 3, 4] = ls.flatten := by
  have hrun : (machine.runBy (fun s e => Allocates s e ∧ ThrowsBetweenLines s e) initial
      [.print (some [1, 2, 3, 4]), .round, .allocateReturns (some ⟨100, 4⟩), .round, .round,
        .print (some [5]), .round, .submitReturns false, .flush, .submitReturns true,
        .flushReturns true]).map (fun s => (s.pc, s.lines, accepted s.trace ++ s.pending)) =
      some (.idle, [[1, 2, 3, 4], [5]], [1, 2, 3, 4]) := by
    decide +kernel
  obtain ⟨s, hreach, heq⟩ := Machine.exists_reachableBy hrun rfl
  simp only [Prod.mk.injEq] at heq
  obtain ⟨hpc, hlines, hout⟩ := heq
  exact ⟨s, hreach, hlines, hout ▸ lines_stay_whole hreach hpc⟩

/-- A line of six bytes finds a span of four, and then the storage failing: its first four
bytes stay behind, to be submitted with the next line. -/
theorem submit_failure_tears_line : ∃ s, (machine (α := Nat)).ReachableBy Allocates s ∧
    s.pc = .idle ∧ s.lines = [[1, 2, 3, 4, 5, 6], [7]] ∧ accepted s.trace = [1, 2, 3, 4] ∧
    s.pending = [7] ∧
    ¬ ∃ ls : List (List Nat), ls.Sublist s.lines ∧ accepted s.trace ++ s.pending = ls.flatten := by
  have hrun : (machine.runBy Allocates (initial (α := Nat))
      [.print (some [1, 2, 3, 4, 5, 6]), .round, .allocateReturns (some ⟨100, 4⟩), .round, .round,
        .submitReturns false, .print (some [7]), .round, .submitReturns true,
        .allocateReturns (some ⟨200, 4⟩), .round, .round]).map
      (fun s => (s.pc, s.lines, accepted s.trace, s.pending)) =
      some (.idle, [[1, 2, 3, 4, 5, 6], [7]], [1, 2, 3, 4], [7]) := by
    decide +kernel
  obtain ⟨s, hreach, heq⟩ := Machine.exists_reachableBy hrun rfl
  simp only [Prod.mk.injEq] at heq
  obtain ⟨hpc, hlines, hacc, hpending⟩ := heq
  refine ⟨s, hreach, hpc, hlines, hacc, hpending, ?_⟩
  rintro ⟨ls, hsub, hout⟩
  rw [hlines, ← List.mem_sublists] at hsub
  rw [hacc, hpending] at hout
  have hno : ∀ ls ∈ List.sublists [[1, 2, 3, 4, 5, 6], [7]], [1, 2, 3, 4] ++ [7] ≠ ls.flatten := by
    decide +kernel
  exact hno ls hsub hout

/-! ## Accepted regions -/

/-- The bytes of the memory that an access is to. -/
def Action.Touches (x : Nat) : Action α → Prop
  | .wrote dst bytes => dst ≤ x ∧ x < dst + bytes.length
  | .submitted buf bytes _ => buf ≤ x ∧ x < buf + bytes.length
  | .allocated _ => False

/-- Whose the byte at `x` is after an access, if it was the storage's before or not. -/
def Action.lend (x : Nat) (lent : Bool) : Action α → Bool
  | .submitted buf bytes true => lent || decide (buf ≤ x ∧ x < buf + bytes.length)
  | .allocated span => lent && !decide (span.data ≤ x ∧ x < span.data + span.size)
  | _ => lent

/-- The byte at `x` is in a region that was accepted, and no span with it has been allocated
since. -/
def lent (x : Nat) (trace : List (Action α)) : Bool := trace.foldl (Action.lend x) false

/-- **The storage protocol**: what was accepted is neither written to nor submitted before it
is allocated again. -/
def Respects (trace : List (Action α)) : Prop :=
  ∀ before a after, trace = before ++ a :: after → ∀ x, a.Touches x → lent x before = false

/-- `allocate_buffer` does not throw when `next_buffer` has just submitted the last span. -/
def ThrowsBeforeSubmit (s : State α) (e : Event α) : Prop :=
  e = .allocateReturns none → s.pending = []

instance [DecidableEq α] (s : State α) (e : Event α) : Decidable (ThrowsBeforeSubmit s e) :=
  inferInstanceAs (Decidable (e = .allocateReturns none → s.pending = []))

/-- `next_buffer` has been called. -/
def Pc.inNextBuffer : Pc → Bool
  | .nextBufferSubmit _ | .nextBufferAllocate _ => true
  | _ => false

/-- The pointers are to bytes that are the buffer's, unless they are about to be replaced. -/
structure Owned (s : State α) : Prop where
  respects : Respects s.trace
  full : s.pc.inNextBuffer = true → s.room = 0
  owned : s.pc.isAllocating = false →
    ∀ x, s.begin_ ≤ x → x < s.pos_ + s.room → lent x s.trace = false

theorem lent_concat (x : Nat) (trace : List (Action α)) (a : Action α) :
    lent x (trace ++ [a]) = a.lend x (lent x trace) := by
  rw [lent, List.foldl_append]
  rfl

theorem Respects.nil : Respects ([] : List (Action α)) := by
  intro before a after h
  cases before <;> cases h

theorem Respects.concat {trace : List (Action α)} {a : Action α} (h : Respects trace)
    (ha : ∀ x, a.Touches x → lent x trace = false) : Respects (trace ++ [a]) := by
  intro before b after heq
  rcases Buffer.concat_eq_append_cons heq with ⟨rfl, rfl⟩ | ⟨rest, rfl⟩
  · exact ha
  · exact h before b rest rfl

/-- A step that makes no access and keeps the pointers. -/
theorem Owned.congr (h : Owned s) (htrace : s'.trace = s.trace) (hbegin : s'.begin_ = s.begin_)
    (hpos : s'.pos_ = s.pos_) (hroom : s'.room = s.room)
    (hfull : s'.pc.inNextBuffer = true → s'.room = 0)
    (hpc : s'.pc.isAllocating = false → s.pc.isAllocating = false) : Owned s' := by
  refine ⟨htrace ▸ h.respects, hfull, fun hp => ?_⟩
  rw [htrace, hbegin, hpos, hroom]
  exact h.owned (hpc hp)

/-- What is pending may be submitted. -/
theorem Owned.submit (h : Owned s) (hpc : s.pc.isAllocating = false) (accepted : Bool) :
    Respects (s.trace ++ [.submitted s.begin_ s.pending accepted]) := by
  refine h.respects.concat fun x hx => ?_
  exact h.owned hpc x hx.1 (Nat.lt_add_right _ hx.2)

/-- **Every step keeps to the protocol.** -/
theorem Fires.owned (hf : Fires s e s') (ht : ThrowsBeforeSubmit s e) (h : Owned s) : Owned s' := by
  cases hf with
  | @print text hpc =>
    cases text with
    | none => exact h.congr rfl rfl rfl rfl nofun fun _ => by rw [hpc]; rfl
    | some text => exact h.congr rfl rfl rfl rfl nofun fun _ => by rw [hpc]; rfl
  | flush hpc =>
    unfold FailingBuffer.flush
    split <;> exact h.congr rfl rfl rfl rfl nofun fun _ => by rw [hpc]; rfl
  | done hpc => exact h.congr rfl rfl rfl rfl nofun fun _ => by rw [hpc]; rfl
  | full hpc hroom =>
    exact h.congr rfl rfl rfl rfl (fun _ => hroom) fun _ => by rw [hpc]; rfl
  | empty hpc hroom => exact h.congr rfl rfl rfl rfl (fun _ => hroom) nofun
  | @copy first n hpc _ hn =>
    have hlen : ((s.line.drop first).take n).length = n := by
      rw [List.length_take, List.length_drop]
      omega
    have howned := h.owned (by rw [hpc]; rfl)
    have hbegin : s.begin_ ≤ s.pos_ := Nat.le_add_right _ _
    refine ⟨h.respects.concat fun x hx => ?_, nofun, fun _ x hx hx' => ?_⟩
    · obtain ⟨hle, hlt⟩ := hx
      exact howned x (by omega) (by omega)
    · rw [show ({ s.access (.wrote s.pos_ _) with
        pending := _, room := _, pc := _ } : State α).trace = s.trace ++ [_] from rfl, lent_concat]
      refine howned x hx ?_
      simp only [State.pos_, State.access, List.length_append, hlen] at hx' ⊢
      omega
  | submitted hpc =>
    have hroom : s.room = 0 := h.full (by rw [hpc]; rfl)
    exact ⟨h.submit (by rw [hpc]; rfl) true, fun _ => hroom, nofun⟩
  | submitThrows hpc =>
    refine ⟨h.submit (by rw [hpc]; rfl) false, nofun, fun _ x hx hx' => ?_⟩
    exact (lent_concat x s.trace _).trans (h.owned (by rw [hpc]; rfl) x hx hx')
  | @allocated first span hpc =>
    refine ⟨h.respects.concat nofun, nofun, fun _ x hx hx' => ?_⟩
    refine (lent_concat x s.trace _).trans ?_
    have hin : span.data ≤ x ∧ x < span.data + span.size := ⟨hx, hx'⟩
    rw [Action.lend, decide_eq_true hin, Bool.not_true, Bool.and_false]
  | allocateThrows hpc =>
    have hroom : s.room = 0 := h.full (by rw [hpc]; rfl)
    refine ⟨h.respects, nofun, fun _ x hx hx' => ?_⟩
    simp only [clearLine, State.pos_, ht rfl, hroom, List.length_nil] at hx hx'
    omega
  | flushSubmitted hpc =>
    refine ⟨h.submit (by rw [hpc]; rfl) true, nofun, fun _ x hx hx' => ?_⟩
    simp only [State.pos_, List.length_nil] at hx hx'
    omega
  | flushSubmitThrows hpc =>
    refine ⟨h.submit (by rw [hpc]; rfl) false, nofun, fun _ x hx hx' => ?_⟩
    exact (lent_concat x s.trace _).trans (h.owned (by rw [hpc]; rfl) x hx hx')
  | flushed hpc => exact h.congr rfl rfl rfl rfl nofun fun _ => by rw [hpc]; rfl

theorem Owned.of_reachableBy (h : (machine (α := α)).ReachableBy ThrowsBeforeSubmit s) :
    Owned s := by
  refine h.invariant ?_ ?_
  · rintro _ rfl
    exact ⟨.nil, nofun, fun _ _ _ _ => rfl⟩
  · intro s e s' hi ht hs
    exact (fires_of_step hs).owned ht hi

/-- **The buffer respects the storage protocol** in every run in which `allocate_buffer` throws
only when there was nothing to submit before it. -/
theorem accepted_regions_respected (h : (machine (α := α)).ReachableBy ThrowsBeforeSubmit s) :
    Respects s.trace :=
  (Owned.of_reachableBy h).respects

/-- A span is filled and submitted, and the same one allocated and filled again. -/
theorem accepted_regions_respected_reuse :
    ∃ s, (machine (α := Nat)).ReachableBy ThrowsBeforeSubmit s ∧
      s.trace = [.allocated ⟨100, 2⟩, .wrote 100 [1, 2], .submitted 100 [1, 2] true,
        .allocated ⟨100, 2⟩, .wrote 100 [3]] ∧ Respects s.trace := by
  have hrun : (machine.runBy ThrowsBeforeSubmit (initial (α := Nat))
      [.print (some [0]), .round, .allocateReturns none, .print (some [1, 2, 3]), .round,
        .allocateReturns (some ⟨100, 2⟩), .round, .round, .submitReturns true,
        .allocateReturns (some ⟨100, 2⟩), .round, .round]).map (fun s => s.trace) =
      some [.allocated ⟨100, 2⟩, .wrote 100 [1, 2], .submitted 100 [1, 2] true,
        .allocated ⟨100, 2⟩, .wrote 100 [3]] := by
    decide +kernel
  obtain ⟨s, hreach, htrace⟩ := Machine.exists_reachableBy hrun rfl
  exact ⟨s, hreach, htrace, accepted_regions_respected hreach⟩

/-- `allocate_buffer` throws after the span was accepted; `flush` submits it again. -/
theorem allocate_failure_resubmits : ∃ s, (machine (α := Nat)).Reachable s ∧
    s.trace = [.allocated ⟨100, 2⟩, .wrote 100 [1, 2], .submitted 100 [1, 2] true,
      .submitted 100 [1, 2] true] ∧ ¬ Respects s.trace := by
  have hrun : (machine.run (initial (α := Nat))
      [.print (some [1, 2, 3]), .round, .allocateReturns (some ⟨100, 2⟩), .round, .round,
        .submitReturns true, .allocateReturns none, .flush, .submitReturns true,
        .flushReturns true]).map (fun s => s.trace) =
      some [.allocated ⟨100, 2⟩, .wrote 100 [1, 2], .submitted 100 [1, 2] true,
        .submitted 100 [1, 2] true] := by
    decide +kernel
  obtain ⟨s, hreach, htrace⟩ := Machine.exists_reachable hrun rfl
  refine ⟨s, hreach, htrace, fun h => ?_⟩
  have hlent := h [.allocated ⟨100, 2⟩, .wrote 100 [1, 2], .submitted 100 [1, 2] true]
    (.submitted 100 [1, 2] true) [] htrace 100 ⟨by decide, by decide⟩
  exact absurd hlent (by decide)

/-! ## Without exceptions -/

section Succeeds

/-- Nothing is thrown. -/
def Event.succeeds : Event α → Bool
  | .print none | .submitReturns false | .allocateReturns none | .flushReturns false => false
  | _ => true

/-- Steps that do not throw lead from `s` to `t`. -/
def Leads (s t : State α) : Prop :=
  ∃ es : List (Event α), (∀ e ∈ es, e.succeeds = true) ∧ machine.run s es = some t

/-- The pointers and what is accepted, as in `OutputBuffer`. -/
structure Agrees (s : State UInt8) (b : OutputBuffer) : Prop where
  pending : s.pending = b.pending
  room : s.room = b.room
  output : accepted s.trace = b.calls.flatMap StorageCall.bytes

theorem Leads.refl (s : State α) : Leads s s := ⟨[], nofun, rfl⟩

theorem Leads.tail {s t u : State α} {e : Event α} (h : Leads s t) (he : e.succeeds = true)
    (hs : step t e = some u) : Leads s u := by
  obtain ⟨es, hes, hrun⟩ := h
  refine ⟨es ++ [e], ?_, ?_⟩
  · intro e' hmem
    rcases List.mem_append.mp hmem with hmem | hmem
    · exact hes e' hmem
    · exact List.mem_singleton.mp hmem ▸ he
  · rw [Machine.run_append, hrun]
    show (step t e).bind _ = _
    rw [hs]
    rfl

theorem Leads.trans {s t u : State α} (h : Leads s t) (h' : Leads t u) : Leads s u := by
  obtain ⟨es, hes, hrun⟩ := h
  obtain ⟨fs, hfs, hrun'⟩ := h'
  refine ⟨es ++ fs, ?_, ?_⟩
  · intro e hmem
    rcases List.mem_append.mp hmem with hmem | hmem
    · exact hes e hmem
    · exact hfs e hmem
  · rw [Machine.run_append, hrun]
    exact hrun'

variable {s : State UInt8} {b : OutputBuffer} {first : Nat}

theorem step_round {s : State α} (hpc : s.pc = .append first) :
    step s .round = some (appendRound s first) := by
  simp only [step, hpc]

/-- The calls of `next_buffer` return. -/
theorem Agrees.nextBuffer (h : Agrees s b) (sizes : SpanSizes) (hpc : s.pc = .append first)
    (hne : first ≠ s.line.length) (hroom : s.room = 0) :
    ∃ t, Leads s t ∧ t.pc = .append first ∧ t.line = s.line ∧ Agrees t (b.nextBuffer sizes) := by
  obtain ⟨u, hlead, hupc, hline, hacc⟩ : ∃ u, Leads s u ∧ u.pc = .nextBufferAllocate first ∧
      u.line = s.line ∧ accepted u.trace = b.submit.calls.flatMap StorageCall.bytes := by
    have hround := step_round hpc
    rw [appendRound, if_neg hne, if_pos hroom] at hround
    by_cases hp : s.pending = []
    · rw [if_neg (not_not.mpr hp)] at hround
      refine ⟨_, (Leads.refl s).tail rfl hround, rfl, rfl, ?_⟩
      rw [OutputBuffer.submit, if_pos (h.pending ▸ hp)]
      exact h.output
    · rw [if_pos hp] at hround
      refine ⟨_, ((Leads.refl s).tail rfl hround).tail (e := .submitReturns true) rfl rfl, rfl,
        rfl, ?_⟩
      show accepted (s.trace ++ [_]) = _
      rw [OutputBuffer.submit, if_neg (h.pending ▸ hp), OutputBuffer.call, List.flatMap_append,
        List.flatMap_singleton, ← h.output, ← h.pending, accepted_concat]
      rfl
  have hstep : step u (.allocateReturns (some ⟨0, (b.nextBuffer sizes).room⟩)) =
      some (nextBufferAllocate u first (some ⟨0, (b.nextBuffer sizes).room⟩)) := by
    simp only [step, hupc]
  refine ⟨_, hlead.tail rfl hstep, rfl, hline, rfl, rfl, ?_⟩
  show accepted (u.trace ++ [_]) = (b.submit.calls ++ [StorageCall.allocateBuffer]).flatMap _
  rw [accepted_concat_of_nil _ rfl, hacc, List.flatMap_append, List.flatMap_singleton]
  exact (List.append_nil _).symm

/-- A round of `append` that copies. -/
theorem Agrees.copy (h : Agrees s b) (hpc : s.pc = .append first) (hne : first ≠ s.line.length)
    (hroom : s.room ≠ 0) :
    ∃ t, Leads s t ∧ t.pc = .append (first + min (s.line.drop first).length b.room) ∧
      t.line = s.line ∧ Agrees t { b with
        pending := b.pending ++ (s.line.drop first).take (min (s.line.drop first).length b.room)
        room := b.room - min (s.line.drop first).length b.room } := by
  have hround := step_round hpc
  rw [appendRound, if_neg hne, if_neg hroom] at hround
  refine ⟨_, (Leads.refl s).tail rfl hround, ?_, rfl, ?_, ?_, ?_⟩
  · rw [List.length_drop, ← h.room]
  · rw [List.length_drop, ← h.room, ← h.pending]
  · rw [List.length_drop, ← h.room]
  · exact (accepted_concat_of_nil _ rfl).trans h.output

/-- The last round of `append`, and `line.clear()`. -/
theorem Agrees.done (h : Agrees s b) (hpc : s.pc = .append first) (heq : first = s.line.length) :
    ∃ t, Leads s t ∧ t.pc = .idle ∧ t.line = [] ∧ Agrees t b := by
  have hround := step_round hpc
  rw [appendRound, if_pos heq] at hround
  exact ⟨_, (Leads.refl s).tail rfl hround, rfl, rfl, h.pending, h.room, h.output⟩

/-- **Without exceptions `append` is that of `OutputBuffer`.** -/
theorem Agrees.append (h : Agrees s b) (sizes : SpanSizes) (fuel : Nat)
    (hpc : s.pc = .append first) (hle : first ≤ s.line.length)
    (hfuel : (s.line.drop first).length ≤ fuel) :
    ∃ t, Leads s t ∧ t.pc = .idle ∧ t.line = [] ∧
      Agrees t (b.append sizes fuel (s.line.drop first)) := by
  induction fuel generalizing s b first with
  | zero =>
    rw [List.length_drop] at hfuel
    exact h.done hpc (by omega)
  | succ fuel ih =>
    rw [OutputBuffer.append]
    by_cases heq : first = s.line.length
    · rw [if_pos (List.drop_eq_nil_of_le (Nat.le_of_eq heq.symm))]
      exact h.done hpc heq
    · rw [if_neg (by rw [List.drop_eq_nil_iff]; omega)]
      -- there is room, at the latest after `next_buffer`
      obtain ⟨u, hlead, hupc, hline, hu, hroom⟩ : ∃ u, Leads s u ∧ u.pc = .append first ∧
          u.line = s.line ∧ Agrees u (if b.room = 0 then b.nextBuffer sizes else b) ∧
            u.room ≠ 0 := by
        by_cases hroom : b.room = 0
        · obtain ⟨u, hlead, hupc, hline, hu⟩ := h.nextBuffer sizes hpc heq (h.room.trans hroom)
          rw [if_pos hroom]
          refine ⟨u, hlead, hupc, hline, hu, ?_⟩
          rw [hu.room]
          exact Nat.pos_iff_ne_zero.mp (b.room_nextBuffer_pos sizes)
        · rw [if_neg hroom]
          exact ⟨s, .refl s, hpc, rfl, h, h.room ▸ hroom⟩
      generalize (if b.room = 0 then b.nextBuffer sizes else b) = c at hu ⊢
      obtain ⟨t, hlead', htpc, htline, ht⟩ := hu.copy hupc (hline ▸ heq) hroom
      rw [hline] at htpc htline ht
      have hlen : (s.line.drop first).length = s.line.length - first := List.length_drop
      have hcroom := hu.room
      obtain ⟨v, hlead'', hvpc, hvline, hv⟩ := ih ht htpc (by rw [htline]; omega)
        (by rw [htline, List.length_drop]; omega)
      refine ⟨v, (hlead.trans hlead').trans hlead'', hvpc, hvline, ?_⟩
      rw [htline, ← List.drop_drop] at hv
      exact hv

/-- **Without exceptions `print` appends the line** as `OutputBuffer` does. -/
theorem Agrees.print (h : Agrees s b) (sizes : SpanSizes) (hpc : s.pc = .idle)
    (hline : s.line = []) (text : List UInt8) :
    ∃ t, Leads s t ∧ t.pc = .idle ∧ t.line = [] ∧ Agrees t (b.appendLine sizes text) := by
  have hstep : step s (.print (some text)) = some (FailingBuffer.print s (some text)) := by
    simp only [step, hpc]
  have hline' : (FailingBuffer.print s (some text)).line = text := by
    show s.line ++ text = text
    rw [hline, List.nil_append]
  have hprint : Agrees (FailingBuffer.print s (some text)) b := ⟨h.pending, h.room, h.output⟩
  obtain ⟨t, hlead, htpc, htline, ht⟩ := hprint.append sizes text.length rfl
    (Nat.zero_le _) (by rw [List.drop_zero, hline'])
  refine ⟨t, ((Leads.refl s).tail rfl hstep).trans hlead, htpc, htline, ?_⟩
  rw [List.drop_zero, hline'] at ht
  exact ht

/-- **Without exceptions `flush` is that of `OutputBuffer`.** -/
theorem Agrees.flush (h : Agrees s b) (hpc : s.pc = .idle) :
    ∃ t, Leads s t ∧ t.pc = .idle ∧ t.line = s.line ∧ Agrees t b.flush := by
  have hstep : step s .flush = some (FailingBuffer.flush s) := by
    simp only [step, hpc]
  rw [FailingBuffer.flush] at hstep
  by_cases hp : s.pending = []
  · rw [if_neg (not_not.mpr hp)] at hstep
    refine ⟨_, ((Leads.refl s).tail rfl hstep).tail (e := .flushReturns true) rfl rfl, rfl, rfl, ?_⟩
    rw [OutputBuffer.flush, if_pos (h.pending ▸ hp)]
    refine ⟨h.pending, h.room, h.output.trans ?_⟩
    rw [OutputBuffer.call, List.flatMap_append, List.flatMap_singleton]
    exact (List.append_nil _).symm
  · rw [if_pos hp] at hstep
    refine ⟨_, (((Leads.refl s).tail rfl hstep).tail (e := .submitReturns true) rfl rfl).tail
      (e := .flushReturns true) rfl rfl, rfl, rfl, ?_⟩
    rw [OutputBuffer.flush, if_neg (h.pending ▸ hp)]
    refine ⟨rfl, rfl, ?_⟩
    show accepted (s.trace ++ [_]) =
      ((OutputBuffer.submit b).calls ++ [StorageCall.flush]).flatMap _
    rw [OutputBuffer.submit, if_neg (h.pending ▸ hp), OutputBuffer.call, accepted_concat, h.output,
      h.pending]
    simp only [List.flatMap_append, List.flatMap_singleton, StorageCall.bytes, Action.output,
      List.append_nil]

/-- **Without exceptions the buffer is `OutputBuffer`**: whatever operations are made on that,
a run of this one comes to the same. -/
theorem leads_of_ops (sizes : SpanSizes) (ops : List Buffer.Op) :
    ∃ t : State UInt8, Leads initial t ∧ t.pc = .idle ∧
      Agrees t (ops.foldl (Buffer.Op.apply sizes) .empty) := by
  suffices h : ∀ (s : State UInt8) b, s.pc = .idle → s.line = [] → Agrees s b →
      ∃ t, Leads s t ∧ t.pc = .idle ∧ Agrees t (ops.foldl (Buffer.Op.apply sizes) b) from
    h initial .empty rfl rfl ⟨rfl, rfl, rfl⟩
  induction ops with
  | nil =>
    intro s b hpc _ h
    exact ⟨s, .refl s, hpc, h⟩
  | cons op ops ih =>
    intro s b hpc hline h
    obtain ⟨u, hlead, hupc, huline, hu⟩ : ∃ u, Leads s u ∧ u.pc = .idle ∧ u.line = [] ∧
        Agrees u (op.apply sizes b) := by
      cases op with
      | appendLine line => exact h.print sizes hpc hline line
      | flush =>
        obtain ⟨u, hlead, hupc, huline, hu⟩ := h.flush hpc
        exact ⟨u, hlead, hupc, huline.trans hline, hu⟩
    obtain ⟨t, hlead', htpc, ht⟩ := ih u _ hupc huline hu
    exact ⟨t, hlead.trans hlead', htpc, ht⟩

end Succeeds

end Xtr.FailingBuffer
