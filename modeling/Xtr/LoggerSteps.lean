import Xtr.Logger

/-!
# What one event does

`Fires` says for each event what it does to the sinks, the handles and the records not
yet executed, with the rings out of sight: a commit puts one record at the end of
`unread`, and the consumer executes the first.  That it is so for the rings of cells is
`fires_of_step`, which needs the rings to hold the records (`Rings`), the consumer's index
to be good (`Indexed`) and the handles to lead to live sinks (`Live`).
-/
namespace Xtr.Logger
variable {V : Type} {cfg : Config V} {s s' : State V} {i : Nat}

theorem setSink_self (s : State V) (i : Nat) (k : Sink V) : (s.setSink i k).sinks i = k :=
  Function.update_self ..

theorem setSink_of_ne (s : State V) {i j : Nat} (k : Sink V) (hj : j ≠ i) :
    (s.setSink i k).sinks j = s.sinks j :=
  Function.update_of_ne hj ..

theorem setSink_setSink (s : State V) (i : Nat) (k k' : Sink V) :
    (s.setSink i k).setSink i k' = s.setSink i k' := by
  simp [State.setSink]

section Update
variable {sinks : Nat → Sink V} {j : Nat} {k : Sink V}

/-- What holds of a sink is kept when one sink is changed, if that change keeps it. -/
theorem update_keeps (P : Sink V → Prop) (hi : P (sinks i)) (hk : P (sinks j) → P k) :
    P (Function.update sinks j k i) := by
  by_cases hij : i = j
  · subst hij
    rw [Function.update_self]
    exact hk hi
  · rw [Function.update_of_ne hij]
    exact hi

/-- What holds of a sink after one sink was changed held before, if that change does not
bring it about. -/
theorem of_update (P : Sink V → Prop) (hi : P (Function.update sinks j k i))
    (hk : P k → P (sinks j)) : P (sinks i) := by
  by_cases hij : i = j
  · subst hij
    rw [Function.update_self] at hi
    exact hk hi
  · rwa [Function.update_of_ne hij] at hi

end Update

/-- Sink `i` has committed `fr`; its ring is now `ring`. -/
def State.commit (s : State V) (i : Nat) (posted : Statement × List (Arg V) ⊕ Command)
    (ring : Ring V) (fr : Frame Statement V Command) : State V :=
  { s.setSink i { s.sinks i with ring := ring, unread := (s.sinks i).unread ++ [fr] } with
    trace := s.trace ++ [⟨i, posted, fr.invocation⟩] }

theorem commit_self (s : State V) (i : Nat) (posted : Statement × List (Arg V) ⊕ Command)
    (ring : Ring V) (fr : Frame Statement V Command) : (s.commit i posted ring fr).sinks i =
      { s.sinks i with ring := ring, unread := (s.sinks i).unread ++ [fr] } :=
  Function.update_self ..

/-- The ring of sink `i` takes one more record. -/
def Takes (cfg : Config V) (s : State V) (i : Nat) (ring : Ring V)
    (fr : Frame Statement V Command) : Prop :=
  ring.sizing = (s.sinks i).ring.sizing ∧ ∀ W R P,
    Queue cfg.order (cfg.base i) (s.sinks i).ring W R P (s.sinks i).unread →
      Queue cfg.order (cfg.base i) ring (W + fr.size) R P ((s.sinks i).unread ++ [fr])

/-- The sink the consumer is in the middle of, and its span and position there. -/
def State.reading (s : State V) : Option (Nat × Span × Nat) :=
  match s.pc with
  | .batch i span pos => s.handles[i]?.map fun h => (h.sink, span, pos)
  | .finish i span pos =>
    if s.destroy then none else s.handles[i]?.map fun h => (h.sink, span, pos)
  | _ => none

/-- The ring of sink `i` holds its unread records.  What was executed is released,
unless the consumer is in the middle of the sink, or done with it for good. -/
structure RingOk (cfg : Config V) (i : Nat) (k : Sink V) (reading : Option (Nat × Span × Nat))
    (W R P : Nat) : Prop where
  queue : Queue cfg.order (cfg.base i) k.ring W R P k.unread
  sizing : k.ring.sizing = cfg.sizing
  resting : k.live = true ∨ k.isOpen = false → (∀ span pos, reading ≠ some (i, span, pos)) → P = R
  reading : ∀ span pos, reading = some (i, span, pos) → Reading (cfg.base i) k.ring W R P span pos

def Rings (cfg : Config V) (s : State V) : Prop :=
  ∀ i, ∃ W R P, RingOk cfg i (s.sinks i) s.reading W R P

/-- The handles, without the one that is about to be removed. -/
def State.held (s : State V) : List Handle :=
  match s.pc with
  | .finish i _ _ => if s.destroy then s.handles.eraseIdx i else s.handles
  | _ => s.handles

theorem held_eq_handles (h : s.destroy = false ∨ ∀ i span pos, s.pc ≠ .finish i span pos) :
    s.held = s.handles := by
  unfold State.held
  split
  · rename_i hpc
    rcases h with h | h
    · rw [h]
      rfl
    · exact absurd hpc (h _ _ _)
  · rfl

/-- The handles lead to live sinks. -/
def Live (s : State V) : Prop := ∀ h ∈ s.held, (s.sinks h.sink).live = true

/-- The consumer's index and position are good. -/
def Indexed (cfg : Config V) (s : State V) : Prop :=
  match s.pc with
  | .top => True
  | .visit i => i ≤ s.handles.length
  | .batch i span pos => s.destroy = false ∧ ∃ h, s.handles[i]? = some h ∧
      pos < batchEnd cfg h.sink span
  | .finish i _ _ | .report i _ => i < s.handles.length
  | .stopped => s.handles = []
  | .fault => False

/-- A close record is the last of its queue. -/
def DestroyLast (s : State V) : Prop :=
  ∀ i fr frs, (s.sinks i).unread = fr :: frs → fr.invocation = .command .destroy → frs = []

/-- The sink that an event registers. -/
def Event.registers : Event V → Option Nat
  | .registerSink t _ _ | .copy t _ _ => some t
  | _ => none

variable (cfg) in
/-- **What each event does.** -/
inductive Fires (s : State V) : Event V → State V → Prop
  | dropped {i : Nat} {tags : Tags} {st : Statement} {args : List (Arg V)} {loads : List Nat}
      {ring : Ring V} : (s.sinks i).ready = true → ring.sizing = (s.sinks i).ring.sizing →
      (∀ W R P, Queue cfg.order (cfg.base i) (s.sinks i).ring W R P (s.sinks i).unread →
        Queue cfg.order (cfg.base i) ring W R P (s.sinks i).unread) →
      Fires s (.log i tags st args loads)
        (s.setSink i { s.sinks i with ring := ring, dropped := (s.sinks i).dropped + 1 })
  | log {i : Nat} {tags : Tags} {st : Statement} {args : List (Arg V)} {loads : List Nat}
      {ring : Ring V} {is : List (Item V)} {n : Nat} : (s.sinks i).ready = true →
      List.Forall₂ Arg.Recorded args is →
      Takes cfg s i ring ⟨.print st (is.map Item.reconstructed), n⟩ →
      Fires s (.log i tags st args loads)
        (s.commit i (.inl (st, args)) ring ⟨.print st (is.map Item.reconstructed), n⟩)
  | setName {i n : Nat} {name : List UInt8} {loads : List Nat} {ring : Ring V} :
      (s.sinks i).ready = true → Takes cfg s i ring ⟨.command (.setName name), n⟩ →
      Fires s (.setName i name loads)
        (s.commit i (.inr (.setName name)) ring ⟨.command (.setName name), n⟩)
  | register {t i n : Nat} {name : Option (List UInt8)} {ring : Ring V} {e : Event V} :
      t ≠ i → (s.sinks t).isOpen = false → (s.sinks i).ready = true →
      Takes cfg s i ring ⟨.command (.addSink t name), n⟩ → e.registers = some t →
      Fires s e
        ((s.commit i (.inr (.addSink t name)) ring ⟨.command (.addSink t name), n⟩).setSink t
        { s.sinks t with isOpen := true, live := true })
  | close {i n : Nat} {loads : List Nat} {ring : Ring V} : (s.sinks i).ready = true →
      Takes cfg s i ring ⟨.command .destroy, n⟩ →
      Fires s (.close i loads) ((s.commit i (.inr .destroy) ring ⟨.command .destroy, n⟩).setSink i
        { (s.commit i (.inr .destroy) ring ⟨.command .destroy, n⟩).sinks i with
          call := .closing, notified := false })
  | closeReturn {i : Nat} : (s.sinks i).call = .closing → (s.sinks i).notified = true →
      Fires s (.closeReturn i) (s.setSink i
        { s.sinks i with isOpen := false, call := .none, ring := (s.sinks i).ring.clear })
  | sync {i n : Nat} {loads : List Nat} {ring : Ring V} : (s.sinks i).ready = true →
      Takes cfg s i ring ⟨.command .sync, n⟩ →
      Fires s (.sync i loads) ((s.commit i (.inr .sync) ring ⟨.command .sync, n⟩).setSink i
        { (s.commit i (.inr .sync) ring ⟨.command .sync, n⟩).sinks i with
          call := .syncing, notified := false })
  | syncReturn {i : Nat} : (s.sinks i).call = .syncing → (s.sinks i).notified = true →
      Fires s (.syncReturn i) (s.setSink i { s.sinks i with call := .none })
  | runOnce {requests : List Request} {buf : OutputBuffer} : s.pc = .top →
      buf.output = s.buf.output → buf = s.buf ∨ buf.pending = [] → s.buf.calls <+: buf.calls →
      Fires s (.runOnce requests) { s with buf := buf, pc := .visit 0, ts := none }
  | endPass {now : List UInt8} : s.pc = .visit s.handles.length →
      Fires s (.consume now) (endPass s)
  | visitEmpty {i : Nat} {now : List UInt8} {h : Handle} : s.pc = .visit i →
      s.handles[i]? = some h → (s.sinks h.sink).unread = [] →
      Fires s (.consume now) { Logger.visitEmpty s with pc := .visit (i + 1) }
  | visit {i : Nat} {now : List UInt8} {h : Handle} {span : Span} : s.pc = .visit i →
      s.handles[i]? = some h → (s.sinks h.sink).unread ≠ [] →
      span = (s.sinks h.sink).ring.readSpan → 0 < span.size →
      Fires s (.consume now) { s with
        destroy := false, ts := some (s.ts.getD now)
        pc := .batch i span (cfg.base h.sink + span.begin) }
  | execute {i pos : Nat} {span : Span} {now : List UInt8} {h : Handle}
      {fr : Frame Statement V Command} {frs : List (Frame Statement V Command)} {pc : Pc} :
      s.pc = .batch i span pos → s.handles[i]? = some h → (s.sinks h.sink).live = true →
      (s.sinks h.sink).unread = fr :: frs →
      (pc = .batch i span (pos + fr.size) ∧ pos + fr.size < batchEnd cfg h.sink span ∧
          fr.invocation ≠ .command .destroy ∨
        pc = .finish i span (pos + fr.size)) →
      Fires s (.consume now) { execute cfg
        (s.setSink h.sink { s.sinks h.sink with unread := frs }) i h fr.invocation with pc := pc }
  | remove {i pos : Nat} {span : Span} {now : List UInt8} : s.pc = .finish i span pos →
      i < s.handles.length → s.destroy = true →
      Fires s (.consume now) { s with handles := swapRemove s.handles i, pc := .visit i }
  | release {i pos : Nat} {span : Span} {now : List UInt8} {h : Handle} :
      s.pc = .finish i span pos → s.destroy = false → s.handles[i]? = some h →
      (s.sinks h.sink).live = true →
      Fires s (.consume now) { s.setSink h.sink { s.sinks h.sink with
          ring := (s.sinks h.sink).ring.reduceReadable (pos - (cfg.base h.sink + span.begin)) } with
        pc := .report i (pos = cfg.base h.sink + span.begin + span.size) }
  | reportDropped {i : Nat} {now : List UInt8} {h : Handle} :
      s.pc = .report i true → s.handles[i]? = some h → (s.sinks h.sink).live = true →
      0 < (s.sinks h.sink).dropped →
      Fires s (.consume now) { printLine cfg
          (s.setSink h.sink { s.sinks h.sink with dropped := 0 })
          (.dropped h.sink (s.sinks h.sink).dropped h.name (s.ts.getD [])) with
        handles := s.handles.set i { h with dropped := h.dropped + (s.sinks h.sink).dropped }
        flushCount := s.handles.length, pc := .visit (i + 1) }
  | report {i : Nat} {caughtUp : Bool} {now : List UInt8} {h : Handle} :
      s.pc = .report i caughtUp → s.handles[i]? = some h → (s.sinks h.sink).live = true →
      Fires s (.consume now) { s with flushCount := s.handles.length, pc := .visit (i + 1) }

/-! ## Commits -/

section Commits
variable [DecidableEq V]

/-- The record at the write position, once the ring has taken it. -/
theorem decode_eq {ring : Ring V} {fr : Frame Statement V Command} {W R P : Nat}
    (h : Queue cfg.order (cfg.base i) (s.sinks i).ring W R P (s.sinks i).unread)
    (h' : Queue cfg.order (cfg.base i) ring (W + fr.size) R P ((s.sinks i).unread ++ [fr]))
    (hz : ring.sizing = (s.sinks i).ring.sizing) :
    ∃ pos, decode cfg i (s.sinks i).ring ring = some (fr.invocation, pos) := by
  obtain ⟨S, hc, -⟩ := h.counts
  have hcap : ring.capacity = (s.sinks i).ring.capacity := congrArg Sizing.capacity hz
  have hlast := h'.last
  rw [Nat.add_sub_cancel, hcap] at hlast
  refine ⟨cfg.base i + W % (s.sinks i).ring.capacity + fr.size, ?_⟩
  rw [decode, hc.writeBegin]
  exact hlast

theorem committed_eq {posted : Statement × List (Arg V) ⊕ Command} {ring : Ring V}
    {fr : Frame Statement V Command} (hr : Rings cfg s) (ht : Takes cfg s i ring fr) :
    committed cfg s i posted ring fr.size = s.commit i posted ring fr := by
  obtain ⟨W, R, P, hok⟩ := hr i
  obtain ⟨pos, hd⟩ := decode_eq hok.queue (ht.2 W R P hok.queue) ht.1
  rw [committed, hd]
  rfl

theorem postCommand_eq_some {c : Command} {loads : List Nat} (hr : Rings cfg s)
    (h : postCommand cfg s i c loads = some s') :
    (s.sinks i).ready = true ∧ ∃ ring n, Takes cfg s i ring ⟨.command c, n⟩ ∧
      s' = s.commit i (.inr c) ring ⟨.command c, n⟩ := by
  obtain ⟨hready, h⟩ := Option.ite_none_right_eq_some.mp h
  split at h
  · rename_i n ring hp
    cases h
    have htakes : Takes cfg s i ring ⟨.command c, n⟩ := by
      obtain ⟨W, R, P, hok⟩ := hr i
      refine ⟨(hok.queue.post (cfg.closure_pos c) hp).1, ?_⟩
      intro W R P hq
      rcases (hq.post (cfg.closure_pos c) hp).2 with ⟨m, heq, hq'⟩ | ⟨heq, -⟩
      · cases heq
        exact hq'
      · cases heq
    exact ⟨hready, ring, n, htakes, committed_eq hr htakes⟩
  · cases h

omit [DecidableEq V] in
/-- A log call that drops its record leaves the queue as it was. -/
theorem log_dropped {tags : Tags} {st : Statement} {args : List (Arg V)} {loads : List Nat}
    {ring : Ring V} (hr : Rings cfg s)
    (hp : produce (logImpl cfg.order (cfg.base i) tags st args) (s.sinks i).ring loads =
      some (.dropped, ring)) :
    ring.sizing = (s.sinks i).ring.sizing ∧
      ∀ W R P, Queue cfg.order (cfg.base i) (s.sinks i).ring W R P (s.sinks i).unread →
        Queue cfg.order (cfg.base i) ring W R P (s.sinks i).unread := by
  obtain ⟨W, R, P, hok⟩ := hr i
  refine ⟨(hok.queue.log hp).1, fun W R P hq => ?_⟩
  rcases (hq.log hp).2 with ⟨m, is, heq, -⟩ | ⟨-, hq'⟩
  · cases heq
  · exact hq'

/-- A log call that commits adds its record. -/
theorem log_committed {tags : Tags} {st : Statement} {args : List (Arg V)} {loads : List Nat}
    {n : Nat} {ring : Ring V} (hr : Rings cfg s)
    (hp : produce (logImpl cfg.order (cfg.base i) tags st args) (s.sinks i).ring loads =
      some (.committed n, ring)) :
    ∃ is, List.Forall₂ Arg.Recorded args is ∧
      Takes cfg s i ring ⟨.print st (is.map Item.reconstructed), n⟩ ∧
      committed cfg s i (.inl (st, args)) ring n =
        s.commit i (.inl (st, args)) ring ⟨.print st (is.map Item.reconstructed), n⟩ := by
  obtain ⟨W, R, P, hok⟩ := hr i
  obtain ⟨hz, ⟨m, is, heq, hrec, hq₀⟩ | ⟨heq, -⟩⟩ := hok.queue.log hp
  · cases heq
    -- whatever the ring's history, the record is the one that is decoded
    have hd₀ : ∃ pos, decode cfg i (s.sinks i).ring ring =
        some (.print st (is.map Item.reconstructed), pos) :=
      @decode_eq V cfg s i _ ring ⟨.print st (is.map Item.reconstructed), n⟩ W R P hok.queue hq₀ hz
    have htakes : Takes cfg s i ring ⟨.print st (is.map Item.reconstructed), n⟩ := by
      refine ⟨hz, ?_⟩
      intro W' R' P' hq
      obtain ⟨-, ⟨m, is', heq, -, hq'⟩ | ⟨heq, -⟩⟩ := hq.log hp
      · cases heq
        have hd : ∃ pos, decode cfg i (s.sinks i).ring ring =
            some (.print st (is'.map Item.reconstructed), pos) :=
          @decode_eq V cfg s i _ ring ⟨.print st (is'.map Item.reconstructed), n⟩ W' R' P' hq hq' hz
        obtain ⟨_, hd₀⟩ := hd₀
        obtain ⟨_, hd⟩ := hd
        rw [hd₀] at hd
        simp only [Option.some.injEq, Prod.mk.injEq] at hd
        rw [hd.1]
        exact hq'
      · cases heq
    exact ⟨is, hrec, htakes, @committed_eq V cfg s i _ (.inl (st, args)) ring _ hr htakes⟩
  · cases heq

theorem log_eq_some {tags : Tags} {st : Statement} {args : List (Arg V)} {loads : List Nat}
    (hr : Rings cfg s) (h : log cfg s i tags st args loads = some s') :
    Fires cfg s (.log i tags st args loads) s' := by
  obtain ⟨hready, h⟩ := Option.ite_none_right_eq_some.mp h
  split at h
  · cases h
  · rename_i ring hp
    cases h
    exact .dropped hready (log_dropped hr hp).1 (log_dropped hr hp).2
  · rename_i n ring hp
    cases h
    obtain ⟨is, hrec, htakes, heq⟩ := log_committed hr hp
    rw [heq]
    exact .log hready hrec htakes

theorem register_eq_some {t : Nat} {name : Option (List UInt8)} {loads : List Nat} {e : Event V}
    (hr : Rings cfg s) (h : register cfg s t i name loads = some s')
    (he : e.registers = some t) : Fires cfg s e s' := by
  unfold register at h
  split at h
  · cases h
  · rename_i hopen
    obtain ⟨s₁, hp, rfl⟩ := Option.map_eq_some_iff.mp h
    obtain ⟨hready, ring, n, htakes, rfl⟩ := postCommand_eq_some hr hp
    have hopen : (s.sinks t).isOpen = false := by simpa using hopen
    have hne : t ≠ i := by
      rintro rfl
      simp [Sink.ready, hopen] at hready
    have hsink :
        (s.commit i (.inr (.addSink t name)) ring ⟨.command (.addSink t name), n⟩).sinks t =
        s.sinks t := Function.update_of_ne hne ..
    rw [hsink]
    exact .register hne hopen hready htakes he

end Commits

/-! ## The consumer -/

theorem foldl_handle (requests : List Request)
    (hlive : ∀ h ∈ s.handles, (s.sinks h.sink).live = true) :
    ∃ buf, requests.foldl handle s = { s with buf := buf } ∧ buf.output = s.buf.output ∧
      (buf = s.buf ∨ buf.pending = []) ∧ s.buf.calls <+: buf.calls := by
  induction requests generalizing s with
  | nil => exact ⟨s.buf, rfl, rfl, .inl rfl, List.prefix_rfl⟩
  | cons r requests ih =>
    have hall : (s.handles.drop 1).all (fun h => (s.sinks h.sink).live) = true :=
      List.all_eq_true.mpr fun h hh => hlive h (List.mem_of_mem_drop hh)
    rw [List.foldl_cons]
    cases r with
    | status =>
      have hsame : handle s .status = s := if_pos hall
      rw [hsame]
      exact ih hlive
    | setLevel =>
      have hsame : handle s .setLevel = s := if_pos hall
      rw [hsame]
      exact ih hlive
    | reopen =>
      obtain ⟨buf, heq, hout, hpend, hcalls⟩ := ih (s := handle s .reopen) hlive
      refine ⟨buf, heq, ?_, .inr ?_, ?_⟩
      · rw [hout]
        exact (OutputBuffer.output_call _ rfl).trans (OutputBuffer.output_flush _)
      · rcases hpend with rfl | hpend
        · exact OutputBuffer.pending_flush _
        · exact hpend
      · exact ((OutputBuffer.calls_prefix_flush _).trans (List.prefix_append _ _)).trans hcalls

/-- An empty visit touches the flush count and the buffer only. -/
theorem visitEmpty_eq (s : State V) :
    ∃ n buf, visitEmpty s = { s with flushCount := n, buf := buf } ∧
      buf.output = s.buf.output := by
  unfold visitEmpty
  split
  · dsimp only
    split
    · exact ⟨s.flushCount - 1, s.buf.flush, rfl, OutputBuffer.output_flush _⟩
    · exact ⟨s.flushCount - 1, s.buf, rfl, rfl⟩
  · exact ⟨s.flushCount, s.buf, rfl, rfl⟩

/-- The end of a pass. -/
theorem endPass_eq (s : State V) : ∃ buf pc, endPass s = { s with buf := buf, pc := pc } ∧
    buf.output = s.buf.output ∧ (pc = .top ∨ pc = .stopped ∧ s.handles = []) := by
  unfold endPass
  split
  · rename_i hnil
    exact ⟨_, .stopped, rfl, (OutputBuffer.output_call _ rfl).trans (OutputBuffer.output_flush _),
      .inr ⟨rfl, hnil⟩⟩
  · exact ⟨s.buf, .top, rfl, rfl, .inl rfl⟩

@[simp] theorem visitEmpty_sinks (s : State V) : (visitEmpty s).sinks = s.sinks := by
  obtain ⟨n, buf, heq, -⟩ := visitEmpty_eq s
  rw [heq]

@[simp] theorem visitEmpty_printed (s : State V) : (visitEmpty s).printed = s.printed := by
  obtain ⟨n, buf, heq, -⟩ := visitEmpty_eq s
  rw [heq]

@[simp] theorem visitEmpty_trace (s : State V) : (visitEmpty s).trace = s.trace := by
  obtain ⟨n, buf, heq, -⟩ := visitEmpty_eq s
  rw [heq]

@[simp] theorem endPass_sinks (s : State V) : (endPass s).sinks = s.sinks := by
  obtain ⟨buf, pc, heq, -⟩ := endPass_eq s
  rw [heq]

@[simp] theorem endPass_printed (s : State V) : (endPass s).printed = s.printed := by
  obtain ⟨buf, pc, heq, -⟩ := endPass_eq s
  rw [heq]

@[simp] theorem endPass_trace (s : State V) : (endPass s).trace = s.trace := by
  obtain ⟨buf, pc, heq, -⟩ := endPass_eq s
  rw [heq]

section RingOk
variable {k : Sink V} {reading : Option (Nat × Span × Nat)}

/-- The unread records of a ring that is at rest. -/
theorem RingOk.unread_eq_nil_iff {W R : Nat} (h : RingOk cfg i k reading W R R) :
    k.unread = [] ↔ k.ring.readSpan.size = 0 := by
  have hq := h.queue
  rw [hq.readSpan]
  show _ ↔ W - R = 0
  have hext := hq.extent_eq
  constructor
  · intro hnil
    rw [hnil, extent_nil] at hext
    omega
  · intro hzero
    cases hun : k.unread with
    | nil => rfl
    | cons fr frs =>
      rw [hun] at hq hext
      have := hq.frame8.2
      rw [extent_cons] at hext
      omega

/-- The consumer's position is that of the next unread record. -/
theorem RingOk.next [DecidableEq V] {W R P : Nat} {span : Span} {pos : Nat}
    (h : RingOk cfg i k reading W R P) (hreading : reading = some (i, span, pos))
    (hpos : pos < batchEnd cfg i span) :
    ∃ fr frs, k.unread = fr :: frs ∧
      trampoline cfg.order (k.ring.readAt (cfg.base i)) pos =
        some (fr.invocation, pos + fr.size) := by
  have hcap : k.ring.capacity = cfg.sizing.capacity := congrArg Sizing.capacity h.sizing
  refine h.queue.next_reading (h.reading span pos hreading) ?_
  rw [hcap]
  exact hpos

/-- After the last record the inner loop ends. -/
theorem RingOk.batchEnd_le {W R P : Nat} {span : Span} {pos : Nat} {fr : Frame Statement V Command}
    (h : RingOk cfg i k reading W R P) (hreading : reading = some (i, span, pos))
    (hun : k.unread = [fr]) : batchEnd cfg i span ≤ pos + fr.size := by
  obtain ⟨hbegin, hsize, hat⟩ := h.reading span pos hreading
  have hread := h.queue.read_le
  have hext := h.queue.extent_eq
  rw [hun, extent_cons, extent_nil] at hext
  unfold batchEnd
  omega

end RingOk

theorem fires_begin {requests : List Request} (hlive : Live s) (hpc : s.pc = .top) :
    Fires cfg s (.runOnce requests) (begin s requests) := by
  rw [Live, State.held, hpc] at hlive
  obtain ⟨buf, heq, hout, hpend, hcalls⟩ := foldl_handle requests hlive
  have hbegin : begin s requests = { s with buf := buf, pc := .visit 0, ts := none } := by
    unfold begin
    rw [heq]
    exact if_neg (by rw [hpc]; exact Pc.noConfusion)
  rw [hbegin]
  exact .runOnce hpc hout hpend hcalls

/-- The visit of a sink, up to the first record. -/
theorem visit_eq {now : List UInt8} {h : Handle} (hget : s.handles[i]? = some h)
    (hlive : (s.sinks h.sink).live = true) : visit cfg s i now =
      if (s.sinks h.sink).ring.readSpan.size = 0 then { visitEmpty s with pc := .visit (i + 1) }
      else { s with
        destroy := false, ts := some (s.ts.getD now)
        pc := .batch i (s.sinks h.sink).ring.readSpan
          (cfg.base h.sink + (s.sinks h.sink).ring.readSpan.begin) } := by
  have hend : i ≠ s.handles.length := by
    obtain ⟨hlt, -⟩ := List.getElem?_eq_some_iff.mp hget
    exact Nat.ne_of_lt hlt
  simp only [visit, if_neg hend, hget, hlive, if_true]

theorem fires_visit {now : List UInt8} (hr : Rings cfg s) (hle : Indexed cfg s) (hlive : Live s)
    (hpc : s.pc = .visit i) : Fires cfg s (.consume now) (visit cfg s i now) := by
  rw [Indexed, hpc] at hle
  rw [Live, State.held, hpc] at hlive
  by_cases hend : i = s.handles.length
  · have hvisit : visit cfg s i now = endPass s := if_pos hend
    rw [hvisit]
    exact .endPass (hend ▸ hpc)
  · have hlt : i < s.handles.length := Nat.lt_of_le_of_ne hle hend
    have hget : s.handles[i]? = some s.handles[i] := List.getElem?_eq_getElem hlt
    have hk := hlive _ (List.getElem_mem hlt)
    obtain ⟨W, R, P, hok⟩ := hr s.handles[i].sink
    have hrest : P = R := by
      refine hok.resting (.inl hk) fun span pos => ?_
      simp [State.reading, hpc]
    subst hrest
    have hnil := hok.unread_eq_nil_iff
    rw [visit_eq hget hk]
    by_cases hzero : (s.sinks s.handles[i].sink).ring.readSpan.size = 0
    · rw [if_pos hzero]
      exact .visitEmpty hpc hget (hnil.mpr hzero)
    · rw [if_neg hzero]
      exact .visit hpc hget (fun hun => hzero (hnil.mp hun)) rfl (Nat.pos_of_ne_zero hzero)

/-- **The inner loop executes the next record.** -/
theorem batch_eq [DecidableEq V] {span : Span} {pos : Nat} (hr : Rings cfg s)
    (hidx : Indexed cfg s) (hlive : Live s) (hpc : s.pc = .batch i span pos) :
    ∃ h fr frs, s.handles[i]? = some h ∧ (s.sinks h.sink).live = true ∧
      (s.sinks h.sink).unread = fr :: frs ∧ batch cfg s i span pos =
        { execute cfg (s.setSink h.sink { s.sinks h.sink with unread := frs }) i h
            fr.invocation with
          pc := if pos + fr.size < batchEnd cfg h.sink span then .batch i span (pos + fr.size)
                else .finish i span (pos + fr.size) } := by
  rw [Indexed, hpc] at hidx
  rw [Live, State.held, hpc] at hlive
  obtain ⟨-, h, hget, hpos⟩ := hidx
  have hlive := hlive h (List.mem_of_getElem? hget)
  have hreading : s.reading = some (h.sink, span, pos) := by
    simp [State.reading, hpc, hget]
  obtain ⟨W, R, P, hok⟩ := hr h.sink
  obtain ⟨fr, frs, hun, htramp⟩ := hok.next hreading hpos
  refine ⟨h, fr, frs, hget, hlive, hun, ?_⟩
  simp only [batch, hget, hlive, if_true, htramp, hun, List.tail_cons]

theorem fires_batch [DecidableEq V] {now : List UInt8} {span : Span} {pos : Nat} (hr : Rings cfg s)
    (hidx : Indexed cfg s) (hlive : Live s) (hlast : DestroyLast s)
    (hpc : s.pc = .batch i span pos) :
    Fires cfg s (.consume now) (batch cfg s i span pos) := by
  obtain ⟨h, fr, frs, hget, hk, hun, hbatch⟩ := batch_eq hr hidx hlive hpc
  rw [hbatch]
  refine .execute hpc hget hk hun ?_
  by_cases hmore : pos + fr.size < batchEnd cfg h.sink span
  · refine .inl ⟨if_pos hmore, hmore, ?_⟩
    intro hdestroy
    have hnil := hlast _ _ _ hun hdestroy
    rw [hnil] at hun
    have hreading : s.reading = some (h.sink, span, pos) := by
      simp [State.reading, hpc, hget]
    obtain ⟨W, R, P, hok⟩ := hr h.sink
    have := hok.batchEnd_le hreading hun
    omega
  · exact .inr (if_neg hmore)

/-- The end of a batch that did not close the sink. -/
theorem finish_eq {span : Span} {pos : Nat} {h : Handle} (hd : s.destroy = false)
    (hget : s.handles[i]? = some h) (hlive : (s.sinks h.sink).live = true) :
    finish cfg s i span pos = { s.setSink h.sink { s.sinks h.sink with
        ring := (s.sinks h.sink).ring.reduceReadable (pos - (cfg.base h.sink + span.begin)) } with
      pc := .report i (pos = cfg.base h.sink + span.begin + span.size) } := by
  simp only [finish, hd, Bool.false_eq_true, if_false, hget, hlive, if_true]

theorem fires_finish {now : List UInt8} {span : Span} {pos : Nat} (hlt : Indexed cfg s)
    (hlive : Live s) (hpc : s.pc = .finish i span pos) :
    Fires cfg s (.consume now) (finish cfg s i span pos) := by
  rw [Indexed, hpc] at hlt
  rw [Live, State.held, hpc] at hlive
  cases hd : s.destroy with
  | true =>
    have hfinish : finish cfg s i span pos =
        { s with handles := swapRemove s.handles i, pc := .visit i } := if_pos hd
    rw [hfinish]
    exact .remove hpc hlt hd
  | false =>
    obtain ⟨h, hget⟩ : ∃ h, s.handles[i]? = some h := ⟨_, List.getElem?_eq_getElem hlt⟩
    rw [hd] at hlive
    have hlive := hlive h (List.mem_of_getElem? hget)
    rw [finish_eq hd hget hlive]
    exact .release hpc hd hget hlive

theorem fires_report {now : List UInt8} {caughtUp : Bool} (hlt : Indexed cfg s) (hlive : Live s)
    (hpc : s.pc = .report i caughtUp) :
    Fires cfg s (.consume now) (report cfg s i caughtUp) := by
  rw [Indexed, hpc] at hlt
  rw [Live, State.held, hpc] at hlive
  obtain ⟨h, hget⟩ : ∃ h, s.handles[i]? = some h := ⟨_, List.getElem?_eq_getElem hlt⟩
  replace hlive : (s.sinks h.sink).live = true := hlive h (List.mem_of_getElem? hget)
  by_cases hdrop : caughtUp = true ∧ 0 < (s.sinks h.sink).dropped
  · obtain ⟨rfl, hdrop⟩ := hdrop
    have hreport : report cfg s i true = { printLine cfg
          (s.setSink h.sink { s.sinks h.sink with dropped := 0 })
          (.dropped h.sink (s.sinks h.sink).dropped h.name (s.ts.getD [])) with
        handles := s.handles.set i { h with dropped := h.dropped + (s.sinks h.sink).dropped }
        flushCount := s.handles.length, pc := .visit (i + 1) } := by
      simp [report, reportDropped, printLine, State.setSink, hget, hlive, hdrop, hpc]
    rw [hreport]
    exact .reportDropped hpc hget hlive hdrop
  · have hreport : report cfg s i caughtUp =
        { s with flushCount := s.handles.length, pc := .visit (i + 1) } := by
      cases caughtUp with
      | true =>
        have hzero : (s.sinks h.sink).dropped = 0 := by simpa using hdrop
        simp [report, reportDropped, hget, hlive, hzero, hpc]
      | false => simp [report, hget, hpc]
    rw [hreport]
    exact .report hpc hget hlive

/-- **Every event does what `Fires` says.** -/
theorem fires_of_step [DecidableEq V] {e : Event V} (hr : Rings cfg s) (hidx : Indexed cfg s)
    (hlive : Live s) (hlast : DestroyLast s) (h : step cfg s e = some s') : Fires cfg s e s' := by
  cases e with
  | log i tags st args loads => exact log_eq_some hr h
  | setName i name loads =>
    obtain ⟨hready, ring, n, htakes, rfl⟩ := postCommand_eq_some hr h
    exact .setName hready htakes
  | registerSink t name loads => exact register_eq_some hr h rfl
  | copy t i loads =>
    obtain ⟨-, h⟩ := Option.ite_none_left_eq_some.mp h
    exact register_eq_some hr h rfl
  | close i loads =>
    obtain ⟨s₁, hp, rfl⟩ := Option.map_eq_some_iff.mp h
    obtain ⟨hready, ring, n, htakes, rfl⟩ := postCommand_eq_some hr hp
    exact .close hready htakes
  | closeReturn i =>
    obtain ⟨⟨hcall, hnot⟩, h⟩ := Option.ite_none_right_eq_some.mp h
    cases h
    exact .closeReturn hcall hnot
  | sync i loads =>
    obtain ⟨s₁, hp, rfl⟩ := Option.map_eq_some_iff.mp h
    obtain ⟨hready, ring, n, htakes, rfl⟩ := postCommand_eq_some hr hp
    exact .sync hready htakes
  | syncReturn i =>
    obtain ⟨⟨hcall, hnot⟩, h⟩ := Option.ite_none_right_eq_some.mp h
    cases h
    exact .syncReturn hcall hnot
  | runOnce requests =>
    obtain ⟨hpc, h⟩ := Option.ite_none_right_eq_some.mp h
    cases h
    exact fires_begin hlive hpc
  | consume now =>
    cases hpc : s.pc with
    | visit i =>
      have h : visit cfg s i now = s' := by simpa [step, hpc] using h
      exact h ▸ fires_visit hr hidx hlive hpc
    | batch i span pos =>
      have h : batch cfg s i span pos = s' := by simpa [step, hpc] using h
      exact h ▸ fires_batch hr hidx hlive hlast hpc
    | finish i span pos =>
      have h : finish cfg s i span pos = s' := by simpa [step, hpc] using h
      exact h ▸ fires_finish hidx hlive hpc
    | report i caughtUp =>
      have h : report cfg s i caughtUp = s' := by simpa [step, hpc] using h
      exact h ▸ fires_report hidx hlive hpc
    | top | stopped | fault => simp [step, hpc] at h

end Xtr.Logger
