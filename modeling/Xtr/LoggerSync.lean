import Xtr.LoggerOutput

/-!
# `sync` is a barrier

The request of `sync` is the last record of its sink's queue until it is executed, so
the consumer has printed everything the sink committed before; executing it flushes the
buffer, which all sinks share, and then syncs the storage.  Calls to the storage are
never taken back, and the sink commits nothing until `sync` has returned
(`sync_barrier`).  `run_once` ends its last pass the same way.
-/
namespace Xtr.Logger
variable {V : Type} {cfg : Config V} {s s' : State V} {i : Nat}

/-- The storage was flushed and synced after it had been given the lines printed up to
then, and these have all the log records of sink `i`. -/
def Flushed (cfg : Config V) (s : State V) (i : Nat) : Prop :=
  ∃ before after shown rest, s.buf.calls = before ++ [.flush, .sync] ++ after ∧
    s.printed = shown ++ rest ∧
    before.flatMap StorageCall.bytes = shown.flatMap (Line.text cfg) ∧
    saidOf i (shown.filterMap Line.said?) = s.reference i

theorem Flushed.mono (h : Flushed cfg s i) (hcalls : s.buf.calls <+: s'.buf.calls)
    (hprinted : s.printed <+: s'.printed) (href : s'.reference i = s.reference i) :
    Flushed cfg s' i := by
  obtain ⟨before, after, shown, rest, hc, hp, hbytes, hsaid⟩ := h
  obtain ⟨more, hmore⟩ := hcalls
  obtain ⟨lines, hlines⟩ := hprinted
  refine ⟨before, after ++ more, shown, rest ++ lines, ?_, ?_, hbytes, hsaid.trans href.symm⟩
  · rw [← hmore, hc, List.append_assoc]
  · rw [← hlines, hp, List.append_assoc]

/-- The buffer is flushed and the storage synced now. -/
theorem flush_sync_calls (hw : Written cfg s) :
    ∃ before, (s.buf.flush.call .sync).calls = before ++ [.flush, .sync] ∧
      s.buf.calls <+: before ∧
      before.flatMap StorageCall.bytes = s.printed.flatMap (Line.text cfg) := by
  obtain ⟨before, hcalls, hprefix, hbytes⟩ := s.buf.calls_flush
  refine ⟨before, ?_, hprefix, hbytes.trans hw.output⟩
  show s.buf.flush.calls ++ [.sync] = _
  rw [hcalls, List.append_assoc]
  rfl

/-! ## Calls and lines are only ever added -/

theorem visitEmpty_calls (s : State V) : s.buf.calls <+: (visitEmpty s).buf.calls := by
  unfold visitEmpty
  split
  · dsimp only
    split
    · exact OutputBuffer.calls_prefix_flush _
    · exact List.prefix_rfl
  · exact List.prefix_rfl

theorem endPass_calls (s : State V) : s.buf.calls <+: (endPass s).buf.calls := by
  unfold endPass
  split
  · exact (OutputBuffer.calls_prefix_flush _).trans (List.prefix_append _ _)
  · exact List.prefix_rfl

theorem execute_grows (cfg : Config V) (s : State V) (i : Nat) (h : Handle) (e : Executed V) :
    s.buf.calls <+: (execute cfg s i h e).buf.calls ∧
      s.printed <+: (execute cfg s i h e).printed := by
  cases e with
  | print st args => exact ⟨OutputBuffer.calls_appendLine _ _ _, List.prefix_append _ _⟩
  | command c =>
    cases c with
    | addSink t name | setName name | destroy => exact ⟨List.prefix_rfl, List.prefix_rfl⟩
    | sync =>
      exact ⟨(OutputBuffer.calls_prefix_flush _).trans (List.prefix_append _ _), List.prefix_rfl⟩

theorem Fires.grows {e : Event V} (hf : Fires cfg s e s') :
    s.buf.calls <+: s'.buf.calls ∧ s.printed <+: s'.printed := by
  cases hf with
  | runOnce _ _ _ hcalls => exact ⟨hcalls, List.prefix_rfl⟩
  | endPass => exact ⟨endPass_calls s, (endPass_printed s).symm ▸ List.prefix_rfl⟩
  | visitEmpty => exact ⟨visitEmpty_calls s, (visitEmpty_printed s).symm ▸ List.prefix_rfl⟩
  | execute => exact execute_grows cfg (s.taken _ _) _ _ _
  | reportDropped => exact ⟨OutputBuffer.calls_appendLine _ _ _, List.prefix_append _ _⟩
  | _ => exact ⟨List.prefix_rfl, List.prefix_rfl⟩

/-! ## The records of a sink that waits -/

theorem execute_trace (cfg : Config V) (s : State V) (i : Nat) (h : Handle) (e : Executed V) :
    (execute cfg s i h e).trace = s.trace := by
  cases e with
  | print st args => rfl
  | command c => cases c <;> rfl

/-- An event commits one record of a sink that can be used, or none. -/
theorem Fires.trace {e : Event V} (hf : Fires cfg s e s') :
    s'.trace = s.trace ∨ ∃ c, s'.trace = s.trace ++ [c] ∧ (s.sinks c.sink).ready = true := by
  cases hf with
  | log hready | setName hready | register _ _ hready | close hready | sync hready =>
    exact .inr ⟨_, rfl, hready⟩
  | endPass => exact .inl (endPass_trace s)
  | visitEmpty => exact .inl (visitEmpty_trace s)
  | execute => exact .inl (execute_trace cfg (s.taken _ _) _ _ _)
  | _ => exact .inl rfl

/-- Nothing is committed by a sink that cannot be used. -/
theorem Fires.reference {e : Event V} (hf : Fires cfg s e s') (hi : (s.sinks i).ready = false) :
    s'.reference i = s.reference i := by
  unfold State.reference
  rcases hf.trace with heq | ⟨c, heq, hready⟩
  · rw [heq]
  · have hne : c.sink ≠ i := by
      rintro rfl
      rw [hi] at hready
      cases hready
    rw [heq, List.map_append, List.map_singleton, spoken_append, saidOf_append,
      saidOf_map_of_ne hne, List.append_nil]

/-! ## The barrier -/

/-- What the thread of a sink waits in, and whether it has been notified. -/
def Sink.waits (k : Sink V) : Call × Bool := (k.call, k.notified)

/-- The consumer executes the record that the thread of sink `i` waits for in `c`. -/
structure Wake (cfg : Config V) (s s' : State V) (i : Nat) (c : Call) (n : Nat) (span : Span)
    (pos : Nat) (h : Handle) (fr : Frame Statement V Command) : Prop where
  pc : s.pc = .batch n span pos
  get : s.handles[n]? = some h
  sink : h.sink = i
  unread : (s.sinks i).unread = [fr]
  call : (s.sinks i).call = c
  command : c = .closing ∧ fr.invocation = .command .destroy ∨
    c = .syncing ∧ fr.invocation = .command .sync
  next : ∃ pc, s' = { execute cfg (s.taken h []) n h fr.invocation with pc := pc }

/-- A record that is executed wakes the thread of its own sink only. -/
theorem execute_wakes {h : Handle} {fr : Frame Statement V Command} {c : Call}
    {frs : List (Frame Statement V Command)} {n : Nat} (hok : (s.sinks h.sink).Ok)
    (hun : (s.sinks h.sink).unread = fr :: frs)
    (hi : ((execute cfg (s.taken h frs) n h fr.invocation).sinks i).waits = (c, true)) :
    (s.sinks i).waits = (c, true) ∨ h.sink = i ∧ frs = [] ∧ (s.sinks i).call = c ∧
      (c = .closing ∧ fr.invocation = .command .destroy ∨
        c = .syncing ∧ fr.invocation = .command .sync) := by
  obtain ⟨live, notified, hsinks, -⟩ := execute_sinks cfg s n h frs fr.invocation
  by_cases hsink : i = h.sink
  · subst hsink
    by_cases hwakes : Wakes fr.invocation
    · obtain ⟨hnil, a, ha, hinv⟩ := hok.wakes_last hun hwakes
      rw [hsinks, setSink_self] at hi
      have hcall : (s.sinks h.sink).call = c := congrArg Prod.fst hi
      refine .inr ⟨rfl, hnil, hcall, ?_⟩
      obtain ⟨-, ⟨rfl, hclosing⟩ | ⟨rfl, hsyncing⟩⟩ := Sink.Ok.awaited_eq ha
      · exact .inl ⟨hcall.symm.trans hclosing, hinv⟩
      · exact .inr ⟨hcall.symm.trans hsyncing, hinv⟩
    · -- any other record leaves the thread alone
      have htaken : (execute cfg (s.taken h frs) n h fr.invocation).sinks =
          (s.taken h frs).sinks := by
        cases hinv : fr.invocation with
        | print st args => rfl
        | command a =>
          cases a with
          | addSink t name | setName name => rfl
          | destroy => exact absurd (.inl hinv) hwakes
          | sync => exact absurd (.inr hinv) hwakes
      rw [htaken] at hi
      exact .inl (of_update (·.waits = _) hi id)
  · rw [hsinks, setSink_of_ne _ _ hsink] at hi
    exact .inl hi

/-- **A thread that can return from `sync_post` could before, or has just been woken.** -/
theorem Fires.notified {e : Event V} {c : Call} (hf : Fires cfg s e s') (hok : ∀ j, (s.sinks j).Ok)
    (hc : c ≠ .none) (hi : (s'.sinks i).waits = (c, true)) :
    (s.sinks i).waits = (c, true) ∨ ∃ n span pos h fr, Wake cfg s s' i c n span pos h fr := by
  cases hf with
  | dropped | log | setName | release | reportDropped => exact .inl (of_update (·.waits = _) hi id)
  | closeReturn | syncReturn =>
    exact .inl (of_update (·.waits = _) hi fun h => absurd (congrArg Prod.fst h).symm hc)
  | register hne =>
    refine .inl (of_update (·.waits = _) (of_update (·.waits = _) hi fun h => ?_) id)
    rw [Function.update_of_ne hne]
    exact h
  | close | sync =>
    exact .inl (of_update (·.waits = _) (of_update (·.waits = _) hi fun h => by cases h) id)
  | runOnce | visit | remove | report => exact .inl hi
  | endPass =>
    rw [endPass_sinks] at hi
    exact .inl hi
  | visitEmpty =>
    rw [visitEmpty_sinks] at hi
    exact .inl hi
  | @execute n pos span _ h fr frs pc hpc hget _ hun =>
    rcases execute_wakes (hok _) hun hi with hold | ⟨rfl, rfl, hcall, hcommand⟩
    · exact .inl hold
    · exact .inr ⟨n, span, pos, h, fr, hpc, hget, rfl, hun, hcall, hcommand, pc, rfl⟩

/-- A thread that is about to return from `sync` was so before, or the storage has just been
synced. -/
theorem Fires.synced {e : Event V} (hf : Fires cfg s e s') (hok : ∀ j, (s.sinks j).Ok)
    (hw : Written cfg s) (hi : (s'.sinks i).waits = (.syncing, true)) :
    (s.sinks i).waits = (.syncing, true) ∨ (s'.sinks i).unread = [] ∧
      ∃ before, s'.buf.calls = before ++ [.flush, .sync] ∧
        before.flatMap StorageCall.bytes = s'.printed.flatMap (Line.text cfg) := by
  rcases hf.notified hok Call.noConfusion hi with hold | ⟨n, span, pos, h, fr, hwake⟩
  · exact .inl hold
  · obtain ⟨pc, rfl⟩ := hwake.next
    obtain ⟨hne, -⟩ | ⟨-, hinv⟩ := hwake.command
    · cases hne
    · obtain ⟨live, notified, hsinks, -⟩ := execute_sinks cfg s n h [] fr.invocation
      obtain ⟨before, hcalls, -, hbytes⟩ := flush_sync_calls hw
      refine .inr ⟨?_, before, ?_, ?_⟩
      · show ((Logger.execute cfg (s.taken h []) n h fr.invocation).sinks i).unread = []
        rw [hsinks, ← hwake.sink, setSink_self]
      · rw [hinv]
        exact hcalls
      · rw [hinv]
        exact hbytes

/-- **The barrier invariant.** -/
structure Synced (cfg : Config V) (s : State V) : Prop where
  written : Written cfg s
  sync : ∀ i, (s.sinks i).waits = (.syncing, true) → Flushed cfg s i
  stopped : s.pc = .stopped → ∃ before, s.buf.calls = before ++ [.flush, .sync] ∧
    s.buf.pending = [] ∧ before.flatMap StorageCall.bytes = s.printed.flatMap (Line.text cfg)

/-- `run_once` returns false only after the last flush, and nothing is printed then. -/
theorem Fires.stopped {e : Event V} (hf : Fires cfg s e s') (hw : Written cfg s)
    (hpc : s'.pc = .stopped) :
    (s.pc = .stopped ∧ s'.buf = s.buf ∧ s'.printed = s.printed) ∨
      ∃ before, s'.buf.calls = before ++ [.flush, .sync] ∧ s'.buf.pending = [] ∧
        before.flatMap StorageCall.bytes = s'.printed.flatMap (Line.text cfg) := by
  cases hf with
  | dropped | log | setName | register | close | closeReturn | sync | syncReturn =>
    exact .inl ⟨hpc, rfl, rfl⟩
  | @endPass now hvisit =>
    unfold Logger.endPass at hpc ⊢
    by_cases hnil : s.handles = []
    · rw [if_pos hnil] at hpc ⊢
      obtain ⟨before, hcalls, -, hbytes⟩ := flush_sync_calls hw
      exact .inr ⟨before, hcalls, OutputBuffer.pending_flush _, hbytes⟩
    · rw [if_neg hnil] at hpc
      cases hpc
  | execute _ _ _ _ hnext =>
    rcases hnext with ⟨rfl, -⟩ | rfl <;> cases hpc
  | _ => cases hpc

theorem Synced.step {e : Event V} (h : Synced cfg s) (hi : Inv cfg s) (hi' : Inv cfg s')
    (hf : Fires cfg s e s') : Synced cfg s' := by
  obtain ⟨hcalls, hprinted⟩ := hf.grows
  refine ⟨hf.written h.written, fun i hwait => ?_, fun hpc => ?_⟩
  · rcases hf.synced hi.sinks h.written hwait with hold | ⟨hun, before, hnew, hbytes⟩
    · have hbusy : (s.sinks i).ready = false := by
        have hcall : (s.sinks i).call = .syncing := congrArg Prod.fst hold
        simp [Sink.ready, hcall]
      exact (h.sync i hold).mono hcalls hprinted (hf.reference hbusy)
    · refine ⟨before, [], s'.printed, [], ?_, (List.append_nil _).symm, hbytes, ?_⟩
      · rw [hnew, List.append_nil]
      · exact hi'.lines_eq_reference (by rw [State.unconsumed, hun]; rfl)
  · rcases hf.stopped h.written hpc with ⟨hold, hbuf, hsame⟩ | hnew
    · rw [hbuf, hsame]
      exact h.stopped hold
    · exact hnew

theorem Synced.of_reachable [DecidableEq V] (h : (machine cfg).Reachable s) :
    Inv cfg s ∧ Synced cfg s := by
  refine h.invariant (I := fun s => Inv cfg s ∧ Synced cfg s) ?_ ?_
  · rintro s ⟨mem, rfl⟩
    refine ⟨.of_initial mem, ⟨rfl, fun _ h => by cases h⟩, fun i hi => ?_, fun hpc => by cases hpc⟩
    cases hi
  · rintro s e s' ⟨hi, hsync⟩ hs
    exact ⟨hi.step hs, hsync.step hi (hi.step hs)
      (fires_of_step hi.rings hi.indexed hi.live hi.destroyLast hs)⟩

/-- **`sync` is a barrier.**  In every state the logger can reach in which `sync` on a
sink returns, the storage has been given the lines of all the records the sink has
committed, and has been flushed and synced after that.  When `run_once` has returned
false, this holds of every line of every sink, and nothing has been given to the storage
since. -/
theorem sync_barrier [DecidableEq V] (h : (machine cfg).Reachable s) :
    (∀ i s', step cfg s (.syncReturn i) = some s' →
      ∃ before after shown rest, s.buf.calls = before ++ [.flush, .sync] ++ after ∧
        s.printed = shown ++ rest ∧
        before.flatMap StorageCall.bytes = shown.flatMap (Line.text cfg) ∧
        saidOf i (shown.filterMap Line.said?) = s.reference i) ∧
    (s.pc = .stopped → ∃ before, s.buf.calls = before ++ [.flush, .sync] ∧ s.buf.pending = [] ∧
      before.flatMap StorageCall.bytes = s.printed.flatMap (Line.text cfg) ∧
      ∀ i, s.lines i = s.reference i) := by
  obtain ⟨hi, hsync⟩ := Synced.of_reachable h
  refine ⟨fun i s' hs => ?_, fun hpc => ?_⟩
  · obtain ⟨⟨hcall, hnot⟩, -⟩ := Option.ite_none_right_eq_some.mp hs
    exact hsync.sync i (Prod.ext hcall hnot)
  · obtain ⟨before, hcalls, hpending, hbytes⟩ := hsync.stopped hpc
    refine ⟨before, hcalls, hpending, hbytes, fun i => hi.lines_eq_reference ?_⟩
    rw [State.unconsumed, (hi.stopped hpc i).2]
    rfl

/-- Sink `1` logs and syncs; before `sync` returns, its line is submitted, and the storage
flushed and synced. -/
theorem sync_barrier_line : ∃ s s', (machine small).Reachable s ∧
    step small s (.syncReturn 1) = some s' ∧
    ∃ before after shown rest, s.buf.calls = before ++ [.flush, .sync] ++ after ∧
      s.printed = shown ++ rest ∧
      before.flatMap StorageCall.bytes = shown.flatMap (Line.text small) ∧
      saidOf 1 (shown.filterMap Line.said?) = [((namedLine, [.value 120]), [65])] := by
  have hrun : ((machine small).run (initial small fun _ _ => .byte 0)
      ([Event.registerSink 1 [65] [],
      .log 1 ⟨false, false⟩ namedLine [.value ⟨1, 1, hasSingleBit_1⟩ 120] [], .sync 1 [],
      .runOnce []] ++ List.replicate 7 (Event.consume []))).any (fun s =>
        (step small s (.syncReturn 1)).isSome &&
          s.reference 1 = [((namedLine, [.value 120]), [65])]) = true := by
    decide +kernel
  obtain ⟨s, hs, heq⟩ := (Option.any_eq_true ..).mp hrun
  have hreach : (machine small).Reachable s := Machine.Reachable.run (.start ⟨_, rfl⟩) hs
  simp only [Bool.and_eq_true, decide_eq_true_eq] at heq
  obtain ⟨s', hreturn⟩ := Option.isSome_iff_exists.mp heq.1
  obtain ⟨before, after, shown, rest, hcalls, hprinted, hbytes, hsaid⟩ :=
    (sync_barrier hreach).1 1 s' hreturn
  exact ⟨s, s', hreach, hreturn, before, after, shown, rest, hcalls, hprinted, hbytes,
    hsaid.trans heq.2⟩

end Xtr.Logger
