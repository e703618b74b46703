import Xtr.LoggerPresence

/-!
# What the logger writes

The output is the lines that were printed, whatever the spans of the storage
(`Inv.output`).  The lines of one sink are, in the order of its commits, its log
records, each under the name the sink had at that point of its own records
(`sink_output`); the reference is `spoken`, which takes all the records in the order
they were committed.
-/
namespace Xtr.Logger
variable {V : Type} {cfg : Config V} {s s' : State V} {i : Nat}

/-- The record that was committed is what was posted: the statement with its arguments
recorded, or the command. -/
def Commit.Faithful (c : Commit V) : Prop :=
  match c.posted with
  | .inl (st, args) => ∃ is, List.Forall₂ Arg.Recorded args is ∧
      c.executed = .print st (is.map Item.reconstructed)
  | .inr cmd => c.executed = .command cmd

/-- The log lines of sink `i` that were printed, with the names they carry. -/
def State.lines (s : State V) (i : Nat) :
    List ((Statement × List (Reconstructed V)) × List UInt8) :=
  saidOf i (s.printed.filterMap Line.said?)

/-- The log lines of sink `i`'s committed records: what `spoken` makes of the records in
the order of their commits. -/
def State.reference (s : State V) (i : Nat) :
    List ((Statement × List (Reconstructed V)) × List UInt8) :=
  saidOf i (spoken (fun _ => controlName) (s.trace.map fun c => (c.sink, message c.executed)))

/-- The log records of sink `i` that the consumer has not executed. -/
def State.unconsumed (s : State V) (i : Nat) : List (Statement × List (Reconstructed V)) :=
  (s.sinks i).unread.filterMap fun fr =>
    match fr.invocation with
    | .print st args => some (st, args)
    | .command _ => none

/-- **The output invariant.** -/
structure Written (cfg : Config V) (s : State V) : Prop where
  output : s.buf.output = s.printed.flatMap (Line.text cfg)
  faithful : ∀ c ∈ s.trace, c.Faithful

namespace Written

theorem congr (h : Written cfg s) (hbuf : s'.buf.output = s.buf.output)
    (hprinted : s'.printed = s.printed) (htrace : s'.trace = s.trace) : Written cfg s' := by
  refine ⟨?_, htrace ▸ h.faithful⟩
  rw [hbuf, hprinted]
  exact h.output

theorem setSink (h : Written cfg s) {k : Sink V} : Written cfg (s.setSink i k) :=
  h.congr rfl rfl rfl

theorem commit (h : Written cfg s) {posted : Statement × List (Arg V) ⊕ Command} {ring : Ring V}
    {fr : Frame Statement V Command} (hc : Commit.Faithful ⟨i, posted, fr.invocation⟩) :
    Written cfg (s.commit i posted ring fr) := by
  refine ⟨h.output, fun c hmem => ?_⟩
  rcases List.mem_append.mp hmem with hmem | hmem
  · exact h.faithful c hmem
  · rw [List.mem_singleton.mp hmem]
    exact hc

theorem command (h : Written cfg s) (c : Command) {n : Nat} {ring : Ring V} :
    Written cfg (s.commit i (.inr c) ring ⟨.command c, n⟩) := h.commit rfl

theorem print (h : Written cfg s) (line : Line V) : Written cfg (printLine cfg s line) := by
  refine ⟨?_, h.faithful⟩
  show (s.buf.appendLine cfg.sizes (line.text cfg)).output = (s.printed ++ [line]).flatMap _
  rw [OutputBuffer.output_appendLine, h.output, List.flatMap_append, List.flatMap_singleton]

theorem execute (h : Written cfg s) (i : Nat) (hd : Handle) (e : Executed V) :
    Written cfg (execute cfg s i hd e) := by
  cases e with
  | print st args => exact h.print _
  | command c =>
    cases c with
    | addSink t name | setName name | destroy => exact h.congr rfl rfl rfl
    | sync =>
      exact h.congr ((OutputBuffer.output_call _ rfl).trans (OutputBuffer.output_flush _)) rfl rfl

end Written

theorem Fires.written {e : Event V} (hf : Fires cfg s e s') (h : Written cfg s) :
    Written cfg s' := by
  cases hf with
  | dropped | closeReturn | syncReturn => exact h.setSink
  | log _ hrec => exact h.commit ⟨_, hrec, rfl⟩
  | setName => exact h.command _
  | register | close | sync => exact (h.command _).setSink
  | runOnce _ hout => exact h.congr hout rfl rfl
  | endPass =>
    obtain ⟨buf, pc, heq, hout, -⟩ := endPass_eq s
    rw [heq]
    exact h.congr hout rfl rfl
  | visitEmpty =>
    obtain ⟨n, buf, heq, hout⟩ := visitEmpty_eq s
    rw [heq]
    exact h.congr hout rfl rfl
  | @execute i pos span now hd fr frs pc =>
    have htaken : Written cfg (s.taken hd frs) := h.setSink
    exact (htaken.execute i hd fr.invocation).congr rfl rfl rfl
  | visit | remove | release | report => exact h.congr rfl rfl rfl
  | @reportDropped i now hd =>
    have hset : Written cfg (s.setSink hd.sink { s.sinks hd.sink with dropped := 0 }) := h.setSink
    exact (hset.print _).congr rfl rfl rfl

theorem Written.of_reachable [DecidableEq V] (h : (machine cfg).Reachable s) : Written cfg s := by
  have hboth : Inv cfg s ∧ Written cfg s := by
    refine h.invariant (I := fun s => Inv cfg s ∧ Written cfg s) ?_ ?_
    · rintro s ⟨mem, rfl⟩
      exact ⟨.of_initial mem, rfl, nofun⟩
    · rintro s e s' ⟨hi, hw⟩ hs
      have hf := fires_of_step hi.rings hi.indexed hi.live hi.destroyLast hs
      exact ⟨hi.step hs, hf.written hw⟩
  exact hboth.2

/-- The lines of a sink, and those its unread records will give, are the reference. -/
theorem Inv.reference_eq (h : Inv cfg s) (i : Nat) :
    ∃ rest, s.reference i = s.lines i ++ rest ∧ rest.map Prod.fst = s.unconsumed i := by
  obtain ⟨names, hnamed⟩ := Registry.Named.of_reachable h.reachable
  refine ⟨linesOf (names i) (s.registry.queue i), ?_, ?_⟩
  · exact (hnamed.lines i).symm
  · rw [linesOf_texts]
    show ((s.sinks i).unread.map fun fr => message fr.invocation).filterMap _ = _
    rw [List.filterMap_map]
    refine List.filterMap_congr fun fr _ => ?_
    obtain ⟨e, n⟩ := fr
    cases e with
    | print st args => rfl
    | command c => cases c <;> rfl

theorem Inv.lines_eq_reference (h : Inv cfg s) (hun : s.unconsumed i = []) :
    s.lines i = s.reference i := by
  obtain ⟨rest, heq, hrest⟩ := h.reference_eq i
  rw [hun, List.map_eq_nil_iff] at hrest
  rw [heq, hrest, List.append_nil]

/-- **The output of one sink.**  In every state the logger can reach, the output is the
lines that were printed; and the log lines of a sink, followed by those its unread
records will give, are the lines of all its committed records, in the order of the
commits and under the names in force there. -/
theorem sink_output [DecidableEq V] (h : (machine cfg).Reachable s) :
    s.buf.output = s.printed.flatMap (Line.text cfg) ∧ (∀ c ∈ s.trace, c.Faithful) ∧
    ∀ i, ∃ rest, s.reference i = s.lines i ++ rest ∧ rest.map Prod.fst = s.unconsumed i := by
  have hw := Written.of_reachable h
  exact ⟨hw.output, hw.faithful, (Inv.of_reachable h).reference_eq⟩

/-- The format string `"{2}: {3}\n"`. -/
def namedLine : Statement := ⟨[.field 2, .literal [58, 32], .field 3, .literal [10]], false⟩

/-- Sink `1` logs as `A`, is renamed to `B` and then copied; the copy logs as `B`. -/
theorem sink_output_copy : ∃ s, (machine small).Reachable s ∧
    s.buf.output = "A: x\nB: y\n".toUTF8.toList ∧ s.reference 1 = s.lines 1 ∧
    s.reference 2 = s.lines 2 ∧ s.lines 2 = [((namedLine, [.value 121]), [66])] := by
  have hrun : ((machine small).run (initial small fun _ _ => .byte 0)
      ([Event.registerSink 1 [65] [],
      .log 1 ⟨false, false⟩ namedLine [.value ⟨1, 1, hasSingleBit_1⟩ 120] [],
      .setName 1 [66] [], .copy 2 1 [],
      .log 2 ⟨false, false⟩ namedLine [.value ⟨1, 1, hasSingleBit_1⟩ 121] [], .runOnce []] ++
      List.replicate 15 (Event.consume []))).any (fun s =>
        s.buf.output = "A: x\nB: y\n".toUTF8.toList && (s.unconsumed 1).isEmpty &&
          (s.unconsumed 2).isEmpty && s.lines 2 = [((namedLine, [.value 121]), [66])]) = true := by
    decide +kernel
  obtain ⟨s, hs, heq⟩ := (Option.any_eq_true ..).mp hrun
  have hreach : (machine small).Reachable s := Machine.Reachable.run (.start ⟨_, rfl⟩) hs
  simp only [Bool.and_eq_true, decide_eq_true_eq, List.isEmpty_iff] at heq
  obtain ⟨⟨⟨hout, h1⟩, h2⟩, hlines⟩ := heq
  obtain ⟨-, -, href⟩ := sink_output hreach
  have hall : ∀ i, s.unconsumed i = [] → s.reference i = s.lines i := by
    intro i hi
    obtain ⟨rest, heq, hrest⟩ := href i
    rw [hi, List.map_eq_nil_iff] at hrest
    rw [heq, hrest, List.append_nil]
  exact ⟨s, hreach, hout, hall 1 h1, hall 2 h2, hlines⟩

end Xtr.Logger
