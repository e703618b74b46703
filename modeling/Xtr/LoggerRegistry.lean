import Mathlib.Data.List.Perm.Basic
import Xtr.LoggerSteps
import Xtr.Registry
import Xtr.SwapRemove

/-!
# The logger is a registry

The sinks are the parties, the consumer the server, and the records the messages.
`State.registry` is the logger seen so, with the handles taken as a set.  Every event of
the logger is a step of the registry or none (`Fires.moves`), so that what holds of every
registry holds of the logger.
-/
namespace Xtr.Logger
variable {V : Type} {cfg : Config V} {s s' : State V} {i : Nat}

/-! ## The life of a sink -/

/-- The record a sink's thread is waiting for. -/
def Sink.awaited (k : Sink V) : List Command :=
  match k.call, k.notified with
  | .closing, false => [.destroy]
  | .syncing, false => [.sync]
  | _, _ => []

/-- The records of `sync_post`. -/
def Wakes (e : Executed V) : Prop := e = .command .destroy ∨ e = .command .sync

/-- **The invariant of one sink.**  It is live while it is open, up to the execution of
its close request; the record its thread waits for is the last of its queue, and no
other of the queue is such a record. -/
structure Sink.Ok (k : Sink V) : Prop where
  live_eq : k.live = (k.isOpen && !(k.call = .closing && k.notified))
  called : k.call ≠ .none → k.isOpen = true
  idle : k.live = false → k.unread = []
  queue : ∃ pre, k.unread.map Frame.invocation = pre ++ k.awaited.map .command ∧
    ∀ e ∈ pre, ¬ Wakes e

namespace Sink.Ok
variable {k : Sink V} {fr : Frame Statement V Command} {frs : List (Frame Statement V Command)}

theorem ready_live (h : k.Ok) (hr : k.ready = true) : k.live = true := by
  obtain ⟨hopen, hcall⟩ : k.isOpen = true ∧ k.call = .none := by simpa [Sink.ready] using hr
  rw [h.live_eq, hopen, hcall]
  rfl

/-- A sink that can be used waits for nothing. -/
theorem queue_ready (h : k.Ok) (hr : k.ready = true) : ∀ fr ∈ k.unread, ¬ Wakes fr.invocation := by
  obtain ⟨-, hcall⟩ : k.isOpen = true ∧ k.call = .none := by simpa [Sink.ready] using hr
  obtain ⟨pre, heq, hpre⟩ := h.queue
  have hwait : k.awaited = [] := by simp [Sink.awaited, hcall]
  rw [hwait, List.map_nil, List.append_nil] at heq
  intro fr hfr
  exact hpre _ (heq ▸ List.mem_map_of_mem hfr)

theorem post (h : k.Ok) (hr : k.ready = true) {ring : Ring V} (hfr : ¬ Wakes fr.invocation) :
    Sink.Ok { k with ring := ring, unread := k.unread ++ [fr] } := by
  have hnone := h.queue_ready hr
  obtain ⟨-, hcall⟩ : k.isOpen = true ∧ k.call = .none := by simpa [Sink.ready] using hr
  refine ⟨h.live_eq, h.called, fun hlive => ?_, (k.unread ++ [fr]).map Frame.invocation, ?_, ?_⟩
  · have hlive : k.live = false := hlive
    rw [h.ready_live hr] at hlive
    cases hlive
  · simp [Sink.awaited, hcall]
  · intro e he
    obtain ⟨f, hf, rfl⟩ := List.mem_map.mp he
    rcases List.mem_append.mp hf with hf | hf
    · exact hnone f hf
    · rw [List.mem_singleton.mp hf]
      exact hfr

/-- `close` and `sync` post the record they wait for. -/
theorem syncPost (h : k.Ok) (hr : k.ready = true) {ring : Ring V} {c : Command} {call : Call}
    {n : Nat} (hc : (c = .destroy ∧ call = .closing) ∨ (c = .sync ∧ call = .syncing)) :
    Sink.Ok { k with
      ring := ring, unread := k.unread ++ [⟨.command c, n⟩], call := call, notified := false } := by
  have hnone := h.queue_ready hr
  have hlive := h.ready_live hr
  obtain ⟨hopen, -⟩ : k.isOpen = true ∧ k.call = .none := by simpa [Sink.ready] using hr
  refine ⟨?_, fun _ => hopen, fun hdead => ?_, k.unread.map Frame.invocation, ?_, ?_⟩
  · show k.live = (k.isOpen && !(call = .closing && false))
    rw [hlive, hopen]
    simp
  · have hdead : k.live = false := hdead
    rw [hlive] at hdead
    cases hdead
  · rcases hc with ⟨rfl, rfl⟩ | ⟨rfl, rfl⟩ <;> simp [Sink.awaited]
  · intro e he
    obtain ⟨f, hf, rfl⟩ := List.mem_map.mp he
    exact hnone f hf

/-- Neither the ring nor the dropped count matters. -/
theorem congr (h : k.Ok) {ring : Ring V} {dropped : Nat} :
    Sink.Ok { k with ring := ring, dropped := dropped } :=
  ⟨h.live_eq, h.called, h.idle, h.queue⟩

theorem opened (h : k.Ok) (hclosed : k.isOpen = false) :
    Sink.Ok { k with isOpen := true, live := true } := by
  have hcall : k.call = .none := by
    by_contra hne
    rw [h.called hne] at hclosed
    cases hclosed
  refine ⟨?_, fun _ => rfl, nofun, h.queue⟩
  show true = (true && !(k.call = .closing && k.notified))
  rw [hcall]
  rfl

theorem closeReturn (h : k.Ok) {ring : Ring V} (hcall : k.call = .closing)
    (hnot : k.notified = true) :
    Sink.Ok { k with isOpen := false, call := .none, ring := ring } := by
  have hdead : k.live = false := by
    rw [h.live_eq, hcall, hnot]
    simp
  refine ⟨hdead, nofun, h.idle, [], ?_, nofun⟩
  show k.unread.map Frame.invocation = []
  rw [h.idle hdead]
  rfl

theorem syncReturn (h : k.Ok) (hcall : k.call = .syncing) (hnot : k.notified = true) :
    Sink.Ok { k with call := .none } := by
  refine ⟨?_, nofun, h.idle, ?_⟩
  · rw [h.live_eq, hcall]
    rfl
  · obtain ⟨pre, heq, hpre⟩ := h.queue
    refine ⟨pre, ?_, hpre⟩
    rw [heq]
    simp [Sink.awaited, hcall, hnot]

/-- A record nobody waits for is executed. -/
theorem pop (h : k.Ok) (hq : k.unread = fr :: frs) (hfr : ¬ Wakes fr.invocation) :
    Sink.Ok { k with unread := frs } := by
  refine ⟨h.live_eq, h.called, fun hdead => ?_, ?_⟩
  · rw [h.idle hdead] at hq
    cases hq
  · obtain ⟨pre, heq, hpre⟩ := h.queue
    rw [hq, List.map_cons] at heq
    cases pre with
    | nil =>
      -- the awaited record would be this one
      have hmem : fr.invocation ∈ k.awaited.map (.command : Command → Executed V) := by
        rw [← List.nil_append (k.awaited.map _), ← heq]
        exact List.mem_cons_self
      obtain ⟨c, hc, hinv⟩ := List.mem_map.mp hmem
      refine absurd ?_ hfr
      rw [← hinv]
      unfold Sink.awaited at hc
      split at hc
      · exact .inl (by rw [List.mem_singleton.mp hc])
      · exact .inr (by rw [List.mem_singleton.mp hc])
      · cases hc
    | cons e pre =>
      rw [List.cons_append, List.cons.injEq] at heq
      exact ⟨pre, heq.2, fun e he => hpre e (List.mem_cons_of_mem _ he)⟩

/-- A record somebody waits for is the last one. -/
theorem wakes_last (h : k.Ok) (hq : k.unread = fr :: frs) (hfr : Wakes fr.invocation) :
    frs = [] ∧ ∃ c, k.awaited = [c] ∧ fr.invocation = .command c := by
  obtain ⟨pre, heq, hpre⟩ := h.queue
  rw [hq, List.map_cons] at heq
  cases pre with
  | nil =>
    rw [List.nil_append] at heq
    unfold Sink.awaited at heq ⊢
    split at heq
    · rw [List.map_singleton, List.cons.injEq, List.map_eq_nil_iff] at heq
      exact ⟨heq.2, _, rfl, heq.1⟩
    · rw [List.map_singleton, List.cons.injEq, List.map_eq_nil_iff] at heq
      exact ⟨heq.2, _, rfl, heq.1⟩
    · cases heq
  | cons e pre =>
    rw [List.cons_append, List.cons.injEq] at heq
    exact absurd (heq.1 ▸ hfr) (hpre e List.mem_cons_self)

/-- What the thread that posted such a record is waiting in. -/
theorem awaited_eq {c : Command} (hc : k.awaited = [c]) :
    k.notified = false ∧ (c = .destroy ∧ k.call = .closing ∨ c = .sync ∧ k.call = .syncing) := by
  unfold Sink.awaited at hc
  split at hc
  · rename_i hcall hnot
    exact ⟨hnot, .inl ⟨(List.cons.inj hc).1.symm, hcall⟩⟩
  · rename_i hcall hnot
    exact ⟨hnot, .inr ⟨(List.cons.inj hc).1.symm, hcall⟩⟩
  · cases hc

/-- The close request is executed. -/
theorem destroyed (h : k.Ok) (hq : k.unread = fr :: frs)
    (hfr : fr.invocation = .command .destroy) :
    Sink.Ok { k with unread := frs, live := false, notified := true } := by
  obtain ⟨rfl, c, hc, hinv⟩ := h.wakes_last hq (.inl hfr)
  have hdes : c = .destroy := by
    rw [hfr] at hinv
    exact (Invocation.command.inj hinv).symm
  obtain ⟨-, ⟨-, hcall⟩ | ⟨hsync, -⟩⟩ := awaited_eq hc
  · refine ⟨?_, h.called, fun _ => rfl, [], ?_, nofun⟩
    · show false = (k.isOpen && !(k.call = .closing && true))
      rw [hcall]
      simp
    · simp [Sink.awaited, hcall]
  · rw [hdes] at hsync
    cases hsync

/-- A sync request is executed. -/
theorem synced (h : k.Ok) (hq : k.unread = fr :: frs) (hfr : fr.invocation = .command .sync) :
    Sink.Ok { k with unread := frs, notified := true } := by
  obtain ⟨rfl, c, hc, hinv⟩ := h.wakes_last hq (.inr hfr)
  have hdes : c = .sync := by
    rw [hfr] at hinv
    exact (Invocation.command.inj hinv).symm
  obtain ⟨hnot, ⟨hdestroy, -⟩ | ⟨-, hcall⟩⟩ := awaited_eq hc
  · rw [hdes] at hdestroy
    cases hdestroy
  · refine ⟨?_, h.called, fun _ => rfl, [], ?_, nofun⟩
    · show k.live = (k.isOpen && !(k.call = .closing && true))
      rw [h.live_eq, hcall]
      rfl
    · simp [Sink.awaited, hcall]

end Sink.Ok

/-! ## The registry -/

/-- The names the handles give to sinks. -/
def names (handles : List Handle) (i : Nat) : Option (List UInt8) :=
  (handles.find? (·.sink = i)).map Handle.name

section Names
variable {h : Handle} {hs hs' : List Handle}

theorem names_cons : names (h :: hs) = Function.update (names hs) h.sink (some h.name) := by
  funext i
  by_cases hi : i = h.sink
  · simp [names, hi]
  · simp [names, Function.update_of_ne hi, Ne.symm hi]

theorem names_eq_none_iff : names hs i = none ↔ i ∉ hs.map Handle.sink := by
  simp [names]

theorem names_eq_some (hnd : (hs.map Handle.sink).Nodup) (hh : h ∈ hs) :
    names hs h.sink = some h.name := by
  induction hs with
  | nil => cases hh
  | cons a hs ih =>
    rw [List.map_cons, List.nodup_cons] at hnd
    rw [names_cons]
    rcases List.mem_cons.mp hh with rfl | hh
    · exact Function.update_self ..
    · have hne : h.sink ≠ a.sink := fun heq => hnd.1 (heq ▸ List.mem_map_of_mem hh)
      rw [Function.update_of_ne hne]
      exact ih hnd.2 hh

/-- The order of the handles does not matter. -/
theorem names_perm (hp : hs.Perm hs') (hnd : (hs.map Handle.sink).Nodup) :
    names hs = names hs' := by
  induction hp with
  | nil => rfl
  | cons a _ ih =>
    rw [names_cons, names_cons, ih (List.nodup_cons.mp hnd).2]
  | swap a b l =>
    have hne : b.sink ≠ a.sink := by
      rw [List.map_cons, List.nodup_cons, List.map_cons, List.mem_cons, not_or] at hnd
      exact hnd.1.1
    rw [names_cons, names_cons, names_cons, names_cons, Function.update_comm hne]
  | trans hp _ ih ih' =>
    rw [ih hnd, ih' ((hp.map _).nodup_iff.mp hnd)]

theorem perm_cons_eraseIdx (hget : hs[i]? = some h) : hs.Perm (h :: hs.eraseIdx i) := by
  obtain ⟨hi, rfl⟩ := List.getElem?_eq_some_iff.mp hget
  exact (List.getElem_cons_eraseIdx_perm hi).symm

/-- The handles without that at `i`. -/
theorem names_eraseIdx (hget : hs[i]? = some h) (hnd : (hs.map Handle.sink).Nodup) :
    names (hs.eraseIdx i) = Function.update (names hs) h.sink none := by
  have hp := perm_cons_eraseIdx hget
  have hnd' := (hp.map Handle.sink).nodup_iff.mp hnd
  rw [names_perm hp hnd, names_cons, Function.update_idem]
  have hnone : names (hs.eraseIdx i) h.sink = none :=
    names_eq_none_iff.mpr (List.nodup_cons.mp hnd').1
  rw [← hnone, Function.update_eq_self]

/-- The handle at `i` is changed, but for its sink. -/
theorem names_set (h' : Handle) (hget : hs[i]? = some h) (hsink : h'.sink = h.sink)
    (hnd : (hs.map Handle.sink).Nodup) :
    names (hs.set i h') = Function.update (names hs) h.sink (some h'.name) := by
  obtain ⟨hi, -⟩ := List.getElem?_eq_some_iff.mp hget
  have hp := perm_cons_eraseIdx hget
  have hset : (hs.set i h').Perm (h' :: hs.eraseIdx i) := List.set_perm_cons_eraseIdx hi h'
  have hnd' : ((hs.set i h').map Handle.sink).Nodup := by
    rw [(hset.map Handle.sink).nodup_iff, List.map_cons, hsink]
    exact (hp.map Handle.sink).nodup_iff.mp hnd
  rw [names_perm hset hnd', names_perm hp hnd, names_cons, names_cons, Function.update_idem, hsink]

theorem names_append (hnew : names hs h.sink = none) (hnd : (hs.map Handle.sink).Nodup) :
    names (hs ++ [h]) = Function.update (names hs) h.sink (some h.name) := by
  have hp : (hs ++ [h]).Perm (h :: hs) := List.perm_append_singleton h hs
  have hnd' : ((hs ++ [h]).map Handle.sink).Nodup := by
    rw [(hp.map Handle.sink).nodup_iff, List.map_cons, List.nodup_cons]
    exact ⟨names_eq_none_iff.mp hnew, hnd⟩
  rw [names_perm hp hnd', names_cons]

theorem swapRemove_eq (hs : List Handle) (i : Nat) :
    swapRemove hs i = SwapRemove.swapRemove hs i := by
  unfold swapRemove SwapRemove.swapRemove
  cases hs.getLast? <;> rfl

/-- **Removal by a swap with the last handle removes the one at `i`.** -/
theorem swapRemove_perm (hi : i < hs.length) : (swapRemove hs i).Perm (hs.eraseIdx i) := by
  have hget : hs[i]? = some hs[i] := List.getElem?_eq_getElem hi
  rw [swapRemove_eq]
  exact List.Perm.cons_inv
    ((SwapRemove.perm_cons_swapRemove hget).symm.trans (perm_cons_eraseIdx hget))

end Names

/-- A record as a message to the consumer. -/
def message : Executed V → Message Nat (List UInt8) (Statement × List (Reconstructed V))
  | .print st args => .say (st, args)
  | .command (.addSink t name) => .add t name
  | .command (.setName name) => .rename name
  | .command .destroy => .leave
  | .command .sync => .nop

def Sink.messages (k : Sink V) :
    List (Message Nat (List UInt8) (Statement × List (Reconstructed V))) :=
  k.unread.map fun fr => message fr.invocation

/-- The sink, text and name of a log line. -/
def Line.said? : Line V → Option (Nat × (Statement × List (Reconstructed V)) × List UInt8)
  | .log i st args name _ => some (i, (st, args), name)
  | .dropped .. => none

/-- **The logger as a registry of sinks.** -/
def State.registry (s : State V) :
    Registry Nat (List UInt8) (Statement × List (Reconstructed V)) where
  member := names s.held
  live := Sink.live ∘ s.sinks
  queue := Sink.messages ∘ s.sinks
  sent := s.trace.map fun c => (c.sink, message c.executed)
  said := s.printed.filterMap Line.said?

theorem registry_setSink (s : State V) (i : Nat) (k : Sink V) :
    (s.setSink i k).registry = { s.registry with
      live := Function.update s.registry.live i k.live
      queue := Function.update s.registry.queue i k.messages } := by
  simp only [State.registry, State.setSink, Function.comp_update]
  rfl

/-- A change of a sink that neither opens it nor closes it and keeps its records. -/
theorem registry_setSink_eq {k : Sink V} (hlive : k.live = (s.sinks i).live)
    (hunread : k.unread = (s.sinks i).unread) : (s.setSink i k).registry = s.registry := by
  have hl : k.live = s.registry.live i := hlive
  have hq : k.messages = s.registry.queue i := by
    unfold Sink.messages
    rw [hunread]
    rfl
  rw [registry_setSink, hl, hq, Function.update_eq_self, Function.update_eq_self]

theorem registry_commit {posted : Statement × List (Arg V) ⊕ Command} {ring : Ring V}
    {fr : Frame Statement V Command} :
    (s.commit i posted ring fr).registry = s.registry.push i (message fr.invocation) := by
  have hsent : (s.commit i posted ring fr).registry = { (s.setSink i { s.sinks i with
        ring := ring, unread := (s.sinks i).unread ++ [fr] }).registry with
      sent := s.registry.sent ++ [(i, message fr.invocation)] } := by
    simp only [State.registry, State.commit, List.map_append]
    rfl
  have hqueue : Sink.messages { s.sinks i with
        ring := ring, unread := (s.sinks i).unread ++ [fr] } =
      s.registry.queue i ++ [message fr.invocation] :=
    List.map_append
  have hlive : Function.update s.registry.live i (s.sinks i).live = s.registry.live :=
    Function.update_eq_self ..
  rw [hsent, registry_setSink, hqueue, hlive]
  rfl

/-- The registry does not look at the rest of the consumer. -/
theorem registry_congr (hsinks : s'.sinks = s.sinks) (hheld : s'.held = s.held)
    (htrace : s'.trace = s.trace) (hprinted : s'.printed = s.printed) :
    s'.registry = s.registry := by
  unfold State.registry
  rw [hsinks, hheld, htrace, hprinted]

/-- The first record of sink `i` is taken. -/
theorem registry_take {frs : List (Frame Statement V Command)} :
    (s.setSink i { s.sinks i with unread := frs }).registry =
      s.registry.pop i (frs.map fun fr => message fr.invocation) := by
  have hlive : Function.update s.registry.live i (s.sinks i).live = s.registry.live :=
    Function.update_eq_self ..
  rw [registry_setSink, hlive]
  rfl

/-! ## The invariant -/

/-- **The invariant of the logger.** -/
structure Inv (cfg : Config V) (s : State V) : Prop where
  rings : Rings cfg s
  indexed : Indexed cfg s
  sinks : ∀ i, (s.sinks i).Ok
  distinct : (s.held.map Handle.sink).Nodup
  reachable : Relation.ReflTransGen Registry.Step (Registry.start 0 controlName) s.registry

namespace Inv

theorem present (h : Inv cfg s) : s.registry.Present := .of_reachable h.reachable

theorem member (h : Inv cfg s) {hd : Handle} (hh : hd ∈ s.held) :
    s.registry.member hd.sink = some hd.name :=
  names_eq_some h.distinct hh

theorem live (h : Inv cfg s) : Live s := fun _ hh => h.present.member_live _ _ (h.member hh)

theorem destroyLast (h : Inv cfg s) : DestroyLast s :=
  fun i _ _ hun hinv => ((h.sinks i).wakes_last hun (.inl hinv)).1

end Inv

/-! ### The sinks -/

theorem ok_setSink {k : Sink V} (h : ∀ j, (s.sinks j).Ok) (hk : k.Ok) (j : Nat) :
    ((s.setSink i k).sinks j).Ok := by
  by_cases hj : j = i
  · rw [hj, setSink_self]
    exact hk
  · rw [setSink_of_ne s k hj]
    exact h j

theorem ok_syncPost {c : Command} {call : Call} {n : Nat} {ring : Ring V}
    (h : ∀ j, (s.sinks j).Ok) (hready : (s.sinks i).ready = true)
    (hc : (c = .destroy ∧ call = .closing) ∨ (c = .sync ∧ call = .syncing)) (j : Nat) :
    (((s.commit i (.inr c) ring ⟨.command c, n⟩).setSink i
      { (s.commit i (.inr c) ring ⟨.command c, n⟩).sinks i with
        call := call, notified := false }).sinks j).Ok := by
  rw [commit_self]
  by_cases hj : j = i
  · rw [hj, setSink_self]
    exact (h i).syncPost hready hc
  · rw [setSink_of_ne _ _ hj]
    show ((s.setSink i _).sinks j).Ok
    rw [setSink_of_ne _ _ hj]
    exact h j

theorem execute_ok {h : Handle} {fr : Frame Statement V Command}
    {frs : List (Frame Statement V Command)} (hok : ∀ j, (s.sinks j).Ok)
    (hun : (s.sinks h.sink).unread = fr :: frs) (j : Nat) :
    ((execute cfg (s.setSink h.sink { s.sinks h.sink with unread := frs }) i h
      fr.invocation).sinks j).Ok := by
  have hk := hok h.sink
  have hpop : ¬ Wakes fr.invocation →
      ((s.setSink h.sink { s.sinks h.sink with unread := frs }).sinks j).Ok :=
    fun hw => ok_setSink hok (hk.pop hun hw) j
  have htwice : ∀ k : Sink V, k.Ok →
      (((s.setSink h.sink { s.sinks h.sink with unread := frs }).setSink h.sink k).sinks j).Ok := by
    intro k hk'
    rw [setSink_setSink]
    exact ok_setSink hok hk' j
  cases hinv : fr.invocation with
  | print st args =>
    refine hpop ?_
    rw [hinv]
    rintro (hw | hw) <;> cases hw
  | command c =>
    cases c with
    | addSink t name | setName name =>
      refine hpop ?_
      rw [hinv]
      rintro (hw | hw) <;> cases hw
    | destroy =>
      refine htwice _ ?_
      rw [setSink_self]
      exact hk.destroyed hun hinv
    | sync =>
      refine htwice _ ?_
      rw [setSink_self]
      exact hk.synced hun hinv

theorem Fires.sinks {e : Event V} (hf : Fires cfg s e s') (hok : ∀ j, (s.sinks j).Ok) (j : Nat) :
    (s'.sinks j).Ok := by
  cases hf with
  | @dropped i =>
    exact ok_setSink hok (hok i).congr j
  | @log i _ _ _ _ _ _ _ hready _ _ =>
    exact ok_setSink hok ((hok i).post hready (by rintro (hw | hw) <;> cases hw)) j
  | @setName i _ _ _ _ hready _ =>
    exact ok_setSink hok ((hok i).post hready (by rintro (hw | hw) <;> cases hw)) j
  | @register t i _ _ _ _ _ hclosed hready =>
    refine ok_setSink (fun j => ?_) ((hok t).opened hclosed) j
    exact ok_setSink hok ((hok i).post hready (by rintro (hw | hw) <;> cases hw)) j
  | @close i _ _ _ hready _ => exact ok_syncPost hok hready (.inl ⟨rfl, rfl⟩) j
  | @closeReturn i hcall hnot => exact ok_setSink hok ((hok i).closeReturn hcall hnot) j
  | @sync i _ _ _ hready _ => exact ok_syncPost hok hready (.inr ⟨rfl, rfl⟩) j
  | @syncReturn i hcall hnot => exact ok_setSink hok ((hok i).syncReturn hcall hnot) j
  | runOnce | visit | remove => exact hok j
  | endPass =>
    rw [endPass_sinks]
    exact hok j
  | visitEmpty =>
    rw [visitEmpty_sinks]
    exact hok j
  | execute _ _ _ hun _ => exact execute_ok hok hun j
  | @release _ _ _ _ h => exact ok_setSink hok (hok h.sink).congr j
  | @reportDropped _ _ h => exact ok_setSink hok (hok h.sink).congr j
  | report => exact hok j

/-! ### The registry -/

open Relation (ReflTransGen)

/-- What an event does to the handles, as a set, and to the records. -/
def Moves (s s' : State V) : Prop :=
  (s'.held.map Handle.sink).Nodup ∧ ReflTransGen Registry.Step s.registry s'.registry

theorem Moves.refl (h : Inv cfg s) : Moves s s := ⟨h.distinct, .refl⟩

theorem Moves.of_eq (hnd : (s'.held.map Handle.sink).Nodup) (heq : s'.registry = s.registry) :
    Moves s s' :=
  ⟨hnd, by rw [heq]⟩

theorem Moves.congr {s₁ : State V} (h : Moves s s₁) (hsinks : s'.sinks = s₁.sinks)
    (hheld : s'.held = s₁.held) (htrace : s'.trace = s₁.trace)
    (hprinted : s'.printed = s₁.printed) :
    Moves s s' := by
  refine ⟨hheld ▸ h.1, ?_⟩
  rw [registry_congr hsinks hheld htrace hprinted]
  exact h.2

theorem Moves.setSink (h : Moves s s') {k : Sink V} (hlive : k.live = (s'.sinks i).live)
    (hunread : k.unread = (s'.sinks i).unread) : Moves s (s'.setSink i k) := by
  refine ⟨h.1, ?_⟩
  rw [registry_setSink_eq hlive hunread]
  exact h.2

theorem Moves.commit (h : Inv cfg s) {posted : Statement × List (Arg V) ⊕ Command} {ring : Ring V}
    {fr : Frame Statement V Command} (hready : (s.sinks i).ready = true)
    (htarget : (message fr.invocation).target? = none) :
    Moves s (s.commit i posted ring fr) := by
  refine ⟨h.distinct, ?_⟩
  rw [registry_commit]
  exact .single (.send ((h.sinks i).ready_live hready) htarget)

theorem Moves.register (h : Inv cfg s) {t n : Nat} {name : Option (List UInt8)} {ring : Ring V}
    (hne : t ≠ i) (hclosed : (s.sinks t).isOpen = false) (hready : (s.sinks i).ready = true) :
    Moves s ((s.commit i (.inr (.addSink t name)) ring ⟨.command (.addSink t name), n⟩).setSink t
      { s.sinks t with isOpen := true, live := true }) := by
  refine ⟨h.distinct, ?_⟩
  have hdead : (s.sinks t).live = false := by
    rw [(h.sinks t).live_eq, hclosed]
    rfl
  have hqueue : (s.registry.push i (.add t name)).queue t = Sink.messages (s.sinks t) :=
    Registry.push_queue_of_ne hne
  rw [registry_setSink, registry_commit]
  show ReflTransGen _ _ { s.registry.push i (.add t name) with
    live := Function.update s.registry.live t true
    queue := Function.update (s.registry.push i (.add t name)).queue t (Sink.messages (s.sinks t)) }
  rw [← hqueue, Function.update_eq_self]
  exact .single (.enter ((h.sinks i).ready_live hready) hdead)

/-- The consumer is about to execute the record `fr` of the sink at `i`. -/
structure AtRecord (s : State V) (i : Nat) (hd : Handle) (fr : Frame Statement V Command)
    (frs : List (Frame Statement V Command)) : Prop where
  destroy : s.destroy = false
  get : s.handles[i]? = some hd
  unread : (s.sinks hd.sink).unread = fr :: frs

section Execute
variable {hd : Handle} {fr : Frame Statement V Command} {frs : List (Frame Statement V Command)}
  {pc : Pc}

theorem map_sink_set {hs : List Handle} (hd' : Handle) (hget : hs[i]? = some hd)
    (hsink : hd'.sink = hd.sink) : (hs.set i hd').map Handle.sink = hs.map Handle.sink := by
  obtain ⟨hi, rfl⟩ := List.getElem?_eq_some_iff.mp hget
  rw [List.map_set, hsink, ← List.map_set, List.set_getElem_self]

/-- The state with the record taken from the queue. -/
def State.taken (s : State V) (hd : Handle) (frs : List (Frame Statement V Command)) : State V :=
  s.setSink hd.sink { s.sinks hd.sink with unread := frs }

theorem AtRecord.held (hat : AtRecord s i hd fr frs) : s.held = s.handles :=
  held_eq_handles (.inl hat.destroy)

theorem AtRecord.distinct (h : Inv cfg s) (hat : AtRecord s i hd fr frs) :
    (s.handles.map Handle.sink).Nodup := hat.held ▸ h.distinct

theorem AtRecord.member (h : Inv cfg s) (hat : AtRecord s i hd fr frs) :
    s.registry.member hd.sink = some hd.name :=
  h.member (hat.held ▸ List.mem_of_getElem? hat.get)

theorem AtRecord.members (hat : AtRecord s i hd fr frs) : s.registry.member = names s.handles :=
  congrArg names hat.held

theorem AtRecord.queue (hat : AtRecord s i hd fr frs) : s.registry.queue hd.sink =
    message fr.invocation :: frs.map fun fr => message fr.invocation := by
  show Sink.messages (s.sinks hd.sink) = _
  rw [Sink.messages, hat.unread, List.map_cons]

/-- A step of the registry that takes the record. -/
theorem Moves.take (hd : Handle) (frs : List (Frame Statement V Command))
    (hsinks : s'.sinks = (s.taken hd frs).sinks) (htrace : s'.trace = s.trace)
    (hnd : (s'.held.map Handle.sink).Nodup)
    (hstep : Registry.Step s.registry
      { s.registry.pop hd.sink (frs.map fun fr => message fr.invocation) with
        member := names s'.held, said := s'.printed.filterMap Line.said? }) : Moves s s' := by
  have htake : (s.taken hd frs).registry = _ := registry_take
  have hreg : s'.registry = { (s.taken hd frs).registry with
      member := names s'.held, said := s'.printed.filterMap Line.said? } := by
    unfold State.registry
    rw [hsinks, htrace]
    rfl
  rw [htake] at hreg
  exact ⟨hnd, .single (hreg ▸ hstep)⟩

theorem Moves.print (h : Inv cfg s) (hat : AtRecord s i hd fr frs) {st : Statement}
    {args : List (Reconstructed V)} (hinv : fr.invocation = .print st args) :
    Moves s { execute cfg (s.taken hd frs) i hd (.print st args) with pc := pc } := by
  have hheld : State.held { execute cfg (s.taken hd frs) i hd (.print st args) with pc := pc } =
      s.handles := held_eq_handles (.inl hat.destroy)
  have hqueue := hat.queue
  rw [hinv] at hqueue
  refine .take hd frs rfl rfl (hheld ▸ hat.distinct h) ?_
  rw [hheld, ← hat.members]
  show Registry.Step _ { s.registry.pop hd.sink _ with
    said := (s.printed ++ [Line.log hd.sink st args hd.name _]).filterMap Line.said? }
  rw [List.filterMap_append]
  exact .say (hat.member h) hqueue

theorem Moves.addSink (h : Inv cfg s) (hat : AtRecord s i hd fr frs) {t : Nat}
    {name : Option (List UInt8)} (hinv : fr.invocation = .command (.addSink t name)) :
    Moves s { execute cfg (s.taken hd frs) i hd (.command (.addSink t name)) with pc := pc } := by
  have hheld : State.held { execute cfg (s.taken hd frs) i hd (.command (.addSink t name)) with
      pc := pc } = s.handles ++ [⟨t, name.getD hd.name, 0⟩] := held_eq_handles (.inl hat.destroy)
  have hqueue := hat.queue
  rw [hinv] at hqueue
  -- the sink is not known yet
  have hnew : names s.handles t = none := by
    have ht : t ∈ targets (s.registry.queue hd.sink) := by
      rw [hqueue]
      exact List.mem_cons_self
    rw [← hat.members]
    exact (h.present.target _ _ ht).2
  have hnd : ((s.handles ++ [(⟨t, name.getD hd.name, 0⟩ : Handle)]).map Handle.sink).Nodup := by
    rw [List.map_append]
    exact (hat.distinct h).append (List.nodup_singleton t)
      (List.disjoint_singleton.mpr (names_eq_none_iff.mp hnew))
  refine .take hd frs rfl rfl (hheld ▸ hnd) ?_
  rw [hheld, names_append hnew (hat.distinct h), ← hat.members]
  exact .add (hat.member h) hqueue

theorem Moves.setName (h : Inv cfg s) (hat : AtRecord s i hd fr frs) {name : List UInt8}
    (hinv : fr.invocation = .command (.setName name)) :
    Moves s { execute cfg (s.taken hd frs) i hd (.command (.setName name)) with pc := pc } := by
  have hheld : State.held { execute cfg (s.taken hd frs) i hd (.command (.setName name)) with
      pc := pc } = s.handles.set i { hd with name := name } := held_eq_handles (.inl hat.destroy)
  have hqueue := hat.queue
  rw [hinv] at hqueue
  have hnd : ((s.handles.set i { hd with name := name }).map Handle.sink).Nodup := by
    rw [map_sink_set { hd with name := name } hat.get rfl]
    exact hat.distinct h
  refine .take hd frs rfl rfl (hheld ▸ hnd) ?_
  rw [hheld, names_set { hd with name := name } hat.get rfl (hat.distinct h), ← hat.members]
  exact .rename (hat.member h) hqueue

theorem Moves.destroy (h : Inv cfg s) (hat : AtRecord s i hd fr frs) {span : Span} {pos : Nat}
    (hinv : fr.invocation = .command .destroy) :
    Moves s { execute cfg (s.taken hd frs) i hd (.command .destroy) with
      pc := .finish i span pos } := by
  obtain ⟨rfl, -⟩ := (h.sinks hd.sink).wakes_last hat.unread (.inl hinv)
  have hqueue := hat.queue
  rw [hinv] at hqueue
  have hsub := (hat.distinct h).sublist ((List.eraseIdx_sublist s.handles i).map Handle.sink)
  refine ⟨hsub, .single ?_⟩
  have hreg : State.registry { execute cfg (s.taken hd []) i hd (.command .destroy) with
      pc := .finish i span pos } =
      { (s.setSink hd.sink { s.sinks hd.sink with
          unread := [], live := false, notified := true }).registry with
        member := names (s.handles.eraseIdx i) } := by
    rw [← setSink_setSink s hd.sink { s.sinks hd.sink with unread := [] }]
    show State.registry { (s.taken hd []).setSink hd.sink
      { (s.taken hd []).sinks hd.sink with live := false, notified := true } with
      destroy := true, pc := .finish i span pos } = _
    rw [State.taken, setSink_self]
    rfl
  rw [hreg, registry_setSink, names_eraseIdx hat.get (hat.distinct h), ← hat.members]
  exact .leave (hat.member h) hqueue

theorem Moves.sync (h : Inv cfg s) (hat : AtRecord s i hd fr frs)
    (hinv : fr.invocation = .command .sync) :
    Moves s { execute cfg (s.taken hd frs) i hd (.command .sync) with pc := pc } := by
  have hheld : State.held { execute cfg (s.taken hd frs) i hd (.command .sync) with pc := pc } =
      s.handles := held_eq_handles (.inl hat.destroy)
  have hqueue := hat.queue
  rw [hinv] at hqueue
  have hsame : ((s.taken hd frs).setSink hd.sink
      { (s.taken hd frs).sinks hd.sink with notified := true }).registry =
      (s.taken hd frs).registry := registry_setSink_eq rfl rfl
  have hreg : State.registry { execute cfg (s.taken hd frs) i hd (.command .sync) with pc := pc } =
      { ((s.taken hd frs).setSink hd.sink
          { (s.taken hd frs).sinks hd.sink with notified := true }).registry with
        member := names s.handles } := by
    rw [← hheld]
    rfl
  refine ⟨hheld ▸ hat.distinct h, .single ?_⟩
  rw [hreg, hsame, State.taken, registry_take, ← hat.members]
  exact .nop (hat.member h) hqueue

/-- **A record is executed**: the registry takes the message. -/
theorem Moves.execute (h : Inv cfg s) (hat : AtRecord s i hd fr frs)
    (hpc : fr.invocation ≠ .command .destroy ∨ ∃ span pos, pc = .finish i span pos) :
    Moves s { execute cfg (s.taken hd frs) i hd fr.invocation with pc := pc } := by
  cases hinv : fr.invocation with
  | print st args => exact .print h hat hinv
  | command c =>
    cases c with
    | addSink t name => exact .addSink h hat hinv
    | setName name => exact .setName h hat hinv
    | destroy =>
      rcases hpc with hne | ⟨span, pos, rfl⟩
      · exact absurd hinv hne
      · exact .destroy h hat hinv
    | sync => exact .sync h hat hinv

end Execute

/-- The handle of a dropped count that was reported. -/
theorem Moves.reportDropped (h : Inv cfg s) {hd : Handle} {n c : Nat} {k : Sink V}
    {name ts : List UInt8} (hpc : s.pc = .report i true) (hget : s.handles[i]? = some hd)
    (hlive : k.live = (s.sinks hd.sink).live) (hunread : k.unread = (s.sinks hd.sink).unread) :
    Moves s { printLine cfg (s.setSink hd.sink k) (.dropped hd.sink n name ts) with
      handles := s.handles.set i { hd with dropped := c }
      flushCount := s.handles.length, pc := .visit (i + 1) } := by
  have hheld : s.held = s.handles := held_eq_handles (.inr (by simp [hpc]))
  have hnd := h.distinct
  have hmem : s.registry.member hd.sink = some hd.name :=
    h.member (hheld ▸ List.mem_of_getElem? hget)
  have hmember : s.registry.member = names s.handles := congrArg names hheld
  rw [hheld] at hnd
  have hnames : names (s.handles.set i { hd with dropped := c }) = s.registry.member := by
    rw [names_set { hd with dropped := c } hget rfl hnd, ← hmember]
    show Function.update s.registry.member hd.sink (some hd.name) = _
    rw [← hmem, Function.update_eq_self]
  have hsame : (s.setSink hd.sink k).registry = s.registry := registry_setSink_eq hlive hunread
  refine .of_eq ?_ ?_
  · show ((s.handles.set i { hd with dropped := c }).map Handle.sink).Nodup
    rw [map_sink_set { hd with dropped := c } hget rfl]
    exact hnd
  · -- the members are `hnames`
    unfold State.registry
    congr 1
    · exact congrArg Registry.live hsame
    · exact congrArg Registry.queue hsame
    · show (s.printed ++ [Line.dropped hd.sink n name ts]).filterMap Line.said? = _
      rw [List.filterMap_append]
      exact List.append_nil _

/-- **Every event is a step of the registry, or none.** -/
theorem Fires.moves {e : Event V} (hf : Fires cfg s e s') (h : Inv cfg s) : Moves s s' := by
  cases hf with
  | dropped => exact (Moves.refl h).setSink rfl rfl
  | log hready => exact .commit h hready rfl
  | setName hready => exact .commit h hready rfl
  | register hne hclosed hready => exact .register h hne hclosed hready
  | close hready => exact (Moves.commit h hready rfl).setSink rfl rfl
  | closeReturn => exact (Moves.refl h).setSink rfl rfl
  | sync hready => exact (Moves.commit h hready rfl).setSink rfl rfl
  | syncReturn => exact (Moves.refl h).setSink rfl rfl
  | runOnce hpc => exact (Moves.refl h).congr rfl (by simp [State.held, hpc]) rfl rfl
  | endPass hpc =>
    obtain ⟨buf, pc, heq, -, hpc'⟩ := endPass_eq s
    rw [heq]
    refine (Moves.refl h).congr rfl ?_ rfl rfl
    rcases hpc' with rfl | ⟨rfl, -⟩ <;> simp [State.held, hpc]
  | visitEmpty hpc =>
    obtain ⟨n, buf, heq, -⟩ := visitEmpty_eq s
    rw [heq]
    exact (Moves.refl h).congr rfl (by simp [State.held, hpc]) rfl rfl
  | visit hpc => exact (Moves.refl h).congr rfl (by simp [State.held, hpc]) rfl rfl
  | execute hpc hget _ hun hpc' =>
    have hidx := h.indexed
    rw [Indexed, hpc] at hidx
    refine .execute h ⟨hidx.1, hget, hun⟩ ?_
    rcases hpc' with ⟨-, -, hne⟩ | hfin
    · exact .inl hne
    · exact .inr ⟨_, _, hfin⟩
  | @remove i pos span now hpc hi hdes =>
    have hheld : s.held = s.handles.eraseIdx i := by simp [State.held, hpc, hdes]
    have hperm := swapRemove_perm hi
    have hnd := h.distinct
    rw [hheld] at hnd
    have hnd' : ((swapRemove s.handles i).map Handle.sink).Nodup :=
      (hperm.map Handle.sink).nodup_iff.mpr hnd
    refine .of_eq hnd' ?_
    unfold State.registry
    congr 1
    rw [hheld]
    exact names_perm hperm hnd'
  | @release i pos span now hd hpc hdes =>
    have hset : Moves s (s.setSink hd.sink { s.sinks hd.sink with
        ring := (s.sinks hd.sink).ring.reduceReadable (pos - (cfg.base hd.sink + span.begin)) }) :=
      (Moves.refl h).setSink rfl rfl
    refine hset.congr rfl ?_ rfl rfl
    show s.handles = s.held
    exact (held_eq_handles (.inl hdes)).symm
  | reportDropped hpc hget => exact .reportDropped h hpc hget rfl rfl
  | report hpc => exact (Moves.refl h).congr rfl (by simp [State.held, hpc]) rfl rfl

end Xtr.Logger
