import Xtr.Amortized
import Xtr.Backlog
import Xtr.LoggerSync

/-!
# The consumer catches up

Whatever is committed is executed, and whoever waits in `close` or `sync` is woken: the
calls of `run_once` are enough for it, whatever the producers do meanwhile.

The argument is that of the registry's oldest message.  In the middle of a pass the
consumer is yet to come to the sink of the oldest record (`Due`), or it has executed a
record since the pass began.  So every pass leaves fewer of the records that were there,
though a pass may execute one record only, when each of them adds the sink of the next
(`Within`).  A pass itself ends: its steps are paid for by the records and the handles
(`State.work`).
-/
namespace Xtr.Logger
variable {V : Type} {cfg : Config V} {s s' : State V} {i n b : Nat} {e : Event V}

/-! ## Records, seen as messages -/

theorem queue_congr (h : ∀ j, (s'.sinks j).unread = (s.sinks j).unread) :
    s'.registry.queue = s.registry.queue := by
  funext j
  show (s'.sinks j).messages = (s.sinks j).messages
  rw [Sink.messages, h j]
  rfl

theorem sent_congr (h : s'.trace = s.trace) : s'.registry.sent = s.registry.sent := by
  show s'.trace.map _ = s.trace.map _
  rw [h]

/-- The records are as they were. -/
def SameRecords (s s' : State V) : Prop :=
  s'.registry.queue = s.registry.queue ∧ s'.registry.sent = s.registry.sent

theorem SameRecords.of_sinks (hsinks : s'.sinks = s.sinks) (htrace : s'.trace = s.trace) :
    SameRecords s s' :=
  ⟨queue_congr fun j => by rw [hsinks], sent_congr htrace⟩

/-- One sink was changed, but not its records. -/
theorem SameRecords.of_update {k : Sink V} (hsinks : s'.sinks = Function.update s.sinks i k)
    (hunread : k.unread = (s.sinks i).unread) (htrace : s'.trace = s.trace) : SameRecords s s' := by
  refine ⟨queue_congr fun j => ?_, sent_congr htrace⟩
  rw [hsinks]
  exact update_keeps (·.unread = (s.sinks j).unread) rfl fun h => hunread.trans h

/-- One record more was committed. -/
def OneMore (s s' : State V) : Prop :=
  ∃ i m, s'.registry.queue = (s.registry.push i m).queue ∧
    s'.registry.sent = (s.registry.push i m).sent

theorem OneMore.of_commit {posted : Statement × List (Arg V) ⊕ Command} {ring : Ring V}
    {fr : Frame Statement V Command}
    (hunread : ∀ j, (s'.sinks j).unread = ((s.commit i posted ring fr).sinks j).unread)
    (htrace : s'.trace = (s.commit i posted ring fr).trace) : OneMore s s' := by
  refine ⟨i, message fr.invocation, ?_, ?_⟩
  · rw [queue_congr hunread, registry_commit]
  · rw [sent_congr htrace, registry_commit]

/-- A record of the sink was executed; `frs` remain. -/
def OneLess (s s' : State V) (h : Handle) (frs : List (Frame Statement V Command)) : Prop :=
  s'.registry.queue = (s.registry.pop h.sink (frs.map fun fr => message fr.invocation)).queue ∧
    s'.registry.sent = s.registry.sent

theorem OneLess.of_execute {h : Handle} {frs : List (Frame Statement V Command)} {x : Executed V}
    {pc : Pc} : OneLess s { execute cfg (s.taken h frs) i h x with pc := pc } h frs := by
  obtain ⟨live, notified, hsinks, -⟩ := execute_sinks cfg s i h frs x
  have htrace := execute_trace cfg (s.taken h frs) i h x
  refine ⟨?_, sent_congr htrace⟩
  rw [← registry_take]
  refine queue_congr fun j => ?_
  show ((execute cfg (s.taken h frs) i h x).sinks j).unread = _
  rw [hsinks]
  by_cases hj : j = h.sink
  · rw [hj, setSink_self, setSink_self]
  · rw [setSink_of_ne _ _ hj, setSink_of_ne _ _ hj]

/-! ## What a producer's call does to the records -/

/-- An event is the beginning of a pass, a step of one, or a producer's call. -/
def Event.begins : Event V → Nat
  | .runOnce _ => 1
  | _ => 0

def Event.steps : Event V → Nat
  | .consume _ => 1
  | _ => 0

def Event.calls : Event V → Nat
  | .runOnce _ | .consume _ => 0
  | _ => 1

/-- **A producer's call commits at most one record**, and leaves the consumer alone. -/
theorem Fires.of_producer (hf : Fires cfg s e s') (he : e.calls = 1) :
    s'.handles = s.handles ∧ s'.pc = s.pc ∧ (SameRecords s s' ∨ OneMore s s') := by
  cases hf with
  | dropped => exact ⟨rfl, rfl, .inl (.of_update rfl rfl rfl)⟩
  | log | setName => exact ⟨rfl, rfl, .inr (.of_commit (fun _ => rfl) rfl)⟩
  | @register t _ _ _ ring _ hne =>
    refine ⟨rfl, rfl, .inr (@OneMore.of_commit V s _ _ _ ring _ (fun j => ?_) rfl)⟩
    by_cases hj : j = t
    · rw [hj, setSink_self]
      show (s.sinks t).unread = _
      exact congrArg Sink.unread (Function.update_of_ne hne _ s.sinks).symm
    · rw [setSink_of_ne _ _ hj]
  | @close i _ _ ring | @sync i _ _ ring =>
    refine ⟨rfl, rfl, .inr (@OneMore.of_commit V s _ _ _ ring _ (fun j => ?_) rfl)⟩
    by_cases hj : j = i
    · rw [hj, setSink_self]
    · rw [setSink_of_ne _ _ hj]
  | closeReturn | syncReturn => exact ⟨rfl, rfl, .inl (.of_update rfl rfl rfl)⟩
  | _ => cases he

/-! ## The consumer comes to every sink -/

/-- In this pass the consumer is yet to come to index `k`, or is there. -/
def Pc.ComesTo (k : Nat) : Pc → Prop
  | .visit i | .batch i _ _ => i ≤ k
  | .finish i _ _ | .report i _ => i < k
  | .top | .stopped | .fault => False

/-- In this pass the consumer is yet to execute records of sink `t`. -/
def Due (s : State V) (t : Nat) : Prop :=
  ∃ k h, s.handles[k]? = some h ∧ h.sink = t ∧ s.pc.ComesTo k

/-- The handle after the one at `i` is removed is at another index, but not before `i`. -/
theorem swapRemove_getElem? {hs : List Handle} {i k : Nat} {h : Handle} (hi : i < k)
    (hk : hs[k]? = some h) : ∃ l, i ≤ l ∧ (swapRemove hs i)[l]? = some h := by
  obtain ⟨hlt, hget⟩ := List.getElem?_eq_some_iff.mp hk
  have hne : hs ≠ [] := List.ne_nil_of_length_pos (by omega)
  unfold swapRemove
  rw [List.getLast?_eq_getLast_of_ne_nil hne]
  show ∃ l, i ≤ l ∧ ((hs.set i (hs.getLast hne)).dropLast)[l]? = some h
  by_cases hlast : k = hs.length - 1
  · -- the last handle takes the place of the one that is removed
    have hlast' : hs.getLast hne = h := by
      rw [List.getLast_eq_getElem]
      simp only [← hlast]
      exact hget
    refine ⟨i, Nat.le_refl i, ?_⟩
    rw [List.getElem?_dropLast, List.length_set, if_pos (by omega),
      List.getElem?_set_self (by omega), hlast']
  · refine ⟨k, Nat.le_of_lt hi, ?_⟩
    rw [List.getElem?_dropLast, List.length_set, if_pos (by omega),
      List.getElem?_set_ne (Nat.ne_of_lt hi), hk]

/-- Executing a record leaves every handle's sink where it is. -/
theorem execute_sink_at (cfg : Config V) (frs : List (Frame Statement V Command)) {h h' : Handle}
    (hget : s.handles[i]? = some h) {k : Nat} (hk : s.handles[k]? = some h') (x : Executed V) :
    ∃ h'', (execute cfg (s.taken h frs) i h x).handles[k]? = some h'' ∧ h''.sink = h'.sink := by
  obtain ⟨hlt, -⟩ := List.getElem?_eq_some_iff.mp hk
  cases x with
  | print st args => exact ⟨h', hk, rfl⟩
  | command c =>
    cases c with
    | addSink t name => exact ⟨h', (List.getElem?_append_left hlt).trans hk, rfl⟩
    | setName name =>
      by_cases hki : k = i
      · subst hki
        obtain rfl : h = h' := Option.some.inj (hget.symm.trans hk)
        exact ⟨_, List.getElem?_set_self hlt, rfl⟩
      · exact ⟨h', (List.getElem?_set_ne (Ne.symm hki)).trans hk, rfl⟩
    | destroy | sync => exact ⟨h', hk, rfl⟩

/-- What is left of a pass, in steps, but for the records it will execute. -/
def Pc.weight (handles : Nat) : Pc → Nat
  | .visit i | .finish i _ _ => 2 * (handles - i) + 1
  | .batch i _ _ | .report i _ => 2 * (handles - i)
  | .top | .stopped | .fault => 0

/-- A step of a pass that leaves the records alone: the consumer still comes to all the
sinks with records that it was to come to. -/
structure GoesOn (s s' : State V) : Prop where
  same : SameRecords s s'
  due : ∀ t, (s.sinks t).unread ≠ [] → Due s t → Due s' t
  handles : s'.handles.length ≤ s.handles.length
  weight : s'.pc.weight s'.handles.length < s.pc.weight s.handles.length

/-- A step of a pass that executes a record of the sink of `h`. -/
structure Executes (s s' : State V) (h : Handle) (fr : Frame Statement V Command)
    (frs : List (Frame Statement V Command)) : Prop where
  unread : (s.sinks h.sink).unread = fr :: frs
  less : OneLess s s' h frs
  due : ∀ t ≠ h.sink, Due s t → Due s' t
  handles : s'.handles.length ≤ s.handles.length + 1
  weight : s'.pc.weight s'.handles.length ≤ s.pc.weight s.handles.length + 3

theorem length_execute (cfg : Config V) (s : State V) (i : Nat) (h : Handle) (x : Executed V) :
    (execute cfg s i h x).handles.length ≤ s.handles.length + 1 := by
  cases x with
  | print st args => exact Nat.le_succ _
  | command c =>
    cases c with
    | addSink t name => exact Nat.le_of_eq List.length_append
    | setName name => exact (Nat.le_of_eq List.length_set).trans (Nat.le_succ _)
    | destroy | sync => exact Nat.le_succ _

/-- **A step of a pass goes on, or executes a record.** -/
theorem Fires.of_consume {now : List UInt8} (hf : Fires cfg s (.consume now) s') :
    GoesOn s s' ∨ ∃ h fr frs, Executes s s' h fr frs := by
  cases hf with
  | register _ _ _ _ he => cases he
  | endPass hpc =>
    obtain ⟨buf, pc, heq, -, hnext⟩ := endPass_eq s
    refine .inl ⟨.of_sinks (endPass_sinks s) (endPass_trace s), fun t _ hdue => ?_, ?_, ?_⟩
    · obtain ⟨k, h, hk, -, hcomes⟩ := hdue
      rw [hpc] at hcomes
      exact absurd (List.getElem?_eq_some_iff.mp hk).1 (Nat.not_lt.mpr hcomes)
    · rw [heq]
    · rw [heq, hpc]
      rcases hnext with rfl | ⟨rfl, -⟩ <;> exact Nat.succ_pos _
  | @visitEmpty i _ h hpc hget hun =>
    have hlt := (List.getElem?_eq_some_iff.mp hget).1
    obtain ⟨m, buf, heq, -⟩ := visitEmpty_eq s
    refine .inl ⟨.of_sinks (visitEmpty_sinks s) (visitEmpty_trace s), fun t hne hdue => ?_, ?_, ?_⟩
    · obtain ⟨k, h', hk, rfl, hcomes⟩ := hdue
      rw [heq]
      rw [hpc] at hcomes
      refine ⟨k, h', hk, rfl, Nat.lt_of_le_of_ne hcomes ?_⟩
      rintro rfl
      obtain rfl : h = h' := Option.some.inj (hget.symm.trans hk)
      exact hne hun
    · rw [heq]
    · rw [heq, hpc]
      show 2 * (s.handles.length - (i + 1)) + 1 < 2 * (s.handles.length - i) + 1
      omega
  | visit hpc =>
    refine .inl ⟨.of_sinks rfl rfl, fun t _ hdue => ?_, Nat.le_refl _, ?_⟩
    · obtain ⟨k, h', hk, rfl, hcomes⟩ := hdue
      rw [hpc] at hcomes
      exact ⟨k, h', hk, rfl, hcomes⟩
    · rw [hpc]
      exact Nat.lt_succ_self _
  | @execute i pos span _ h fr frs pc hpc hget hlive hun hnext =>
    have hlen := length_execute cfg (s.taken h frs) i h fr.invocation
    have hlen' : (s.taken h frs).handles.length = s.handles.length := rfl
    refine .inr ⟨h, fr, frs, hun, .of_execute, fun t hne hdue => ?_, hlen, ?_⟩
    · obtain ⟨k, h', hk, rfl, hcomes⟩ := hdue
      obtain ⟨h'', hk', hsink⟩ := execute_sink_at cfg frs hget hk fr.invocation
      rw [hpc] at hcomes
      have hlt : i < k := by
        refine Nat.lt_of_le_of_ne hcomes ?_
        rintro rfl
        obtain rfl : h = h' := Option.some.inj (hget.symm.trans hk)
        exact hne rfl
      refine ⟨k, h'', hk', hsink, ?_⟩
      rcases hnext with ⟨rfl, -⟩ | rfl
      · exact Nat.le_of_lt hlt
      · exact hlt
    · rw [hpc]
      show pc.weight (Logger.execute cfg (s.taken h frs) i h fr.invocation).handles.length ≤
        2 * (s.handles.length - i) + 3
      have hweight : ∀ m ≤ s.handles.length + 1, pc.weight m ≤ 2 * (s.handles.length - i) + 3 := by
        intro m hm
        rcases hnext with ⟨rfl, -⟩ | rfl <;> simp only [Pc.weight] <;> omega
      exact hweight _ hlen
  | @remove i _ _ _ hpc hlt hdestroy =>
    have hlen : (swapRemove s.handles i).length = s.handles.length - 1 := by
      rw [(swapRemove_perm hlt).length_eq, List.length_eraseIdx_of_lt hlt]
    refine .inl ⟨.of_sinks rfl rfl, fun t _ hdue => ?_, ?_, ?_⟩
    · obtain ⟨k, h', hk, rfl, hcomes⟩ := hdue
      rw [hpc] at hcomes
      obtain ⟨l, hl, hget⟩ := swapRemove_getElem? hcomes hk
      exact ⟨l, h', hget, rfl, hl⟩
    · show (swapRemove s.handles i).length ≤ _
      omega
    · rw [hpc]
      show 2 * ((swapRemove s.handles i).length - i) + 1 < 2 * (s.handles.length - i) + 1
      omega
  | release hpc hdestroy hget =>
    refine .inl ⟨.of_update rfl rfl rfl, fun t _ hdue => ?_, Nat.le_refl _, ?_⟩
    · obtain ⟨k, h', hk, rfl, hcomes⟩ := hdue
      rw [hpc] at hcomes
      exact ⟨k, h', hk, rfl, hcomes⟩
    · rw [hpc]
      exact Nat.lt_succ_self _
  | @reportDropped i _ h hpc hget =>
    have hlt := (List.getElem?_eq_some_iff.mp hget).1
    refine .inl ⟨.of_update rfl rfl rfl, fun t _ hdue => ?_, ?_, ?_⟩
    · obtain ⟨k, h', hk, rfl, hcomes⟩ := hdue
      rw [hpc] at hcomes
      have hcomes : i < k := hcomes
      exact ⟨k, h', (List.getElem?_set_ne (Nat.ne_of_lt hcomes)).trans hk, rfl, hcomes⟩
    · exact Nat.le_of_eq List.length_set
    · rw [hpc]
      show 2 * ((s.handles.set i _).length - (i + 1)) + 1 < 2 * (s.handles.length - i)
      rw [List.length_set]
      omega
  | @report i _ _ h hpc hget =>
    have hlt := (List.getElem?_eq_some_iff.mp hget).1
    refine .inl ⟨.of_sinks rfl rfl, fun t _ hdue => ?_, Nat.le_refl _, ?_⟩
    · obtain ⟨k, h', hk, rfl, hcomes⟩ := hdue
      rw [hpc] at hcomes
      exact ⟨k, h', hk, rfl, hcomes⟩
    · rw [hpc]
      show 2 * (s.handles.length - (i + 1)) + 1 < 2 * (s.handles.length - i)
      omega

/-! ## Every pass executes the oldest record -/

theorem Inv.founded (h : Inv cfg s) : s.registry.Founded := .of_reachable h.reachable

/-- How many of the first `n` records have not been executed. -/
def State.backlog (s : State V) (n : Nat) : Nat := s.registry.backlog n

/-- Record number `k` is the oldest that was not executed, and comes first in sink `t`. -/
def OldestOf (s : State V) (t k : Nat) : Prop :=
  s.registry.Oldest k ∧ ∃ m ms, s.registry.First t m ms k

/-- The beginnings of `b` passes are enough for the first `n` records: there are fewer of
them left, or this pass will leave fewer. -/
def Within (s : State V) (n b : Nat) : Prop :=
  s.backlog n < b ∨ s.backlog n = b ∧ ∀ t, ∀ k < n, OldestOf s t k → Due s t

/-- The oldest record is the first of the sink it was committed to, which has a handle. -/
theorem Inv.oldestOf (hi : Inv cfg s) {t k : Nat} (hold : s.registry.Oldest k)
    {m : Message Nat (List UInt8) (Statement × List (Reconstructed V))}
    (hget : s.registry.sent[k]? = some (t, m)) : OldestOf s t k ∧ names s.held t ≠ none := by
  obtain ⟨t', m', ms', hfirst, hmem⟩ := hi.founded.oldest hold
  obtain rfl : t' = t := congrArg Prod.fst (Option.some.inj (hfirst.sent.symm.trans hget))
  exact ⟨⟨hold, m', ms', hfirst⟩, hmem⟩

theorem SameRecords.waits (h : SameRecords s s') (k : Nat) :
    s'.registry.Waits k ↔ s.registry.Waits k := by
  unfold Registry.Waits Registry.sentAfter
  rw [h.1, h.2]

theorem SameRecords.backlog (h : SameRecords s s') (n : Nat) : s'.backlog n = s.backlog n :=
  Nat.le_antisymm (Nat.count_mono_left fun k _ => (h.waits k).mp)
    (Nat.count_mono_left fun k _ => (h.waits k).mpr)

theorem SameRecords.oldestOf (h : SameRecords s s') {t k : Nat} (hk : OldestOf s' t k) :
    OldestOf s t k := by
  obtain ⟨⟨hw, hleast⟩, m, ms, hfirst⟩ := hk
  refine ⟨⟨(h.waits k).mp hw, fun j hj hwj => hleast j hj ((h.waits j).mpr hwj)⟩, m, ms, ?_, ?_, ?_⟩
  · exact h.1 ▸ hfirst.queue
  · exact h.2 ▸ hfirst.sent
  · have hafter := hfirst.after
    unfold Registry.sentAfter at hafter ⊢
    rwa [h.2] at hafter

theorem OldestOf.unread_ne {t k : Nat} (h : OldestOf s t k) : (s.sinks t).unread ≠ [] := by
  obtain ⟨-, m, ms, hfirst⟩ := h
  intro hnil
  have hq : (s.sinks t).messages = m :: ms := hfirst.queue
  rw [Sink.messages, hnil] at hq
  cases hq

/-- The records are left alone, and the consumer comes to the sinks it was to come to. -/
theorem Within.same (h : Within s n b) (hsame : SameRecords s s')
    (hdue : ∀ t, (s.sinks t).unread ≠ [] → Due s t → Due s' t) : Within s' n b := by
  unfold Within
  rw [hsame.backlog]
  refine h.imp_right fun ⟨heq, hcomes⟩ => ⟨heq, fun t k hk hold => ?_⟩
  have hold' := hsame.oldestOf hold
  exact hdue t hold'.unread_ne (hcomes t k hk hold')

/-- A record is committed: it is not one of the first `n`. -/
theorem Within.oneMore (h : Within s n b) (hi : Inv cfg s) (hmore : OneMore s s')
    (hn : n ≤ s.trace.length) (hdue : ∀ t, Due s t → Due s' t) : Within s' n b := by
  obtain ⟨i, m, hqueue, hsent⟩ := hmore
  have hlen : s.registry.sent.length = s.trace.length := List.length_map _
  have hwaits : ∀ k < n, (s'.registry.Waits k ↔ s.registry.Waits k) := by
    intro k hk
    rw [← Registry.waits_push_iff (show k < s.registry.sent.length by omega)]
    unfold Registry.Waits Registry.sentAfter
    rw [hqueue, hsent]
  have hbacklog : s'.backlog n = s.backlog n :=
    Nat.le_antisymm (Nat.count_mono_left fun k hk => (hwaits k hk).mp)
      (Nat.count_mono_left fun k hk => (hwaits k hk).mpr)
  unfold Within
  rw [hbacklog]
  refine h.imp_right fun ⟨heq, hcomes⟩ => ⟨heq, fun t k hk hold => hdue t (hcomes t k hk ?_)⟩
  obtain ⟨⟨hw, hleast⟩, a, as, hfirst⟩ := hold
  have hold : s.registry.Oldest k := ⟨(hwaits k hk).mp hw, fun j hj hwj =>
    hleast j hj ((hwaits j (Nat.lt_trans hj hk)).mpr hwj)⟩
  -- the message is the same, so its sender is
  have hget : s'.registry.sent[k]? = s.registry.sent[k]? := by
    rw [hsent]
    exact List.getElem?_append_left (by omega)
  exact (hi.oldestOf hold (hget.symm.trans hfirst.sent)).1

/-- The record that is executed is the only one that waits no longer. -/
theorem Executes.waits_iff {hd : Handle} {fr : Frame Statement V Command}
    {frs : List (Frame Statement V Command)} (h : Executes s s' hd fr frs) (hi : Inv cfg s) :
    ∃ l, s.registry.First hd.sink (message fr.invocation)
        (frs.map fun fr => message fr.invocation) l ∧
      ∀ k, s'.registry.Waits k ↔ s.registry.Waits k ∧ k ≠ l := by
  have hq : s.registry.queue hd.sink =
      message fr.invocation :: frs.map fun fr => message fr.invocation := by
    show (s.sinks hd.sink).messages = _
    rw [Sink.messages, h.unread]
    rfl
  obtain ⟨l, hl⟩ := hi.founded.exists_first hq
  refine ⟨l, hl, fun k => ?_⟩
  rw [← Registry.waits_pop_iff hl]
  unfold Registry.Waits Registry.sentAfter
  rw [h.less.1, h.less.2]
  rfl

/-- A record is executed: it is one of the first `n`, or not of the sink that has the oldest
of them. -/
theorem Within.oneLess (h : Within s n b) (hi : Inv cfg s) {hd : Handle}
    {fr : Frame Statement V Command} {frs : List (Frame Statement V Command)}
    (hexec : Executes s s' hd fr frs) : Within s' n b := by
  obtain ⟨l, hl, hwaits⟩ := hexec.waits_iff hi
  have hcount : s.backlog n = s'.backlog n + if l < n then 1 else 0 :=
    Registry.count_remove hwaits hl.waits n
  unfold Within
  by_cases hln : l < n
  · rw [if_pos hln] at hcount
    refine .inl ?_
    rcases h with h | ⟨h, -⟩ <;> omega
  · rw [if_neg hln, Nat.add_zero] at hcount
    rw [← hcount]
    refine h.imp_right fun ⟨heq, hcomes⟩ => ⟨heq, fun t k hk hold => ?_⟩
    obtain ⟨⟨hw, hleast⟩, a, as, hfirst⟩ := hold
    obtain ⟨hw', hne⟩ := (hwaits k).mp hw
    have hold : s.registry.Oldest k := ⟨hw', fun j hj hwj =>
      hleast j hj ((hwaits j).mpr ⟨hwj, by omega⟩)⟩
    have hget : s'.registry.sent[k]? = s.registry.sent[k]? := by rw [hexec.less.2]
    have hold' := (hi.oldestOf hold (hget.symm.trans hfirst.sent)).1
    refine hexec.due t ?_ (hcomes t k hk hold')
    -- the oldest record would be first in the queue, before the one that was executed
    obtain ⟨-, a', as', hfirst'⟩ := hold'
    rintro rfl
    have hlen := hl.lt_of_lt (show k < l by omega)
    rw [hfirst'.after] at hlen
    have htail := (List.cons.inj (hfirst'.queue.symm.trans hl.queue)).2
    rw [htail] at hlen
    exact Nat.lt_irrefl _ hlen

/-- A pass begins: the consumer comes to every handle, and the oldest record is one of a
sink that has a handle. -/
theorem Within.begin (h : Within s n b) (hi : Inv cfg s) (hpc : s.pc = .top)
    (hsame : SameRecords s s') (hhandles : s'.handles = s.handles) (hpc' : s'.pc = .visit 0) :
    Within s' n (b - 1) := by
  have hlt : s.backlog n < b ∨ s.backlog n = 0 ∧ b = 0 := by
    rcases h with h | ⟨heq, hcomes⟩
    · exact .inl h
    · refine .inr ?_
      by_contra hne
      have hpos : s.registry.backlog n ≠ 0 := fun hzero => hne ⟨hzero, heq.symm.trans hzero⟩
      obtain ⟨k, hk, hold⟩ := Registry.exists_oldest hpos
      obtain ⟨t, m, ms, hfirst, -⟩ := hi.founded.oldest hold
      obtain ⟨l, hd, -, -, hnever⟩ := hcomes t k hk ⟨hold, m, ms, hfirst⟩
      rw [hpc] at hnever
      exact hnever
  have hdue : ∀ t k, OldestOf s' t k → Due s' t := by
    intro t k hold
    obtain ⟨hold, m, ms, hfirst⟩ := hsame.oldestOf hold
    obtain ⟨-, hmem⟩ := hi.oldestOf hold hfirst.sent
    have hheld : s.held = s.handles := held_eq_handles (.inr fun _ _ _ h => by simp [hpc] at h)
    rw [hheld, Ne, names_eq_none_iff, not_not] at hmem
    obtain ⟨hd, hhd, rfl⟩ := List.mem_map.mp hmem
    obtain ⟨l, hl⟩ := List.getElem?_of_mem hhd
    refine ⟨l, hd, hhandles ▸ hl, rfl, ?_⟩
    rw [hpc']
    exact Nat.zero_le l
  unfold Within
  rw [hsame.backlog]
  rcases hlt with hlt | ⟨hzero, rfl⟩
  · rcases Nat.lt_or_ge (s.backlog n) (b - 1) with hlt' | hge
    · exact .inl hlt'
    · exact .inr ⟨by omega, fun t k _ => hdue t k⟩
  · exact .inr ⟨hzero, fun t k _ => hdue t k⟩

/-- A producer's call leaves the passes to come as they were. -/
theorem Within.call (h : Within s n b) (hi : Inv cfg s) (hn : n ≤ s.trace.length)
    (hf : Fires cfg s e s') (he : e.calls = 1) : Within s' n b := by
  obtain ⟨hhandles, hpc, hrecords⟩ := hf.of_producer he
  have hdue : ∀ t, Due s t → Due s' t := by
    rintro t ⟨k, hd, hk, hsink, hcomes⟩
    exact ⟨k, hd, hhandles ▸ hk, hsink, hpc ▸ hcomes⟩
  rcases hrecords with hsame | hmore
  · exact h.same hsame fun t _ => hdue t
  · exact h.oneMore hi hmore hn hdue

theorem Within.fires (h : Within s n b) (hi : Inv cfg s) (hn : n ≤ s.trace.length)
    (hf : Fires cfg s e s') : Within s' n (b - e.begins) := by
  cases e with
  | consume now =>
    rcases hf.of_consume with hgoes | ⟨hd, fr, frs, hexec⟩
    · exact h.same hgoes.same hgoes.due
    · exact h.oneLess hi hexec
  | runOnce requests =>
    cases hf with
    | register _ _ _ _ he => cases he
    | runOnce hpc => exact h.begin hi hpc (.of_sinks rfl rfl) rfl rfl
  | _ => exact h.call hi hn hf rfl

/-! ## Runs -/

/-- How many records have not been executed. -/
def State.outstanding (s : State V) : Nat := s.backlog s.trace.length

/-- The passes a run begins. -/
def passes (es : List (Event V)) : Nat := (es.map Event.begins).sum

/-- Every event is of one of the three kinds. -/
theorem length_eq_sum (es : List (Event V)) :
    es.length = (es.map Event.steps).sum + passes es + (es.map Event.calls).sum := by
  unfold passes
  induction es with
  | nil => rfl
  | cons e es ih =>
    simp only [List.length_cons, List.map_cons, List.sum_cons]
    have hone : e.steps + e.begins + e.calls = 1 := by cases e <;> rfl
    omega

/-- How many records sink `i` has committed after the first `n`. -/
def State.committedAfter (s : State V) (i n : Nat) : Nat :=
  (s.trace.drop n).countP fun c => c.sink = i

theorem length_sentAfter (s : State V) (i n : Nat) :
    (s.registry.sentAfter i n).length = s.committedAfter i n := by
  show (saidOf i ((s.trace.map fun c => (c.sink, message c.executed)).drop n)).length = _
  rw [saidOf, List.length_map, ← List.countP_eq_length_filter, List.map_drop.symm, List.countP_map]
  rfl

theorem Inv.length_unread_le (h : Inv cfg s) (hzero : s.backlog n = 0) (i : Nat) :
    (s.sinks i).unread.length ≤ s.committedAfter i n := by
  rw [← length_sentAfter]
  refine Nat.le_trans (Nat.le_of_eq ?_) (h.founded.length_queue_le hzero i)
  exact (List.length_map _).symm

/-! ## The steps a pass takes -/

/-- What the consumer has to do in this pass, in steps: four for each record, and two for
each handle. -/
def State.work (s : State V) : Nat := 4 * s.outstanding + s.pc.weight s.handles.length

theorem length_sent (s : State V) : s.registry.sent.length = s.trace.length := List.length_map _

theorem SameRecords.outstanding (h : SameRecords s s') : s'.outstanding = s.outstanding := by
  unfold State.outstanding
  rw [h.backlog, ← length_sent, ← length_sent, h.2]

theorem OneMore.outstanding (h : OneMore s s') : s'.outstanding = s.outstanding + 1 := by
  obtain ⟨i, m, hqueue, hsent⟩ := h
  have hwaits : ∀ k, s'.registry.Waits k ↔ (s.registry.push i m).Waits k := by
    intro k
    unfold Registry.Waits Registry.sentAfter
    rw [hqueue, hsent]
  have hlen : s'.trace.length = s.registry.sent.length + 1 := by
    rw [← length_sent, hsent]
    exact List.length_append
  have hlast : s'.registry.Waits s.registry.sent.length := (hwaits _).mpr Registry.waits_push_last
  have hrest : s'.registry.backlog s.registry.sent.length =
      s.registry.backlog s.registry.sent.length := by
    rw [← Registry.backlog_push (i := i) (m := m) (Nat.le_refl _)]
    exact Nat.le_antisymm (Nat.count_mono_left fun k _ => (hwaits k).mp)
      (Nat.count_mono_left fun k _ => (hwaits k).mpr)
  show s'.registry.backlog s'.trace.length = s.registry.backlog s.trace.length + 1
  rw [hlen, ← length_sent, Registry.backlog, Nat.count_succ, if_pos hlast]
  exact congrArg (· + 1) hrest

theorem Executes.outstanding {hd : Handle} {fr : Frame Statement V Command}
    {frs : List (Frame Statement V Command)} (h : Executes s s' hd fr frs) (hi : Inv cfg s) :
    s.outstanding = s'.outstanding + 1 := by
  obtain ⟨l, hl, hwaits⟩ := h.waits_iff hi
  have hlen : s'.trace.length = s.trace.length := by
    rw [← length_sent, ← length_sent, h.less.2]
  have hlt : l < s.trace.length := length_sent s ▸ (List.getElem?_eq_some_iff.mp hl.sent).1
  have hcount := Registry.count_remove hwaits hl.waits s.trace.length
  rw [if_pos hlt] at hcount
  unfold State.outstanding
  rw [hlen]
  exact hcount

/-- A step of a pass does some of the work. -/
theorem Fires.work_consume {now : List UInt8} (hf : Fires cfg s (.consume now) s')
    (hi : Inv cfg s) :
    s'.work < s.work ∧ s'.outstanding + s'.handles.length ≤ s.outstanding + s.handles.length := by
  unfold State.work
  rcases hf.of_consume with hgoes | ⟨hd, fr, frs, hexec⟩
  · have hweight := hgoes.weight
    have hhandles := hgoes.handles
    rw [hgoes.same.outstanding]
    omega
  · have hweight := hexec.weight
    have hhandles := hexec.handles
    rw [hexec.outstanding hi]
    omega

/-- A producer's call adds a record's work at most. -/
theorem Fires.work_call (hf : Fires cfg s e s') (he : e.calls = 1) :
    s'.work ≤ s.work + 4 := by
  obtain ⟨hhandles, hpc, hrecords⟩ := hf.of_producer he
  unfold State.work
  rw [hhandles, hpc]
  rcases hrecords with hsame | hmore
  · rw [hsame.outstanding]
    exact Nat.le_add_right _ _
  · rw [hmore.outstanding]
    omega

/-- The beginning of a pass adds the work of going through the handles. -/
theorem Fires.work_runOnce {requests : List Request} (hf : Fires cfg s (.runOnce requests) s') :
    s'.work ≤ s.work + (2 * s.handles.length + 1) ∧ s'.outstanding = s.outstanding ∧
      s'.handles = s.handles := by
  cases hf with
  | register _ _ _ _ he => cases he
  | @runOnce _ buf hpc =>
    have hsame : SameRecords s { s with buf := buf, pc := .visit 0, ts := none } :=
      .of_sinks rfl rfl
    refine ⟨?_, hsame.outstanding, rfl⟩
    unfold State.work
    rw [hsame.outstanding, hpc]
    exact Nat.le_of_eq (by simp [Pc.weight])

/-- The consumer commits nothing. -/
theorem Fires.sent_consumer (hf : Fires cfg s e s') (he : e.calls = 0) :
    s'.registry.sent = s.registry.sent := by
  cases e with
  | consume now =>
    rcases hf.of_consume with hgoes | ⟨hd, fr, frs, hexec⟩
    · exact hgoes.same.2
    · exact hexec.less.2
  | runOnce requests =>
    cases hf with
    | register _ _ _ _ he => cases he
    | runOnce => rfl
  | _ => cases he

/-- What an event does is paid for: a step of a pass by the work that was there. -/
theorem Fires.work (hf : Fires cfg s e s') (hi : Inv cfg s) (hn : s.handles.length ≤ n) :
    e.steps + s'.work ≤ s.work + (4 * e.calls + (2 * n + 1) * e.begins) := by
  cases e with
  | consume now =>
    have hwork := (hf.work_consume hi).1
    simp only [Event.steps, Event.calls, Event.begins]
    omega
  | runOnce requests =>
    have hwork := hf.work_runOnce.1
    simp only [Event.steps, Event.calls, Event.begins]
    omega
  | _ =>
    have hwork := hf.work_call rfl
    simp only [Event.steps, Event.calls, Event.begins]
    omega

/-! ## Calls that wait -/

theorem Sink.Ok.notified_of_empty {k : Sink V} (h : k.Ok) (hcall : k.call ≠ .none)
    (hnil : k.unread = []) : k.notified = true := by
  obtain ⟨pre, heq, -⟩ := h.queue
  rw [hnil, List.map_nil] at heq
  have hawaited : k.awaited = [] := List.map_eq_nil_iff.mp (List.append_eq_nil_iff.mp heq.symm).2
  cases hnot : k.notified with
  | true => rfl
  | false =>
    cases hc : k.call with
    | none => exact absurd hc hcall
    | closing | syncing => simp [Sink.awaited, hc, hnot] at hawaited

/-- A call that waits goes on waiting until it returns. -/
theorem Fires.keeps_call (hf : Fires cfg s e s') (hcall : (s.sinks i).call ≠ .none)
    (hclose : e ≠ .closeReturn i) (hsync : e ≠ .syncReturn i) : (s'.sinks i).call ≠ .none := by
  cases hf with
  | dropped | log | setName | release | reportDropped =>
    exact update_keeps (·.call ≠ .none) hcall id
  | register hne =>
    refine update_keeps (·.call ≠ .none) (update_keeps (·.call ≠ .none) hcall id) fun h hnone => ?_
    exact h ((congrArg Sink.call (Function.update_of_ne hne _ s.sinks)).trans hnone)
  | close | sync =>
    exact update_keeps (·.call ≠ .none) (update_keeps (·.call ≠ .none) hcall id) fun _ => nofun
  | @closeReturn j =>
    have hij : i ≠ j := fun hij => hclose (hij ▸ rfl)
    rw [setSink_of_ne _ _ hij]
    exact hcall
  | @syncReturn j =>
    have hij : i ≠ j := fun hij => hsync (hij ▸ rfl)
    rw [setSink_of_ne _ _ hij]
    exact hcall
  | runOnce | visit | remove | report => exact hcall
  | endPass =>
    rw [endPass_sinks]
    exact hcall
  | visitEmpty =>
    show ((Logger.visitEmpty s).sinks i).call ≠ .none
    rw [visitEmpty_sinks]
    exact hcall
  | @execute n _ _ _ h fr frs =>
    show ((Logger.execute cfg (s.taken h frs) n h fr.invocation).sinks i).call ≠ .none
    obtain ⟨live, notified, hsinks, -⟩ := execute_sinks cfg s n h frs fr.invocation
    rw [hsinks]
    exact update_keeps (·.call ≠ .none) hcall id

/-- While a call waits, its sink commits nothing. -/
theorem Fires.committedAfter (hf : Fires cfg s e s') (hcall : (s.sinks i).call ≠ .none)
    (hn : n ≤ s.trace.length) : s'.committedAfter i n = s.committedAfter i n := by
  unfold State.committedAfter
  rcases hf.trace with heq | ⟨c, heq, hready⟩
  · rw [heq]
  · have hne : c.sink ≠ i := by
      rintro rfl
      simp [Sink.ready, hcall] at hready
    rw [heq, List.drop_append_of_le_length hn, List.countP_append]
    simp [hne]

section Runs
variable [DecidableEq V] {es : List (Event V)}

theorem Inv.fired (h : Inv cfg s) (hs : Logger.step cfg s e = some s') : Fires cfg s e s' :=
  fires_of_step h.rings h.indexed h.live h.destroyLast hs

/-- The records there are when the passes are counted. -/
def Counted (cfg : Config V) (n : Nat) (s : State V) (b : Nat) : Prop :=
  Inv cfg s ∧ n ≤ s.trace.length ∧ Within s n b

theorem Counted.step (h : Counted cfg n s b) (hs : Logger.step cfg s e = some s') :
    Counted cfg n s' (b - e.begins) := by
  obtain ⟨hi, hn, hwithin⟩ := h
  have hf := hi.fired hs
  refine ⟨hi.step hs, ?_, hwithin.fires hi hn hf⟩
  rcases hf.trace with heq | ⟨c, heq, -⟩
  · exact heq ▸ hn
  · rw [heq, List.length_append]
    exact Nat.le_add_right_of_le hn

theorem backlog_run (h : Inv cfg s) (hr : (machine cfg).run s es = some s')
    (hpasses : s.outstanding < passes es) : Inv cfg s' ∧ s'.backlog s.trace.length = 0 := by
  have hstart : Counted cfg s.trace.length s (s.outstanding + 1) :=
    ⟨h, Nat.le_refl _, .inl (Nat.lt_succ_self _)⟩
  obtain ⟨hi', -, hwithin⟩ := Machine.run_countdown hr hstart fun _ _ _ _ hc hs => hc.step hs
  have hzero : s.outstanding + 1 - (es.map Event.begins).sum = 0 :=
    Nat.sub_eq_zero_of_le hpasses
  rw [hzero] at hwithin
  rcases hwithin with hlt | ⟨heq, -⟩
  · exact absurd hlt (Nat.not_lt_zero _)
  · exact ⟨hi', heq⟩

/-- **No record is left behind.**  In every run, whatever the producers do meanwhile: when
more passes have begun than records were outstanding, each of these has been executed, and
what is still unread in a sink was committed in the run. -/
theorem no_record_left_behind (h : (machine cfg).Reachable s)
    (hr : (machine cfg).run s es = some s') (hpasses : s.outstanding < passes es) (i : Nat) :
    (s'.sinks i).unread.length ≤ s'.committedAfter i s.trace.length := by
  obtain ⟨hi', hzero⟩ := backlog_run (.of_reachable h) hr hpasses
  exact hi'.length_unread_le hzero i

/-- **Nobody waits for ever.**  In every run, whatever the other producers do: a thread that
waits in `close` or `sync` has been notified, or has returned, when more passes have begun
than records were outstanding. -/
theorem no_call_left_waiting (h : (machine cfg).Reachable s)
    (hr : (machine cfg).run s es = some s') (hpasses : s.outstanding < passes es)
    (hcall : (s.sinks i).call ≠ .none)
    (hstays : ∀ e ∈ es, e ≠ .closeReturn i ∧ e ≠ .syncReturn i) :
    (s'.sinks i).call ≠ .none ∧ (s'.sinks i).notified = true := by
  obtain ⟨hi', hzero⟩ := backlog_run (.of_reachable h) hr hpasses
  have hnone : s.committedAfter i s.trace.length = 0 := by
    unfold State.committedAfter
    rw [List.drop_length]
    rfl
  have hkeep : Inv cfg s' ∧ s.trace.length ≤ s'.trace.length ∧ (s'.sinks i).call ≠ .none ∧
      s'.committedAfter i s.trace.length = 0 := by
    refine Machine.run_keeps (fun t => Inv cfg t ∧ s.trace.length ≤ t.trace.length ∧
      (t.sinks i).call ≠ .none ∧ t.committedAfter i s.trace.length = 0) hr
      ⟨.of_reachable h, Nat.le_refl _, hcall, hnone⟩ ?_
    rintro e he t t' ⟨hi, hn, hcall, hnone⟩ hs
    have hf := hi.fired hs
    obtain ⟨hclose, hsync⟩ := hstays e he
    refine ⟨hi.step hs, ?_, hf.keeps_call hcall hclose hsync,
      (hf.committedAfter hcall hn).trans hnone⟩
    rcases hf.trace with heq | ⟨c, heq, -⟩
    · exact heq ▸ hn
    · rw [heq, List.length_append]
      exact Nat.le_add_right_of_le hn
  obtain ⟨-, -, hcall', hnone'⟩ := hkeep
  have hempty : (s'.sinks i).unread = [] :=
    List.eq_nil_of_length_eq_zero (Nat.le_zero.mp (hnone' ▸ hi'.length_unread_le hzero i))
  exact ⟨hcall', (hi'.sinks i).notified_of_empty hcall' hempty⟩

/-! ### The consumer's steps -/

/-- **A pass ends**, whatever is committed meanwhile: its steps are bounded by the records
that are outstanding, the handles there are, and the calls the producers make. -/
theorem pass_bounded (h : (machine cfg).Reachable s) (hr : (machine cfg).run s es = some s')
    (hpass : passes es = 0) :
    (es.map Event.steps).sum ≤
      4 * s.outstanding + 2 * s.handles.length + 1 + 4 * (es.map Event.calls).sum := by
  have hnone : ∀ e ∈ es, e.begins = 0 := fun e he =>
    List.sum_eq_zero_iff_forall_eq_nat.mp hpass _ (List.mem_map_of_mem he)
  obtain ⟨-, hrun⟩ := Machine.run_amortized (Inv cfg) State.work Event.steps (4 * ·.calls) hr
    (.of_reachable h) fun e he t t' hi hs => by
      have hwork := (hi.fired hs).work hi (Nat.le_refl _)
      rw [hnone e he, Nat.mul_zero, Nat.add_zero] at hwork
      exact ⟨hi.step hs, hwork⟩
  have hweight : s.pc.weight s.handles.length ≤ 2 * s.handles.length + 1 := by
    cases s.pc <;> simp only [Pc.weight] <;> omega
  rw [List.sum_map_mul_left] at hrun
  unfold State.work at hrun
  omega

/-- While the logger is not stopped, the consumer can go on. -/
theorem Inv.consumer_moves (h : Inv cfg s) (hpc : s.pc ≠ .stopped) :
    ∃ e s', e.calls = 0 ∧ Logger.step cfg s e = some s' := by
  cases hc : s.pc with
  | top => exact ⟨.runOnce [], _, rfl, if_pos hc⟩
  | visit | batch | finish | report =>
    refine ⟨.consume [], ?_⟩
    simp only [Logger.step, hc]
    exact ⟨_, rfl, rfl⟩
  | stopped => exact absurd hc hpc
  | fault =>
    have hidx := h.indexed
    rw [Indexed, hc] at hidx
    exact hidx.elim

/-- A number of events that is enough for the consumer, on its own, to execute everything. -/
def State.drainTime (s : State V) : Nat :=
  s.work + (2 * (s.outstanding + s.handles.length) + 2) * s.outstanding

/-- The consumer's run on its own: what it costs, and that nothing is committed. -/
theorem Inv.alone (h : Inv cfg s) (hr : (machine cfg).run s es = some s')
    (hnone : ∀ e ∈ es, e.calls = 0) : s'.registry.sent = s.registry.sent ∧
      (es.map Event.steps).sum ≤
        s.work + (2 * (s.outstanding + s.handles.length) + 1) * passes es := by
  obtain ⟨⟨-, hsent, -⟩, hrun⟩ := Machine.run_amortized
    (fun t => Inv cfg t ∧ t.registry.sent = s.registry.sent ∧
      t.outstanding + t.handles.length ≤ s.outstanding + s.handles.length)
    State.work Event.steps ((2 * (s.outstanding + s.handles.length) + 1) * ·.begins) hr
    ⟨h, rfl, Nat.le_refl _⟩ fun e he t t' ⟨hi, hsent, hle⟩ hs => by
      have hf := hi.fired hs
      have hwork := hf.work hi (Nat.le_trans (Nat.le_add_left _ _) hle)
      rw [hnone e he, Nat.mul_zero, Nat.zero_add] at hwork
      refine ⟨⟨hi.step hs, (hf.sent_consumer (hnone e he)).trans hsent, ?_⟩, hwork⟩
      cases e with
      | consume now => exact Nat.le_trans (hf.work_consume hi).2 hle
      | runOnce requests =>
        obtain ⟨-, houtstanding, hhandles⟩ := hf.work_runOnce
        rw [houtstanding, hhandles]
        exact hle
      | _ => cases hnone _ he
  rw [List.sum_map_mul_left] at hrun
  exact ⟨hsent, Nat.le_trans (Nat.le_add_right _ _) hrun⟩

/-- **Left alone, the consumer drains the logger.**  From every state, and in whatever way
its thread goes on while the producers pause: it can always go on, unless `run_once` has
returned false; and after so many events, or when `run_once` has returned false, every
record is executed and every thread that waits is notified. -/
theorem consumer_drains (h : (machine cfg).Reachable s) (hr : (machine cfg).run s es = some s')
    (halone : (es.map Event.calls).sum = 0) :
    (s'.pc ≠ .stopped → ∃ e s'', e.calls = 0 ∧ step cfg s' e = some s'') ∧
      (s'.pc = .stopped ∨ s.drainTime < es.length → ∀ i, (s'.sinks i).unread = [] ∧
        ((s'.sinks i).call ≠ .none → (s'.sinks i).notified = true)) := by
  have hnone : ∀ e ∈ es, e.calls = 0 := fun e he =>
    List.sum_eq_zero_iff_forall_eq_nat.mp halone _ (List.mem_map_of_mem he)
  have hi := Inv.of_reachable h
  have hi' := Inv.of_reachable (h.run hr)
  have hdrained : s'.pc = .stopped ∨ s.drainTime < es.length → ∀ i, (s'.sinks i).unread = [] := by
    rintro (hpc | hlong) i
    · exact (hi'.stopped hpc i).2
    · obtain ⟨hsent, hsteps⟩ := hi.alone hr hnone
      -- in so many events there are enough passes
      have hpasses : s.outstanding < passes es := by
        have hlen := length_eq_sum es
        by_contra hfew
        have hmul := Nat.mul_le_mul_left (2 * (s.outstanding + s.handles.length) + 1)
          (Nat.le_of_not_lt hfew)
        unfold State.drainTime at hlong
        have hsplit : (2 * (s.outstanding + s.handles.length) + 2) * s.outstanding =
            (2 * (s.outstanding + s.handles.length) + 1) * s.outstanding + s.outstanding :=
          Nat.succ_mul _ _
        omega
      obtain ⟨-, hzero⟩ := backlog_run hi hr hpasses
      have hlen : s'.trace.length = s.trace.length := by
        rw [← length_sent, ← length_sent, hsent]
      have hnew : s'.committedAfter i s.trace.length = 0 := by
        rw [State.committedAfter, ← hlen, List.drop_length]
        rfl
      exact List.eq_nil_of_length_eq_zero (Nat.le_zero.mp (hnew ▸ hi'.length_unread_le hzero i))
  exact ⟨hi'.consumer_moves, fun hend i =>
    ⟨hdrained hend i, fun hcall => (hi'.sinks i).notified_of_empty hcall (hdrained hend i)⟩⟩

end Runs

/-! ## A chain of copies -/

/-- Sink `1` is registered and copied, and the copy logs and waits in `sync`. -/
def chained : List (Event UInt8) :=
  [.registerSink 1 [65] [], .copy 2 1 [],
    .log 2 ⟨false, false⟩ namedLine [.value ⟨1, 1, hasSingleBit_1⟩ 120] [], .sync 2 []]

/-- A pass of `n` steps. -/
def aPass (n : Nat) : List (Event UInt8) := .runOnce [] :: List.replicate n (.consume [])

/-- The pass that executes all that, and `n` empty ones. -/
def somePasses (n : Nat) : List (Event UInt8) := aPass 14 ++ (List.replicate n (aPass 4)).flatten

/-- The four records are executed, and the one that is left was committed meanwhile. -/
theorem no_record_left_behind_chained : ∃ s s', (machine small).Reachable s ∧
    s.outstanding = 4 ∧ (machine small).run s (somePasses 4 ++ [.setName 1 [66] []]) = some s' ∧
    (s'.sinks 1).unread.length = 1 ∧
    (s'.sinks 1).unread.length ≤ s'.committedAfter 1 s.trace.length := by
  have hrun : ((machine small).run (initial small fun _ _ => .byte 0) chained).any (fun s =>
      ((machine small).run s (somePasses 4 ++ [.setName 1 [66] []])).any fun s' =>
        s.outstanding = 4 && (s'.sinks 1).unread.length = 1) = true := by
    decide +kernel
  obtain ⟨s, s', hreach, hs, heq⟩ := Machine.exists_reachable_run hrun ⟨_, rfl⟩
  obtain ⟨hfour, hone⟩ := (Bool.and_eq_true_iff ..).mp heq
  have hfour : s.outstanding = 4 := of_decide_eq_true hfour
  have hfive : passes (somePasses 4 ++ [.setName 1 [66] []]) = 5 := by decide
  exact ⟨s, s', hreach, hfour, hs, of_decide_eq_true hone,
    no_record_left_behind hreach hs (by omega) 1⟩

/-- The copy's thread is notified. -/
theorem no_call_left_waiting_chained : ∃ s s', (machine small).Reachable s ∧
    (s.sinks 2).notified = false ∧ (machine small).run s (somePasses 4) = some s' ∧
    (s'.sinks 2).call ≠ .none ∧ (s'.sinks 2).notified = true := by
  have hrun : ((machine small).run (initial small fun _ _ => .byte 0) chained).any (fun s =>
      ((machine small).run s (somePasses 4)).any fun _ =>
        s.outstanding = 4 && (s.sinks 2).call = .syncing && (s.sinks 2).notified = false) =
        true := by
    decide +kernel
  obtain ⟨s, s', hreach, hs, heq⟩ := Machine.exists_reachable_run hrun ⟨_, rfl⟩
  simp only [Bool.and_eq_true, decide_eq_true_eq] at heq
  obtain ⟨⟨hfour, hcall⟩, hnot⟩ := heq
  have hfive : passes (somePasses 4) = 5 := by decide
  have hne : (s.sinks 2).call ≠ .none := by simp [hcall]
  exact ⟨s, s', hreach, hnot, hs,
    no_call_left_waiting hreach hs (by omega) hne (by simp [somePasses, aPass])⟩

/-- A record is committed in the middle of the pass, to a sink that the consumer comes to
later. -/
theorem pass_bounded_chained : ∃ s s', (machine small).Reachable s ∧
    (machine small).run s (List.replicate 4 (.consume []) ++ [.setName 1 [66] []] ++
      List.replicate 11 (.consume [])) = some s' ∧
        15 ≤ 4 * s.outstanding + 2 * s.handles.length + 5 := by
  have hrun : ((machine small).run (initial small fun _ _ => .byte 0)
      (chained ++ [.runOnce []])).any (fun s => ((machine small).run s
        (List.replicate 4 (.consume []) ++ [.setName 1 [66] []] ++
          List.replicate 11 (.consume []))).any fun _ => true) = true := by
    decide +kernel
  obtain ⟨s, s', hreach, hs, -⟩ := Machine.exists_reachable_run hrun ⟨_, rfl⟩
  exact ⟨s, s', hreach, hs, pass_bounded hreach hs (by decide)⟩

/-- More than enough passes. -/
theorem consumer_drains_chained : ∃ s s', (machine small).Reachable s ∧
    (s.sinks 2).unread.length = 2 ∧ (machine small).run s (somePasses 10) = some s' ∧
    ∀ i, (s'.sinks i).unread = [] ∧ ((s'.sinks i).call ≠ .none → (s'.sinks i).notified = true) := by
  have hrun : ((machine small).run (initial small fun _ _ => .byte 0) chained).any (fun s =>
      ((machine small).run s (somePasses 10)).any fun _ =>
        (s.sinks 2).unread.length = 2 && s.drainTime = 64) = true := by
    decide +kernel
  obtain ⟨s, s', hreach, hs, heq⟩ := Machine.exists_reachable_run hrun ⟨_, rfl⟩
  obtain ⟨htwo, htime⟩ := (Bool.and_eq_true_iff ..).mp heq
  have htime : s.drainTime = 64 := of_decide_eq_true htime
  have hlen : (somePasses 10).length = 65 := by decide
  exact ⟨s, s', hreach, of_decide_eq_true htwo, hs,
    (consumer_drains hreach hs (by decide)).2 (.inr (by omega))⟩

end Xtr.Logger
