import Xtr.LoggerRegistry

/-!
# Which sinks the consumer knows

The invariant of the logger is kept by every event (`Inv.step`): the rings hold the
records that are not yet executed, and the registry is one that can be reached.  So a
sink whose close request has not been executed is represented exactly once, and no other
is; the consumer never follows a pointer to a sink that is closed, and stops only when
all of them are.
-/
namespace Xtr.Logger
variable {V : Type} {cfg : Config V} {s s' : State V} {i : Nat}

/-! ## The rings -/

/-- Only what concerns sink `i` has changed. -/
theorem Rings.change (hr : Rings cfg s) (hother : ∀ j, j ≠ i → s'.sinks j = s.sinks j)
    (hreading : ∀ j, j ≠ i → ∀ span pos,
      s'.reading = some (j, span, pos) ↔ s.reading = some (j, span, pos))
    (hi : ∃ W R P, RingOk cfg i (s'.sinks i) s'.reading W R P) : Rings cfg s' := by
  intro j
  by_cases hj : j = i
  · exact hj ▸ hi
  · obtain ⟨W, R, P, hok⟩ := hr j
    rw [hother j hj]
    refine ⟨W, R, P, hok.queue, hok.sizing, fun hk hnot => hok.resting hk fun span pos h => ?_,
      fun span pos h => hok.reading span pos ((hreading j hj span pos).mp h)⟩
    exact hnot span pos ((hreading j hj span pos).mpr h)

theorem Rings.setSink (hr : Rings cfg s) {k : Sink V}
    (hk : ∃ W R P, RingOk cfg i k s.reading W R P) : Rings cfg (s.setSink i k) := by
  refine hr.change (fun j hj => setSink_of_ne s k hj) (fun _ _ _ _ => Iff.rfl) ?_
  rw [setSink_self]
  exact hk

/-- The ring and the records of a sink are as they were. -/
theorem Rings.keep (hr : Rings cfg s) {k : Sink V} (hring : k.ring = (s.sinks i).ring)
    (hunread : k.unread = (s.sinks i).unread)
    (hlive : k.live = true ∨ k.isOpen = false →
      (s.sinks i).live = true ∨ (s.sinks i).isOpen = false) : Rings cfg (s.setSink i k) := by
  obtain ⟨W, R, P, hok⟩ := hr i
  refine hr.setSink ⟨W, R, P, ?_, hring ▸ hok.sizing, fun hk => hok.resting (hlive hk), ?_⟩
  · rw [hring, hunread]
    exact hok.queue
  · rw [hring]
    exact hok.reading

theorem Rings.congr (hr : Rings cfg s) (hsinks : s'.sinks = s.sinks)
    (hreading : s'.reading = s.reading) : Rings cfg s' := by
  intro j
  rw [hsinks, hreading]
  exact hr j

theorem Rings.commit (hr : Rings cfg s) {posted : Statement × List (Arg V) ⊕ Command}
    {ring : Ring V} {fr : Frame Statement V Command} (ht : Takes cfg s i ring fr) :
    Rings cfg (s.commit i posted ring fr) := by
  obtain ⟨W, R, P, hok⟩ := hr i
  refine (hr.setSink (i := i) (k := { s.sinks i with
    ring := ring, unread := (s.sinks i).unread ++ [fr] }) ⟨W + fr.size, R, P, ht.2 W R P hok.queue,
      ht.1.trans hok.sizing, hok.resting, fun span pos h => ?_⟩).congr rfl rfl
  exact (hok.reading span pos h).congr ht.1 (Nat.le_add_right W fr.size)

/-- The consumer starts reading the sink at `i`. -/
theorem Rings.visit (hr : Rings cfg s) {h : Handle} {span : Span} {ts : Option (List UInt8)}
    (hpc : s.pc = .visit i) (hget : s.handles[i]? = some h) (hlive : (s.sinks h.sink).live = true)
    (hspan : span = (s.sinks h.sink).ring.readSpan) :
    Rings cfg { s with
      destroy := false, ts := ts, pc := .batch i span (cfg.base h.sink + span.begin) } := by
  have hnone : s.reading = none := by simp [State.reading, hpc]
  have hsome : State.reading { s with
      destroy := false, ts := ts, pc := .batch i span (cfg.base h.sink + span.begin) } =
      some (h.sink, span, cfg.base h.sink + span.begin) := by
    simp [State.reading, hget]
  refine hr.change (i := h.sink) (fun _ _ => rfl) (fun j hj sp p => ?_) ?_
  · rw [hsome, hnone]
    simp [Ne.symm hj]
  · obtain ⟨W, R, P, hok⟩ := hr h.sink
    obtain rfl : P = R := hok.resting (.inl hlive) fun sp p => by simp [hnone]
    refine ⟨W, P, P, hok.queue, hok.sizing, fun _ hnot => absurd hsome (hnot _ _), fun sp p h => ?_⟩
    rw [hsome] at h
    cases h
    rw [hspan]
    exact hok.queue.reading_start

/-- The records that were executed are released. -/
theorem Rings.release (hr : Rings cfg s) {h : Handle} {span : Span} {pos : Nat} {b : Bool}
    (hpc : s.pc = .finish i span pos) (hdes : s.destroy = false) (hget : s.handles[i]? = some h) :
    Rings cfg { s.setSink h.sink { s.sinks h.sink with
        ring := (s.sinks h.sink).ring.reduceReadable (pos - (cfg.base h.sink + span.begin)) } with
      pc := .report i b } := by
  have hsome : s.reading = some (h.sink, span, pos) := by simp [State.reading, hpc, hdes, hget]
  refine hr.change (i := h.sink) (fun j hj => setSink_of_ne s _ hj) (fun j hj sp p => ?_) ?_
  · rw [hsome]
    simp [State.reading, Ne.symm hj]
  · obtain ⟨W, R, P, hok⟩ := hr h.sink
    obtain ⟨hbegin, -, hpos⟩ := hok.reading span pos hsome
    have hread := hok.queue.read_le
    have hsize : pos - (cfg.base h.sink + span.begin) = P - R := by omega
    show ∃ W R P, RingOk cfg h.sink ((s.setSink h.sink _).sinks h.sink) none W R P
    rw [setSink_self, hsize]
    exact ⟨W, P, P, hok.queue.release, hok.sizing, fun _ _ => rfl, fun _ _ h => by cases h⟩

/-! ### One record -/

section Execute
variable {h : Handle} {fr : Frame Statement V Command} {frs : List (Frame Statement V Command)}
  {pc : Pc} {e : Executed V}

/-- What executing a record does to the sink it came from. -/
theorem execute_sinks (cfg : Config V) (s : State V) (i : Nat) (h : Handle)
    (frs : List (Frame Statement V Command)) (e : Executed V) :
    ∃ live notified, (execute cfg (s.taken h frs) i h e).sinks = (s.setSink h.sink
        { s.sinks h.sink with unread := frs, live := live, notified := notified }).sinks ∧
      (e = .command .destroy → live = false) := by
  cases e with
  | print st args => exact ⟨_, _, rfl, fun he => by cases he⟩
  | command c =>
    cases c with
    | addSink t name | setName name => exact ⟨_, _, rfl, fun he => by cases he⟩
    | destroy =>
      refine ⟨false, true, ?_, fun _ => rfl⟩
      show ((s.taken h frs).setSink h.sink _).sinks = _
      rw [State.taken, setSink_setSink, setSink_self]
    | sync =>
      refine ⟨(s.sinks h.sink).live, true, ?_, fun he => by cases he⟩
      show ((s.taken h frs).setSink h.sink _).sinks = _
      rw [State.taken, setSink_setSink, setSink_self]

/-- The handle that is being visited stays where it is. -/
theorem execute_get (cfg : Config V) (frs : List (Frame Statement V Command))
    (hget : s.handles[i]? = some h) (e : Executed V) :
    ∃ h', (execute cfg (s.taken h frs) i h e).handles[i]? = some h' ∧ h'.sink = h.sink := by
  obtain ⟨hi, -⟩ := List.getElem?_eq_some_iff.mp hget
  cases e with
  | print st args => exact ⟨h, hget, rfl⟩
  | command c =>
    cases c with
    | addSink t name => exact ⟨h, (List.getElem?_append_left hi).trans hget, rfl⟩
    | setName name => exact ⟨_, List.getElem?_set_self hi, rfl⟩
    | destroy | sync => exact ⟨h, hget, rfl⟩

theorem execute_destroy (cfg : Config V) (s : State V) (i : Nat) (h : Handle)
    (hne : e ≠ .command .destroy) :
    (execute cfg s i h e).destroy = s.destroy := by
  cases e with
  | print st args => rfl
  | command c =>
    cases c with
    | destroy => exact absurd rfl hne
    | addSink t name | setName name | sync => rfl

/-- The records behind the one that is executed. -/
theorem RingOk.advance {k : Sink V} {reading reading' : Option (Nat × Span × Nat)} {W R P : Nat}
    {live notified : Bool} (hok : RingOk cfg i k reading W R P) (hun : k.unread = fr :: frs)
    (hrest : live = true ∨ k.isOpen = false →
      ∃ span pos, reading' = some (i, span, pos) ∧ reading = some (i, span, pos - fr.size))
    (hread : ∀ span pos, reading' = some (i, span, pos) →
      fr.size ≤ pos ∧ reading = some (i, span, pos - fr.size)) :
    RingOk cfg i { k with unread := frs, live := live, notified := notified } reading' W R
      (P + fr.size) := by
  have hq := hok.queue
  have hle := hq.read_le
  rw [hun] at hq
  refine ⟨hq.advance, hok.sizing, fun hk hnot => ?_, fun span pos h => ?_⟩
  · obtain ⟨span, pos, h, -⟩ := hrest hk
    exact absurd h (hnot span pos)
  · obtain ⟨hpos, h⟩ := hread span pos h
    have hadv := (hok.reading span _ h).advance (n := fr.size) hle
    rw [Nat.sub_add_cancel hpos] at hadv
    exact hadv.congr rfl (Nat.le_refl W)

/-- A record is executed: the consumer's position moves past it. -/
theorem Rings.executed {span : Span} {pos : Nat} (hr : Rings cfg s) (hok : (s.sinks h.sink).Ok)
    (hat : AtRecord s i h fr frs) (hpc : s.pc = .batch i span pos)
    (hpc' : fr.invocation ≠ .command .destroy ∧ pc = .batch i span (pos + fr.size) ∨
      pc = .finish i span (pos + fr.size)) :
    Rings cfg { execute cfg (s.taken h frs) i h fr.invocation with pc := pc } := by
  obtain ⟨live, notified, hsinks, hlive⟩ := execute_sinks cfg s i h frs fr.invocation
  obtain ⟨h', hget', hsink'⟩ := execute_get cfg frs hat.get fr.invocation
  obtain ⟨W, R, P, hring⟩ := hr h.sink
  have hsome : s.reading = some (h.sink, span, pos) := by simp [State.reading, hpc, hat.get]
  have hself : State.sinks { execute cfg (s.taken h frs) i h fr.invocation with pc := pc } h.sink =
      { s.sinks h.sink with unread := frs, live := live, notified := notified } := by
    show (execute cfg (s.taken h frs) i h fr.invocation).sinks h.sink = _
    rw [hsinks, setSink_self]
  have hother : ∀ j, j ≠ h.sink →
      State.sinks { execute cfg (s.taken h frs) i h fr.invocation with pc := pc } j =
        s.sinks j := by
    intro j hj
    show (execute cfg (s.taken h frs) i h fr.invocation).sinks j = _
    rw [hsinks, setSink_of_ne _ _ hj]
  -- the consumer stays at this sink unless the record was its close request
  have hreading : State.reading { execute cfg (s.taken h frs) i h fr.invocation with pc := pc } =
        some (h.sink, span, pos + fr.size) ∨
      State.reading { execute cfg (s.taken h frs) i h fr.invocation with pc := pc } = none ∧
        fr.invocation = .command .destroy := by
    by_cases hdes : fr.invocation = .command .destroy
    · obtain rfl : pc = .finish i span (pos + fr.size) := by
        rcases hpc' with ⟨hne, -⟩ | hfin
        · exact absurd hdes hne
        · exact hfin
      rw [hdes]
      exact .inr ⟨rfl, rfl⟩
    · have hdestroy := execute_destroy cfg (s.taken h frs) i h hdes
      have hfalse : (s.taken h frs).destroy = false := hat.destroy
      rcases hpc' with ⟨-, rfl⟩ | rfl
      · exact .inl (by simp [State.reading, hget', hsink'])
      · exact .inl (by simp [State.reading, hget', hsink', hdestroy, hfalse])
  refine hr.change (i := h.sink) hother (fun j hj sp p => ?_) ?_
  · rcases hreading with hreading | ⟨hreading, -⟩ <;> simp [hreading, hsome, Ne.symm hj]
  · rw [hself]
    refine ⟨W, R, _, hring.advance hat.unread (fun hk => ?_) fun sp p hp => ?_⟩
    · rcases hreading with hreading | ⟨-, hdes⟩
      · exact ⟨span, _, hreading, by simp [hsome]⟩
      · -- the sink is dead, and open until `close` returns
        have hopen : (s.sinks h.sink).isOpen = true := by
          by_contra hclosed
          have hdead := hok.live_eq
          rw [Bool.eq_false_of_not_eq_true hclosed] at hdead
          have hnil := hok.idle hdead
          rw [hat.unread] at hnil
          cases hnil
        rw [hlive hdes, hopen] at hk
        simp at hk
    · rcases hreading with hreading | ⟨hreading, -⟩
      · rw [hreading] at hp
        cases hp
        exact ⟨Nat.le_add_left _ _, by simp [hsome]⟩
      · rw [hreading] at hp
        cases hp

end Execute

/-! ## The index -/

theorem Fires.indexed {e : Event V} (hf : Fires cfg s e s') (h : Inv cfg s) : Indexed cfg s' := by
  have hidx := h.indexed
  cases hf with
  | dropped | log | setName | register | close | closeReturn | sync | syncReturn => exact hidx
  | runOnce => exact Nat.zero_le _
  | endPass =>
    obtain ⟨buf, pc, heq, -, rfl | ⟨rfl, hnil⟩⟩ := endPass_eq s
    · rw [heq]
      trivial
    · rw [heq]
      exact hnil
  | visitEmpty hpc hget =>
    obtain ⟨n, buf, heq, -⟩ := visitEmpty_eq s
    rw [heq]
    exact (List.getElem?_eq_some_iff.mp hget).1
  | @visit i now hd span hpc hget hun hspan hpos =>
    refine ⟨rfl, hd, hget, ?_⟩
    obtain ⟨W, R, P, hok⟩ := h.rings hd.sink
    have hcap : (s.sinks hd.sink).ring.capacity = cfg.sizing.capacity :=
      congrArg Sizing.capacity hok.sizing
    have hbegin : span.begin < cfg.sizing.capacity := by
      rw [hspan, hok.queue.readSpan, hcap]
      exact Nat.mod_lt _ cfg.sizing.capacity_pos
    unfold batchEnd
    omega
  | @execute i pos span now hd fr frs pc hpc hget _ _ hpc' =>
    obtain ⟨hd', hget', hsink⟩ := execute_get cfg frs hget fr.invocation
    rcases hpc' with ⟨rfl, hmore, hne⟩ | rfl
    · rw [Indexed, hpc] at hidx
      refine ⟨(execute_destroy cfg _ i hd hne).trans hidx.1, hd', hget', ?_⟩
      rw [hsink]
      exact hmore
    · exact (List.getElem?_eq_some_iff.mp hget').1
  | @remove i _ _ _ hpc hi =>
    -- the last handle moves to `i`, which is visited next
    show i ≤ (swapRemove s.handles i).length
    rw [(swapRemove_perm hi).length_eq, List.length_eraseIdx_of_lt hi]
    omega
  | release hpc =>
    rw [Indexed, hpc] at hidx
    exact hidx
  | @reportDropped i _ hd hpc hget =>
    show i + 1 ≤ (s.handles.set i _).length
    rw [List.length_set]
    exact (List.getElem?_eq_some_iff.mp hget).1
  | report hpc hget => exact (List.getElem?_eq_some_iff.mp hget).1

/-! ## The invariant over runs -/

/-- The consumer is in the middle of live sinks only. -/
theorem Inv.reading_live (h : Inv cfg s) {span : Span} {pos : Nat}
    (hreading : s.reading = some (i, span, pos)) : (s.sinks i).live = true := by
  have hmem : ∃ h ∈ s.held, h.sink = i := by
    unfold State.reading at hreading
    split at hreading
    · rename_i hpc
      obtain ⟨hd, hget, heq⟩ := Option.map_eq_some_iff.mp hreading
      have hheld : s.held = s.handles := held_eq_handles (.inr (by simp [hpc]))
      exact ⟨hd, hheld ▸ List.mem_of_getElem? hget, congrArg Prod.fst heq⟩
    · split at hreading
      · cases hreading
      · rename_i hdes
        obtain ⟨hd, hget, heq⟩ := Option.map_eq_some_iff.mp hreading
        have hheld : s.held = s.handles := held_eq_handles (.inl (by simpa using hdes))
        exact ⟨hd, hheld ▸ List.mem_of_getElem? hget, congrArg Prod.fst heq⟩
    · cases hreading
  obtain ⟨hd, hd_mem, rfl⟩ := hmem
  exact h.live hd hd_mem

theorem Fires.rings {e : Event V} (hf : Fires cfg s e s') (h : Inv cfg s) : Rings cfg s' := by
  have hr := h.rings
  cases hf with
  | @dropped i _ _ _ _ ring hready hz hq =>
    obtain ⟨W, R, P, hok⟩ := hr i
    exact hr.setSink ⟨W, R, P, hq W R P hok.queue, hz.trans hok.sizing, hok.resting,
      fun span pos h => (hok.reading span pos h).congr hz (Nat.le_refl W)⟩
  | log _ _ ht => exact hr.commit ht
  | setName _ ht => exact hr.commit ht
  | @register t i n name ring e hne hclosed hready ht =>
    have hsame :
        (s.commit i (.inr (.addSink t name)) ring ⟨.command (.addSink t name), n⟩).sinks t =
        s.sinks t := setSink_of_ne s _ hne
    refine (hr.commit ht).keep ?_ ?_ fun _ => .inr ?_
    · rw [hsame]
    · rw [hsame]
    · rw [hsame]
      exact hclosed
  | close _ ht => exact (hr.commit ht).keep rfl rfl id
  | sync _ ht => exact (hr.commit ht).keep rfl rfl id
  | @closeReturn i hcall hnot =>
    -- `close` returns when its request is executed: the consumer is elsewhere
    have hdead : (s.sinks i).live = false := by
      rw [(h.sinks i).live_eq, hcall, hnot]
      simp
    obtain ⟨W, R, P, hok⟩ := hr i
    refine hr.setSink ⟨0, 0, 0, ?_, hok.sizing, fun _ _ => rfl, fun span pos hp => ?_⟩
    · show Queue _ _ _ 0 0 0 (s.sinks i).unread
      rw [(h.sinks i).idle hdead]
      exact hok.queue.clear
    · rw [h.reading_live hp] at hdead
      cases hdead
  | syncReturn => exact hr.keep rfl rfl id
  | runOnce hpc => exact hr.congr rfl (by simp [State.reading, hpc])
  | endPass hpc =>
    obtain ⟨buf, pc, heq, -, hpc'⟩ := endPass_eq s
    rw [heq]
    refine hr.congr rfl ?_
    rcases hpc' with rfl | ⟨rfl, -⟩ <;> simp [State.reading, hpc]
  | visitEmpty hpc =>
    obtain ⟨n, buf, heq, -⟩ := visitEmpty_eq s
    rw [heq]
    exact hr.congr rfl (by simp [State.reading, hpc])
  | visit hpc hget _ hspan =>
    have hheld : s.held = s.handles := held_eq_handles (.inr (by simp [hpc]))
    exact hr.visit hpc hget (h.live _ (hheld ▸ List.mem_of_getElem? hget)) hspan
  | @execute i pos span now hd fr frs pc hpc hget _ hun hpc' =>
    have hidx := h.indexed
    rw [Indexed, hpc] at hidx
    refine hr.executed (h.sinks hd.sink) ⟨hidx.1, hget, hun⟩ hpc ?_
    rcases hpc' with ⟨hpc', -, hne⟩ | hpc'
    · exact .inl ⟨hne, hpc'⟩
    · exact .inr hpc'
  | remove hpc _ hdes => exact hr.congr rfl (by simp [State.reading, hpc, hdes])
  | release hpc hdes hget => exact hr.release hpc hdes hget
  | @reportDropped i _ hd hpc =>
    have hkeep : Rings cfg (s.setSink hd.sink { s.sinks hd.sink with dropped := 0 }) :=
      hr.keep rfl rfl id
    exact hkeep.congr rfl (by simp [State.reading, hpc, State.setSink])
  | report hpc => exact hr.congr rfl (by simp [State.reading, hpc])

theorem Inv.of_initial (mem : Nat → Nat → Cell Statement V Command) :
    Inv cfg (initial cfg mem) := by
  refine ⟨fun i => ⟨0, 0, 0, ?_, rfl, fun _ _ => rfl, nofun⟩, trivial, fun i => ?_,
    List.nodup_singleton 0, ?_⟩
  · exact ⟨⟨cfg.base8 i, cfg.capacity8, cfg.capacity_lt, ⟨0, rfl⟩⟩, ⟨0, .make _ _, ⟨0, rfl⟩⟩,
      ⟨0, rfl⟩, Nat.le_refl 0, trivial, rfl⟩
  · refine ⟨?_, fun hcall => absurd rfl hcall, fun _ => rfl, [], rfl, nofun⟩
    show decide (i = 0) = (decide (i = 0) && !(decide (Call.none = .closing) && false))
    simp
  · have hreg : (initial cfg mem).registry = Registry.start 0 controlName := by
      unfold State.registry Registry.start
      congr 1
      · exact names_cons
      · funext j
        by_cases hj : j = 0 <;> simp [initial, initialSink, hj]
    rw [hreg]

/-- **Every event keeps the invariant.** -/
theorem Inv.fires {e : Event V} (h : Inv cfg s) (hf : Fires cfg s e s') : Inv cfg s' := by
  obtain ⟨hnd, hsteps⟩ := hf.moves h
  exact ⟨hf.rings h, hf.indexed h, hf.sinks h.sinks, hnd, h.reachable.trans hsteps⟩

theorem Inv.step [DecidableEq V] {e : Event V} (h : Inv cfg s) (hs : step cfg s e = some s') :
    Inv cfg s' :=
  h.fires (fires_of_step h.rings h.indexed h.live h.destroyLast hs)

/-- The span of the sink that is visited next has all its records. -/
theorem Inv.visiting (h : Inv cfg s) {hd : Handle} (hpc : s.pc = .visit i)
    (hget : s.handles[i]? = some hd) : (s.sinks hd.sink).live = true ∧
      (s.sinks hd.sink).ring.readSpan.size = extent (s.sinks hd.sink).unread := by
  have hheld : s.held = s.handles := held_eq_handles (.inr fun _ _ _ hfin => by simp [hpc] at hfin)
  have hlive := h.live hd (hheld ▸ List.mem_of_getElem? hget)
  obtain ⟨W, R, P, hok⟩ := h.rings hd.sink
  have hrest : P = R := by
    refine hok.resting (.inl hlive) fun span pos => ?_
    simp [State.reading, hpc]
  have hext := hok.queue.extent_eq
  refine ⟨hlive, ?_⟩
  rw [hok.queue.readSpan]
  show W - R = _
  omega

/-- The invariant does not look at the dropped counts. -/
theorem Inv.recount (h : Inv cfg s) (i n : Nat) :
    Inv cfg (s.setSink i { s.sinks i with dropped := n }) := by
  have hreg : (s.setSink i { s.sinks i with dropped := n }).registry = s.registry :=
    registry_setSink_eq rfl rfl
  exact ⟨h.rings.keep rfl rfl id, h.indexed, ok_setSink h.sinks (h.sinks i).congr, h.distinct,
    hreg ▸ h.reachable⟩

theorem Inv.of_reachable [DecidableEq V] (h : (machine cfg).Reachable s) : Inv cfg s := by
  refine h.invariant ?_ ?_
  · rintro s ⟨mem, rfl⟩
    exact .of_initial mem
  · exact fun s e s' hi hs => hi.step hs

/-! ## Presence -/

/-- Where a sink can be represented: by a handle, or by a record that will add one. -/
inductive Place
  | handle (k : Nat)
  | record (j n : Nat)

/-- The handle at `k` is about to be removed. -/
def State.Stale (s : State V) (k : Nat) : Prop :=
  s.destroy = true ∧ ∃ span pos, s.pc = .finish k span pos

/-- Sink `i` is represented at a place. -/
def Represents (s : State V) (i : Nat) : Place → Prop
  | .handle k => ¬ s.Stale k ∧ ∃ h, s.handles[k]? = some h ∧ h.sink = i
  | .record j n => ∃ name, ((s.sinks j).unread[n]?).map Frame.invocation =
      some (.command (.addSink i name))

/-- The handles that represent sinks are those that are held, at one index each. -/
theorem represents_handle (s : State V) : ∃ idx : Nat → Nat, (∀ k k', ¬ s.Stale k → ¬ s.Stale k' →
      idx k = idx k' → k = k') ∧
    (∀ k, ¬ s.Stale k → s.handles[k]? = s.held[idx k]?) ∧
    ∀ n, ∃ k, ¬ s.Stale k ∧ idx k = n := by
  by_cases hstale : ∃ k, s.Stale k
  · obtain ⟨k₀, hdes, span, pos, hpc⟩ := hstale
    have hheld : s.held = s.handles.eraseIdx k₀ := by simp [State.held, hpc, hdes]
    have hiff : ∀ k, s.Stale k ↔ k = k₀ := by
      intro k
      constructor
      · rintro ⟨-, span', pos', hpc'⟩
        rw [hpc] at hpc'
        exact (Pc.finish.inj hpc').1.symm
      · rintro rfl
        exact ⟨hdes, span, pos, hpc⟩
    -- the handles behind the stale one are one place further up among those held
    refine ⟨fun k => if k < k₀ then k else k - 1, fun k k' hk hk' heq => ?_, fun k hk => ?_,
      fun n => ?_⟩
    · rw [hiff] at hk hk'
      dsimp only at heq
      split at heq <;> split at heq <;> omega
    · rw [hiff] at hk
      rw [hheld, List.getElem?_eraseIdx]
      dsimp only
      split_ifs <;> first | rfl | (congr 1; omega)
    · by_cases hn : n < k₀
      · exact ⟨n, by rw [hiff]; omega, if_pos hn⟩
      · refine ⟨n + 1, by rw [hiff]; omega, ?_⟩
        dsimp only
        rw [if_neg (by omega)]
        rfl
  · have hnot : ∀ k, ¬ s.Stale k := fun k hk => hstale ⟨k, hk⟩
    have hheld : s.held = s.handles := by
      refine held_eq_handles ?_
      by_cases hdes : s.destroy = true
      · exact .inr fun k span pos hpc => hnot k ⟨hdes, span, pos, hpc⟩
      · exact .inl (by simpa using hdes)
    exact ⟨id, fun _ _ _ _ heq => heq, fun k _ => by rw [hheld]; rfl, fun n => ⟨n, hnot n, rfl⟩⟩

theorem Inv.handle_unique (h : Inv cfg s) {k k' : Nat} (hk : Represents s i (.handle k))
    (hk' : Represents s i (.handle k')) : k = k' := by
  obtain ⟨idx, hinj, hget, -⟩ := represents_handle s
  obtain ⟨hk, hd, hd_get, hsink⟩ := hk
  obtain ⟨hk', hd', hd_get', hsink'⟩ := hk'
  rw [hget k hk] at hd_get
  rw [hget k' hk'] at hd_get'
  have hmap : (s.held.map Handle.sink)[idx k]? = (s.held.map Handle.sink)[idx k']? := by
    rw [List.getElem?_map, List.getElem?_map, hd_get, hd_get']
    simp [hsink, hsink']
  have hlt : idx k < (s.held.map Handle.sink).length := by
    rw [List.length_map]
    exact (List.getElem?_eq_some_iff.mp hd_get).1
  exact hinj k k' hk hk' ((List.getElem?_inj hlt h.distinct).mp hmap)

theorem exists_handle_iff : (∃ k, Represents s i (.handle k)) ↔ s.registry.member i ≠ none := by
  obtain ⟨idx, -, hget, hsurj⟩ := represents_handle s
  have hmem : s.registry.member i ≠ none ↔ i ∈ s.held.map Handle.sink :=
    not_iff_comm.mp names_eq_none_iff.symm
  rw [hmem, List.mem_map]
  constructor
  · rintro ⟨k, hk, hd, hd_get, hsink⟩
    rw [hget k hk] at hd_get
    exact ⟨hd, List.mem_of_getElem? hd_get, hsink⟩
  · rintro ⟨hd, hd_mem, hsink⟩
    obtain ⟨n, hn⟩ := List.getElem?_of_mem hd_mem
    obtain ⟨k, hk, rfl⟩ := hsurj n
    exact ⟨k, hk, hd, (hget k hk).trans hn, hsink⟩

theorem represents_record {j n : Nat} : Represents s i (.record j n) ↔
    (s.registry.queue j)[n]?.bind Message.target? = some i := by
  show (∃ name, _ = _) ↔ (((s.sinks j).unread.map fun fr => message fr.invocation)[n]?).bind
    Message.target? = some i
  rw [List.getElem?_map]
  cases (s.sinks j).unread[n]? with
  | none => simp
  | some fr =>
    obtain ⟨e, z⟩ := fr
    cases e with
    | print st args => simp [message, Message.target?]
    | command c => cases c <;> simp [message, Message.target?]

theorem exists_record_iff {j : Nat} :
    (∃ n, Represents s i (.record j n)) ↔ i ∈ targets (s.registry.queue j) := by
  simp only [represents_record]
  rw [targets, List.mem_filterMap]
  constructor
  · rintro ⟨n, hn⟩
    obtain ⟨m, hm, ht⟩ := Option.bind_eq_some_iff.mp hn
    exact ⟨m, List.mem_of_getElem? hm, ht⟩
  · rintro ⟨m, hm, ht⟩
    obtain ⟨n, hn⟩ := List.getElem?_of_mem hm
    exact ⟨n, by rw [hn]; exact ht⟩

/-- When `run_once` has returned false no sink is left, and none has records. -/
theorem Inv.stopped (h : Inv cfg s) (hpc : s.pc = .stopped) (i : Nat) :
    (s.sinks i).live = false ∧ (s.sinks i).unread = [] := by
  have hnil : s.handles = [] := by
    have hidx := h.indexed
    rwa [Indexed, hpc] at hidx
  have hnone : ∀ i, s.registry.member i = none := by
    intro i
    show names s.held i = none
    rw [held_eq_handles (.inr (by simp [hpc])), hnil]
    rfl
  exact ⟨h.present.not_live hnone i, (h.sinks i).idle (h.present.not_live hnone i)⟩

/-- **Every sink is present as long as its close request is not executed.**  It is
represented once, by a handle or by a record in the queue of a sink that is represented
itself; no other sink is.  So `run_once` returns false only when every close request and
every record is executed, and no closed sink is ever used. -/
theorem sink_presence [DecidableEq V] (h : (machine cfg).Reachable s) :
    (∀ i, (s.sinks i).live = true → ∃! p, Represents s i p) ∧
    (∀ i, (s.sinks i).live = false → ∀ p, ¬ Represents s i p) ∧
    (∀ i j n, Represents s i (.record j n) → ∃ p, Represents s j p) ∧
    (s.pc = .stopped → ∀ i, (s.sinks i).live = false ∧ (s.sinks i).unread = []) ∧
    s.pc ≠ .fault := by
  have hi := Inv.of_reachable h
  have hp := hi.present
  have hpresent : ∀ i, (s.sinks i).live = true → ∃! p, Represents s i p := by
    intro i hlive
    by_cases hmem : s.registry.member i = none
    -- no handle yet: the record that adds the sink is under way
    · obtain ⟨j, hj⟩ := hp.covered i hlive hmem
      obtain ⟨n, hn⟩ := exists_record_iff.mpr hj
      refine ⟨.record j n, hn, fun p hrep => ?_⟩
      cases p with
      | handle k => exact absurd hmem (exists_handle_iff.mp ⟨k, hrep⟩)
      | record j' n' =>
        obtain rfl := hp.unique j j' i hj (exists_record_iff.mp ⟨n', hrep⟩)
        rw [hp.target_unique (represents_record.mp hn) (represents_record.mp hrep)]
    · obtain ⟨k, hk⟩ := exists_handle_iff.mpr hmem
      refine ⟨.handle k, hk, fun p hrep => ?_⟩
      cases p with
      | handle k' => rw [hi.handle_unique hk hrep]
      | record j n => exact absurd (hp.target j i (exists_record_iff.mp ⟨n, hrep⟩)).2 hmem
  refine ⟨hpresent, fun i hdead p hrep => ?_, fun i j n hrep => ?_, fun hpc i => ?_, fun hpc => ?_⟩
  · have hlive : (s.sinks i).live = true := by
      cases p with
      | handle k =>
        obtain ⟨n, hn⟩ := Option.ne_none_iff_exists'.mp (exists_handle_iff.mp ⟨k, hrep⟩)
        exact hp.member_live i n hn
      | record j n => exact (hp.target j i (exists_record_iff.mp ⟨n, hrep⟩)).1
    rw [hlive] at hdead
    cases hdead
  · exact (hpresent j (hp.sender_live (exists_record_iff.mp ⟨n, hrep⟩))).exists
  · exact hi.stopped hpc i
  · have hidx := hi.indexed
    rw [Indexed, hpc] at hidx
    exact hidx

/-- A logger whose rings have one page and whose values are numbers. -/
def small : Config UInt8 where
  order := .backwards
  base i := 8192 * (i + 1)
  sizing := .page
  closure _ := ⟨40, 8, hasSingleBit_8⟩
  sizes := ⟨fun _ => 64, fun _ => by decide⟩
  value v := [v]
  object _ bytes := bytes
  level _ := [73, 32]
  warning := [87, 32]
  base8 i := ⟨1024 * (i + 1), by omega⟩
  capacity8 := Sizing.page_dvd
  capacity_lt := Sizing.page_lt
  closure_pos _ := by decide

/-- A sink is registered, copied and closed before the consumer's first pass.  In that
pass the consumer learns of the copy from the queue of the sink that it then removes. -/
theorem sink_presence_copy : ∃ s, (machine small).Reachable s ∧ s.Stale 1 ∧
    (∀ p, ¬ Represents s 1 p) ∧ ∃! p, Represents s 2 p := by
  have hrun : ((machine small).run (initial small fun _ _ => .byte 0) [.registerSink 1 [65] [],
      .copy 2 1 [], .close 1 [], .runOnce [], .consume [], .consume [], .consume [], .consume [],
      .consume [], .consume [], .consume []]).map (fun s =>
        (s.destroy, s.pc, (s.sinks 1).live, (s.sinks 2).live)) =
      some (true, .finish 1 ⟨0, 96⟩ 16480, false, true) := by decide +kernel
  obtain ⟨s, hreach, heq⟩ := Machine.exists_reachable hrun ⟨_, rfl⟩
  simp only [Prod.mk.injEq] at heq
  obtain ⟨hdes, hpc, hdead, hlive⟩ := heq
  obtain ⟨hpresent, habsent, -⟩ := sink_presence hreach
  exact ⟨s, hreach, ⟨hdes, _, _, hpc⟩, habsent 1 hdead, hpresent 2 hlive⟩

end Xtr.Logger
