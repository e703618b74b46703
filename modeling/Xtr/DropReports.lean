import Xtr.DropCount

/-!
# Drops and `close`

`run_once` reports the drops of a sink only after it has released the records of a span
that it has executed to the end.  When the span ends in the close request it leaves
through the branch that removes the sink, which reports nothing; and when the span is cut
at the end of the mapping, the drops are left to the next visit.  So `close` can return
while `dropped_count_` is not zero: the messages are never reported, or, when the sink is
registered again, under its new name.

That is the only way to lose a report.  If whenever the consumer starts to visit a sink
whose thread waits in `close` the count is zero, it is zero when `close` returns, and all
the calls that were lost since the sink was registered have been reported
(`close_reports`).
-/
namespace Xtr.DropCount
open Logger
variable {V : Type} {cfg : Config V} {d d' : State V} {s s' : Logger.State V} {i : Nat}

/-- The handle the consumer is about to visit. -/
def visiting (s : Logger.State V) : Option Handle :=
  match s.pc with
  | .visit i => s.handles[i]?
  | _ => none

/-- If the thread of the sink that is visited next waits in `close`, there is no count. -/
def settled (s : Logger.State V) : Prop :=
  ∀ h ∈ visiting s, (s.sinks h.sink).call = .closing → (s.sinks h.sink).dropped = 0

instance (s : Logger.State V) : Decidable (settled s) :=
  inferInstanceAs (Decidable (∀ h ∈ visiting s, _ → _))

/-- **Where drops are reported in time**: the consumer does not visit a sink that is being
closed and has a count. -/
def Settled (d : State V) : Event V → Prop
  | .call (.consume _) => settled d.logger
  | _ => True

instance (d : State V) (e : Event V) : Decidable (Settled d e) :=
  match e with
  | .call (.consume _) => inferInstanceAs (Decidable (settled d.logger))
  | .call (.log ..) | .call (.setName ..) | .call (.registerSink ..) | .call (.copy ..)
  | .call (.close ..) | .call (.closeReturn _) | .call (.sync ..) | .call (.syncReturn _)
  | .call (.runOnce _) | .count _ | .ret _ => inferInstanceAs (Decidable True)

/-! ## The span and the close request -/

/-- The records of a sink that is being read are those up to `stop`, the end of the span,
and those that came later.  If the close request is one of the first, there is no
count. -/
def Covers (k : Sink V) (pos stop : Nat) : Prop :=
  ∃ inSpan later, k.unread = inSpan ++ later ∧ pos + extent inSpan = stop ∧
    (k.call = .closing → later = [] → k.dropped = 0)

/-- What can happen to a sink while it is being read.  It is not counted in a sink that is
being closed. -/
def Follows (k k' : Sink V) : Prop :=
  (k'.dropped ≤ k.dropped ∨ k'.call ≠ .closing) ∧
    (k'.unread = k.unread ∧ (k'.call = .closing → k.call = .closing) ∨
      ∃ fr, k'.unread = k.unread ++ [fr])

theorem Covers.follow {k k' : Sink V} {pos stop : Nat} (h : Covers k pos stop)
    (hk : Follows k k') : Covers k' pos stop := by
  obtain ⟨inSpan, later, hun, hstop, hzero⟩ := h
  obtain ⟨hle, ⟨hun', hcall⟩ | ⟨fr, hun'⟩⟩ := hk
  · refine ⟨inSpan, later, hun'.trans hun, hstop, fun hclosing hnil => ?_⟩
    rcases hle with hle | hne
    · exact Nat.le_zero.mp (hzero (hcall hclosing) hnil ▸ hle)
    · exact absurd hclosing hne
  · refine ⟨inSpan, later ++ [fr], ?_, hstop, fun _ hnil => ?_⟩
    · rw [hun', hun, List.append_assoc]
    · simp at hnil

theorem Follows.refl (k : Sink V) : Follows k k := ⟨.inl (Nat.le_refl _), .inl ⟨rfl, id⟩⟩

/-- Anything may happen to the count of a sink that can be used. -/
theorem Follows.ready {k k' : Sink V} (hready : k'.ready = true) (hun : k'.unread = k.unread) :
    Follows k k' := by
  have hcall : k'.call = .none := by
    simp only [Sink.ready, Bool.and_eq_true, decide_eq_true_eq] at hready
    exact hready.2
  have hne : k'.call ≠ .closing := by
    rw [hcall]
    exact Call.noConfusion
  exact ⟨.inr hne, .inl ⟨hun, fun h => absurd h hne⟩⟩

theorem follows_of_update {sinks : Nat → Sink V} {j : Nat} {k k₀ : Sink V}
    (hi : Follows k₀ (sinks i)) (hk : i = j → Follows k₀ k) :
    Follows k₀ (Function.update sinks j k i) := by
  by_cases hij : i = j
  · rw [hij, Function.update_self]
    exact hk hij
  · rw [Function.update_of_ne hij]
    exact hi

/-- A record that is posted comes later. -/
theorem Follows.post (k : Sink V) {k' : Sink V} {fr : Frame Statement V Command}
    (hdropped : k'.dropped = k.dropped) (hun : k'.unread = k.unread ++ [fr]) : Follows k k' :=
  ⟨.inl hdropped.le, .inr ⟨fr, hun⟩⟩

/-- The span that is being read covers the close request only when there is no count. -/
def Covered (cfg : Config V) (s : Logger.State V) : Prop :=
  ∀ i span pos h, s.pc = .batch i span pos → s.handles[i]? = some h →
    Covers (s.sinks h.sink) pos (cfg.base h.sink + span.begin + span.size)

theorem Covered.follow (h : Covered cfg s) (hpc : s'.pc = s.pc) (hhandles : s'.handles = s.handles)
    (hsinks : ∀ j, Follows (s.sinks j) (s'.sinks j)) : Covered cfg s' := by
  intro i span pos hd hbatch hget
  rw [hpc] at hbatch
  rw [hhandles] at hget
  exact (h i span pos hd hbatch hget).follow (hsinks hd.sink)

/-- The visit takes all the records there are. -/
theorem Covered.visit {i : Nat} {h : Handle} {span : Span} {ts : Option (List UInt8)}
    (hi : Inv cfg s) (hsettled : settled s) (hpc : s.pc = .visit i)
    (hget : s.handles[i]? = some h) (hspan : span = (s.sinks h.sink).ring.readSpan) :
    Covered cfg { s with destroy := false, ts := ts
                         pc := .batch i span (cfg.base h.sink + span.begin) } := by
  rintro _ _ _ hd ⟨⟩ hget'
  rw [hget] at hget'
  cases hget'
  have hvisiting : h ∈ visiting s := by
    rw [visiting, hpc]
    exact hget
  refine ⟨(s.sinks h.sink).unread, [], (List.append_nil _).symm, ?_,
    fun hcall _ => hsettled h hvisiting hcall⟩
  rw [hspan, (hi.visiting hpc hget).2]

/-- The first record belongs to the span. -/
theorem Covers.cons {k : Sink V} {pos stop : Nat} {fr : Frame Statement V Command}
    {frs : List (Frame Statement V Command)} (h : Covers k pos stop) (hun : k.unread = fr :: frs)
    (hpos : pos < stop) : ∃ inSpan later, frs = inSpan ++ later ∧
      pos + fr.size + extent inSpan = stop ∧
      (k.call = .closing → later = [] → k.dropped = 0) := by
  obtain ⟨inSpan, later, hsplit, hstop, hzero⟩ := h
  cases inSpan with
  | nil =>
    rw [extent_nil] at hstop
    omega
  | cons fr' inSpan =>
    rw [hun, List.cons_append, List.cons.injEq] at hsplit
    obtain ⟨rfl, hfrs⟩ := hsplit
    rw [extent_cons] at hstop
    exact ⟨inSpan, later, hfrs, by omega, hzero⟩

/-- At the record that is executed next. -/
theorem Covered.next {span : Span} {pos : Nat} {h : Handle} {fr : Frame Statement V Command}
    {frs : List (Frame Statement V Command)} (hcov : Covered cfg s) (hi : Inv cfg s)
    (hpc : s.pc = .batch i span pos) (hget : s.handles[i]? = some h)
    (hun : (s.sinks h.sink).unread = fr :: frs) : ∃ inSpan later, frs = inSpan ++ later ∧
      pos + fr.size + extent inSpan = cfg.base h.sink + span.begin + span.size ∧
      ((s.sinks h.sink).call = .closing → later = [] → (s.sinks h.sink).dropped = 0) := by
  have hidx := hi.indexed
  rw [Indexed, hpc] at hidx
  obtain ⟨-, h', hget', hpos⟩ := hidx
  rw [hget] at hget'
  cases hget'
  exact (hcov i span pos h hpc hget).cons hun (Nat.lt_of_lt_of_le hpos (Nat.min_le_left _ _))

theorem Covered.execute {span : Span} {pos : Nat} {h : Handle} {fr : Frame Statement V Command}
    {frs : List (Frame Statement V Command)} (hcov : Covered cfg s) (hi : Inv cfg s)
    (hpc : s.pc = .batch i span pos) (hget : s.handles[i]? = some h)
    (hun : (s.sinks h.sink).unread = fr :: frs) :
    Covered cfg { Logger.execute cfg (s.taken h frs) i h fr.invocation with
      pc := .batch i span (pos + fr.size) } := by
  obtain ⟨live, notified, hsinks, -⟩ := execute_sinks cfg s i h frs fr.invocation
  obtain ⟨h', hget', hsink⟩ := execute_get cfg frs hget fr.invocation
  rintro _ _ _ hd ⟨⟩ hgetd
  have heq : hd = h' := by
    have := hgetd.symm.trans hget'
    simpa using this
  subst heq
  show Covers ((Logger.execute cfg (s.taken h frs) i h fr.invocation).sinks hd.sink) _ _
  rw [hsinks, hsink, setSink_self]
  exact hcov.next hi hpc hget hun

theorem covered_of_fires {e : Logger.Event V} (hf : Fires cfg s e s') (hi : Inv cfg s)
    (hsettled : ∀ now, e = .consume now → settled s) (h : Covered cfg s) : Covered cfg s' := by
  cases hf with
  | dropped hready =>
    refine h.follow rfl rfl fun j => follows_of_update (.refl _) ?_
    rintro rfl
    exact .ready hready rfl
  | log | setName =>
    refine h.follow rfl rfl fun j => follows_of_update (.refl _) ?_
    rintro rfl
    exact .post _ rfl rfl
  | register hne =>
    refine h.follow rfl rfl fun j => follows_of_update (follows_of_update (.refl _) ?_) ?_
    · rintro rfl
      exact .post _ rfl rfl
    · rintro rfl
      exact ⟨.inl (Nat.le_refl _), .inl ⟨rfl, id⟩⟩
  | @close i _ _ _ _ | @sync i _ _ _ _ =>
    refine h.follow rfl rfl fun j => follows_of_update (follows_of_update (.refl _) ?_) ?_
    · rintro rfl
      exact .post _ rfl rfl
    · rintro rfl
      rw [commit_self]
      exact .post _ rfl rfl
  | closeReturn | syncReturn =>
    refine h.follow rfl rfl fun j => follows_of_update (.refl _) ?_
    rintro rfl
    exact ⟨.inl (Nat.le_refl _), .inl ⟨rfl, fun hcall => by cases hcall⟩⟩
  | visit hpc hget _ hspan => exact .visit hi (hsettled _ rfl) hpc hget hspan
  | execute hpc hget hlive hun hnext =>
    rcases hnext with ⟨rfl, -⟩ | rfl
    · exact h.execute hi hpc hget hun
    · exact fun _ _ _ _ hpc => by cases hpc
  | endPass hpc =>
    obtain ⟨buf, pc, heq, -, hnext⟩ := endPass_eq s
    rw [heq]
    intro _ _ _ _ hbatch
    rcases hnext with rfl | ⟨rfl, -⟩ <;> cases hbatch
  | _ => exact fun _ _ _ _ hpc => by cases hpc

/-! ## The return from `close` -/

/-- A thread that can return from `close` could before, or its request has just been
executed, and then there is no count. -/
theorem woken_of_fires {e : Logger.Event V} (hf : Fires cfg s e s') (hi : Inv cfg s)
    (hcov : Covered cfg s) (hwait : (s'.sinks i).waits = (.closing, true)) :
    (s.sinks i).waits = (.closing, true) ∨ (s.sinks i).dropped = 0 := by
  rcases hf.notified hi.sinks Call.noConfusion hwait with hold | ⟨n, span, pos, h, fr, hwake⟩
  · exact .inl hold
  · obtain rfl := hwake.sink
    obtain ⟨inSpan, later, hnil, -, hzero⟩ := hcov.next hi hwake.pc hwake.get hwake.unread
    exact .inr (hzero hwake.call (List.append_eq_nil_iff.mp hnil.symm).2)

/-- A sink that is closed was so before, or its `close` has just returned. -/
theorem closed_of_fires {e : Logger.Event V} (hf : Fires cfg s e s')
    (hclosed : (s'.sinks i).isOpen = false) :
    (s.sinks i).isOpen = false ∨ (s.sinks i).waits = (.closing, true) := by
  cases hf with
  | dropped | log | setName | release | reportDropped | syncReturn =>
    exact .inl (of_update (·.isOpen = false) hclosed id)
  | @closeReturn j hcall hnot =>
    by_cases hij : i = j
    · exact .inr (hij ▸ Prod.ext hcall hnot)
    · rw [setSink_of_ne _ _ hij] at hclosed
      exact .inl hclosed
  | register =>
    have hcommit := of_update (·.isOpen = false) hclosed fun h => by cases h
    exact .inl (of_update (·.isOpen = false) hcommit id)
  | close | sync =>
    have hcommit := of_update (·.isOpen = false) hclosed id
    exact .inl (of_update (·.isOpen = false) hcommit id)
  | runOnce | visit | remove | report => exact .inl hclosed
  | endPass =>
    rw [endPass_sinks] at hclosed
    exact .inl hclosed
  | visitEmpty =>
    rw [visitEmpty_sinks] at hclosed
    exact .inl hclosed
  | @execute n _ _ _ h fr frs =>
    obtain ⟨live, notified, hsinks, -⟩ := execute_sinks cfg s n h frs fr.invocation
    have hclosed :
        ((Logger.execute cfg (s.taken h frs) n h fr.invocation).sinks i).isOpen = false := hclosed
    rw [hsinks] at hclosed
    exact .inl (of_update (·.isOpen = false) hclosed id)

/-- **Reports are in time.** -/
structure InTime (cfg : Config V) (d : State V) : Prop where
  covered : Covered cfg d.logger
  woken : ∀ i, (d.logger.sinks i).waits = (.closing, true) → (d.logger.sinks i).dropped = 0
  closed : ∀ i, (d.logger.sinks i).isOpen = false → (d.logger.sinks i).dropped = 0
  marks : ∀ t, (d.since t).lost = reported t (d.logger.printed.take (d.since t).printed)

theorem dropped_le {e : Logger.Event V} (h : Steady s e s' ∨ Reports s e s') (i : Nat) :
    (s'.sinks i).dropped ≤ (s.sinks i).dropped := by
  rcases h with h | ⟨-, _, hd, _, -, -, hsinks, -⟩
  · exact (h.dropped i).le
  · rw [hsinks]
    by_cases hi : i = hd.sink
    · rw [hi, Function.update_self]
      exact Nat.zero_le _
    · rw [Function.update_of_ne hi]

/-- When a sink is registered, all its lost calls have been reported. -/
theorem InTime.settled_up (h : InTime cfg d) (hacc : Accounts d)
    (hclosed : (d.logger.sinks i).isOpen = false) : d.lost i = reported i d.logger.printed := by
  have htotal := hacc.total i
  have hidle : d.phase i = .idle := by
    by_contra hne
    have hready := hacc.busy i hne
    simp [Sink.ready, hclosed] at hready
  rw [hidle, h.closed i hclosed] at htotal
  simpa using htotal

theorem InTime.marks_observe {e : Logger.Event V} (h : InTime cfg d) (hacc : Accounts d)
    (hgrows : d.logger.printed <+: s'.printed)
    (hreg : ∀ t, e.registers = some t → (d.logger.sinks t).isOpen = false) (t : Nat) :
    ((observe d e s').since t).lost =
      reported t (s'.printed.take ((observe d e s').since t).printed) := by
  obtain ⟨lines, hlines⟩ := hgrows
  have hold : (d.since t).lost = reported t (s'.printed.take (d.since t).printed) := by
    rw [← hlines, List.take_append_of_le_length (hacc.since_le t)]
    exact h.marks t
  unfold observe
  cases he : e.registers with
  | none => exact hold
  | some u =>
    by_cases hut : t = u
    · subst hut
      simp only [Function.update_self]
      rw [← hlines, List.take_left]
      exact h.settled_up hacc (hreg t he)
    · simp only [Function.update_of_ne hut]
      exact hold

/-- **Every event of a run that meets the condition keeps reports in time.** -/
theorem Does.inTime {e : Event V} (hdoes : Does cfg d e d') (hi : Inv cfg d.logger)
    (hacc : Accounts d) (hsettled : Settled d e) (h : InTime cfg d) : InTime cfg d' := by
  cases hdoes with
  | @drop j tags st args loads ring _ _ hready =>
    refine ⟨h.covered.follow rfl rfl fun i => follows_of_update (.refl _) ?_, fun i hwait => ?_,
      fun i hclosed => ?_, h.marks_observe (e := .log j tags st args loads) hacc List.prefix_rfl
        fun _ he => by cases he⟩
    · rintro rfl
      exact .ready hready rfl
    · exact update_keeps (·.dropped = 0) (h.woken i (of_update (·.waits = _) hwait id)) id
    · exact update_keeps (·.dropped = 0) (h.closed i (of_update (·.isOpen = false) hclosed id)) id
  | @fires e s' taking _ hf heffect =>
    have hle := dropped_le heffect
    refine ⟨covered_of_fires hf hi (fun _ he => ?_) h.covered, fun i hwait => ?_,
      fun i hclosed => ?_, h.marks_observe hacc hf.grows.2 fun t he => closed_of_registers hf he⟩
    · subst he
      exact hsettled
    · have hzero : (d.logger.sinks i).dropped = 0 :=
        (woken_of_fires hf hi h.covered hwait).elim (h.woken i) id
      exact Nat.le_zero.mp (hzero ▸ hle i)
    · have hzero : (d.logger.sinks i).dropped = 0 :=
        (closed_of_fires hf hclosed).elim (h.closed i) (h.woken i)
      exact Nat.le_zero.mp (hzero ▸ hle i)
  | load | ret => exact ⟨h.covered, h.woken, h.closed, h.marks⟩
  | @count j hphase =>
    -- the sink that counts is neither closed nor being closed
    have hready := hacc.busy j (by rw [hphase]; exact Phase.noConfusion)
    have hother : ∀ i, i ≠ j → ((fetchAdd d.logger j).sinks i) = d.logger.sinks i :=
      fun i hij => setSink_of_ne _ _ hij
    refine ⟨h.covered.follow rfl rfl fun i => follows_of_update (.refl _) ?_, fun i hwait => ?_,
      fun i hclosed => ?_, h.marks⟩
    · rintro rfl
      exact .ready hready rfl
    · have hwas : (d.logger.sinks i).waits = (.closing, true) := of_update (·.waits = _) hwait id
      have hij : i ≠ j := by
        rintro rfl
        have hcall : (d.logger.sinks i).call = .closing := congrArg Prod.fst hwas
        simp [Sink.ready, hcall] at hready
      show ((fetchAdd d.logger j).sinks i).dropped = 0
      rw [hother i hij]
      exact h.woken i hwas
    · have hwas : (d.logger.sinks i).isOpen = false := of_update (·.isOpen = false) hclosed id
      have hij : i ≠ j := by
        rintro rfl
        simp [Sink.ready, hwas] at hready
      show ((fetchAdd d.logger j).sinks i).dropped = 0
      rw [hother i hij]
      exact h.closed i hwas

theorem InTime.of_reachable [DecidableEq V] (h : (machine cfg).ReachableBy Settled d) :
    Accounts d ∧ InTime cfg d := by
  have hall : (Inv cfg d.logger ∧ Accounts d) ∧ InTime cfg d := by
    refine h.invariant (I := fun d => (Inv cfg d.logger ∧ Accounts d) ∧ InTime cfg d) ?_ ?_
    · rintro d ⟨mem, rfl⟩
      refine ⟨Accounts.of_reachable (.start ⟨mem, rfl⟩), fun _ _ _ _ hpc => ?_, fun _ _ => rfl,
        fun _ _ => rfl, fun _ => rfl⟩
      cases hpc
    · rintro d e d' ⟨⟨hi, hacc⟩, htime⟩ hsettled hs
      have hdoes := does_of_step hi hs
      exact ⟨⟨hdoes.inv hi, hdoes.accounts hi hacc⟩, hdoes.inTime hi hacc hsettled htime⟩
  exact ⟨hall.1.2, hall.2⟩

theorem closed_of_closeReturn [DecidableEq V]
    (hs : step cfg d (.call (.closeReturn i)) = some d') : (d'.logger.sinks i).isOpen = false := by
  have hs : (closeReturn d.logger i).map (observe d (.closeReturn i)) = some d' := hs
  obtain ⟨s', hreturn, rfl⟩ := Option.map_eq_some_iff.mp hs
  obtain ⟨-, hreturn⟩ := Option.ite_none_right_eq_some.mp hreturn
  cases hreturn
  show ((d.logger.setSink i _).sinks i).isOpen = false
  rw [setSink_self]

/-- **`close` returns with all drops reported**, in every run in which the consumer does not
visit a sink that is being closed and has a count: the count is zero, the calls lost since
the sink was registered are those reported since, and under the names it had since. -/
theorem close_reports [DecidableEq V] (h : (machine cfg).ReachableBy Settled d)
    (hs : step cfg d (.call (.closeReturn i)) = some d') :
    (d'.logger.sinks i).dropped = 0 ∧
    d'.lost i = (d'.since i).lost + reported i (d'.logger.printed.drop (d'.since i).printed) ∧
    ∀ n name, (n, name) ∈ reports i (d'.logger.printed.drop (d'.since i).printed) →
      name ∈ d'.called i := by
  have hreach : (machine cfg).ReachableBy Settled d' :=
    .next (e := .call (.closeReturn i)) h trivial hs
  obtain ⟨hacc, htime⟩ := InTime.of_reachable hreach
  have hclosed := closed_of_closeReturn hs
  refine ⟨htime.closed i hclosed, ?_, fun n name hr => hacc.under i _ hr⟩
  calc d'.lost i = reported i d'.logger.printed := htime.settled_up hacc hclosed
    _ = reported i (d'.logger.printed.take (d'.since i).printed ++
        d'.logger.printed.drop (d'.since i).printed) := by rw [List.take_append_drop]
    _ = _ := by rw [reported_append, ← htime.marks i]

/-- Sink `1` drops a message, commits another, and is closed while the consumer executes
that one: the drop is reported before the close request is seen. -/
theorem close_reports_late : ∃ d d', (machine small).ReachableBy Settled d ∧
    step small d (.call (.closeReturn 1)) = some d' ∧ d'.lost 1 = 1 ∧
    (d'.logger.sinks 1).dropped = 0 ∧
    d'.lost 1 = (d'.since 1).lost + reported 1 (d'.logger.printed.drop (d'.since 1).printed) ∧
    ∀ n name, (n, name) ∈ reports 1 (d'.logger.printed.drop (d'.since 1).printed) →
      name ∈ d'.called 1 := by
  have hrun : ((machine small).runBy Settled (initial small fun _ _ => .byte 0)
      ([Event.call (.registerSink 1 [65] [])] ++ dropLarge 1 ++
        [Event.call (.log 1 ⟨false, false⟩ namedLine [.value ⟨1, 1, hasSingleBit_1⟩ 120] []),
          .call (.runOnce [])] ++
        List.replicate 5 (Event.call (.consume [])) ++ [Event.call (.close 1 [])] ++
        List.replicate 5 (Event.call (.consume [])) ++ [Event.call (.runOnce [])] ++
        List.replicate 4 (Event.call (.consume [])))).any (fun d =>
      (step small d (.call (.closeReturn 1))).any (fun d' => decide (d'.lost 1 = 1))) = true := by
    decide +kernel
  obtain ⟨d, hd, heq⟩ := (Option.any_eq_true ..).mp hrun
  obtain ⟨d', hs, hlost⟩ := (Option.any_eq_true ..).mp heq
  have hreach : (machine small).ReachableBy Settled d :=
    Machine.ReachableBy.runBy (.start ⟨_, rfl⟩) hd
  exact ⟨d, d', hreach, hs, of_decide_eq_true hlost, close_reports hreach hs⟩

/-- Sink `1` drops a message and is closed.  Its only span ends in the close request, so the
drop is not reported. -/
theorem close_loses_drops : ∃ d d', (machine small).Reachable d ∧
    step small d (.call (.closeReturn 1)) = some d' ∧ d'.lost 1 = 1 ∧
    (d'.logger.sinks 1).dropped = 1 ∧ reports 1 d'.logger.printed = [] := by
  have hrun : ((machine small).run (initial small fun _ _ => .byte 0)
      ([Event.call (.registerSink 1 [65] [])] ++ dropLarge 1 ++
        [Event.call (.close 1 []), .call (.runOnce [])] ++
        List.replicate 7 (Event.call (.consume [])))).any (fun d =>
      (step small d (.call (.closeReturn 1))).any (fun d' => decide (d'.lost 1 = 1) &&
        (decide ((d'.logger.sinks 1).dropped = 1) &&
          decide (reports 1 d'.logger.printed = [])))) = true := by
    decide +kernel
  obtain ⟨d, hd, heq⟩ := (Option.any_eq_true ..).mp hrun
  obtain ⟨d', hs, heq⟩ := (Option.any_eq_true ..).mp heq
  simp only [Bool.and_eq_true, decide_eq_true_eq] at heq
  exact ⟨d, d', Machine.Reachable.run (.start ⟨_, rfl⟩) hd, hs, heq⟩

end Xtr.DropCount
