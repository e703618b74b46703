import Xtr.DispatcherService

/-!
# Answers

What a client gets from `command_dispatcher`, over a whole run: the replies to what was read
on its connection, one read after the other, and if the connection is closed in good order,
all of them (`answers_delivered`).  What is read on other connections, and where in
`pollfds_` they stand, makes no difference, although all replies are queued by descriptor
and descriptors are used again.

`reads` is a record of the run: what was received in each call of `process_socket_read` for
a connection.  It rests on the record of the calls that a loop makes.
-/
namespace Xtr.Dispatcher
variable (callbacks : Nat → Option Nat)

/-! ## Reads -/

/-- The reads on a connection among the calls of a loop. -/
def readsOf (io : Nat → Io) (services : List Service) (c : Nat) : List Io :=
  (services.filter fun service => service.entry.conn = c && !service.wrote).map fun _ => io c

/-- The reads on a connection in an event. -/
def readsIn (s : State) (e : Event) (c : Nat) : List Io :=
  match e with
  | .pollFails => []
  | .processCommands o =>
    match processCommandsServing callbacks s o with
    | none => []
    | some (_, services) => readsOf o.io services c

/-- The reads on a connection in a run. -/
def reads (s : State) : List Event → Nat → List Io
  | [], _ => []
  | e :: es, c =>
    readsIn callbacks s e c ++
      match step callbacks s e with
      | none => []
      | some s' => reads s' es c

/-- The replies to what was read, in order. -/
def answers (s : State) (es : List Event) (c : Nat) : List Reply :=
  (reads callbacks s es c).flatMap (replies callbacks)

variable {callbacks} {s s' : State} {c : Nat}

/-! ## What a call queues -/

/-- Replies are queued for one connection. -/
theorem queued_foldl_send (fd conn : Nat) (rs : List Reply) (s : State) (c : Nat) :
    (rs.foldl (fun s r => send s fd conn r) s).queued c =
      s.queued c ++ if conn = c then rs else [] := by
  induction rs generalizing s with
  | nil => rw [ite_self, List.append_nil]; rfl
  | cons r rs ih =>
    rw [List.foldl_cons, ih]
    by_cases hc : conn = c
    · subst hc
      show Function.update s.queued conn (s.queued conn ++ [r]) conn ++ _ = _
      rw [Function.update_self, if_pos rfl, if_pos rfl, List.append_assoc, List.singleton_append]
    · show Function.update s.queued conn (s.queued conn ++ [r]) c ++ _ = _
      rw [Function.update_of_ne (Ne.symm hc), if_neg hc, if_neg hc]

/-- Sending queues nothing. -/
theorem queued_processSocketWrite (s : State) (i : Nat) (p : Pollfd) (io : Io) :
    (processSocketWrite s i p io).queued = s.queued := by
  unfold processSocketWrite
  dsimp only
  split <;> rfl

/-- A round queues the replies to what it reads. -/
theorem queued_serve {io : Nat → Io} {i : Nat} {p : Pollfd} {service : Option Service}
    (h : serve callbacks (io p.conn) s i p = (s', service)) (c : Nat) :
    s'.queued c =
      s.queued c ++ (readsOf io service.toList c).flatMap (replies callbacks) := by
  unfold serve at h
  by_cases hout : p.revents.pollout = true
  · rw [if_pos hout] at h
    obtain ⟨rfl, rfl⟩ := Prod.mk.inj h
    rw [queued_processSocketWrite]
    simp [readsOf]
  rw [if_neg hout] at h
  by_cases hin : (p.revents.pollhup || p.revents.pollin) = true
  · rw [if_pos hin] at h
    obtain ⟨rfl, rfl⟩ := Prod.mk.inj h
    unfold processSocketRead
    rw [queued_foldl_send]
    by_cases hc : p.conn = c
    · simp [readsOf, hc]
    · simp [readsOf, hc]
  · rw [if_neg hin] at h
    obtain ⟨rfl, rfl⟩ := Prod.mk.inj h
    simp [readsOf]

theorem readsOf_append (io : Nat → Io) (services services' : List Service) (c : Nat) :
    readsOf io (services ++ services') c = readsOf io services c ++ readsOf io services' c := by
  rw [readsOf, List.filter_append, List.map_append]
  rfl

/-- A loop that ends at once queues nothing. -/
theorem queued_of_nothing {io : Nat → Io} {services : List Service}
    (h : some (s, ([] : List Service)) = some (s', services)) (c : Nat) :
    s'.queued c = s.queued c ++ (readsOf io services c).flatMap (replies callbacks) := by
  obtain ⟨rfl, rfl⟩ := Prod.mk.inj (Option.some.inj h)
  exact (List.append_nil _).symm

/-- A loop queues the replies to what it reads. -/
theorem queued_loopServing {io : Nat → Io} {fuel i : Nat} {nfds : Int} {services : List Service}
    (h : loopServing callbacks io fuel s i nfds = some (s', services)) (c : Nat) :
    s'.queued c = s.queued c ++ (readsOf io services c).flatMap (replies callbacks) := by
  induction fuel generalizing s i nfds services with
  | zero =>
    unfold loopServing at h
    split at h
    · exact queued_of_nothing h c
    · split at h
      · exact queued_of_nothing h c
      · cases h
  | succ fuel ih =>
    unfold loopServing at h
    split at h
    · exact queued_of_nothing h c
    rename_i p _
    split at h
    · exact queued_of_nothing h c
    obtain ⟨⟨t, service⟩, hserve⟩ : ∃ r, serve callbacks (io p.conn) s i p = r := ⟨_, rfl⟩
    simp only [hserve] at h
    obtain ⟨⟨t', rest⟩, hloop, heq⟩ := Option.map_eq_some_iff.mp h
    obtain ⟨rfl, rfl⟩ := Prod.mk.inj heq
    rw [ih hloop, queued_serve hserve, readsOf_append, List.flatMap_append, List.append_assoc]

theorem queued_polled (s : State) (revents : Nat → Revents) :
    (polled s revents).queued = s.queued := rfl

theorem queued_acceptOne (s : State) (fd : Option Nat) : (acceptOne s fd).queued = s.queued := by
  cases fd <;> rfl

/-- **What an event queues** for a connection are the replies to what it reads there. -/
theorem queued_step {e : Event} (h : step callbacks s e = some s') (c : Nat) :
    s'.queued c = s.queued c ++ (readsIn callbacks s e c).flatMap (replies callbacks) := by
  obtain ⟨-, h⟩ := Option.ite_none_right_eq_some.mp h
  cases e with
  | pollFails =>
    obtain rfl := Option.some.inj h
    exact (List.append_nil _).symm
  | processCommands o =>
    obtain ⟨-, h⟩ := Option.ite_none_left_eq_some.mp h
    rw [processCommands_eq] at h
    obtain ⟨⟨t, services⟩, hserving, rfl⟩ := Option.map_eq_some_iff.mp h
    simp only [readsIn, hserving]
    unfold processCommandsServing at hserving
    dsimp only at hserving
    split at hserving
    · cases hserving
    rename_i listening _
    by_cases hin : listening.revents.pollin = true
    · rw [if_pos hin] at hserving
      rw [queued_loopServing hserving, queued_acceptOne, queued_polled]
    · rw [if_neg hin] at hserving
      rw [queued_loopServing hserving, queued_polled]

/-- **What a run queues** for a connection are the answers to it. -/
theorem queued_run {es : List Event} (h : (machine callbacks).run s es = some s') (c : Nat) :
    s'.queued c = s.queued c ++ answers callbacks s es c := by
  induction es generalizing s with
  | nil =>
    obtain rfl := Option.some.inj h
    exact (List.append_nil _).symm
  | cons e es ih =>
    obtain ⟨t, hstep, hrun⟩ := Option.bind_eq_some_iff.mp h
    have hstep : step callbacks s e = some t := hstep
    have hreads : reads callbacks s (e :: es) c =
        readsIn callbacks s e c ++ reads callbacks t es c := by
      simp only [reads, hstep]
    rw [ih hrun, queued_step hstep, answers, answers, hreads, List.flatMap_append,
      List.append_assoc]

/-- What a client gets is a first part of the answers, and all of them if its connection was
closed because everything was sent. -/
theorem sent_run {fd : Nat} {es : List Event} (h : (machine callbacks).run (initial fd) es = some s)
    (c : Nat) : s.sent c <+: answers callbacks (initial fd) es c ∧
      ((c, .finished) ∈ s.closed → s.sent c = answers callbacks (initial fd) es c) := by
  have hinv := Inv.of_reachable callbacks (Machine.Reachable.run (.start ⟨fd, rfl⟩) h)
  have hqueued : s.queued c = answers callbacks (initial fd) es c :=
    (queued_run h c).trans (List.nil_append _)
  exact ⟨hqueued ▸ hinv.ordered c, fun hc => hqueued ▸ hinv.finished c hc⟩

/-! ## Delivery -/

/-- **Answers are delivered**, in order and to the client that asked: in every run, a client
has got a first part of the answers to what was read on its connection, and all of them
unless the connection is open, a send to it has failed, or `poll` has. -/
theorem answers_delivered {fd : Nat} {es : List Event}
    (h : (machine callbacks).run (initial fd) es = some s) (c : Nat) :
    s.sent c <+: answers callbacks (initial fd) es c ∧
      (s.sent c = answers callbacks (initial fd) es c ∨ (∃ p ∈ s.pollfds.tail, p.conn = c) ∨
        (c, .sendFailed) ∈ s.closed ∨ (c, .pollFailed) ∈ s.closed) := by
  have hinv := Inv.of_reachable callbacks (Machine.Reachable.run (.start ⟨fd, rfl⟩) h)
  obtain ⟨hsent, hfinished⟩ := sent_run h c
  refine ⟨hsent, ?_⟩
  rcases Nat.lt_or_ge c s.accepted with hlt | hge
  · rcases hinv.known c hlt with ⟨q, hq, rfl⟩ | ⟨why, hwhy⟩
    · rw [State.peers, ← List.map_tail] at hq
      obtain ⟨p, hp, rfl⟩ := List.mem_map.mp hq
      exact .inr (.inl ⟨p, hp, rfl⟩)
    · cases why with
      | finished => exact .inl (hfinished hwhy)
      | sendFailed => exact .inr (.inr (.inl hwhy))
      | pollFailed => exact .inr (.inr (.inr hwhy))
  · -- a connection that was not accepted yet
    obtain ⟨hqueued, hsent⟩ := hinv.fresh c hge
    have hanswers : s.queued c = answers callbacks (initial fd) es c :=
      (queued_run h c).trans (List.nil_append _)
    exact .inl (hsent.trans (hqueued.symm.trans hanswers))

/-- Two clients have the same descriptor, one after the other.  The second has sent two
requests, and its answers are still queued. -/
theorem answers_delivered_reuse : ∃ s, (machine registered).run (initial 3) [connects 5, requests 5,
      drains 5, connects 5, requests 5, requests 5] = some s ∧
    s.sent 0 <+: answers registered (initial 3) [connects 5, requests 5, drains 5, connects 5,
      requests 5, requests 5] 0 ∧ s.sent 0 = [.success] ∧
    answers registered (initial 3) [connects 5, requests 5, drains 5, connects 5, requests 5,
      requests 5] 1 = [.success, .success] := by
  have hrun : ((machine registered).run (initial 3) [connects 5, requests 5, drains 5, connects 5,
      requests 5, requests 5]).map (fun s => s.sent 0) = some [.success] := by
    decide +kernel
  obtain ⟨s, hs, hsent⟩ := Option.map_eq_some_iff.mp hrun
  exact ⟨s, hs, (answers_delivered hs 0).1, hsent, by decide +kernel⟩

end Xtr.Dispatcher
