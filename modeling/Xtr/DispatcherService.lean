import Xtr.Dispatcher

/-!
# Which connections a call serves

The loop of `process_commands` counts the ready descriptors down, takes the last entry into
the place of one that is erased, and may find at its end a connection that was accepted a
moment ago.  `loopServing` is the loop with a record of the calls it makes of
`process_socket_read` and `process_socket_write` (`loop_eq`); these are one for each ready
connection (`ready_served_once`).

The record does not depend on the invariant of the dispatcher: any list of connections will
do, with any replies queued.
-/
namespace Xtr.Dispatcher

/-! ## The loop, with its calls -/

/-- A connection that was read from or written to: its entry before, and its entry after, if
it was not closed. -/
structure Service where
  entry : Pollfd
  wrote : Bool
  after : Option Pollfd

/-- `poll` reported events for the entry. -/
def Pollfd.isReady (p : Pollfd) : Bool :=
  p.revents.pollin || p.revents.pollout || p.revents.pollhup

section Calls
variable (callbacks : Nat → Option Nat)

/-- What one round does with the entry `p` at `i`. -/
def serve (io : Io) (s : State) (i : Nat) (p : Pollfd) : State × Option Service :=
  if p.revents.pollout then
    let s' := processSocketWrite s i p io
    (s', some ⟨p, true, if s'.pollfds.length < s.pollfds.length then none else some p⟩)
  else if p.revents.pollhup || p.revents.pollin then
    (processSocketRead callbacks s i p io, some ⟨p, false, some { p with events := .pollout }⟩)
  else (s, none)

/-- The loop of `process_commands`, and the connections it served. -/
def loopServing (io : Nat → Io) (fuel : Nat) (s : State) (i : Nat) (nfds : Int) :
    Option (State × List Service) :=
  match s.pollfds[i]? with
  | none => some (s, [])
  | some p =>
    if nfds ≤ 0 then some (s, [])
    else match fuel with
      | 0 => none
      | fuel + 1 =>
        let (s', service) := serve callbacks (io p.conn) s i p
        (loopServing io fuel s' (if s'.pollfds.length < s.pollfds.length then i - 1 + 1 else i + 1)
          (nfds - service.toList.length)).map fun (t, services) => (t, service.toList ++ services)

/-- `process_commands`, and the connections it served. -/
def processCommandsServing (s : State) (o : Outcome) : Option (State × List Service) :=
  let s := polled s o.revents
  match s.pollfds.head? with
  | none => none
  | some listening =>
    let (s, nfds) := if listening.revents.pollin then (acceptOne s o.accept, o.nfds - 1)
      else (s, o.nfds)
    loopServing callbacks o.io s.pollfds.length s 1 nfds

end Calls

variable {callbacks : Nat → Option Nat} {s : State} {i : Nat} {p : Pollfd}

theorem pollfds_foldl_send (fd conn : Nat) (rs : List Reply) (s : State) :
    (rs.foldl (fun s r => send s fd conn r) s).pollfds = s.pollfds := by
  induction rs generalizing s with
  | nil => rfl
  | cons r rs ih => exact ih (send s fd conn r)

theorem pollfds_processSocketRead (io : Io) :
    (processSocketRead callbacks s i p io).pollfds =
      s.pollfds.set i { p with events := .pollout } :=
  pollfds_foldl_send ..

/-- **The record changes nothing.** -/
theorem loop_eq (io : Nat → Io) (fuel : Nat) (s : State) (i : Nat) (nfds : Int) :
    loop callbacks io fuel s i nfds = (loopServing callbacks io fuel s i nfds).map Prod.fst := by
  induction fuel generalizing s i nfds with
  | zero =>
    unfold loop loopServing
    cases s.pollfds[i]? with
    | none => rfl
    | some p => by_cases hn : nfds ≤ 0 <;> simp [hn]
  | succ fuel ih =>
    unfold loop loopServing
    cases s.pollfds[i]? with
    | none => rfl
    | some p =>
      by_cases hn : nfds ≤ 0
      · simp only [if_pos hn, Option.map_some]
      simp only [if_neg hn, serve]
      by_cases hout : p.revents.pollout = true
      · simp only [if_pos hout, ih, Option.map_map]
        rfl
      · by_cases hin : (p.revents.pollhup || p.revents.pollin) = true
        · have hlen : (processSocketRead callbacks s i p (io p.conn)).pollfds.length =
              s.pollfds.length := by rw [pollfds_processSocketRead, List.length_set]
          simp only [if_neg hout, if_pos hin, ih, hlen, Nat.lt_irrefl, if_false, Option.map_map]
          rfl
        · simp only [if_neg hout, if_neg hin, ih, Nat.lt_irrefl, if_false, Option.map_map,
            Option.toList_none, List.length_nil, Int.natCast_zero, Int.sub_zero, List.nil_append]
          rfl

theorem processCommands_eq (s : State) (o : Outcome) :
    processCommands callbacks s o = (processCommandsServing callbacks s o).map Prod.fst := by
  unfold processCommands processCommandsServing
  dsimp only
  cases (polled s o.revents).pollfds.head? with
  | none => rfl
  | some listening =>
    by_cases hin : listening.revents.pollin = true
    · simp only [if_pos hin]
      exact loop_eq ..
    · simp only [if_neg hin]
      exact loop_eq ..

/-! ## One round -/

/-- The replies of the other connections are left alone. -/
structure Spares (p : Pollfd) (s s' : State) : Prop where
  queued : ∀ c, c ≠ p.conn → s'.queued c = s.queued c
  sent : ∀ c, c ≠ p.conn → s'.sent c = s.sent c
  results : ∀ fd, fd ≠ p.fd → s'.results fd = s.results fd

theorem Spares.refl (p : Pollfd) (s : State) : Spares p s s :=
  ⟨fun _ _ => rfl, fun _ _ => rfl, fun _ _ => rfl⟩

theorem spares_foldl_send (p : Pollfd) (rs : List Reply) (s : State) :
    Spares p s (rs.foldl (fun s r => send s p.fd p.conn r) s) ∧
      (rs.foldl (fun s r => send s p.fd p.conn r) s).closed = s.closed := by
  induction rs generalizing s with
  | nil => exact ⟨.refl p s, rfl⟩
  | cons r rs ih =>
    obtain ⟨h, hclosed⟩ := ih (send s p.fd p.conn r)
    refine ⟨⟨fun c hc => ?_, fun c hc => h.sent c hc, fun fd hfd => ?_⟩, hclosed⟩
    · exact (h.queued c hc).trans (Function.update_of_ne hc _ _)
    · exact (h.results fd hfd).trans (Function.update_of_ne hfd _ _)

/-- A ready connection, at the end of `kept`, is served: its entry stays where it is, or the
last of those behind it takes its place. -/
inductive Serves (s : State) (kept : List Pollfd) (p : Pollfd) (todo : List Pollfd) :
    State → Service → Prop
  | stays {s' : State} (q : Pollfd) : q.peer = p.peer → s'.pollfds = kept ++ q :: todo →
      s'.closed = s.closed → Spares p s s' →
      Serves s kept p todo s' ⟨p, p.revents.pollout, some q⟩
  | closes {s' : State} (why : Closing) :
      s'.pollfds = kept ++ SwapRemove.backFirst todo →
      s'.closed = s.closed ++ [(p.conn, why)] → Spares p s s' →
      Serves s kept p todo s' ⟨p, p.revents.pollout, none⟩

theorem processSocketWrite_cases (s : State) (i : Nat) (p : Pollfd) (io : Io) :
    Spares p s (processSocketWrite s i p io) ∧
      (((processSocketWrite s i p io).pollfds = s.pollfds ∧
          (processSocketWrite s i p io).closed = s.closed) ∨
        ∃ why, (processSocketWrite s i p io).pollfds = SwapRemove.swapRemove s.pollfds i ∧
          (processSocketWrite s i p io).closed = s.closed ++ [(p.conn, why)]) := by
  unfold processSocketWrite
  obtain ⟨⟨pos, last⟩, hres⟩ : ∃ r, sendFrames io.sends
      ((s.result p.fd).bufs.length - (s.result p.fd).pos) (s.result p.fd).pos = r := ⟨_, rfl⟩
  simp only [hres]
  split
  · refine ⟨⟨fun c _ => rfl, fun c hc => Function.update_of_ne hc _ _, fun fd hfd => ?_⟩,
      .inr ⟨_, rfl, rfl⟩⟩
    exact (Function.update_of_ne hfd _ _).trans (Function.update_of_ne hfd _ _)
  · exact ⟨⟨fun c _ => rfl, fun c hc => Function.update_of_ne hc _ _,
      fun fd hfd => Function.update_of_ne hfd _ _⟩, .inl ⟨rfl, rfl⟩⟩

/-- **One round** serves the entry, if it is ready. -/
theorem serve_spec {kept todo : List Pollfd} (io : Io) (h : s.pollfds = kept ++ p :: todo) :
    (p.isReady = false ∧ serve callbacks io s kept.length p = (s, none)) ∨
      ∃ s' service, p.isReady = true ∧
        serve callbacks io s kept.length p = (s', some service) ∧
          Serves s kept p todo s' service := by
  unfold serve
  by_cases hout : p.revents.pollout = true
  · right
    obtain ⟨hspares, ⟨hpollfds, hclosed⟩ | ⟨why, hpollfds, hclosed⟩⟩ :=
      processSocketWrite_cases s kept.length p io
    · refine ⟨_, _, by simp [Pollfd.isReady, hout], if_pos hout, ?_⟩
      rw [hpollfds, if_neg (Nat.lt_irrefl _), ← hout]
      exact .stays p rfl (hpollfds.trans h) hclosed hspares
    · rw [h, SwapRemove.swapRemove_append_cons] at hpollfds
      refine ⟨_, _, by simp [Pollfd.isReady, hout], if_pos hout, ?_⟩
      rw [hpollfds, h, if_pos (by simp), ← hout]
      exact .closes why hpollfds hclosed hspares
  · have hout' : p.revents.pollout = false := Bool.eq_false_iff.mpr hout
    rw [if_neg hout]
    by_cases hin : (p.revents.pollhup || p.revents.pollin) = true
    · right
      obtain ⟨hspares, hclosed⟩ := spares_foldl_send p (replies callbacks io)
        { s with pollfds := s.pollfds.set kept.length { p with events := .pollout } }
      refine ⟨_, _, ?_, if_pos hin, ?_⟩
      · rcases Bool.or_eq_true_iff.mp hin with hin | hin <;> simp [Pollfd.isReady, hin]
      · rw [← hout']
        refine .stays _ rfl ?_ hclosed ⟨hspares.queued, hspares.sent, hspares.results⟩
        rw [pollfds_processSocketRead, h, SwapRemove.set_append_cons]
    · left
      rw [if_neg hin]
      obtain ⟨hhup, hpollin⟩ := Bool.or_eq_false_iff.mp (Bool.eq_false_iff.mpr hin)
      exact ⟨by simp [Pollfd.isReady, hhup, hpollin, hout'], rfl⟩

/-! ## The whole loop -/

/-- **What a loop over `todo` comes to**, which leaves `rest` of it: every ready connection
was read from or written to once, and no other; exactly those that were closed are missing
from the list; the others, and the replies queued for them, are what they were. -/
structure ServesReady (todo rest : List Pollfd) (services : List Service) (s s' : State) :
    Prop where
  once : (services.map Service.entry).Perm (todo.filter Pollfd.isReady)
  wrote : ∀ service ∈ services, service.wrote = service.entry.revents.pollout
  same : ∀ service ∈ services, ∀ q ∈ service.after, q.peer = service.entry.peer
  rest : rest.Perm (todo.filter (fun p => !p.isReady) ++ services.filterMap Service.after)
  closed : ∃ gone, s'.closed = s.closed ++ gone ∧ gone.map Prod.fst =
    (services.filter fun service => service.after.isNone).map fun service => service.entry.conn
  queued : ∀ c, c ∉ services.map (fun service => service.entry.conn) →
    s'.queued c = s.queued c ∧ s'.sent c = s.sent c
  results : ∀ fd, fd ∉ services.map (fun service => service.entry.fd) →
    s'.results fd = s.results fd

variable {todo rest : List Pollfd} {services : List Service} {s' s'' : State}

/-- Nothing that is ready is left. -/
theorem ServesReady.of_none (h : todo.filter Pollfd.isReady = []) :
    ServesReady todo todo [] s s where
  once := by rw [h]; exact .nil
  wrote _ h := absurd h List.not_mem_nil
  same _ h := absurd h List.not_mem_nil
  rest := by
    have hall : todo.filter (fun p => !p.isReady) = todo := by
      rw [List.filter_eq_self]
      intro p hp
      rw [List.filter_eq_nil_iff] at h
      simpa using h p hp
    rw [hall, List.filterMap_nil, List.append_nil]
  closed := ⟨[], (List.append_nil _).symm, rfl⟩
  queued _ _ := ⟨rfl, rfl⟩
  results _ _ := rfl

/-- An entry that is not ready is passed over. -/
theorem ServesReady.skip (h : ServesReady todo rest services s s') (hp : p.isReady = false) :
    ServesReady (p :: todo) (p :: rest) services s s' where
  once := by rw [List.filter_cons_of_neg (by simp [hp])]; exact h.once
  wrote := h.wrote
  same := h.same
  rest := by
    rw [List.filter_cons_of_pos (by simp [hp]), List.cons_append]
    exact h.rest.cons p
  closed := h.closed
  queued := h.queued
  results := h.results

/-- The services behind one that spared the other connections. -/
theorem ServesReady.after_spares {service : Service} (h : ServesReady todo rest services s' s'')
    (hs : Spares service.entry s s') :
    (∀ c, c ∉ (service :: services).map (fun service => service.entry.conn) →
        s''.queued c = s.queued c ∧ s''.sent c = s.sent c) ∧
      ∀ fd, fd ∉ (service :: services).map (fun service => service.entry.fd) →
        s''.results fd = s.results fd := by
  refine ⟨fun c hc => ?_, fun fd hfd => ?_⟩
  · obtain ⟨hne, hmem⟩ := not_or.mp (mt List.mem_cons.mpr hc)
    obtain ⟨hq, ht⟩ := h.queued c hmem
    exact ⟨hq.trans (hs.queued c hne), ht.trans (hs.sent c hne)⟩
  · obtain ⟨hne, hmem⟩ := not_or.mp (mt List.mem_cons.mpr hfd)
    exact (h.results fd hmem).trans (hs.results fd hne)

/-- A ready connection is served and stays. -/
theorem ServesReady.stay {q : Pollfd} (h : ServesReady todo rest services s' s'')
    (hp : p.isReady = true) (hq : q.peer = p.peer) (hclosed : s'.closed = s.closed)
    (hs : Spares p s s') :
    ServesReady (p :: todo) (q :: rest) (⟨p, p.revents.pollout, some q⟩ :: services) s s'' where
  once := by rw [List.filter_cons_of_pos hp, List.map_cons]; exact h.once.cons p
  wrote := List.forall_mem_cons.mpr ⟨rfl, h.wrote⟩
  same := List.forall_mem_cons.mpr ⟨fun _ hq' => Option.some.inj hq' ▸ hq, h.same⟩
  rest := by
    have hmap : List.filterMap Service.after (⟨p, p.revents.pollout, some q⟩ :: services) =
        q :: services.filterMap Service.after := rfl
    rw [List.filter_cons_of_neg (by simp [hp]), hmap]
    exact (h.rest.cons q).trans List.perm_middle.symm
  closed := by
    obtain ⟨gone, hgone, hmap⟩ := h.closed
    exact ⟨gone, hclosed ▸ hgone, hmap⟩
  queued := (h.after_spares hs).1
  results := (h.after_spares hs).2

/-- A ready connection is served and closed; the last one has taken its place. -/
theorem ServesReady.close {why : Closing}
    (h : ServesReady (SwapRemove.backFirst todo) rest services s' s'') (hp : p.isReady = true)
    (hclosed : s'.closed = s.closed ++ [(p.conn, why)]) (hs : Spares p s s') :
    ServesReady (p :: todo) rest (⟨p, p.revents.pollout, none⟩ :: services) s s'' where
  once := by
    rw [List.filter_cons_of_pos hp, List.map_cons]
    exact (h.once.trans ((SwapRemove.backFirst_perm todo).filter _)).cons p
  wrote := List.forall_mem_cons.mpr ⟨rfl, h.wrote⟩
  same := List.forall_mem_cons.mpr ⟨fun _ hq => (nomatch hq), h.same⟩
  rest := by
    have hmap : List.filterMap Service.after (⟨p, p.revents.pollout, none⟩ :: services) =
        services.filterMap Service.after := rfl
    rw [List.filter_cons_of_neg (by simp [hp]), hmap]
    exact h.rest.trans (((SwapRemove.backFirst_perm todo).filter _).append_right _)
  closed := by
    obtain ⟨gone, hgone, hmap⟩ := h.closed
    refine ⟨(p.conn, why) :: gone, ?_, ?_⟩
    · rw [hgone, hclosed, List.append_assoc, List.singleton_append]
    · rw [List.map_cons, hmap]
      rfl
  queued := (h.after_spares hs).1
  results := (h.after_spares hs).2

/-- **The loop ends, and has served the ready connections**, if it was given their number or
more.  `kept` is what it is past, the listening socket first. -/
theorem loopServing_spec {kept : List Pollfd} {fuel : Nat} {nfds : Int} (io : Nat → Io)
    (hs : s.pollfds = kept ++ todo) (hkept : kept ≠ [])
    (hn : ((todo.filter Pollfd.isReady).length : Int) ≤ nfds) (hf : todo.length ≤ fuel) :
    ∃ s' services rest, loopServing callbacks io fuel s kept.length nfds = some (s', services) ∧
      s'.pollfds = kept ++ rest ∧ ServesReady todo rest services s s' := by
  induction fuel generalizing s kept todo nfds with
  | zero =>
    obtain rfl := List.length_eq_zero_iff.mp (Nat.le_zero.mp hf)
    unfold loopServing
    rw [hs, List.append_nil, List.getElem?_eq_none (Nat.le_refl _)]
    exact ⟨s, [], [], rfl, by rw [hs], .of_none rfl⟩
  | succ fuel ih =>
    unfold loopServing
    cases todo with
    | nil =>
      rw [hs, List.append_nil, List.getElem?_eq_none (Nat.le_refl _)]
      exact ⟨s, [], [], rfl, by rw [hs], .of_none rfl⟩
    | cons p todo =>
      have hget : s.pollfds[kept.length]? = some p := by
        rw [hs, List.getElem?_append_right (Nat.le_refl _), Nat.sub_self, List.getElem?_cons_zero]
      have hf' : todo.length ≤ fuel := Nat.le_of_succ_le_succ hf
      simp only [hget]
      by_cases hdone : nfds ≤ 0
      · -- the count has come down to zero: none of those left is ready
        have hnone : (p :: todo).filter Pollfd.isReady = [] :=
          List.length_eq_zero_iff.mp (by omega)
        exact ⟨s, [], p :: todo, if_pos hdone, hs, .of_none hnone⟩
      rw [if_neg hdone]
      rcases @serve_spec callbacks _ _ _ _ (io p.conn) hs with
        ⟨hp, hserve⟩ | ⟨t, service, hp, hserve, hserves⟩
      · simp only [hserve, Nat.lt_irrefl, if_false, Option.toList_none, List.length_nil,
          Int.natCast_zero, Int.sub_zero, List.nil_append]
        rw [List.filter_cons_of_neg (by simp [hp])] at hn
        have hs' : s.pollfds = kept ++ [p] ++ todo := by
          rw [hs, List.append_assoc, List.singleton_append]
        obtain ⟨s', services, rest, hloop, hrest, hready⟩ := ih hs' (by simp) hn hf'
        rw [List.length_append, List.length_singleton] at hloop
        rw [List.append_assoc, List.singleton_append] at hrest
        exact ⟨s', services, p :: rest, by rw [hloop]; rfl, hrest, hready.skip hp⟩
      · have hn' : ((todo.filter Pollfd.isReady).length : Int) ≤ nfds - 1 := by
          rw [List.filter_cons_of_pos hp, List.length_cons] at hn
          omega
        simp only [hserve, Option.toList_some, List.length_singleton, Int.natCast_one]
        cases hserves with
        | stays q hq hpollfds hclosed hspares =>
          have hlen : ¬ t.pollfds.length < s.pollfds.length := by
            rw [hpollfds, hs]
            simp
          rw [if_neg hlen]
          have ht : t.pollfds = kept ++ [q] ++ todo := by
            rw [hpollfds, List.append_assoc, List.singleton_append]
          obtain ⟨s', services, rest, hloop, hrest, hready⟩ := ih ht (by simp) hn' hf'
          rw [List.length_append, List.length_singleton] at hloop
          rw [List.append_assoc, List.singleton_append] at hrest
          exact ⟨s', _ :: services, q :: rest, by rw [hloop]; rfl, hrest,
            hready.stay hp hq hclosed hspares⟩
        | closes why hpollfds hclosed hspares =>
          have hlen : t.pollfds.length < s.pollfds.length := by
            rw [hpollfds, hs]
            simp
          have hpos := List.length_pos_iff.mpr hkept
          rw [if_pos hlen, Nat.sub_add_cancel hpos]
          have hn'' :
              (((SwapRemove.backFirst todo).filter Pollfd.isReady).length : Int) ≤ nfds - 1 := by
            rwa [((SwapRemove.backFirst_perm todo).filter _).length_eq]
          obtain ⟨s', services, rest, hloop, hrest, hready⟩ := ih hpollfds hkept hn''
            (by rwa [SwapRemove.length_backFirst])
          exact ⟨s', _ :: services, rest, by rw [hloop]; rfl, hrest,
            hready.close hp hclosed hspares⟩

/-! ## A call -/

/-- The connection a call accepts, in a list of entries. -/
def accepts (s : State) (o : Outcome) (listening : Pollfd) : List Pollfd :=
  if (o.revents listening.fd).pollin then
    (o.accept.map fun fd => ⟨fd, .pollin, ⟨false, false, false⟩, s.accepted⟩).toList
  else []

/-- An entry as `poll` leaves it. -/
def Outcome.fill (o : Outcome) (p : Pollfd) : Pollfd := { p with revents := o.revents p.fd }

/-- The entries behind the listening socket when the loop starts. -/
theorem pollfds_acceptOne {listening : Pollfd} {conns : List Pollfd} (o : Outcome)
    (hs : s.pollfds = listening :: conns) :
    (if (o.revents listening.fd).pollin then acceptOne (polled s o.revents) o.accept
      else polled s o.revents).pollfds =
        [o.fill listening] ++ (conns.map o.fill ++ accepts s o listening) := by
  have hpolled : (polled s o.revents).pollfds = o.fill listening :: conns.map o.fill := by
    rw [polled, hs]
    rfl
  unfold accepts
  split
  · cases o.accept with
    | none => simp only [acceptOne, hpolled, Option.map_none, Option.toList_none, List.append_nil,
        List.singleton_append]
    | some fd =>
      simp only [acceptOne, hpolled, Option.map_some, Option.toList_some, List.cons_append]
      rfl
  · rw [hpolled, List.append_nil, List.singleton_append]

theorem isReady_accepts {o : Outcome} {listening q : Pollfd} (h : q ∈ accepts s o listening) :
    q.isReady = false := by
  unfold accepts at h
  split at h
  · cases ho : o.accept with
    | none =>
      rw [ho] at h
      cases h
    | some fd =>
      rw [ho] at h
      rw [List.mem_singleton.mp h]
      rfl
  · cases h

/-- An accepted connection is not ready yet. -/
theorem filter_isReady_accepts (o : Outcome) (listening : Pollfd) (conns : List Pollfd) :
    (conns.map o.fill ++ accepts s o listening).filter Pollfd.isReady =
      (conns.map o.fill).filter Pollfd.isReady := by
  have hnone : (accepts s o listening).filter Pollfd.isReady = [] := by
    rw [List.filter_eq_nil_iff]
    intro q hq
    rw [isReady_accepts hq]
    decide
  rw [List.filter_append, hnone, List.append_nil]

/-- The state and the count the loop starts with: every ready connection is counted. -/
theorem processCommandsServing_start (callbacks : Nat → Option Nat) {listening : Pollfd}
    {conns : List Pollfd} (o : Outcome) (ready : Bool) (hs : s.pollfds = listening :: conns)
    (hready : (o.revents listening.fd).pollin = true → ready = true)
    (hn : o.nfds = (((conns.map o.fill).filter Pollfd.isReady).length : Int) + ready.toNat) :
    ∃ (t : State) (nfds : Int),
      t.pollfds = [o.fill listening] ++ (conns.map o.fill ++ accepts s o listening) ∧
      processCommandsServing callbacks s o =
        loopServing callbacks o.io t.pollfds.length t 1 nfds ∧
      (((conns.map o.fill).filter Pollfd.isReady).length : Int) ≤ nfds ∧
      t.closed = s.closed ∧ t.queued = s.queued ∧ t.sent = s.sent ∧ t.results = s.results := by
  have hpollfds := pollfds_acceptOne o hs
  have hhead : (polled s o.revents).pollfds.head? = some (o.fill listening) := by
    rw [polled, hs]
    rfl
  have hrev : (o.fill listening).revents = o.revents listening.fd := rfl
  unfold processCommandsServing
  simp only [hhead, hrev]
  by_cases hin : (o.revents listening.fd).pollin = true
  · rw [if_pos hin] at hpollfds ⊢
    refine ⟨_, _, hpollfds, rfl, ?_, ?_⟩
    · rw [hn, hready hin]
      simp
    · cases o.accept <;> exact ⟨rfl, rfl, rfl, rfl⟩
  · rw [if_neg hin] at hpollfds ⊢
    refine ⟨_, _, hpollfds, rfl, ?_, rfl, rfl, rfl, rfl⟩
    omega

/-- **Every ready connection is served exactly once per `poll`.**  `ready` says whether the
listening socket has events; `nfds` is the number of entries that do. -/
theorem ready_served_once {listening : Pollfd} {conns : List Pollfd} (o : Outcome) (ready : Bool)
    (hs : s.pollfds = listening :: conns)
    (hready : (o.revents listening.fd).pollin = true → ready = true)
    (hn : o.nfds = (((conns.map o.fill).filter Pollfd.isReady).length : Int) + ready.toNat) :
    ∃ s' services rest, processCommands callbacks s o = some s' ∧
      processCommandsServing callbacks s o = some (s', services) ∧
      s'.pollfds = o.fill listening :: rest ∧
      ServesReady (conns.map o.fill ++ accepts s o listening) rest services s s' ∧
      (services.map Service.entry).Perm ((conns.map o.fill).filter Pollfd.isReady) := by
  have hfilter := filter_isReady_accepts (s := s) o listening conns
  obtain ⟨t, nfds, hstart, hcall, hle, hclosed, hqueued, hsent, hresults⟩ :=
    processCommandsServing_start callbacks o ready hs hready hn
  rw [← hfilter] at hle
  have hfuel : (conns.map o.fill ++ accepts s o listening).length ≤ t.pollfds.length := by
    rw [hstart, List.singleton_append, List.length_cons]
    exact Nat.le_succ _
  obtain ⟨s', services, rest, hloop, hrest, hserved⟩ := @loopServing_spec callbacks _ _ _ _ _ o.io
    hstart (List.cons_ne_nil _ _) hle hfuel
  rw [List.length_singleton, ← hcall] at hloop
  refine ⟨s', services, rest, ?_, hloop, hrest, ⟨hserved.once, hserved.wrote, hserved.same,
    hserved.rest, hclosed ▸ hserved.closed, ?_, ?_⟩, hfilter ▸ hserved.once⟩
  · rw [processCommands_eq, hloop]
    rfl
  · rw [← hqueued, ← hsent]
    exact hserved.queued
  · rw [← hresults]
    exact hserved.results

/-- Three connections, the first of which has been read from. -/
def crowded : State :=
  { initial 3 with
    pollfds := [⟨3, .pollin, ⟨false, false, false⟩, 0⟩, ⟨5, .pollout, ⟨false, false, false⟩, 0⟩,
      ⟨6, .pollin, ⟨false, false, false⟩, 1⟩, ⟨7, .pollin, ⟨false, false, false⟩, 2⟩]
    accepted := 3 }

/-- The first and the last are ready, and a fourth one connects. -/
def crowd : Outcome where
  revents fd := ⟨fd = 3 || fd = 7, fd = 5, false⟩
  nfds := 3
  accept := some 8
  io _ := ⟨.frame [5, 0, 0, 0], ⟨[.success], none⟩, fun _ => .sent⟩

/-- The first is closed and the new one takes its place; the last is read from, once. -/
theorem ready_served_once_swap : ∃ s' services, processCommands registered crowded crowd = some s' ∧
    processCommandsServing registered crowded crowd = some (s', services) ∧
    (services.map fun service => service.entry.fd) = [5, 7] ∧
    (services.map Service.entry).Perm
      ((crowded.pollfds.tail.map crowd.fill).filter Pollfd.isReady) ∧
    s'.pollfds.map Pollfd.fd = [3, 8, 6, 7] := by
  obtain ⟨s', services, rest, hcall, hserving, -, -, honce⟩ := @ready_served_once registered crowded
    ⟨3, .pollin, ⟨false, false, false⟩, 0⟩ crowded.pollfds.tail crowd true rfl (fun _ => rfl)
    (by decide)
  have hrun : (processCommandsServing registered crowded crowd).map (fun x =>
      (x.2.map (fun service => service.entry.fd), x.1.pollfds.map Pollfd.fd)) =
        some ([5, 7], [3, 8, 6, 7]) := by decide +kernel
  rw [hserving, Option.map_some] at hrun
  obtain ⟨hfds, hpollfds⟩ := Prod.mk.inj (Option.some.inj hrun)
  exact ⟨s', services, hcall, hserving, hfds, honce, hpollfds⟩

end Xtr.Dispatcher
