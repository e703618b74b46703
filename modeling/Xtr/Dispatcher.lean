import Mathlib.Logic.Function.Basic
import Mathlib.Data.List.Nodup
import Xtr.CString
import Xtr.Machine
import Xtr.SwapRemove

/-!
# The command dispatcher

`command_dispatcher`: the connections of `pollfds_`, behind the listening socket, and the
replies queued for them in `results_`, by descriptor number.

One event is one call of `process_commands`, with everything that comes from outside: what
`poll` reports, the descriptor `accept4` returns, and for each connection what is received,
what the callback sends and what becomes of each send.  `poll` may report any bits and any
count.  A send is all or nothing, since the socket is of type `SOCK_SEQPACKET`.  A
descriptor that is accepted is not open; it may well have been, for an earlier client.

Not part of the program: connections are numbered as they are accepted (`conn`), and
`queued`, `sent` and `closed` record, by that number, the replies queued for a connection,
the ones sent to it, and how it was closed.
-/
namespace Xtr.Dispatcher

/-! ## Frames -/

/-- The frames sent to a client.  `name` and `reason` are arrays of characters. -/
inductive Reply
  | sinkInfo (level : Int) (bufCapacity bufNbytes droppedCount : Nat) (name : Str)
  | success
  | error (reason : Str)
  deriving DecidableEq

/-- The frame of `send_error`. -/
def errorFrame (reason : Str) : Reply := .error (strzcpy 256 reason)

/-- `sizeof(frame_header)`. -/
def headerSize : Nat := 4

/-- The `frame_id` of a received frame. -/
def frameId (bytes : Str) : Nat :=
  (bytes.take headerSize).foldr (fun b n => b.toNat + 256 * n) 0

/-! ## The state -/

inductive Events
  | pollin
  | pollout
  deriving DecidableEq

/-- The bits of `revents` that are looked at. -/
structure Revents where
  pollin : Bool
  pollout : Bool
  pollhup : Bool
  deriving DecidableEq

/-- `pollfd`. -/
structure Pollfd where
  fd : Nat
  events : Events
  revents : Revents
  conn : Nat
  deriving DecidableEq

/-- `callback_result`. -/
structure CallbackResult where
  bufs : List Reply
  pos : Nat
  deriving DecidableEq

/-- Why a connection was closed. -/
inductive Closing
  | finished
  | sendFailed
  | pollFailed
  deriving DecidableEq

structure State where
  pollfds : List Pollfd
  results : Nat → Option CallbackResult
  accepted : Nat
  queued : Nat → List Reply
  sent : Nat → List Reply
  closed : List (Nat × Closing)

/-- `is_open`. -/
def State.isOpen (s : State) : Bool := s.pollfds ≠ []

/-- What `results_[fd]` refers to. -/
def State.result (s : State) (fd : Nat) : CallbackResult := (s.results fd).getD ⟨[], 0⟩

/-! ## The outside -/

inductive Recv
  | error
  | frame (bytes : Str)

/-- What a callback does: the frames it sends to the descriptor it was given, and the text
of its exception, if it throws one. -/
structure Handled where
  frames : List Reply
  thrown : Option Str

inductive SendResult
  | sent
  | again
  | error
  deriving DecidableEq

/-- What happens to one connection in one call; `sends` says what becomes of the frame at
a position of the queue. -/
structure Io where
  recv : Recv
  handled : Handled
  sends : Nat → SendResult

/-- What happens in one call in which `poll` succeeds. -/
structure Outcome where
  revents : Nat → Revents
  nfds : Int
  accept : Option Nat
  io : Nat → Io

/-! ## The operations -/

/-- `send`: the reply is queued for the descriptor, on behalf of the connection whose
request it answers. -/
def send (s : State) (fd conn : Nat) (r : Reply) : State :=
  let cr := s.result fd
  { s with
    results := Function.update s.results fd (some { cr with bufs := cr.bufs ++ [r] })
    queued := Function.update s.queued conn (s.queued conn ++ [r]) }

/-- The replies to what was received.  `callbacks` gives the size of the frames that have
a callback. -/
def replies (callbacks : Nat → Option Nat) (io : Io) : List Reply :=
  match io.recv with
  | .error => []
  | .frame bytes =>
    if bytes.length = 0 then []
    else if bytes.length < headerSize then [errorFrame (text "Incomplete frame header")]
    else match callbacks (frameId bytes) with
      | none => [errorFrame (text "Invalid frame id")]
      | some size =>
        if bytes.length ≠ size then [errorFrame (text "Invalid frame length")]
        else io.handled.frames ++ (io.handled.thrown.map errorFrame).toList

/-- `process_socket_read` on the entry `p` at `i`. -/
def processSocketRead (callbacks : Nat → Option Nat) (s : State) (i : Nat) (p : Pollfd) (io : Io) :
    State :=
  let s := { s with pollfds := s.pollfds.set i { p with events := .pollout } }
  (replies callbacks io).foldl (fun s r => send s p.fd p.conn r) s

/-- The loop of `process_socket_write`, with `n` frames to go from `pos`: where it stops,
and the last result. -/
def sendFrames (sends : Nat → SendResult) : Nat → Nat → Nat × SendResult
  | 0, pos => (pos, .sent)
  | n + 1, pos =>
    match sends pos with
    | .sent => sendFrames sends n (pos + 1)
    | r => (pos, r)

/-- `disconnect` of the entry `p` at `i`. -/
def disconnect (s : State) (i : Nat) (p : Pollfd) (why : Closing) : State :=
  { s with
    pollfds := SwapRemove.swapRemove s.pollfds i
    closed := s.closed ++ [(p.conn, why)] }

/-- The frames of the queue `cr` up to `pos` have been sent. -/
def advance (s : State) (p : Pollfd) (cr : CallbackResult) (pos : Nat) : State :=
  { s with
    results := Function.update s.results p.fd (some { cr with pos := pos })
    sent := Function.update s.sent p.conn
      (s.sent p.conn ++ (cr.bufs.drop cr.pos).take (pos - cr.pos)) }

/-- `results_.erase(fd)`. -/
def erase (s : State) (fd : Nat) : State :=
  { s with results := Function.update s.results fd none }

/-- `process_socket_write` on the entry `p` at `i`. -/
def processSocketWrite (s : State) (i : Nat) (p : Pollfd) (io : Io) : State :=
  let cr := s.result p.fd
  let (pos, last) := sendFrames io.sends (cr.bufs.length - cr.pos) cr.pos
  let s := advance s p cr pos
  if last = .error ∨ pos = cr.bufs.length then
    disconnect (erase s p.fd) i p (if last = .error then .sendFailed else .finished)
  else s

/-- The loop of `process_commands`, given up after `fuel` rounds. -/
def loop (callbacks : Nat → Option Nat) (io : Nat → Io) (fuel : Nat) (s : State) (i : Nat)
    (nfds : Int) : Option State :=
  match s.pollfds[i]? with
  | none => some s
  | some p =>
    if nfds ≤ 0 then some s
    else match fuel with
      | 0 => none
      | fuel + 1 =>
        let n := s.pollfds.length
        if p.revents.pollout then
          let s := processSocketWrite s i p (io p.conn)
          loop callbacks io fuel s (if s.pollfds.length < n then i - 1 + 1 else i + 1) (nfds - 1)
        else if p.revents.pollhup || p.revents.pollin then
          loop callbacks io fuel (processSocketRead callbacks s i p (io p.conn)) (i + 1) (nfds - 1)
        else loop callbacks io fuel s (i + 1) nfds

/-- `poll` has filled in `revents`. -/
def polled (s : State) (revents : Nat → Revents) : State :=
  { s with pollfds := s.pollfds.map fun p => { p with revents := revents p.fd } }

/-- The listening socket is ready: a connection is accepted. -/
def acceptOne (s : State) (fd : Option Nat) : State :=
  match fd with
  | none => s
  | some fd => { s with
      pollfds := s.pollfds ++ [⟨fd, .pollin, ⟨false, false, false⟩, s.accepted⟩]
      accepted := s.accepted + 1 }

/-- `process_commands`, when `poll` succeeds. -/
def processCommands (callbacks : Nat → Option Nat) (s : State) (o : Outcome) : Option State :=
  let s := polled s o.revents
  match s.pollfds.head? with
  | none => none
  | some listening =>
    let (s, nfds) := if listening.revents.pollin then (acceptOne s o.accept, o.nfds - 1)
      else (s, o.nfds)
    loop callbacks o.io s.pollfds.length s 1 nfds

/-- `process_commands`, when `poll` fails: every connection is closed. -/
def pollFails (s : State) : State :=
  { s with
    pollfds := []
    closed := s.closed ++ s.pollfds.tail.map fun p => (p.conn, .pollFailed) }

inductive Event
  | pollFails
  | processCommands (o : Outcome)

/-- `run_once` calls `process_commands` while the dispatcher is open. -/
def step (callbacks : Nat → Option Nat) (s : State) (e : Event) : Option State :=
  if s.isOpen then
    match e with
    | .pollFails => some (pollFails s)
    | .processCommands o =>
      if ∃ fd, o.accept = some fd ∧ fd ∈ s.pollfds.map Pollfd.fd then none
      else processCommands callbacks s o
  else none

/-- A dispatcher that listens on the descriptor `fd`. -/
def initial (fd : Nat) : State where
  pollfds := [⟨fd, .pollin, ⟨false, false, false⟩, 0⟩]
  results _ := none
  accepted := 0
  queued _ := []
  sent _ := []
  closed := []

def machine (callbacks : Nat → Option Nat) : Machine State Event where
  init s := ∃ fd, s = initial fd
  step := step callbacks

/-! ## The invariant -/

def Pollfd.peer (p : Pollfd) : Nat × Nat := (p.fd, p.conn)

/-- The descriptors and connections of `pollfds_`, the listening socket first. -/
def State.peers (s : State) : List (Nat × Nat) := s.pollfds.map Pollfd.peer

/-- The queue of an open connection is the one under its descriptor; what is sent is the
part before `pos`.  All that is kept of a closed one is whether everything was sent. -/
structure Inv (s : State) : Prop where
  fds : (s.peers.map Prod.fst).Nodup
  conns : (s.peers.tail.map Prod.snd).Nodup
  accepted : ∀ p ∈ s.peers.tail, p.2 < s.accepted
  fresh : ∀ c, s.accepted ≤ c → s.queued c = [] ∧ s.sent c = []
  queues : ∀ p ∈ s.peers.tail, (s.result p.1).pos ≤ (s.result p.1).bufs.length ∧
    s.queued p.2 = (s.result p.1).bufs ∧
    s.sent p.2 = (s.result p.1).bufs.take (s.result p.1).pos
  keys : s.peers ≠ [] → ∀ fd, s.results fd ≠ none → ∃ p ∈ s.peers.tail, p.1 = fd
  ordered : ∀ c, s.sent c <+: s.queued c
  gone : ∀ c why, (c, why) ∈ s.closed → c < s.accepted ∧ ∀ p ∈ s.peers.tail, p.2 ≠ c
  finished : ∀ c, (c, .finished) ∈ s.closed → s.sent c = s.queued c
  known : ∀ c, c < s.accepted → (∃ p ∈ s.peers.tail, p.2 = c) ∨ ∃ why, (c, why) ∈ s.closed

variable {s : State}

theorem Inv.initial (fd : Nat) : Inv (initial fd) where
  fds := List.nodup_singleton _
  conns := List.nodup_nil
  accepted _ hp := absurd hp List.not_mem_nil
  fresh _ _ := ⟨rfl, rfl⟩
  queues _ hp := absurd hp List.not_mem_nil
  keys _ _ h := absurd rfl h
  ordered _ := List.prefix_rfl
  gone _ _ h := absurd h List.not_mem_nil
  finished _ h := absurd h List.not_mem_nil
  known _ h := absurd h (Nat.not_lt_zero _)

/-- Nothing depends on what is polled for. -/
theorem Inv.of_peers (h : Inv s) {pollfds : List Pollfd}
    (heq : pollfds.map Pollfd.peer = s.peers) :
    Inv { s with pollfds := pollfds } := by
  have hpeers : State.peers { s with pollfds := pollfds } = s.peers := heq
  refine ⟨?_, ?_, ?_, h.fresh, ?_, ?_, h.ordered, ?_, h.finished, ?_⟩
  all_goals rw [hpeers]
  exacts [h.fds, h.conns, h.accepted, h.queues, h.keys, h.gone, h.known]

/-- Descriptors identify connections, and connections descriptors. -/
theorem Inv.fd_inj (h : Inv s) {p q : Nat × Nat} (hp : p ∈ s.peers.tail) (hq : q ∈ s.peers.tail)
    (heq : p.1 = q.1) : p = q :=
  List.inj_on_of_nodup_map h.fds (List.mem_of_mem_tail hp) (List.mem_of_mem_tail hq) heq

theorem Inv.conn_inj (h : Inv s) {p q : Nat × Nat} (hp : p ∈ s.peers.tail)
    (hq : q ∈ s.peers.tail) (heq : p.2 = q.2) : p = q :=
  List.inj_on_of_nodup_map h.conns hp hq heq

/-- Replaces the queue of one open connection, and what was queued and sent for it. -/
def State.requeue (s : State) (p : Nat × Nat) (r : CallbackResult) : State :=
  { s with
    results := Function.update s.results p.1 (some r)
    queued := Function.update s.queued p.2 r.bufs
    sent := Function.update s.sent p.2 (r.bufs.take r.pos) }

theorem Inv.requeue (h : Inv s) {p : Nat × Nat} (hp : p ∈ s.peers.tail) {r : CallbackResult}
    (hr : r.pos ≤ r.bufs.length) : Inv (s.requeue p r) := by
  have hpeers : (s.requeue p r).peers = s.peers := rfl
  refine ⟨h.fds, h.conns, h.accepted, fun c hc => ?_, fun q hq => ?_, fun hne fd hfd => ?_,
    fun c => ?_, h.gone, fun c hc => ?_, h.known⟩
  · have hne : c ≠ p.2 := by
      have := h.accepted p hp
      rintro rfl
      exact absurd hc (Nat.not_le.mpr this)
    simp only [State.requeue, Function.update_of_ne hne]
    exact h.fresh c hc
  · by_cases hqp : q = p
    · subst hqp
      simp only [State.requeue, State.result, Function.update_self, Option.getD_some]
      exact ⟨hr, trivial, trivial⟩
    · have h1 : q.1 ≠ p.1 := fun heq => hqp (h.fd_inj hq hp heq)
      have h2 : q.2 ≠ p.2 := fun heq => hqp (h.conn_inj hq hp heq)
      simp only [State.requeue, State.result, Function.update_of_ne h1, Function.update_of_ne h2]
      exact h.queues q hq
  · by_cases heq : fd = p.1
    · exact ⟨p, hp, heq.symm⟩
    · simp only [State.requeue, Function.update_of_ne heq] at hfd
      exact h.keys hne fd hfd
  · by_cases heq : c = p.2
    · subst heq
      simp only [State.requeue, Function.update_self]
      exact List.take_prefix _ _
    · simp only [State.requeue, Function.update_of_ne heq]
      exact h.ordered c
  · have hne : c ≠ p.2 := fun heq => (h.gone c _ hc).2 p hp heq.symm
    simp only [State.requeue, Function.update_of_ne hne]
    exact h.finished c hc

/-- The connections are those there were, less `p`. -/
theorem Inv.remove (h : Inv s) {pollfds : List Pollfd} {p : Nat × Nat} {why : Closing}
    {l : Nat × Nat} {rest rest' : List (Nat × Nat)} (hpeers : s.peers = l :: rest)
    (hpeers' : pollfds.map Pollfd.peer = l :: rest')
    (hperm : rest.Perm (p :: rest'))
    (hwhy : why = .finished → s.sent p.2 = s.queued p.2) :
    Inv { s with
      pollfds := pollfds
      results := Function.update s.results p.1 none
      closed := s.closed ++ [(p.2, why)] } := by
  have hp : p ∈ s.peers.tail := by
    rw [hpeers, List.tail_cons]
    exact hperm.mem_iff.mpr List.mem_cons_self
  have hsub : ∀ q ∈ rest', q ∈ s.peers.tail := by
    intro q hq
    rw [hpeers, List.tail_cons]
    exact hperm.mem_iff.mpr (List.mem_cons_of_mem _ hq)
  have hnd : ((p :: rest').map Prod.snd).Nodup := by
    have := h.conns
    rw [hpeers, List.tail_cons] at this
    exact (hperm.map Prod.snd).nodup_iff.mp this
  have hnd1 : ((l :: p :: rest').map Prod.fst).Nodup := by
    have := h.fds
    rw [hpeers] at this
    exact ((hperm.cons l).map Prod.fst).nodup_iff.mp this
  -- the other connections have other descriptors and other numbers
  have h1 : ∀ q ∈ rest', q.1 ≠ p.1 := by
    intro q hq heq
    rw [List.map_cons, List.map_cons, List.nodup_cons, List.nodup_cons] at hnd1
    exact hnd1.2.1 (heq ▸ List.mem_map_of_mem hq)
  have h2 : ∀ q ∈ rest', q.2 ≠ p.2 := by
    intro q hq heq
    rw [List.map_cons, List.nodup_cons] at hnd
    exact hnd.1 (heq ▸ List.mem_map_of_mem hq)
  have hnew : State.peers { s with
      pollfds := pollfds
      results := Function.update s.results p.1 none
      closed := s.closed ++ [(p.2, why)] } = l :: rest' := hpeers'
  refine ⟨?_, ?_, ?_, h.fresh, ?_, ?_, h.ordered, ?_, ?_, ?_⟩
  · rw [List.map_cons, List.map_cons, List.nodup_cons, List.nodup_cons] at hnd1
    rw [hnew, List.map_cons, List.nodup_cons]
    exact ⟨fun hmem => hnd1.1 (List.mem_cons_of_mem _ hmem), hnd1.2.2⟩
  · rw [hnew]
    exact (List.nodup_cons.mp hnd).2
  · rw [hnew]
    exact fun q hq => h.accepted q (hsub q hq)
  · rw [hnew]
    intro q hq
    have hq' := h.queues q (hsub q hq)
    simp only [State.result, Function.update_of_ne (h1 q hq)]
    exact hq'
  · rw [hnew]
    intro _ fd hfd
    by_cases heq : fd = p.1
    · subst heq
      simp only [Function.update_self, ne_eq, not_true] at hfd
    · simp only [Function.update_of_ne heq] at hfd
      obtain ⟨q, hq, rfl⟩ := h.keys (by rw [hpeers]; exact List.cons_ne_nil _ _) fd hfd
      rw [hpeers, List.tail_cons] at hq
      rcases List.mem_cons.mp (hperm.mem_iff.mp hq) with rfl | hq
      · exact absurd rfl heq
      · exact ⟨q, hq, rfl⟩
  · rw [hnew]
    intro c w hc
    rcases List.mem_append.mp hc with hc | hc
    · obtain ⟨hlt, hno⟩ := h.gone c w hc
      exact ⟨hlt, fun q hq => hno q (hsub q hq)⟩
    · obtain ⟨rfl, -⟩ := Prod.mk.inj (List.mem_singleton.mp hc)
      exact ⟨h.accepted p hp, h2⟩
  · intro c hc
    rcases List.mem_append.mp hc with hc | hc
    · exact h.finished c hc
    · obtain ⟨rfl, rfl⟩ := Prod.mk.inj (List.mem_singleton.mp hc)
      exact hwhy rfl
  · rw [hnew]
    intro c hc
    rcases h.known c hc with ⟨q, hq, rfl⟩ | ⟨w, hw⟩
    · rw [hpeers, List.tail_cons] at hq
      rcases List.mem_cons.mp (hperm.mem_iff.mp hq) with rfl | hq
      · exact .inr ⟨why, List.mem_append_right _ List.mem_cons_self⟩
      · exact .inl ⟨q, hq, rfl⟩
    · exact .inr ⟨w, List.mem_append_left _ hw⟩

/-! ## The operations keep it -/

theorem Inv.send (h : Inv s) {fd conn : Nat} (hp : (fd, conn) ∈ s.peers.tail) (r : Reply) :
    Inv (send s fd conn r) := by
  obtain ⟨hpos, hqueued, hsent⟩ := h.queues _ hp
  -- nothing is sent: the part before `pos` stays the same
  have htake : ((s.result fd).bufs ++ [r]).take (s.result fd).pos = s.sent conn := by
    rw [List.take_append_of_le_length hpos, ← hsent]
  have heq : Dispatcher.send s fd conn r =
      s.requeue (fd, conn) { s.result fd with bufs := (s.result fd).bufs ++ [r] } := by
    simp only [Dispatcher.send, State.requeue, htake, Function.update_eq_self, hqueued]
  rw [heq]
  refine h.requeue hp ?_
  have hpos' : (s.result fd).pos ≤ (s.result fd).bufs.length := hpos
  show (s.result fd).pos ≤ ((s.result fd).bufs ++ [r]).length
  rw [List.length_append]
  omega

theorem Inv.foldl_send (h : Inv s) {fd conn : Nat} (rs : List Reply)
    (hp : (fd, conn) ∈ s.peers.tail) :
    Inv (rs.foldl (fun s r => Dispatcher.send s fd conn r) s) ∧
      (rs.foldl (fun s r => Dispatcher.send s fd conn r) s).pollfds = s.pollfds := by
  induction rs generalizing s with
  | nil => exact ⟨h, rfl⟩
  | cons r rs ih => exact ih (h.send hp r) hp

/-- The entry at an index behind the listening socket. -/
theorem peers_split {i : Nat} {p : Pollfd} (hi : 1 ≤ i) (hp : s.pollfds[i]? = some p) :
    ∃ l before after, s.pollfds = l :: before ++ p :: after ∧ (l :: before).length = i := by
  obtain ⟨before, after, heq, hlen⟩ := SwapRemove.exists_split hp
  cases before with
  | nil =>
    rw [List.length_nil] at hlen
    omega
  | cons l before => exact ⟨l, before, after, heq, hlen⟩

theorem mem_peers_tail {i : Nat} {p : Pollfd} (hi : 1 ≤ i) (hp : s.pollfds[i]? = some p) :
    (p.fd, p.conn) ∈ s.peers.tail := by
  obtain ⟨l, before, after, heq, -⟩ := peers_split hi hp
  simp [State.peers, heq, Pollfd.peer]

variable (callbacks : Nat → Option Nat)

theorem Inv.processSocketRead (h : Inv s) {i : Nat} {p : Pollfd} (hi : 1 ≤ i)
    (hp : s.pollfds[i]? = some p) (io : Io) :
    Inv (processSocketRead callbacks s i p io) ∧
      (processSocketRead callbacks s i p io).pollfds.length = s.pollfds.length := by
  obtain ⟨l, before, after, heq, rfl⟩ := peers_split hi hp
  have hset : (s.pollfds.set (l :: before).length { p with events := .pollout }).map
      Pollfd.peer = s.peers := by
    rw [State.peers, heq, SwapRemove.set_append_cons]
    simp only [List.map_append, List.map_cons, Pollfd.peer]
  have hmem : (p.fd, p.conn) ∈ (State.peers { s with
      pollfds := s.pollfds.set (l :: before).length { p with events := .pollout } }).tail := by
    rw [State.peers, hset]
    exact mem_peers_tail hi hp
  obtain ⟨hinv, hpollfds⟩ := (h.of_peers hset).foldl_send (replies callbacks io) hmem
  refine ⟨hinv, ?_⟩
  unfold Dispatcher.processSocketRead
  rw [hpollfds, List.length_set]

theorem sendFrames_spec (sends : Nat → SendResult) (n pos : Nat) :
    pos ≤ (sendFrames sends n pos).1 ∧ (sendFrames sends n pos).1 ≤ pos + n := by
  induction n generalizing pos with
  | zero => exact ⟨Nat.le_refl _, Nat.le_refl _⟩
  | succ n ih =>
    unfold sendFrames
    split
    · have := ih (pos + 1)
      omega
    · exact ⟨Nat.le_refl _, Nat.le_add_right _ _⟩

/-- The entry at `i` is removed: what is left of the connections. -/
theorem peers_swapRemove {i : Nat} {p : Pollfd} (hi : 1 ≤ i) (hp : s.pollfds[i]? = some p) :
    ∃ l rest rest', s.peers = l :: rest ∧
      (SwapRemove.swapRemove s.pollfds i).map Pollfd.peer = l :: rest' ∧
      rest.Perm (p.peer :: rest') := by
  obtain ⟨l, before, after, heq, rfl⟩ := peers_split hi hp
  have hperm : (before ++ p :: after).Perm (p :: (before ++ SwapRemove.backFirst after)) :=
    List.perm_middle.trans (((SwapRemove.backFirst_perm after).append_left before).symm.cons p)
  refine ⟨l.peer, _, (before ++ SwapRemove.backFirst after).map Pollfd.peer, ?_, ?_,
    hperm.map Pollfd.peer⟩
  · rw [State.peers, heq]
    rfl
  · rw [heq, SwapRemove.swapRemove_append_cons]
    rfl

/-- `process_socket_write`: frames from the queue's position on are sent, and then the
connection is kept, or it is closed and forgotten. -/
theorem Inv.processSocketWrite (h : Inv s) {i : Nat} {p : Pollfd} (hi : 1 ≤ i)
    (hp : s.pollfds[i]? = some p) (io : Io) :
    Inv (processSocketWrite s i p io) ∧
      ((processSocketWrite s i p io).pollfds = s.pollfds ∨
        (processSocketWrite s i p io).pollfds = SwapRemove.swapRemove s.pollfds i) := by
  have hmem := mem_peers_tail hi hp
  obtain ⟨hpos, hqueued, hsent⟩ := h.queues _ hmem
  unfold Dispatcher.processSocketWrite
  generalize hcr : s.result p.fd = cr at *
  obtain ⟨hle, hge⟩ := sendFrames_spec io.sends (cr.bufs.length - cr.pos) cr.pos
  obtain ⟨⟨pos, last⟩, hres⟩ : ∃ r, sendFrames io.sends (cr.bufs.length - cr.pos) cr.pos = r :=
    ⟨_, rfl⟩
  simp only [hres] at hle hge ⊢
  -- the frames that were sent now count as sent
  have hmid : advance s p cr pos = s.requeue p.peer { cr with pos := pos } := by
    have hq : Function.update s.queued p.conn cr.bufs = s.queued := by
      rw [← hqueued, Function.update_eq_self]
    have htake : s.sent p.conn ++ (cr.bufs.drop cr.pos).take (pos - cr.pos) = cr.bufs.take pos := by
      rw [hsent, ← List.take_add, Nat.add_sub_cancel' hle]
    simp only [advance, State.requeue, Pollfd.peer, htake, hq]
  rw [hmid]
  have hinv : Inv (s.requeue p.peer { cr with pos := pos }) :=
    h.requeue hmem (by show pos ≤ cr.bufs.length; omega)
  by_cases hclose : last = .error ∨ pos = cr.bufs.length
  · rw [if_pos hclose]
    obtain ⟨l, rest, rest', hpeers, hpeers', hperm⟩ := peers_swapRemove hi hp
    refine ⟨hinv.remove hpeers hpeers' hperm fun hwhy => ?_, .inr rfl⟩
    -- no send has failed, so the end of the queue was reached
    have hnoerr : last ≠ .error := by
      intro herr
      rw [if_pos herr] at hwhy
      cases hwhy
    have hend : pos = cr.bufs.length := hclose.resolve_left hnoerr
    simp only [State.requeue, Function.update_self, hend, List.take_length]
  · rw [if_neg hclose]
    exact ⟨hinv, .inl rfl⟩

theorem length_swapRemove {i : Nat} {p : Pollfd} (hp : s.pollfds[i]? = some p) :
    (SwapRemove.swapRemove s.pollfds i).length + 1 = s.pollfds.length :=
  (SwapRemove.perm_cons_swapRemove hp).length_eq.symm

/-- **The loop ends**, as each round leaves one entry less ahead, and keeps the invariant. -/
theorem Inv.loop (h : Inv s) {io : Nat → Io} {fuel i : Nat} {nfds : Int} (hi : 1 ≤ i)
    (hf : s.pollfds.length - i ≤ fuel) :
    ∃ s', loop callbacks io fuel s i nfds = some s' ∧ Inv s' := by
  induction fuel generalizing s i nfds with
  | zero =>
    unfold Dispatcher.loop
    rw [List.getElem?_eq_none (by omega)]
    exact ⟨s, rfl, h⟩
  | succ fuel ih =>
    unfold Dispatcher.loop
    cases hp : s.pollfds[i]? with
    | none => exact ⟨s, rfl, h⟩
    | some p =>
      have hlt := (List.getElem?_eq_some_iff.mp hp).1
      by_cases hn : nfds ≤ 0
      · simp only [if_pos hn]
        exact ⟨s, rfl, h⟩
      simp only [if_neg hn]
      by_cases hout : p.revents.pollout = true
      · simp only [if_pos hout]
        obtain ⟨hinv, hsame | hless⟩ := h.processSocketWrite hi hp (io p.conn)
        · rw [if_neg (by rw [hsame]; omega)]
          exact ih hinv (by omega) (by rw [hsame]; omega)
        · -- the last entry has taken the place of the one erased
          have hlen := length_swapRemove hp
          rw [if_pos (by rw [hless]; omega)]
          exact ih hinv (by omega) (by rw [hless]; omega)
      · simp only [if_neg hout]
        split
        · obtain ⟨hinv, hlen⟩ := h.processSocketRead callbacks hi hp (io p.conn)
          exact ih hinv (by omega) (by rw [hlen]; omega)
        · exact ih h (by omega) (by omega)

theorem peers_polled (s : State) (revents : Nat → Revents) :
    (polled s revents).pollfds.map Pollfd.peer = s.peers := by
  simp only [polled, State.peers, List.map_map]
  rfl

/-- **A new connection starts with nothing**, whoever had its descriptor before. -/
theorem Inv.acceptOne (h : Inv s) {fd : Nat} (hopen : s.peers ≠ [])
    (hfd : fd ∉ s.peers.map Prod.fst) : Inv (acceptOne s (some fd)) := by
  obtain ⟨l, rest, hpeers⟩ := List.exists_cons_of_ne_nil hopen
  have hnew : (Dispatcher.acceptOne s (some fd)).peers = l :: (rest ++ [(fd, s.accepted)]) := by
    rw [← List.cons_append, ← hpeers]
    simp only [Dispatcher.acceptOne, State.peers, List.map_append, List.map_cons, List.map_nil,
      Pollfd.peer]
  have htail : s.peers.tail = rest := by rw [hpeers, List.tail_cons]
  -- no reply is left under the descriptor
  have hnone : s.results fd = none := by
    by_contra hne
    obtain ⟨p, hp, rfl⟩ := h.keys hopen fd hne
    exact hfd (List.mem_map_of_mem (List.mem_of_mem_tail hp))
  have hmem : ∀ q ∈ rest ++ [(fd, s.accepted)], q ∈ s.peers.tail ∨ q = (fd, s.accepted) := by
    intro q hq
    rw [htail]
    simpa using hq
  refine ⟨?_, ?_, ?_, fun c hc => h.fresh c (Nat.le_of_succ_le hc), ?_, ?_, h.ordered, ?_,
    h.finished, ?_⟩
  · rw [hnew, ← List.cons_append, ← hpeers, List.map_append]
    refine List.Nodup.append h.fds (List.nodup_singleton _) ?_
    intro x hx hx'
    obtain rfl := List.mem_singleton.mp hx'
    exact hfd hx
  · rw [hnew, List.tail_cons, List.map_append, ← htail]
    refine List.Nodup.append h.conns (List.nodup_singleton _) ?_
    intro x hx hx'
    obtain rfl := List.mem_singleton.mp hx'
    obtain ⟨q, hq, heq⟩ := List.mem_map.mp hx
    exact absurd heq (Nat.ne_of_lt (h.accepted q hq))
  · rw [hnew, List.tail_cons]
    intro q hq
    rcases hmem q hq with hq | rfl
    · exact Nat.lt_succ_of_lt (h.accepted q hq)
    · exact Nat.lt_succ_self _
  · rw [hnew, List.tail_cons]
    intro q hq
    rcases hmem q hq with hq | rfl
    · exact h.queues q hq
    · obtain ⟨hqueued, hsent⟩ := h.fresh s.accepted (Nat.le_refl _)
      simp only [Dispatcher.acceptOne, State.result, hnone, Option.getD_none, hqueued, hsent]
      exact ⟨Nat.le_refl _, trivial, rfl⟩
  · rw [hnew, List.tail_cons]
    intro _ fd' hne
    obtain ⟨q, hq, rfl⟩ := h.keys hopen fd' hne
    exact ⟨q, List.mem_append_left _ (htail ▸ hq), rfl⟩
  · rw [hnew, List.tail_cons]
    intro c why hc
    obtain ⟨hlt, hno⟩ := h.gone c why hc
    refine ⟨Nat.lt_succ_of_lt hlt, fun q hq => ?_⟩
    rcases hmem q hq with hq | rfl
    · exact hno q hq
    · exact (Nat.ne_of_lt hlt).symm
  · rw [hnew, List.tail_cons]
    intro c hc
    rcases Nat.lt_succ_iff_lt_or_eq.mp hc with hc | rfl
    · rcases h.known c hc with ⟨q, hq, rfl⟩ | hclosed
      · exact .inl ⟨q, List.mem_append_left _ (htail ▸ hq), rfl⟩
      · exact .inr hclosed
    · exact .inl ⟨_, List.mem_append_right _ List.mem_cons_self, rfl⟩

/-- Every connection is closed at once; the replies still queued stay where they are. -/
theorem Inv.pollFails (h : Inv s) : Inv (pollFails s) where
  fds := List.nodup_nil
  conns := List.nodup_nil
  accepted _ hp := absurd hp List.not_mem_nil
  fresh := h.fresh
  queues _ hp := absurd hp List.not_mem_nil
  keys hne := absurd rfl hne
  ordered := h.ordered
  gone c why hc := by
    refine ⟨?_, fun _ hp => absurd hp List.not_mem_nil⟩
    rcases List.mem_append.mp hc with hc | hc
    · exact (h.gone c why hc).1
    · obtain ⟨p, hp, heq⟩ := List.mem_map.mp hc
      obtain ⟨rfl, -⟩ := Prod.mk.inj heq
      exact h.accepted p.peer (List.map_tail ▸ List.mem_map_of_mem hp)
  finished c hc := by
    rcases List.mem_append.mp hc with hc | hc
    · exact h.finished c hc
    · obtain ⟨p, -, heq⟩ := List.mem_map.mp hc
      cases (Prod.mk.inj heq).2
  known c hc := by
    rcases h.known c hc with ⟨q, hq, rfl⟩ | ⟨why, hw⟩
    · rw [State.peers, ← List.map_tail] at hq
      obtain ⟨p, hp, rfl⟩ := List.mem_map.mp hq
      exact .inr ⟨.pollFailed, List.mem_append_right _ (List.mem_map.mpr ⟨p, hp, rfl⟩)⟩
    · exact .inr ⟨why, List.mem_append_left _ hw⟩

theorem State.isOpen_iff : s.isOpen = true ↔ s.peers ≠ [] := by
  rw [State.isOpen, decide_eq_true_iff, State.peers, ne_eq, ne_eq, List.map_eq_nil_iff]

/-- **`process_commands` returns**, whatever the system answers. -/
theorem Inv.processCommands (h : Inv s) (hopen : s.isOpen = true) {o : Outcome}
    (hfd : ¬ ∃ fd, o.accept = some fd ∧ fd ∈ s.pollfds.map Pollfd.fd) :
    ∃ s', processCommands callbacks s o = some s' ∧ Inv s' := by
  have hpeers := peers_polled s o.revents
  have hpolled : Inv (polled s o.revents) := h.of_peers hpeers
  have hne : (polled s o.revents).peers ≠ [] := by
    rw [State.peers, hpeers]
    exact State.isOpen_iff.mp hopen
  unfold Dispatcher.processCommands
  cases hhead : (polled s o.revents).pollfds.head? with
  | none =>
    rw [List.head?_eq_none_iff] at hhead
    exact absurd (by rw [State.peers, hhead]; rfl) hne
  | some listening =>
    simp only [hhead]
    by_cases hin : listening.revents.pollin = true
    · have haccept : Inv (Dispatcher.acceptOne (polled s o.revents) o.accept) := by
        cases ho : o.accept with
        | none => exact hpolled
        | some fd =>
          refine hpolled.acceptOne hne fun hmem => hfd ⟨fd, ho, ?_⟩
          rw [State.peers, hpeers, State.peers, List.map_map] at hmem
          exact hmem
      rw [if_pos hin]
      exact haccept.loop callbacks (Nat.le_refl _) (Nat.sub_le _ _)
    · rw [if_neg hin]
      exact hpolled.loop callbacks (Nat.le_refl _) (Nat.sub_le _ _)

theorem Inv.of_reachable (h : (machine callbacks).Reachable s) : Inv s := by
  refine h.invariant ?_ ?_
  · rintro _ ⟨fd, rfl⟩
    exact .initial fd
  · intro s e s' hinv hs
    obtain ⟨hopen, hs⟩ := Option.ite_none_right_eq_some.mp hs
    cases e with
    | pollFails => exact Option.some.inj hs ▸ hinv.pollFails
    | processCommands o =>
      obtain ⟨hfd, hs⟩ := Option.ite_none_left_eq_some.mp hs
      obtain ⟨t, ht, hinv'⟩ := hinv.processCommands callbacks hopen hfd
      exact Option.some.inj (ht.symm.trans hs) ▸ hinv'

/-- **Replies stay on their connection.**  While the dispatcher is open, replies are only
kept for connections that are open; what is sent on a connection is a first part of what
was queued for it; and a connection that was closed, and not because a send or `poll`
failed, was sent everything. -/
theorem replies_stay_on_connection (h : (machine callbacks).Reachable s) :
    (s.isOpen = true → ∀ fd, s.results fd ≠ none → ∃ p ∈ s.pollfds.tail, p.fd = fd) ∧
      (∀ c, s.sent c <+: s.queued c) ∧
      (∀ c, c < s.accepted → (∃ p ∈ s.pollfds.tail, p.conn = c) ∨ ∃ why, (c, why) ∈ s.closed) ∧
      ∀ c why, (c, why) ∈ s.closed → why ≠ .sendFailed → why ≠ .pollFailed →
        s.sent c = s.queued c := by
  have hinv := Inv.of_reachable callbacks h
  have htail : s.peers.tail = s.pollfds.tail.map Pollfd.peer := List.map_tail.symm
  refine ⟨fun hopen fd hfd => ?_, hinv.ordered, fun c hc => ?_, fun c why hc h1 h2 => ?_⟩
  · obtain ⟨q, hq, rfl⟩ := hinv.keys (State.isOpen_iff.mp hopen) fd hfd
    obtain ⟨p, hp, rfl⟩ := List.mem_map.mp (htail ▸ hq)
    exact ⟨p, hp, rfl⟩
  · rcases hinv.known c hc with ⟨q, hq, rfl⟩ | hclosed
    · obtain ⟨p, hp, rfl⟩ := List.mem_map.mp (htail ▸ hq)
      exact .inl ⟨p, hp, rfl⟩
    · exact .inr hclosed
  · cases why with
    | finished => exact hinv.finished c hc
    | sendFailed => exact absurd rfl h1
    | pollFailed => exact absurd rfl h2

/-! ## Runs -/

/-- The frames `set_command_path` registers callbacks for, with their sizes: `status`,
`set_level` and `reopen`. -/
def registered : Nat → Option Nat
  | 0 => some 268
  | 1 => some 272
  | 5 => some 4
  | _ => none

/-- A client connects; its descriptor is `fd`. -/
def connects (fd : Nat) : Event :=
  .processCommands ⟨fun _ => ⟨true, false, false⟩, 1, some fd,
    fun _ => ⟨.error, ⟨[], none⟩, fun _ => .again⟩⟩

/-- A request to reopen the file arrives at the descriptor `fd`, and succeeds. -/
def requests (fd : Nat) : Event :=
  .processCommands ⟨fun f => ⟨f = fd, false, false⟩, 1, none,
    fun _ => ⟨.frame [5, 0, 0, 0], ⟨[.success], none⟩, fun _ => .again⟩⟩

/-- Everything queued for the descriptor `fd` can be sent. -/
def drains (fd : Nat) : Event :=
  .processCommands ⟨fun f => ⟨false, f = fd, false⟩, 1, none,
    fun _ => ⟨.error, ⟨[], none⟩, fun _ => .sent⟩⟩

/-- A client gets its reply; the next one gets its descriptor, and has a reply queued. -/
theorem replies_stay_on_connection_reuse : ∃ s, (machine registered).Reachable s ∧
    s.closed = [(0, .finished)] ∧ s.sent 0 = s.queued 0 ∧ s.queued 0 = [.success] ∧
    s.sent 1 <+: s.queued 1 ∧ s.queued 1 = [.success] ∧ ∃ p ∈ s.pollfds.tail, p.fd = 5 := by
  have hrun : ((machine registered).run (initial 3) [connects 5, requests 5, drains 5, connects 5,
      requests 5]).map (fun s =>
        (s.isOpen, s.closed, s.queued 0, s.queued 1, (s.results 5).isSome)) =
      some (true, [(0, .finished)], [.success], [.success], true) := by
    decide +kernel
  obtain ⟨s, hreach, heq⟩ := Machine.exists_reachable hrun ⟨_, rfl⟩
  simp only [Prod.mk.injEq] at heq
  obtain ⟨hopen, hclosed, h0, h1, hkey⟩ := heq
  obtain ⟨hkeys, hordered, -, hfinished⟩ := replies_stay_on_connection registered hreach
  refine ⟨s, hreach, hclosed, hfinished 0 .finished ?_ ?_ ?_, h0, hordered 1, h1, hkeys hopen 5 ?_⟩
  · rw [hclosed]
    exact List.mem_cons_self
  · decide
  · decide
  · exact Option.isSome_iff_ne_none.mp hkey

/-- When `poll` fails, a connection is closed whose reply was not sent, and the reply is
kept under a descriptor that is not open. -/
theorem poll_failure_strands_reply : ∃ s, (machine registered).Reachable s ∧
    s.closed = [(0, .pollFailed)] ∧ s.sent 0 = [] ∧ s.queued 0 = [.success] ∧
    s.results 5 ≠ none ∧ s.pollfds = [] := by
  have hrun : ((machine registered).run (initial 3) [connects 5, requests 5, .pollFails]).map
      (fun s => (s.closed, s.sent 0, s.queued 0, (s.results 5).isSome, s.pollfds)) =
      some ([(0, .pollFailed)], [], [.success], true, []) := by
    decide +kernel
  obtain ⟨s, hreach, heq⟩ := Machine.exists_reachable hrun ⟨_, rfl⟩
  simp only [Prod.mk.injEq] at heq
  obtain ⟨hclosed, hsent, hqueued, hkey, hpollfds⟩ := heq
  refine ⟨s, hreach, hclosed, hsent, hqueued,
    Option.isSome_iff_ne_none.mp hkey, hpollfds⟩

end Xtr.Dispatcher
