import Xtr.Machine
import Xtr.OutputBuffer
import Xtr.RecordQueue
import Xtr.Sanitize

/-!
# The logger

All the sinks of one logger and its consumer as one machine: `sink.cpp`,
`logger::register_sink` and `consumer::run_once`.

Sinks are numbered, sink `0` is the control sink.  A producer's call that posts a
record is one event, at the moment of its commit (`produce` says what its loads may
have found before).  `close` and `sync` are two events, since they return only when the
consumer has executed their record.  A sink is used by one thread, and logged to while
it is open.

`run_once` is cut where the consumer touches what a producer can see: one event looks
at the next sink (`visit`), one executes one record (`execute`), one removes the sink
or releases the records (`finish`), one takes the dropped count (`report`).

The consumer faults when it follows a pointer to a sink whose close request it has
executed, when it calls through something that is no record, or when its index is past
the end of `sinks_`.

Not part of the program: `live`, `unread`, `trace` and `printed`.  They record which
sinks are registered and not yet closed by the consumer, which committed records it has
not executed, every record in the order of the commits, and every line printed.
-/
namespace Xtr.Logger

/-- What sinks and the logger ask the consumer to do.  A sink is added under the name
that `register_sink` was given, or, when it was copied, under the name of the sink
whose queue the record came through. -/
inductive Command
  | addSink (s : Nat) (name : Option (List UInt8))
  | setName (name : List UInt8)
  | destroy
  | sync
  deriving DecidableEq

variable (V : Type)

/-- What is fixed: the order in which packs are evaluated, where the sinks' buffers are
mapped and how large they are, the closure types of the commands, the sizes of the
storage's spans, and the formatting library's texts for values, for copied objects, and
for the levels in the style that is set. -/
structure Config where
  order : Arrangement
  base : Nat → Nat
  sizing : Sizing
  closure : Command → Layout
  sizes : SpanSizes
  value : V → List UInt8
  object : Layout → List UInt8 → List UInt8
  level : Statement → List UInt8
  warning : List UInt8
  base8 : ∀ i, 8 ∣ base i
  capacity8 : 8 ∣ sizing.capacity
  capacity_lt : sizing.capacity < 2 ^ 32
  closure_pos : ∀ c, 0 < (closure c).size

/-- The call of `sync_post` a sink's thread is waiting in. -/
inductive Call
  | none
  | closing
  | syncing
  deriving DecidableEq

abbrev Ring := RingBuffer (Cell Statement V Command)

abbrev Executed := Invocation Statement V Command

/-- `sink`, with the `notified` of the `sync_post` under way. -/
structure Sink where
  ring : Ring V
  isOpen : Bool
  dropped : Nat
  call : Call
  notified : Bool
  live : Bool
  unread : List (Frame Statement V Command)

/-- `consumer::sink_handle`. -/
structure Handle where
  sink : Nat
  name : List UInt8
  dropped : Nat
  deriving DecidableEq

/-- Where `run_once` is. -/
inductive Pc
  /-- Not running. -/
  | top
  /-- At the loop condition, with index `i`. -/
  | visit (i : Nat)
  /-- In the inner loop, at the record at address `pos`. -/
  | batch (i : Nat) (span : Span) (pos : Nat)
  /-- After the inner loop. -/
  | finish (i : Nat) (span : Span) (pos : Nat)
  /-- After `reduce_readable`; everything that was there had been executed, or not. -/
  | report (i : Nat) (caughtUp : Bool)
  /-- `run_once` has returned false. -/
  | stopped
  | fault
  deriving DecidableEq

/-- A committed record: who posted what, and what executing it does. -/
structure Commit where
  sink : Nat
  posted : Statement × List (Arg V) ⊕ Command
  executed : Executed V

/-- A line, by the sink it is about. -/
inductive Line
  | log (sink : Nat) (st : Statement) (args : List (Reconstructed V)) (name ts : List UInt8)
  | dropped (sink : Nat) (n : Nat) (name ts : List UInt8)

structure State where
  sinks : Nat → Sink V
  /-- The consumer: `sinks_`, `flush_count_`, `destroy`, the timestamp of this pass once
  it is read, and `buf`. -/
  handles : List Handle
  flushCount : Nat
  destroy : Bool
  ts : Option (List UInt8)
  buf : OutputBuffer
  pc : Pc
  trace : List (Commit V)
  printed : List (Line V)

variable {V}

namespace State

def setSink (s : State V) (i : Nat) (k : Sink V) : State V :=
  { s with sinks := Function.update s.sinks i k }

def fail (s : State V) : State V := { s with pc := .fault }

end State

variable (cfg : Config V)

/-! ## Producers -/

section Producers
variable [DecidableEq V]

/-- The record just committed at the write position of `ring`. -/
def decode (i : Nat) (ring ring' : Ring V) : Option (Executed V × Nat) :=
  trampoline cfg.order (ring'.readAt (cfg.base i)) (cfg.base i + ring.writeBegin)

/-- Sink `i` has committed a record of `n` cells; its ring is now `ring'`. -/
def committed (s : State V) (i : Nat) (posted : Statement × List (Arg V) ⊕ Command)
    (ring' : Ring V) (n : Nat) : State V :=
  match decode cfg i (s.sinks i).ring ring' with
  | none => s.fail
  | some (executed, _) =>
    { s.setSink i { s.sinks i with
        ring := ring', unread := (s.sinks i).unread ++ [⟨executed, n⟩] } with
      trace := s.trace ++ [⟨i, posted, executed⟩] }

/-- A sink can be used: it is open, and its thread is not waiting in a call. -/
def Sink.ready (k : Sink V) : Bool := k.isOpen && k.call = .none

/-- A log statement. -/
def log (s : State V) (i : Nat) (tags : Tags) (st : Statement) (args : List (Arg V))
    (loads : List Nat) : Option (State V) :=
  let k := s.sinks i
  if k.ready then
    match produce (logImpl cfg.order (cfg.base i) tags st args) k.ring loads with
    | none => none
    | some (.dropped, ring) => some (s.setSink i { k with ring := ring, dropped := k.dropped + 1 })
    | some (.committed n, ring) => some (committed cfg s i (.inl (st, args)) ring n)
  else none

/-- `sink::post` of a command: it blocks until it has committed the record. -/
def postCommand (s : State V) (i : Nat) (c : Command) (loads : List Nat) : Option (State V) :=
  let k := s.sinks i
  if k.ready then
    match produce (post (cfg.base i) ⟨false, false⟩ none (.command c) (cfg.closure c)) k.ring
      loads with
    | some (.committed n, ring) => some (committed cfg s i (.inr c) ring n)
    | _ => none
  else none

/-- `set_name`. -/
def setName (s : State V) (i : Nat) (name : List UInt8) (loads : List Nat) : Option (State V) :=
  postCommand cfg s i (.setName name) loads

/-- `sync_post` up to the wait. -/
def syncPost (s : State V) (i : Nat) (c : Command) (call : Call) (loads : List Nat) :
    Option (State V) :=
  (postCommand cfg s i c loads).map fun s =>
    s.setSink i { s.sinks i with call := call, notified := false }

/-- The sink `t` is registered: the record that adds it is committed to the queue of
sink `i`, and `open_` is set. -/
def register (s : State V) (t i : Nat) (name : Option (List UInt8)) (loads : List Nat) :
    Option (State V) :=
  if (s.sinks t).isOpen then none
  else
    (postCommand cfg s i (.addSink t name) loads).map fun s =>
      s.setSink t { s.sinks t with isOpen := true, live := true }

end Producers

/-- `close` returns: the ring is cleared. -/
def closeReturn (s : State V) (i : Nat) : Option (State V) :=
  let k := s.sinks i
  if k.call = .closing ∧ k.notified = true then
    some (s.setSink i { k with isOpen := false, call := .none, ring := k.ring.clear })
  else none

/-- `sync` returns. -/
def syncReturn (s : State V) (i : Nat) : Option (State V) :=
  let k := s.sinks i
  if k.call = .syncing ∧ k.notified = true then some (s.setSink i { k with call := .none })
  else none

/-! ## The consumer -/

/-- The text of a line.  The warning about dropped messages is
`"{}{} {}: {} messages dropped\n"`. -/
def Line.text : Line V → List UInt8
  | .log _ st args name ts => print cfg.value cfg.object st (cfg.level st) ts name args
  | .dropped _ n name ts =>
    formatTo [.field 0, .field 1, .literal [32], .field 2, .literal [58, 32], .field 3,
        .literal " messages dropped\n".toUTF8.toList]
      [cfg.warning, ts, name, (toString n).toUTF8.toList]

/-- A line is formatted and appended. -/
def printLine (s : State V) (line : Line V) : State V :=
  { s with
    buf := s.buf.appendLine cfg.sizes (line.text cfg)
    printed := s.printed ++ [line] }

/-- The command requests `process_commands` handles at the start of a pass. -/
inductive Request
  | status
  | setLevel
  | reopen
  deriving DecidableEq

/-- The handlers, as far as the sinks they touch and the buffer are concerned: `status`
and `set_level` go through all the sinks but the first. -/
def handle (s : State V) : Request → State V
  | .status | .setLevel =>
    if (s.handles.drop 1).all (fun h => (s.sinks h.sink).live) then s else s.fail
  | .reopen => { s with buf := s.buf.flush.call .reopen }

/-- `run_once` up to the loop. -/
def begin (s : State V) (requests : List Request) : State V :=
  let s := requests.foldl handle s
  if s.pc = .fault then s else { s with pc := .visit 0, ts := none }

/-- The flush count on a visit that finds nothing. -/
def visitEmpty (s : State V) : State V :=
  if s.flushCount ≠ 0 then
    let s := { s with flushCount := s.flushCount - 1 }
    if s.flushCount = 0 then { s with buf := s.buf.flush } else s
  else s

/-- The loop is over. -/
def endPass (s : State V) : State V :=
  if s.handles = [] then { s with buf := s.buf.flush.call .sync, pc := .stopped }
  else { s with pc := .top }

/-- The loop condition, and the visit up to the first record.  `now` is the time, in
case it is read here. -/
def visit (s : State V) (i : Nat) (now : List UInt8) : State V :=
  if i = s.handles.length then endPass s
  else match s.handles[i]? with
    | none => s.fail
    | some h =>
      let k := s.sinks h.sink
      if k.live then
        let span := k.ring.readSpan
        if span.size = 0 then { visitEmpty s with pc := .visit (i + 1) }
        else { s with destroy := false, ts := some (s.ts.getD now),
                      pc := .batch i span (cfg.base h.sink + span.begin) }
      else s.fail

/-- The trampoline's work: a line, or a command of sink `h.sink`, whose handle is at
`i`. -/
def execute (s : State V) (i : Nat) (h : Handle) : Executed V → State V
  | .print st args => printLine cfg s (.log h.sink st args h.name (s.ts.getD []))
  | .command (.addSink t name) => { s with handles := s.handles ++ [⟨t, name.getD h.name, 0⟩] }
  | .command (.setName name) => { s with handles := s.handles.set i { h with name := name } }
  | .command .destroy =>
    { s.setSink h.sink { s.sinks h.sink with live := false, notified := true } with
      destroy := true }
  | .command .sync =>
    { s.setSink h.sink { s.sinks h.sink with notified := true } with
      buf := s.buf.flush.call .sync }

/-- Where the inner loop ends: the end of the span, or of the first mapping. -/
def batchEnd (i : Nat) (span : Span) : Nat :=
  min (cfg.base i + span.begin + span.size) (cfg.base i + cfg.sizing.capacity)

/-- One round of the inner loop. -/
def batch [DecidableEq V] (s : State V) (i : Nat) (span : Span) (pos : Nat) : State V :=
  match s.handles[i]? with
  | none => s.fail
  | some h =>
    let k := s.sinks h.sink
    if k.live then
      match trampoline cfg.order (k.ring.readAt (cfg.base h.sink)) pos with
      | none => s.fail
      | some (executed, pos) =>
        let s := execute cfg (s.setSink h.sink { k with unread := k.unread.tail }) i h executed
        { s with pc := if pos < batchEnd cfg h.sink span then .batch i span pos
                       else .finish i span pos }
    else s.fail

/-- `swap(sinks_[i], sinks_.back())` and `pop_back`. -/
def swapRemove (handles : List Handle) (i : Nat) : List Handle :=
  match handles.getLast? with
  | none => handles
  | some back => (handles.set i back).dropLast

/-- After the inner loop: the sink is removed, and `--i` and the loop's `++i` cancel
out; or the records are released. -/
def finish (s : State V) (i : Nat) (span : Span) (pos : Nat) : State V :=
  if s.destroy then { s with handles := swapRemove s.handles i, pc := .visit i }
  else match s.handles[i]? with
    | none => s.fail
    | some h =>
      let k := s.sinks h.sink
      let begin := cfg.base h.sink + span.begin
      if k.live then
        { s.setSink h.sink { k with ring := k.ring.reduceReadable (pos - begin) } with
          pc := .report i (pos = begin + span.size) }
      else s.fail

/-- The dropped count is taken and printed. -/
def reportDropped (s : State V) (i : Nat) (h : Handle) : State V :=
  let k := s.sinks h.sink
  if k.live then
    if 0 < k.dropped then
      let s := printLine cfg (s.setSink h.sink { k with dropped := 0 })
        (.dropped h.sink k.dropped h.name (s.ts.getD []))
      { s with handles := s.handles.set i { h with dropped := h.dropped + k.dropped } }
    else s
  else s.fail

/-- The end of a visit. -/
def report (s : State V) (i : Nat) (caughtUp : Bool) : State V :=
  match s.handles[i]? with
  | none => s.fail
  | some h =>
    let s := if caughtUp then reportDropped cfg s i h else s
    if s.pc = .fault then s
    else { s with flushCount := s.handles.length, pc := .visit (i + 1) }

/-! ## The machine -/

inductive Event (V : Type)
  | log (i : Nat) (tags : Tags) (st : Statement) (args : List (Arg V)) (loads : List Nat)
  | setName (i : Nat) (name : List UInt8) (loads : List Nat)
  /-- `logger::register_sink(s, name)`, and the copy of sink `i` to a closed sink `s`. -/
  | registerSink (s : Nat) (name : List UInt8) (loads : List Nat)
  | copy (s i : Nat) (loads : List Nat)
  | close (i : Nat) (loads : List Nat)
  | closeReturn (i : Nat)
  | sync (i : Nat) (loads : List Nat)
  | syncReturn (i : Nat)
  /-- The consumer starts a pass, or goes on with one at the given time. -/
  | runOnce (requests : List Request)
  | consume (now : List UInt8)

def step [DecidableEq V] (s : State V) : Event V → Option (State V)
  | .log i tags st args loads => log cfg s i tags st args loads
  | .setName i name loads => setName cfg s i name loads
  | .registerSink t name loads => register cfg s t 0 (some name) loads
  | .copy t i loads => if t = i then none else register cfg s t i none loads
  | .close i loads => syncPost cfg s i .destroy .closing loads
  | .closeReturn i => closeReturn s i
  | .sync i loads => syncPost cfg s i .sync .syncing loads
  | .syncReturn i => syncReturn s i
  | .runOnce requests => if s.pc = .top then some (begin s requests) else none
  | .consume now =>
    match s.pc with
    | .visit i => some (visit cfg s i now)
    | .batch i span pos => some (batch cfg s i span pos)
    | .finish i span pos => some (finish cfg s i span pos)
    | .report i caughtUp => some (report cfg s i caughtUp)
    | .top | .stopped | .fault => none

/-- The text `"control"`. -/
def controlName : List UInt8 := "control".toUTF8.toList

/-- The sinks before they are registered, with any memory in their rings. -/
def initialSink (i : Nat) (mem : Nat → Cell Statement V Command) : Sink V where
  ring := .make cfg.sizing mem
  isOpen := i = 0
  dropped := 0
  call := .none
  notified := false
  live := i = 0
  unread := []

/-- A logger that was just constructed: its control sink is open and known to the
consumer. -/
def initial (mem : Nat → Nat → Cell Statement V Command) : State V where
  sinks i := initialSink cfg i (mem i)
  handles := [⟨0, controlName, 0⟩]
  flushCount := 0
  destroy := false
  ts := none
  buf := .empty
  pc := .top
  trace := []
  printed := []

def machine [DecidableEq V] : Machine (State V) (Event V) where
  init s := ∃ mem, s = initial cfg mem
  step := step cfg

end Xtr.Logger
