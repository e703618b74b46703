import Xtr.Machine
import Xtr.RecordQueue

/-!
# Posting to the control sink

The functions of `logger` post to its control sink, whose queue has room for one
producer only.  `logger::post` takes `control_mutex_`; `set_command_path` and
`set_log_level_style` then call `control_.sync()`, which posts a second record and does
not take it.

Threads and the consumer as one machine: any number of threads, each in one of the
logger's functions or in none.  The atomic steps of a post are those of `sink::post`
(`write_span_spec`, a round of `write_span`, the copy of the record, `reduce_writable`)
and the taking and releasing of the mutex.
-/
namespace Xtr.Control

/-- The records of the control sink.  That of `sync` refers to the variables of the
thread that waits for it. -/
inductive Command
  | addSink (s : Nat) (name : List UInt8)
  | setCommandPath (path : List UInt8)
  | setLevelStyle (style : Nat)
  | sync (thread : Nat)
  deriving DecidableEq

/-- The functions of `logger` that post. -/
inductive Call
  | registerSink (s : Nat) (name : List UInt8)
  | setCommandPath (path : List UInt8)
  | setLogLevelStyle (style : Nat)
  deriving DecidableEq

abbrev Ring := RingBuffer (Cell Unit Unit Command)

/-- Where the queue is mapped, its size, the closure types of the records, and the order in
which packs are evaluated. -/
structure Config where
  order : Arrangement
  base : Nat
  sizing : Sizing
  closure : Command → Layout
  base8 : 8 ∣ base
  capacity8 : 8 ∣ sizing.capacity
  capacity_lt : sizing.capacity < 2 ^ 32
  closure_pos : ∀ c, 0 < (closure c).size

/-- A post: its record, whether `control_mutex_` is held, and whether `control_.sync()`
comes after it. -/
structure Post where
  command : Command
  guarded : Bool
  thenSync : Bool
  deriving DecidableEq

/-- The first post of a call. -/
def Call.post : Call → Post
  | .registerSink s name => ⟨.addSink s name, true, false⟩
  | .setCommandPath path => ⟨.setCommandPath path, true, true⟩
  | .setLogLevelStyle style => ⟨.setLevelStyle style, true, true⟩

/-- The post of `control_.sync()`. -/
def syncPost (t : Nat) : Post := ⟨.sync t, false, false⟩

/-- Where a thread is: before the step of that name. -/
inductive Pc
  | idle
  | lock (p : Post)
  | writeSpanSpec (p : Post)
  /-- The first span, at address `record`, was too small. -/
  | writeSpan (p : Post) (record : Nat)
  | copy (p : Post) (record : Nat) (s : Span)
  | reduceWritable (p : Post) (size : Nat)
  | unlock (p : Post)
  | wait
  deriving DecidableEq

/-- Between `write_span` and `reduce_writable`. -/
def Pc.inside : Pc → Option Post
  | .writeSpan p _ | .copy p _ _ | .reduceWritable p _ => some p
  | _ => none

/-- `notified` is that of a thread's `sync_post`; `reader` is the consumer's span and
position when it is in the middle of the queue.  `posted` and `received` record the
commits and what the consumer executed. -/
structure State (n : Nat) where
  ring : Ring
  mutex : Option (Fin n)
  pc : Fin n → Pc
  notified : Fin n → Bool
  reader : Option (Span × Nat)
  posted : List Command
  received : List Command
  fault : Bool

variable {n : Nat} (cfg : Config)

namespace State

def setPc (s : State n) (t : Fin n) (pc : Pc) : State n :=
  { s with pc := Function.update s.pc t pc }

end State

/-- `size` of `sink::post`, for a record at the given address. -/
def recordSize (p : Post) (record : Nat) : Nat :=
  funcPos record (cfg.closure p.command) + align (cfg.closure p.command).size fptrSize - record

/-- The copies of `sink::post`: the function pointer goes to the span, the closure to
the position computed from the first one. -/
def copyRecord (ring : Ring) (p : Post) (record : Nat) (s : Span) : Ring :=
  let func := cfg.closure p.command
  (ring.storeAt cfg.base (cfg.base + s.begin) (fptrCells (.trampolineN none func))).storeAt cfg.base
    (funcPos record func) (closureCells (.command p.command) func.size)

/-- A step of thread `t`. -/
def threadStep (s : State n) (t : Fin n) : Option (State n) :=
  match s.pc t with
  | .idle => none
  | .lock p =>
    if s.mutex = none then some { s.setPc t (.writeSpanSpec p) with mutex := some t } else none
  | .writeSpanSpec p =>
    -- the size depends on the position this call returns, so it asks for no room
    match s.ring.writeSpan ⟨false, true⟩ 0 with
    | (ring, .ret (some span)) =>
      let record := cfg.base + span.begin
      let s := { s with ring := ring }
      if span.size < recordSize cfg p record then some (s.setPc t (.writeSpan p record))
      else some (s.setPc t (.copy p record span))
    | (ring, _) => some { s with ring := ring }
  | .writeSpan p record =>
    match s.ring.writeSpan ⟨false, false⟩ (recordSize cfg p record) with
    | (ring, .ret (some span)) => some ({ s with ring := ring }.setPc t (.copy p record span))
    | (ring, _) => some { s with ring := ring }
  | .copy p record span =>
    some ({ s with ring := copyRecord cfg s.ring p record span }.setPc t
      (.reduceWritable p (recordSize cfg p record)))
  | .reduceWritable p size =>
    some { s.setPc t (if p.guarded then .unlock p else .wait) with
      ring := s.ring.reduceWritable size, posted := s.posted ++ [p.command] }
  | .unlock p =>
    -- the guard's scope ends here, and `control_.sync()` comes after it
    some { s.setPc t (if p.thenSync then .writeSpanSpec (syncPost t) else .idle) with
      mutex := none, notified := Function.update s.notified t false }
  | .wait => if s.notified t then some (s.setPc t .idle) else none

/-- The consumer executes a record: `sync` wakes its thread. -/
def receive (s : State n) (c : Command) : State n :=
  { s with
    received := s.received ++ [c]
    notified := fun t => if c = .sync t then true else s.notified t }

/-- The end of the inner loop of `run_once`. -/
def batchEnd (span : Span) : Nat :=
  min (cfg.base + span.begin + span.size) (cfg.base + cfg.sizing.capacity)

/-- A step of the consumer at the control sink: the span is taken, a record is executed,
or the records are released. -/
def consume (s : State n) : Option (State n) :=
  match s.reader with
  | none =>
    let span := s.ring.readSpan
    if span.size = 0 then none
    else some { s with reader := some (span, cfg.base + span.begin) }
  | some (span, pos) =>
    if pos < batchEnd cfg span then
      match trampoline cfg.order (s.ring.readAt cfg.base) pos with
      | some (.command c, pos) => some { receive s c with reader := some (span, pos) }
      -- the call goes through a pointer that is not a record's
      | _ => if s.fault then none else some { s with fault := true }
    else
      some { s with
        ring := s.ring.reduceReadable (pos - (cfg.base + span.begin)), reader := none }

inductive Event (n : Nat)
  | call (t : Fin n) (c : Call)
  | thread (t : Fin n)
  | consume

def step (s : State n) : Event n → Option (State n)
  | .call t c => if s.pc t = .idle then some (s.setPc t (.lock c.post)) else none
  | .thread t => threadStep cfg s t
  | .consume => consume cfg s

def initial (mem : Nat → Cell Unit Unit Command) : State n where
  ring := .make cfg.sizing mem
  mutex := none
  pc _ := .idle
  notified _ := false
  reader := none
  posted := []
  received := []
  fault := false

def machine (n : Nat) : Machine (State n) (Event n) where
  init s := ∃ mem, s = initial cfg mem
  step := step cfg

/-- The post that a thread begins with the event. -/
def begins (s : State n) : Event n → Option (Fin n × Post)
  | .thread t =>
    match s.pc t with
    | .writeSpanSpec p => some (t, p)
    | _ => none
  | _ => none

/-- A thread that begins a post while another one is inside its own: neither post is
that of `control_.sync()`. -/
def Guarded (s : State n) (e : Event n) : Prop :=
  ((begins s e).all fun (t, p) =>
    ∀ t', t' ≠ t → ((s.pc t').inside.all fun p' => p.guarded && p'.guarded) = true) = true

instance (s : State n) (e : Event n) : Decidable (Guarded s e) :=
  inferInstanceAs (Decidable (_ = _))

end Xtr.Control
