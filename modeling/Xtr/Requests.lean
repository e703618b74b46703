import Xtr.Handlers

/-!
# Requests, byte by byte

What `process_socket_read` makes of a datagram.  The bytes are taken for the frame that their
id says they are, once their number is right, and the enumerations in it are whatever `int`s
the client sent.

`set_level_handler` refuses a level above `debug`, and a pattern that `make_matcher` finds
invalid.  A negative level is not above `debug`, and a pattern type that is no enumerator
falls through the `switch` of `make_matcher` to the matcher of `none`, which is valid and
matches every sink.  So some malformed requests are carried out (`negative_level_set`).

The second part is every way a sink gets a level, with the passes of the consumer in which
requests are handled.
-/
namespace Xtr.Logger
open Dispatcher (Reply Io Recv SendResult errorFrame headerSize frameId registered replies)

/-! ## Frames -/

/-- `log_level_t`. -/
inductive LogLevel
  | none
  | fatal
  | error
  | warning
  | info
  | debug
  deriving DecidableEq

def LogLevel.toInt : LogLevel → Int
  | .none => 0
  | .fatal => 1
  | .error => 2
  | .warning => 3
  | .info => 4
  | .debug => 5

/-- The enumerators of `pattern_type_t`. -/
def PatternType.toInt : PatternType → Int
  | .none => 0
  | .extendedRegex => 1
  | .basicRegex => 2
  | .wildcard => 3

/-- The `switch` of `make_matcher`: what is no enumerator goes the way of `none`. -/
def patternType (n : Int) : PatternType :=
  if n = 3 then .wildcard else if n = 1 then .extendedRegex else if n = 2 then .basicRegex
  else .none

/-- `max_frame_size`. -/
def maxFrameSize : Nat := 512

/-- The `int` at an offset. -/
def readInt (bytes : Str) (offset : Nat) : Int :=
  let word := ((bytes.drop offset).take 4).foldr (fun b n => b.toNat + 256 * n) 0
  (BitVec.ofNat 32 word).toInt

/-- The `pattern` at an offset. -/
def readPattern (bytes : Str) (offset : Nat) : Pattern where
  type := patternType (readInt bytes offset)
  ignoreCase := bytes.getD (offset + 4) 0 ≠ 0
  text := (bytes.drop (offset + 5)).take 256

/-- The payload of a frame with the given id, behind the header; `errnum` is what `reopen`
will return. -/
def readRequest (bytes : Str) (errnum : Nat) : (id : Nat) → Received
  | 0 => .status (readPattern bytes 4)
  | 1 => .setLevel (readInt bytes 4) (readPattern bytes 8)
  | _ => .reopen errnum

/-! ## Reading a datagram -/

/-- What becomes of a datagram: the handler that was run, the frames that were sent, and the
levels. -/
structure Processed where
  request : Option Received
  frames : List Reply
  levels : Nat → Int

section Processing
variable {V : Type} (lib : Patterns) (strerror : Nat → Str)

/-- `process_socket_read`, when `command_recv` succeeds; it cuts off what does not fit in a
`frame_buf`. -/
def processSocketRead (s : State V) (levels : Nat → Int) (errnum : Nat) (datagram : Str) :
    Processed :=
  let bytes := datagram.take maxFrameSize
  if bytes.length = 0 then ⟨none, [], levels⟩
  else if bytes.length < headerSize then
    ⟨none, [errorFrame (text "Incomplete frame header")], levels⟩
  else match registered (frameId bytes) with
    | none => ⟨none, [errorFrame (text "Invalid frame id")], levels⟩
    | some size =>
      if bytes.length ≠ size then ⟨none, [errorFrame (text "Invalid frame length")], levels⟩
      else
        let request := readRequest bytes errnum (frameId bytes)
        let (handled, levels) := callback lib strerror s levels request
        ⟨some request, handled.frames, levels⟩

/-- The datagrams of one pass, one after another, and the handlers they run. -/
def processDatagrams (s : State V) (levels : Nat → Int) :
    List (Str × Nat) → List Received × (Nat → Int)
  | [] => ([], levels)
  | (datagram, errnum) :: rest =>
    let processed := processSocketRead lib strerror s levels errnum datagram
    let (requests, levels) := processDatagrams s processed.levels rest
    (processed.request.toList ++ requests, levels)

end Processing

/-! ## What is carried out -/

variable {V : Type} {lib : Patterns} {strerror : Nat → Str} {s : State V} {levels : Nat → Int}
  {errnum : Nat} {d : Str}

/-- The bytes are a frame with a callback, and of its size. -/
def Complete (d : Str) : Prop := registered (frameId d) = some d.length

theorem frameId_take (d : Str) : frameId (d.take maxFrameSize) = frameId d := by
  rw [frameId, frameId, List.take_take]
  rfl

theorem registered_bounds {id size : Nat} (h : registered id = some size) :
    headerSize ≤ size ∧ size < maxFrameSize := by
  unfold registered at h
  split at h <;> cases h <;> decide

/-- The frames with a callback are shorter than a `frame_buf`, so nothing was cut off. -/
theorem length_of_take {size : Nat} (h : registered (frameId d) = some size)
    (hlen : (d.take maxFrameSize).length = size) : d.length = size := by
  obtain ⟨-, hlt⟩ := registered_bounds h
  rw [List.length_take] at hlen
  omega

/-- **A complete frame runs its handler.** -/
theorem processSocketRead_complete (h : Complete d) :
    processSocketRead lib strerror s levels errnum d =
      ⟨some (readRequest d errnum (frameId d)),
        (callback lib strerror s levels (readRequest d errnum (frameId d))).1.frames,
        (callback lib strerror s levels (readRequest d errnum (frameId d))).2⟩ := by
  obtain ⟨hle, hlt⟩ := registered_bounds h
  have htake : d.take maxFrameSize = d := List.take_of_length_le (Nat.le_of_lt hlt)
  have hpos : ¬ d.length = 0 := Nat.pos_iff_ne_zero.mp (Nat.lt_of_lt_of_le (by decide) hle)
  have hreg : registered (frameId d) = some d.length := h
  simp only [processSocketRead, htake, if_neg hpos, if_neg (Nat.not_lt.mpr hle), hreg, ne_eq,
    not_true_eq_false, if_false]

/-- **Anything else runs none**, and changes no level. -/
theorem processSocketRead_incomplete (h : ¬ Complete d) :
    (processSocketRead lib strerror s levels errnum d).request = none ∧
      (processSocketRead lib strerror s levels errnum d).levels = levels := by
  unfold processSocketRead
  dsimp only
  split
  · exact ⟨rfl, rfl⟩
  split
  · exact ⟨rfl, rfl⟩
  rw [frameId_take]
  split
  · exact ⟨rfl, rfl⟩
  rename_i size hsize
  split
  · exact ⟨rfl, rfl⟩
  · rename_i hlen
    refine absurd ?_ h
    rw [Complete, length_of_take hsize (not_not.mp hlen)]
    exact hsize

/-- The dispatcher sends the frames, as the replies to what was received. -/
theorem processSocketRead_replies (sends : Nat → SendResult) :
    (processSocketRead lib strerror s levels errnum d).frames =
      replies registered ⟨.frame (d.take maxFrameSize), (callback lib strerror s levels
        (readRequest (d.take maxFrameSize) errnum (frameId (d.take maxFrameSize)))).1, sends⟩ := by
  have hthrown : ∀ r : Received, (callback lib strerror s levels r).1.thrown = none := by
    intro r
    cases r <;> rfl
  simp only [processSocketRead, replies, hthrown, Option.map_none, Option.toList_none,
    List.append_nil]
  split
  · rfl
  split
  · rfl
  cases registered (frameId (d.take maxFrameSize)) with
  | none => rfl
  | some size =>
    dsimp only
    split <;> rfl

/-- A request to set levels. -/
def IsSetLevel (d : Str) : Prop := frameId d = 1 ∧ d.length = 272

theorem IsSetLevel.complete (h : IsSetLevel d) : Complete d := by
  rw [Complete, h.1, h.2]
  rfl

theorem processSocketRead_setLevel (h : IsSetLevel d) :
    processSocketRead lib strerror s levels errnum d =
      ⟨some (.setLevel (readInt d 4) (readPattern d 8)),
        (setLevelHandler lib s levels (readInt d 4) (readPattern d 8)).1,
        (setLevelHandler lib s levels (readInt d 4) (readPattern d 8)).2⟩ := by
  rw [processSocketRead_complete h.complete, h.1]
  rfl

theorem isSetLevel_of_readRequest {level : Int} {p : Pattern} (hc : Complete d)
    (h : readRequest d errnum (frameId d) = .setLevel level p) : IsSetLevel d := by
  have hid : frameId d = 1 := by
    unfold readRequest at h
    split at h
    · cases h
    · assumption
    · cases h
  refine ⟨hid, ?_⟩
  rw [Complete, hid] at hc
  exact (Option.some.inj hc).symm

/-- Only such a datagram runs `set_level_handler`. -/
theorem isSetLevel_of_request {level : Int} {p : Pattern}
    (h : (processSocketRead lib strerror s levels errnum d).request = some (.setLevel level p)) :
    IsSetLevel d := by
  by_cases hc : Complete d
  · rw [processSocketRead_complete hc] at h
    exact isSetLevel_of_readRequest hc (Option.some.inj h)
  · rw [(processSocketRead_incomplete hc).1] at h
    cases h

/-! ## Malformed requests -/

/-- The level or the pattern type is no enumerator, or the regular expression is invalid. -/
def Malformed (lib : Patterns) (d : Str) : Prop :=
  (¬ ∃ l : LogLevel, readInt d 4 = l.toInt) ∨ (¬ ∃ t : PatternType, readInt d 8 = t.toInt) ∨
    ∃ reason, makeMatcher lib (readPattern d 8) = .error reason

/-- **A datagram is checked**: if it runs `set_level_handler` it is a complete frame of that
id, and if it is malformed the reply is an error and no level changes. -/
structure Checked (lib : Patterns) (strerror : Nat → Str) (s : State V) (levels : Nat → Int)
    (errnum : Nat) (d : Str) : Prop where
  complete : ∀ level p,
    (processSocketRead lib strerror s levels errnum d).request = some (.setLevel level p) →
    IsSetLevel d
  rejected : ∀ level p,
    (processSocketRead lib strerror s levels errnum d).request = some (.setLevel level p) →
    Malformed lib d →
    (∃ reason, (processSocketRead lib strerror s levels errnum d).frames = [.error reason]) ∧
      (processSocketRead lib strerror s levels errnum d).levels = levels

/-- A request that is refused, or whose level is not negative and whose pattern type is an
enumerator. -/
def Proper (lib : Patterns) (d : Str) : Prop :=
  IsSetLevel d →
    debug < readInt d 4 ∨ (∃ reason, makeMatcher lib (readPattern d 8) = .error reason) ∨
      0 ≤ readInt d 4 ∧ ∃ t : PatternType, readInt d 8 = t.toInt

instance decidableError {ε α : Type} (x : Except ε α) : Decidable (∃ reason, x = .error reason) :=
  match x with
  | .error reason => isTrue ⟨reason, rfl⟩
  | .ok _ => isFalse nofun

/-- The enumerators of `pattern_type_t` are the numbers up to `wildcard`. -/
theorem exists_patternType_iff {n : Int} :
    (∃ t : PatternType, n = t.toInt) ↔ n = 0 ∨ n = 1 ∨ n = 2 ∨ n = 3 := by
  constructor
  · rintro ⟨t, rfl⟩
    cases t <;> decide
  · rintro (rfl | rfl | rfl | rfl)
    exacts [⟨.none, rfl⟩, ⟨.extendedRegex, rfl⟩, ⟨.basicRegex, rfl⟩, ⟨.wildcard, rfl⟩]

instance (n : Int) : Decidable (∃ t : PatternType, n = t.toInt) :=
  decidable_of_iff _ exists_patternType_iff.symm

instance (d : Str) : Decidable (IsSetLevel d) :=
  inferInstanceAs (Decidable (frameId d = 1 ∧ d.length = 272))

instance (lib : Patterns) (d : Str) : Decidable (Proper lib d) :=
  inferInstanceAs (Decidable (IsSetLevel d → _ ∨ _ ∨ _ ∧ _))

/-- The enumerators of `log_level_t` are the numbers up to `debug`. -/
theorem exists_logLevel_iff {n : Int} : (∃ l : LogLevel, n = l.toInt) ↔ 0 ≤ n ∧ n ≤ debug := by
  constructor
  · rintro ⟨l, rfl⟩
    cases l <;> decide
  · rintro ⟨hle, hge⟩
    have hn : n = 0 ∨ n = 1 ∨ n = 2 ∨ n = 3 ∨ n = 4 ∨ n = 5 := by
      unfold debug at hge
      omega
    rcases hn with rfl | rfl | rfl | rfl | rfl | rfl
    exacts [⟨.none, rfl⟩, ⟨.fatal, rfl⟩, ⟨.error, rfl⟩, ⟨.warning, rfl⟩, ⟨.info, rfl⟩,
      ⟨.debug, rfl⟩]

/-- The reply of `set_level_handler` is an error exactly if it refuses the request, and then
the levels stay. -/
theorem setLevelHandler_error_iff {level : Int} {p : Pattern} :
    ((∃ reason, (setLevelHandler lib s levels level p).1 = [.error reason]) ∧
        (setLevelHandler lib s levels level p).2 = levels) ↔
      debug < level ∨ ∃ reason, makeMatcher lib p = .error reason := by
  unfold setLevelHandler
  by_cases hlevel : debug < level
  · rw [if_pos hlevel]
    exact iff_of_true ⟨⟨_, rfl⟩, rfl⟩ (.inl hlevel)
  · rw [if_neg hlevel]
    cases hm : makeMatcher lib p with
    | error reason => exact iff_of_true ⟨⟨_, rfl⟩, rfl⟩ (.inr ⟨reason, rfl⟩)
    | ok matcher =>
      refine iff_of_false ?_ ?_
      · rintro ⟨⟨reason, hreply⟩, -⟩
        cases hreply
      · rintro (h | ⟨reason, h⟩)
        · exact hlevel h
        · cases h

/-- What is refused is malformed, and a malformed request is refused unless its level is
negative or its pattern type no enumerator. -/
theorem malformed_refused_iff :
    (Malformed lib d → debug < readInt d 4 ∨
        ∃ reason, makeMatcher lib (readPattern d 8) = .error reason) ↔
      debug < readInt d 4 ∨ (∃ reason, makeMatcher lib (readPattern d 8) = .error reason) ∨
        0 ≤ readInt d 4 ∧ ∃ t : PatternType, readInt d 8 = t.toInt := by
  constructor
  · intro h
    by_cases hm : Malformed lib d
    · rcases h hm with hlevel | hregex
      · exact .inl hlevel
      · exact .inr (.inl hregex)
    · obtain ⟨hlevel, htype, -⟩ := not_or.mp hm |>.imp_right not_or.mp
      exact .inr (.inr ⟨(exists_logLevel_iff.mp (not_not.mp hlevel)).1, not_not.mp htype⟩)
  · rintro (hlevel | hregex | ⟨hnonneg, htype⟩) hm
    · exact .inl hlevel
    · exact .inr hregex
    · rcases hm with hlevel | hno | hregex
      · refine .inl (Int.not_le.mp fun hle => ?_)
        exact hlevel (exists_logLevel_iff.mpr ⟨hnonneg, hle⟩)
      · exact absurd htype hno
      · exact .inr hregex

theorem checked_iff (s : State V) (levels : Nat → Int) (errnum : Nat) :
    Checked lib strerror s levels errnum d ↔ Proper lib d := by
  by_cases hset : IsSetLevel d
  · rw [Proper, forall_prop_of_true hset, ← malformed_refused_iff]
    constructor
    · intro h hm
      have hrejected := h.rejected (readInt d 4) (readPattern d 8)
      rw [processSocketRead_setLevel hset] at hrejected
      exact setLevelHandler_error_iff.mp (hrejected rfl hm)
    · intro h
      refine ⟨fun _ _ _ => hset, fun _ _ _ hm => ?_⟩
      rw [processSocketRead_setLevel hset]
      exact setLevelHandler_error_iff.mpr (h hm)
  · refine iff_of_true ⟨?_, ?_⟩ fun h => absurd h hset
    · intro level p h
      exact isSetLevel_of_request h
    · intro level p h
      exact absurd (isSetLevel_of_request h) hset

/-! ## The levels a request leaves -/

/-- An enumerator of `log_level_t`. -/
def Defined (level : Int) : Prop := ∃ l : LogLevel, level = l.toInt

theorem processSocketRead_levels (h : ¬ IsSetLevel d) :
    (processSocketRead lib strerror s levels errnum d).levels = levels := by
  by_cases hc : Complete d
  · rw [processSocketRead_complete hc]
    cases hr : readRequest d errnum (frameId d) with
    | status p => rfl
    | reopen errnum => rfl
    | setLevel level p => exact absurd (isSetLevel_of_readRequest hc hr) h
  · exact (processSocketRead_incomplete hc).2

/-- `set_level_handler` sets no level above `debug`. -/
theorem setLevelHandler_levels (lib : Patterns) (s : State V) (levels : Nat → Int) (level : Int)
    (p : Pattern) (i : Nat) :
    (setLevelHandler lib s levels level p).2 i = levels i ∨
      level ≤ debug ∧ (∃ matcher, makeMatcher lib p = .ok matcher) ∧
        (setLevelHandler lib s levels level p).2 i = level := by
  unfold setLevelHandler
  by_cases hlevel : debug < level
  · rw [if_pos hlevel]
    exact .inl rfl
  · rw [if_neg hlevel]
    cases hm : makeMatcher lib p with
    | error reason => exact .inl rfl
    | ok matcher =>
      simp only [foldl_setLevel]
      split
      · exact .inr ⟨Int.not_lt.mp hlevel, ⟨matcher, rfl⟩, rfl⟩
      · exact .inl rfl

/-- **A proper datagram leaves enumerators** where there were enumerators. -/
theorem Proper.defined (h : Proper lib d) (hl : ∀ i, Defined (levels i)) (i : Nat) :
    Defined ((processSocketRead lib strerror s levels errnum d).levels i) := by
  by_cases hset : IsSetLevel d
  · rw [processSocketRead_setLevel hset]
    show Defined ((setLevelHandler lib s levels (readInt d 4) (readPattern d 8)).2 i)
    rcases setLevelHandler_levels lib s levels (readInt d 4) (readPattern d 8) i with
      hkeep | ⟨hle, ⟨m, hm⟩, heq⟩
    · rw [hkeep]
      exact hl i
    · rw [heq]
      refine exists_logLevel_iff.mpr ⟨?_, hle⟩
      rcases h hset with hlt | ⟨reason, hreason⟩ | ⟨hnonneg, -⟩
      · exact absurd hlt (Int.not_lt.mpr hle)
      · rw [hm] at hreason
        cases hreason
      · exact hnonneg
  · rw [processSocketRead_levels hset]
    exact hl i

/-- The datagrams of a pass. -/
theorem processDatagrams_defined {ds : List (Str × Nat)} (h : ∀ d ∈ ds, Proper lib d.1)
    (hl : ∀ i, Defined (levels i)) (i : Nat) :
    Defined ((processDatagrams lib strerror s levels ds).2 i) := by
  induction ds generalizing levels with
  | nil => exact hl i
  | cons d ds ih =>
    have hd := h d List.mem_cons_self
    exact ih (fun d hd => h d (List.mem_cons_of_mem _ hd)) fun j => hd.defined hl j

end Xtr.Logger

/-! ## Every way a sink gets a level -/

namespace Xtr.Levels
open Logger (LogLevel Patterns Received Proper Defined Checked processDatagrams)

variable {V : Type}

/-- The logger, the levels of its sinks, and `default_log_level_`. -/
structure State (V : Type) where
  logger : Logger.State V
  levels : Nat → Int
  defaultLevel : Int

inductive Event (V : Type)
  /-- A sink is constructed with a level, or `sink::set_level`. -/
  | setLevel (i : Nat) (level : LogLevel)
  | setDefaultLogLevel (level : LogLevel)
  /-- `logger::get_sink`; the new sink is `t`. -/
  | getSink (t : Nat) (name : List UInt8) (loads : List Nat)
  /-- A sink is assigned one that is closed. -/
  | assign (t i : Nat)
  /-- Any other event of the logger. -/
  | logger (e : Logger.Event V)
  /-- The consumer starts a pass, with these datagrams, and what `reopen` returns if one asks
  for it. -/
  | runOnce (datagrams : List (Str × Nat))

/-- The handler a request is for. -/
def kind : Received → Logger.Request
  | .status _ => .status
  | .setLevel _ _ => .setLevel
  | .reopen _ => .reopen

/-- The copy of a sink has the level of the sink. -/
def copied (levels : Nat → Int) : Logger.Event V → Nat → Int
  | .copy t i _ => Function.update levels t (levels i)
  | _ => levels

def startsPass : Logger.Event V → Bool
  | .runOnce _ => true
  | _ => false

section Machine
variable [DecidableEq V] (cfg : Logger.Config V) (lib : Patterns) (strerror : Nat → Str)

def step (s : State V) : Event V → Option (State V)
  | .setLevel i level => some { s with levels := Function.update s.levels i level.toInt }
  | .setDefaultLogLevel level => some { s with defaultLevel := level.toInt }
  | .getSink t name loads =>
    (Logger.step cfg s.logger (.registerSink t name loads)).map fun logger =>
      { s with logger := logger, levels := Function.update s.levels t s.defaultLevel }
  | .assign t i => some { s with levels := Function.update s.levels t (s.levels i) }
  | .logger e =>
    if startsPass e then none
    else (Logger.step cfg s.logger e).map fun logger =>
      { s with logger := logger, levels := copied s.levels e }
  | .runOnce datagrams =>
    let (requests, levels) := processDatagrams lib strerror s.logger s.levels datagrams
    (Logger.step cfg s.logger (.runOnce (requests.map kind))).map fun logger =>
      { s with logger := logger, levels := levels }

def machine : Machine (State V) (Event V) where
  init s := ∃ mem, s = ⟨Logger.initial cfg mem, fun _ => LogLevel.info.toInt, LogLevel.info.toInt⟩
  step := step cfg lib strerror

end Machine

/-- All the levels there are. -/
structure AllDefined (s : State V) : Prop where
  levels : ∀ i, Defined (s.levels i)
  defaultLevel : Defined s.defaultLevel

/-- The datagrams of an event are proper. -/
def Event.Proper (lib : Patterns) : Event V → Prop
  | .runOnce datagrams => ∀ d ∈ datagrams, Logger.Proper lib d.1
  | _ => True

instance (lib : Patterns) (e : Event V) : Decidable (e.Proper lib) :=
  match e with
  | .runOnce datagrams => inferInstanceAs (Decidable (∀ d ∈ datagrams, Logger.Proper lib d.1))
  | .setLevel .. | .setDefaultLogLevel .. | .getSink .. | .assign .. | .logger .. => isTrue trivial

theorem defined_update {levels : Nat → Int} {t : Nat} {level : Int} (h : ∀ i, Defined (levels i))
    (hlevel : Defined level) (i : Nat) : Defined (Function.update levels t level i) := by
  by_cases hi : i = t
  · subst hi
    rwa [Function.update_self]
  · rw [Function.update_of_ne hi]
    exact h i

theorem defined_copied {levels : Nat → Int} (h : ∀ i, Defined (levels i)) (e : Logger.Event V)
    (i : Nat) : Defined (copied levels e i) := by
  unfold copied
  split
  · exact defined_update h (h _) i
  · exact h i

variable [DecidableEq V] {cfg : Logger.Config V} {lib : Patterns} {strerror : Nat → Str}
  {s s' : State V} {e : Event V}

/-- **Every step keeps the levels defined**, if its datagrams are proper. -/
theorem AllDefined.step (h : AllDefined s) (hp : e.Proper lib)
    (hs : step cfg lib strerror s e = some s') : AllDefined s' := by
  cases e with
  | setLevel i level =>
    cases hs
    exact ⟨defined_update h.levels ⟨level, rfl⟩, h.defaultLevel⟩
  | setDefaultLogLevel level =>
    cases hs
    exact ⟨h.levels, ⟨level, rfl⟩⟩
  | getSink t name loads =>
    obtain ⟨logger, -, rfl⟩ := Option.map_eq_some_iff.mp hs
    exact ⟨defined_update h.levels h.defaultLevel, h.defaultLevel⟩
  | assign t i =>
    cases hs
    exact ⟨defined_update h.levels (h.levels i), h.defaultLevel⟩
  | logger e =>
    obtain ⟨-, hs⟩ := Option.ite_none_left_eq_some.mp hs
    obtain ⟨logger, -, rfl⟩ := Option.map_eq_some_iff.mp hs
    exact ⟨defined_copied h.levels e, h.defaultLevel⟩
  | runOnce datagrams =>
    obtain ⟨logger, -, rfl⟩ := Option.map_eq_some_iff.mp hs
    exact ⟨Logger.processDatagrams_defined hp h.levels, h.defaultLevel⟩

/-- **Which requests are checked, and what that does for the levels.**  A datagram is checked
exactly if it is proper; and in every run whose datagrams are proper the level of every sink
is an enumerator. -/
theorem set_level_checked_iff (cfg : Logger.Config V) (lib : Patterns) (strerror : Nat → Str) :
    (∀ (s : Logger.State V) levels errnum d,
      Checked lib strerror s levels errnum d ↔ Proper lib d) ∧
    ∀ s : State V, (machine cfg lib strerror).ReachableBy (fun _ e => e.Proper lib) s →
      ∀ i, Defined (s.levels i) := by
  refine ⟨fun s levels errnum d => Logger.checked_iff s levels errnum, fun s h => ?_⟩
  have hdefined : AllDefined s := by
    refine h.invariant ?_ ?_
    · rintro _ ⟨mem, rfl⟩
      exact ⟨fun _ => ⟨.info, rfl⟩, ⟨.info, rfl⟩⟩
    · intro s e s' hi hp hs
      exact hi.step hp hs
  exact hdefined.levels

/-- The frame of a request to set the level of every sink, with the bytes of the level and of
the pattern type. -/
def setLevelFrame (level type : Str) : Str := [1, 0, 0, 0] ++ level ++ type ++ List.replicate 260 0

/-- A sink is registered, and known to the consumer when the request is read. -/
def requested (datagram : Str) : List (Event UInt8) :=
  [Event.getSink 1 [65] [], .runOnce []] ++ List.replicate 6 (Event.logger (.consume [])) ++
    [Event.runOnce [(datagram, 0)]]

/-- The level is set to `debug`; a request for level 42 would be checked. -/
theorem set_level_checked_debug :
    ∃ s, (machine Logger.small Logger.plainText fun _ => []).ReachableBy
      (fun _ e => e.Proper Logger.plainText) s ∧ s.levels 1 = 5 ∧ Defined (s.levels 1) ∧
    Checked Logger.plainText (fun _ => []) s.logger s.levels 0
      (setLevelFrame [42, 0, 0, 0] [0, 0, 0, 0]) := by
  have hrun : ((machine Logger.small Logger.plainText fun _ => []).runBy
      (fun _ e => e.Proper Logger.plainText)
      ⟨Logger.initial Logger.small fun _ _ => .byte 0, fun _ => 4, 4⟩
      (requested (setLevelFrame [5, 0, 0, 0] [0, 0, 0, 0]))).map (fun s => s.levels 1) =
      some 5 := by
    decide +kernel
  obtain ⟨s, hreach, hlevel⟩ := Machine.exists_reachableBy hrun ⟨_, rfl⟩
  obtain ⟨hchecked, hdefined⟩ :=
    set_level_checked_iff Logger.small Logger.plainText fun _ => []
  exact ⟨s, hreach, hlevel, hdefined s hreach 1, (hchecked _ _ _ _).mpr (by decide +kernel)⟩

/-- Level `-1` is set, and so is a level for a pattern type that does not exist. -/
theorem negative_level_set :
    ∃ s, (machine Logger.small Logger.plainText fun _ => []).Reachable s ∧ s.levels 1 = -1 ∧
      ¬ Defined (s.levels 1) ∧
      ¬ Checked Logger.plainText (fun _ => []) s.logger s.levels 0
        (setLevelFrame [255, 255, 255, 255] [0, 0, 0, 0]) ∧
      ¬ Checked Logger.plainText (fun _ => []) s.logger s.levels 0
        (setLevelFrame [5, 0, 0, 0] [4, 0, 0, 0]) := by
  have hrun : ((machine Logger.small Logger.plainText fun _ => []).run
      ⟨Logger.initial Logger.small fun _ _ => .byte 0, fun _ => 4, 4⟩
      (requested (setLevelFrame [255, 255, 255, 255] [0, 0, 0, 0]))).map (fun s => s.levels 1) =
      some (-1) := by
    decide +kernel
  obtain ⟨s, hreach, hlevel⟩ := Machine.exists_reachable hrun ⟨_, rfl⟩
  refine ⟨s, hreach, hlevel, ?_, ?_, ?_⟩
  · rw [hlevel, Defined, Logger.exists_logLevel_iff]
    decide
  · rw [Logger.checked_iff]
    decide +kernel
  · rw [Logger.checked_iff]
    decide +kernel

end Xtr.Levels
