import Xtr.DispatcherAnswers
import Xtr.Frames

/-!
# xtrctl

The program that sends commands to a logger: `xtrctl status`, `xtrctl level` and
`xtrctl reopen`.  `parse` is `main` up to the connection, and `readReplies` what follows the
request: it reads messages until the logger closes the connection, sorts the sinks by name
and prints them, or exits at the first error.

`commands_end_to_end` is what a user gets from it: the sinks whose names match the pattern
are printed, or have their level set, and no others, whatever padding the frames have.

`getopt_long` and `std::sort` are parameters.  The first gives the options in the order they
stand in, and the arguments that are none.
-/
namespace Xtr.Xtrctl
open Logger (LogLevel PatternType Pattern Patterns makeMatcher)
open Dispatcher (Reply errorFrame)

/-! ## Arguments -/

/-- The options of `long_options`, and what is none of them. -/
inductive Opt
  | extendedRegexp
  | basicRegexp
  | wildcard
  | help
  | unknown
  deriving DecidableEq

/-- `usage`: the exit status and the reason. -/
structure Usage where
  status : Nat
  reason : Option Str
  deriving DecidableEq

def fail {α : Type} (reason : String) : Except Usage α := .error ⟨1, some (text reason)⟩

/-- `levels_map`; `none` cannot be asked for. -/
def levelNamed (name : Str) : Option LogLevel :=
  if name = text "fatal" then some .fatal
  else if name = text "error" then some .error
  else if name = text "warning" then some .warning
  else if name = text "info" then some .info
  else if name = text "debug" then some .debug
  else none

/-- The loop over the options. -/
def scanOptions : List Opt → PatternType → Except Usage PatternType
  | [], type => .ok type
  | .extendedRegexp :: opts, _ => scanOptions opts .extendedRegex
  | .basicRegexp :: opts, _ => scanOptions opts .basicRegex
  | .wildcard :: opts, _ => scanOptions opts .wildcard
  | .help :: _, _ => .error ⟨0, none⟩
  | .unknown :: _, _ => .error ⟨1, none⟩

/-- The commands, before their pattern is known. -/
inductive Command
  | status
  | level (level : LogLevel)
  | reopen
  deriving DecidableEq

/-- A path and, before it, at most one pattern, which `reopen` does not take. -/
def splitOperands (command : Command) (operands : List Str) : Except Usage (Option Str × Str) :=
  if operands.length > 2 - (if command = .reopen then 1 else 0) then fail "Too many arguments"
  else match operands with
    | [] => fail "Please specify a socket path"
    | [path] => .ok (none, path)
    | pattern :: path :: _ => .ok (some pattern, path)

/-- The `pattern` of a request, zero but for what is set. -/
def requestPattern (type : PatternType) : Option Str → Pattern
  | none => ⟨.none, false, List.replicate 256 0⟩
  | some pattern => ⟨type, false, strzcpy 256 pattern⟩

def Command.request (p : Pattern) : Command → Request
  | .status => .status p
  | .level l => .setLevel l p
  | .reopen => .reopen

section Parse
variable (getopt : List Str → List Opt × List Str)

/-- `main` from the options to the connection: the path and the request. -/
def parseRest (command : Command) (rest : List Str) : Except Usage (Str × Request) := do
  let (opts, operands) := getopt rest
  let type ← scanOptions opts .none
  let (pattern, path) ← splitOperands command operands
  if type ≠ .none ∧ pattern = none then fail "Pattern type specified, but no pattern given"
  else
    let type := if pattern ≠ none ∧ type = .none then .basicRegex else type
    .ok (path, command.request (requestPattern type pattern))

/-- `main` up to the connection. -/
def parse (argv : List Str) : Except Usage (Str × Request) :=
  match argv.tail with
  | [] => fail "Please specify a command"
  | command :: rest =>
    if command = text "status" then parseRest getopt .status rest
    else if command = text "reopen" then parseRest getopt .reopen rest
    else if command = text "level" then
      match rest with
      | [] => fail "Please specify a log level"
      | name :: rest =>
        match levelNamed name with
        | none => fail "Invalid log level"
        | some l => parseRest getopt (.level l) rest
    else if command = text "--help" then .error ⟨0, none⟩
    else fail "Invalid command"

end Parse

/-! ## Replies -/

/-- `operator<<` of `log_level_t`. -/
def levelText (level : Int) : Str :=
  if level = 0 then text "none"
  else if level = 1 then text "fatal"
  else if level = 2 then text "error"
  else if level = 3 then text "warning"
  else if level = 4 then text "info"
  else if level = 5 then text "debug"
  else text "<invalid>"

/-- `operator<<` of `sink_info`, and the end of the line. -/
def SinkInfo.line (info : SinkInfo) : Str :=
  cStr info.name ++ text " (" ++ levelText info.level ++ text ") " ++
    text (toString (info.bufCapacity / 1024)) ++ text "K capacity, " ++
    text (toString (info.bufNbytes / 1024)) ++ text "K used, " ++
    text (toString info.droppedCount) ++ text " dropped\n"

/-- `std::sort` by `strcmp` of the names.  It does not say how it orders equal names. -/
structure Sorter where
  sort : List SinkInfo → List SinkInfo
  perm : ∀ infos, (sort infos).Perm infos
  sorted : ∀ infos, (sort infos).Pairwise fun a b => ¬ cStr b.name < cStr a.name

/-- What the program has written when it exits, and its status. -/
structure Exit where
  stdout : Str
  stderr : Str
  status : Nat
  deriving DecidableEq

/-- What `command_recv` returns; a message that is empty is the end. -/
inductive Message
  | error (errnum : Nat)
  | frame (bytes : Str)

/-- `errx`, after what was written to the standard output. -/
def errx (stdout reason : Str) : Exit := ⟨stdout, reason ++ text "\n", 1⟩

/-- The loop of `main` and what comes after it; there is no exit while the logger sends
nothing. -/
def readReplies (sorter : Sorter) (strerror : Nat → Str) (infos : List SinkInfo) (stdout : Str) :
    List Message → Option Exit
  | [] => none
  | .error errnum :: _ => some (errx stdout (text "Error reading from socket: " ++ strerror errnum))
  | .frame bytes :: messages =>
    if bytes.length = 0 then
      some ⟨stdout ++ (sorter.sort infos).flatMap SinkInfo.line, [], 0⟩
    else match readReply (bytes.take Logger.maxFrameSize) with
      | .sinkInfo info => readReplies sorter strerror (infos ++ [info]) stdout messages
      | .success => readReplies sorter strerror infos (stdout ++ text "Success\n") messages
      | .error reason => some (errx stdout (text "Error: " ++ cStr reason))
      | .bad reason => some (errx stdout reason)

/-! ## What is sent and read -/

theorem sized_requestPattern (type : PatternType) (pattern : Option Str) :
    (requestPattern type pattern).text.length = 256 := by
  cases pattern with
  | none => exact List.length_replicate
  | some pattern => exact length_strzcpy 256 pattern

theorem sized_request (command : Command) (type : PatternType) (pattern : Option Str) :
    (command.request (requestPattern type pattern)).Sized := by
  cases command with
  | status | level => exact sized_requestPattern type pattern
  | reopen => trivial

/-- The options end with a pattern type, or with `usage`; either way the request has arrays
of the right sizes. -/
theorem sized_parseRest {getopt : List Str → List Opt × List Str} {command : Command}
    {rest : List Str} {path : Str} {r : Request}
    (h : parseRest getopt command rest = .ok (path, r)) : r.Sized := by
  unfold parseRest at h
  cases hopts : scanOptions (getopt rest).1 .none with
  | error usage => simp [hopts, bind, Except.bind] at h
  | ok type =>
    cases hsplit : splitOperands command (getopt rest).2 with
    | error usage => simp [hopts, hsplit, bind, Except.bind] at h
    | ok operands =>
      obtain ⟨pattern, path'⟩ := operands
      simp only [hopts, hsplit, bind, Except.bind] at h
      split at h
      · cases h
      · cases h
        exact sized_request command _ pattern

theorem sized_parse {getopt : List Str → List Opt × List Str} {argv : List Str} {path : Str}
    {r : Request} (h : parse getopt argv = .ok (path, r)) : r.Sized := by
  unfold parse at h
  split at h
  · cases h
  split at h
  · exact sized_parseRest h
  split at h
  · exact sized_parseRest h
  split at h
  · split at h
    · cases h
    · split at h
      · cases h
      · exact sized_parseRest h
  split at h <;> cases h

/-- The messages are the frames of the replies, whatever their padding holds. -/
def Carry (rs : List Reply) (frames : List Str) : Prop :=
  List.Forall₂ (fun r bytes => ∃ mem, bytes = replyBytes mem r) rs frames

/-- A message that is the frame of a reply. -/
theorem readReplies_cons {sorter : Sorter} {strerror : Nat → Str} {infos : List SinkInfo}
    {stdout : Str} {mem : Nat → UInt8} {r : Reply} {messages : List Message} (h : Sized r) :
    readReplies sorter strerror infos stdout (.frame (replyBytes mem r) :: messages) =
      match found r with
      | .sinkInfo info => readReplies sorter strerror (infos ++ [info]) stdout messages
      | .success => readReplies sorter strerror infos (stdout ++ text "Success\n") messages
      | .error reason => some (errx stdout (text "Error: " ++ cStr reason))
      | .bad reason => some (errx stdout reason) := by
  obtain ⟨hpos, hle⟩ := length_replyBytes mem h
  have hne : ¬ (replyBytes mem r).length = 0 := by
    unfold Dispatcher.headerSize at hpos
    omega
  have htake : (replyBytes mem r).take Logger.maxFrameSize = replyBytes mem r :=
    List.take_of_length_le (Nat.le_trans hle (by decide))
  rw [readReplies, if_neg hne, htake, readReply_bytes mem h]

/-- The sinks in a list of replies. -/
def infosOf (rs : List Reply) : List SinkInfo :=
  rs.filterMap fun r => match found r with
    | .sinkInfo info => some info
    | _ => none

/-- **A client prints the sinks it was sent**, sorted by name. -/
theorem readReplies_sinks {sorter : Sorter} {strerror : Nat → Str} {rs : List Reply}
    {frames : List Str} (hframes : Carry rs frames) (hsized : ∀ r ∈ rs, Sized r)
    (hsinks : ∀ r ∈ rs, ∃ info, found r = .sinkInfo info) (infos : List SinkInfo) :
    readReplies sorter strerror infos [] (frames.map .frame ++ [.frame []]) =
      some ⟨(sorter.sort (infos ++ infosOf rs)).flatMap SinkInfo.line, [], 0⟩ := by
  induction hframes generalizing infos with
  | nil =>
    rw [infosOf, List.filterMap_nil, List.append_nil]
    rfl
  | @cons r bytes rs frames hr hrest ih =>
    obtain ⟨mem, rfl⟩ := hr
    obtain ⟨info, hinfo⟩ := hsinks r List.mem_cons_self
    have hinfos : infosOf (r :: rs) = info :: infosOf rs := by
      simp only [infosOf, List.filterMap_cons, hinfo]
    rw [List.map_cons, List.cons_append, readReplies_cons (hsized r List.mem_cons_self), hinfo]
    dsimp only
    rw [ih (fun r hr => hsized r (List.mem_cons_of_mem _ hr))
      (fun r hr => hsinks r (List.mem_cons_of_mem _ hr)), hinfos, List.append_assoc]
    rfl

/-- The end of a command that failed. -/
def failure (reason : Str) : Exit := errx [] (text "Error: " ++ cStr (reason.take 255))

/-- The end of a command that has nothing to print. -/
def succeeded : Exit := ⟨text "Success\n", [], 0⟩

theorem readReplies_success {sorter : Sorter} {strerror : Nat → Str} {frames : List Str}
    (hframes : Carry [.success] frames) :
    readReplies sorter strerror [] [] (frames.map .frame ++ [.frame []]) =
      some succeeded := by
  obtain ⟨bytes, frames', ⟨mem, rfl⟩, hnil, rfl⟩ := List.forall₂_cons_left_iff.mp hframes
  have hsized : Sized .success := trivial
  rw [List.forall₂_nil_left_iff.mp hnil, List.map_singleton, List.singleton_append,
    readReplies_cons hsized]
  show some (Exit.mk (text "Success\n" ++ (sorter.sort []).flatMap SinkInfo.line) [] 0) = _
  rw [(sorter.perm []).eq_nil, List.flatMap_nil, List.append_nil]
  rfl

/-- An error, with the reason cut to fit its array. -/
theorem readReplies_error {sorter : Sorter} {strerror : Nat → Str} {reason : Str}
    {frames : List Str} (hframes : Carry [errorFrame reason] frames) :
    readReplies sorter strerror [] [] (frames.map .frame ++ [.frame []]) =
      some (failure reason) := by
  obtain ⟨bytes, frames', ⟨mem, rfl⟩, hnil, rfl⟩ := List.forall₂_cons_left_iff.mp hframes
  have hsized : Sized (errorFrame reason) := length_strzcpy 256 reason
  rw [List.forall₂_nil_left_iff.mp hnil, List.map_singleton, List.singleton_append,
    readReplies_cons hsized]
  show some (errx [] (text "Error: " ++ cStr (strzcpy 256 reason))) = _
  rw [cStr_strzcpy (by decide)]
  rfl

/-! ## From the command line to the logger and back -/

section EndToEnd
variable {V : Type} (lib : Patterns) (strerror : Nat → Str) (s : Logger.State V)
  (levels : Nat → Int)

/-- What is printed about a sink. -/
def sinkInfo (h : Logger.Handle) : SinkInfo where
  level := levels h.sink
  bufCapacity := (s.sinks h.sink).ring.capacity
  bufNbytes := (s.sinks h.sink).ring.readSpan.size
  droppedCount := h.dropped % 2 ^ 64
  name := strzcpy 128 h.name

/-- **What a command is for.**  `status` prints the matching sinks in the order of their
names, `level` sets the level of the matching sinks, and `reopen` reopens the log.  Each
fails with the reason, and no level changes but by `level`. -/
def Served (errnum : Nat) (levels' : Nat → Int) (exit : Exit) : Request → Prop
  | .status p => levels' = levels ∧ match makeMatcher lib p with
    | .error reason => exit = failure reason
    | .ok matcher => ∃ infos : List SinkInfo,
        infos.Perm ((s.matching matcher).map (sinkInfo s levels)) ∧
        infos.Pairwise (fun a b => ¬ cStr b.name < cStr a.name) ∧
        exit = ⟨infos.flatMap SinkInfo.line, [], 0⟩
  | .setLevel level p => match makeMatcher lib p with
    | .error reason => levels' = levels ∧ exit = failure reason
    | .ok matcher => exit = succeeded ∧ ∀ i, levels' i =
        if i ∈ (s.matching matcher).map Logger.Handle.sink then level.toInt else levels i
  | .reopen => levels' = levels ∧
      exit = if errnum ≠ 0 then failure (strerror errnum) else succeeded

variable {lib strerror s levels} {cfg : Logger.Config V} {errnum : Nat}

/-- While the control sink is registered, the handlers pass over it and no other sink. -/
theorem filter_drop_eq (hfront : Logger.Front s) (hcontrol : ∃ hd ∈ s.handles, hd.sink = 0)
    (matcher : Str → Bool) :
    ((s.handles.drop 1).filter fun h => matcher (cStr h.name)) = s.matching matcher := by
  obtain ⟨hd, hmem, hzero⟩ := hcontrol
  cases hhandles : s.handles with
  | nil =>
    rw [hhandles] at hmem
    cases hmem
  | cons first rest =>
    have hfirst : first.sink = 0 := by
      rw [hhandles] at hmem
      rcases List.mem_cons.mp hmem with rfl | hmem
      · exact hzero
      · refine absurd ?_ hfront.tail
        rw [hhandles, List.map_cons, List.tail_cons, ← hzero]
        exact List.mem_map_of_mem hmem
    have hmatching := hfront.matching_eq hhandles matcher
    rw [hmatching, hfirst, hhandles]
    rfl

/-- The frame about a sink has room for its fields. -/
theorem sized_sinkInfo (hinv : Logger.Inv cfg s)
    (hlevels : ∀ i, -2 ^ 31 ≤ levels i ∧ levels i < 2 ^ 31)
    (h : Logger.Handle) : Sized (Logger.sinkInfo s levels h) := by
  obtain ⟨W, R, P, hok⟩ := hinv.rings h.sink
  have hcapacity : (s.sinks h.sink).ring.capacity < 2 ^ 32 := by
    show (s.sinks h.sink).ring.sizing.capacity < 2 ^ 32
    rw [hok.sizing]
    exact cfg.capacity_lt
  obtain ⟨S, hcounts, -⟩ := hok.queue.counts
  have hspan : (s.sinks h.sink).ring.readSpan.size = W - R := by rw [hcounts.readSpan]
  have hroom := hcounts.room
  have hstale := hcounts.stale
  exact ⟨hlevels h.sink, by omega, by omega, length_strzcpy 128 h.name⟩

/-- `status` is answered with the sinks that are printed. -/
theorem infosOf_map (hs : List Logger.Handle) :
    infosOf (hs.map (Logger.sinkInfo s levels)) = hs.map (sinkInfo s levels) := by
  rw [infosOf, List.filterMap_map]
  exact congrFun List.filterMap_eq_map' hs

/-- The sinks are printed in the order of their names. -/
theorem readReplies_status (sorter : Sorter) (strerror : Nat → Str) {hs : List Logger.Handle}
    {frames : List Str}
    (hframes : Carry (hs.map (Logger.sinkInfo s levels)) frames)
    (hsized : ∀ h, Sized (Logger.sinkInfo s levels h)) :
    ∃ infos : List SinkInfo, infos.Perm (hs.map (sinkInfo s levels)) ∧
      infos.Pairwise (fun a b => ¬ cStr b.name < cStr a.name) ∧
      readReplies sorter strerror [] [] (frames.map .frame ++ [.frame []]) =
        some ⟨infos.flatMap SinkInfo.line, [], 0⟩ := by
  have hall : ∀ r ∈ hs.map (Logger.sinkInfo s levels), Sized r ∧
      ∃ info, found r = .sinkInfo info := by
    intro r hr
    obtain ⟨h, -, rfl⟩ := List.mem_map.mp hr
    exact ⟨hsized h, _, rfl⟩
  refine ⟨sorter.sort (hs.map (sinkInfo s levels)), sorter.perm _, sorter.sorted _, ?_⟩
  rw [readReplies_sinks hframes (fun r hr => (hall r hr).1) (fun r hr => (hall r hr).2) [],
    List.nil_append, infosOf_map]

/-- A request is carried out by the logger, and the answer is understood. -/
theorem request_served [DecidableEq V] {r : Request} (sorter : Sorter) {frames : List Str}
    (h : (Logger.machine cfg).ReachableBy Logger.Private s)
    (hcontrol : ∃ hd ∈ s.handles, hd.sink = 0)
    (hlevels : ∀ i, -2 ^ 31 ≤ levels i ∧ levels i < 2 ^ 31)
    (hframes : Carry (Logger.callback lib strerror s levels (r.received errnum)).1.frames frames) :
    ∃ exit, readReplies sorter strerror [] [] (frames.map .frame ++ [.frame []]) = some exit ∧
      Served lib strerror s levels errnum
        (Logger.callback lib strerror s levels (r.received errnum)).2 exit r := by
  have hfilter := filter_drop_eq (Logger.Front.of_reachableBy h) hcontrol
  have hsized := sized_sinkInfo (Logger.Inv.of_reachable h.reachable) hlevels
  cases r with
  | status p =>
    simp only [Request.received, Logger.callback, Logger.statusHandler] at hframes ⊢
    cases hm : makeMatcher lib p with
    | error reason =>
      simp only [hm] at hframes
      refine ⟨_, readReplies_error hframes, rfl, ?_⟩
      rw [hm]
    | ok matcher =>
      simp only [hm, hfilter] at hframes
      obtain ⟨infos, hperm, hsorted, hread⟩ := readReplies_status sorter strerror hframes hsized
      refine ⟨_, hread, rfl, ?_⟩
      rw [hm]
      exact ⟨infos, hperm, hsorted, rfl⟩
  | setLevel level p =>
    have hlevel : ¬ level.toInt > Logger.debug := Int.not_lt.mpr (logLevel_bounds level).2
    simp only [Request.received, Logger.callback, Logger.setLevelHandler, if_neg hlevel]
      at hframes ⊢
    cases hm : makeMatcher lib p with
    | error reason =>
      simp only [hm] at hframes
      refine ⟨_, readReplies_error hframes, ?_⟩
      simp only [Served, hm]
      exact ⟨trivial, trivial⟩
    | ok matcher =>
      simp only [hm] at hframes
      refine ⟨_, readReplies_success hframes, ?_⟩
      simp only [Served, hm]
      refine ⟨trivial, fun i => ?_⟩
      rw [Logger.foldl_setLevel, hfilter]
  | reopen =>
    simp only [Request.received, Logger.callback, Logger.reopenHandler] at hframes ⊢
    by_cases herr : errnum ≠ 0
    · rw [if_pos herr] at hframes
      exact ⟨_, readReplies_error hframes, rfl, (if_pos herr).symm⟩
    · rw [if_neg herr] at hframes
      exact ⟨_, readReplies_success hframes, rfl, (if_neg herr).symm⟩

/-- **A command does what it is for**, from its arguments to what it prints, as long as the
control sink is there for the handlers to pass over.  Whatever other clients ask meanwhile,
if its request is read by the logger and its connection is closed because everything was
sent, the logger has carried it out and the program has understood the answer; the padding
of the frames does not matter.  How reopening the log went is the storage's to say. -/
theorem commands_end_to_end [DecidableEq V] {getopt : List Str → List Opt × List Str}
    {argv : List Str} {path : Str} {r : Request} {mem : Nat → UInt8} {fd c : Nat}
    {es : List Dispatcher.Event} {d : Dispatcher.State} {sends : Nat → Dispatcher.SendResult}
    {frames : List Str} (sorter : Sorter) (hparse : parse getopt argv = .ok (path, r))
    (h : (Logger.machine cfg).ReachableBy Logger.Private s)
    (hcontrol : ∃ hd ∈ s.handles, hd.sink = 0)
    (hlevels : ∀ i, -2 ^ 31 ≤ levels i ∧ levels i < 2 ^ 31)
    (hrun : (Dispatcher.machine Dispatcher.registered).run (Dispatcher.initial fd) es = some d)
    (hreads : Dispatcher.reads Dispatcher.registered (Dispatcher.initial fd) es c =
      [⟨.frame (r.bytes mem),
        (Logger.callback lib strerror s levels (r.received errnum)).1, sends⟩])
    (hclosed : (c, .finished) ∈ d.closed) (hframes : Carry (d.sent c) frames) :
    ∃ exit, readReplies sorter strerror [] [] (frames.map .frame ++ [.frame []]) = some exit ∧
      Served lib strerror s levels errnum
        (Logger.callback lib strerror s levels (r.received errnum)).2 exit r := by
  have hsent := (Dispatcher.sent_run hrun c).2 hclosed
  rw [Dispatcher.answers, hreads, List.flatMap_singleton, replies_request (sized_parse hparse)]
    at hsent
  exact request_served sorter h hcontrol hlevels (hsent ▸ hframes)

/-- The frames of replies, with padding that is zero. -/
theorem carry_map (rs : List Reply) : Carry rs (rs.map (replyBytes fun _ => 0)) :=
  List.forall₂_map_right_iff.mpr (List.forall₂_same.mpr fun _ _ => ⟨_, rfl⟩)

/-- Names in the order of `strcmp`. -/
def byName : Sorter where
  sort infos := infos.mergeSort fun a b => decide (cStr a.name ≤ cStr b.name)
  perm infos := List.mergeSort_perm infos _
  sorted infos := by
    refine (List.pairwise_mergeSort (fun a b c hab hbc => ?_) (fun a b => ?_) infos).imp
      fun h => List.not_lt.mpr (of_decide_eq_true h)
    · exact decide_eq_true (List.le_trans (of_decide_eq_true hab) (of_decide_eq_true hbc))
    · simpa using List.le_total (cStr a.name) (cStr b.name)

/-- `xtrctl level info A sock`, up to the connection. -/
def setLevelA : Request := .setLevel .info ⟨.basicRegex, false, strzcpy 256 [65]⟩

/-- The request arrives at the descriptor 5. -/
def asksLevelA : Dispatcher.Event :=
  .processCommands ⟨fun f => ⟨f = 5, false, false⟩, 1, none,
    fun _ => ⟨.frame (setLevelA.bytes fun _ => 0), ⟨[.success], none⟩, fun _ => .again⟩⟩

set_option maxRecDepth 10000 in
/-- It is carried out for sink `A`. -/
theorem commands_end_to_end_level : ∃ (s : Logger.State UInt8) (exit : Exit),
    (Logger.machine Logger.small).ReachableBy Logger.Private s ∧
    s.handles = [⟨0, Logger.controlName, 0⟩, ⟨1, [65], 0⟩] ∧
    parse (fun args => ([], args)) (["xtrctl", "level", "info", "A", "sock"].map text) =
      .ok (text "sock", setLevelA) ∧
    Served Logger.plainText (fun _ => []) s (fun _ => 3) 0
      (Logger.callback Logger.plainText (fun _ => []) s (fun _ => 3) (setLevelA.received 0)).2 exit
      setLevelA := by
  obtain ⟨s, hreach, hhandles⟩ := Logger.reached Logger.registers (fun s => s.handles)
    [⟨0, Logger.controlName, 0⟩, ⟨1, [65], 0⟩] (by decide +kernel)
  have hparse : parse (fun args => ([], args)) (["xtrctl", "level", "info", "A", "sock"].map text) =
      .ok (text "sock", setLevelA) := by decide +kernel
  have hcontrol : ∃ hd ∈ s.handles, hd.sink = 0 :=
    ⟨⟨0, Logger.controlName, 0⟩, hhandles ▸ List.mem_cons_self, rfl⟩
  have hrun : ((Dispatcher.machine Dispatcher.registered).run (Dispatcher.initial 3)
      [Dispatcher.connects 5, asksLevelA, Dispatcher.drains 5]).map (fun d => d.closed) =
        some [(0, .finished)] := by decide +kernel
  obtain ⟨d, hrun, hclosed⟩ := Option.map_eq_some_iff.mp hrun
  have hreads : Dispatcher.reads Dispatcher.registered (Dispatcher.initial 3)
      [Dispatcher.connects 5, asksLevelA, Dispatcher.drains 5] 0 =
        [⟨.frame (setLevelA.bytes fun _ => 0), ⟨[.success], none⟩, fun _ => .again⟩] := rfl
  have hserved : ∃ exit, _ ∧
      Served Logger.plainText (fun _ => []) s (fun _ => 3) 0 _ exit setLevelA :=
    commands_end_to_end byName hparse hreach hcontrol (fun _ => by decide) hrun hreads
      (hclosed ▸ List.mem_cons_self) (carry_map _)
  obtain ⟨exit, -, hserved⟩ := hserved
  exact ⟨s, exit, hreach, hhandles, hparse, hserved⟩

end EndToEnd

end Xtr.Xtrctl
