import Xtr.Dispatcher
import Xtr.LoggerPresence

/-!
# The command handlers

`consumer::status_handler`, `set_level_handler` and `reopen_handler`, as callbacks of the
dispatcher.  They run at the start of a pass, between the records of two sinks.

Both loops over `sinks_` start at index 1, to leave out the control sink.  That is right
as long as the control sink is first, which it is until it is removed (`Front`).  It is the
first member of the logger to be closed, and then the last handle takes its place.

`regcomp`, `regexec`, `regerror` and `fnmatch` are parameters.  The levels of the sinks are
kept apart from the rest of the logger.
-/
namespace Xtr.Logger
open Dispatcher (Reply Handled errorFrame)

/-! ## Patterns -/

/-- The matching functions of the C library.  A regular expression may be invalid; the
error is the text of `regerror`. -/
structure Patterns where
  regex : (extended ignoreCase : Bool) → Str → Except Str (Str → Bool)
  fnmatch : (ignoreCase : Bool) → Str → Str → Bool

/-- `pattern_type_t`; a value that is none of the enumerators is treated as `none`. -/
inductive PatternType
  | none
  | extendedRegex
  | basicRegex
  | wildcard
  deriving DecidableEq

/-- `pattern`, as received. -/
structure Pattern where
  type : PatternType
  ignoreCase : Bool
  text : Str

/-- The text of a pattern; the last of its 256 bytes is overwritten by a zero. -/
def Pattern.cText (p : Pattern) : Str := cStr (p.text.take 255)

/-- `make_matcher`. -/
def makeMatcher (lib : Patterns) (p : Pattern) : Except Str (Str → Bool) :=
  match p.type with
  | .wildcard => .ok (lib.fnmatch p.ignoreCase p.cText)
  | .extendedRegex => lib.regex true p.ignoreCase p.cText
  | .basicRegex => lib.regex false p.ignoreCase p.cText
  | .none => .ok fun _ => true

/-! ## The handlers -/

variable {V : Type}

/-- `log_level_t::debug`, the last level. -/
def debug : Int := 5

/-- The frame about one sink. -/
def sinkInfo (s : State V) (levels : Nat → Int) (h : Handle) : Reply :=
  .sinkInfo (levels h.sink) (s.sinks h.sink).ring.capacity (s.sinks h.sink).ring.readSpan.size
    h.dropped (strzcpy 128 h.name)

/-- `status_handler`. -/
def statusHandler (lib : Patterns) (s : State V) (levels : Nat → Int) (p : Pattern) : List Reply :=
  match makeMatcher lib p with
  | .error reason => [errorFrame reason]
  | .ok matcher =>
    ((s.handles.drop 1).filter fun h => matcher (cStr h.name)).map (sinkInfo s levels)

/-- `set_level_handler`: the reply and the levels. -/
def setLevelHandler (lib : Patterns) (s : State V) (levels : Nat → Int) (level : Int)
    (p : Pattern) : List Reply × (Nat → Int) :=
  if level > debug then ([errorFrame (text "Invalid level")], levels)
  else match makeMatcher lib p with
    | .error reason => ([errorFrame reason], levels)
    | .ok matcher => ([.success], (s.handles.drop 1).foldl (fun levels h =>
        if matcher (cStr h.name) then Function.update levels h.sink level else levels) levels)

/-- `reopen_handler`, given what `reopen` returned. -/
def reopenHandler (strerror : Nat → Str) (errnum : Nat) : List Reply :=
  if errnum ≠ 0 then [errorFrame (strerror errnum)] else [.success]

/-- A request whose frame has the right size. -/
inductive Received
  | status (p : Pattern)
  | setLevel (level : Int) (p : Pattern)
  | reopen (errnum : Nat)

/-- The callback of a request: what the dispatcher sees of it, and the levels. -/
def callback (lib : Patterns) (strerror : Nat → Str) (s : State V) (levels : Nat → Int) :
    Received → Handled × (Nat → Int)
  | .status p => (⟨statusHandler lib s levels p, none⟩, levels)
  | .setLevel level p =>
    let (frames, levels) := setLevelHandler lib s levels level p
    (⟨frames, none⟩, levels)
  | .reopen errnum => (⟨reopenHandler strerror errnum, none⟩, levels)

/-! ## Where the control sink is -/

/-- The control sink is a private member of the logger: no other sink is copied to it, and
it is not registered again. -/
def Private (_ : State V) (e : Event V) : Prop := e.registers ≠ some 0

instance (s : State V) (e : Event V) : Decidable (Private s e) :=
  inferInstanceAs (Decidable (e.registers ≠ some 0))

/-- The control sink is nowhere but in the first handle, and no record would add it. -/
structure Front (s : State V) : Prop where
  tail : 0 ∉ (s.handles.map Handle.sink).tail
  queued : ∀ i, ∀ fr ∈ (s.sinks i).unread, ∀ name, fr.invocation ≠ .command (.addSink 0 name)

variable {cfg : Config V} {s s' : State V} {i : Nat}

theorem Front.setSink (h : Front s) {k : Sink V}
    (hk : ∀ fr ∈ k.unread, ∀ name, fr.invocation ≠ .command (.addSink 0 name)) :
    Front (s.setSink i k) := by
  refine ⟨h.tail, fun j => ?_⟩
  by_cases hj : j = i
  · rw [hj, setSink_self]
    exact hk
  · rw [setSink_of_ne s k hj]
    exact h.queued j

theorem Front.commit (h : Front s) {posted : Statement × List (Arg V) ⊕ Command} {ring : Ring V}
    {fr : Frame Statement V Command}
    (hfr : ∀ name, fr.invocation ≠ .command (.addSink 0 name)) :
    Front (s.commit i posted ring fr) := by
  have hset : Front (s.setSink i { s.sinks i with
      ring := ring, unread := (s.sinks i).unread ++ [fr] }) := by
    refine h.setSink fun fr' hmem => ?_
    rcases List.mem_append.mp hmem with hmem | hmem
    · exact h.queued i fr' hmem
    · obtain rfl := List.mem_singleton.mp hmem
      exact hfr
  exact ⟨hset.tail, hset.queued⟩

/-- The handles change, but not where the control sink is. -/
theorem Front.of_tail (h : Front s) (hsinks : s'.sinks = s.sinks)
    (htail : ∀ x ∈ (s'.handles.map Handle.sink).tail, x ∈ (s.handles.map Handle.sink).tail) :
    Front s' :=
  ⟨fun hmem => h.tail (htail 0 hmem), fun i => hsinks ▸ h.queued i⟩

theorem Front.congr (h : Front s) (hsinks : s'.sinks = s.sinks)
    (hhandles : s'.handles = s.handles) : Front s' :=
  h.of_tail hsinks fun _ hx => hhandles ▸ hx

theorem Front.execute (h : Front s) {hd : Handle} {e : Executed V}
    (hget : s.handles[i]? = some hd) (he : ∀ name, e ≠ .command (.addSink 0 name)) :
    Front (execute cfg s i hd e) := by
  cases e with
  | print st args => exact h.congr rfl rfl
  | command c =>
    cases c with
    | addSink t name =>
      refine ⟨fun hmem => ?_, h.queued⟩
      have hne : s.handles.map Handle.sink ≠ [] := by
        intro hnil
        rw [List.map_eq_nil_iff.mp hnil] at hget
        cases hget
      have hmem' : 0 ∈ ((s.handles ++ [(⟨t, name.getD hd.name, 0⟩ : Handle)]).map
          Handle.sink).tail :=
        hmem
      rw [List.map_append, List.tail_append_of_ne_nil hne] at hmem'
      rcases List.mem_append.mp hmem' with hmem' | hmem'
      · exact h.tail hmem'
      · obtain rfl := List.mem_singleton.mp hmem'
        exact he name rfl
    | setName name =>
      refine h.of_tail rfl fun x hx => ?_
      have hx' : x ∈ ((s.handles.set i { hd with name := name }).map Handle.sink).tail := hx
      rwa [map_sink_set { hd with name := name } hget rfl] at hx'
    | destroy =>
      have hset : Front (s.setSink hd.sink
          { s.sinks hd.sink with live := false, notified := true }) :=
        h.setSink (h.queued hd.sink)
      exact hset.congr rfl rfl
    | sync =>
      have hset : Front (s.setSink hd.sink { s.sinks hd.sink with notified := true }) :=
        h.setSink (h.queued hd.sink)
      exact hset.congr rfl rfl

/-- When a sink is removed, the sinks behind the first handle are those there were, or some
of them. -/
theorem tail_swapRemove {hs : List Handle} {hd : Handle} (hget : hs[i]? = some hd) :
    ∀ x ∈ ((swapRemove hs i).map Handle.sink).tail, x ∈ (hs.map Handle.sink).tail := by
  obtain ⟨before, after, rfl, rfl⟩ := SwapRemove.exists_split hget
  rw [swapRemove_eq, SwapRemove.swapRemove_append_cons]
  have hback : ∀ x ∈ (SwapRemove.backFirst after).map Handle.sink, x ∈ after.map Handle.sink :=
    fun x hx => ((SwapRemove.backFirst_perm after).map Handle.sink).mem_iff.mp hx
  intro x hx
  cases before with
  | nil =>
    -- the last sink takes the place of the first
    exact hback x (List.mem_of_mem_tail hx)
  | cons b before =>
    simp only [List.cons_append, List.map_cons, List.tail_cons, List.map_append,
      List.mem_append] at hx ⊢
    rcases hx with hx | hx
    · exact .inl hx
    · exact .inr (List.mem_cons_of_mem _ (hback x hx))

/-- **Every step keeps the control sink in front**, until it removes it. -/
theorem Fires.front {e : Event V} (hf : Fires cfg s e s') (hp : Private s e) (h : Front s) :
    Front s' := by
  cases hf with
  | dropped => exact h.setSink (h.queued _)
  | log | setName => exact h.commit fun name heq => by cases heq
  | @register t i n name ring _ hne _ _ _ he =>
    have hcommit : Front
        (s.commit i (.inr (.addSink t name)) ring ⟨.command (.addSink t name), n⟩) := by
      refine h.commit fun name heq => ?_
      cases heq
      exact hp he
    exact hcommit.setSink (h.queued t)
  | @close i n _ ring =>
    have hcommit : Front (s.commit i (.inr .destroy) ring ⟨.command .destroy, n⟩) :=
      h.commit fun name heq => by cases heq
    exact hcommit.setSink (hcommit.queued i)
  | @sync i n _ ring =>
    have hcommit : Front (s.commit i (.inr .sync) ring ⟨.command .sync, n⟩) :=
      h.commit fun name heq => by cases heq
    exact hcommit.setSink (hcommit.queued i)
  | closeReturn | syncReturn => exact h.setSink (h.queued _)
  | runOnce | visit => exact h.congr rfl rfl
  | endPass =>
    obtain ⟨buf, pc, heq, -⟩ := endPass_eq s
    rw [heq]
    exact h.congr rfl rfl
  | visitEmpty =>
    obtain ⟨n, buf, heq, -⟩ := visitEmpty_eq s
    rw [heq]
    exact h.congr rfl rfl
  | @execute i _ _ _ hd fr frs _ hpc hget hlive hun =>
    have hqueue : ∀ fr' ∈ fr :: frs, ∀ name, fr'.invocation ≠ .command (.addSink 0 name) :=
      hun ▸ h.queued hd.sink
    have htaken : Front (s.setSink hd.sink { s.sinks hd.sink with unread := frs }) :=
      h.setSink fun fr' hfr => hqueue fr' (List.mem_cons_of_mem _ hfr)
    exact (htaken.execute hget (hqueue fr List.mem_cons_self)).congr rfl rfl
  | remove _ hlt => exact h.of_tail rfl (tail_swapRemove (List.getElem?_eq_getElem hlt))
  | @release i pos span _ hd =>
    have hset : Front (s.setSink hd.sink { s.sinks hd.sink with
        ring := (s.sinks hd.sink).ring.reduceReadable (pos - (cfg.base hd.sink + span.begin)) }) :=
      h.setSink (h.queued hd.sink)
    exact hset.congr rfl rfl
  | @reportDropped i _ hd hpc hget =>
    have hset : Front (s.setSink hd.sink { s.sinks hd.sink with dropped := 0 }) :=
      h.setSink (h.queued hd.sink)
    refine hset.of_tail rfl fun x hx => ?_
    have hmap := map_sink_set
      { hd with dropped := hd.dropped + (s.sinks hd.sink).dropped } hget rfl
    exact hmap ▸ hx
  | report => exact h.congr rfl rfl

theorem Front.of_reachableBy [DecidableEq V] (h : (machine cfg).ReachableBy Private s) :
    Front s := by
  have hinv : Inv cfg s ∧ Front s := by
    refine h.invariant (I := fun s => Inv cfg s ∧ Front s) ?_ ?_
    · rintro _ ⟨mem, rfl⟩
      refine ⟨.of_initial mem, List.not_mem_nil, fun i fr hfr => ?_⟩
      cases hfr
    · rintro s e s' ⟨hi, hf⟩ hp hs
      exact ⟨hi.step hs, (fires_of_step hi.rings hi.indexed hi.live hi.destroyLast hs).front hp hf⟩
  exact hinv.2

/-! ## Commands apply to the matching sinks -/

/-- The registered sinks, other than the control sink, whose names match. -/
def State.matching (s : State V) (matcher : Str → Bool) : List Handle :=
  s.handles.filter fun h => h.sink ≠ 0 && matcher (cStr h.name)

/-- A valid request applies to exactly the matching sinks: `status` sends one frame for each
of them, and `set_level` sets their levels and no other, and sends one frame. -/
structure Exact (lib : Patterns) (strerror : Nat → Str) (s : State V) (p : Pattern)
    (matcher : Str → Bool) : Prop where
  status : ∀ levels, ((callback lib strerror s levels (.status p)).1.frames).Perm
    ((s.matching matcher).map (sinkInfo s levels))
  setLevel : ∀ levels level, level ≤ debug →
    (callback lib strerror s levels (.setLevel level p)).1.frames = [.success] ∧
      ∀ i, (callback lib strerror s levels (.setLevel level p)).2 i =
        if i ∈ (s.matching matcher).map Handle.sink then level else levels i

variable {lib : Patterns} {strerror : Nat → Str} {p : Pattern} {matcher : Str → Bool}

/-- The loop of `set_level_handler`. -/
theorem foldl_setLevel (hs : List Handle) (levels : Nat → Int) (level : Int) (i : Nat) :
    hs.foldl (fun levels h =>
        if matcher (cStr h.name) then Function.update levels h.sink level else levels) levels i =
      if i ∈ (hs.filter fun h => matcher (cStr h.name)).map Handle.sink then level
      else levels i := by
  induction hs generalizing levels with
  | nil => rfl
  | cons h hs ih =>
    rw [List.foldl_cons, ih, List.filter_cons]
    by_cases hm : matcher (cStr h.name) = true
    · rw [if_pos hm, if_pos hm, List.map_cons]
      by_cases hi : i = h.sink
      · subst hi
        rw [Function.update_self, ite_self, if_pos List.mem_cons_self]
      · simp only [Function.update_of_ne hi, List.mem_cons, hi, false_or]
    · rw [if_neg hm, if_neg hm]

/-- The handlers go through all the handles but the first. -/
theorem exact_of_drop (hm : makeMatcher lib p = .ok matcher)
    (hdrop : ((s.handles.drop 1).filter fun h => matcher (cStr h.name)) = s.matching matcher) :
    Exact lib strerror s p matcher where
  status levels := by
    simp only [callback, statusHandler, hm, hdrop]
    exact .refl _
  setLevel levels level hlevel := by
    simp only [callback, setLevelHandler, hm, if_neg (Int.not_lt.mpr hlevel), foldl_setLevel,
      hdrop]
    exact ⟨trivial, fun _ => trivial⟩

/-- What the handlers leave out: the first handle, if it matches. -/
theorem Front.matching_eq (h : Front s) {first : Handle} {rest : List Handle}
    (hhandles : s.handles = first :: rest) (matcher : Str → Bool) :
    s.matching matcher = (if first.sink ≠ 0 && matcher (cStr first.name) then [first] else []) ++
      (s.handles.drop 1).filter fun h => matcher (cStr h.name) := by
  have hrest : (rest.filter fun h => h.sink ≠ 0 && matcher (cStr h.name)) =
      rest.filter fun h => matcher (cStr h.name) := by
    refine List.filter_congr fun hd hmem => ?_
    have hne : hd.sink ≠ 0 := by
      intro heq
      apply h.tail
      rw [hhandles, List.map_cons, List.tail_cons, ← heq]
      exact List.mem_map_of_mem hmem
    simp [hne]
  rw [State.matching, hhandles, List.filter_cons, hrest, List.drop_one, List.tail_cons]
  split <;> rfl

/-- **When commands apply to exactly the matching sinks.**  They do as long as the control
sink is registered; when it is gone, they do unless the sink that took its place at the
front matches. -/
theorem commands_exact_iff [DecidableEq V] (h : (machine cfg).ReachableBy Private s)
    (hpc : s.pc = .top) (hm : makeMatcher lib p = .ok matcher) :
    (s.handles.map Handle.sink).Nodup ∧
      (Exact lib strerror s p matcher ↔ (∃ hd ∈ s.handles, hd.sink = 0) ∨
        ∀ hd ∈ s.handles.head?, matcher (cStr hd.name) = false) := by
  have hfront := Front.of_reachableBy h
  have hinv := Inv.of_reachable h.reachable
  refine ⟨?_, ?_⟩
  · have hdistinct := hinv.distinct
    rwa [held_eq_handles (.inr (by simp [hpc]))] at hdistinct
  cases hhandles : s.handles with
  | nil =>
    refine ⟨fun _ => .inr fun hd hmem => ?_, fun _ => exact_of_drop hm ?_⟩
    · cases hmem
    · rw [State.matching, hhandles]
      rfl
  | cons first rest =>
    have hmatching := hfront.matching_eq hhandles matcher
    by_cases hskip : (first.sink ≠ 0 && matcher (cStr first.name)) = true
    · -- one frame too few is sent
      rw [if_pos hskip] at hmatching
      obtain ⟨hne, hmatch⟩ := Bool.and_eq_true_iff.mp hskip
      constructor
      · intro hexact
        have hlen := (hexact.status fun _ => 0).length_eq
        simp [callback, statusHandler, hm, hmatching] at hlen
      · rintro (⟨hd, hmem, hzero⟩ | hno)
        · rcases List.mem_cons.mp hmem with rfl | hmem
          · simp [hzero] at hne
          · refine absurd ?_ hfront.tail
            rw [hhandles, List.map_cons, List.tail_cons, ← hzero]
            exact List.mem_map_of_mem hmem
        · rw [hno first rfl] at hmatch
          cases hmatch
    · rw [if_neg hskip, List.nil_append] at hmatching
      refine ⟨fun _ => ?_, fun _ => exact_of_drop hm hmatching.symm⟩
      by_cases hzero : first.sink = 0
      · exact .inl ⟨first, List.mem_cons_self, hzero⟩
      · refine .inr fun hd hmem => ?_
        obtain rfl := Option.some.inj hmem
        simpa [hzero] using hskip

/-! ## Runs -/

/-- Patterns that match the text they are. -/
def plainText : Patterns where
  regex _ _ pattern := .ok fun name => name = pattern
  fnmatch _ pattern name := name = pattern

/-- The pattern that matches every name. -/
def anyName : Pattern := ⟨.none, false, []⟩

/-- A sink is registered, and known to the consumer at the end of its first pass. -/
def registers : List (Event UInt8) :=
  [.registerSink 1 [65] [], .runOnce [], .consume [], .consume [], .consume [], .consume [],
    .consume [], .consume []]

/-- Then the control sink is closed and removed, as in the destructor of the logger. -/
def destroys : List (Event UInt8) :=
  registers ++ [.close 0 [], .runOnce [], .consume [], .consume [], .consume [], .consume [],
    .consume []]

/-- A state a run of private events leads to. -/
theorem reached {α : Type} (events : List (Event UInt8)) (f : State UInt8 → α) (a : α)
    (hrun : ((machine small).runBy Private (initial small fun _ _ => .byte 0) events).map f =
      some a) : ∃ s, (machine small).ReachableBy Private s ∧ f s = a :=
  Machine.exists_reachableBy hrun ⟨_, rfl⟩

/-- While the control sink is open, `status` reports the other sink. -/
theorem commands_exact_registered : ∃ s, (machine small).ReachableBy Private s ∧ s.pc = .top ∧
    s.handles = [⟨0, controlName, 0⟩, ⟨1, [65], 0⟩] ∧
    Exact plainText (fun _ => []) s anyName fun _ => true := by
  obtain ⟨s, hreach, heq⟩ := reached registers (fun s => (s.pc, s.handles))
    (.top, [⟨0, controlName, 0⟩, ⟨1, [65], 0⟩]) (by decide +kernel)
  obtain ⟨hpc, hhandles⟩ := Prod.mk.inj heq
  have hiff : Exact plainText (fun _ => []) s anyName (fun _ => true) ↔ _ :=
    (commands_exact_iff hreach hpc rfl).2
  refine ⟨s, hreach, hpc, hhandles, hiff.mpr (.inl ⟨⟨0, controlName, 0⟩, ?_, rfl⟩)⟩
  rw [hhandles]
  exact List.mem_cons_self

/-- The control sink is closed first.  The other sink, still open, is then at the front, and
`status` does not report it. -/
theorem status_skips_first_sink : ∃ s, (machine small).ReachableBy Private s ∧ s.pc = .top ∧
    s.handles = [⟨1, [65], 0⟩] ∧ (s.sinks 1).isOpen = true ∧
    ¬ Exact plainText (fun _ => []) s anyName fun _ => true := by
  obtain ⟨s, hreach, heq⟩ := reached destroys
    (fun s => (s.pc, s.handles, (s.sinks 1).isOpen)) (.top, [⟨1, [65], 0⟩], true)
    (by decide +kernel)
  obtain ⟨hpc, heq⟩ := Prod.mk.inj heq
  obtain ⟨hhandles, hopen⟩ := Prod.mk.inj heq
  refine ⟨s, hreach, hpc, hhandles, hopen, fun hexact => ?_⟩
  have hlen := (hexact.status fun _ => 0).length_eq
  simp [callback, statusHandler, makeMatcher, anyName, State.matching, hhandles] at hlen

end Xtr.Logger
