import Xtr.Handlers
import Xtr.LoggerSync

/-!
# Counting dropped messages

`dropped_count_` is changed by both sides.  A log call that gives its record up adds one
with a `fetch_add` of its own, after it has decided and before it returns; the consumer
loads the count and, if it is not zero, takes it with an `exchange`.  Here these are
steps of their own: the logger is as in `Xtr.Logger`, except that a dropped record is
counted by a later event (`count`), that the call returns by another (`ret`), and that
the consumer may stop between the load and the exchange (`taking`).

Not part of the program: `lost` counts the log calls that returned without committing,
`since` remembers how many lines had been printed, and how many calls lost, when the sink
was last registered, and `called` has the names its handle has had since it was added.
-/
namespace Xtr.DropCount
open Logger

/-- Where a log call is that could not commit. -/
inductive Phase
  | idle
  | dropping
  | counted
  deriving DecidableEq

/-- The moment a sink was registered. -/
structure Mark where
  printed : Nat
  lost : Nat

variable (V : Type)

structure State where
  logger : Logger.State V
  phase : Nat → Phase
  /-- The consumer has loaded a count that is not zero. -/
  taking : Bool
  lost : Nat → Nat
  since : Nat → Mark
  called : Nat → List (List UInt8)

inductive Event
  | call (e : Logger.Event V)
  /-- The `fetch_add` of a log call on sink `i`, and its return. -/
  | count (i : Nat)
  | ret (i : Nat)

variable {V} (cfg : Config V)

/-- The sink whose thread makes the call, for the calls that post a record. -/
def poster : Logger.Event V → Option Nat
  | .log i _ _ _ _ | .setName i _ _ | .copy _ i _ | .close i _ | .sync i _ => some i
  | .registerSink .. => some 0
  | .closeReturn _ | .syncReturn _ | .runOnce _ | .consume _ => none

/-- The consumer is about to load a count that is not zero. -/
def loads (s : Logger.State V) : Logger.Event V → Bool
  | .consume _ =>
    match s.pc with
    | .report i true =>
      match s.handles[i]? with
      | some h => (s.sinks h.sink).live && decide (0 < (s.sinks h.sink).dropped)
      | none => false
    | _ => false
  | _ => false

section Step
variable [DecidableEq V]

/-- A log statement up to the decision; the second component says that the record was
given up. -/
def tryLog (s : Logger.State V) (i : Nat) (tags : Tags) (st : Statement) (args : List (Arg V))
    (loads : List Nat) : Option (Logger.State V × Bool) :=
  let k := s.sinks i
  if k.ready then
    match produce (logImpl cfg.order (cfg.base i) tags st args) k.ring loads with
    | none => none
    | some (.dropped, ring) => some (s.setSink i { k with ring := ring }, true)
    | some (.committed n, ring) => some (committed cfg s i (.inl (st, args)) ring n, false)
  else none

/-- The `fetch_add`. -/
def fetchAdd (s : Logger.State V) (i : Nat) : Logger.State V :=
  s.setSink i { s.sinks i with dropped := (s.sinks i).dropped + 1 }

/-- What the handle of a sink is called, after it was called `was` and is called `is`. -/
def rename (called : List (List UInt8)) (was is : Option (List UInt8)) : List (List UInt8) :=
  match was, is with
  | none, some name => [name]
  | some _, some name => name :: called
  | _, none => called

/-- The history after a call. -/
def observe (d : State V) (e : Logger.Event V) (s' : Logger.State V) : State V :=
  { d with
    logger := s'
    since := match e.registers with
      | some t => Function.update d.since t ⟨d.logger.printed.length, d.lost t⟩
      | none => d.since
    called := fun t => rename (d.called t) (names d.logger.held t) (names s'.held t) }

/-- An event of the logger. -/
def call (d : State V) (e : Logger.Event V) : Option (State V) :=
  if (poster e).any (fun i => d.phase i ≠ .idle) then none
  else match e with
    | .log i tags st args loads =>
      (tryLog cfg d.logger i tags st args loads).map fun (s, dropped) =>
        { observe d e s with
          phase := if dropped then Function.update d.phase i .dropping else d.phase }
    | .consume now =>
      if !d.taking && loads d.logger (.consume now) then some { d with taking := true }
      else (Logger.step cfg d.logger (.consume now)).map fun s =>
        { observe d (.consume now) s with taking := false }
    | e => (Logger.step cfg d.logger e).map (observe d e)

def step (d : State V) : Event V → Option (State V)
  | .call e => call cfg d e
  | .count i =>
    if d.phase i = .dropping then
      some { d with logger := fetchAdd d.logger i, phase := Function.update d.phase i .counted }
    else none
  | .ret i =>
    if d.phase i = .counted then
      some { d with
        phase := Function.update d.phase i .idle
        lost := Function.update d.lost i (d.lost i + 1) }
    else none

def initial (mem : Nat → Nat → Cell Statement V Command) : State V where
  logger := Logger.initial cfg mem
  phase _ := .idle
  taking := false
  lost _ := 0
  since _ := ⟨0, 0⟩
  called t := if t = 0 then [controlName] else []

def machine : Machine (State V) (Event V) where
  init d := ∃ mem, d = initial cfg mem
  step := step cfg

end Step

/-! ## The reports -/

/-- The dropped messages a line reports of sink `i`, and the name it gives. -/
def report? (i : Nat) : Line V → Option (Nat × List UInt8)
  | .dropped j n name _ => if j = i then some (n, name) else none
  | .log .. => none

/-- The reports about sink `i` among some lines. -/
def reports (i : Nat) (lines : List (Line V)) : List (Nat × List UInt8) :=
  lines.filterMap (report? i)

/-- The sum of all `N` in the reports about sink `i`. -/
def reported (i : Nat) (lines : List (Line V)) : Nat := ((reports i lines).map Prod.fst).sum

theorem reports_append (i : Nat) (xs ys : List (Line V)) :
    reports i (xs ++ ys) = reports i xs ++ reports i ys :=
  List.filterMap_append

theorem reported_append (i : Nat) (xs ys : List (Line V)) :
    reported i (xs ++ ys) = reported i xs + reported i ys := by
  simp [reported, reports_append]

/-! ## What each event does -/

variable {cfg} {d d' : State V} {s s' : Logger.State V} {i : Nat}

/-- An event that neither drops nor reports: it may print log lines, add a handle for a
sink that was waiting for it, and open a sink. -/
structure Steady (s : Logger.State V) (e : Logger.Event V) (s' : Logger.State V) : Prop where
  printed : ∃ lines, s'.printed = s.printed ++ lines ∧ ∀ i, reports i lines = []
  dropped : ∀ i, (s'.sinks i).dropped = (s.sinks i).dropped
  held : ∀ h ∈ s'.held, (∃ h₀ ∈ s.held, h₀.sink = h.sink ∧ h₀.dropped = h.dropped) ∨
    h.dropped = 0 ∧ names s.held h.sink = none ∧ (s.sinks h.sink).live = true
  absent : ∀ t, names s'.held t = none → (s'.sinks t).live = true →
    e.registers = some t ∨ names s.held t = none ∧ (s.sinks t).live = true

/-- The usual case: no line, and the handles are as they were. -/
theorem Steady.of_held {e : Logger.Event V} (hprinted : s'.printed = s.printed)
    (hheld : s'.held = s.held) (hdropped : ∀ i, (s'.sinks i).dropped = (s.sinks i).dropped)
    (hlive : ∀ t, (s'.sinks t).live = true → e.registers = some t ∨ (s.sinks t).live = true) :
    Steady s e s' where
  printed := ⟨[], by rw [hprinted, List.append_nil], fun _ => rfl⟩
  dropped := hdropped
  held h hh := .inl ⟨h, hheld ▸ hh, rfl, rfl⟩
  absent t hnone ht := (hlive t ht).imp_right fun h => ⟨hheld ▸ hnone, h⟩

/-- The consumer takes the count of a sink, and adds it to the handle of the sink. -/
def Reports (s : Logger.State V) (e : Logger.Event V) (s' : Logger.State V) : Prop :=
  e.registers = none ∧ ∃ i h ts, s.held[i]? = some h ∧
    s'.printed = s.printed ++ [.dropped h.sink (s.sinks h.sink).dropped h.name ts] ∧
    s'.sinks = Function.update s.sinks h.sink { s.sinks h.sink with dropped := 0 } ∧
    s'.held = s.held.set i { h with dropped := h.dropped + (s.sinks h.sink).dropped }

section Execute
variable {h : Handle} {fr : Frame Statement V Command} {frs : List (Frame Statement V Command)}
  {pc : Pc} {e : Logger.Event V}

/-- Executing a record changes no count. -/
theorem execute_dropped (cfg : Config V) (s : Logger.State V) (i : Nat) (h : Handle)
    (frs : List (Frame Statement V Command)) (x : Executed V) (j : Nat) :
    ((execute cfg (s.taken h frs) i h x).sinks j).dropped = (s.sinks j).dropped := by
  obtain ⟨live, notified, hsinks, -⟩ := execute_sinks cfg s i h frs x
  rw [hsinks]
  exact update_keeps (·.dropped = _) rfl id

/-- Executing a record opens no sink. -/
theorem execute_live {x : Executed V} {t : Nat} (hh : (s.sinks h.sink).live = true)
    (ht : ((execute cfg (s.taken h frs) i h x).sinks t).live = true) :
    (s.sinks t).live = true := by
  obtain ⟨live, notified, hsinks, -⟩ := execute_sinks cfg s i h frs x
  rw [hsinks] at ht
  exact of_update (·.live = true) ht fun _ => hh

/-- The handles while a record that is no close request is executed. -/
theorem held_execute (hat : AtRecord s i h fr frs) (hne : fr.invocation ≠ .command .destroy) :
    Logger.State.held { Logger.execute cfg (s.taken h frs) i h fr.invocation with pc := pc } =
      (Logger.execute cfg (s.taken h frs) i h fr.invocation).handles :=
  held_eq_handles (.inl ((execute_destroy cfg (s.taken h frs) i h hne).trans hat.destroy))

/-- A close request is executed: the handle is about to be removed. -/
theorem Steady.destroy (hi : Inv cfg s) (hat : AtRecord s i h fr frs)
    (hh : (s.sinks h.sink).live = true) (hinv : fr.invocation = .command .destroy)
    (hpc : ∃ span pos, pc = .finish i span pos) :
    Steady s e { Logger.execute cfg (s.taken h frs) i h fr.invocation with pc := pc } := by
  obtain ⟨span, pos, rfl⟩ := hpc
  have hdropped := execute_dropped cfg s i h frs fr.invocation
  have hdead : ((Logger.execute cfg (s.taken h frs) i h fr.invocation).sinks h.sink).live =
      false := by
    obtain ⟨live, notified, hsinks, hlive⟩ := execute_sinks cfg s i h frs fr.invocation
    rw [hsinks, setSink_self]
    exact hlive hinv
  have hlive := fun t => @execute_live V cfg s i h frs fr.invocation t hh
  rw [hinv] at hdropped hdead hlive ⊢
  have hheld : Logger.State.held { Logger.execute cfg (s.taken h frs) i h (.command .destroy) with
      pc := .finish i span pos } = s.held.eraseIdx i := by
    rw [hat.held]
    rfl
  have hget : s.held[i]? = some h := by
    rw [hat.held]
    exact hat.get
  refine ⟨⟨[], (List.append_nil _).symm, fun _ => rfl⟩, hdropped, fun h' hh' => .inl ?_,
    fun t hnone ht => .inr ⟨?_, hlive t ht⟩⟩
  · rw [hheld] at hh'
    exact ⟨h', List.mem_of_mem_eraseIdx hh', rfl, rfl⟩
  · have hne : t ≠ h.sink := by
      rintro rfl
      rw [hdead] at ht
      cases ht
    rwa [hheld, names_eraseIdx hget hi.distinct, Function.update_of_ne hne] at hnone

/-- A record is executed: the handles are as they were, but for one that is added, renamed
or about to be removed. -/
theorem Steady.execute (hi : Inv cfg s) (hat : AtRecord s i h fr frs)
    (hh : (s.sinks h.sink).live = true)
    (hpc : fr.invocation ≠ .command .destroy ∨ ∃ span pos, pc = .finish i span pos) :
    Steady s e { Logger.execute cfg (s.taken h frs) i h fr.invocation with pc := pc } := by
  by_cases hdestroy : fr.invocation = .command .destroy
  · exact .destroy hi hat hh hdestroy (hpc.resolve_left fun hne => hne hdestroy)
  have hheld := hat.held
  have hheld' := @held_execute V cfg s i h fr frs pc hat hdestroy
  have hdropped := execute_dropped cfg s i h frs fr.invocation
  have hlive := fun t => @execute_live V cfg s i h frs fr.invocation t hh
  cases hinv : fr.invocation with
  | print st args =>
    rw [hinv] at hdropped hlive hheld'
    have hsame := hheld'.trans hheld.symm
    exact ⟨⟨_, rfl, fun _ => rfl⟩, hdropped, fun h' hh' => .inl ⟨h', hsame ▸ hh', rfl, rfl⟩,
      fun t hnone ht => .inr ⟨hsame ▸ hnone, hlive t ht⟩⟩
  | command c =>
    cases c with
    | destroy => exact absurd hinv hdestroy
    | sync =>
      rw [hinv] at hdropped hlive hheld'
      exact .of_held rfl (hheld'.trans hheld.symm) hdropped fun t ht => .inr (hlive t ht)
    | setName name =>
      rw [hinv] at hdropped hlive hheld'
      replace hheld' := hheld'.trans (rfl : _ = s.handles.set i { h with name := name })
      refine ⟨⟨[], (List.append_nil _).symm, fun _ => rfl⟩, hdropped, fun h' hh' => .inl ?_,
        fun t hnone ht => .inr ⟨?_, hlive t ht⟩⟩
      · rw [hheld'] at hh'
        rcases List.mem_or_eq_of_mem_set hh' with hmem | rfl
        · exact ⟨h', hheld ▸ hmem, rfl, rfl⟩
        · exact ⟨h, hheld ▸ List.mem_of_getElem? hat.get, rfl, rfl⟩
      · rw [hheld', names_eq_none_iff, map_sink_set { h with name := name } hat.get rfl] at hnone
        rw [hheld]
        exact names_eq_none_iff.mpr hnone
    | addSink t name =>
      rw [hinv] at hdropped hlive hheld'
      replace hheld' := hheld'.trans (rfl : _ = s.handles ++ [⟨t, name.getD h.name, 0⟩])
      have htarget : t ∈ targets (s.registry.queue h.sink) := by
        rw [hat.queue, hinv]
        exact List.mem_cons_self
      obtain ⟨htlive, htnone⟩ := hi.present.target _ _ htarget
      refine ⟨⟨[], (List.append_nil _).symm, fun _ => rfl⟩, hdropped, fun h' hh' => ?_,
        fun u hnone hu => .inr ⟨?_, hlive u hu⟩⟩
      · rw [hheld'] at hh'
        rcases List.mem_append.mp hh' with hmem | hmem
        · exact .inl ⟨h', hheld ▸ hmem, rfl, rfl⟩
        · obtain rfl := List.mem_singleton.mp hmem
          exact .inr ⟨rfl, htnone, htlive⟩
      · rw [hheld', names_eq_none_iff, List.map_append, List.mem_append, not_or] at hnone
        rw [hheld]
        exact names_eq_none_iff.mpr hnone.1

end Execute

/-- The consumer has taken the count of the sink of handle `i`. -/
theorem Reports.of_printed {i : Nat} {h : Handle} {now : List UInt8} (hpc : s.pc = .report i true)
    (hget : s.handles[i]? = some h) : Reports s (.consume now) { printLine cfg
      (s.setSink h.sink { s.sinks h.sink with dropped := 0 })
      (.dropped h.sink (s.sinks h.sink).dropped h.name (s.ts.getD [])) with
    handles := s.handles.set i { h with dropped := h.dropped + (s.sinks h.sink).dropped }
    flushCount := s.handles.length, pc := .visit (i + 1) } := by
  have hheld : s.held = s.handles := held_eq_handles (.inr fun _ _ _ h => by simp [hpc] at h)
  refine ⟨rfl, i, h, s.ts.getD [], ?_, rfl, rfl, ?_⟩
  · rw [hheld]
    exact hget
  · rw [hheld]
    rfl

/-- **Which events count**: a log call that drops, the report of a visit, and no other. -/
theorem effect_of_fires {e : Logger.Event V} (hf : Fires cfg s e s') (hi : Inv cfg s) :
    Steady s e s' ∨ Reports s e s' ∨ ∃ i tags st args loads, e = .log i tags st args loads ∧
      (s.sinks i).dropped < (s'.sinks i).dropped := by
  have hidx := hi.indexed
  cases hf with
  | @dropped i =>
    refine .inr (.inr ⟨i, _, _, _, _, rfl, ?_⟩)
    rw [setSink_self]
    exact Nat.lt_succ_self _
  | log | setName | syncReturn | closeReturn =>
    exact .inl (.of_held rfl rfl (fun _ => update_keeps (·.dropped = _) rfl id)
      fun t ht => .inr (of_update (·.live = true) ht id))
  | close | sync =>
    exact .inl (.of_held rfl rfl
      (fun _ => update_keeps (·.dropped = _) (update_keeps (·.dropped = _) rfl id) id)
      fun t ht => .inr (of_update (·.live = true) (of_update (·.live = true) ht id) id))
  | @register t j _ _ _ _ hne _ _ _ he =>
    refine .inl (.of_held rfl rfl (fun i => ?_) fun u hu => ?_)
    · exact update_keeps (·.dropped = _) (update_keeps (·.dropped = _) rfl id) fun h =>
        of_update (·.dropped = _) h id
    · by_cases hut : u = t
      · exact .inl (hut ▸ he)
      · rw [setSink_of_ne _ _ hut] at hu
        exact .inr (of_update (·.live = true) hu id)
  | release hpc hd hget =>
    have hheld : s.held = s.handles := held_eq_handles (.inl hd)
    exact .inl (.of_held rfl hheld.symm (fun _ => update_keeps (·.dropped = _) rfl id)
      fun t ht => .inr (of_update (·.live = true) ht id))
  | runOnce hpc | visit hpc | report hpc =>
    have hheld : s.held = s.handles := held_eq_handles (.inr fun _ _ _ h => by simp [hpc] at h)
    exact .inl (.of_held rfl hheld.symm (fun _ => rfl) fun t ht => .inr ht)
  | endPass hpc =>
    have hheld : s.held = s.handles := held_eq_handles (.inr fun _ _ _ h => by simp [hpc] at h)
    obtain ⟨buf, pc, heq, -, hnext⟩ := endPass_eq s
    have hheld' : Logger.State.held { s with buf := buf, pc := pc } = s.held := by
      rw [hheld]
      refine held_eq_handles (.inr fun _ _ _ h => ?_)
      rcases hnext with rfl | ⟨rfl, -⟩ <;> cases h
    rw [heq]
    exact .inl (.of_held rfl hheld' (fun _ => rfl) fun t ht => .inr ht)
  | visitEmpty hpc =>
    have hheld : s.held = s.handles := held_eq_handles (.inr fun _ _ _ h => by simp [hpc] at h)
    obtain ⟨n, buf, heq, -⟩ := visitEmpty_eq s
    rw [heq]
    exact .inl (.of_held rfl hheld.symm (fun _ => rfl) fun t ht => .inr ht)
  | @remove i _ _ _ hpc hlt hd =>
    have hheld : s.held = s.handles.eraseIdx i := by simp [State.held, hpc, hd]
    have hperm : (swapRemove s.handles i).Perm s.held := hheld ▸ swapRemove_perm hlt
    refine .inl ⟨⟨[], (List.append_nil _).symm, fun _ => rfl⟩, fun _ => rfl,
      fun h hh => .inl ⟨h, hperm.mem_iff.mp hh, rfl, rfl⟩, fun t hnone ht => .inr ⟨?_, ht⟩⟩
    rw [names_perm hperm.symm hi.distinct]
    exact hnone
  | @execute i pos span _ h fr frs pc hpc hget hlive hun hnext =>
    rw [Indexed, hpc] at hidx
    refine .inl (.execute hi ⟨hidx.1, hget, hun⟩ hlive ?_)
    rcases hnext with ⟨-, -, hne⟩ | rfl
    · exact .inl hne
    · exact .inr ⟨_, _, rfl⟩
  | reportDropped hpc hget => exact .inr (.inl (.of_printed hpc hget))

variable (cfg) in
/-- **What each event does**, with the logger's own events as `Fires` has them. -/
inductive Does (d : State V) : Event V → State V → Prop
  | drop {i : Nat} {tags : Tags} {st : Statement} {args : List (Arg V)} {loads : List Nat}
      {ring : Logger.Ring V} : d.phase i = .idle →
      Fires cfg d.logger (.log i tags st args loads) (d.logger.setSink i { d.logger.sinks i with
        ring := ring, dropped := (d.logger.sinks i).dropped + 1 }) →
      (d.logger.sinks i).ready = true →
      Does d (.call (.log i tags st args loads)) { observe d (.log i tags st args loads)
          (d.logger.setSink i { d.logger.sinks i with ring := ring }) with
        phase := Function.update d.phase i .dropping }
  | fires {e : Logger.Event V} {s' : Logger.State V} {taking : Bool} :
      (∀ i, poster e = some i → d.phase i = .idle) → Fires cfg d.logger e s' →
      Steady d.logger e s' ∨ Reports d.logger e s' →
      Does d (.call e) { observe d e s' with taking := taking }
  | load {now : List UInt8} : Does d (.call (.consume now)) { d with taking := true }
  | count {i : Nat} : d.phase i = .dropping →
      Does d (.count i)
        { d with logger := fetchAdd d.logger i, phase := Function.update d.phase i .counted }
  | ret {i : Nat} : d.phase i = .counted →
      Does d (.ret i) { d with
        phase := Function.update d.phase i .idle
        lost := Function.update d.lost i (d.lost i + 1) }

section Does
variable [DecidableEq V]

theorem does_log {tags : Tags} {st : Statement} {args : List (Arg V)} {loads : List Nat}
    {dropped : Bool} (hi : Inv cfg d.logger) (hidle : d.phase i = .idle)
    (hs : tryLog cfg d.logger i tags st args loads = some (s', dropped)) :
    Does cfg d (.call (.log i tags st args loads))
      { observe d (.log i tags st args loads) s' with
        phase := if dropped then Function.update d.phase i .dropping else d.phase } := by
  obtain ⟨hready, hs⟩ := Option.ite_none_right_eq_some.mp hs
  split at hs
  · cases hs
  · rename_i ring hp
    cases hs
    obtain ⟨hsizing, hqueue⟩ := log_dropped hi.rings hp
    exact .drop hidle (.dropped hready hsizing hqueue) hready
  · rename_i n ring hp
    cases hs
    obtain ⟨is, hrec, htakes, heq⟩ := log_committed hi.rings hp
    rw [heq]
    have hf : Fires cfg d.logger (.log i tags st args loads) _ := .log hready hrec htakes
    refine .fires (fun j hj => ?_) hf ?_
    · cases hj
      exact hidle
    · rcases effect_of_fires hf hi with h | h | ⟨j, _, _, _, _, -, hlt⟩
      · exact .inl h
      · exact .inr h
      · have hsame : ((d.logger.commit i (.inl (st, args)) ring
            ⟨.print st (is.map Item.reconstructed), n⟩).sinks j).dropped =
            (d.logger.sinks j).dropped := update_keeps (·.dropped = _) rfl id
        omega

theorem does_step {e : Logger.Event V} {taking : Bool} (hi : Inv cfg d.logger)
    (hidle : ∀ i, poster e = some i → d.phase i = .idle)
    (hlog : ∀ i tags st args loads, e ≠ .log i tags st args loads)
    (hs : Logger.step cfg d.logger e = some s') :
    Does cfg d (.call e) { observe d e s' with taking := taking } := by
  have hf := fires_of_step hi.rings hi.indexed hi.live hi.destroyLast hs
  refine .fires hidle hf ?_
  rcases effect_of_fires hf hi with h | h | ⟨i, tags, st, args, loads, heq, -⟩
  · exact .inl h
  · exact .inr h
  · exact absurd heq (hlog i tags st args loads)

theorem does_of_step {e : Event V} (hi : Inv cfg d.logger) (hs : step cfg d e = some d') :
    Does cfg d e d' := by
  cases e with
  | count i =>
    obtain ⟨hphase, hs⟩ := Option.ite_none_right_eq_some.mp hs
    cases hs
    exact .count hphase
  | ret i =>
    obtain ⟨hphase, hs⟩ := Option.ite_none_right_eq_some.mp hs
    cases hs
    exact .ret hphase
  | call e =>
    obtain ⟨hposter, hs⟩ := Option.ite_none_left_eq_some.mp hs
    have hidle : ∀ i, poster e = some i → d.phase i = .idle := by
      intro i hi
      simpa [hi] using hposter
    cases e with
    | log i tags st args loads =>
      obtain ⟨⟨s', dropped⟩, hlog, rfl⟩ := Option.map_eq_some_iff.mp hs
      exact does_log hi (hidle i rfl) hlog
    | consume now =>
      by_cases hload : (!d.taking && loads d.logger (.consume now)) = true
      · simp only [hload, if_true, Option.some.injEq] at hs
        subst hs
        exact .load
      · simp only [hload, Bool.false_eq_true, if_false] at hs
        obtain ⟨s', hstep, rfl⟩ := Option.map_eq_some_iff.mp hs
        exact does_step hi hidle (fun _ _ _ _ _ h => by cases h) hstep
    | setName | registerSink | copy | close | closeReturn | sync | syncReturn | runOnce =>
      obtain ⟨s', hstep, rfl⟩ := Option.map_eq_some_iff.mp hs
      exact does_step hi hidle (fun _ _ _ _ _ h => by cases h) hstep

end Does

/-! ## The accounts -/

/-- A sink that can be used is not taken away by others. -/
theorem ready_of_fires {e : Logger.Event V} (hf : Fires cfg s e s')
    (hi : (s.sinks i).ready = true) (hne : poster e ≠ some i) : (s'.sinks i).ready = true := by
  cases hf with
  | dropped | log | setName | release | reportDropped => exact update_keeps (·.ready = true) hi id
  | closeReturn hcall | syncReturn hcall =>
    refine update_keeps (·.ready = true) hi fun h => ?_
    simp [Sink.ready, hcall] at h
  | register hti hclosed =>
    refine update_keeps (·.ready = true) (update_keeps (·.ready = true) hi id) fun h => ?_
    have h : (Function.update s.sinks _ _ _).ready = true := h
    rw [Function.update_of_ne hti] at h
    simp [Sink.ready, hclosed] at h
  | @close j | @sync j =>
    have hij : i ≠ j := fun h => hne (congrArg some h.symm)
    rw [setSink_of_ne _ _ hij]
    exact update_keeps (·.ready = true) hi id
  | runOnce | visit | remove | report => exact hi
  | endPass =>
    rw [endPass_sinks]
    exact hi
  | visitEmpty =>
    rw [visitEmpty_sinks]
    exact hi
  | @execute i' _ _ _ h fr frs =>
    obtain ⟨live, notified, hsinks, -⟩ := execute_sinks cfg s i' h frs fr.invocation
    show ((Logger.execute cfg (s.taken h frs) i' h fr.invocation).sinks i).ready = true
    rw [hsinks]
    exact update_keeps (·.ready = true) hi id

/-- A sink that is registered is closed. -/
theorem closed_of_registers {e : Logger.Event V} {t : Nat} (hf : Fires cfg s e s')
    (he : e.registers = some t) : (s.sinks t).isOpen = false := by
  cases hf with
  | register _ hclosed _ _ hu =>
    rw [hu, Option.some.injEq] at he
    exact he ▸ hclosed
  | _ => cases he

/-- The reports about sink `t` since it was last registered. -/
def State.shown (d : State V) (t : Nat) : List (Nat × List UInt8) :=
  reports t (d.logger.printed.drop (d.since t).printed)

/-- **The accounts are right.**  Every call that counted is in the count of its sink or in
a report; a handle has what was reported since its sink was registered, under the names it
had; and a call that has not returned keeps its sink open. -/
structure Accounts (d : State V) : Prop where
  total : ∀ i, d.lost i + (if d.phase i = .counted then 1 else 0) =
    (d.logger.sinks i).dropped + reported i d.logger.printed
  current : ∀ h ∈ d.logger.held, h.dropped = ((d.shown h.sink).map Prod.fst).sum
  fresh : ∀ t, names d.logger.held t = none → (d.logger.sinks t).live = true → d.shown t = []
  since_le : ∀ t, (d.since t).printed ≤ d.logger.printed.length
  named : ∀ h ∈ d.logger.held, h.name ∈ d.called h.sink
  under : ∀ t, ∀ r ∈ d.shown t, r.2 ∈ d.called t
  busy : ∀ i, d.phase i ≠ .idle → (d.logger.sinks i).ready = true

theorem shown_observe {e : Logger.Event V} {lines : List (Line V)} {t : Nat}
    (hle : (d.since t).printed ≤ d.logger.printed.length)
    (hprinted : s'.printed = d.logger.printed ++ lines) :
    (observe d e s').shown t =
      if e.registers = some t then reports t lines else d.shown t ++ reports t lines := by
  unfold State.shown observe
  dsimp only
  rw [hprinted]
  cases hreg : e.registers with
  | none => simp [List.drop_append_of_le_length hle, reports_append]
  | some u =>
    by_cases hut : u = t
    · simp [hut]
    · simp [hut, Function.update_of_ne (Ne.symm hut), List.drop_append_of_le_length hle,
        reports_append]

theorem since_observe_le {e : Logger.Event V} {t : Nat}
    (hle : (d.since t).printed ≤ d.logger.printed.length)
    (hgrow : d.logger.printed.length ≤ s'.printed.length) :
    ((observe d e s').since t).printed ≤ s'.printed.length := by
  unfold observe
  cases hreg : e.registers with
  | none => exact hle.trans hgrow
  | some u =>
    by_cases hut : t = u
    · simpa [hut] using hgrow
    · simpa [Function.update_of_ne hut] using hle.trans hgrow

/-- A handle is called by its name. -/
theorem named_observe {e : Logger.Event V} {h : Handle} (hi' : Inv cfg s') (hh : h ∈ s'.held) :
    h.name ∈ (observe d e s').called h.sink := by
  have hname : names s'.held h.sink = some h.name := names_eq_some hi'.distinct hh
  show h.name ∈ rename _ _ _
  rw [hname]
  cases names d.logger.held h.sink <;> exact List.mem_cons_self

/-- The names are kept, unless a handle has just been added. -/
theorem called_observe {e : Logger.Event V} {t : Nat} {name : List UInt8}
    (hname : name ∈ d.called t) :
    name ∈ (observe d e s').called t ∨ names d.logger.held t = none ∧ names s'.held t ≠ none := by
  show name ∈ rename _ _ _ ∨ _
  cases hwas : names d.logger.held t with
  | none =>
    cases his : names s'.held t with
    | none => exact .inl hname
    | some _ => exact .inr ⟨rfl, by simp⟩
  | some _ =>
    cases his : names s'.held t with
    | none => exact .inl hname
    | some _ => exact .inl (List.mem_cons_of_mem _ hname)

theorem mem_of_names {hs : List Handle} {t : Nat} (hne : names hs t ≠ none) :
    ∃ h ∈ hs, h.sink = t := by
  rw [Ne, names_eq_none_iff, not_not] at hne
  exact List.mem_map.mp hne

/-- An event that counts nothing. -/
theorem Accounts.steady {e : Logger.Event V} (h : Accounts d) (hi : Inv cfg d.logger)
    (hi' : Inv cfg s') (hst : Steady d.logger e s')
    (hreg : ∀ t, e.registers = some t → (d.logger.sinks t).isOpen = false)
    (hbusy : ∀ i, d.phase i ≠ .idle → (s'.sinks i).ready = true) : Accounts (observe d e s') := by
  obtain ⟨lines, hprinted, hnone⟩ := hst.printed
  have hshown : ∀ t, (observe d e s').shown t = if e.registers = some t then [] else d.shown t := by
    intro t
    rw [shown_observe (h.since_le t) hprinted, hnone t, List.append_nil]
  refine ⟨fun i => ?_, fun hd hh => ?_, fun t hnames hlive => ?_, fun t => ?_,
    fun hd hh => named_observe hi' hh, fun t r hr => ?_, hbusy⟩
  · show d.lost i + (if d.phase i = .counted then 1 else 0) =
      (s'.sinks i).dropped + reported i s'.printed
    rw [h.total i, hst.dropped i, hprinted, reported_append]
    simp [reported, hnone i]
  · rw [hshown]
    rcases hst.held hd hh with ⟨h₀, hh₀, hsink, hdropped⟩ | ⟨hzero, hnames, hlive⟩
    · have hne : e.registers ≠ some hd.sink := by
        intro he
        have hdead := (hi.sinks hd.sink).live_eq
        rw [hreg _ he, ← hsink, hi.live h₀ hh₀] at hdead
        cases hdead
      rw [if_neg hne, ← hdropped, ← hsink]
      exact h.current h₀ hh₀
    · rw [h.fresh _ hnames hlive, ite_self, hzero]
      rfl
  · rw [hshown]
    rcases hst.absent t hnames hlive with he | ⟨hold, hlive⟩
    · exact if_pos he
    · rw [h.fresh t hold hlive, ite_self]
  · refine since_observe_le (h.since_le t) ?_
    rw [hprinted, List.length_append]
    exact Nat.le_add_right _ _
  · rw [hshown] at hr
    by_cases hreg : e.registers = some t
    · rw [if_pos hreg] at hr
      cases hr
    · rw [if_neg hreg] at hr
      rcases called_observe (h.under t r hr) with hmem | ⟨hold, hnew⟩
      · exact hmem
      · -- the handle has just been added, and nothing had been reported
        obtain ⟨hd, hh, rfl⟩ := mem_of_names hnew
        rcases hst.held hd hh with ⟨h₀, hh₀, hsink, -⟩ | ⟨-, -, hlive⟩
        · exact absurd (List.mem_map.mpr ⟨h₀, hh₀, hsink⟩) (names_eq_none_iff.mp hold)
        · rw [h.fresh _ hold hlive] at hr
          cases hr

/-- The count of a sink is taken and reported. -/
theorem Accounts.report {e : Logger.Event V} (h : Accounts d) (hi : Inv cfg d.logger)
    (hi' : Inv cfg s') (hreport : Reports d.logger e s')
    (hbusy : ∀ i, d.phase i ≠ .idle → (s'.sinks i).ready = true) : Accounts (observe d e s') := by
  obtain ⟨he, n, hd, ts, hget, hprinted, hsinks, hheld⟩ := hreport
  have hmem : hd ∈ d.logger.held := List.mem_of_getElem? hget
  have hshown : ∀ t, (observe d e s').shown t = d.shown t ++
      if t = hd.sink then [((d.logger.sinks hd.sink).dropped, hd.name)] else [] := by
    intro t
    rw [shown_observe (h.since_le t) hprinted, he, if_neg (by simp)]
    congr 1
    by_cases ht : hd.sink = t
    · simp [reports, report?, ht]
    · simp [reports, report?, ht, Ne.symm ht]
  have hperm : s'.held.Perm ({ hd with dropped := hd.dropped + (d.logger.sinks hd.sink).dropped } ::
      d.logger.held.eraseIdx n) := by
    obtain ⟨hn, -⟩ := List.getElem?_eq_some_iff.mp hget
    rw [hheld]
    exact List.set_perm_cons_eraseIdx hn _
  have hnames : ∀ t, names s'.held t = none ↔ names d.logger.held t = none := by
    intro t
    rw [hheld, names_eq_none_iff, names_eq_none_iff, map_sink_set _ hget]
    rfl
  -- the names a handle has had are not forgotten
  have hcalled : ∀ t name, name ∈ d.called t → name ∈ (observe d e s').called t := by
    intro t name hname
    rcases called_observe hname with hmem | ⟨hold, hnew⟩
    · exact hmem
    · exact absurd ((hnames t).mpr hold) hnew
  refine ⟨fun i => ?_, fun k hk => ?_, fun t hnone hlive => ?_, fun t => ?_,
    fun k hk => named_observe hi' hk, fun t r hr => ?_, hbusy⟩
  · show d.lost i + (if d.phase i = .counted then 1 else 0) =
      (s'.sinks i).dropped + reported i s'.printed
    rw [h.total i, hprinted, hsinks, reported_append]
    by_cases hi : i = hd.sink
    · subst hi
      simp [reported, reports, report?]
      omega
    · simp [reported, reports, report?, Ne.symm hi, Function.update_of_ne hi]
  · rw [hshown]
    rcases List.mem_cons.mp (hperm.mem_iff.mp hk) with rfl | hk
    · simp [h.current hd hmem]
    · have hnd := ((perm_cons_eraseIdx hget).map Handle.sink).nodup_iff.mp hi.distinct
      have hne : k.sink ≠ hd.sink := fun heq =>
        (List.nodup_cons.mp hnd).1 (heq ▸ List.mem_map_of_mem hk)
      rw [if_neg hne, List.append_nil]
      exact h.current k (List.mem_of_mem_eraseIdx hk)
  · have hold := (hnames t).mp hnone
    have hne : t ≠ hd.sink := by
      rintro rfl
      rw [names_eq_some hi.distinct hmem] at hold
      cases hold
    have hlive : (s'.sinks t).live = true := hlive
    rw [hsinks, Function.update_of_ne hne] at hlive
    rw [hshown, if_neg hne, List.append_nil]
    exact h.fresh t hold hlive
  · refine since_observe_le (h.since_le t) ?_
    rw [hprinted, List.length_append]
    exact Nat.le_add_right _ _
  · rw [hshown] at hr
    rcases List.mem_append.mp hr with hr | hr
    · exact hcalled t _ (h.under t r hr)
    · by_cases ht : t = hd.sink
      · rw [if_pos ht, List.mem_singleton] at hr
        subst hr
        rw [ht]
        exact hcalled _ _ (h.named hd hmem)
      · rw [if_neg ht] at hr
        cases hr

theorem Does.inv {e : Event V} (hd : Does cfg d e d') (hi : Inv cfg d.logger) :
    Inv cfg d'.logger := by
  cases hd with
  | @drop i _ _ _ _ ring _ hf =>
    have hsame := (hi.fires hf).recount i (d.logger.sinks i).dropped
    rw [setSink_self, setSink_setSink] at hsame
    exact hsame
  | fires _ hf => exact hi.fires hf
  | load | ret => exact hi
  | @count i => exact hi.recount i _

theorem phase_of_update {phase : Nat → Phase} {p : Phase} {j : Nat}
    (hj : Function.update phase i p j ≠ .idle) : j = i ∧ p ≠ .idle ∨ phase j ≠ .idle := by
  by_cases hji : j = i
  · subst hji
    rw [Function.update_self] at hj
    exact .inl ⟨rfl, hj⟩
  · rw [Function.update_of_ne hji] at hj
    exact .inr hj

/-- A call of sink `i` is in another phase. -/
theorem Accounts.enter {phase : Phase} (h : Accounts d) (hready : (d.logger.sinks i).ready = true)
    (hcounted : phase ≠ .counted) (hwas : d.phase i ≠ .counted) :
    Accounts { d with phase := Function.update d.phase i phase } := by
  refine ⟨fun j => ?_, h.current, h.fresh, h.since_le, h.named, h.under, fun j hj => ?_⟩
  · by_cases hji : j = i
    · subst hji
      simpa [hcounted, hwas] using h.total j
    · simpa [Function.update_of_ne hji] using h.total j
  · rcases phase_of_update hj with ⟨rfl, -⟩ | hj
    · exact hready
    · exact h.busy j hj

/-- The call of sink `i` counts. -/
theorem Accounts.count (h : Accounts d) (hphase : d.phase i = .dropping) : Accounts { d with
    logger := fetchAdd d.logger i, phase := Function.update d.phase i .counted } := by
  have hready := h.busy i (by simp [hphase])
  refine ⟨fun j => ?_, h.current, fun t hnone hlive => ?_, h.since_le, h.named, h.under,
    fun j hj => ?_⟩
  · have htotal := h.total j
    by_cases hji : j = i
    · subst hji
      simp only [hphase, reduceCtorEq, if_false, Function.update_self, if_true, fetchAdd,
        setSink_self] at htotal ⊢
      show _ = _ + reported j d.logger.printed
      omega
    · simp only [fetchAdd, Function.update_of_ne hji, setSink_of_ne _ _ hji]
      exact htotal
  · exact h.fresh t hnone (of_update (·.live = true) hlive id)
  · rcases phase_of_update hj with ⟨rfl, -⟩ | hj
    · exact update_keeps (·.ready = true) hready id
    · exact update_keeps (·.ready = true) (h.busy j hj) id

/-- The call of sink `i` returns. -/
theorem Accounts.ret (h : Accounts d) (hphase : d.phase i = .counted) : Accounts { d with
    phase := Function.update d.phase i .idle
    lost := Function.update d.lost i (d.lost i + 1) } := by
  refine ⟨fun j => ?_, h.current, h.fresh, h.since_le, h.named, h.under, fun j hj => ?_⟩
  · have htotal := h.total j
    by_cases hji : j = i
    · subst hji
      simpa [hphase] using htotal
    · simpa [Function.update_of_ne hji] using htotal
  · rcases phase_of_update hj with ⟨-, hne⟩ | hj
    · exact absurd rfl hne
    · exact h.busy j hj

/-- **Every event keeps the accounts right.** -/
theorem Does.accounts {e : Event V} (hd : Does cfg d e d') (hi : Inv cfg d.logger)
    (h : Accounts d) : Accounts d' := by
  have hi' := hd.inv hi
  cases hd with
  | @drop i tags st args loads ring hidle hf hready =>
    have hst : Steady d.logger (.log i tags st args loads)
        (d.logger.setSink i { d.logger.sinks i with ring := ring }) :=
      .of_held rfl rfl (fun _ => update_keeps (·.dropped = _) rfl id)
        fun t ht => .inr (of_update (·.live = true) ht id)
    have hobserve := h.steady hi hi' hst (fun t ht => by cases ht)
      fun j hj => update_keeps (·.ready = true) (h.busy j hj) id
    refine hobserve.enter (update_keeps (·.ready = true) hready id) (by simp) ?_
    show d.phase i ≠ .counted
    rw [hidle]
    simp
  | @fires e s' taking hidle hf heffect =>
    have hbusy : ∀ i, d.phase i ≠ .idle → (s'.sinks i).ready = true :=
      fun i hne => ready_of_fires hf (h.busy i hne) fun hpost => hne (hidle i hpost)
    have hobserve : Accounts (observe d e s') := by
      rcases heffect with hst | hreport
      · exact h.steady hi hi' hst (fun t => closed_of_registers hf) hbusy
      · exact h.report hi hi' hreport hbusy
    exact ⟨hobserve.total, hobserve.current, hobserve.fresh, hobserve.since_le, hobserve.named,
      hobserve.under, hobserve.busy⟩
  | load => exact ⟨h.total, h.current, h.fresh, h.since_le, h.named, h.under, h.busy⟩
  | count hphase => exact h.count hphase
  | ret hphase => exact h.ret hphase

theorem Accounts.of_reachable [DecidableEq V] (h : (machine cfg).Reachable d) :
    Inv cfg d.logger ∧ Accounts d := by
  refine h.invariant (I := fun d => Inv cfg d.logger ∧ Accounts d) ?_ ?_
  · rintro d ⟨mem, rfl⟩
    refine ⟨.of_initial mem, fun _ => rfl, fun hd hh => ?_, fun _ _ _ => rfl,
      fun _ => Nat.le_refl 0, fun hd hh => ?_, fun _ _ hr => (by cases hr),
        fun _ hne => absurd rfl hne⟩
    · obtain rfl := List.mem_singleton.mp hh
      rfl
    · obtain rfl := List.mem_singleton.mp hh
      exact List.mem_singleton.mpr rfl
  · rintro d e d' ⟨hi, hacc⟩ hs
    have hdoes := does_of_step hi hs
    exact ⟨hdoes.inv hi, hdoes.accounts hi hacc⟩

/-- **Drop accounting.**  In every state that can be reached, while the consumer is between
passes and no log call on the sink is under way: the log calls that returned without
committing a record are those in the sink's count and in the reports about it, and the
status of the sink shows what was reported since it was last registered. -/
theorem drop_accounting [DecidableEq V] (h : (machine cfg).Reachable d)
    (hpc : d.logger.pc = .top) (hidle : d.phase i = .idle) :
    d.lost i = (d.logger.sinks i).dropped + reported i d.logger.printed ∧
    ∀ hd ∈ d.logger.handles, hd.sink = i → ∀ levels, sinkInfo d.logger levels hd =
      .sinkInfo (levels i) (d.logger.sinks i).ring.capacity (d.logger.sinks i).ring.readSpan.size
        (reported i (d.logger.printed.drop (d.since i).printed)) (strzcpy 128 hd.name) := by
  obtain ⟨-, hacc⟩ := Accounts.of_reachable h
  have hheld : d.logger.held = d.logger.handles :=
    held_eq_handles (.inr fun _ _ _ h => by simp [hpc] at h)
  refine ⟨?_, ?_⟩
  · have htotal := hacc.total i
    rwa [hidle, if_neg (by simp), Nat.add_zero] at htotal
  · rintro hd hh rfl levels
    rw [sinkInfo, hacc.current hd (hheld ▸ hh)]
    rfl

theorem one_le_large : 1 ≤ (List.replicate 5000 (7 : UInt8)).length := by
  rw [List.length_replicate]
  decide

/-- An object larger than the buffer of `small`. -/
def large : Arg UInt8 := .vcopy ⟨1, 1, hasSingleBit_1⟩ (List.replicate 5000 7) one_le_large

/-- The events of a log call that drops its record. -/
def dropLarge (i : Nat) : List (Event UInt8) :=
  [.call (.log i ⟨true, false⟩ namedLine [large] [0, 0]), .count i, .ret i]

/-- Sink `1` drops a message; when the consumer has loaded its count, but not yet taken it,
the sink drops another, and a third before the pass is over. -/
theorem drop_accounting_taken : ∃ d, (machine small).Reachable d ∧ d.logger.pc = .top ∧
    d.phase 1 = .idle ∧ (d.logger.sinks 1).dropped = 1 ∧ reported 1 d.logger.printed = 2 ∧
    d.lost 1 = 1 + 2 := by
  have hrun : ((machine small).run (initial small fun _ _ => .byte 0)
      ([Event.call (.registerSink 1 [65] [])] ++ dropLarge 1 ++
        [Event.call (.log 1 ⟨false, false⟩ namedLine [.value ⟨1, 1, hasSingleBit_1⟩ 120] []),
          .call (.runOnce [])] ++
        List.replicate 8 (Event.call (.consume [])) ++ dropLarge 1 ++
        [Event.call (.consume [])] ++ dropLarge 1 ++ [Event.call (.consume [])])).any (fun d =>
      decide (d.logger.pc = .top) && (decide (d.phase 1 = .idle) &&
        (decide ((d.logger.sinks 1).dropped = 1) &&
          decide (reported 1 d.logger.printed = 2)))) = true := by
    decide +kernel
  obtain ⟨d, hd, heq⟩ := (Option.any_eq_true ..).mp hrun
  simp only [Bool.and_eq_true, decide_eq_true_eq] at heq
  obtain ⟨hpc, hidle, hdropped, hreported⟩ := heq
  have hreach : (machine small).Reachable d := Machine.Reachable.run (.start ⟨_, rfl⟩) hd
  refine ⟨d, hreach, hpc, hidle, hdropped, hreported, ?_⟩
  rw [(drop_accounting hreach hpc hidle).1, hdropped, hreported]

end Xtr.DropCount
