import Mathlib.Algebra.BigOperators.Group.Finset.Basic
import Mathlib.Algebra.BigOperators.Group.Finset.Piecewise
import Xtr.DropCount

/-!
# One pass of the consumer

The loop of `run_once` while no producer does anything, with its index as it is: a
`size_t` that is compared for inequality, that `--i` takes below zero when the first sink
is removed, and that `++i` brings back.  The list of handles may be any list, and the
records of the sinks (`unread`) may be any, as long as a close request is the last of its
queue.

A pass examines every handle once: those that were there and those that are added on the
way.  It removes those whose batch ended in a close request; the others it keeps, in the
order in which it came to them, and changes only by their own records and reports
(`run_once_visits`).  Run alone from a state that it can reach, the consumer of
`Xtr.Logger` does what is done here (`pass_alone`).

Not part of the program: `Visit`, which records what a round found and did.
-/
namespace Xtr.RunOnce
open Logger DropCount

variable (V : Type)

/-- What a round of the loop found and did: the handle as it was, the records of the batch,
and the lines printed. -/
structure Visit where
  handle : Handle
  executed : List (Executed V)
  printed : List (Line V)

variable {V} (cfg : Config V)

/-- The trampoline's work on the next record of the sink at `i`. -/
def executeNext (i : Nat) (fr : Frame Statement V Command)
    (frs : List (Frame Statement V Command)) (s : Logger.State V) : Option (Logger.State V) :=
  s.handles[i]?.map fun h => execute cfg (s.taken h frs) i h fr.invocation

/-- The inner loop, at the record at address `pos`. -/
def inner (i stop : Nat) : Nat → List (Frame Statement V Command) → Logger.State V →
    Option (Nat × List (Executed V) × Logger.State V)
  | _, [], _ => none
  | pos, fr :: frs, s => do
    let s ← executeNext cfg i fr frs s
    if pos + fr.size < stop then
      let (pos, executed, s) ← inner i stop (pos + fr.size) frs s
      return (pos, fr.invocation :: executed, s)
    else return (pos + fr.size, [fr.invocation], s)

/-- The dropped count is taken and printed. -/
def takeDropped (s : Logger.State V) (i : Nat) (h : Handle) : Logger.State V :=
  let k := s.sinks h.sink
  if 0 < k.dropped then
    let s := printLine cfg (s.setSink h.sink { k with dropped := 0 })
      (.dropped h.sink k.dropped h.name (s.ts.getD []))
    { s with handles := s.handles.set i { h with dropped := h.dropped + k.dropped } }
  else s

/-- The end of a round whose sink is not removed: the records are released, and the drops
reported if the span was executed to its end. -/
def release (s : Logger.State V) (i start size pos : Nat) : Option (Logger.State V) :=
  s.handles[i]?.map fun h =>
    let k := s.sinks h.sink
    let s := s.setSink h.sink { k with ring := k.ring.reduceReadable (pos - start) }
    let s := if pos = start + size then takeDropped cfg s i h else s
    { s with flushCount := s.handles.length }

/-- One round of the loop, up to and including `++i`.  There is none when `i` is past the
end of `sinks_`. -/
def round (now : List UInt8) (i : UInt64) (s : Logger.State V) :
    Option (UInt64 × Logger.State V × Visit V) := do
  let h ← s.handles[i.toNat]?
  let k := s.sinks h.sink
  let span : Span := ⟨k.ring.readSpan.begin, extent k.unread⟩
  if span.size = 0 then return (i + 1, visitEmpty s, ⟨h, [], []⟩)
  else
    let start := cfg.base h.sink + span.begin
    let (pos, executed, s') ← inner cfg i.toNat (batchEnd cfg h.sink span) start k.unread
      { s with destroy := false, ts := some (s.ts.getD now) }
    if s'.destroy then
      let s' := { s' with handles := swapRemove s'.handles i.toNat }
      return (i - 1 + 1, s', ⟨h, executed, s'.printed.drop s.printed.length⟩)
    else
      let s' ← release cfg s' i.toNat start span.size pos
      return (i + 1, s', ⟨h, executed, s'.printed.drop s.printed.length⟩)

/-- The loop, for at most `fuel` rounds. -/
def loop (now : List UInt8) : Nat → UInt64 → Logger.State V → List (Visit V) →
    Option (Logger.State V × List (Visit V))
  | 0, _, _, _ => none
  | fuel + 1, i, s, visits =>
    if i = UInt64.ofNat s.handles.length then some (s, visits)
    else do
      let (i, s, v) ← round cfg now i s
      loop now fuel i s (visits ++ [v])

/-- The loop from its start. -/
def pass (now : List UInt8) (fuel : Nat) (s : Logger.State V) :
    Option (Logger.State V × List (Visit V)) :=
  loop cfg now fuel 0 { s with ts := none } []

/-! ## What the records of a batch do to the handles -/

/-- The name of the handle after one of its records. -/
def renameBy (name : List UInt8) : Executed V → List UInt8
  | .command (.setName name) => name
  | .print .. | .command (.addSink ..) | .command .destroy | .command .sync => name

/-- The handle a record adds, if the name of its own handle is `name`. -/
def addBy (name : List UInt8) : Executed V → List Handle
  | .command (.addSink t given) => [⟨t, given.getD name, 0⟩]
  | .print .. | .command (.setName _) | .command .destroy | .command .sync => []

def isDestroy : Executed V → Bool
  | .command .destroy => true
  | .print .. | .command (.addSink ..) | .command (.setName _) | .command .sync => false

/-- The name after some records. -/
def renamed (name : List UInt8) (xs : List (Executed V)) : List UInt8 := xs.foldl renameBy name

/-- The handles some records add. -/
def added (name : List UInt8) : List (Executed V) → List Handle
  | [] => []
  | x :: xs => addBy name x ++ added (renameBy name x) xs

namespace Visit

def added (v : Visit V) : List Handle := RunOnce.added v.handle.name v.executed

/-- The batch ended in a close request. -/
def destroyed (v : Visit V) : Bool := v.executed.getLast?.any isDestroy

/-- The handle afterwards. -/
def after (v : Visit V) : Handle :=
  { v.handle with
    name := renamed v.handle.name v.executed
    dropped := v.handle.dropped + reported v.handle.sink v.printed }

end Visit

/-- How many sinks some records add. -/
def adds (frs : List (Frame Statement V Command)) : Nat :=
  frs.countP fun fr => match fr.invocation with
    | .command (.addSink ..) => true
    | _ => false

/-- How many sinks the records of the first `n` sinks add. -/
def totalAdds (n : Nat) (s : Logger.State V) : Nat := ∑ t ∈ Finset.range n, adds (s.sinks t).unread

section Records
variable {cfg} {s s' : Logger.State V} {h : Handle} {before after : List Handle}
  {fr : Frame Statement V Command} {frs : List (Frame Statement V Command)} {i : Nat}

theorem execute_handles (x : Executed V) (hs : s.handles = before ++ h :: after)
    (hi : i = before.length) : (execute cfg (s.taken h frs) i h x).handles =
      before ++ { h with name := renameBy h.name x } :: (after ++ addBy h.name x) := by
  subst hi
  have hsame : s.handles = before ++ h :: (after ++ []) := by rw [hs, List.append_nil]
  cases x with
  | print st args => exact hsame
  | command c =>
    cases c with
    | destroy | sync => exact hsame
    | addSink t name =>
      show s.handles ++ [_] = _
      rw [hs, List.append_assoc, List.cons_append]
      rfl
    | setName name =>
      show s.handles.set before.length { h with name := name } = _
      rw [hs, SwapRemove.set_append_cons, addBy, List.append_nil]
      rfl

theorem execute_sets_destroy (x : Executed V) :
    (execute cfg (s.taken h frs) i h x).destroy = (s.destroy || isDestroy x) := by
  cases x with
  | print st args => exact (Bool.or_false _).symm
  | command c =>
    cases c with
    | destroy => exact (Bool.or_true _).symm
    | addSink t name | setName name | sync => exact (Bool.or_false _).symm

/-- A record reports no drops. -/
theorem execute_printed (x : Executed V) :
    ∃ lines, (execute cfg (s.taken h frs) i h x).printed = s.printed ++ lines ∧
      ∀ j, reported j lines = 0 := by
  cases x with
  | print st args => exact ⟨_, rfl, fun _ => rfl⟩
  | command c => cases c <;> exact ⟨[], (List.append_nil _).symm, fun _ => rfl⟩

/-- What the records `executed`, the first of those of the sink of `h`, have done. -/
structure Ran (s s' : Logger.State V) (before : List Handle) (h : Handle) (after : List Handle)
    (executed : List (Executed V)) (left : List (Frame Statement V Command)) : Prop where
  handles : s'.handles =
    before ++ { h with name := renamed h.name executed } :: (after ++ added h.name executed)
  destroy : s'.destroy = (s.destroy || executed.any isDestroy)
  printed : ∃ lines, s'.printed = s.printed ++ lines ∧ ∀ j, reported j lines = 0
  unread : (s'.sinks h.sink).unread = left
  dropped : (s'.sinks h.sink).dropped = (s.sinks h.sink).dropped
  others : ∀ t, t ≠ h.sink → s'.sinks t = s.sinks t

theorem Ran.one (x : Executed V) (hs : s.handles = before ++ h :: after)
    (hi : i = before.length) :
    Ran s (execute cfg (s.taken h frs) i h x) before h after [x] frs := by
  obtain ⟨live, notified, hsinks, -⟩ := execute_sinks cfg s i h frs x
  refine ⟨?_, ?_, execute_printed x, ?_, ?_, fun t ht => ?_⟩
  · rw [execute_handles x hs hi]
    simp only [added, List.append_nil]
    rfl
  · rw [execute_sets_destroy]
    simp only [List.any_cons, List.any_nil, Bool.or_false]
  · rw [hsinks, setSink_self]
  · rw [hsinks, setSink_self]
  · rw [hsinks, setSink_of_ne _ _ ht]

/-- One record, and then others. -/
theorem Ran.cons {s₁ : Logger.State V} {x : Executed V} {xs : List (Executed V)}
    {left : List (Frame Statement V Command)} (h₁ : Ran s s₁ before h after [x] frs)
    (h₂ : Ran s₁ s' before { h with name := renameBy h.name x } (after ++ addBy h.name x) xs left) :
    Ran s s' before h after (x :: xs) left := by
  obtain ⟨lines₁, hp₁, hn₁⟩ := h₁.printed
  obtain ⟨lines₂, hp₂, hn₂⟩ := h₂.printed
  refine ⟨?_, ?_, ⟨lines₁ ++ lines₂, ?_, fun j => ?_⟩, h₂.unread, h₂.dropped.trans h₁.dropped,
    fun t ht => (h₂.others t ht).trans (h₁.others t ht)⟩
  · rw [h₂.handles, List.append_assoc]
    rfl
  · rw [h₂.destroy, h₁.destroy]
    simp only [List.any_cons, List.any_nil, Bool.or_false, Bool.or_assoc]
  · rw [hp₂, hp₁, List.append_assoc]
  · rw [reported_append, hn₁, hn₂]

/-- **The inner loop executes a batch**, which is not empty, and ends at the address behind
it. -/
theorem inner_spec {stop pos : Nat} (hs : s.handles = before ++ h :: after)
    (hi : i = before.length) (hne : frs ≠ []) (hstop : stop ≤ pos + extent frs) :
    ∃ batch left s', frs = batch ++ left ∧ batch ≠ [] ∧
      inner cfg i stop pos frs s =
        some (pos + extent batch, batch.map Frame.invocation, s') ∧
      Ran s s' before h after (batch.map Frame.invocation) left := by
  induction frs generalizing s h after pos with
  | nil => exact absurd rfl hne
  | cons fr frs ih =>
    have hnext : executeNext cfg i fr frs s =
        some (execute cfg (s.taken h frs) i h fr.invocation) := by
      simp [executeNext, hs, hi]
    have hran : Ran s (execute cfg (s.taken h frs) i h fr.invocation) before h after
        [fr.invocation] frs := .one fr.invocation hs hi
    rw [extent_cons, ← Nat.add_assoc] at hstop
    unfold inner
    rw [hnext, Option.bind_eq_bind, Option.bind_some]
    by_cases hmore : pos + fr.size < stop
    · have hfrs : frs ≠ [] := by
        rintro rfl
        rw [extent_nil] at hstop
        omega
      obtain ⟨batch, left, s', rfl, -, hinner, hran'⟩ :=
        ih (s := execute cfg (s.taken h frs) i h fr.invocation)
          (execute_handles fr.invocation hs hi) hfrs hstop
      refine ⟨fr :: batch, left, s', rfl, List.cons_ne_nil _ _, ?_, hran.cons hran'⟩
      rw [if_pos hmore, hinner, extent_cons, ← Nat.add_assoc]
      rfl
    · refine ⟨[fr], frs, _, rfl, List.cons_ne_nil _ _, ?_, hran⟩
      rw [if_neg hmore, extent_cons, extent_nil]
      rfl

end Records

/-! ## A round -/

section Rounds
variable {cfg} {s s' : Logger.State V} {now : List UInt8} {h : Handle}
  {kept todo : List Handle} {i i' : UInt64} {v : Visit V}

/-- **What a round does** at the handle `h`, which is behind `kept` and before `todo`. -/
structure Round (s : Logger.State V) (i : UInt64) (kept : List Handle) (h : Handle)
    (todo : List Handle) (i' : UInt64) (s' : Logger.State V) (v : Visit V) : Prop where
  handle : v.handle = h
  handles : v.destroyed = true ∧ i' = i ∧
      (∃ h', s'.handles = swapRemove (kept ++ h' :: (todo ++ v.added)) kept.length) ∨
    v.destroyed = false ∧ i' = i + 1 ∧ s'.handles = kept ++ v.after :: (todo ++ v.added)
  printed : s'.printed = s.printed ++ v.printed
  unread : ∃ batch, v.executed = batch.map Frame.invocation ∧
    (s.sinks h.sink).unread = batch ++ (s'.sinks h.sink).unread
  others : ∀ t, t ≠ h.sink → (s'.sinks t).unread = (s.sinks t).unread

/-- The drops of a sink are taken. -/
theorem takeDropped_spec (hs : s.handles = kept ++ h :: todo) :
    ∃ lines, (takeDropped cfg s kept.length h).printed = s.printed ++ lines ∧
      (takeDropped cfg s kept.length h).handles =
        kept ++ { h with dropped := h.dropped + reported h.sink lines } :: todo ∧
      ∀ t, ((takeDropped cfg s kept.length h).sinks t).unread = (s.sinks t).unread := by
  unfold takeDropped
  dsimp only
  split
  · refine ⟨[.dropped h.sink (s.sinks h.sink).dropped h.name (s.ts.getD [])], rfl, ?_, fun t => ?_⟩
    · show s.handles.set kept.length _ = _
      rw [hs, SwapRemove.set_append_cons]
      simp [reported, reports, report?]
    · exact update_keeps (·.unread = _) rfl id
  · exact ⟨[], (List.append_nil _).symm, hs, fun _ => rfl⟩

theorem release_spec {start size pos : Nat} (hs : s.handles = kept ++ h :: todo) :
    ∃ s' lines, release cfg s kept.length start size pos = some s' ∧
      s'.printed = s.printed ++ lines ∧
      s'.handles = kept ++ { h with dropped := h.dropped + reported h.sink lines } :: todo ∧
      ∀ t, (s'.sinks t).unread = (s.sinks t).unread := by
  have hget : s.handles[kept.length]? = some h := by simp [hs]
  unfold release
  rw [hget, Option.map_some]
  dsimp only
  split
  · obtain ⟨lines, hprinted, hhandles, hunread⟩ := @takeDropped_spec V cfg (s.setSink h.sink
      { s.sinks h.sink with ring := (s.sinks h.sink).ring.reduceReadable (pos - start) })
      h kept todo hs
    refine ⟨_, lines, rfl, hprinted, hhandles, fun t => (hunread t).trans ?_⟩
    exact update_keeps (·.unread = _) rfl id
  · exact ⟨_, [], rfl, (List.append_nil _).symm, hs, fun t => update_keeps (·.unread = _) rfl id⟩

/-- A close request is the last record of its queue. -/
def DestroyEnds (frs : List (Frame Statement V Command)) : Prop :=
  ∀ fr ∈ frs.dropLast, isDestroy fr.invocation = false

theorem destroyed_eq {batch : List (Frame Statement V Command)} (hends : DestroyEnds batch) :
    (batch.map Frame.invocation).any isDestroy =
      ((batch.map Frame.invocation).getLast?.any isDestroy) := by
  rcases List.eq_nil_or_concat batch with rfl | ⟨init, fr, rfl⟩
  · rfl
  · rw [List.concat_eq_append] at hends ⊢
    rw [DestroyEnds, List.dropLast_concat] at hends
    simp only [List.map_append, List.map_singleton, List.any_append, List.getLast?_concat]
    have hinit : (init.map Frame.invocation).any isDestroy = false := by
      rw [List.any_map, List.any_eq_false]
      intro fr hfr
      simp [hends fr hfr]
    simp [hinit]

theorem DestroyEnds.of_append {frs frs' : List (Frame Statement V Command)}
    (h : DestroyEnds (frs ++ frs')) : DestroyEnds frs ∧ DestroyEnds frs' := by
  constructor
  · intro fr hfr
    cases frs' with
    | nil => exact h fr (by rwa [List.append_nil])
    | cons fr' frs' =>
      refine h fr ?_
      rw [List.dropLast_append_cons]
      exact List.mem_append_left _ (List.mem_of_mem_dropLast hfr)
  · intro fr hfr
    have hne : frs' ≠ [] := by
      rintro rfl
      cases hfr
    refine h fr ?_
    rw [List.dropLast_append_of_ne_nil hne]
    exact List.mem_append_right _ hfr

/-- **One round of the loop.** -/
theorem round_spec (hs : s.handles = kept ++ h :: todo) (hi : i.toNat = kept.length)
    (hends : DestroyEnds (s.sinks h.sink).unread) :
    ∃ i' s' v, round cfg now i s = some (i', s', v) ∧ Round s i kept h todo i' s' v := by
  have hget : s.handles[i.toNat]? = some h := by simp [hs, hi]
  unfold round
  rw [hget, Option.bind_eq_bind, Option.bind_some]
  dsimp only
  by_cases hzero : extent (s.sinks h.sink).unread = 0
  · rw [if_pos hzero]
    obtain ⟨n, buf, heq, -⟩ := visitEmpty_eq s
    refine ⟨i + 1, visitEmpty s, ⟨h, [], []⟩, rfl, rfl, .inr ⟨rfl, rfl, ?_⟩, ?_, ⟨[], rfl, ?_⟩,
      fun t _ => ?_⟩
    · rw [heq]
      simpa [Visit.added, Visit.after, added, renamed, reported, reports] using hs
    · rw [heq, List.append_nil]
    · rw [heq]
      rfl
    · rw [heq]
  · rw [if_neg hzero]
    have hne : (s.sinks h.sink).unread ≠ [] := by
      intro hnil
      rw [hnil] at hzero
      exact hzero rfl
    obtain ⟨batch, left, s₁, hsplit, -, hinner, hran⟩ :=
      @inner_spec V cfg { s with destroy := false, ts := some (s.ts.getD now) } h kept todo _ _
        (batchEnd cfg h.sink ⟨(s.sinks h.sink).ring.readSpan.begin, extent (s.sinks h.sink).unread⟩)
        (cfg.base h.sink + (s.sinks h.sink).ring.readSpan.begin) hs hi hne (Nat.min_le_left _ _)
    rw [hinner, Option.bind_eq_bind, Option.bind_some]
    dsimp only
    obtain ⟨lines, hprinted, hquiet⟩ := hran.printed
    have hprinted : s₁.printed = s.printed ++ lines := hprinted
    have hdestroy : s₁.destroy = (batch.map Frame.invocation).getLast?.any isDestroy := by
      rw [hsplit] at hends
      rw [← destroyed_eq hends.of_append.1, hran.destroy]
      rfl
    cases hd : s₁.destroy with
    | true =>
      rw [if_pos rfl]
      refine ⟨_, _, _, rfl, rfl, .inl ⟨hdestroy.symm.trans hd, UInt64.sub_add_cancel i 1,
        { h with name := renamed h.name (batch.map Frame.invocation) }, ?_⟩, ?_, ⟨batch, rfl, ?_⟩,
        fun t ht => ?_⟩
      · show swapRemove s₁.handles i.toNat = _
        rw [hran.handles, hi]
        rfl
      · rw [hprinted, List.drop_left]
      · rw [hsplit, hran.unread]
      · rw [hran.others t ht]
    | false =>
      rw [if_neg (by simp), hi]
      obtain ⟨s', lines', hrelease, hprinted', hhandles, hunread⟩ :=
        @release_spec V cfg s₁ _ kept _ (cfg.base h.sink + (s.sinks h.sink).ring.readSpan.begin)
          (extent (s.sinks h.sink).unread) (cfg.base h.sink + (s.sinks h.sink).ring.readSpan.begin +
            extent batch) hran.handles
      rw [hrelease]
      have hlines : s'.printed = s.printed ++ (lines ++ lines') := by
        rw [hprinted', hprinted, List.append_assoc]
      refine ⟨_, _, _, rfl, rfl, .inr ⟨hdestroy.symm.trans hd, rfl, ?_⟩, ?_, ⟨batch, rfl, ?_⟩,
        fun t ht => ?_⟩
      · rw [hhandles]
        simp only [Visit.after, Visit.added, hlines, List.drop_left, reported_append, hquiet,
          Nat.zero_add]
      · rw [hlines, List.drop_left]
      · rw [hsplit, hunread, hran.unread]
      · rw [hunread, hran.others t ht]

end Rounds

/-! ## The pass -/

section Pass
variable {cfg} {s₀ s s' : Logger.State V} {now : List UInt8} {h : Handle} {n : Nat}
  {kept todo : List Handle} {i i' : UInt64} {v : Visit V} {visits : List (Visit V)}

theorem length_added (name : List UInt8) (frs : List (Frame Statement V Command)) :
    (added name (frs.map Frame.invocation)).length = adds frs := by
  induction frs generalizing name with
  | nil => rfl
  | cons fr frs ih =>
    rw [List.map_cons, added, List.length_append, ih, adds, adds, List.countP_cons, Nat.add_comm]
    congr 1
    cases fr.invocation with
    | print st args => rfl
    | command c => cases c <;> rfl

/-- What is added was in the queues. -/
theorem Round.totalAdds (hr : Round s i kept h todo i' s' v)
    (hfin : ∀ t, n ≤ t → (s.sinks t).unread = []) :
    totalAdds n s = totalAdds n s' + v.added.length := by
  obtain ⟨batch, hexecuted, hsplit⟩ := hr.unread
  have hadded : v.added.length = adds batch := by
    rw [Visit.added, hexecuted, length_added]
  have hone : ∀ t, adds (s.sinks t).unread =
      adds (s'.sinks t).unread + if t = h.sink then adds batch else 0 := by
    intro t
    by_cases ht : t = h.sink
    · rw [if_pos ht, ht, hsplit, adds, List.countP_append, Nat.add_comm]
      rfl
    · rw [if_neg ht, hr.others t ht, Nat.add_zero]
  rw [hadded, RunOnce.totalAdds, Finset.sum_congr rfl fun t _ => hone t, Finset.sum_add_distrib,
    Finset.sum_ite_eq']
  congr 1
  by_cases hn : h.sink < n
  · rw [if_pos (Finset.mem_range.mpr hn)]
  · have hnil := hfin h.sink (Nat.le_of_not_lt hn)
    rw [hsplit, List.append_eq_nil_iff] at hnil
    rw [if_neg (fun hmem => hn (Finset.mem_range.mp hmem)), hnil.1]
    rfl

/-- **Where a pass is** that started in `s₀`: it has made `visits` and has yet to come to
`todo`. -/
structure Swept (n : Nat) (s₀ s : Logger.State V) (i : UInt64) (todo : List Handle)
    (visits : List (Visit V)) : Prop where
  sweep : SwapRemove.Sweep s₀.handles (visits.map Visit.handle) (visits.flatMap Visit.added)
    ((visits.filter fun v => !v.destroyed).map Visit.after) todo s.handles i.toNat
  queues : ∀ t, (s₀.sinks t).unread.map Frame.invocation =
    (visits.filter fun v => v.handle.sink = t).flatMap Visit.executed ++
      (s.sinks t).unread.map Frame.invocation
  printed : s.printed = s₀.printed ++ visits.flatMap Visit.printed
  ends : ∀ t, DestroyEnds (s.sinks t).unread
  finite : ∀ t, n ≤ t → (s.sinks t).unread = []
  fits : s.handles.length + totalAdds n s < 2 ^ 64

/-- A round takes one handle from those the pass has to come to, and may add the handles of
records that were in the queues. -/
theorem Swept.round (hw : Swept n s₀ s i (h :: todo) visits)
    (hr : Round s i ((visits.filter fun v => !v.destroyed).map Visit.after) h todo i' s' v) :
    ∃ todo', Swept n s₀ s' i' todo' (visits ++ [v]) ∧
      todo'.length + totalAdds n s' + 1 = (h :: todo).length + totalAdds n s := by
  have htotal := hr.totalAdds hw.finite
  have hsweep := hw.sweep
  have hfits := hw.fits
  obtain ⟨batch, hexecuted, hsplit⟩ := hr.unread
  have hqueues : ∀ t, (s₀.sinks t).unread.map Frame.invocation =
      ((visits ++ [v]).filter fun v => v.handle.sink = t).flatMap Visit.executed ++
        (s'.sinks t).unread.map Frame.invocation := by
    intro t
    rw [hw.queues t, List.filter_append, List.flatMap_append, List.append_assoc]
    by_cases ht : t = h.sink
    · simp [ht, hr.handle, hsplit, hexecuted]
    · simp [hr.handle, Ne.symm ht, hr.others t ht]
  have hprinted : s'.printed = s₀.printed ++ (visits ++ [v]).flatMap Visit.printed := by
    rw [hr.printed, hw.printed, List.flatMap_append, List.append_assoc, List.flatMap_singleton]
  have hends : ∀ t, DestroyEnds (s'.sinks t).unread := by
    intro t
    by_cases ht : t = h.sink
    · subst ht
      exact (hsplit ▸ hw.ends h.sink).of_append.2
    · rw [hr.others t ht]
      exact hw.ends t
  have hfinite : ∀ t, n ≤ t → (s'.sinks t).unread = [] := by
    intro t hn
    by_cases ht : t = h.sink
    · have hnil := hw.finite t hn
      rw [ht, hsplit, List.append_eq_nil_iff] at hnil
      rw [ht]
      exact hnil.2
    · rw [hr.others t ht]
      exact hw.finite t hn
  have hlength : s.handles.length = ((visits.filter fun v => !v.destroyed).map Visit.after).length +
      (todo.length + 1) := by
    rw [hsweep.vector, List.length_append, List.length_cons]
  have hindex := hsweep.index
  rcases hr.handles with ⟨hd, rfl, h', hhandles⟩ | ⟨hd, rfl, hhandles⟩
  · have hsweep' := hsweep.remove h' v.added
    have hlength' := congrArg List.length hsweep'.vector
    rw [swapRemove_eq, ← hindex] at hhandles
    rw [← hhandles, List.length_append, SwapRemove.length_backFirst, List.length_append] at hlength'
    refine ⟨SwapRemove.backFirst (todo ++ v.added), ⟨?_, hqueues, hprinted, hends, hfinite, ?_⟩, ?_⟩
    · simpa [hr.handle, hd, hhandles] using hsweep'
    · omega
    · rw [SwapRemove.length_backFirst, List.length_append, List.length_cons]
      omega
  · have hsweep' := hsweep.keep v.after v.added
    have hlength' := congrArg List.length hhandles
    rw [List.length_append, List.length_cons, List.length_append] at hlength'
    have hnext : (i + 1).toNat = i.toNat + 1 := by
      rw [UInt64.toNat_add, UInt64.toNat_one, Nat.mod_eq_of_lt]
      omega
    refine ⟨todo ++ v.added, ⟨?_, hqueues, hprinted, hends, hfinite, ?_⟩, ?_⟩
    · simpa [hr.handle, hd, hhandles, hnext] using hsweep'
    · omega
    · rw [List.length_append, List.length_cons]
      omega

/-- The loop condition. -/
theorem Swept.condition (hw : Swept n s₀ s i todo visits) :
    i = UInt64.ofNat s.handles.length ↔ todo = [] := by
  have hlength := congrArg List.length hw.sweep.vector
  have hfits := hw.fits
  rw [List.length_append, ← hw.sweep.index] at hlength
  rw [← UInt64.toNat_inj, UInt64.toNat_ofNat', Nat.mod_eq_of_lt (by omega), hlength,
    ← List.length_eq_zero_iff]
  omega

/-- **The loop ends**, after at most as many rounds as there are handles to come to and
records that add one. -/
theorem loop_spec {fuel : Nat} (hw : Swept n s₀ s i todo visits)
    (hfuel : todo.length + totalAdds n s < fuel) :
    ∃ s' i' visits', loop cfg now fuel i s visits = some (s', visits') ∧
      Swept n s₀ s' i' [] visits' := by
  induction fuel generalizing s i todo visits with
  | zero => exact absurd hfuel (Nat.not_lt_zero _)
  | succ fuel ih =>
    unfold loop
    cases todo with
    | nil =>
      rw [if_pos (hw.condition.mpr rfl)]
      exact ⟨s, i, visits, rfl, hw⟩
    | cons h todo =>
      have hmore : i ≠ UInt64.ofNat s.handles.length := by
        intro hend
        cases hw.condition.mp hend
      obtain ⟨i', s', v, hround, hr⟩ := @round_spec V cfg s now h _ todo i hw.sweep.vector
        hw.sweep.index (hw.ends h.sink)
      obtain ⟨todo', hw', hmeasure⟩ := hw.round hr
      rw [if_neg hmore, hround]
      exact ih hw' (by omega)

theorem Swept.start (hends : ∀ t, DestroyEnds (s.sinks t).unread)
    (hfinite : ∀ t, n ≤ t → (s.sinks t).unread = [])
    (hfits : s.handles.length + totalAdds n s < 2 ^ 64) :
    Swept n { s with ts := none } { s with ts := none } 0 s.handles [] :=
  ⟨.begin s.handles, fun _ => rfl, (List.append_nil _).symm, hends, hfinite, hfits⟩

/-- **One pass visits every sink once.**  Whatever the handles and the records of the sinks
are, if a close request is the last record of its queue, only the sinks below `n` have
records, and `size_t` can count the handles and those that will be added: the loop returns,
its index never past the end of the handles.  It has examined exactly the handles that were
there and those that were added; the handles it leaves are those whose batch did not end
in a close request, each changed by its own records and reports.  The batches are what was
taken from the queues, and the lines those of the visits. -/
theorem run_once_visits (hends : ∀ t, DestroyEnds (s.sinks t).unread)
    (hfinite : ∀ t, n ≤ t → (s.sinks t).unread = [])
    (hfits : s.handles.length + totalAdds n s < 2 ^ 64) :
    ∃ s' visits, pass cfg now (s.handles.length + totalAdds n s + 1) s = some (s', visits) ∧
      (visits.map Visit.handle).Perm (s.handles ++ visits.flatMap Visit.added) ∧
      s'.handles = (visits.filter fun v => !v.destroyed).map Visit.after ∧
      (∀ t, (s.sinks t).unread.map Frame.invocation =
        (visits.filter fun v => v.handle.sink = t).flatMap Visit.executed ++
          (s'.sinks t).unread.map Frame.invocation) ∧
      s'.printed = s.printed ++ visits.flatMap Visit.printed := by
  obtain ⟨s', i', visits, hloop, hw⟩ := @loop_spec V cfg _ _ now n _ _ _ _
    (.start hends hfinite hfits) (Nat.lt_succ_self (s.handles.length + totalAdds n s))
  obtain ⟨hhandles, honce⟩ := hw.sweep.finish
  exact ⟨s', visits, hloop, honce, hhandles, hw.queues, hw.printed⟩

/-- Records that add a sink and close their own, and records that log and rename. -/
def someRecords : Nat → List (Frame Statement UInt8 Command)
  | 1 => [⟨.command (.addSink 3 (some [67])), 32⟩, ⟨.command .destroy, 16⟩]
  | 2 => [⟨.print namedLine [.value 120], 16⟩, ⟨.command (.setName [68]), 32⟩]
  | _ => []

/-- Sinks `1` and `2`, the second with a dropped message. -/
def twoSinks : Logger.State UInt8 :=
  { Logger.initial small fun _ _ => .byte 0 with
    handles := [⟨1, [65], 0⟩, ⟨2, [66], 4⟩]
    sinks := fun t => { initialSink small t fun _ => .byte 0 with
      unread := someRecords t, dropped := if t = 2 then 1 else 0 } }

theorem someRecords_ends (t : Nat) : DestroyEnds (someRecords t) := by
  unfold someRecords
  split
  · intro fr hfr
    rw [List.mem_singleton.mp hfr]
    rfl
  · intro fr hfr
    rw [List.mem_singleton.mp hfr]
    rfl
  · exact fun _ hfr => by cases hfr

theorem someRecords_finite (t : Nat) (ht : 3 ≤ t) : someRecords t = [] := by
  unfold someRecords
  split
  · omega
  · omega
  · rfl

/-- The first sink is removed and the one that it added takes its place: the index goes below
zero and back. -/
theorem run_once_visits_wrap : ∃ s' visits, pass small [] 4 twoSinks = some (s', visits) ∧
    (visits.map Visit.handle).Perm (twoSinks.handles ++ visits.flatMap Visit.added) ∧
    s'.handles = (visits.filter fun v => !v.destroyed).map Visit.after ∧
    s'.handles = [⟨3, [67], 0⟩, ⟨2, [68], 5⟩] := by
  have hadds : totalAdds 3 twoSinks = 1 := by decide +kernel
  have hfits : twoSinks.handles.length + totalAdds 3 twoSinks < 2 ^ 64 := by
    rw [hadds]
    decide
  obtain ⟨s', visits, hpass, honce, hhandles, -⟩ := @run_once_visits UInt8 small twoSinks [] 3
    someRecords_ends someRecords_finite hfits
  rw [hadds] at hpass
  have hfinal : (pass small [] 4 twoSinks).map (fun r => r.1.handles) =
      some [⟨3, [67], 0⟩, ⟨2, [68], 5⟩] := by decide +kernel
  have hpass : pass small [] 4 twoSinks = some (s', visits) := hpass
  rw [hpass, Option.map_some, Option.some.injEq] at hfinal
  exact ⟨s', visits, hpass, honce, hhandles, hfinal⟩

end Pass

/-! ## The consumer alone -/

section Alone
variable [DecidableEq V]
open Relation (ReflTransGen)

/-- The consumer of `Xtr.Logger` gets from `s` to `s'` while no producer does anything. -/
def Alone (now : List UInt8) : Logger.State V → Logger.State V → Prop :=
  ReflTransGen fun s s' => Logger.step cfg s (.consume now) = some s'

variable {cfg} {s s' : Logger.State V} {now : List UInt8} {h : Handle}

theorem Alone.head {s₁ : Logger.State V} (hstep : Logger.step cfg s (.consume now) = some s₁)
    (hrest : Alone cfg now s₁ s') : Alone cfg now s s' :=
  ReflTransGen.head hstep hrest

omit [DecidableEq V] in
/-- Executing a record does not look at where the consumer is. -/
theorem execute_pc (s : Logger.State V) (i : Nat) (h : Handle) (x : Executed V) (pc pc' : Pc)
    (frs : List (Frame Statement V Command)) :
    { execute cfg (Logger.State.taken { s with pc := pc } h frs) i h x with pc := pc' } =
      { execute cfg (s.taken h frs) i h x with pc := pc' } := by
  cases x with
  | print st args => rfl
  | command c => cases c <;> rfl

theorem inner_alone {i pos pos' : Nat} {span : Span} {frs : List (Frame Statement V Command)}
    {executed : List (Executed V)} (hi : Inv cfg { s with pc := .batch i span pos })
    (hget : s.handles[i]? = some h) (hun : (s.sinks h.sink).unread = frs)
    (hinner : inner cfg i (batchEnd cfg h.sink span) pos frs s = some (pos', executed, s')) :
    Alone cfg now { s with pc := .batch i span pos } { s' with pc := .finish i span pos' } := by
  induction frs generalizing s h pos executed with
  | nil => cases hinner
  | cons fr frs ih =>
    obtain ⟨h₁, fr₁, frs₁, hget₁, -, hun₁, hbatch⟩ := batch_eq hi.rings hi.indexed hi.live rfl
    obtain rfl : h = h₁ := Option.some.inj (hget.symm.trans hget₁)
    obtain ⟨rfl, rfl⟩ : fr = fr₁ ∧ frs = frs₁ := List.cons.inj (hun.symm.trans hun₁)
    have hstep : Logger.step cfg { s with pc := .batch i span pos } (.consume now) =
        some { execute cfg (s.taken h frs) i h fr.invocation with
          pc := if pos + fr.size < batchEnd cfg h.sink span then .batch i span (pos + fr.size)
                else .finish i span (pos + fr.size) } := by
      rw [← execute_pc s i h fr.invocation (.batch i span pos)]
      exact congrArg some hbatch
    have hi' := hi.step hstep
    have hnext : executeNext cfg i fr frs s =
        some (execute cfg (s.taken h frs) i h fr.invocation) := by
      rw [executeNext, hget]
      rfl
    unfold inner at hinner
    rw [hnext, Option.bind_eq_bind, Option.bind_some] at hinner
    by_cases hmore : pos + fr.size < batchEnd cfg h.sink span
    · rw [if_pos hmore] at hinner hstep hi'
      obtain ⟨⟨pos₁, executed₁, s₁⟩, hrest, heq⟩ := Option.bind_eq_some_iff.mp hinner
      cases heq
      obtain ⟨h', hget', hsink⟩ := execute_get cfg frs hget fr.invocation
      obtain ⟨live, notified, hsinks, -⟩ := execute_sinks cfg s i h frs fr.invocation
      rw [← hsink] at hrest
      refine .head hstep (ih hi' hget' ?_ hrest)
      rw [hsinks, hsink, setSink_self]
    · rw [if_neg hmore] at hinner hstep
      cases hinner
      exact .single hstep

omit [DecidableEq V] in
theorem report_eq {i : Nat} {caughtUp : Bool} (hget : s.handles[i]? = some h)
    (hlive : (s.sinks h.sink).live = true) :
    report cfg { s with pc := .report i caughtUp } i caughtUp =
      { (if caughtUp = true then takeDropped cfg s i h else s) with
        flushCount := (if caughtUp = true then takeDropped cfg s i h else s).handles.length
        pc := .visit (i + 1) } := by
  cases caughtUp with
  | true =>
    by_cases hdropped : 0 < (s.sinks h.sink).dropped
    · simp [report, reportDropped, takeDropped, printLine, State.setSink, hget, hlive, hdropped]
    · simp [report, reportDropped, takeDropped, hget, hlive, hdropped]
  | false => simp [report, hget]

/-- The end of a visit, from the release of the records on. -/
theorem release_alone {i pos : Nat} {span : Span}
    (hi : Inv cfg { s with pc := .finish i span pos }) (hd : s.destroy = false)
    (hget : s.handles[i]? = some h)
    (hrelease : release cfg s i (cfg.base h.sink + span.begin) span.size pos = some s') :
    Alone cfg now { s with pc := .finish i span pos } { s' with pc := .visit (i + 1) } := by
  have hheld : Logger.State.held { s with pc := .finish i span pos } = s.handles :=
    held_eq_handles (.inl hd)
  have hlive : (s.sinks h.sink).live = true := by
    refine hi.live h ?_
    rw [hheld]
    exact List.mem_of_getElem? hget
  have hfinish := @finish_eq V cfg { s with pc := .finish i span pos } i span pos h hd hget hlive
  rw [release, hget, Option.map_some, Option.some.injEq] at hrelease
  subst hrelease
  refine .head (congrArg some hfinish) (.single ?_)
  refine congrArg some ((report_eq (s := s.setSink h.sink _) hget ?_).trans ?_)
  · rw [setSink_self]
    exact hlive
  · simp only [decide_eq_true_eq]

theorem Alone.inv (h : Alone cfg now s s') (hi : Inv cfg s) : Inv cfg s' := by
  induction h with
  | refl => exact hi
  | tail _ hstep ih => exact ih.step hstep

omit [DecidableEq V] in
theorem visitEmpty_pc (s : Logger.State V) (pc pc' : Pc) :
    { visitEmpty { s with pc := pc } with pc := pc' } = { visitEmpty s with pc := pc' } := by
  unfold visitEmpty
  dsimp only
  split
  · split <;> rfl
  · rfl

omit [DecidableEq V] in
/-- The batch leaves the handle that is visited where it is. -/
theorem inner_get {i stop pos pos' : Nat} {frs : List (Frame Statement V Command)}
    {executed : List (Executed V)} (hget : s.handles[i]? = some h)
    (hinner : inner cfg i stop pos frs s = some (pos', executed, s')) :
    ∃ h', s'.handles[i]? = some h' ∧ h'.sink = h.sink := by
  induction frs generalizing s h pos executed with
  | nil => cases hinner
  | cons fr frs ih =>
    obtain ⟨s₁, hnext, hinner⟩ := Option.bind_eq_some_iff.mp hinner
    rw [executeNext, hget, Option.map_some, Option.some.injEq] at hnext
    obtain ⟨h₁, hget₁, hsink₁⟩ := execute_get cfg frs hget fr.invocation
    rw [hnext] at hget₁
    split at hinner
    · obtain ⟨⟨pos₁, executed₁, s₂⟩, hrest, heq⟩ := Option.bind_eq_some_iff.mp hinner
      cases heq
      obtain ⟨h', hget', hsink'⟩ := ih hget₁ hrest
      exact ⟨h', hget', hsink'.trans hsink₁⟩
    · cases hinner
      exact ⟨h₁, hget₁, hsink₁⟩

/-- **A round is what the consumer does alone** between two tests of the loop condition. -/
theorem round_alone {i i' : UInt64} {v : Visit V} (hi : Inv cfg { s with pc := .visit i.toNat })
    (hlt : s.handles.length < 2 ^ 64) (hround : round cfg now i s = some (i', s', v)) :
    Alone cfg now { s with pc := .visit i.toNat } { s' with pc := .visit i'.toNat } := by
  obtain ⟨h, hget, hround⟩ := Option.bind_eq_some_iff.mp hround
  obtain ⟨hlive, hsize⟩ := hi.visiting rfl hget
  obtain ⟨hindex, -⟩ := List.getElem?_eq_some_iff.mp hget
  have hnext : (i + 1).toNat = i.toNat + 1 := by
    rw [UInt64.toNat_add, UInt64.toNat_one, Nat.mod_eq_of_lt]
    omega
  have hvisit := @visit_eq V cfg { s with pc := .visit i.toNat } i.toNat now h hget hlive
  have hspan : (⟨(s.sinks h.sink).ring.readSpan.begin, extent (s.sinks h.sink).unread⟩ : Span) =
      (s.sinks h.sink).ring.readSpan := by
    rw [← hsize]
  dsimp only at hround hvisit hsize
  rw [hsize] at hvisit
  by_cases hzero : extent (s.sinks h.sink).unread = 0
  · rw [if_pos hzero] at hround hvisit
    cases hround
    rw [visitEmpty_pc, ← hnext] at hvisit
    exact .single (congrArg some hvisit)
  · rw [if_neg hzero] at hround hvisit
    obtain ⟨⟨pos, executed, s₁⟩, hinner, hround⟩ := Option.bind_eq_some_iff.mp hround
    rw [hspan] at hinner
    have hstep : Logger.step cfg { s with pc := .visit i.toNat } (.consume now) = some _ :=
      congrArg some hvisit
    have hreach := Alone.head hstep (@inner_alone V cfg _
      { s with destroy := false, ts := some (s.ts.getD now) } s₁ now h _ _ _ _ _ _ (hi.step hstep)
      hget rfl hinner)
    have hi₁ := hreach.inv hi
    refine hreach.trans ?_
    split at hround
    · rename_i hd
      cases hround
      rw [UInt64.sub_add_cancel]
      exact .single (congrArg some (if_pos hd))
    · rename_i hd
      obtain ⟨s₂, hrelease, heq⟩ := Option.bind_eq_some_iff.mp hround
      cases heq
      obtain ⟨h', hget', hsink⟩ := @inner_get V cfg
        { s with destroy := false, ts := some (s.ts.getD now) } s₁ h _ _ _ _ _ _ hget hinner
      rw [← hsize] at hrelease
      rw [hnext]
      refine release_alone hi₁ (by simpa using hd) hget' ?_
      rw [hsink]
      exact hrelease

omit [DecidableEq V] in
theorem endPass_pc (s : Logger.State V) (pc : Pc) : endPass { s with pc := pc } = endPass s := by
  unfold endPass
  split <;> rfl

/-- **The loop is what the consumer does alone**, up to the end of the pass. -/
theorem loop_alone {s₀ : Logger.State V} {i : UInt64} {n fuel : Nat} {todo : List Handle}
    {visits visits' : List (Visit V)} (hw : Swept n s₀ s i todo visits)
    (hi : Inv cfg { s with pc := .visit i.toNat })
    (hloop : loop cfg now fuel i s visits = some (s', visits')) :
    Alone cfg now { s with pc := .visit i.toNat } (endPass s') := by
  induction fuel generalizing s i todo visits with
  | zero => cases hloop
  | succ fuel ih =>
    have hfits := hw.fits
    unfold loop at hloop
    cases todo with
    | nil =>
      have hend := hw.condition.mpr rfl
      rw [if_pos hend] at hloop
      cases hloop
      have hlast : visit cfg { s' with pc := .visit i.toNat } i.toNat now = endPass s' := by
        rw [hend, UInt64.toNat_ofNat', Nat.mod_eq_of_lt (by omega)]
        exact (if_pos rfl).trans (endPass_pc s' _)
      exact .single (congrArg some hlast)
    | cons h todo =>
      have hmore : i ≠ UInt64.ofNat s.handles.length := by
        intro hend
        cases hw.condition.mp hend
      rw [if_neg hmore] at hloop
      obtain ⟨⟨i₁, s₁, v⟩, hround, hrest⟩ := Option.bind_eq_some_iff.mp hloop
      have hreach := round_alone hi (by omega) hround
      obtain ⟨i₂, s₂, v₂, hround₂, hr⟩ := @round_spec V cfg s now h _ todo i hw.sweep.vector
        hw.sweep.index (hw.ends h.sink)
      cases hround.symm.trans hround₂
      obtain ⟨todo', hw', -⟩ := hw.round hr
      exact hreach.trans (ih hw' (hreach.inv hi) hrest)

omit [DecidableEq V] in
theorem destroyEnds_of_ok {k : Sink V} (hk : k.Ok) : DestroyEnds k.unread := by
  obtain ⟨pre, heq, hpre⟩ := hk.queue
  intro fr hfr
  have hmem : fr.invocation ∈ pre := by
    have hlast : fr.invocation ∈ (k.unread.map Frame.invocation).dropLast := by
      rw [← List.map_dropLast]
      exact List.mem_map_of_mem hfr
    rw [heq] at hlast
    unfold Sink.awaited at hlast
    split at hlast
    · rwa [List.map_singleton, List.dropLast_concat] at hlast
    · rwa [List.map_singleton, List.dropLast_concat] at hlast
    · rw [List.map_nil, List.append_nil] at hlast
      exact List.mem_of_mem_dropLast hlast
  cases hinv : fr.invocation with
  | print st args => rfl
  | command c =>
    cases c with
    | destroy => exact absurd (.inl hinv) (hpre _ hmem)
    | addSink t name | setName name | sync => rfl

/-- **One pass of the consumer of `Xtr.Logger`.**  Between two passes, in every state it can
reach, if no producer does anything during the next pass, the consumer makes it to its end,
and the pass is the one of `run_once_visits`. -/
theorem pass_alone {n : Nat} (hr : (Logger.machine cfg).Reachable s) (hpc : s.pc = .top)
    (hfinite : ∀ t, n ≤ t → (s.sinks t).unread = [])
    (hfits : s.handles.length + totalAdds n s < 2 ^ 64) :
    ∃ s₁ s' visits, Logger.step cfg s (.runOnce []) = some s₁ ∧
      pass cfg now (s.handles.length + totalAdds n s + 1) s = some (s', visits) ∧
      Alone cfg now s₁ (endPass s') := by
  have hi := Inv.of_reachable hr
  have hbegin : Logger.step cfg s (.runOnce []) =
      some { s with pc := .visit 0, ts := none } := by
    simp [Logger.step, begin, hpc]
  have hstart : Swept n { s with ts := none } { s with ts := none } 0 s.handles [] :=
    .start (fun t => destroyEnds_of_ok (hi.sinks t)) hfinite hfits
  obtain ⟨s', i', visits, hloop, -⟩ := @loop_spec V cfg _ _ now n _ _ _ _ hstart
    (Nat.lt_succ_self (s.handles.length + totalAdds n s))
  exact ⟨_, s', visits, hbegin, hloop, loop_alone hstart (hi.step hbegin) hloop⟩

end Alone

end Xtr.RunOnce
