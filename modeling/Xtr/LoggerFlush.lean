import Xtr.LoggerPresence

/-!
# When the output is flushed

`flush_count_` is set after every visit that released records, and counts down over the
visits that find nothing; when it comes to zero the buffer is flushed.  A visit that
ends with the removal of the sink does not set it.  So bytes can be left in the buffer
with nothing to flush them (`removal_strands_output`), but only by such a visit: in
every run whose removals all happen with the count still running, with nothing pending,
or of the last sink, pending bytes are flushed (`pending_flushed`).
-/
namespace Xtr.Logger
variable {V : Type} {cfg : Config V} {s s' : State V} {i : Nat}

/-- The event removes a sink. -/
def removes (s : State V) : Event V → Bool
  | .consume _ =>
    match s.pc with
    | .finish .. => s.destroy
    | _ => false
  | _ => false

/-- A removal strands nothing: the count is running, nothing is pending, or it is the
last sink, after which `run_once` flushes. -/
def Spared (s : State V) (e : Event V) : Prop :=
  removes s e = true → s.flushCount ≠ 0 ∨ s.buf.pending = [] ∨ s.handles.length = 1

instance (s : State V) (e : Event V) : Decidable (Spared s e) := inferInstanceAs (Decidable (_ → _))

/-- Between two visits, pending bytes have a count that is running, unless there is no
sink left. -/
def Counting (s : State V) : Prop :=
  match s.pc with
  | .top => s.buf.pending = [] ∨ 0 < s.flushCount
  | .visit _ => s.buf.pending = [] ∨ 0 < s.flushCount ∨ s.handles = []
  | .stopped => s.buf.pending = []
  | .batch .. | .finish .. | .report .. | .fault => True

/-- An empty visit counts down, and flushes at zero. -/
theorem visitEmpty_pending (h : s.buf.pending = [] ∨ 0 < s.flushCount) :
    (visitEmpty s).buf.pending = [] ∨
      (visitEmpty s).flushCount + 1 = s.flushCount ∧ 0 < (visitEmpty s).flushCount := by
  unfold visitEmpty
  split
  · dsimp only
    split
    · exact .inl (OutputBuffer.pending_flush _)
    · exact .inr ⟨by show s.flushCount - 1 + 1 = _; omega, by show 0 < s.flushCount - 1; omega⟩
  · rcases h with h | h
    · exact .inl h
    · omega

theorem visitEmpty_nil (h : s.buf.pending = []) : (visitEmpty s).buf.pending = [] := by
  unfold visitEmpty
  split
  · dsimp only
    split
    · exact OutputBuffer.pending_flush _
    · exact h
  · exact h

theorem endPass_pending (h : s.buf.pending = [] ∨ 0 < s.flushCount ∨ s.handles = []) :
    Counting (endPass s) := by
  unfold endPass
  split
  · exact OutputBuffer.pending_flush _
  · rename_i hne
    rcases h with h | h | h
    · exact .inl h
    · exact .inr h
    · exact absurd h hne

theorem Fires.counting {e : Event V} (hf : Fires cfg s e s') (hs : Spared s e) (h : Counting s) :
    Counting s' := by
  cases hf with
  | dropped | log | setName | register | close | closeReturn | sync | syncReturn => exact h
  | runOnce hpc _ hbuf =>
    rw [Counting, hpc] at h
    rcases hbuf with rfl | hnil
    · rcases h with h | h
      · exact .inl h
      · exact .inr (.inl h)
    · exact .inl hnil
  | endPass hpc =>
    rw [Counting, hpc] at h
    exact endPass_pending h
  | visitEmpty hpc hget =>
    rw [Counting, hpc] at h
    have hrun : s.buf.pending = [] ∨ 0 < s.flushCount := by
      rcases h with h | h | h
      · exact .inl h
      · exact .inr h
      · rw [h] at hget
        cases hget
    rcases visitEmpty_pending hrun with h | ⟨-, h⟩
    · exact .inl h
    · exact .inr (.inl h)
  | visit => trivial
  | execute _ _ _ _ hpc =>
    rcases hpc with ⟨rfl, -⟩ | rfl <;> trivial
  | @remove i pos span now hpc hi hdes =>
    -- the only step after output that does not set the count
    have hremoves : removes s (.consume now) = true := by simp [removes, hpc, hdes]
    rcases hs hremoves with hcount | hnil | hlast
    · exact .inr (.inl (Nat.pos_of_ne_zero hcount))
    · exact .inl hnil
    · refine .inr (.inr ?_)
      -- it was the last sink, so the pass ends with a flush
      show swapRemove s.handles i = []
      have hlen := (swapRemove_perm hi).length_eq
      rw [List.length_eraseIdx_of_lt hi, hlast] at hlen
      exact List.length_eq_zero_iff.mp hlen
  | release => trivial
  | reportDropped _ hget =>
    exact .inr (.inl (Nat.zero_lt_of_lt (List.getElem?_eq_some_iff.mp hget).1))
  | report _ hget =>
    exact .inr (.inl (Nat.zero_lt_of_lt (List.getElem?_eq_some_iff.mp hget).1))

/-! ## Quiet runs -/

/-- The event is a visit of a sink. -/
def Visiting (s : State V) : Event V → Prop
  | .consume _ => ∃ i, s.pc = .visit i ∧ i < s.handles.length
  | _ => False

/-- The consumer is not in the middle of a sink. -/
def Pc.Resting : Pc → Prop
  | .top | .visit _ | .stopped => True
  | .batch .. | .finish .. | .report .. | .fault => False

/-- **What can happen while all sinks are empty**: a visit counts down, and anything else
leaves the count alone and keeps or flushes what is pending. -/
theorem Fires.quiet {e : Event V} (hf : Fires cfg s e s') (hrest : s.pc.Resting)
    (hempty : ∀ i, (s.sinks i).unread = []) : s'.pc.Resting ∧
    (Visiting s e ∧ s'.buf = (Logger.visitEmpty s).buf ∧
        s'.flushCount = (Logger.visitEmpty s).flushCount ∨
      ¬ Visiting s e ∧ s'.flushCount = s.flushCount ∧ (s'.buf = s.buf ∨ s'.buf.pending = [])) := by
  cases hf with
  | dropped | log | setName | close | closeReturn | sync | syncReturn =>
    exact ⟨hrest, .inr ⟨id, rfl, .inl rfl⟩⟩
  | register _ _ _ _ he =>
    refine ⟨hrest, .inr ⟨fun hvisit => ?_, rfl, .inl rfl⟩⟩
    cases e with
    | consume now => cases he
    | _ => exact hvisit
  | runOnce _ _ hbuf => exact ⟨trivial, .inr ⟨id, rfl, hbuf⟩⟩
  | @endPass now hpc =>
    have hnot : ¬ Visiting s (.consume now) := by
      rintro ⟨i, hi, hlt⟩
      rw [hpc] at hi
      cases hi
      omega
    unfold Logger.endPass
    split
    · exact ⟨trivial, .inr ⟨hnot, rfl, .inr (OutputBuffer.pending_flush _)⟩⟩
    · exact ⟨trivial, .inr ⟨hnot, rfl, .inl rfl⟩⟩
  | visitEmpty hpc hget =>
    have hlt := (List.getElem?_eq_some_iff.mp hget).1
    exact ⟨trivial, .inl ⟨⟨_, hpc, hlt⟩, rfl, rfl⟩⟩
  | visit _ _ hun => exact absurd (hempty _) hun
  | execute hpc | remove hpc | release hpc | reportDropped hpc | report hpc =>
    rw [hpc] at hrest
    exact hrest.elim

section Runs
variable [DecidableEq V]

theorem Counting.of_reachableBy (h : (machine cfg).ReachableBy Spared s) :
    Inv cfg s ∧ Counting s := by
  refine h.invariant (I := fun s => Inv cfg s ∧ Counting s) ?_ ?_
  · rintro s ⟨mem, rfl⟩
    exact ⟨.of_initial mem, .inl rfl⟩
  · rintro s e s' ⟨hi, hc⟩ hsp hs
    have hf := fires_of_step hi.rings hi.indexed hi.live hi.destroyLast hs
    exact ⟨hi.step hs, hf.counting hsp hc⟩

/-- `Quiet cfg s n s'`: a run from `s` to `s'` in which all sinks stay empty, with `n`
visits of sinks. -/
inductive Quiet (cfg : Config V) (s : State V) : Nat → State V → Prop
  | refl : Quiet cfg s 0 s
  | visit {n : Nat} {e : Event V} {s₁ s₂ : State V} : Quiet cfg s n s₁ →
      (∀ i, (s₁.sinks i).unread = []) → Visiting s₁ e → step cfg s₁ e = some s₂ →
      Quiet cfg s (n + 1) s₂
  | other {n : Nat} {e : Event V} {s₁ s₂ : State V} : Quiet cfg s n s₁ →
      (∀ i, (s₁.sinks i).unread = []) → ¬ Visiting s₁ e → step cfg s₁ e = some s₂ →
      Quiet cfg s n s₂

/-- Over a quiet run the count goes down by one with each visit, until nothing is
pending. -/
theorem Quiet.counts {n : Nat} (h : Quiet cfg s n s') (hi : Inv cfg s) (hrest : s.pc.Resting)
    (hpos : 0 < s.flushCount) : Inv cfg s' ∧ s'.pc.Resting ∧
    (s'.buf.pending = [] ∨ s'.flushCount + n = s.flushCount ∧ 0 < s'.flushCount) := by
  induction h with
  | refl => exact ⟨hi, hrest, .inr ⟨rfl, hpos⟩⟩
  | @visit n e s₁ s₂ _ hempty hvisit hs ih =>
    obtain ⟨hi, hrest, hcount⟩ := ih
    have hf := fires_of_step hi.rings hi.indexed hi.live hi.destroyLast hs
    obtain ⟨hrest', ⟨-, hbuf, hfc⟩ | ⟨hnot, -⟩⟩ := hf.quiet hrest hempty
    · refine ⟨hi.step hs, hrest', ?_⟩
      rw [hbuf, hfc]
      -- either it was flushed earlier, or this visit counts down
      rcases hcount with hnil | ⟨hsum, hpos⟩
      · exact .inl (visitEmpty_nil hnil)
      · rcases visitEmpty_pending (.inr hpos) with h | ⟨hdown, h⟩
        · exact .inl h
        · exact .inr ⟨by omega, h⟩
    · exact absurd hvisit hnot
  | other _ hempty hnot hs ih =>
    obtain ⟨hi, hrest, hcount⟩ := ih
    have hf := fires_of_step hi.rings hi.indexed hi.live hi.destroyLast hs
    obtain ⟨hrest', ⟨hvisit, -⟩ | ⟨-, hfc, hbuf⟩⟩ := hf.quiet hrest hempty
    · exact absurd hvisit hnot
    · refine ⟨hi.step hs, hrest', ?_⟩
      rw [hfc]
      rcases hbuf with hbuf | hnil
      · rw [hbuf]
        exact hcount
      · exact .inl hnil

/-- **Pending output is flushed.**  At the end of every pass of a run whose removals
strand nothing, pending bytes have a count that is running, and if the sinks stay empty
the buffer is flushed after that many further visits. -/
theorem pending_flushed (h : (machine cfg).ReachableBy Spared s)
    (hpc : s.pc = .top ∨ s.pc = .stopped) (hpending : s.buf.pending ≠ []) :
    0 < s.flushCount ∧ ∀ n s', Quiet cfg s n s' → s.flushCount ≤ n → s'.buf.pending = [] := by
  obtain ⟨hi, hcount⟩ := Counting.of_reachableBy h
  have hpos : 0 < s.flushCount := by
    rcases hpc with hpc | hpc
    · rw [Counting, hpc] at hcount
      exact hcount.resolve_left hpending
    · rw [Counting, hpc] at hcount
      exact absurd hcount hpending
  have hrest : s.pc.Resting := by
    rcases hpc with hpc | hpc <;> rw [hpc] <;> trivial
  refine ⟨hpos, fun n s' hq hn => ?_⟩
  obtain ⟨-, -, hnil | ⟨hsum, hpos'⟩⟩ := hq.counts hi hrest hpos
  · exact hnil
  · omega

end Runs

/-- The format string `"{3}\n"`. -/
def bareLine : Statement := ⟨[.field 3, .literal [10]], false⟩

/-- A pass that prints a line of an open sink ends with the count running. -/
theorem pending_flushed_line : ∃ s, (machine small).ReachableBy Spared s ∧ s.pc = .top ∧
    s.buf.pending = [120, 10] ∧ 0 < s.flushCount ∧
      ∀ n s', Quiet small s n s' → s.flushCount ≤ n → s'.buf.pending = [] := by
  have hrun : ((machine small).runBy Spared (initial small fun _ _ => .byte 0)
      ([Event.registerSink 1 [65] [],
        .log 1 ⟨false, false⟩ bareLine [.value ⟨1, 1, hasSingleBit_1⟩ 120] [], .runOnce []] ++
      List.replicate 9 (Event.consume []))).map (fun s => (s.pc, s.buf.pending)) =
        some (.top, [120, 10]) := by
    decide +kernel
  obtain ⟨s, hreach, heq⟩ := Machine.exists_reachableBy hrun ⟨_, rfl⟩
  simp only [Prod.mk.injEq] at heq
  obtain ⟨hpc, hpending⟩ := heq
  have hne : s.buf.pending ≠ [] := by
    rw [hpending]
    exact List.cons_ne_nil _ _
  exact ⟨s, hreach, hpc, hpending, pending_flushed hreach (.inl hpc) hne⟩

/-- **A line that is logged right before the close is stranded.**  Sink `1` is idle and
the buffer flushed; then it logs and is closed, and the consumer finds both records in
one visit.  At the end of the pass the line is in the buffer and the count is zero. -/
theorem removal_strands_output : ∃ s, (machine small).Reachable s ∧ s.pc = .top ∧
    s.buf.pending = [120, 10] ∧ ¬ 0 < s.flushCount := by
  have hrun : ((machine small).run (initial small fun _ _ => .byte 0)
      ([Event.registerSink 1 [65] [], .runOnce []] ++ List.replicate 6 (Event.consume []) ++
      [Event.runOnce []] ++ List.replicate 3 (Event.consume []) ++
      [Event.log 1 ⟨false, false⟩ bareLine [.value ⟨1, 1, hasSingleBit_1⟩ 120] [], .close 1 [],
        .runOnce []] ++ List.replicate 6 (Event.consume []))).map (fun s =>
        (s.pc, s.buf.pending, s.flushCount)) = some (.top, [120, 10], 0) := by
    decide +kernel
  obtain ⟨s, hreach, heq⟩ := Machine.exists_reachable hrun ⟨_, rfl⟩
  simp only [Prod.mk.injEq] at heq
  obtain ⟨hpc, hpending, hcount⟩ := heq
  exact ⟨s, hreach, hpc, hpending, by omega⟩

end Xtr.Logger
