import Xtr.IoUringSync

/-!
# Reopening the log file

`fd_storage_base::reopen` opens the path with `open_at_end` and gives the descriptor
to `replace_fd`, which hands over and waits for all pending writes to the old
descriptor, and then takes the new descriptor's position for `offset_`.  The position
is the size the file had when it was opened.  If the log file was renamed, the new
file is empty and nothing is lost.  If it was left in place, the pending writes may
end behind that position, and the buffers submitted next overwrite them
(`reopen_overwrites`).

Where every `reopen` finds the file at least as long as the pending writes will make
it, nothing is lost or overwritten (`reopen_keeps_data`).
-/
namespace Xtr.IoUring
variable {cfg : Config} {s : State}

/-- **Reopening keeps the data where `open_at_end` sees its end.**  In a run whose
reopens all do, the submitted buffers of one file are apart, each starts at or behind
the end the file had when the last `reopen` before it returned, and when `sync`
returns each is in the file that was current when it was submitted. -/
theorem reopen_keeps_data {file : SparseFile} {position : Nat}
    (h : (machine cfg file position).ReachableBy (fun s e => Assumed s e ∧ SeesEnd s e) s) :
    s.log.Pairwise Chunk.Disjoint ∧ (∀ c ∈ s.log, c.floor ≤ c.start) ∧
      ∀ e s', Assumed s e → SeesEnd s e → SyncReturns cfg s e s' →
        ∀ c ∈ s'.log, (s'.files c.file).pread c.start c.bytes.length = c.bytes := by
  obtain ⟨hb, hs⟩ := session_of_reachable h
  refine ⟨hs.logged.disjoint, hs.logged.floor_le_start, ?_⟩
  intro e s' ha hsees hret c hc
  have hs' := step_session hs hb ha hsees hret.step
  rw [hs'.stored.files_eq (hret.pending hb)]
  exact hs'.logged.kept c hc

/-- A buffer is written out, the file is reopened in place, another buffer is
submitted, and `sync` is about to return. -/
def reopenInPlace : List Event :=
  [.allocateBuffer, .submitBuffer [1], .sync, .complete 0 (.wrote 1), .reap, .reopen,
    .allocateBuffer, .submitBuffer [2], .sync, .complete 0 (.wrote 1)]

/-- The second buffer comes after the first. -/
theorem reopen_keeps_data_in_place : ∃ s s', (machine pair .empty 0).ReachableBy
      (fun s e => Assumed s e ∧ SeesEnd s e) s ∧ SyncReturns pair s .reap s' ∧
    s'.log = [⟨0, 0, [1], 0⟩, ⟨0, 1, [2], 1⟩] ∧ (s'.files 0).pread 0 1 = [1] := by
  have hrun : (((machine pair .empty 0).runBy (fun s e => Assumed s e ∧ SeesEnd s e)
      (initial pair .empty 0) reopenInPlace).map fun s =>
        (s.pc, (step pair s .reap).map fun s' => (s'.pc, s'.log))) =
          some (.waiting .sync, some (.idle, [⟨0, 0, [1], 0⟩, ⟨0, 1, [2], 1⟩])) := by
    decide +kernel
  obtain ⟨s, hreach, heq⟩ := Machine.exists_reachableBy hrun rfl
  simp only [Prod.mk.injEq] at heq
  obtain ⟨hpc, hstep⟩ := heq
  obtain ⟨s', hs', heq'⟩ := Option.map_eq_some_iff.mp hstep
  simp only [Prod.mk.injEq] at heq'
  obtain ⟨hidle, hlog⟩ := heq'
  have hret : SyncReturns pair s .reap s' := ⟨hs', .inr hpc, hidle⟩
  have hread := (reopen_keeps_data hreach).2.2 .reap s' trivial trivial hret ⟨0, 0, [1], 0⟩
    (by rw [hlog]; exact List.mem_cons_self)
  exact ⟨s, s', hreach, hret, hlog, hread⟩

/-- The same without the first `sync`: the buffer is still pending when the file is
opened. -/
def reopenUnsent : List Event :=
  [.allocateBuffer, .submitBuffer [1], .reopen, .complete 0 (.wrote 1), .reap,
    .allocateBuffer, .submitBuffer [2], .sync, .complete 0 (.wrote 1)]

/-- Both buffers go to offset zero, before the end of the reopened file, and after
`sync` the first is gone. -/
theorem reopen_overwrites : ∃ s s', (machine pair .empty 0).ReachableBy Assumed s ∧
    SyncReturns pair s .reap s' ∧ s'.log = [⟨0, 0, [1], 0⟩, ⟨0, 0, [2], 1⟩] ∧
      (s'.files 0).pread 0 1 = [2] ∧ ¬ s'.log.Pairwise Chunk.Disjoint ∧
      ¬ (∀ c ∈ s'.log, (s'.files c.file).pread c.start c.bytes.length = c.bytes) ∧
      ¬ (∀ c ∈ s'.log, c.floor ≤ c.start) := by
  have hrun : (((machine pair .empty 0).runBy Assumed (initial pair .empty 0) reopenUnsent).map
      fun s => (s.pc, (step pair s .reap).map fun s' =>
        (s'.pc, s'.log, (s'.files 0).pread 0 1))) =
          some (.waiting .sync, some (.idle, [⟨0, 0, [1], 0⟩, ⟨0, 0, [2], 1⟩], [2])) := by
    decide +kernel
  obtain ⟨s, hreach, heq⟩ := Machine.exists_reachableBy hrun rfl
  simp only [Prod.mk.injEq] at heq
  obtain ⟨hpc, hstep⟩ := heq
  obtain ⟨s', hs', heq'⟩ := Option.map_eq_some_iff.mp hstep
  simp only [Prod.mk.injEq] at heq'
  obtain ⟨hidle, hlog, hread⟩ := heq'
  have hfirst : (⟨0, 0, [1], 0⟩ : Chunk) ∈ s'.log := by rw [hlog]; exact List.mem_cons_self
  refine ⟨s, s', hreach, ⟨hs', .inr hpc, hidle⟩, hlog, hread, ?_, ?_, ?_⟩
  · rw [hlog]
    intro hdis
    have := List.rel_of_pairwise_cons hdis (List.mem_singleton_self _)
    exact this rfl 0 Nat.one_pos 0 Nat.one_pos rfl
  · intro hall
    have hone : (s'.files 0).pread 0 1 = [1] := hall _ hfirst
    rw [hread] at hone
    exact absurd hone (by decide)
  · intro hall
    have := hall ⟨0, 0, [2], 1⟩ (by rw [hlog]; simp)
    exact absurd this (by decide)

end Xtr.IoUring
