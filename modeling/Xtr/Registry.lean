import Mathlib.Data.List.Nodup
import Mathlib.Logic.Function.Basic
import Mathlib.Logic.Relation

/-!
# Registration through queues

Parties send messages to one server, each through a queue of its own.  The server knows
some of them, its members, each under a name, and takes messages from the members'
queues only.  A party becomes a member by a message that another party sends for it, so
that it may well have a queue of messages already that the server cannot yet know of.
It leaves by the last message of its queue.

Two things are shown of every run.  A party that has entered and not left is known to
the server, or there is exactly one message that will make it known, and that message is
itself in the queue of such a party; so when the server knows nobody, nobody is left
(`Present`).  And what the server says on behalf of a party is what the party sent, in
the order sent, under the name the party had at that point of its own messages
(`Named`).
-/
namespace Xtr
variable {ι ν τ : Type}

/-- A party may have the server say something, know a new party (under a name, or under
the sender's own), know it by another name, or forget it. -/
inductive Message (ι ν τ : Type)
  | say (text : τ)
  | add (party : ι) (name : Option ν)
  | rename (name : ν)
  | leave
  | nop

/-- The party a message adds. -/
def Message.target? : Message ι ν τ → Option ι
  | .add t _ => some t
  | _ => none

/-- The parties a queue adds. -/
def targets (ms : List (Message ι ν τ)) : List ι := ms.filterMap Message.target?

/-- The server's members and their names, the parties that have entered and not left,
their queues, every message in the order they were sent, and everything said. -/
structure Registry (ι ν τ : Type) where
  member : ι → Option ν
  live : ι → Bool
  queue : ι → List (Message ι ν τ)
  sent : List (ι × Message ι ν τ)
  said : List (ι × τ × ν)

namespace Registry
variable [DecidableEq ι]

/-- One party, known from the start. -/
def start (root : ι) (name : ν) : Registry ι ν τ where
  member := Function.update (fun _ => none) root (some name)
  live := Function.update (fun _ => false) root true
  queue _ := []
  sent := []
  said := []

/-- Party `i` has sent `m`. -/
def push (r : Registry ι ν τ) (i : ι) (m : Message ι ν τ) : Registry ι ν τ :=
  { r with queue := Function.update r.queue i (r.queue i ++ [m]), sent := r.sent ++ [(i, m)] }

/-- The server has taken a message of party `i`, and `ms` remain. -/
def pop (r : Registry ι ν τ) (i : ι) (ms : List (Message ι ν τ)) : Registry ι ν τ :=
  { r with queue := Function.update r.queue i ms }

section Queues
variable {r : Registry ι ν τ} {i j : ι} {m : Message ι ν τ} {ms : List (Message ι ν τ)}

theorem push_queue_self : (r.push i m).queue i = r.queue i ++ [m] := Function.update_self ..

theorem push_queue_of_ne (h : j ≠ i) : (r.push i m).queue j = r.queue j :=
  Function.update_of_ne h ..

theorem pop_queue_self : (r.pop i ms).queue i = ms := Function.update_self ..

theorem pop_queue_of_ne (h : j ≠ i) : (r.pop i ms).queue j = r.queue j :=
  Function.update_of_ne h ..

end Queues

/-- What can happen. -/
inductive Step (r : Registry ι ν τ) : Registry ι ν τ → Prop
  | send {i : ι} {m : Message ι ν τ} : r.live i = true → m.target? = none → Step r (r.push i m)
  /-- A party enters: another one sends the message that adds it. -/
  | enter {i t : ι} {name : Option ν} : r.live i = true → r.live t = false →
      Step r { r.push i (.add t name) with live := Function.update r.live t true }
  | say {i : ι} {n : ν} {text : τ} {ms : List (Message ι ν τ)} : r.member i = some n →
      r.queue i = .say text :: ms → Step r { r.pop i ms with said := r.said ++ [(i, text, n)] }
  | add {i t : ι} {n : ν} {name : Option ν} {ms : List (Message ι ν τ)} : r.member i = some n →
      r.queue i = .add t name :: ms →
      Step r { r.pop i ms with member := Function.update r.member t (some (name.getD n)) }
  | rename {i : ι} {n name : ν} {ms : List (Message ι ν τ)} : r.member i = some n →
      r.queue i = .rename name :: ms →
      Step r { r.pop i ms with member := Function.update r.member i (some name) }
  | leave {i : ι} {n : ν} : r.member i = some n → r.queue i = [.leave] →
      Step r { r.pop i [] with
        member := Function.update r.member i none, live := Function.update r.live i false }
  | nop {i : ι} {n : ν} {ms : List (Message ι ν τ)} : r.member i = some n →
      r.queue i = .nop :: ms → Step r (r.pop i ms)

/-! ## Presence -/

variable {r r' : Registry ι ν τ}

/-- **The presence invariant.**  The messages that add a party lie in the queues of live
parties, for live parties that are not members, one for each.  Following them backwards
from a party leads to a member, since their ranks decrease. -/
structure Present (r : Registry ι ν τ) : Prop where
  queued : ∀ j, r.queue j ≠ [] → r.live j = true
  member_live : ∀ i n, r.member i = some n → r.live i = true
  target : ∀ j t, t ∈ targets (r.queue j) → r.live t = true ∧ r.member t = none
  nodup : ∀ j, (targets (r.queue j)).Nodup
  unique : ∀ j j' t, t ∈ targets (r.queue j) → t ∈ targets (r.queue j') → j = j'
  covered : ∀ i, r.live i = true → r.member i = none → ∃ j, i ∈ targets (r.queue j)
  ranked : ∃ rank : ι → ℕ, ∀ j t, t ∈ targets (r.queue j) → rank j < rank t

omit [DecidableEq ι] in
/-- A queue with targets is not empty. -/
theorem Present.sender_live (h : Present r) {j t : ι} (ht : t ∈ targets (r.queue j)) :
    r.live j = true := by
  apply h.queued
  intro hnil
  rw [hnil] at ht
  cases ht

omit [DecidableEq ι] in
/-- Who is not live has sent nothing, -/
theorem Present.queue_eq_nil (h : Present r) {i : ι} (hi : r.live i = false) : r.queue i = [] := by
  by_contra hne
  rw [h.queued i hne] at hi
  cases hi

omit [DecidableEq ι] in
/-- is not a member, -/
theorem Present.member_eq_none (h : Present r) {i : ι} (hi : r.live i = false) :
    r.member i = none := by
  cases hmem : r.member i with
  | none => rfl
  | some n =>
    rw [h.member_live i n hmem] at hi
    cases hi

omit [DecidableEq ι] in
/-- and nobody is adding it. -/
theorem Present.not_mem_targets (h : Present r) {i : ι} (hi : r.live i = false) (j : ι) :
    i ∉ targets (r.queue j) := by
  intro hmem
  rw [(h.target j i hmem).1] at hi
  cases hi

theorem Present.start (root : ι) (name : ν) : Present (start root name : Registry ι ν τ) where
  queued j h := absurd rfl h
  member_live i n h := by
    by_cases hi : i = root
    · simp [Registry.start, hi]
    · simp [Registry.start, hi] at h
  target j t h := nomatch h
  nodup j := List.nodup_nil
  unique j j' t h := nomatch h
  covered i hlive hmem := by
    by_cases hi : i = root
    · simp [Registry.start, hi] at hmem
    · simp [Registry.start, hi] at hlive
  ranked := ⟨fun _ => 0, fun j t h => nomatch h⟩

omit [DecidableEq ι] in
/-- A queue adds a party once. -/
theorem Present.target_unique (h : Present r) {j t : ι} {n n' : Nat}
    (hn : (r.queue j)[n]?.bind Message.target? = some t)
    (hn' : (r.queue j)[n']?.bind Message.target? = some t) : n = n' := by
  have hnd := h.nodup j
  rw [targets, List.Nodup, List.pairwise_filterMap, List.pairwise_iff_getElem] at hnd
  obtain ⟨m, hm, ht⟩ := Option.bind_eq_some_iff.mp hn
  obtain ⟨m', hm', ht'⟩ := Option.bind_eq_some_iff.mp hn'
  obtain ⟨hlt, rfl⟩ := List.getElem?_eq_some_iff.mp hm
  obtain ⟨hlt', rfl⟩ := List.getElem?_eq_some_iff.mp hm'
  rcases Nat.lt_trichotomy n n' with hne | heq | hne
  · exact absurd rfl (hnd n n' hlt hlt' hne t ht t ht')
  · exact heq
  · exact absurd rfl (hnd n' n hlt' hlt hne t ht' t ht)

omit [DecidableEq ι] in
/-- A step that adds and forgets nobody. -/
theorem Present.congr (h : Present r) (hlive : r'.live = r.live)
    (hmem : ∀ i, r'.member i = none ↔ r.member i = none)
    (htar : ∀ j, targets (r'.queue j) = targets (r.queue j))
    (hqueued : ∀ j, r'.queue j ≠ [] → r.live j = true) : Present r' where
  queued j hj := by
    rw [hlive]
    exact hqueued j hj
  member_live i n hn := by
    have hne : r.member i ≠ none := fun hnone => by
      rw [(hmem i).mpr hnone] at hn
      cases hn
    obtain ⟨n', hn'⟩ := Option.ne_none_iff_exists'.mp hne
    rw [hlive]
    exact h.member_live i n' hn'
  target j t ht := by
    rw [htar] at ht
    rw [hlive, hmem]
    exact h.target j t ht
  nodup j := htar j ▸ h.nodup j
  unique j j' t ht ht' := by
    rw [htar] at ht ht'
    exact h.unique j j' t ht ht'
  covered i hi hn := by
    rw [hlive] at hi
    obtain ⟨j, hj⟩ := h.covered i hi ((hmem i).mp hn)
    exact ⟨j, htar j ▸ hj⟩
  ranked := by
    obtain ⟨rank, hrank⟩ := h.ranked
    refine ⟨rank, fun j t ht => ?_⟩
    rw [htar] at ht
    exact hrank j t ht

omit [DecidableEq ι] in
theorem targets_append_of_none {ms : List (Message ι ν τ)} {m : Message ι ν τ}
    (hm : m.target? = none) : targets (ms ++ [m]) = targets ms := by
  simp [targets, hm]

omit [DecidableEq ι] in
theorem targets_cons_of_none {ms : List (Message ι ν τ)} {m : Message ι ν τ}
    (hm : m.target? = none) : targets (m :: ms) = targets ms := by
  simp [targets, hm]

/-- The queues after a message was taken. -/
theorem targets_pop {i : ι} {m : Message ι ν τ} {ms : List (Message ι ν τ)}
    (hq : r.queue i = m :: ms) (hm : m.target? = none) (j : ι) :
    targets ((r.pop i ms).queue j) = targets (r.queue j) := by
  by_cases hj : j = i
  · subst hj
    rw [hq, targets_cons_of_none hm, pop_queue_self]
  · rw [pop_queue_of_ne hj]

theorem Present.queued_pop (h : Present r) {i : ι} {n : ν} {ms : List (Message ι ν τ)}
    (hmem : r.member i = some n) (j : ι) (hj : (r.pop i ms).queue j ≠ []) : r.live j = true := by
  by_cases hji : j = i
  · exact hji ▸ h.member_live i n hmem
  · rw [pop_queue_of_ne hji] at hj
    exact h.queued j hj

/-- A message that adds nobody is sent. -/
theorem Present.send (h : Present r) {i : ι} {m : Message ι ν τ} (hi : r.live i = true)
    (hm : m.target? = none) : Present (r.push i m) := by
  refine h.congr rfl (fun _ => Iff.rfl) (fun j => ?_) (fun j hj => ?_)
  · by_cases hji : j = i
    · rw [hji, push_queue_self, targets_append_of_none hm]
    · rw [push_queue_of_ne hji]
  · by_cases hji : j = i
    · exact hji ▸ hi
    · rw [push_queue_of_ne hji] at hj
      exact h.queued j hj

/-- Who is added, and by whom, once party `i` has sent a message that adds `t`. -/
theorem mem_targets_push_add {i t : ι} {name : Option ν} {j x : ι} :
    x ∈ targets ((r.push i (.add t name)).queue j) ↔
      x ∈ targets (r.queue j) ∨ j = i ∧ x = t := by
  by_cases hji : j = i
  · subst hji
    rw [push_queue_self]
    simp [targets, Message.target?]
  · rw [push_queue_of_ne hji]
    simp [hji]

/-- A party enters.  It sent nothing before and nobody has added it, so it may have any
rank: one above its sender's. -/
theorem Present.enter (h : Present r) {i t : ι} {name : Option ν} (hi : r.live i = true)
    (ht : r.live t = false) :
    Present { r.push i (.add t name) with live := Function.update r.live t true } := by
  have hti : t ≠ i := by
    rintro rfl
    rw [hi] at ht
    cases ht
  -- nobody is adding the newcomer, and it has sent nothing
  have hold : ∀ j x, x ∈ targets (r.queue j) → x ≠ t ∧ j ≠ t := by
    refine fun j x hx => ⟨?_, ?_⟩
    · rintro rfl
      exact h.not_mem_targets ht j hx
    · rintro rfl
      rw [h.queue_eq_nil ht] at hx
      cases hx
  have hlive : ∀ j, r.live j = true → Function.update r.live t true j = true := by
    intro j hj
    by_cases hjt : j = t
    · rw [hjt]
      exact Function.update_self ..
    · rw [Function.update_of_ne hjt]
      exact hj
  constructor
  · intro j hj
    by_cases hji : j = i
    · exact hlive j (hji ▸ hi)
    · have hj : (r.push i (.add t name)).queue j ≠ [] := hj
      rw [push_queue_of_ne hji] at hj
      exact hlive j (h.queued j hj)
  · exact fun j n hn => hlive j (h.member_live j n hn)
  · intro j x hx
    rcases mem_targets_push_add.mp hx with hx | ⟨-, rfl⟩
    · exact ⟨hlive x (h.target j x hx).1, (h.target j x hx).2⟩
    · exact ⟨Function.update_self .., h.member_eq_none ht⟩
  · intro j
    show (targets ((r.push i (.add t name)).queue j)).Nodup
    by_cases hji : j = i
    · rw [hji, push_queue_self]
      have hnot := h.not_mem_targets ht i
      simpa [targets, Message.target?] using List.Nodup.append (h.nodup i) (List.nodup_singleton t)
        (List.disjoint_singleton.mpr hnot)
    · rw [push_queue_of_ne hji]
      exact h.nodup j
  · intro j j' x hx hx'
    rcases mem_targets_push_add.mp hx with hx | ⟨hj, hxt⟩
    · rcases mem_targets_push_add.mp hx' with hx' | ⟨-, hxt⟩
      · exact h.unique j j' x hx hx'
      · exact absurd hxt (hold j x hx).1
    · rcases mem_targets_push_add.mp hx' with hx' | ⟨hj', -⟩
      · exact absurd hxt (hold j' x hx').1
      · rw [hj, hj']
  · intro x hx hnone
    by_cases hxt : x = t
    · exact ⟨i, mem_targets_push_add.mpr (.inr ⟨rfl, hxt⟩)⟩
    · have hx : Function.update r.live t true x = true := hx
      rw [Function.update_of_ne hxt] at hx
      obtain ⟨j, hj⟩ := h.covered x hx hnone
      exact ⟨j, mem_targets_push_add.mpr (.inl hj)⟩
  · obtain ⟨rank, hrank⟩ := h.ranked
    -- ranks are only compared along messages, and the newcomer has this one
    refine ⟨Function.update rank t (rank i + 1), fun j x hx => ?_⟩
    rcases mem_targets_push_add.mp hx with hx | ⟨rfl, rfl⟩
    · rw [Function.update_of_ne (hold j x hx).1, Function.update_of_ne (hold j x hx).2]
      exact hrank j x hx
    · rw [Function.update_self, Function.update_of_ne hti.symm]
      exact Nat.lt_succ_self _

omit [DecidableEq ι] in
theorem targets_of_add {i t : ι} {name : Option ν} {ms : List (Message ι ν τ)}
    (hq : r.queue i = .add t name :: ms) : targets (r.queue i) = t :: targets ms := by
  rw [hq]
  rfl

/-- Who is added, and by whom, once the message that adds `t` is taken: what is left is what
was there, without `t`. -/
theorem Present.mem_targets_pop_add (h : Present r) {i t : ι} {name : Option ν}
    {ms : List (Message ι ν τ)} (hq : r.queue i = .add t name :: ms) {j x : ι} :
    x ∈ targets ((r.pop i ms).queue j) ↔ x ∈ targets (r.queue j) ∧ x ≠ t := by
  have htar := targets_of_add hq
  have hnd := h.nodup i
  rw [htar, List.nodup_cons] at hnd
  by_cases hj : j = i
  · subst hj
    rw [pop_queue_self, htar, List.mem_cons]
    constructor
    · intro hx
      exact ⟨.inr hx, fun hxt => hnd.1 (hxt ▸ hx)⟩
    · rintro ⟨hx | hx, hne⟩
      · exact absurd hx hne
      · exact hx
  · rw [pop_queue_of_ne hj]
    refine ⟨fun hx => ⟨hx, ?_⟩, fun hx => hx.1⟩
    rintro rfl
    exact hj (h.unique j i x hx (htar ▸ List.mem_cons_self))

/-- The message that adds a party is taken. -/
theorem Present.add (h : Present r) {i t : ι} {n n' : ν} {name : Option ν}
    {ms : List (Message ι ν τ)} (hmem : r.member i = some n) (hq : r.queue i = .add t name :: ms) :
    Present { r.pop i ms with member := Function.update r.member t (some n') } := by
  have htar := targets_of_add hq
  have ht : t ∈ targets (r.queue i) := htar ▸ List.mem_cons_self
  have hnd := h.nodup i
  rw [htar, List.nodup_cons] at hnd
  have hleft : ∀ j x, x ∈ targets ((r.pop i ms).queue j) ↔ x ∈ targets (r.queue j) ∧ x ≠ t :=
    fun j x => h.mem_targets_pop_add hq
  constructor
  · exact h.queued_pop hmem
  · intro x m hx
    by_cases hxt : x = t
    · exact hxt ▸ (h.target i t ht).1
    · have hx : Function.update r.member t (some n') x = some m := hx
      rw [Function.update_of_ne hxt] at hx
      exact h.member_live x m hx
  · intro j x hx
    obtain ⟨hx, hxt⟩ := (hleft j x).mp hx
    refine ⟨(h.target j x hx).1, ?_⟩
    show Function.update r.member t (some n') x = none
    rw [Function.update_of_ne hxt]
    exact (h.target j x hx).2
  · intro j
    show (targets ((r.pop i ms).queue j)).Nodup
    by_cases hj : j = i
    · rw [hj, pop_queue_self]
      exact hnd.2
    · rw [pop_queue_of_ne hj]
      exact h.nodup j
  · exact fun j j' x hx hx' => h.unique j j' x ((hleft j x).mp hx).1 ((hleft j' x).mp hx').1
  · intro x hx hnone
    have hxt : x ≠ t := by
      rintro rfl
      have hnone : Function.update r.member x (some n') x = none := hnone
      rw [Function.update_self] at hnone
      cases hnone
    have hnone : Function.update r.member t (some n') x = none := hnone
    rw [Function.update_of_ne hxt] at hnone
    obtain ⟨j, hj⟩ := h.covered x hx hnone
    exact ⟨j, (hleft j x).mpr ⟨hj, hxt⟩⟩
  · obtain ⟨rank, hrank⟩ := h.ranked
    exact ⟨rank, fun j x hx => hrank j x ((hleft j x).mp hx).1⟩

/-- A member leaves. -/
theorem Present.leave (h : Present r) {i : ι} {n : ν} (hmem : r.member i = some n)
    (hq : r.queue i = [.leave]) :
    Present { r.pop i [] with
      member := Function.update r.member i none, live := Function.update r.live i false } := by
  have hqueue : ∀ j, targets ((r.pop i []).queue j) = targets (r.queue j) := targets_pop hq rfl
  -- a member is not being added
  have hi : ∀ j, i ∉ targets (r.queue j) := fun j hj => by
    rw [(h.target j i hj).2] at hmem
    cases hmem
  constructor
  · intro j hj
    by_cases hji : j = i
    · subst hji
      exact absurd pop_queue_self hj
    · have hj : (r.pop i []).queue j ≠ [] := hj
      rw [pop_queue_of_ne hji] at hj
      show Function.update r.live i false j = true
      rw [Function.update_of_ne hji]
      exact h.queued j hj
  · intro x m hx
    have hxi : x ≠ i := by
      rintro rfl
      have hx : Function.update r.member x none x = some m := hx
      rw [Function.update_self] at hx
      cases hx
    have hx : Function.update r.member i none x = some m := hx
    rw [Function.update_of_ne hxi] at hx
    show Function.update r.live i false x = true
    rw [Function.update_of_ne hxi]
    exact h.member_live x m hx
  · intro j x hx
    rw [hqueue] at hx
    have hxi : x ≠ i := fun hxi => hi j (hxi ▸ hx)
    show Function.update r.live i false x = true ∧ Function.update r.member i none x = none
    rw [Function.update_of_ne hxi, Function.update_of_ne hxi]
    exact h.target j x hx
  · exact fun j => hqueue j ▸ h.nodup j
  · intro j j' x hx hx'
    rw [hqueue] at hx hx'
    exact h.unique j j' x hx hx'
  · intro x hx hnone
    have hxi : x ≠ i := by
      rintro rfl
      have hx : Function.update r.live x false x = true := hx
      rw [Function.update_self] at hx
      cases hx
    have hx : Function.update r.live i false x = true := hx
    have hnone : Function.update r.member i none x = none := hnone
    rw [Function.update_of_ne hxi] at hx hnone
    obtain ⟨j, hj⟩ := h.covered x hx hnone
    exact ⟨j, hqueue j ▸ hj⟩
  · obtain ⟨rank, hrank⟩ := h.ranked
    refine ⟨rank, fun j x hx => ?_⟩
    rw [hqueue] at hx
    exact hrank j x hx

/-- **Every step keeps the parties present.** -/
theorem Present.step (h : Present r) (hs : Step r r') : Present r' := by
  cases hs with
  | send hi hm => exact h.send hi hm
  | enter hi ht => exact h.enter hi ht
  | say hmem hq =>
    exact h.congr rfl (fun _ => Iff.rfl) (targets_pop hq rfl) (h.queued_pop hmem)
  | add hmem hq => exact h.add hmem hq
  | @rename i n name ms hmem hq =>
    refine h.congr rfl (fun x => ?_) (targets_pop hq rfl) (h.queued_pop hmem)
    show Function.update r.member i (some name) x = none ↔ _
    by_cases hx : x = i
    · rw [hx, Function.update_self, hmem]
      simp
    · rw [Function.update_of_ne hx]
  | leave hmem hq => exact h.leave hmem hq
  | nop hmem hq =>
    exact h.congr rfl (fun _ => Iff.rfl) (targets_pop hq rfl) (h.queued_pop hmem)

theorem Present.of_reachable {root : ι} {name : ν}
    (h : Relation.ReflTransGen Step (Registry.start root name) r) : Present r := by
  induction h with
  | refl => exact .start root name
  | tail _ hs ih => exact ih.step hs

omit [DecidableEq ι] in
/-- **When the server knows nobody, nobody is left.** -/
theorem Present.not_live (h : Present r) (hnone : ∀ i, r.member i = none) (i : ι) :
    r.live i = false := by
  obtain ⟨rank, hrank⟩ := h.ranked
  -- the party who sent the message for `i` has a smaller rank
  induction hn : rank i using Nat.strongRecOn generalizing i with
  | _ n ih =>
    cases hi : r.live i with
    | false => rfl
    | true =>
      obtain ⟨j, hj⟩ := h.covered i hi (hnone i)
      have hlive := ih (rank j) (hn ▸ hrank j i hj) j rfl
      rw [h.sender_live hj] at hlive
      cases hlive

end Registry

/-! ## Names -/

namespace Message

/-- The sender's name after the message. -/
def nameAfter (n : ν) : Message ι ν τ → ν
  | .rename name => name
  | _ => n

/-- What the message has the server say, for a sender of the given name. -/
def lines (n : ν) : Message ι ν τ → List (τ × ν)
  | .say text => [(text, n)]
  | _ => []

/-- The party that is added, if any, gets the name `names` says. -/
def Adds (names : ι → ν) (n : ν) : Message ι ν τ → Prop
  | .add t name => names t = name.getD n
  | _ => True

/-- The parties' names after the message. -/
def namesAfter [DecidableEq ι] (names : ι → ν) (i : ι) : Message ι ν τ → ι → ν
  | .add t name => Function.update names t (name.getD (names i))
  | .rename name => Function.update names i name
  | _ => names

end Message

/-- The name after the messages of a queue. -/
def nameAfter (n : ν) (ms : List (Message ι ν τ)) : ν := ms.foldl Message.nameAfter n

/-- What the messages of a queue have the server say. -/
def linesOf (n : ν) : List (Message ι ν τ) → List (τ × ν)
  | [] => []
  | m :: ms => m.lines n ++ linesOf (m.nameAfter n) ms

/-- The parties that the messages of a queue add. -/
def Adds (names : ι → ν) (n : ν) : List (Message ι ν τ) → Prop
  | [] => True
  | m :: ms => m.Adds names n ∧ Adds names (m.nameAfter n) ms

/-- **The reference.**  What is to be said when the messages are taken in the order
they were sent: each sender's name is what its own messages made it, starting from the
name under which it was added. -/
def spoken [DecidableEq ι] (names : ι → ν) : List (ι × Message ι ν τ) → List (ι × τ × ν)
  | [] => []
  | (i, m) :: ms => (m.lines (names i)).map (i, ·) ++ spoken (m.namesAfter names i) ms

/-- The parties' names after all the messages. -/
def namesAfter [DecidableEq ι] (names : ι → ν) (ms : List (ι × Message ι ν τ)) : ι → ν :=
  ms.foldl (fun names (i, m) => m.namesAfter names i) names

/-- What is said on behalf of party `i`. -/
def saidOf {α : Type} [DecidableEq ι] (i : ι) (ls : List (ι × α)) : List α :=
  (ls.filter (·.1 = i)).map Prod.snd

section Lines
variable {names names' : ι → ν} {n : ν} {ms : List (Message ι ν τ)} {m : Message ι ν τ}

theorem nameAfter_append : nameAfter n (ms ++ [m]) = m.nameAfter (nameAfter n ms) := by
  simp [nameAfter]

theorem linesOf_append : linesOf n (ms ++ [m]) = linesOf n ms ++ m.lines (nameAfter n ms) := by
  induction ms generalizing n with
  | nil => simp [linesOf, nameAfter]
  | cons a ms ih =>
    rw [List.cons_append, linesOf, linesOf, ih, List.append_assoc]
    rfl

theorem adds_append :
    Adds names n (ms ++ [m]) ↔ Adds names n ms ∧ m.Adds names (nameAfter n ms) := by
  induction ms generalizing n with
  | nil => simp [Adds, nameAfter]
  | cons a ms ih =>
    rw [List.cons_append, Adds, Adds, ih, and_assoc]
    rfl

theorem Adds.congr (h : Adds names n ms) (hsame : ∀ t ∈ targets ms, names' t = names t) :
    Adds names' n ms := by
  induction ms generalizing n with
  | nil => trivial
  | cons a ms ih =>
    refine ⟨?_, ih h.2 fun t ht => hsame t ?_⟩
    · cases a with
      | add t name =>
        show names' t = name.getD n
        rw [hsame t List.mem_cons_self]
        exact h.1
      | say text | rename name | leave | nop => trivial
    · cases a with
      | add t' name => exact List.mem_cons_of_mem _ ht
      | say text | rename name | leave | nop => exact ht

theorem linesOf_texts :
    (linesOf n ms).map Prod.fst = ms.filterMap fun
      | .say text => some text
      | _ => none := by
  induction ms generalizing n with
  | nil => rfl
  | cons a ms ih =>
    rw [linesOf, List.map_append, ih]
    cases a <;> rfl

variable [DecidableEq ι]

theorem spoken_append {xs : List (ι × Message ι ν τ)} {i : ι} :
    spoken names (xs ++ [(i, m)]) =
      spoken names xs ++ (m.lines (namesAfter names xs i)).map (i, ·) := by
  induction xs generalizing names with
  | nil => simp [spoken, namesAfter]
  | cons x xs ih =>
    obtain ⟨j, a⟩ := x
    rw [List.cons_append, spoken, spoken, ih, List.append_assoc]
    rfl

theorem namesAfter_append {xs : List (ι × Message ι ν τ)} {i : ι} :
    namesAfter names (xs ++ [(i, m)]) = m.namesAfter (namesAfter names xs) i := by
  simp [namesAfter]

theorem saidOf_append {α : Type} {i : ι} {xs ys : List (ι × α)} :
    saidOf i (xs ++ ys) = saidOf i xs ++ saidOf i ys := by
  simp [saidOf]

theorem saidOf_map_self {α : Type} {i : ι} {xs : List α} : saidOf i (xs.map (i, ·)) = xs := by
  simp [saidOf, List.filter_map, Function.comp_def]

theorem saidOf_map_of_ne {α : Type} {i j : ι} {xs : List α} (h : j ≠ i) :
    saidOf i (xs.map (j, ·)) = [] := by
  simp [saidOf, h]

end Lines

namespace Registry
variable [DecidableEq ι] {r r' : Registry ι ν τ} {first names : ι → ν}

/-- **The naming invariant.**  `names` are the parties' names before the messages that
are still in their queues: members are known by them, messages under way will add
parties under them, and what was said so far, followed by what the queue will have said,
is the reference. -/
structure Named (first names : ι → ν) (r : Registry ι ν τ) : Prop where
  member : ∀ i n, r.member i = some n → n = names i
  adds : ∀ j, Adds names (names j) (r.queue j)
  current : ∀ i, r.live i = true → namesAfter first r.sent i = nameAfter (names i) (r.queue i)
  lines : ∀ i, saidOf i r.said ++ linesOf (names i) (r.queue i) =
    saidOf i (spoken first r.sent)

/-- A message was sent: what it has said comes last. -/
theorem Named.lines_push (h : Named first names r) {i : ι} {m : Message ι ν τ}
    (hi : r.live i = true) (j : ι) :
    saidOf j r.said ++ linesOf (names j) ((r.push i m).queue j) =
      saidOf j (spoken first (r.push i m).sent) := by
  show _ = saidOf j (spoken first (r.sent ++ [(i, m)]))
  rw [spoken_append, saidOf_append, ← h.lines j]
  by_cases hj : j = i
  · subst hj
    rw [push_queue_self, linesOf_append, saidOf_map_self, h.current j hi, List.append_assoc]
  · rw [push_queue_of_ne hj, saidOf_map_of_ne (Ne.symm hj), List.append_nil]

theorem Named.send (h : Named first names r) {i : ι} {m : Message ι ν τ} (hi : r.live i = true)
    (hm : m.target? = none) : Named first names (r.push i m) where
  member := h.member
  adds j := by
    by_cases hj : j = i
    · rw [hj, push_queue_self, adds_append]
      refine ⟨h.adds i, ?_⟩
      cases m with
      | add t name => cases hm
      | say text | rename name | leave | nop => trivial
    · rw [push_queue_of_ne hj]
      exact h.adds j
  current j hj := by
    show namesAfter first (r.sent ++ [(i, m)]) j = _
    rw [namesAfter_append]
    by_cases hji : j = i
    · subst hji
      rw [push_queue_self, nameAfter_append, ← h.current j hj]
      cases m with
      | add t name => cases hm
      | rename name => exact Function.update_self ..
      | say text | leave | nop => rfl
    · rw [push_queue_of_ne hji, ← h.current j hj]
      cases m with
      | add t name => cases hm
      | rename name => exact Function.update_of_ne hji ..
      | say text | leave | nop => rfl
  lines := h.lines_push hi

/-- A party enters under the name its sender has by then. -/
theorem Named.enter (h : Named first names r) (hp : Present r) {i t : ι} {name : Option ν}
    (hi : r.live i = true) (ht : r.live t = false) :
    Named first (Function.update names t (name.getD (nameAfter (names i) (r.queue i))))
      { r.push i (.add t name) with live := Function.update r.live t true } := by
  have hti : t ≠ i := by
    rintro rfl
    rw [hi] at ht
    cases ht
  have hnil : r.queue t = [] := hp.queue_eq_nil ht
  have htargets : ∀ j x, x ∈ targets (r.queue j) → x ≠ t := by
    rintro j x hx rfl
    exact hp.not_mem_targets ht j hx
  have hkeep : ∀ j, j ≠ t →
      Function.update names t (name.getD (nameAfter (names i) (r.queue i))) j = names j :=
    fun j hj => Function.update_of_ne hj ..
  constructor
  · intro x n hx
    have hxt : x ≠ t := by
      rintro rfl
      have hx : r.member x = some n := hx
      rw [hp.member_eq_none ht] at hx
      cases hx
    rw [hkeep x hxt]
    exact h.member x n hx
  · intro j
    have hold : j ≠ t → Adds (Function.update names t (name.getD (nameAfter (names i) (r.queue i))))
        (names j) (r.queue j) := fun _ =>
      (h.adds j).congr fun x hx => hkeep x (htargets j x hx)
    show Adds _ _ ((r.push i (.add t name)).queue j)
    by_cases hji : j = i
    · rw [hji, hkeep i hti.symm, push_queue_self, adds_append]
      exact ⟨hji ▸ hold (hji ▸ hti.symm), Function.update_self ..⟩
    · rw [push_queue_of_ne hji]
      by_cases hjt : j = t
      · rw [hjt, hnil]
        trivial
      · rw [hkeep j hjt]
        exact hold hjt
  · intro j hj
    show namesAfter first (r.sent ++ [(i, .add t name)]) j =
      nameAfter _ ((r.push i (.add t name)).queue j)
    rw [namesAfter_append]
    show Function.update (namesAfter first r.sent) t _ j = _
    by_cases hjt : j = t
    · subst hjt
      rw [Function.update_self, Function.update_self, push_queue_of_ne hti, hnil, h.current i hi]
      rfl
    · have hj : Function.update r.live t true j = true := hj
      rw [Function.update_of_ne hjt] at hj
      rw [Function.update_of_ne hjt, Function.update_of_ne hjt, h.current j hj]
      by_cases hji : j = i
      · rw [hji, push_queue_self, nameAfter_append]
        rfl
      · rw [push_queue_of_ne hji]
  · intro j
    by_cases hjt : j = t
    · have hl := h.lines_push (m := .add t name) hi j
      rw [hjt, push_queue_of_ne hti, hnil] at hl
      show saidOf j r.said ++ linesOf _ ((r.push i (.add t name)).queue j) = _
      rw [hjt, push_queue_of_ne hti, hnil]
      exact hl
    · rw [hkeep j hjt]
      exact h.lines_push hi j

/-- A message is taken: its sender's name is now what the message made it. -/
theorem Named.take (h : Named first names r) (hp : Present r) {i : ι} {n : ν}
    {m : Message ι ν τ} {ms : List (Message ι ν τ)} (hmem : r.member i = some n)
    (hq : r.queue i = m :: ms) (hqueue : r'.queue = (r.pop i ms).queue) (hsent : r'.sent = r.sent)
    (hlive : ∀ j, r'.live j = true → r.live j = true)
    (hmember : ∀ x n', r'.member x = some n' → n' = Function.update names i (m.nameAfter n) x)
    (hsaid : r'.said = r.said ++ (m.lines n).map (i, ·)) :
    Named first (Function.update names i (m.nameAfter n)) r' := by
  obtain rfl : n = names i := h.member i n hmem
  -- nobody is adding a member, so its new name is in no message under way
  have hi : ∀ j, i ∉ targets (r.queue j) := fun j hj => by
    rw [(hp.target j i hj).2] at hmem
    cases hmem
  have hkeep : ∀ j, j ≠ i → Function.update names i (m.nameAfter (names i)) j = names j :=
    fun j hj => Function.update_of_ne hj ..
  have hadds := h.adds i
  rw [hq] at hadds
  constructor
  · exact hmember
  · intro j
    rw [hqueue]
    by_cases hj : j = i
    · rw [hj, pop_queue_self, Function.update_self]
      refine hadds.2.congr fun t ht => hkeep t ?_
      rintro rfl
      refine hi t ?_
      rw [hq]
      cases m with
      | add t' name => exact List.mem_cons_of_mem _ ht
      | say text | rename name | leave | nop => exact ht
    · rw [pop_queue_of_ne hj, hkeep j hj]
      exact (h.adds j).congr fun t ht => hkeep t fun hti => hi j (hti ▸ ht)
  · intro j hj
    rw [hqueue, hsent, h.current j (hlive j hj)]
    by_cases hji : j = i
    · rw [hji, pop_queue_self, Function.update_self, hq]
      rfl
    · rw [pop_queue_of_ne hji, hkeep j hji]
  · intro j
    rw [hqueue, hsent, hsaid, saidOf_append, ← h.lines j]
    by_cases hj : j = i
    · rw [hj, pop_queue_self, Function.update_self, saidOf_map_self, hq, List.append_assoc]
      rfl
    · rw [pop_queue_of_ne hj, hkeep j hj, saidOf_map_of_ne (Ne.symm hj), List.append_nil]

/-- **Every step keeps the names.** -/
theorem Named.step (h : Named first names r) (hp : Present r) (hs : Step r r') :
    ∃ names', Named first names' r' := by
  -- unless its sender is renamed or a party added, a member's name is as before
  have hsame : ∀ {i n}, r.member i = some n → ∀ x n', r.member x = some n' →
      n' = Function.update names i n x := by
    intro i n hmem x n' hx
    rw [h.member i n hmem, Function.update_eq_self]
    exact h.member x n' hx
  cases hs with
  | send hi hm => exact ⟨_, h.send hi hm⟩
  | enter hi ht => exact ⟨_, h.enter hp hi ht⟩
  | say hmem hq => exact ⟨_, h.take hp hmem hq rfl rfl (fun _ hj => hj) (hsame hmem) rfl⟩
  | @add i t n name ms hmem hq =>
    refine ⟨_, h.take hp hmem hq rfl rfl (fun _ hj => hj) (fun x n' hx => ?_)
      (List.append_nil _).symm⟩
    have hx : Function.update r.member t (some (name.getD n)) x = some n' := hx
    by_cases hxt : x = t
    · have hadds := h.adds i
      rw [hq] at hadds
      have hname : names t = name.getD (names i) := hadds.1
      rw [hxt, Function.update_self] at hx
      rw [← Option.some.inj hx]
      show _ = Function.update names i n x
      rw [h.member i n hmem, Function.update_eq_self, hxt, hname]
    · rw [Function.update_of_ne hxt] at hx
      exact hsame hmem x n' hx
  | @rename i n name ms hmem hq =>
    refine ⟨_, h.take hp hmem hq rfl rfl (fun _ hj => hj) (fun x n' hx => ?_)
      (List.append_nil _).symm⟩
    have hx : Function.update r.member i (some name) x = some n' := hx
    show n' = Function.update names i name x
    by_cases hxi : x = i
    · rw [hxi, Function.update_self] at hx ⊢
      exact (Option.some.inj hx).symm
    · rw [Function.update_of_ne hxi] at hx ⊢
      exact h.member x n' hx
  | @leave i n hmem hq =>
    refine ⟨_, h.take hp hmem hq rfl rfl (fun j hj => ?_) (fun x n' hx => ?_)
      (List.append_nil _).symm⟩
    · have hj : Function.update r.live i false j = true := hj
      by_cases hji : j = i
      · rw [hji, Function.update_self] at hj
        cases hj
      · rwa [Function.update_of_ne hji] at hj
    · have hx : Function.update r.member i none x = some n' := hx
      by_cases hxi : x = i
      · rw [hxi, Function.update_self] at hx
        cases hx
      · rw [Function.update_of_ne hxi] at hx
        exact hsame hmem x n' hx
  | nop hmem hq =>
    exact ⟨_, h.take hp hmem hq rfl rfl (fun _ hj => hj) (hsame hmem) (List.append_nil _).symm⟩

theorem Named.of_reachable {root : ι} {name : ν}
    (h : Relation.ReflTransGen Step (Registry.start root name) r) :
    ∃ names, Named (fun _ => name) names r := by
  induction h with
  | refl =>
    refine ⟨fun _ => name, ⟨fun i n hn => ?_, fun _ => trivial, fun _ _ => rfl, fun _ => rfl⟩⟩
    by_cases hi : i = root
    · simpa [Registry.start, hi, eq_comm] using hn
    · simp [Registry.start, hi] at hn
  | tail hr hs ih =>
    obtain ⟨names, hnamed⟩ := ih
    exact hnamed.step (.of_reachable hr) hs

end Registry
end Xtr
