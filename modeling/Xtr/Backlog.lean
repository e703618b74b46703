import Mathlib.Data.Nat.Count
import Xtr.Registry

/-!
# The backlog of a registry

The messages that were sent and not yet taken, by their numbers in the order in which
they were sent.  The server takes messages from its members' queues only, so that a
message may have to wait for another one, which makes its sender a member.  But that one
was sent before it, and so on backwards: the oldest message of all that wait is always a
member's, and the first of its queue (`Founded.oldest`).  A server that comes to each of
its members now and then leaves no message waiting for ever.
-/
namespace Xtr.Registry
variable {ι ν τ : Type} [DecidableEq ι]

/-- What party `i` sent after the first `n` messages. -/
def sentAfter (r : Registry ι ν τ) (i : ι) (n : Nat) : List (Message ι ν τ) :=
  saidOf i (r.sent.drop n)

/-- Message number `k` has not been taken: fewer were sent by its sender after it than are
in the sender's queue. -/
def Waits (r : Registry ι ν τ) (k : Nat) : Prop :=
  ∃ x ∈ r.sent[k]?, (r.sentAfter x.1 (k + 1)).length < (r.queue x.1).length

instance (r : Registry ι ν τ) : DecidablePred r.Waits :=
  fun k => inferInstanceAs (Decidable (∃ x ∈ r.sent[k]?, _))

/-- How many of the first `n` messages have not been taken. -/
def backlog (r : Registry ι ν τ) (n : Nat) : Nat := Nat.count r.Waits n

/-! ## Lists of messages -/

section Lists
variable {α : Type} {xs : List (ι × α)} {i : ι} {m : α} {ms : List α}

theorem saidOf_cons_self (i : ι) (m : α) (xs : List (ι × α)) :
    saidOf i ((i, m) :: xs) = m :: saidOf i xs := by
  simp [saidOf]

theorem saidOf_cons_of_ne {x : ι × α} (hx : x.1 ≠ i) (xs : List (ι × α)) :
    saidOf i (x :: xs) = saidOf i xs := by
  simp [saidOf, hx]

/-- The messages at the end of a party's are found in the list. -/
theorem exists_sent (h : m :: ms <:+ saidOf i xs) :
    ∃ k, xs[k]? = some (i, m) ∧ saidOf i (xs.drop (k + 1)) = ms := by
  induction xs with
  | nil => exact absurd (List.suffix_nil.mp h) (List.cons_ne_nil m ms)
  | cons x xs ih =>
    by_cases hx : x.1 = i
    · obtain ⟨j, a⟩ := x
      obtain rfl : j = i := hx
      rw [saidOf_cons_self] at h
      rcases List.suffix_cons_iff.mp h with heq | h
      · obtain ⟨rfl, rfl⟩ := List.cons.inj heq
        exact ⟨0, rfl, rfl⟩
      · obtain ⟨k, hk, hrest⟩ := ih h
        exact ⟨k + 1, hk, hrest⟩
    · rw [saidOf_cons_of_ne hx] at h
      obtain ⟨k, hk, hrest⟩ := ih h
      exact ⟨k + 1, hk, hrest⟩

/-- There are fewer messages of a party after one of them. -/
theorem length_saidOf_drop_lt {j k : Nat} (hjk : j ≤ k) (hk : xs[k]? = some (i, m)) :
    (saidOf i (xs.drop (k + 1))).length < (saidOf i (xs.drop j)).length := by
  obtain ⟨hlt, hget⟩ := List.getElem?_eq_some_iff.mp hk
  have hdrop : xs.drop k = (i, m) :: xs.drop (k + 1) := by
    rw [List.drop_eq_getElem_cons hlt, hget]
  have hsub : (saidOf i (xs.drop k)).Sublist (saidOf i (xs.drop j)) :=
    ((List.drop_sublist_drop_left xs hjk).filter _).map _
  refine Nat.lt_of_lt_of_le ?_ hsub.length_le
  rw [hdrop, saidOf_cons_self]
  exact Nat.lt_succ_self _

/-- One number less. -/
theorem count_remove {p q : Nat → Prop} [DecidablePred p] [DecidablePred q] {k₀ : Nat}
    (h : ∀ k, q k ↔ p k ∧ k ≠ k₀) (hp : p k₀) (n : Nat) :
    Nat.count p n = Nat.count q n + if k₀ < n then 1 else 0 := by
  induction n with
  | zero => rfl
  | succ n ih =>
    rw [Nat.count_succ, Nat.count_succ, ih]
    by_cases hn : n = k₀
    · subst hn
      have hq : ¬ q n := fun hq => ((h n).mp hq).2 rfl
      simp [hp, hq]
    · have hiff : q n ↔ p n := (h n).trans (and_iff_left hn)
      have hlt : k₀ < n + 1 ↔ k₀ < n := by omega
      simp only [hiff, hlt]
      omega

end Lists

/-! ## Sending and taking -/

section Steps
variable {r : Registry ι ν τ} {i : ι} {m : Message ι ν τ} {ms : List (Message ι ν τ)} {k n : Nat}

/-- A message that is sent leaves the others waiting as they were. -/
theorem waits_push_iff (hk : k < r.sent.length) : (r.push i m).Waits k ↔ r.Waits k := by
  have hget : (r.push i m).sent[k]? = r.sent[k]? := List.getElem?_append_left hk
  have hdrop : (r.push i m).sent.drop (k + 1) = r.sent.drop (k + 1) ++ [(i, m)] :=
    List.drop_append_of_le_length hk
  unfold Waits sentAfter
  rw [hget, hdrop]
  refine exists_congr fun x => and_congr_right fun _ => ?_
  rw [saidOf_append, List.length_append]
  by_cases hx : x.1 = i
  · rw [hx, push_queue_self, saidOf_cons_self, List.length_append]
    exact Nat.add_lt_add_iff_right
  · rw [push_queue_of_ne hx, saidOf_cons_of_ne (Ne.symm hx)]
    exact Iff.rfl

theorem waits_push_last : (r.push i m).Waits r.sent.length := by
  refine ⟨(i, m), List.getElem?_concat_length, ?_⟩
  have hnil : (r.push i m).sentAfter i (r.sent.length + 1) = [] := by
    have hdrop : (r.push i m).sent.drop (r.sent.length + 1) = [] :=
      List.drop_of_length_le (by simp [push])
    rw [sentAfter, hdrop]
    rfl
  rw [hnil, push_queue_self, List.length_append]
  exact Nat.succ_pos _

theorem backlog_push (hn : n ≤ r.sent.length) : (r.push i m).backlog n = r.backlog n := by
  have hiff : ∀ k < n, ((r.push i m).Waits k ↔ r.Waits k) := fun k hk =>
    waits_push_iff (Nat.lt_of_lt_of_le hk hn)
  exact Nat.le_antisymm (Nat.count_mono_left fun k hk => (hiff k hk).mp)
    (Nat.count_mono_left fun k hk => (hiff k hk).mpr)

/-- Message number `k` is the first in the queue of party `i`, which holds `ms` after it. -/
structure First (r : Registry ι ν τ) (i : ι) (m : Message ι ν τ) (ms : List (Message ι ν τ))
    (k : Nat) : Prop where
  queue : r.queue i = m :: ms
  sent : r.sent[k]? = some (i, m)
  after : r.sentAfter i (k + 1) = ms

theorem First.waits (h : First r i m ms k) : r.Waits k := by
  refine ⟨(i, m), h.sent, ?_⟩
  rw [h.after, h.queue]
  exact Nat.lt_succ_self _

/-- More than the rest of the queue was sent after an older message. -/
theorem First.lt_of_lt (h : First r i m ms n) (hk : k < n) :
    ms.length < (r.sentAfter i (k + 1)).length := by
  rw [← h.after]
  exact length_saidOf_drop_lt hk h.sent

/-- Less than the rest of the queue was sent after a newer message of the party. -/
theorem First.lt_of_gt (h : First r i m ms n) {a : Message ι ν τ} (hk : r.sent[k]? = some (i, a))
    (hn : n < k) : (r.sentAfter i (k + 1)).length < ms.length := by
  rw [← h.after]
  exact length_saidOf_drop_lt hn hk

/-- A message that is taken no longer waits. -/
theorem waits_pop_iff (h : First r i m ms n) : (r.pop i ms).Waits k ↔ r.Waits k ∧ k ≠ n := by
  constructor
  · rintro ⟨⟨j, a⟩, hget, hlt⟩
    replace hlt : (r.sentAfter j (k + 1)).length < ((r.pop i ms).queue j).length := hlt
    by_cases hj : j = i
    · subst hj
      rw [pop_queue_self] at hlt
      refine ⟨⟨(j, a), hget, ?_⟩, ?_⟩
      · rw [h.queue]
        exact Nat.lt_succ_of_lt hlt
      · rintro rfl
        rw [h.after] at hlt
        exact Nat.lt_irrefl _ hlt
    · rw [pop_queue_of_ne hj] at hlt
      refine ⟨⟨(j, a), hget, hlt⟩, ?_⟩
      rintro rfl
      exact hj (congrArg Prod.fst (Option.some.inj (hget.symm.trans h.sent)))
  · rintro ⟨⟨⟨j, a⟩, hget, hlt⟩, hne⟩
    replace hlt : (r.sentAfter j (k + 1)).length < (r.queue j).length := hlt
    refine ⟨(j, a), hget, ?_⟩
    show (r.sentAfter j (k + 1)).length < ((r.pop i ms).queue j).length
    by_cases hj : j = i
    · subst hj
      rw [h.queue] at hlt
      rw [pop_queue_self]
      rcases Nat.lt_or_gt_of_ne hne with hlt' | hgt
      · exact absurd (Nat.le_of_lt_succ hlt) (Nat.not_le_of_lt (h.lt_of_lt hlt'))
      · exact h.lt_of_gt hget hgt
    · rw [pop_queue_of_ne hj]
      exact hlt

end Steps

/-! ## The oldest message -/

/-- **The order invariant.**  The queues are the ends of what was sent, and a message that
waits is a member's, or a message that adds its sender waits before it. -/
structure Founded (r : Registry ι ν τ) : Prop where
  present : Present r
  suffix : ∀ i, r.queue i <:+ saidOf i r.sent
  founded : ∀ k i m, r.sent[k]? = some (i, m) → r.Waits k → r.member i ≠ none ∨
    ∃ j < k, ∃ q name, r.sent[j]? = some (q, .add i name) ∧ r.Waits j

section Founded
variable {r r' : Registry ι ν τ} {i : ι} {m : Message ι ν τ} {ms : List (Message ι ν τ)} {k n : Nat}

theorem Founded.exists_first (h : Founded r) (hq : r.queue i = m :: ms) :
    ∃ k, First r i m ms k := by
  obtain ⟨k, hk, hafter⟩ := exists_sent (hq ▸ h.suffix i)
  exact ⟨k, hq, hk, hafter⟩

/-- A message in a queue waits. -/
theorem Founded.exists_waits (h : Founded r) (hm : m ∈ r.queue i) :
    ∃ k, r.sent[k]? = some (i, m) ∧ r.Waits k := by
  obtain ⟨before, after, hq⟩ := List.append_of_mem hm
  have hend : m :: after <:+ saidOf i r.sent :=
    (List.suffix_append before _).trans (hq ▸ h.suffix i)
  obtain ⟨k, hk, hafter⟩ := exists_sent hend
  refine ⟨k, hk, (i, m), hk, ?_⟩
  have hrest : r.sentAfter i (k + 1) = after := hafter
  rw [hrest, hq, List.length_append, List.length_cons]
  omega

/-- A live party sends a message: if the party is not a member, what adds it is waiting. -/
theorem Founded.push (h : Founded r) (hi : r.live i = true) (hqueue : r'.queue = (r.push i m).queue)
    (hsent : r'.sent = (r.push i m).sent) (hmember : r'.member = r.member) (hp : Present r') :
    Founded r' := by
  have hwaits : ∀ k, r'.Waits k ↔ (r.push i m).Waits k := by
    intro k
    unfold Waits sentAfter
    rw [hqueue, hsent]
  have hsame : ∀ k < r.sent.length, r'.sent[k]? = r.sent[k]? := by
    intro k hk
    rw [hsent]
    exact List.getElem?_append_left hk
  refine ⟨hp, fun j => ?_, fun k j a hk hw => ?_⟩
  · rw [hqueue, hsent]
    show _ <:+ saidOf j (r.sent ++ [(i, m)])
    rw [saidOf_append]
    by_cases hj : j = i
    · rw [hj, push_queue_self, saidOf_cons_self]
      obtain ⟨before, heq⟩ := h.suffix i
      exact ⟨before, by rw [← heq, List.append_assoc]; rfl⟩
    · have hnil : saidOf j ([] : List (ι × Message ι ν τ)) = [] := rfl
      rw [push_queue_of_ne hj, saidOf_cons_of_ne (Ne.symm hj), hnil, List.append_nil]
      exact h.suffix j
  · rw [hmember]
    -- what was waiting before is waiting still
    have hlift : ∀ j < r.sent.length, ∀ x, r.sent[j]? = some x → r.Waits j →
        r'.sent[j]? = some x ∧ r'.Waits j := fun j hj x hx hw =>
      ⟨(hsame j hj).trans hx, (hwaits j).mpr ((waits_push_iff hj).mpr hw)⟩
    rcases Nat.lt_or_ge k r.sent.length with hlt | hge
    · have hw' : r.Waits k := (waits_push_iff hlt).mp ((hwaits k).mp hw)
      rcases h.founded k j a ((hsame k hlt).symm.trans hk) hw' with
        hmem | ⟨l, hl, q, name, hget, hwl⟩
      · exact .inl hmem
      · obtain ⟨hget', hwl'⟩ := hlift l (Nat.lt_trans hl hlt) _ hget hwl
        exact .inr ⟨l, hl, q, name, hget', hwl'⟩
    · -- the message just sent
      have hlen : r'.sent.length = r.sent.length + 1 := by
        rw [hsent]
        exact List.length_append
      have hk' : k < r'.sent.length := (List.getElem?_eq_some_iff.mp hk).1
      obtain rfl : k = r.sent.length := by omega
      have hlast : r'.sent[r.sent.length]? = some (i, m) := by
        rw [hsent]
        exact List.getElem?_concat_length
      obtain rfl : j = i := congrArg Prod.fst (Option.some.inj (hk.symm.trans hlast))
      by_cases hmem : r.member j = none
      · obtain ⟨q, hq⟩ := h.present.covered j hi hmem
        obtain ⟨b, hb, htarget⟩ := List.mem_filterMap.mp hq
        obtain ⟨l, hget, hwl⟩ := h.exists_waits hb
        have hl : l < r.sent.length := (List.getElem?_eq_some_iff.mp hget).1
        obtain ⟨hget', hwl'⟩ := hlift l hl _ hget hwl
        cases b with
        | add t name =>
          obtain rfl : t = j := Option.some.inj htarget
          exact .inr ⟨l, hl, q, name, hget', hwl'⟩
        | say text | rename name | leave | nop => cases htarget
      · exact .inl hmem

/-- The first message of a queue is taken.  If it adds a party, that is a member then, and
a party that is forgotten has no messages left. -/
theorem Founded.pop (h : Founded r) (hq : r.queue i = m :: ms)
    (hqueue : r'.queue = (r.pop i ms).queue) (hsent : r'.sent = r.sent)
    (hadds : ∀ t name, m = .add t name → r'.member t ≠ none)
    (hmember : ∀ j, r.member j ≠ none → r'.member j ≠ none ∨ r'.queue j = []) (hp : Present r') :
    Founded r' := by
  obtain ⟨n, hn⟩ := h.exists_first hq
  have hwaits : ∀ k, r'.Waits k ↔ r.Waits k ∧ k ≠ n := by
    intro k
    rw [← waits_pop_iff hn]
    unfold Waits sentAfter
    rw [hqueue, hsent]
    rfl
  refine ⟨hp, fun j => ?_, fun k j a hk hw => ?_⟩
  · rw [hqueue, hsent]
    by_cases hj : j = i
    · rw [hj, pop_queue_self]
      exact (List.suffix_cons m ms).trans (hq ▸ h.suffix i)
    · rw [pop_queue_of_ne hj]
      exact h.suffix j
  · obtain ⟨hw', hne⟩ := (hwaits k).mp hw
    rw [hsent] at hk ⊢
    rcases h.founded k j a hk hw' with hmem | ⟨l, hl, q, name, hget, hwl⟩
    · refine .inl ((hmember j hmem).resolve_right fun hnil => ?_)
      -- a message that waits is in its sender's queue
      obtain ⟨x, hx, hlt⟩ := hw
      rw [hsent] at hx
      obtain rfl : x = (j, a) := Option.some.inj (hx.symm.trans hk)
      have hlt : (r'.sentAfter j (k + 1)).length < (r'.queue j).length := hlt
      rw [hnil] at hlt
      exact Nat.not_lt_zero _ hlt
    · by_cases hln : l = n
      · -- the message that adds the sender is the one that was taken
        subst hln
        have hsame := Option.some.inj (hn.sent.symm.trans hget)
        exact .inl (hadds j name (congrArg Prod.snd hsame))
      · exact .inr ⟨l, hl, q, name, hget, (hwaits l).mpr ⟨hwl, hln⟩⟩

theorem Founded.start (root : ι) (name : ν) :
    Founded (Registry.start root name : Registry ι ν τ) where
  present := .start root name
  suffix _ := List.suffix_rfl
  founded k i m hk := by cases hk

theorem Founded.step (h : Founded r) (hs : Step r r') : Founded r' := by
  have hp := h.present.step hs
  cases hs with
  | send hi => exact h.push hi rfl rfl rfl hp
  | enter hi => exact h.push hi rfl rfl rfl hp
  | say _ hq => exact h.pop hq rfl rfl (fun _ _ hm => by cases hm) (fun _ => .inl) hp
  | @add i t n name ms _ hq =>
    have hkeeps : ∀ j, r.member j ≠ none →
        Function.update r.member t (some (name.getD n)) j ≠ none := by
      intro j hj
      by_cases hjt : j = t
      · rw [hjt, Function.update_self]
        exact Option.some_ne_none _
      · rw [Function.update_of_ne hjt]
        exact hj
    refine h.pop hq rfl rfl (fun u name' hm => ?_) (fun j hj => .inl (hkeeps j hj)) hp
    obtain rfl : t = u := (Message.add.inj hm).1
    show Function.update r.member t _ t ≠ none
    rw [Function.update_self]
    exact Option.some_ne_none _
  | @rename i n name ms _ hq =>
    refine h.pop hq rfl rfl (fun _ _ hm => by cases hm) (fun j hj => .inl ?_) hp
    show Function.update r.member i (some name) j ≠ none
    by_cases hji : j = i
    · rw [hji, Function.update_self]
      exact Option.some_ne_none _
    · rw [Function.update_of_ne hji]
      exact hj
  | @leave i n _ hq =>
    refine h.pop hq rfl rfl (fun _ _ hm => by cases hm) (fun j hj => ?_) hp
    by_cases hji : j = i
    · exact .inr (hji ▸ pop_queue_self)
    · refine .inl ?_
      show Function.update r.member i none j ≠ none
      rw [Function.update_of_ne hji]
      exact hj
  | nop _ hq => exact h.pop hq rfl rfl (fun _ _ hm => by cases hm) (fun _ => .inl) hp

theorem Founded.of_reachable {root : ι} {name : ν}
    (h : Relation.ReflTransGen Step (Registry.start root name) r) : Founded r := by
  induction h with
  | refl => exact .start root name
  | tail _ hs ih => exact ih.step hs

/-- The oldest message that waits. -/
structure Oldest (r : Registry ι ν τ) (k : Nat) : Prop where
  waits : r.Waits k
  least : ∀ j < k, ¬ r.Waits j

/-- **The oldest message is a member's**, and the first of its queue. -/
theorem Founded.oldest (h : Founded r) (hk : Oldest r k) :
    ∃ i m ms, First r i m ms k ∧ r.member i ≠ none := by
  obtain ⟨⟨i, m⟩, hget, hlt⟩ := hk.waits
  have hlt : (r.sentAfter i (k + 1)).length < (r.queue i).length := hlt
  cases hq : r.queue i with
  | nil =>
    rw [hq] at hlt
    cases hlt
  | cons m' ms =>
    obtain ⟨n, hn⟩ := h.exists_first hq
    have hkn : k = n := by
      rcases Nat.lt_trichotomy k n with hkn | hkn | hkn
      · have hless := hn.lt_of_lt hkn
        rw [hq, List.length_cons] at hlt
        omega
      · exact hkn
      · exact absurd hn.waits (hk.least n hkn)
    refine ⟨i, m', ms, hkn ▸ hn, ?_⟩
    rcases h.founded k i m hget hk.waits with hmem | ⟨j, hj, -, -, -, hw⟩
    · exact hmem
    · exact absurd hw (hk.least j hj)

theorem backlog_eq_zero_iff : r.backlog n = 0 ↔ ∀ k < n, ¬ r.Waits k := Nat.count_iff_forall_not

theorem exists_oldest (h : r.backlog n ≠ 0) : ∃ k < n, Oldest r k := by
  obtain ⟨k, hk, hw⟩ := Nat.count_ne_iff_exists.mp h
  have hsome : ∃ k, r.Waits k := ⟨k, hw⟩
  exact ⟨Nat.find hsome, Nat.lt_of_le_of_lt (Nat.find_min' hsome hw) hk, Nat.find_spec hsome,
    fun _ => Nat.find_min hsome⟩

/-- When nothing of the first `n` messages waits, a queue has only what its party has sent
since. -/
theorem Founded.length_queue_le (h : Founded r) (hzero : r.backlog n = 0) (i : ι) :
    (r.queue i).length ≤ (r.sentAfter i n).length := by
  by_contra hgt
  have hgt := Nat.lt_of_not_le hgt
  -- the last message of the queue that was sent before
  have hsplit := List.drop_eq_getElem_cons
    (show (r.queue i).length - (r.sentAfter i n).length - 1 < (r.queue i).length by omega)
  have hsuffix := (List.drop_suffix ((r.queue i).length - (r.sentAfter i n).length - 1)
    (r.queue i)).trans (h.suffix i)
  rw [hsplit] at hsuffix
  obtain ⟨k, hk, hafter⟩ := exists_sent hsuffix
  have hlen := congrArg List.length hafter
  rw [List.length_drop] at hlen
  have hw : r.Waits k := by
    refine ⟨_, hk, ?_⟩
    show (saidOf i (r.sent.drop (k + 1))).length < (r.queue i).length
    omega
  have hkn : k < n := by
    by_contra hle
    have hless := length_saidOf_drop_lt (Nat.le_of_not_lt hle) hk
    have hsame : (saidOf i (r.sent.drop n)).length = (r.sentAfter i n).length := rfl
    omega
  exact backlog_eq_zero_iff.mp hzero k hkn hw

end Founded

end Xtr.Registry
