import Mathlib.Algebra.BigOperators.Ring.List
import Mathlib.Algebra.GroupWithZero.Nat
import Xtr.Machine

/-!
# Counting along runs

Rules for what a run of a machine does in so many steps: a number that each event may lower
(`run_countdown`), and a potential that pays for the costs of events, as long as none costs
more than it lowers the potential and what it gains (`run_amortized`).
-/
namespace Machine
variable {State Event : Type} {M : Machine State Event} {s s' : State} {es : List Event}

/-- **The countdown rule.**  What every step keeps, for a number that goes down by what the
event costs, a run keeps for the number less the sum of the costs. -/
theorem run_countdown {P : State → Nat → Prop} {cost : Event → Nat} {n : Nat}
    (hr : M.run s es = some s') (hp : P s n)
    (next : ∀ s e s' n, P s n → M.step s e = some s' → P s' (n - cost e)) :
    P s' (n - (es.map cost).sum) := by
  induction es generalizing s n with
  | nil => exact Option.some.inj hr ▸ hp
  | cons e es ih =>
    obtain ⟨t, ht, hr⟩ := Option.bind_eq_some_iff.mp hr
    rw [List.map_cons, List.sum_cons, ← Nat.sub_sub]
    exact ih hr (next s e t n hp ht)

/-- What the events of a run keep. -/
theorem run_keeps (I : State → Prop) (hr : M.run s es = some s') (hi : I s)
    (next : ∀ e ∈ es, ∀ s s', I s → M.step s e = some s' → I s') : I s' := by
  induction es generalizing s with
  | nil => exact Option.some.inj hr ▸ hi
  | cons e es ih =>
    obtain ⟨t, ht, hr⟩ := Option.bind_eq_some_iff.mp hr
    exact ih hr (next e List.mem_cons_self s t hi ht) fun e he => next e (List.mem_cons_of_mem _ he)

/-- **The potential rule.**  If an event never costs more than it lowers the potential and
what it gains, neither does a run. -/
theorem run_amortized (I : State → Prop) (potential : State → Nat) (cost gain : Event → Nat)
    (hr : M.run s es = some s') (hi : I s) (next : ∀ e ∈ es, ∀ s s', I s →
      M.step s e = some s' → I s' ∧ cost e + potential s' ≤ potential s + gain e) :
    I s' ∧ (es.map cost).sum + potential s' ≤ potential s + (es.map gain).sum := by
  induction es generalizing s with
  | nil =>
    obtain rfl := Option.some.inj hr
    exact ⟨hi, Nat.le_of_eq (Nat.add_comm ..)⟩
  | cons e es ih =>
    obtain ⟨t, ht, hr⟩ := Option.bind_eq_some_iff.mp hr
    obtain ⟨hit, hfirst⟩ := next e List.mem_cons_self s t hi ht
    obtain ⟨hi', hrest⟩ := ih hr hit fun e he => next e (List.mem_cons_of_mem _ he)
    refine ⟨hi', ?_⟩
    simp only [List.map_cons, List.sum_cons]
    omega

end Machine
