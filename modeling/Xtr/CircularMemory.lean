import Mathlib.Logic.Function.Basic
import Mathlib.Data.List.Basic
import Mathlib.Data.Nat.ModEq

/-!
# Circular memory

A memory of `cap` cells mapped twice in a row: offset `i` and offset `i + cap`
are the same cell, so a region that runs past the end of the first mapping goes
on at its start.  Every access is at an offset taken modulo `cap`.

`window` reads consecutive cells and `store` writes them.  The two facts
everything else rests on are that a window reads back what was stored over it
(`window_store_self`), provided it is no longer than the memory, and that a
store leaves every window alone that ends before it and is less than one turn
away from its end (`window_store_of_disjoint`).
-/
namespace CircularMemory
variable {β : Type}

/-- `n` consecutive cells from offset `start`. -/
def window (mem : Nat → β) (cap start n : Nat) : List β :=
  (List.range n).map fun i => mem ((start + i) % cap)

/-- Write one cell. -/
def put (mem : Nat → β) (cap at' : Nat) (b : β) : Nat → β :=
  Function.update mem (at' % cap) b

/-- Write consecutive cells from offset `start`. -/
def store (mem : Nat → β) (cap start : Nat) : List β → Nat → β
  | [] => mem
  | b :: bs => store (put mem cap start b) cap (start + 1) bs

variable (mem : Nat → β) (cap : Nat)

@[simp] theorem window_length (start n : Nat) : (window mem cap start n).length = n := by
  simp [window]

@[simp] theorem window_zero (start : Nat) : window mem cap start 0 = [] := rfl

theorem window_getElem? (start n i : Nat) (h : i < n) :
    (window mem cap start n)[i]? = some (mem ((start + i) % cap)) := by
  simp [window, h]

theorem window_add (start n m : Nat) :
    window mem cap start (n + m) = window mem cap start n ++ window mem cap (start + n) m := by
  simp [window, List.range_add, Function.comp_def, Nat.add_assoc]

theorem window_succ (start n : Nat) :
    window mem cap start (n + 1) = mem (start % cap) :: window mem cap (start + 1) n := by
  rw [Nat.add_comm n 1, window_add]
  simp [window]

theorem window_take (start n m : Nat) (h : m ≤ n) :
    (window mem cap start n).take m = window mem cap start m := by
  obtain ⟨d, rfl⟩ := Nat.exists_eq_add_of_le h
  rw [window_add, List.take_left' (window_length ..)]

theorem window_drop (start n m : Nat) (h : m ≤ n) :
    (window mem cap start n).drop m = window mem cap (start + m) (n - m) := by
  obtain ⟨d, rfl⟩ := Nat.exists_eq_add_of_le h
  rw [window_add, List.drop_left' (window_length ..), Nat.add_sub_cancel_left]

/-- Offsets that differ by whole turns see the same cells. -/
theorem window_congr {a b : Nat} (h : a % cap = b % cap) (n : Nat) :
    window mem cap a n = window mem cap b n := by
  unfold window
  refine List.map_congr_left fun i _ => ?_
  rw [Nat.add_mod a, Nat.add_mod b, h]

theorem window_mod (a n : Nat) : window mem cap (a % cap) n = window mem cap a n :=
  window_congr mem cap (Nat.mod_mod a cap) n

/-- Two offsets less than one turn apart are different cells. -/
theorem mod_ne_of_lt {cap a b : Nat} (hab : a < b) (hb : b < a + cap) : a % cap ≠ b % cap := by
  intro h
  have hd : cap ∣ b - a := (Nat.modEq_iff_dvd' (Nat.le_of_lt hab)).mp h
  have := Nat.le_of_dvd (by omega) hd
  omega

variable {mem cap}

theorem put_of_ne {a b : Nat} (x : β) (h : a % cap ≠ b % cap) :
    put mem cap b x (a % cap) = mem (a % cap) := Function.update_of_ne h ..

theorem put_self (a : Nat) (x : β) : put mem cap a x (a % cap) = x := Function.update_self ..

/-- A write at an offset past a window, less than a turn from its start, does
not touch it. -/
theorem window_put_of_outside {start n a : Nat} (x : β) (h1 : start + n ≤ a)
    (h2 : a < start + cap) : window (put mem cap a x) cap start n = window mem cap start n := by
  unfold window
  refine List.map_congr_left fun i hi => ?_
  have hi := List.mem_range.mp hi
  exact put_of_ne x (mod_ne_of_lt (by omega) (by omega))

theorem window_store_of_disjoint {start n a : Nat} (xs : List β) (h1 : start + n ≤ a)
    (h2 : a + xs.length ≤ start + cap) :
    window (store mem cap a xs) cap start n = window mem cap start n := by
  induction xs generalizing mem a with
  | nil => rfl
  | cons x xs ih =>
    simp only [List.length_cons] at h2
    rw [store, ih (by omega) (by omega), window_put_of_outside x h1 (by omega)]

/-- **A window reads back what was stored over it.** -/
theorem window_store_self (a : Nat) (xs : List β) (h : xs.length ≤ cap) :
    window (store mem cap a xs) cap a xs.length = xs := by
  induction xs generalizing mem a with
  | nil => rfl
  | cons x xs ih =>
    simp only [List.length_cons] at h
    rw [List.length_cons, window_succ, store, ih _ (by omega)]
    congr 1
    have key : window (store (put mem cap a x) cap (a + 1) xs) cap a 1 =
        window (put mem cap a x) cap a 1 :=
      window_store_of_disjoint xs (Nat.le_refl _) (by omega)
    simpa [window, put_self] using key

theorem store_congr {a b : Nat} (h : a % cap = b % cap) (xs : List β) :
    store mem cap a xs = store mem cap b xs := by
  induction xs generalizing mem a b with
  | nil => rfl
  | cons x xs ih =>
    rw [store, store, put, put, h]
    exact ih (by rw [Nat.add_mod a, Nat.add_mod b, h])

end CircularMemory
