import Mathlib.Data.List.Basic
import Mathlib.Data.List.Perm.Basic

/-!
# Removal by a swap with the last element

`swap(v[i], v.back()); v.pop_back()` removes the element at `i` of a vector without
moving the others up: the last one takes its place.  Seen from a loop that is at `i`, the
elements before `i` stay where they are, and those behind it are the same ones with the
last of them first (`swapRemove_append_cons`).

A loop over a vector that appends elements and removes the one it is at, without moving
its index on, examines every element once (`Sweep`).
-/
namespace SwapRemove
variable {α : Type}

/-- The vector without the element at `i`. -/
def swapRemove (xs : List α) (i : Nat) : List α :=
  match xs.getLast? with
  | none => xs
  | some back => (xs.set i back).dropLast

/-- The last element first. -/
def backFirst (xs : List α) : List α :=
  match xs.getLast? with
  | none => []
  | some back => back :: xs.dropLast

theorem backFirst_concat (xs : List α) (back : α) : backFirst (xs ++ [back]) = back :: xs := by
  rw [backFirst, List.getLast?_concat]
  simp only [List.dropLast_concat]

theorem backFirst_perm (xs : List α) : (backFirst xs).Perm xs := by
  rcases List.eq_nil_or_concat xs with rfl | ⟨init, back, rfl⟩
  · exact .nil
  · rw [List.concat_eq_append, backFirst_concat]
    exact (List.perm_append_singleton back init).symm

@[simp] theorem length_backFirst (xs : List α) : (backFirst xs).length = xs.length :=
  (backFirst_perm xs).length_eq

theorem set_append_cons (before : List α) (x y : α) (after : List α) :
    (before ++ x :: after).set before.length y = before ++ y :: after := by
  rw [List.set_append_right _ _ (Nat.le_refl _), Nat.sub_self, List.set_cons_zero]

/-- **What a loop at the removed element sees.** -/
theorem swapRemove_append_cons (before : List α) (x : α) (after : List α) :
    swapRemove (before ++ x :: after) before.length = before ++ backFirst after := by
  rcases List.eq_nil_or_concat after with rfl | ⟨init, back, rfl⟩
  · rw [swapRemove, List.getLast?_concat]
    -- a self-swap
    show ((before ++ [x]).set before.length x).dropLast = _
    rw [set_append_cons, List.dropLast_concat]
    simp [backFirst]
  · rw [List.concat_eq_append, backFirst_concat, swapRemove, ← List.cons_append,
      ← List.append_assoc, List.getLast?_concat]
    show ((before ++ x :: init ++ [back]).set before.length back).dropLast = _
    rw [List.append_assoc, List.cons_append, set_append_cons, ← List.cons_append,
      ← List.append_assoc, List.dropLast_concat]

/-- A list at one of its indices. -/
theorem exists_split {xs : List α} {i : Nat} {x : α} (h : xs[i]? = some x) :
    ∃ before after, xs = before ++ x :: after ∧ before.length = i := by
  obtain ⟨hi, rfl⟩ := List.getElem?_eq_some_iff.mp h
  refine ⟨xs.take i, xs.drop (i + 1), ?_, List.length_take_of_le (Nat.le_of_lt hi)⟩
  rw [← List.drop_eq_getElem_cons hi, List.take_append_drop]

/-- **The element at `i` is removed, and no other.** -/
theorem perm_cons_swapRemove {xs : List α} {i : Nat} {x : α} (h : xs[i]? = some x) :
    xs.Perm (x :: swapRemove xs i) := by
  obtain ⟨before, after, rfl, rfl⟩ := exists_split h
  rw [swapRemove_append_cons]
  have hback : (before ++ backFirst after).Perm (before ++ after) :=
    (backFirst_perm after).append_left before
  exact List.perm_middle.trans (hback.symm.cons x)

/-! ## Sweeps -/

/-- **A loop is at index `i` of the vector `xs`**, which was `start`.  It has examined the
elements `examined` and appended `added`; of those it examined `kept` are still there, as
they are now, and `todo` are those it has not come to. -/
structure Sweep (start examined added kept todo xs : List α) (i : Nat) : Prop where
  vector : xs = kept ++ todo
  index : i = kept.length
  once : (examined ++ todo).Perm (start ++ added)

section Sweep
variable {start examined added kept todo xs : List α} {i : Nat} {x : α}

theorem Sweep.begin (xs : List α) : Sweep xs [] [] [] xs xs 0 :=
  ⟨rfl, rfl, by rw [List.nil_append, List.append_nil]⟩

theorem Sweep.examine (h : Sweep start examined added kept (x :: todo) xs i) (new : List α) :
    ((examined ++ [x]) ++ (todo ++ new)).Perm (start ++ (added ++ new)) := by
  have hnew := h.once.append_right new
  rw [List.append_assoc, List.append_assoc] at hnew
  rw [List.append_assoc]
  exact hnew

/-- The element is changed, others are appended, and the index moves on. -/
theorem Sweep.keep (h : Sweep start examined added kept (x :: todo) xs i) (x' : α)
    (new : List α) : Sweep start (examined ++ [x]) (added ++ new) (kept ++ [x']) (todo ++ new)
      (kept ++ x' :: (todo ++ new)) (i + 1) where
  vector := by rw [List.append_assoc, List.singleton_append]
  index := by rw [List.length_append, List.length_singleton, h.index]
  once := h.examine new

/-- Others are appended, the element is removed, and the index stays. -/
theorem Sweep.remove (h : Sweep start examined added kept (x :: todo) xs i) (x' : α)
    (new : List α) : Sweep start (examined ++ [x]) (added ++ new) kept (backFirst (todo ++ new))
      (swapRemove (kept ++ x' :: (todo ++ new)) i) i where
  vector := by rw [h.index, swapRemove_append_cons]
  index := h.index
  once := ((backFirst_perm (todo ++ new)).append_left (examined ++ [x])).trans (h.examine new)

/-- At the end of the vector every element has been examined once. -/
theorem Sweep.finish (h : Sweep start examined added kept [] xs i) :
    xs = kept ∧ examined.Perm (start ++ added) := by
  obtain ⟨hvector, -, honce⟩ := h
  rw [List.append_nil] at hvector honce
  exact ⟨hvector, honce⟩

end Sweep

end SwapRemove
