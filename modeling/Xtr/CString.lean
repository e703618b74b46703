import Mathlib.Data.List.Basic
import Mathlib.Data.List.TakeWhile

/-!
# Strings

`std::string`s are lists of bytes and may hold any byte.  A `const char*` stands for the
bytes up to the first zero.
-/
namespace Xtr

abbrev Str := List UInt8

/-- A string literal. -/
def text (s : String) : Str := s.toUTF8.toList

/-- The characters before the terminator: the first `strlen(str)` of them. -/
def cStr (mem : Str) : Str := mem.takeWhile (· ≠ 0)

/-- `strzcpy` into a zeroed array of `n` bytes. -/
def strzcpy (n : Nat) (src : Str) : Str :=
  src.take (n - 1) ++ List.replicate (n - min (n - 1) src.length) 0

theorem length_strzcpy (n : Nat) (src : Str) : (strzcpy n src).length = n := by
  rw [strzcpy, List.length_append, List.length_take, List.length_replicate]
  omega

/-- What stands behind a zero is not read. -/
theorem cStr_append_zero (xs ys : Str) : cStr (xs ++ 0 :: ys) = cStr xs := by
  induction xs with
  | nil => rfl
  | cons x xs ih =>
    simp only [cStr, List.cons_append, List.takeWhile_cons] at ih ⊢
    rw [ih]

/-- A string without a zero is what its terminator ends. -/
theorem cStr_append_of_not_mem {bytes : Str} (h : 0 ∉ bytes) (rest : Str) :
    cStr (bytes ++ 0 :: rest) = bytes := by
  rw [cStr_append_zero, cStr, List.takeWhile_eq_self_iff]
  intro b hb
  have hne : b ≠ 0 := by
    rintro rfl
    exact h hb
  simpa using hne

/-- What is copied is always terminated: it reads back as the text, cut to fit. -/
theorem cStr_strzcpy {n : Nat} (hn : 0 < n) (src : Str) :
    cStr (strzcpy n src) = cStr (src.take (n - 1)) := by
  obtain ⟨k, hk⟩ : ∃ k, n - min (n - 1) src.length = k + 1 :=
    Nat.exists_eq_succ_of_ne_zero (by omega)
  rw [strzcpy, hk, List.replicate_succ, cStr_append_zero]

end Xtr
