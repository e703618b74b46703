import Mathlib.Algebra.Group.Nat.Defs
import Mathlib.Data.Nat.Log
import Mathlib.Algebra.Order.Group.Unbundled.Int

/-!
# Alignment

`align(value, alignment)` of `detail/align.hpp` adds `alignment - 1` and masks the
low bits off.  `alignBits` is that expression on 64-bit words; `align` is
rounding up to a multiple, which it computes when the alignment is a power of
two and the sum does not overflow (`alignBits_toNat`).  Addresses and sizes below
use `align`.
-/
namespace Xtr

/-- `std::has_single_bit` on a 64-bit size. -/
def HasSingleBit (n : Nat) : Prop := ∃ k, k < 64 ∧ n = 2 ^ k

theorem hasSingleBit_1 : HasSingleBit 1 := ⟨0, by decide, rfl⟩

theorem hasSingleBit_8 : HasSingleBit 8 := ⟨3, by decide, rfl⟩

theorem HasSingleBit.pos {n : Nat} (h : HasSingleBit n) : 0 < n := by
  obtain ⟨k, -, rfl⟩ := h
  exact Nat.two_pow_pos k

theorem HasSingleBit.le {n : Nat} (h : HasSingleBit n) : n ≤ 2 ^ 63 := by
  obtain ⟨k, hk, rfl⟩ := h
  exact Nat.pow_le_pow_right (by decide) (by omega)

theorem HasSingleBit.dvd_of_le {m n : Nat} (hm : HasSingleBit m) (hn : HasSingleBit n)
    (h : m ≤ n) : m ∣ n := by
  obtain ⟨j, -, rfl⟩ := hm
  obtain ⟨k, -, rfl⟩ := hn
  exact Nat.pow_dvd_pow 2 ((Nat.pow_le_pow_iff_right (by decide)).mp h)

/-- `align` as written: `(value + (alignment - 1)) & ~(alignment - 1)`. -/
def alignBits (value alignment : UInt64) : UInt64 :=
  (value + (alignment - 1)) &&& ~~~(alignment - 1)

/-- `value` rounded up to a multiple of `alignment`. -/
def align (value alignment : Nat) : Nat :=
  (value + (alignment - 1)) / alignment * alignment

theorem le_align {value alignment : Nat} (h : 0 < alignment) : value ≤ align value alignment := by
  unfold align
  have h1 := Nat.div_add_mod (value + (alignment - 1)) alignment
  have h2 := Nat.mod_lt (value + (alignment - 1)) h
  rw [Nat.mul_comm] at h1
  omega

theorem align_lt {value alignment : Nat} (h : 0 < alignment) :
    align value alignment < value + alignment := by
  unfold align
  have h1 := Nat.div_mul_le_self (value + (alignment - 1)) alignment
  omega

theorem dvd_align (value alignment : Nat) : alignment ∣ align value alignment :=
  ⟨_, Nat.mul_comm _ _⟩

/-- The value is unchanged if it is already aligned. -/
theorem align_of_dvd {value alignment : Nat} (h : 0 < alignment) (hd : alignment ∣ value) :
    align value alignment = value := by
  obtain ⟨q, rfl⟩ := hd
  unfold align
  rw [Nat.add_comm, Nat.add_mul_div_left _ _ h, Nat.div_eq_of_lt (by omega), Nat.zero_add,
    Nat.mul_comm]

/-- Rounding up stops at the first multiple: it does not pass an aligned bound. -/
theorem align_le_of_dvd {value alignment bound : Nat} (h : 0 < alignment)
    (hd : alignment ∣ bound) (hle : value ≤ bound) : align value alignment ≤ bound := by
  obtain ⟨q, rfl⟩ := hd
  obtain ⟨p, hp⟩ := dvd_align value alignment
  have hlt : align value alignment < value + alignment := align_lt h
  rw [hp] at hlt ⊢
  have : alignment * p < alignment * (q + 1) := by rw [Nat.mul_succ]; omega
  exact Nat.mul_le_mul_left _ (Nat.lt_succ_iff.mp (Nat.lt_of_mul_lt_mul_left this))

/-- Clearing the low `k` bits of a word rounds it down to a multiple of `2 ^ k`. -/
theorem toNat_and_not_mask {x m : UInt64} {k : Nat} (hk : k < 64) (hm : m.toNat = 2 ^ k - 1) :
    (x &&& ~~~m).toNat = x.toNat / 2 ^ k * 2 ^ k := by
  have hmask : UInt64.size - 1 - (2 ^ k - 1) = (2 ^ (64 - k) - 1) * 2 ^ k := by
    have hpos := Nat.two_pow_pos k
    rw [Nat.sub_mul, ← Nat.pow_add, Nat.sub_add_cancel (Nat.le_of_lt hk), Nat.one_mul]
    unfold UInt64.size
    omega
  refine Nat.eq_of_testBit_eq fun i => ?_
  rw [UInt64.toNat_and, UInt64.toNat_not, hm, hmask, Nat.testBit_and, Nat.testBit_mul_two_pow,
    Nat.testBit_mul_two_pow, Nat.testBit_div_two_pow, Nat.testBit_two_pow_sub_one]
  by_cases hki : k ≤ i
  · rw [Nat.sub_add_cancel hki]
    by_cases hi : i < 64
    · simp [hki, show i - k < 64 - k by omega]
    · -- bits past the word are clear on both sides
      have hx : x.toNat.testBit i = false := Nat.testBit_lt_two_pow
        (Nat.lt_of_lt_of_le x.toNat_lt (Nat.pow_le_pow_right (by decide) (by omega)))
      simp [hx]
  · simp [hki]

/-- **The mask computes `align`**, for an alignment that is a power of two, when
the sum fits in a word. -/
theorem alignBits_toNat {value alignment : UInt64} (h : HasSingleBit alignment.toNat)
    (hfit : value.toNat + (alignment.toNat - 1) < 2 ^ 64) :
    (alignBits value alignment).toNat = align value.toNat alignment.toNat := by
  obtain ⟨k, hk, ha⟩ := h
  have hpos := Nat.two_pow_pos k
  have hsub : (alignment - 1).toNat = 2 ^ k - 1 := by
    rw [UInt64.toNat_sub_of_le _ _ (by rw [UInt64.le_iff_toNat_le, ha]; exact hpos), ha]; rfl
  unfold alignBits align
  rw [toNat_and_not_mask hk hsub, UInt64.toNat_add, hsub, Nat.mod_eq_of_lt (by omega), ha]

end Xtr
