import Mathlib.Algebra.Order.Ring.Nat
import Mathlib.Data.List.Basic

/-!
# Objects as bytes

How a little-endian machine lays out the objects it sends: numbers of a fixed width,
lowest byte first, at fixed offsets, with padding between them that holds whatever was
there (`memory`).  What is written in a field is read back from its offset
(`slice_append`), whatever comes before and after it.
-/
namespace Wire

/-- The `n` lowest bytes of a number. -/
def word (n v : Nat) : List UInt8 := (List.range n).map fun k => UInt8.ofNat (v / 256 ^ k)

/-- The number that bytes stand for. -/
def value (bytes : List UInt8) : Nat := bytes.foldr (fun b n => b.toNat + 256 * n) 0

/-- A 32-bit integer in two's complement. -/
def int (bytes : List UInt8) : Int := (BitVec.ofNat 32 (value bytes)).toInt

def ofInt (n : Int) : List UInt8 := word 4 (BitVec.ofInt 32 n).toNat

/-- The `n` bytes at an offset. -/
def slice (bytes : List UInt8) (offset n : Nat) : List UInt8 := (bytes.drop offset).take n

/-- The `n` bytes of a memory at an offset. -/
def memory (mem : Nat → UInt8) (offset n : Nat) : List UInt8 :=
  (List.range n).map fun k => mem (offset + k)

@[simp] theorem length_word (n v : Nat) : (word n v).length = n := by
  rw [word, List.length_map, List.length_range]

@[simp] theorem length_ofInt (n : Int) : (ofInt n).length = 4 := length_word 4 _

@[simp] theorem length_memory (mem : Nat → UInt8) (offset n : Nat) :
    (memory mem offset n).length = n := by
  rw [memory, List.length_map, List.length_range]

/-- The lowest byte comes first. -/
theorem word_succ (n v : Nat) : word (n + 1) v = UInt8.ofNat v :: word n (v / 256) := by
  rw [word, List.range_succ_eq_map, List.map_cons, List.map_map, Nat.pow_zero, Nat.div_one]
  refine congrArg _ (List.map_congr_left fun k _ => ?_)
  show UInt8.ofNat (v / 256 ^ (k + 1)) = UInt8.ofNat (v / 256 / 256 ^ k)
  rw [Nat.div_div_eq_div_mul, Nat.pow_succ, Nat.mul_comm]

/-- **What is read back of a number** is what the bytes have room for. -/
theorem value_word (n v : Nat) : value (word n v) = v % 256 ^ n := by
  induction n generalizing v with
  | zero => exact (Nat.mod_one v).symm
  | succ n ih =>
    rw [word_succ]
    show (UInt8.ofNat v).toNat + 256 * value (word n (v / 256)) = v % 256 ^ (n + 1)
    rw [ih, UInt8.toNat_ofNat']
    have hpow : 256 ^ (n + 1) = 256 * 256 ^ n := by rw [Nat.pow_succ, Nat.mul_comm]
    rw [hpow, Nat.mod_mul]

/-- A number that fits is read back. -/
theorem value_word_of_lt {n v : Nat} (h : v < 256 ^ n) : value (word n v) = v := by
  rw [value_word, Nat.mod_eq_of_lt h]

/-- An integer that fits is read back. -/
theorem int_ofInt {n : Int} (hlo : -2 ^ 31 ≤ n) (hhi : n < 2 ^ 31) : int (ofInt n) = n := by
  have hlt : (BitVec.ofInt 32 n).toNat < 256 ^ 4 := (BitVec.ofInt 32 n).isLt
  rw [int, ofInt, value_word_of_lt hlt, BitVec.ofNat_toNat, BitVec.setWidth_eq, BitVec.toInt_ofInt]
  exact Int.bmod_eq_of_le (by omega) (by omega)

/-- **A field is read back**, from where it was written. -/
theorem slice_append {before field : List UInt8} {offset n : Nat} (after : List UInt8)
    (hoffset : before.length = offset) (hn : field.length = n) :
    slice (before ++ (field ++ after)) offset n = field := by
  rw [slice, ← hoffset, List.drop_left, ← hn, List.take_left]

/-- The last field. -/
theorem slice_last {before field : List UInt8} {offset n : Nat} (hoffset : before.length = offset)
    (hn : field.length = n) : slice (before ++ field) offset n = field := by
  rw [slice, ← hoffset, List.drop_left, ← hn, List.take_length]

end Wire
