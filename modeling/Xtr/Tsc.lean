import Mathlib.Data.UInt

/-!
# The frequency of the time stamp counter

`read_tsc_hz` of `tsc.cpp` and `get_family_model` of `cpuid.hpp`, over what the `cpuid`
instruction answers.  Leaf 0x15 gives the frequency of the core crystal clock and the ratio
of the counter to it.  The frequency may be missing, and is then taken from a table of
models; the ratio may be missing too, and then all of it is zero.

A division by zero traps, which `none` stands for.
-/
namespace Xtr.Tsc

/-- The registers after `cpuid`. -/
structure Registers where
  eax : UInt32
  ebx : UInt32
  ecx : UInt32
  edx : UInt32
  deriving DecidableEq

/-- What `cpuid` answers for each leaf, with subleaf 0. -/
abbrev Cpuid := UInt32 → Registers

/-- `get_family_model`. -/
def getFamilyModel (cpuid : Cpuid) : UInt16 × UInt16 :=
  let fms := (cpuid 0x1).eax
  let model := ((fms &&& 0xF0) >>> 4).toUInt16
  let family := ((fms &&& 0xF00) >>> 8).toUInt16
  let family := if family = 0xF then family ||| ((fms &&& 0xFF00000) >>> 16).toUInt16 else family
  let model := if family = 0x6 ∨ family = 0xF then
    model ||| ((fms &&& 0xF0000) >>> 12).toUInt16 else model
  (family, model)

/-- The `switch` over the model: the frequency of its crystal, if it is known. -/
def crystalHz (model : UInt16) : Option UInt32 :=
  if model ∈ [0x4E, 0x5E, 0x8E, 0x9E, 0xA6, 0xA5] then some 24000000
  else if model ∈ [0x86, 0x5F] then some 25000000
  else if model ∈ [0x5C, 0x7A] then some 19200000
  else none

def tscLeaf : UInt32 := 0x15

/-- `ccc_hz` where it is used. -/
def cccHz (cpuid : Cpuid) : Option UInt32 :=
  let ecx := (cpuid tscLeaf).ecx
  if ecx = 0 then crystalHz (getFamilyModel cpuid).2 else some ecx

/-- The division of 64-bit integers. -/
def divide (n d : UInt64) : Option UInt64 := if d = 0 then none else some (n / d)

/-- `read_tsc_hz`. -/
def readTscHz (cpuid : Cpuid) : Option UInt64 :=
  if (cpuid 0).eax < tscLeaf then some 0
  else match cccHz cpuid with
    | none => some 0
    | some ccc =>
      let leaf := cpuid tscLeaf
      divide (ccc.toUInt64 * leaf.ebx.toUInt64) leaf.eax.toUInt64

/-- `get_tsc_hz`, where `estimate` is what `estimate_tsc_hz` returns. -/
def getTscHz (cpuid : Cpuid) (estimate : UInt64) : Option UInt64 :=
  (readTscHz cpuid).map fun hz => if hz ≠ 0 then hz else estimate

/-- Two 32-bit factors have a 64-bit product. -/
theorem toNat_mul_toUInt64 (a b : UInt32) :
    a.toNat * b.toNat < 2 ^ 64 ∧ (a.toUInt64 * b.toUInt64).toNat = a.toNat * b.toNat := by
  have hlt : a.toNat * b.toNat < 2 ^ 64 := by
    calc a.toNat * b.toNat < 2 ^ 32 * 2 ^ 32 :=
          Nat.mul_lt_mul_of_lt_of_lt a.toNat_lt b.toNat_lt
      _ = 2 ^ 64 := by decide
  refine ⟨hlt, ?_⟩
  rw [UInt64.toNat_mul, UInt32.toNat_toUInt64, UInt32.toNat_toUInt64, Nat.mod_eq_of_lt hlt]

theorem toUInt64_eq_zero (a : UInt32) : a.toUInt64 = 0 ↔ a = 0 := by
  rw [← UInt64.toNat_inj, ← UInt32.toNat_inj, UInt32.toNat_toUInt64]
  rfl

/-- The division with a ratio that is not zero over zero. -/
theorem divide_of_ne_zero {ccc num den : UInt32} (h : den ≠ 0) :
    ∃ hz, divide (ccc.toUInt64 * num.toUInt64) den.toUInt64 = some hz ∧
      hz.toNat = ccc.toNat * num.toNat / den.toNat := by
  refine ⟨_, if_neg (mt (toUInt64_eq_zero den).mp h), ?_⟩
  rw [UInt64.toNat_div, (toNat_mul_toUInt64 ccc num).2, UInt32.toNat_toUInt64]

/-- `read_tsc_hz` does what it is for: it returns zero, and the frequency is estimated, or
the exact quotient, rounded down, for a ratio that is not zero; nothing overflows. -/
def Safe (cpuid : Cpuid) : Prop :=
  ∃ hz, readTscHz cpuid = some hz ∧
    ((hz = 0 ∧ ∀ estimate, getTscHz cpuid estimate = some estimate) ∨
      ∃ ccc, cccHz cpuid = some ccc ∧
        (cpuid tscLeaf).eax ≠ 0 ∧ (cpuid tscLeaf).ebx ≠ 0 ∧
        ccc.toNat * (cpuid tscLeaf).ebx.toNat < 2 ^ 64 ∧
        hz.toNat = ccc.toNat * (cpuid tscLeaf).ebx.toNat / (cpuid tscLeaf).eax.toNat)

variable {cpuid : Cpuid}

theorem safe_of_zero (h : readTscHz cpuid = some 0) : Safe cpuid := by
  refine ⟨0, h, .inl ⟨rfl, fun estimate => ?_⟩⟩
  rw [getTscHz, h]
  rfl

/-- **When `read_tsc_hz` is safe**: the leaf is not there, its denominator is not zero, or
the crystal's frequency is neither reported nor in the table. -/
theorem read_tsc_hz_safe_iff (cpuid : Cpuid) :
    Safe cpuid ↔ (cpuid 0).eax < tscLeaf ∨ (cpuid tscLeaf).eax ≠ 0 ∨
      ((cpuid tscLeaf).ecx = 0 ∧ crystalHz (getFamilyModel cpuid).2 = none) := by
  by_cases hleaf : (cpuid 0).eax < tscLeaf
  · exact iff_of_true (safe_of_zero (if_pos hleaf)) (.inl hleaf)
  cases hccc : cccHz cpuid with
  | none =>
    have hzero : readTscHz cpuid = some 0 := by
      rw [readTscHz, if_neg hleaf, hccc]
    refine iff_of_true (safe_of_zero hzero) (.inr (.inr ?_))
    by_cases hecx : (cpuid tscLeaf).ecx = 0
    · rw [cccHz, if_pos hecx] at hccc
      exact ⟨hecx, hccc⟩
    · rw [cccHz, if_neg hecx] at hccc
      cases hccc
  | some ccc =>
    have hread : readTscHz cpuid = divide (ccc.toUInt64 * (cpuid tscLeaf).ebx.toUInt64)
        (cpuid tscLeaf).eax.toUInt64 := by
      rw [readTscHz, if_neg hleaf, hccc]
    by_cases hden : (cpuid tscLeaf).eax = 0
    · -- the division traps
      have htrap : readTscHz cpuid = none := by
        rw [hread, divide, if_pos ((toUInt64_eq_zero _).mpr hden)]
      refine iff_of_false ?_ ?_
      · rintro ⟨hz, hsome, -⟩
        rw [htrap] at hsome
        cases hsome
      · rintro (h | h | ⟨hecx, hnone⟩)
        · exact hleaf h
        · exact h hden
        · rw [cccHz, if_pos hecx, hnone] at hccc
          cases hccc
    · refine iff_of_true ?_ (.inr (.inl hden))
      obtain ⟨hz, hsome, hval⟩ := @divide_of_ne_zero ccc (cpuid tscLeaf).ebx _ hden
      rw [← hread] at hsome
      by_cases hnum : (cpuid tscLeaf).ebx = 0
      · rw [hnum, UInt32.toNat_zero, Nat.mul_zero, Nat.zero_div] at hval
        obtain rfl : hz = 0 := UInt64.toNat_inj.mp hval
        exact safe_of_zero hsome
      · exact ⟨hz, hsome, .inr ⟨ccc, hccc, hden, hnum, (toNat_mul_toUInt64 ccc _).1, hval⟩⟩

/-- A virtual machine on a Skylake host whose hypervisor reports leaf 0x15 as all zero. -/
def zeroLeaf : Cpuid := fun leaf =>
  if leaf = 0 then ⟨0x16, 0, 0, 0⟩ else if leaf = 1 then ⟨0x506E3, 0, 0, 0⟩ else ⟨0, 0, 0, 0⟩

/-- The crystal's frequency comes from the table, and the division by the ratio traps. -/
theorem read_tsc_hz_traps : cccHz zeroLeaf = some 24000000 ∧ readTscHz zeroLeaf = none ∧
    ¬ Safe zeroLeaf := by
  have htrap : readTscHz zeroLeaf = none := by decide +kernel
  refine ⟨by decide +kernel, htrap, ?_⟩
  rintro ⟨hz, hsome, -⟩
  rw [htrap] at hsome
  cases hsome

/-- A processor with a crystal of 24 MHz and a ratio of 168 to 2. -/
example : readTscHz (fun leaf => if leaf = 0 then ⟨0x16, 0, 0, 0⟩ else ⟨2, 168, 24000000, 0⟩) =
    some 2016000000 := by decide +kernel

end Xtr.Tsc
