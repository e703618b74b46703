import Mathlib.Data.List.Basic

/-!
# Files written at explicit offsets

A file is its bytes and its size.  `pwrite` stores bytes at an offset: it grows the
file to the end of what is written and leaves every byte outside the written
range alone; a gap it leaves reads as zero.  Writing nothing changes nothing.

Adjacent writes merge (`pwrite_append`), and a write of bytes the file already
holds does not show (`pwrite_data_of_agree`).  A file that is only written at its end
is what it was, followed by what was written (`contents_append`).
-/

/-- A file: the byte at every offset, zero past the end, and the size. -/
@[ext] structure SparseFile where
  data : Nat → UInt8
  size : Nat

namespace SparseFile

/-- A file that was just created. -/
def empty : SparseFile := ⟨fun _ => 0, 0⟩

/-- `pwrite(2)`, all of it. -/
def pwrite (f : SparseFile) (off : Nat) (bytes : List UInt8) : SparseFile where
  data x := if off ≤ x ∧ x < off + bytes.length then bytes.getD (x - off) 0 else f.data x
  size := if bytes = [] then f.size else max f.size (off + bytes.length)

/-- `pread(2)` of a range. -/
def pread (f : SparseFile) (off n : Nat) : List UInt8 :=
  (List.range n).map fun k => f.data (off + k)

variable {f : SparseFile} {off x : Nat} {bytes : List UInt8}

theorem pwrite_data_of_outside (h : x < off ∨ off + bytes.length ≤ x) :
    (f.pwrite off bytes).data x = f.data x :=
  if_neg fun hin => by omega

theorem pwrite_data_of_inside {k : Nat} (h : k < bytes.length) :
    (f.pwrite off bytes).data (off + k) = bytes.getD k 0 := by
  have hin : off ≤ off + k ∧ off + k < off + bytes.length := by omega
  show (if _ then _ else _) = _
  rw [if_pos hin, Nat.add_sub_cancel_left]

@[simp] theorem pwrite_nil : f.pwrite off [] = f := by
  refine SparseFile.ext (funext fun x => ?_) rfl
  exact pwrite_data_of_outside (by rw [List.length_nil]; omega)

theorem size_le_pwrite : f.size ≤ (f.pwrite off bytes).size := by
  show _ ≤ if _ then _ else _
  split
  · exact Nat.le_refl _
  · exact Nat.le_max_left _ _

theorem end_le_pwrite (h : bytes ≠ []) : off + bytes.length ≤ (f.pwrite off bytes).size := by
  show _ ≤ if _ then _ else _
  rw [if_neg h]
  exact Nat.le_max_right _ _

theorem pwrite_size_le {n : Nat} (hf : f.size ≤ n) (h : bytes ≠ [] → off + bytes.length ≤ n) :
    (f.pwrite off bytes).size ≤ n := by
  show (if _ then _ else _) ≤ n
  split
  · exact hf
  · rename_i hne
    exact Nat.max_le.mpr ⟨hf, h hne⟩

/-- Two adjacent writes are one. -/
theorem pwrite_append (f : SparseFile) (off : Nat) (xs ys : List UInt8) :
    (f.pwrite off xs).pwrite (off + xs.length) ys = f.pwrite off (xs ++ ys) := by
  refine SparseFile.ext (funext fun x => ?_) ?_
  · by_cases hy : off + xs.length ≤ x ∧ x < off + xs.length + ys.length
    · obtain ⟨k, rfl⟩ := Nat.exists_eq_add_of_le hy.1
      rw [pwrite_data_of_inside (by omega), Nat.add_assoc,
        pwrite_data_of_inside (by rw [List.length_append]; omega), List.getD_eq_getElem?_getD,
        List.getD_eq_getElem?_getD, List.getElem?_append_right (Nat.le_add_right _ _),
        Nat.add_sub_cancel_left]
    · rw [pwrite_data_of_outside (by omega)]
      by_cases hx : off ≤ x ∧ x < off + xs.length
      · obtain ⟨k, rfl⟩ := Nat.exists_eq_add_of_le hx.1
        have hk : k < xs.length := by omega
        rw [pwrite_data_of_inside hk, pwrite_data_of_inside (by rw [List.length_append]; omega)]
        simp [List.getD_eq_getElem?_getD, List.getElem?_append_left hk]
      · rw [pwrite_data_of_outside (by omega),
          pwrite_data_of_outside (by rw [List.length_append]; omega)]
  · by_cases hx : xs = []
    · rw [hx, pwrite_nil, List.nil_append, List.length_nil, Nat.add_zero]
    · by_cases hy : ys = []
      · rw [hy, pwrite_nil, List.append_nil]
      · simp only [pwrite, if_neg hx, if_neg hy, List.length_append, List.append_eq_nil_iff,
          if_neg fun h : xs = [] ∧ ys = [] => hx h.1]
        omega

/-- What was written is read back. -/
theorem pread_pwrite_self : (f.pwrite off bytes).pread off bytes.length = bytes := by
  refine List.ext_getElem (by simp [pread]) fun k hk hk' => ?_
  simp only [pread, List.getElem_map, List.getElem_range]
  rw [pwrite_data_of_inside hk', List.getD_eq_getElem?_getD, List.getElem?_eq_getElem hk',
    Option.getD_some]

/-- Reading a range only depends on its bytes. -/
theorem pread_congr {f g : SparseFile} {n : Nat}
    (h : ∀ x, off ≤ x → x < off + n → f.data x = g.data x) : f.pread off n = g.pread off n := by
  refine List.map_congr_left fun k hk => h _ (Nat.le_add_right _ _) ?_
  have := List.mem_range.mp hk
  omega

/-- Writing bytes on which the file agrees with `g` keeps the agreement, and
brings the written range into it. -/
theorem pwrite_data_of_agree {g : SparseFile}
    (h : ∀ k, k < bytes.length → bytes.getD k 0 = g.data (off + k)) :
    (f.pwrite off bytes).data x = f.data x ∨ (f.pwrite off bytes).data x = g.data x := by
  by_cases hin : off ≤ x ∧ x < off + bytes.length
  · obtain ⟨k, rfl⟩ := Nat.exists_eq_add_of_le hin.1
    have hk : k < bytes.length := by omega
    exact .inr (by rw [pwrite_data_of_inside hk, h k hk])
  · exact .inl (pwrite_data_of_outside (by omega))

/-! ## Files written at their end -/

/-- All the bytes of a file. -/
def contents (f : SparseFile) : List UInt8 := f.pread 0 f.size

/-- Bytes are written at the end. -/
def append (f : SparseFile) (bytes : List UInt8) : SparseFile := f.pwrite f.size bytes

@[simp] theorem length_pread {n : Nat} : (f.pread off n).length = n := by
  rw [pread, List.length_map, List.length_range]

theorem length_contents : f.contents.length = f.size := length_pread

@[simp] theorem contents_empty : empty.contents = [] := rfl

@[simp] theorem append_nil : f.append [] = f := pwrite_nil

@[simp] theorem size_append : (f.append bytes).size = f.size + bytes.length := by
  show (if _ then _ else _) = _
  split
  · rename_i h
    rw [h, List.length_nil, Nat.add_zero]
  · exact Nat.max_eq_right (Nat.le_add_right _ _)

theorem append_append (f : SparseFile) (xs ys : List UInt8) :
    (f.append xs).append ys = f.append (xs ++ ys) := by
  show SparseFile.pwrite _ (f.append xs).size ys = _
  rw [size_append]
  exact pwrite_append f f.size xs ys

/-- A range is read in two parts. -/
theorem pread_add (m n : Nat) : f.pread off (m + n) = f.pread off m ++ f.pread (off + m) n := by
  rw [pread, List.range_add, List.map_append, List.map_map, pread, pread]
  exact congrArg _ (List.map_congr_left fun k _ => congrArg f.data (Nat.add_assoc off m k).symm)

/-- Appended bytes come after those that were there. -/
theorem contents_append : (f.append bytes).contents = f.contents ++ bytes := by
  rw [contents, size_append, pread_add, Nat.zero_add]
  refine congrArg₂ _ (pread_congr fun x _ hx => ?_) pread_pwrite_self
  exact pwrite_data_of_outside (.inl (by omega))

theorem take_contents {n : Nat} (h : n ≤ f.size) : f.contents.take n = f.pread 0 n := by
  rw [contents, ← Nat.add_sub_of_le h, pread_add, List.take_left' length_pread]

/-- Two files that agree on their first bytes begin with the same contents. -/
theorem take_contents_prefix {g : SparseFile} {n : Nat} (hf : n ≤ f.size) (hg : n ≤ g.size)
    (h : ∀ x < n, g.data x = f.data x) : f.contents.take n <+: g.contents := by
  rw [take_contents hf, ← pread_congr fun x _ hx => h x (by omega), ← take_contents hg]
  exact List.take_prefix _ _

end SparseFile
