import Xtr.Interference

/-!
# Address spaces

The pages of a process and the calls that change them: `mmap`, `mremap` with a length of
zero, which maps the pages of a shared mapping a second time, `munmap`, and a `madvise` that
changes nothing.  A call for no address is given one where nothing is mapped; a call for an
address replaces what is mapped there, and may have removed it when it fails.

The threads of a process share its address space.  Each page is marked as `mine` or not, so
that an address space has two parts, and every thread but the one in question changes the
other part only (`kernel`).  A call for an address, or a `munmap`, changes both parts in the
same range (`part_patch`).  Any call may fail; a `munmap` that does changes nothing.
-/
namespace AddressSpace
open Interference

/-- A page of an object, such as a file; what is written to it is seen in the object if it
is shared. -/
structure Page where
  object : Nat
  index : Nat
  shared : Bool
  deriving DecidableEq

/-- A page that is mapped. -/
structure Cell where
  mine : Bool
  page : Page
  deriving DecidableEq

/-- What is mapped at each page number. -/
abbrev Space := Nat → Option Cell

/-- The pages of one part. -/
def part (mine : Bool) (s : Space) (p : Nat) : Option Page :=
  match s p with
  | none => none
  | some c => if c.mine = mine then some c.page else none

/-- Replaces `n` entries from `base` on. -/
def patch {α : Type} (m : Nat → α) (base n : Nat) (f : Nat → α) (p : Nat) : α :=
  if base ≤ p ∧ p < base + n then f (p - base) else m p

/-- The pages of `n` entries that no one has. -/
def nothing {α : Type} : Nat → Option α := fun _ => none

/-! ## Calls -/

inductive Backing
  | anonymous (shared : Bool)
  | file (object offset : Nat)
  deriving DecidableEq

/-- Page `i` of a new mapping; the memory of an anonymous one is an object of its own. -/
def Backing.page (fresh : Nat) : Backing → Nat → Page
  | .anonymous shared, i => ⟨fresh, i, shared⟩
  | .file object offset, i => ⟨object, offset + i, true⟩

/-- Addresses and lengths are in pages. -/
inductive Call
  | mmap (address : Option Nat) (n : Nat) (backing : Backing)
  | mremap (old n new : Nat)
  | munmap (base n : Nat)
  | madvise (base n : Nat)
  deriving DecidableEq

inductive Answer
  | mapped (base fresh : Nat)
  | failed (removed : Bool)
  | done
  deriving DecidableEq

/-- A range in an address space of `limit` pages. -/
def Fits (limit base n : Nat) : Prop := 0 < n ∧ base + n ≤ limit

instance (limit base n : Nat) : Decidable (Fits limit base n) := inferInstanceAs (Decidable (_ ∧ _))

def map (s : Space) (base n : Nat) (page : Nat → Page) : Space :=
  patch s base n fun i => some ⟨true, page i⟩

def unmap (s : Space) (base n : Nat) : Space := patch s base n nothing

/-- The pages from `base` on, mapped a second time by this thread. -/
def again (s : Space) (base i : Nat) : Option Cell := (s (base + i)).map fun c => ⟨true, c.page⟩

/-- A call for an address has failed. -/
def removeFailed (limit : Nat) (s : Space) (base n : Nat) (removed : Bool) : Space :=
  if removed ∧ Fits limit base n then unmap s base n else s

/-- What a call does to the address space of the thread that makes it. -/
def perform (limit : Nat) (s : Space) : Call → Answer → Option Space
  | .mmap none n backing, .mapped base fresh =>
    if Fits limit base n ∧ ∀ i < n, s (base + i) = none then
      some (map s base n (backing.page fresh))
    else none
  | .mmap none _ _, .failed _ => some s
  | .mmap (some address) n backing, .mapped base fresh =>
    if base = address ∧ Fits limit base n then some (map s base n (backing.page fresh)) else none
  | .mmap (some address) n _, .failed removed => some (removeFailed limit s address n removed)
  | .mremap old n new, .mapped base _ =>
    if base = new ∧ Fits limit base n ∧
        ∀ i < n, (s (old + i)).any (fun c => c.page.shared) = true then
      some (patch s base n (again s old))
    else none
  | .mremap _ n new, .failed removed => some (removeFailed limit s new n removed)
  | .munmap base n, .done => some (unmap s base n)
  | .munmap _ _, .failed _ => some s
  | .madvise _ _, .done | .madvise _ _, .failed _ => some s
  | _, _ => none

/-- A call for an address. -/
def Call.isFixed : Call → Bool
  | .mmap (some _) _ _ | .mremap _ _ _ => true
  | _ => false

def Answer.isFailed : Answer → Bool
  | .failed _ => true
  | _ => false

/-- The kernel, with the other threads, which leave the part of this one alone.  Only the calls
that are `fallible` fail. -/
def kernel (limit : Nat) (fallible : Call → Bool) : System Space Call Answer where
  perform s c answer :=
    if answer.isFailed && !fallible c then none else perform limit s c answer
  others s s' := part true s' = part true s
  refl _ := rfl
  trans h h' := h'.trans h

/-- A run is one of a kernel in which no more calls are fallible than have failed. -/
theorem run_fallible {α : Type} {limit : Nat} {p q : Program Call Answer α} {s t : Space}
    {calls : List (Made Space Call Answer)} (fallible : Call → Bool)
    (h : Run (kernel limit fun _ => true) p s calls q t)
    (hcalls : ∀ m ∈ calls, m.answer.isFailed = true → fallible m.call = true) :
    Run (kernel limit fallible) p s calls q t := by
  induction h with
  | refl p s => exact .refl p s
  | others hs _ ih => exact .others hs (ih hcalls)
  | @call c k answer q s s' t calls hs _ ih =>
    obtain ⟨hcall, hcalls⟩ := List.forall_mem_cons.mp hcalls
    have hperform : perform limit s c answer = some s' := (Option.ite_none_left_eq_some.mp hs).2
    refine .call (Option.ite_none_left_eq_some.mpr ⟨fun hnot => ?_, hperform⟩) (ih hcalls)
    obtain ⟨hfailed, hnot⟩ := Bool.and_eq_true_iff.mp hnot
    rw [hcall hfailed] at hnot
    cases hnot

/-! ## Parts -/

section Patch
variable {α : Type} {m f g : Nat → α} {base n p : Nat}

theorem patch_of_mem {i : Nat} (h : i < n) : patch m base n f (base + i) = f i := by
  rw [patch, if_pos (by omega), Nat.add_sub_cancel_left]

theorem patch_of_not_mem (h : ¬ (base ≤ p ∧ p < base + n)) : patch m base n f p = m p := if_neg h

theorem patch_congr (h : ∀ i < n, f i = g i) : patch m base n f = patch m base n g := by
  funext p
  by_cases hp : base ≤ p ∧ p < base + n
  · rw [patch, if_pos hp, patch, if_pos hp, h _ (by omega)]
  · rw [patch_of_not_mem hp, patch_of_not_mem hp]

/-- Nothing changes where the entries are the same. -/
theorem patch_eq_self (h : ∀ i < n, f i = m (base + i)) : patch m base n f = m := by
  funext p
  by_cases hp : base ≤ p ∧ p < base + n
  · obtain ⟨i, rfl⟩ := Nat.exists_eq_add_of_le hp.1
    have hi : i < n := by omega
    rw [patch_of_mem hi, h i hi]
  · exact patch_of_not_mem hp

end Patch

variable {s : Space} {base n : Nat}

theorem part_patch (mine : Bool) (s : Space) (base n : Nat) (f : Nat → Option Cell) :
    part mine (patch s base n f) = patch (part mine s) base n (part mine f) := by
  funext p
  by_cases hp : base ≤ p ∧ p < base + n
  · simp only [part, patch, if_pos hp]
  · simp only [part, patch, if_neg hp]

theorem part_map (s : Space) (base n : Nat) (page : Nat → Page) :
    part true (map s base n page) = patch (part true s) base n (fun i => some (page i)) :=
  part_patch true s base n _

theorem part_unmap (mine : Bool) (s : Space) (base n : Nat) :
    part mine (unmap s base n) = patch (part mine s) base n nothing :=
  part_patch mine s base n _

/-- A page is in one part at most. -/
theorem part_exclusive {p : Nat} (h : part true s p ≠ none) : part false s p = none := by
  unfold part at h ⊢
  cases hs : s p with
  | none => rfl
  | some c =>
    simp only [hs] at h ⊢
    cases hc : c.mine with
    | true => rfl
    | false =>
      rw [hc] at h
      exact absurd rfl h

theorem part_again (s : Space) {base i : Nat} (h : part true s (base + i) ≠ none) :
    part true (again s base) i = part true s (base + i) := by
  unfold part again at *
  cases hs : s (base + i) with
  | none => rfl
  | some c =>
    simp only [hs] at h ⊢
    cases hc : c.mine with
    | true => rfl
    | false =>
      rw [hc] at h
      exact absurd rfl h

theorem part_false_again (s : Space) (base i : Nat) : part false (again s base) i = none := by
  unfold part again
  cases s (base + i) with
  | none => rfl
  | some c => rfl

/-- **A patch within this thread's part spares the other.** -/
theorem part_patch_of_mine {f : Nat → Option Cell} (hmine : ∀ i < n, part true s (base + i) ≠ none)
    (hf : ∀ i < n, part false f i = none) : part false (patch s base n f) = part false s := by
  rw [part_patch]
  exact patch_eq_self fun i hi => (hf i hi).trans (part_exclusive (hmine i hi)).symm

/-- So does one where nothing is mapped. -/
theorem part_patch_of_none {f : Nat → Option Cell} (hnone : ∀ i < n, s (base + i) = none)
    (hf : ∀ i < n, part false f i = none) : part false (patch s base n f) = part false s := by
  rw [part_patch]
  refine patch_eq_self fun i hi => (hf i hi).trans ?_
  rw [part, hnone i hi]

end AddressSpace
