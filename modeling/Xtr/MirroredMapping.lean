import Mathlib.Logic.Equiv.Basic
import Xtr.AddressSpace
import Xtr.Align
import Xtr.CString
import Xtr.CircularMemory

/-!
# Mirrored memory mappings

`mirrored_memory_mapping` maps the same pages twice in a row, for the ring buffers.  To find
an address for both it reserves a mapping of twice the length, maps the second half over it,
and then the first half, which is the second half once more (`mremap`) or the same range of
the file.  `construct` and `destroy` are its constructor and its destructor, with those of
the `memory_mapping`s in them, call by call: the other threads of the process map and unmap
what they like between any two calls.

The objects of a program are made, moved, assigned and destroyed in any order
(`exec`).  Whatever the others do, what they hold is mapped for them, twice in a row and
each apart from the others, and nothing else is, but what a `munmap` that failed has left
(`owned_by_objects`).  The others may rely on it too: no call changes a page of theirs,
unless one for an address has failed (`others_spared`).
Then the constructor unmaps the second half twice, and what was mapped there in between is
lost (`unwinding_unmaps_others`).

Lengths are in pages, except for the argument of the constructor.
-/
namespace Xtr.MirroredMapping
open Interference AddressSpace

/-! ## `memory_mapping` -/

/-- `memory_mapping`; no address stands for `MAP_FAILED`. -/
structure Mapping where
  mem : Option Nat
  pages : Nat
  deriving DecidableEq

inductive Thrown
  | invalidArgument (what : Str)
  | systemError (what : Str)
  deriving DecidableEq

/-- A program that calls the kernel. -/
abbrev Calls (α : Type) : Type := Program Call Answer α

def Mapping.empty : Mapping := ⟨none, 0⟩

/-- The constructor. -/
def Mapping.make (address : Option Nat) (pages : Nat) (backing : Backing) :
    Calls (Except Thrown Mapping) :=
  .call (.mmap address pages backing) fun
    | .mapped base _ => .ret (.ok ⟨some base, pages⟩)
    | _ => .ret (.error (.systemError
        (text "xtr::detail::memory_mapping::memory_mapping: mmap failed")))

/-- `reset`.  An assertion says that `munmap` does not fail; if it does, the mapping is
forgotten. -/
def Mapping.reset (m : Mapping) (mem : Option Nat) (pages : Nat) : Calls Mapping :=
  match m.mem with
  | none => .ret ⟨mem, pages⟩
  | some base => .call (.munmap base m.pages) fun _ => .ret ⟨mem, pages⟩

/-- `release`. -/
def Mapping.release (m : Mapping) : Mapping := { m with mem := none }

/-- The destructor. -/
def Mapping.destroy (m : Mapping) : Calls Unit := (m.reset none 0).bind fun _ => .ret ()

/-- `get`. -/
def Mapping.get (m : Mapping) : Nat := m.mem.getD 0

/-! ## `mirrored_memory_mapping` -/

/-- What is mapped: memory without a name, if no descriptor is given, or a file from some
page on. -/
inductive Source
  | anonymous
  | file (object offset : Nat)
  deriving DecidableEq

/-- What the second half is a mapping of. -/
def Source.backing : Source → Backing
  | .anonymous => .anonymous true
  | .file object offset => .file object offset

/-- The call that maps the first half. -/
def Source.firstHalf (mirror reserve : Mapping) (n : Nat) : Source → Call
  | .anonymous => .mremap mirror.get n reserve.get
  | .file object offset => .mmap (some reserve.get) n (.file object offset)

/-- What is thrown when that fails. -/
def Source.failure : Source → Thrown
  | .anonymous => .systemError (text
      "xtr::detail::mirrored_memory_mapping::mirrored_memory_mapping: mremap failed")
  | .file _ _ => .systemError (text "xtr::detail::memory_mapping::memory_mapping: mmap failed")

/-- The end of the scope of `mirror` and `reserve`. -/
def leave {α : Type} (mirror reserve : Mapping) (a : α) : Calls α :=
  mirror.destroy.bind fun _ => reserve.destroy.bind fun _ => .ret a

/-- The constructor from the second mapping on. -/
def mirror (n : Nat) (source : Source) (reserve : Mapping) : Calls (Except Thrown Mapping) :=
  (Mapping.make (some (reserve.get + n)) n source.backing).bind fun
    | .error e => reserve.destroy.bind fun _ => .ret (.error e)
    | .ok mirror => .call (source.firstHalf mirror reserve n) fun
      | .mapped base _ => .call (.madvise base (n * 2)) fun _ =>
          leave mirror.release reserve.release (.ok ⟨some base, n⟩)
      | _ => leave mirror reserve (.error source.failure)

section Construct
variable (pagesize : Nat)

/-- The constructor. -/
def construct (length : Nat) (source : Source) : Calls (Except Thrown Mapping) :=
  if length ≠ align length pagesize then
    .ret (.error (.invalidArgument (text ("xtr::detail::mirrored_memory_mapping::" ++
      "mirrored_memory_mapping: Length argument is not page-aligned"))))
  else (Mapping.make none (length * 2 % 2 ^ 64 / pagesize) (.anonymous false)).bind fun
    | .error e => .ret (.error e)
    | .ok reserve => mirror (length / pagesize) source reserve

/-- The destructor: a temporary object unmaps the second half, and then `m_` the first. -/
def destroy (m : Mapping) : Calls Unit :=
  match m.mem with
  | none => m.destroy
  | some base => (Mapping.empty.reset (some (base + m.pages)) m.pages).bind fun temp =>
      temp.destroy.bind fun _ => m.destroy

/-! ## The objects of a program -/

/-- The `mirrored_memory_mapping`s of a program, each with the `m_` it has. -/
abbrev Objects : Type := Nat → Option Mapping

/-- What a program does with them. -/
inductive Op
  | make (k : Nat)
  | construct (k length : Nat) (source : Source)
  | moveConstruct (k other : Nat)
  | moveAssign (k other : Nat)
  | destroy (k : Nat)

/-- An operation; one on an object that is not there, or of one that is, does nothing.  The
assignment of a `memory_mapping` swaps, and an object whose constructor throws does not come
to be. -/
def exec (op : Op) (objs : Objects) : Calls Objects :=
  match op with
  | .make k => .ret (if objs k = none then Function.update objs k (some .empty) else objs)
  | .construct k length source =>
    if objs k = none then
      (construct pagesize length source).bind fun
        | .error _ => .ret objs
        | .ok m => .ret (Function.update objs k (some m))
    else .ret objs
  | .moveConstruct k other =>
    match objs k, objs other with
    | none, some m =>
      .ret (Function.update (Function.update objs other (some m.release)) k (some m))
    | _, _ => .ret objs
  | .moveAssign k other =>
    match objs k, objs other with
    | some m, some m' => .ret (Function.update (Function.update objs k (some m')) other (some m))
    | _, _ => .ret objs
  | .destroy k =>
    match objs k with
    | none => .ret objs
    | some m => (destroy m).bind fun _ => .ret (Function.update objs k none)

/-- A program, from no objects on. -/
def program (ops : List Op) : Calls Objects := .each (exec pagesize) ops fun _ => none

end Construct

/-! ## The calls, in terms of this thread's part -/

/-- This thread has these pages. -/
def Mine (o : Nat → Option Page) (s : Space) : Prop := part true s = o

/-- Some call for an address may fail. -/
def FixedFails (fallible : Call → Bool) : Prop := ∃ c, c.isFixed = true ∧ fallible c = true

/-- The pages of the other threads are left alone, or a call for an address may have failed
and it is a `munmap`. -/
def Spares (fallible : Call → Bool) (s : Space) (c : Call) (s' : Space) : Prop :=
  part false s' = part false s ∨ FixedFails fallible ∧ ∃ base n, c = .munmap base n

variable {limit : Nat} {fallible : Call → Bool} {α : Type} {post : α → Space → Prop}
  {o : Nat → Option Page} {s : Space} {base n : Nat} {k : Answer → Calls α}

theorem stable_mine (o : Nat → Option Page) : Stable (kernel limit fallible) (Mine o) :=
  fun _ _ h hs => (show part true _ = part true _ from hs).trans h

/-- Safe for this thread, whatever the others do. -/
abbrev SafeHere (limit : Nat) (fallible : Call → Bool) (post : α → Space → Prop) :
    Calls α → Space → Prop :=
  Safe (kernel limit fallible) (Spares fallible) post

theorem perform_kernel {c : Call} {answer : Answer} {s' : Space}
    (h : (kernel limit fallible).perform s c answer = some s') :
    perform limit s c answer = some s' ∧ (answer.isFailed = true → fallible c = true) := by
  obtain ⟨hnot, h⟩ := Option.ite_none_left_eq_some.mp h
  refine ⟨h, fun hfailed => ?_⟩
  rw [hfailed, Bool.true_and] at hnot
  exact Bool.not_eq_false _ ▸ fun hno => hnot (by rw [hno]; rfl)

/-- A call for no address is given one where nothing is mapped. -/
theorem safe_mmap {backing : Backing} (h : Mine o s)
    (hmapped : ∀ base fresh s', Fits limit base n → (∀ i < n, o (base + i) = none) →
      Mine (patch o base n fun i => some (backing.page fresh i)) s' →
      SafeHere limit fallible post (k (.mapped base fresh)) s')
    (hfailed : ∀ removed s', Mine o s' → SafeHere limit fallible post (k (.failed removed)) s') :
    SafeHere limit fallible post (.call (.mmap none n backing) k) s := by
  refine .call (stable_mine o) h fun s answer s' hmine hperform => ?_
  obtain ⟨hperform, -⟩ := perform_kernel hperform
  cases answer with
  | mapped base fresh =>
    obtain ⟨⟨hfits, hnone⟩, hs⟩ := Option.ite_none_right_eq_some.mp hperform
    obtain rfl := Option.some.inj hs
    refine ⟨.inl (part_patch_of_none hnone fun _ _ => rfl), hmapped base fresh _ hfits ?_ ?_⟩
    · intro i hi
      rw [← hmine, part, hnone i hi]
    · rw [Mine, part_map, hmine]
  | failed removed =>
    obtain rfl := Option.some.inj hperform
    exact ⟨.inl rfl, hfailed removed _ hmine⟩
  | done => cases hperform

/-- What a failed call for an address leaves of this thread's part. -/
def Removed (limit : Nat) (o : Nat → Option Page) (base n : Nat) (o' : Nat → Option Page) : Prop :=
  o' = o ∨ Fits limit base n ∧ o' = patch o base n nothing

/-- In a range of this thread, or one that no mapping fits. -/
def Within (limit : Nat) (o : Nat → Option Page) (base n : Nat) : Prop :=
  Fits limit base n → ∀ i < n, o (base + i) ≠ none

theorem removeFailed_spec {removed : Bool} (hmine : Mine o s) (hwithin : Within limit o base n) :
    part false (removeFailed limit s base n removed) = part false s ∧
      ∃ o', Removed limit o base n o' ∧ Mine o' (removeFailed limit s base n removed) := by
  unfold removeFailed
  split
  · rename_i hremoved
    refine ⟨part_patch_of_mine (hmine ▸ hwithin hremoved.2) fun _ _ => rfl, _,
      .inr ⟨hremoved.2, rfl⟩, ?_⟩
    rw [Mine, part_unmap, hmine]
  · exact ⟨rfl, o, .inl rfl, hmine⟩

/-- A call for an address in a range of this thread. -/
theorem safe_mmap_fixed {address : Nat} {backing : Backing} (h : Mine o s)
    (hwithin : Within limit o address n)
    (hmapped : ∀ fresh s', Fits limit address n →
      Mine (patch o address n fun i => some (backing.page fresh i)) s' →
      SafeHere limit fallible post (k (.mapped address fresh)) s')
    (hfailed : FixedFails fallible → ∀ removed o' s', Removed limit o address n o' → Mine o' s' →
      SafeHere limit fallible post (k (.failed removed)) s') :
    SafeHere limit fallible post (.call (.mmap (some address) n backing) k) s := by
  refine .call (stable_mine o) h fun s answer s' hmine hperform => ?_
  obtain ⟨hperform, hfallible⟩ := perform_kernel hperform
  cases answer with
  | mapped base fresh =>
    obtain ⟨⟨rfl, hfits⟩, hs⟩ := Option.ite_none_right_eq_some.mp hperform
    obtain rfl := Option.some.inj hs
    refine ⟨.inl (part_patch_of_mine (hmine ▸ hwithin hfits) fun _ _ => rfl),
      hmapped fresh _ hfits ?_⟩
    rw [Mine, part_map, hmine]
  | failed removed =>
    obtain rfl := Option.some.inj hperform
    obtain ⟨hfalse, o', hremoved, hmine'⟩ := removeFailed_spec hmine hwithin
    exact ⟨.inl hfalse, hfailed ⟨_, rfl, hfallible rfl⟩ removed o' _ hremoved hmine'⟩
  | done => cases hperform

/-- The pages of a shared mapping of this thread, mapped a second time. -/
theorem safe_mremap {old new : Nat} (h : Mine o s) (hold : ∀ i < n, o (old + i) ≠ none)
    (hwithin : Within limit o new n)
    (hmapped : ∀ fresh s', Fits limit new n → Mine (patch o new n fun i => o (old + i)) s' →
      SafeHere limit fallible post (k (.mapped new fresh)) s')
    (hfailed : FixedFails fallible → ∀ removed o' s', Removed limit o new n o' → Mine o' s' →
      SafeHere limit fallible post (k (.failed removed)) s') :
    SafeHere limit fallible post (.call (.mremap old n new) k) s := by
  refine .call (stable_mine o) h fun s answer s' hmine hperform => ?_
  obtain ⟨hperform, hfallible⟩ := perform_kernel hperform
  cases answer with
  | mapped base fresh =>
    obtain ⟨⟨rfl, hfits, -⟩, hs⟩ := Option.ite_none_right_eq_some.mp hperform
    obtain rfl := Option.some.inj hs
    refine ⟨.inl (part_patch_of_mine (hmine ▸ hwithin hfits) fun i _ => part_false_again s old i),
      hmapped fresh _ hfits ?_⟩
    rw [Mine, part_patch, ← hmine]
    exact patch_congr fun i hi => part_again s (hmine ▸ hold i hi)
  | failed removed =>
    obtain rfl := Option.some.inj hperform
    obtain ⟨hfalse, o', hremoved, hmine'⟩ := removeFailed_spec hmine hwithin
    exact ⟨.inl hfalse, hfailed ⟨_, rfl, hfallible rfl⟩ removed o' _ hremoved hmine'⟩
  | done => cases hperform

/-- What a `munmap` leaves of this thread's part. -/
def Unmapped (fallible : Call → Bool) (o : Nat → Option Page) (base n : Nat)
    (o' : Nat → Option Page) : Prop :=
  o' = patch o base n nothing ∨ fallible (.munmap base n) = true ∧ o' = o

/-- A `munmap` of what this thread has, or, after a call has failed, of what it may not have. -/
theorem safe_munmap (h : Mine o s) (hmine : FixedFails fallible ∨ ∀ i < n, o (base + i) ≠ none)
    (hdone : ∀ answer o' s', Unmapped fallible o base n o' → Mine o' s' →
      SafeHere limit fallible post (k answer) s') :
    SafeHere limit fallible post (.call (.munmap base n) k) s := by
  refine .call (stable_mine o) h fun s answer s' hs hperform => ?_
  obtain ⟨hperform, hfallible⟩ := perform_kernel hperform
  cases answer with
  | mapped => cases hperform
  | failed removed =>
    obtain rfl := Option.some.inj hperform
    exact ⟨.inl rfl, hdone _ o _ (.inr ⟨hfallible rfl, rfl⟩) hs⟩
  | done =>
    obtain rfl := Option.some.inj hperform
    refine ⟨?_, hdone _ _ _ (.inl rfl) (by rw [Mine, part_unmap, hs])⟩
    rcases hmine with hfixed | hmine
    · exact .inr ⟨hfixed, base, n, rfl⟩
    · exact .inl (part_patch_of_mine (hs ▸ hmine) fun _ _ => rfl)

theorem safe_madvise (h : Mine o s)
    (hdone : ∀ answer s', Mine o s' → SafeHere limit fallible post (k answer) s') :
    SafeHere limit fallible post (.call (.madvise base n) k) s := by
  refine .call (stable_mine o) h fun s answer s' hs hperform => ?_
  obtain ⟨hperform, -⟩ := perform_kernel hperform
  have heq : s' = s := by
    cases answer with
    | mapped => cases hperform
    | failed | done => exact (Option.some.inj hperform).symm
  exact ⟨.inl (heq ▸ rfl), hdone answer _ (heq ▸ hs)⟩

/-! ## The constructor and the destructor -/

/-- **`n` pages twice in a row**: the same pages of one object, which are shared. -/
structure Mirrored (o : Nat → Option Page) (base n : Nat) : Prop where
  pos : 0 < n
  twice : ∃ object offset, ∀ i < n, o (base + i) = some ⟨object, offset + i, true⟩ ∧
    o (base + n + i) = some ⟨object, offset + i, true⟩

/-- Only the range has changed. -/
def SameOutside (o o' : Nat → Option Page) (base n : Nat) : Prop :=
  ∀ p, ¬ (base ≤ p ∧ p < base + n) → o' p = o p

theorem SameOutside.patch {o' : Nat → Option Page} {base' n' : Nat} {f : Nat → Option Page}
    (h : SameOutside o o' base n) (hbase : base ≤ base') (hend : base' + n' ≤ base + n) :
    SameOutside o (AddressSpace.patch o' base' n' f) base n := by
  intro p hp
  rw [patch_of_not_mem (by omega), h p hp]

theorem SameOutside.removed {o' o'' : Nat → Option Page} {base' n' : Nat}
    (h : SameOutside o o' base n) (hr : Removed limit o' base' n' o'')
    (hfits : Fits limit base' n' → base ≤ base' ∧ base' + n' ≤ base + n) :
    SameOutside o o'' base n := by
  rcases hr with rfl | ⟨hf, rfl⟩
  · exact h
  · exact h.patch (hfits hf).1 (hfits hf).2

theorem SameOutside.unmapped {o' o'' : Nat → Option Page} {base' n' : Nat}
    (h : SameOutside o o' base n) (hu : Unmapped fallible o' base' n' o'')
    (hbase : base ≤ base') (hend : base' + n' ≤ base + n) : SameOutside o o'' base n := by
  rcases hu with rfl | ⟨-, rfl⟩
  · exact h.patch hbase hend
  · exact h

/-- The page is one of a `munmap` that may have failed. -/
def Lost (fallible : Call → Bool) (p : Nat) : Prop :=
  ∃ base n, fallible (.munmap base n) = true ∧ base ≤ p ∧ p < base + n

/-- Nothing is new, but what has been lost. -/
def Leaves (fallible : Call → Bool) (o o' : Nat → Option Page) : Prop :=
  ∀ p, o' p = o p ∨ o p = none ∧ Lost fallible p

theorem Leaves.refl (fallible : Call → Bool) (o : Nat → Option Page) : Leaves fallible o o :=
  fun _ => .inl rfl

/-- The range is given back. -/
theorem SameOutside.leaves {o' o'' : Nat → Option Page} (h : SameOutside o o' base n)
    (hnone : ∀ i < n, o (base + i) = none) (hu : Unmapped fallible o' base n o'') :
    Leaves fallible o o'' := by
  intro p
  by_cases hp : base ≤ p ∧ p < base + n
  · obtain ⟨i, rfl⟩ := Nat.exists_eq_add_of_le hp.1
    have hi : i < n := by omega
    rcases hu with rfl | ⟨hfallible, rfl⟩
    · rw [patch_of_mem hi, hnone i hi]
      exact .inl rfl
    · exact .inr ⟨hnone i hi, base, n, hfallible, hp⟩
  · rcases hu with rfl | ⟨-, rfl⟩
    · rw [patch_of_not_mem hp, h p hp]
      exact .inl rfl
    · exact .inl (h p hp)

/-- What a constructor leaves: the pages twice in a row where nothing was, or everything as
it was but for what is lost. -/
def Built (fallible : Call → Bool) (o : Nat → Option Page) (r : Except Thrown Mapping)
    (s : Space) : Prop :=
  match r with
  | .ok m => ∃ base o', m.mem = some base ∧ (∀ i < 2 * m.pages, o (base + i) = none) ∧
      SameOutside o o' base (2 * m.pages) ∧ Mirrored o' base m.pages ∧ Mine o' s
  | .error _ => ∃ o', Leaves fallible o o' ∧ Mine o' s

theorem stable_built (fallible : Call → Bool) (o : Nat → Option Page)
    (r : Except Thrown Mapping) : Stable (kernel limit fallible) (Built fallible o r) := by
  cases r with
  | error e =>
    rintro s s' ⟨o', hleaves, hmine⟩ hs
    exact ⟨o', hleaves, stable_mine o' s s' hmine hs⟩
  | ok m =>
    rintro s s' ⟨base, o', hmem, hnone, hsame, hmirrored, hmine⟩ hs
    exact ⟨base, o', hmem, hnone, hsame, hmirrored, stable_mine o' s s' hmine hs⟩

/-- The two halves, mapped one after the other. -/
theorem mirrored_patch {f g : Nat → Option Page} {object offset : Nat} (hpos : 0 < n)
    (hf : ∀ i < n, f i = some ⟨object, offset + i, true⟩) (hg : ∀ i < n, g i = f i) :
    Mirrored (patch (patch o (base + n) n f) base n g) base n where
  pos := hpos
  twice := by
    refine ⟨object, offset, fun i hi => ⟨?_, ?_⟩⟩
    · rw [patch_of_mem hi, hg i hi, hf i hi]
    · rw [patch_of_not_mem (by omega), patch_of_mem hi, hf i hi]

/-- The constructor throws when the second half could not be mapped. -/
theorem safe_unwind {o' : Nat → Option Page} {N : Nat} {e : Thrown} (hfixed : FixedFails fallible)
    (hnone : ∀ i < N, o (base + i) = none) (hsame : SameOutside o o' base N) (h : Mine o' s) :
    SafeHere limit fallible (Built fallible o)
      ((Mapping.mk (some base) N).destroy.bind fun _ => .ret (.error e)) s :=
  safe_munmap h (.inl hfixed) fun _ o'' _ hu hs =>
    .ret (stable_built fallible o _) ⟨o'', hsame.leaves hnone hu, hs⟩

/-- The constructor throws when the first half could not be mapped: the second half is
unmapped twice. -/
theorem safe_leave {o' : Nat → Option Page} {e : Thrown} (hfixed : FixedFails fallible)
    (hnone : ∀ i < 2 * n, o (base + i) = none) (hsame : SameOutside o o' base (2 * n))
    (hsome : ∀ i < n, o' (base + n + i) ≠ none) (h : Mine o' s) :
    SafeHere limit fallible (Built fallible o)
      (leave ⟨some (base + n), n⟩ ⟨some base, 2 * n⟩ (.error e)) s := by
  refine safe_munmap h (.inr hsome) fun _ o'' s' hu hs => ?_
  have hsame' : SameOutside o o'' base (2 * n) :=
    hsame.unmapped hu (show base ≤ base + n by omega) (show base + n + n ≤ base + 2 * n by omega)
  exact safe_unwind hfixed hnone hsame' hs

/-- The constructor has not thrown. -/
theorem built_ok {o' : Nat → Option Page} (hnone : ∀ i < 2 * n, o (base + i) = none)
    (hsame : SameOutside o o' base (2 * n)) (hmirrored : Mirrored o' base n) (h : Mine o' s) :
    SafeHere limit fallible (Built fallible o) (.call (.madvise base (n * 2)) fun _ =>
      leave (Mapping.release ⟨some (base + n), n⟩) (Mapping.release ⟨some base, 2 * n⟩)
        (.ok ⟨some base, n⟩)) s :=
  safe_madvise h fun _ _ hs =>
    .ret (stable_built fallible o _) ⟨base, o', rfl, hnone, hsame, hmirrored, hs⟩

/-- The constructor, once it has mapped the second half. -/
theorem firstHalf_spec {o' : Nat → Option Page} {fresh : Nat} (source : Source) (hpos : 0 < n)
    (hnone : ∀ i < 2 * n, o (base + i) = none) (hsame : SameOutside o o' base (2 * n))
    (hsome : ∀ i < 2 * n, o' (base + i) ≠ none)
    (h : Mine (patch o' (base + n) n fun i => some (source.backing.page fresh i)) s) :
    SafeHere limit fallible (Built fallible o)
      (.call (source.firstHalf ⟨some (base + n), n⟩ ⟨some base, 2 * n⟩ n) fun
        | .mapped base' _ => .call (.madvise base' (n * 2)) fun _ =>
            leave (Mapping.release ⟨some (base + n), n⟩) (Mapping.release ⟨some base, 2 * n⟩)
              (.ok ⟨some base', n⟩)
        | _ => leave ⟨some (base + n), n⟩ ⟨some base, 2 * n⟩ (.error source.failure)) s := by
  -- the second half
  generalize hsecond : (fun i => some (source.backing.page fresh i)) = second at h
  have hshared : ∃ object offset, ∀ i < n, second i = some ⟨object, offset + i, true⟩ := by
    subst hsecond
    cases source with
    | anonymous => exact ⟨fresh, 0, fun i _ => by rw [Nat.zero_add]; rfl⟩
    | file object offset => exact ⟨object, offset, fun i _ => rfl⟩
  obtain ⟨object, offset, hshared⟩ := hshared
  have hsame' : SameOutside o (patch o' (base + n) n second) base (2 * n) :=
    hsame.patch (by omega) (by omega)
  have hfirst : Within limit (patch o' (base + n) n second) base n := by
    intro _ i hi
    rw [patch_of_not_mem (by omega)]
    exact hsome i (by omega)
  have hmirror : ∀ i < n, patch o' (base + n) n second (base + n + i) ≠ none := by
    intro i hi
    rw [patch_of_mem hi, hshared i hi]
    exact Option.some_ne_none _
  -- however the first half is mapped
  have hmapped : ∀ g s', (∀ i < n, g i = second i) →
      Mine (patch (patch o' (base + n) n second) base n g) s' →
      SafeHere limit fallible (Built fallible o) (.call (.madvise base (n * 2)) fun _ =>
        leave (Mapping.release ⟨some (base + n), n⟩) (Mapping.release ⟨some base, 2 * n⟩)
          (.ok ⟨some base, n⟩)) s' :=
    fun g s' hg hs => built_ok hnone (hsame'.patch (Nat.le_refl _) (by omega))
      (mirrored_patch hpos hshared hg) hs
  have hfailed : FixedFails fallible → ∀ o'' s',
      Removed limit (patch o' (base + n) n second) base n o'' → Mine o'' s' →
      SafeHere limit fallible (Built fallible o)
        (leave ⟨some (base + n), n⟩ ⟨some base, 2 * n⟩ (.error source.failure)) s' := by
    intro hfixed o'' s' hr hs
    refine safe_leave hfixed hnone (hsame'.removed hr fun _ => by omega) (fun i hi => ?_) hs
    rcases hr with rfl | ⟨-, rfl⟩
    · exact hmirror i hi
    · rw [patch_of_not_mem (by omega)]
      exact hmirror i hi
  cases source with
  | anonymous =>
    exact safe_mremap h hmirror hfirst
      (fun fresh s' _ hs => hmapped _ s' (fun i hi => patch_of_mem hi) hs)
      fun hfixed _ o'' s' hr hs => hfailed hfixed o'' s' hr hs
  | file object offset =>
    refine safe_mmap_fixed h hfirst (fun fresh s' _ hs => hmapped _ s' (fun i _ => ?_) hs)
      fun hfixed _ o'' s' hr hs => hfailed hfixed o'' s' hr hs
    exact congrFun hsecond i

/-- The constructor, once it has reserved `N` pages. -/
theorem mirror_spec {o' : Nat → Option Page} {N : Nat} (source : Source)
    (hN : Fits limit (base + n) n → N = 2 * n) (hnone : ∀ i < N, o (base + i) = none)
    (hsame : SameOutside o o' base N) (hsome : ∀ i < N, o' (base + i) ≠ none) (h : Mine o' s) :
    SafeHere limit fallible (Built fallible o) (mirror n source ⟨some base, N⟩) s := by
  have hwithin : Within limit o' (base + n) n := by
    intro hfits i hi
    have hN := hN hfits
    rw [Nat.add_assoc]
    exact hsome (n + i) (by omega)
  show SafeHere limit fallible (Built fallible o)
    (.call (.mmap (some (base + n)) n source.backing) _) s
  refine safe_mmap_fixed h hwithin (fun fresh s' hfits hs => ?_)
    fun hfixed removed o'' s' hr hs => ?_
  · obtain rfl := hN hfits
    exact firstHalf_spec source hfits.1 hnone hsame hsome hs
  · refine safe_unwind hfixed hnone (hsame.removed hr fun hfits => ?_) hs
    have hN := hN hfits
    omega

/-- Of the range, only what is lost may be left. -/
def Vacated (fallible : Call → Bool) (o : Nat → Option Page) (base n : Nat)
    (o' : Nat → Option Page) : Prop :=
  SameOutside o o' base n ∧ ∀ p, base ≤ p → p < base + n → o' p ≠ none → Lost fallible p

theorem stable_vacated (fallible : Call → Bool) (o : Nat → Option Page) (base n : Nat) :
    Stable (kernel limit fallible) fun s => ∃ o', Vacated fallible o base n o' ∧ Mine o' s := by
  rintro s s' ⟨o', hvacated, hmine⟩ hs
  exact ⟨o', hvacated, stable_mine o' s s' hmine hs⟩

/-- The second half, and then the first. -/
theorem Unmapped.vacated {o' o'' : Nat → Option Page} (h : Unmapped fallible o (base + n) n o')
    (h' : Unmapped fallible o' base n o'') : Vacated fallible o base (2 * n) o'' := by
  have hself : SameOutside o o base (2 * n) := fun _ _ => rfl
  refine ⟨(hself.unmapped h (by omega) (by omega)).unmapped h' (Nat.le_refl _) (by omega), ?_⟩
  intro p hle hlt hsome
  by_cases hfirst : p < base + n
  · rcases h' with rfl | ⟨hfallible, -⟩
    · rw [patch, if_pos ⟨hle, hfirst⟩] at hsome
      exact absurd rfl hsome
    · exact ⟨base, n, hfallible, hle, hfirst⟩
  · have hsecond : o' p ≠ none := by
      rcases h' with rfl | ⟨-, rfl⟩
      · rwa [patch_of_not_mem (by omega)] at hsome
      · exact hsome
    rcases h with rfl | ⟨hfallible, -⟩
    · rw [patch, if_pos ⟨by omega, by omega⟩] at hsecond
      exact absurd rfl hsecond
    · exact ⟨base + n, n, hfallible, by omega, by omega⟩

section Calls
variable {pagesize : Nat}

/-- **The constructor** places its mapping twice in a row, or leaves everything as it was but
for what is lost, whatever the others map while it runs.  An address space has fewer bytes
than there are addresses. -/
theorem construct_spec (hpage : 0 < pagesize) (hlimit : limit * pagesize < 2 ^ 64) (length : Nat)
    (source : Source) (h : Mine o s) :
    SafeHere limit fallible (Built fallible o) (construct pagesize length source) s := by
  unfold construct
  by_cases haligned : length ≠ align length pagesize
  · rw [if_pos haligned]
    exact .ret (stable_built fallible o _) ⟨o, .refl fallible o, h⟩
  rw [if_neg haligned]
  refine safe_mmap h (fun base fresh s' _ hnone hs => ?_)
    fun _ s' hs => .ret (stable_built fallible o _) ⟨o, .refl fallible o, hs⟩
  refine mirror_spec source (fun hfits => ?_) hnone (fun p hp => patch_of_not_mem hp)
    (fun i hi => ?_) hs
  · -- the length is a number of pages, and twice as many fit
    obtain ⟨n, hn⟩ : pagesize ∣ length := not_not.mp haligned ▸ dvd_align length pagesize
    have hdiv : length / pagesize = n := by rw [hn, Nat.mul_div_cancel_left n hpage]
    rw [hdiv] at hfits ⊢
    have hle : n * 2 * pagesize ≤ limit * pagesize :=
      Nat.mul_le_mul_right pagesize (by have := hfits.2; omega)
    have hbytes : length * 2 = n * 2 * pagesize := by
      rw [hn, Nat.mul_comm pagesize, Nat.mul_right_comm]
    rw [hbytes, Nat.mod_eq_of_lt (Nat.lt_of_le_of_lt hle hlimit), Nat.mul_div_cancel _ hpage,
      Nat.mul_comm]
  · rw [patch_of_mem hi]
    exact Option.some_ne_none _

/-- **The destructor** unmaps both halves, each of them once. -/
theorem destroy_spec (hsome : ∀ i < 2 * n, o (base + i) ≠ none) (h : Mine o s) :
    SafeHere limit fallible (fun _ s' => ∃ o', Vacated fallible o base (2 * n) o' ∧ Mine o' s')
      (destroy ⟨some base, n⟩) s := by
  refine safe_munmap h (.inr fun i hi => ?_) fun _ o' s' hu hs => ?_
  · show o (base + n + i) ≠ none
    rw [Nat.add_assoc]
    exact hsome (n + i) (by have : i < n := hi; omega)
  have hu : Unmapped fallible o (base + n) n o' := hu
  refine safe_munmap hs (.inr fun i hi => ?_) fun _ o'' s' hu' hs =>
    .ret (stable_vacated fallible o base (2 * n)) ⟨o'', hu.vacated hu', hs⟩
  have hi : i < n := hi
  rcases hu with rfl | ⟨-, rfl⟩
  · rw [patch_of_not_mem (by show ¬ (base + n ≤ base + i ∧ _); omega)]
    exact hsome i (by omega)
  · exact hsome i (by omega)

end Calls

/-! ## The objects -/

/-- The mapping that each object holds: its address and the pages in each half. -/
def held (objs : Objects) (k : Nat) : Option (Nat × Nat) :=
  (objs k).bind fun m => m.mem.map fun base => (base, m.pages)

/-- **What is mapped is what is held**, once by each object that holds something: pages twice
in a row, apart from those of the other objects.  Only what is `lost` is held by none. -/
structure Owned (lost : Nat → Prop) (r : Nat → Option (Nat × Nat)) (o : Nat → Option Page) :
    Prop where
  mirrored : ∀ k base n, r k = some (base, n) → Mirrored o base n
  apart : ∀ k k' base n base' n', r k = some (base, n) → r k' = some (base', n') → k ≠ k' →
    base + 2 * n ≤ base' ∨ base' + 2 * n' ≤ base
  covered : ∀ p, o p ≠ none →
    (∃ k base n, r k = some (base, n) ∧ base ≤ p ∧ p < base + 2 * n) ∨ lost p

variable {lost : Nat → Prop} {r : Nat → Option (Nat × Nat)} {o' : Nat → Option Page}

theorem Owned.initial (lost : Nat → Prop) : Owned lost (fun _ => none) nothing where
  mirrored _ _ _ h := by cases h
  apart _ _ _ _ _ _ h := by cases h
  covered _ h := absurd rfl h

theorem Mirrored.mapped (h : Mirrored o base n) {i : Nat} (hi : i < 2 * n) :
    o (base + i) ≠ none := by
  obtain ⟨object, offset, htwice⟩ := h.twice
  by_cases hlt : i < n
  · rw [(htwice i hlt).1]
    exact Option.some_ne_none _
  · obtain ⟨j, rfl⟩ := Nat.exists_eq_add_of_le (Nat.le_of_not_lt hlt)
    rw [← Nat.add_assoc, (htwice j (by omega)).2]
    exact Option.some_ne_none _

/-- What is mapped elsewhere does not matter. -/
theorem Mirrored.congr (h : Mirrored o base n) (heq : ∀ i < 2 * n, o' (base + i) = o (base + i)) :
    Mirrored o' base n where
  pos := h.pos
  twice := by
    obtain ⟨object, offset, htwice⟩ := h.twice
    refine ⟨object, offset, fun i hi => ⟨?_, ?_⟩⟩
    · rw [heq i (by omega), (htwice i hi).1]
    · rw [Nat.add_assoc, heq (n + i) (by omega), ← Nat.add_assoc, (htwice i hi).2]

/-- A mapping is apart from where nothing is mapped. -/
theorem Mirrored.apart {base' n' : Nat} (h : Mirrored o base' n') (hpos : 0 < n)
    (hnone : ∀ i < 2 * n, o (base + i) = none) : base + 2 * n ≤ base' ∨ base' + 2 * n' ≤ base := by
  have hpos' := h.pos
  by_contra hmeet
  rcases Nat.le_total base base' with hle | hle
  · obtain ⟨d, rfl⟩ := Nat.exists_eq_add_of_le hle
    exact h.mapped (Nat.mul_pos (by decide) hpos') (hnone d (by omega))
  · obtain ⟨d, rfl⟩ := Nat.exists_eq_add_of_le hle
    exact h.mapped (by omega) (hnone 0 (by omega))

/-- An object that holds nothing is given a mapping. -/
theorem Owned.add (h : Owned lost r o) {k : Nat} (hk : r k = none)
    (hnone : ∀ i < 2 * n, o (base + i) = none) (hsame : SameOutside o o' base (2 * n))
    (hmirrored : Mirrored o' base n) :
    Owned lost (Function.update r k (some (base, n))) o' := by
  have hpos := hmirrored.pos
  have hapart : ∀ k' base' n', r k' = some (base', n') →
      base + 2 * n ≤ base' ∨ base' + 2 * n' ≤ base :=
    fun k' base' n' hk' => (h.mirrored k' base' n' hk').apart hpos hnone
  refine ⟨fun j b c hj => ?_, fun j j' b c b' c' hj hj' hne => ?_, fun p hp => ?_⟩
  · by_cases hjk : j = k
    · subst hjk
      rw [Function.update_self] at hj
      cases hj
      exact hmirrored
    · rw [Function.update_of_ne hjk] at hj
      refine (h.mirrored j b c hj).congr fun i hi => hsame _ ?_
      have := hapart j b c hj
      omega
  · by_cases hjk : j = k
    · subst hjk
      rw [Function.update_self] at hj
      rw [Function.update_of_ne hne.symm] at hj'
      cases hj
      exact hapart j' b' c' hj'
    · rw [Function.update_of_ne hjk] at hj
      by_cases hjk' : j' = k
      · subst hjk'
        rw [Function.update_self] at hj'
        cases hj'
        exact (hapart j b c hj).symm
      · rw [Function.update_of_ne hjk'] at hj'
        exact h.apart j j' b c b' c' hj hj' hne
  · by_cases hrange : base ≤ p ∧ p < base + 2 * n
    · exact .inl ⟨k, base, n, Function.update_self .., hrange⟩
    · rw [hsame p hrange] at hp
      refine (h.covered p hp).imp_left fun ⟨j, b, c, hj, hin⟩ => ?_
      have hjk : j ≠ k := by
        rintro rfl
        rw [hk] at hj
        cases hj
      exact ⟨j, b, c, (Function.update_of_ne hjk _ _).trans hj, hin⟩

/-- Pages that no object holds are lost. -/
theorem Owned.leave (h : Owned (Lost fallible) r o) (hleaves : Leaves fallible o o') :
    Owned (Lost fallible) r o' where
  mirrored k base n hk := by
    have hm := h.mirrored k base n hk
    refine hm.congr fun i hi => ?_
    rcases hleaves (base + i) with heq | ⟨hnone, -⟩
    · exact heq
    · exact absurd hnone (hm.mapped hi)
  apart := h.apart
  covered p hp := by
    rcases hleaves p with heq | ⟨-, hlost⟩
    · exact h.covered p (heq ▸ hp)
    · exact .inr hlost

/-- An object gives up its mapping. -/
theorem Owned.remove (h : Owned (Lost fallible) r o) {k : Nat} (hk : r k = some (base, n))
    (hv : Vacated fallible o base (2 * n) o') :
    Owned (Lost fallible) (Function.update r k none) o' := by
  obtain ⟨hsame, hleft⟩ := hv
  have hother : ∀ {j b c}, Function.update r k none j = some (b, c) →
      j ≠ k ∧ r j = some (b, c) := by
    intro j b c hj
    have hjk : j ≠ k := by
      rintro rfl
      rw [Function.update_self] at hj
      cases hj
    exact ⟨hjk, (Function.update_of_ne hjk _ _).symm.trans hj⟩
  refine ⟨fun j b c hj => ?_, fun j j' b c b' c' hj hj' hne => ?_, fun p hp => ?_⟩
  · obtain ⟨hjk, hj⟩ := hother hj
    refine (h.mirrored j b c hj).congr fun i hi => hsame _ ?_
    have := h.apart j k b c base n hj hk hjk
    omega
  · exact h.apart j j' b c b' c' (hother hj).2 (hother hj').2 hne
  · by_cases hrange : base ≤ p ∧ p < base + 2 * n
    · exact .inr (hleft p hrange.1 hrange.2 hp)
    · rw [hsame p hrange] at hp
      refine (h.covered p hp).imp_left fun ⟨j, b, c, hj, hin⟩ => ?_
      have hjk : j ≠ k := by
        rintro rfl
        rw [hk] at hj
        cases hj
        exact hrange hin
      exact ⟨j, b, c, (Function.update_of_ne hjk _ _).trans hj, hin⟩

/-- Objects exchange their mappings. -/
theorem Owned.swap (h : Owned lost r o) (k k' : Nat) :
    Owned lost (r ∘ Equiv.swap k k') o where
  mirrored j base n hj := h.mirrored _ base n hj
  apart j j' base n base' n' hj hj' hne :=
    h.apart _ _ base n base' n' hj hj' ((Equiv.swap k k').injective.ne hne)
  covered p hp := by
    refine (h.covered p hp).imp_left fun ⟨j, base, n, hj, hin⟩ =>
      ⟨Equiv.swap k k' j, base, n, ?_, hin⟩
    show r (Equiv.swap k k' (Equiv.swap k k' j)) = _
    rw [Equiv.swap_apply_self, hj]

/-- What the objects of a program hold at an address space. -/
def Holds (fallible : Call → Bool) (objs : Objects) (s : Space) : Prop :=
  Owned (Lost fallible) (held objs) (part true s)

theorem stable_holds (objs : Objects) : Stable (kernel limit fallible) (Holds fallible objs) := by
  intro s s' h hs
  have heq : part true s' = part true s := hs
  rw [Holds, heq]
  exact h

theorem held_update (objs : Objects) (k : Nat) (m : Option Mapping) :
    held (Function.update objs k m) =
      Function.update (held objs) k (m.bind fun m => m.mem.map fun base => (base, m.pages)) := by
  funext j
  by_cases hj : j = k
  · subst hj
    rw [Function.update_self, held, Function.update_self]
  · rw [Function.update_of_ne hj, held, Function.update_of_ne hj]
    rfl

/-- An object that holds nothing. -/
theorem held_update_none {objs : Objects} {k : Nat} {m : Option Mapping}
    (hk : held objs k = none)
    (hm : m.bind (fun m => m.mem.map fun base => (base, m.pages)) = none) :
    held (Function.update objs k m) = held objs := by
  rw [held_update, hm, Function.update_eq_self_iff]
  exact hk.symm

/-- Two objects have exchanged what they held. -/
theorem held_eq_swap {objs objs' : Objects} (k other : Nat) (hk : held objs' k = held objs other)
    (hother : held objs' other = held objs k)
    (hrest : ∀ j, j ≠ k → j ≠ other → objs' j = objs j) :
    held objs' = held objs ∘ Equiv.swap k other := by
  funext j
  show held objs' j = held objs (Equiv.swap k other j)
  by_cases hjk : j = k
  · rw [hjk, Equiv.swap_apply_left, hk]
  by_cases hjo : j = other
  · rw [hjo, Equiv.swap_apply_right, hother]
  · rw [Equiv.swap_apply_of_ne_of_ne hjk hjo, held, held, hrest j hjk hjo]

section Exec
variable {pagesize : Nat}

/-- **Every operation keeps what is held.** -/
theorem exec_spec (hpage : 0 < pagesize) (hlimit : limit * pagesize < 2 ^ 64) (op : Op)
    (objs : Objects) (s : Space) (h : Holds fallible objs s) :
    SafeHere limit fallible (Holds fallible) (exec pagesize op objs) s := by
  have hsame : SafeHere limit fallible (Holds fallible) (.ret objs) s := .ret (stable_holds objs) h
  cases op with
  | make k =>
    refine .ret (stable_holds _) ?_
    by_cases hk : objs k = none
    · rw [if_pos hk, Holds, held_update_none (by rw [held, hk]; rfl) rfl]
      exact h
    · rw [if_neg hk]
      exact h
  | construct k length source =>
    unfold exec
    by_cases hk : objs k = none
    · simp only [if_pos hk]
      refine (construct_spec hpage hlimit length source rfl).bind fun built s' hbuilt => ?_
      cases built with
      | error e =>
        obtain ⟨o', hleaves, hmine⟩ := hbuilt
        refine .ret (stable_holds objs) ?_
        rw [Holds, show part true s' = o' from hmine]
        exact Owned.leave h hleaves
      | ok m =>
        obtain ⟨base, o', hmem, hnone, hout, hmirrored, hmine⟩ := hbuilt
        refine .ret (stable_holds _) ?_
        rw [Holds, show part true s' = o' from hmine, held_update]
        have hnew : (some m).bind (fun m => m.mem.map fun base => (base, m.pages)) =
            some (base, m.pages) := by simp [hmem]
        rw [hnew]
        exact Owned.add h (by rw [held, hk]; rfl) hnone hout hmirrored
    · simp only [if_neg hk]
      exact hsame
  | moveConstruct k other =>
    cases hk : objs k with
    | some m =>
      simp only [exec, hk]
      exact hsame
    | none =>
      cases hother : objs other with
      | none =>
        simp only [exec, hk, hother]
        exact hsame
      | some m =>
        have hne : other ≠ k := by
          rintro rfl
          rw [hk] at hother
          cases hother
        simp only [exec, hk, hother]
        refine .ret (stable_holds _) ?_
        rw [Holds, held_eq_swap k other]
        · exact Owned.swap h k other
        · rw [held, held, Function.update_self, hother]
        · rw [held, held, Function.update_of_ne hne, Function.update_self, hk]
          rfl
        · exact fun j hjk hjo => by rw [Function.update_of_ne hjk, Function.update_of_ne hjo]
  | moveAssign k other =>
    cases hk : objs k with
    | none =>
      simp only [exec, hk]
      exact hsame
    | some m =>
      cases hother : objs other with
      | none =>
        simp only [exec, hk, hother]
        exact hsame
      | some m' =>
        simp only [exec, hk, hother]
        refine .ret (stable_holds _) ?_
        rw [Holds, held_eq_swap k other]
        · exact Owned.swap h k other
        · by_cases hne : k = other
          · subst hne
            rw [held, held, Function.update_self, hk]
          · rw [held, held, Function.update_of_ne hne, Function.update_self, hother]
        · rw [held, held, Function.update_self, hk]
        · exact fun j hjk hjo => by rw [Function.update_of_ne hjo, Function.update_of_ne hjk]
  | destroy k =>
    cases hk : objs k with
    | none =>
      simp only [exec, hk]
      exact hsame
    | some m =>
      simp only [exec, hk]
      obtain ⟨mem, n⟩ := m
      cases mem with
      | none =>
        refine .ret (stable_holds _) ?_
        rw [Holds, held_update_none (by rw [held, hk]; rfl) rfl]
        exact h
      | some base =>
        have hheld : held objs k = some (base, n) := by rw [held, hk]; rfl
        have hsome : ∀ i < 2 * n, part true s (base + i) ≠ none :=
          fun i hi => (Owned.mirrored h k base n hheld).mapped hi
        refine (destroy_spec hsome rfl).bind fun _ s' hs' => ?_
        obtain ⟨o', hvacated, hmine⟩ := hs'
        refine .ret (stable_holds _) ?_
        rw [Holds, show part true s' = o' from hmine, held_update]
        exact Owned.remove h hheld hvacated

/-- So does a program, all along. -/
theorem program_spec (hpage : 0 < pagesize) (hlimit : limit * pagesize < 2 ^ 64) (ops : List Op)
    (h : part true s = nothing) :
    SafeHere limit fallible (Holds fallible) (program pagesize ops) s := by
  refine .each stable_holds (exec_spec hpage hlimit) ops ?_
  rw [Holds, h]
  exact .initial _

end Exec

/-! ## The memory -/

section Memory
variable (pagesize : Nat)

/-- The byte of an object that is at an address. -/
def locate (o : Nat → Option Page) (address : Nat) : Option (Nat × Nat) :=
  (o (address / pagesize)).map fun page =>
    (page.object, page.index * pagesize + address % pagesize)

variable {β : Type} (contents : Nat → Nat → β)

def load (o : Nat → Option Page) (address : Nat) : Option β :=
  (locate pagesize o address).map fun byte => contents byte.1 byte.2

def store (o : Nat → Option Page) (address : Nat) (x : β) : Nat → Nat → β :=
  match locate pagesize o address with
  | none => contents
  | some (object, i) => Function.update contents object (Function.update (contents object) i x)

end Memory

/-- **A circular memory**: reads and writes through the `2 * n` pages from `base` on are those
of one that has `n` pages, the bytes of an object from `offset` on. -/
structure Circular (pagesize : Nat) (o : Nat → Option Page) (base n object offset : Nat) :
    Prop where
  load : ∀ {β : Type} (contents : Nat → Nat → β) (start size : Nat),
    start + size ≤ 2 * (n * pagesize) →
    (List.range size).map (fun i => load pagesize contents o (base * pagesize + (start + i))) =
      (CircularMemory.window (fun i => contents object (offset + i)) (n * pagesize) start size).map
        some
  store : ∀ {β : Type} (contents : Nat → Nat → β) (a : Nat) (x : β), a < 2 * (n * pagesize) →
    (fun i => store pagesize contents o (base * pagesize + a) x object (offset + i)) =
      CircularMemory.put (fun i => contents object (offset + i)) (n * pagesize) a x

variable {pagesize : Nat}

/-- The bytes at the addresses of a mirrored mapping. -/
theorem Mirrored.exists_locate (h : Mirrored o base n) (hpage : 0 < pagesize) : ∃ object offset,
    ∀ a < 2 * (n * pagesize), locate pagesize o (base * pagesize + a) =
      some (object, offset + a % (n * pagesize)) := by
  obtain ⟨object, offset, htwice⟩ := h.twice
  refine ⟨object, offset * pagesize, fun a ha => ?_⟩
  -- the page of the address, and the byte in it
  obtain ⟨j, b, hb, rfl⟩ : ∃ j b, b < pagesize ∧ a = j * pagesize + b :=
    ⟨a / pagesize, a % pagesize, Nat.mod_lt _ hpage, (Nat.div_add_mod' a pagesize).symm⟩
  have hsum : base * pagesize + (j * pagesize + b) = b + (base + j) * pagesize := by
    rw [Nat.add_mul]
    omega
  have hdiv : (base * pagesize + (j * pagesize + b)) / pagesize = base + j := by
    rw [hsum, Nat.add_mul_div_right _ _ hpage, Nat.div_eq_of_lt hb, Nat.zero_add]
  have hmod : (base * pagesize + (j * pagesize + b)) % pagesize = b := by
    rw [hsum, Nat.add_mul_mod_self_right, Nat.mod_eq_of_lt hb]
  unfold locate
  rw [hdiv, hmod]
  by_cases hj : j < n
  · have hlt : j * pagesize + b < n * pagesize := by
      have := Nat.mul_le_mul_right pagesize (show j + 1 ≤ n from hj)
      rw [Nat.add_mul] at this
      omega
    rw [(htwice j hj).1, Nat.mod_eq_of_lt hlt, Option.map_some, Nat.add_mul, Nat.add_assoc]
  · obtain ⟨i, rfl⟩ := Nat.exists_eq_add_of_le (Nat.le_of_not_lt hj)
    have hi : i < n := by
      by_contra hle
      have := Nat.mul_le_mul_right pagesize (show 2 * n ≤ n + i by omega)
      rw [Nat.mul_assoc] at this
      omega
    have hlt : i * pagesize + b < n * pagesize := by
      have := Nat.mul_le_mul_right pagesize (show i + 1 ≤ n from hi)
      rw [Nat.add_mul] at this
      omega
    have hturn : ((n + i) * pagesize + b) % (n * pagesize) = i * pagesize + b := by
      rw [Nat.add_mul, Nat.add_assoc, Nat.add_mod_left, Nat.mod_eq_of_lt hlt]
    rw [← Nat.add_assoc, (htwice i hi).2, hturn, Option.map_some, Nat.add_mul, Nat.add_assoc]

theorem Mirrored.circular (h : Mirrored o base n) (hpage : 0 < pagesize) :
    ∃ object offset, Circular pagesize o base n object offset := by
  obtain ⟨object, offset, hlocate⟩ := h.exists_locate hpage
  refine ⟨object, offset, fun contents start size hsize => ?_, fun contents a x ha => ?_⟩
  · unfold CircularMemory.window
    rw [List.map_map]
    refine List.map_congr_left fun i hi => ?_
    have hi : i < size := List.mem_range.mp hi
    show load pagesize contents o (base * pagesize + (start + i)) = _
    rw [load, hlocate (start + i) (by omega)]
    rfl
  · unfold store CircularMemory.put
    rw [hlocate a ha]
    funext i
    show Function.update contents object (Function.update (contents object) _ x) object _ = _
    rw [Function.update_self]
    by_cases hi : i = a % (n * pagesize)
    · rw [hi, Function.update_self, Function.update_self]
    · rw [Function.update_of_ne hi, Function.update_of_ne (by omega)]

/-! ## Runs -/

/-- The page is one of a `munmap` that has failed. -/
def LeftBy (calls : List (Made Space Call Answer)) (p : Nat) : Prop :=
  ∃ m ∈ calls, m.answer.isFailed = true ∧ ∃ base n, m.call = .munmap base n ∧
    base ≤ p ∧ p < base + n

/-- The calls that have failed in a run. -/
def failing (calls : List (Made Space Call Answer)) (c : Call) : Bool :=
  calls.any fun m => m.answer.isFailed && decide (m.call = c)

theorem leftBy_of_lost {calls : List (Made Space Call Answer)} {p : Nat}
    (h : Lost (failing calls) p) : LeftBy calls p := by
  obtain ⟨base, n, hfailing, hp⟩ := h
  obtain ⟨m, hm, hcall⟩ := List.any_eq_true.mp hfailing
  obtain ⟨hfailed, hcall⟩ := Bool.and_eq_true_iff.mp hcall
  exact ⟨m, hm, hfailed, base, n, of_decide_eq_true hcall, hp⟩

/-- **What the objects of a program hold is what is mapped**: whatever the other threads do
meanwhile, and whichever calls fail, each object has a circular memory apart from the
others, and the pages of this thread are those of its objects and what `munmap`s that failed
have left.  Nothing else is leaked. -/
theorem owned_by_objects (hpage : 0 < pagesize) (hlimit : limit * pagesize < 2 ^ 64)
    {ops : List Op} {calls : List (Made Space Call Answer)} {objs : Objects} {t : Space}
    (hs : part true s = nothing)
    (hr : Run (kernel limit fun _ => true) (program pagesize ops) s calls (.ret objs) t) :
    Owned (LeftBy calls) (held objs) (part true t) ∧
      ∀ k base n, held objs k = some (base, n) →
        ∃ object offset, Circular pagesize (part true t) base n object offset := by
  have hr' : Run (kernel limit (failing calls)) (program pagesize ops) s calls (.ret objs) t :=
    run_fallible _ hr fun m hm hfailed =>
      List.any_eq_true.mpr ⟨m, hm, by rw [hfailed, decide_eq_true rfl]; rfl⟩
  obtain ⟨-, hret⟩ := (program_spec hpage hlimit ops hs).sound hr'
  obtain ⟨hmirrored, hapart, hcovered⟩ := hret objs rfl
  exact ⟨⟨hmirrored, hapart, fun p hp => (hcovered p hp).imp_right leftBy_of_lost⟩,
    fun k base n hk => (hmirrored k base n hk).circular hpage⟩

/-- Two pages reserved in an empty address space. -/
def reserved : Space := map nothing 0 2 ((Backing.anonymous false).page 100)

/-- The second of them mapped again. -/
def halved : Space := map reserved 1 1 ((Backing.anonymous true).page 101)

/-- The first of them, too. -/
def mirrored : Space := patch halved 0 1 (again halved 1)

/-- A mapping is made, and moved to another object.  A second one is made, of a file, and the
first is destroyed; its second half cannot be unmapped, and stays. -/
theorem owned_by_objects_moved : ∃ calls objs t,
    Run (kernel 8 fun _ => true) (program 4096 [.construct 0 4096 .anonymous, .moveConstruct 1 0,
      .construct 2 4096 (.file 9 5), .destroy 1]) nothing calls (.ret objs) t ∧
    held objs 1 = none ∧ held objs 2 = some (2, 1) ∧ part true t 1 = some ⟨101, 0, true⟩ ∧
    Owned (LeftBy calls) (held objs) (part true t) ∧
    ∃ object offset, Circular 4096 (part true t) 2 1 object offset := by
  let s₁ := map mirrored 2 2 ((Backing.anonymous false).page 102)
  let s₂ := map s₁ 3 1 ((Backing.file 9 5).page 0)
  let s₃ := map s₂ 2 1 ((Backing.file 9 5).page 0)
  have hr : ∃ calls objs, Run (kernel 8 fun _ => true) (program 4096
      [.construct 0 4096 .anonymous, .moveConstruct 1 0, .construct 2 4096 (.file 9 5),
        .destroy 1]) nothing calls (.ret objs) (unmap s₃ 0 1) ∧
      held objs 1 = none ∧ held objs 2 = some (2, 1) :=
    ⟨[⟨nothing, .mmap none 2 (.anonymous false), .mapped 0 100, reserved⟩,
      ⟨reserved, .mmap (some 1) 1 (.anonymous true), .mapped 1 101, halved⟩,
      ⟨halved, .mremap 1 1 0, .mapped 0 0, mirrored⟩,
      ⟨mirrored, .madvise 0 2, .done, mirrored⟩,
      ⟨mirrored, .mmap none 2 (.anonymous false), .mapped 2 102, s₁⟩,
      ⟨s₁, .mmap (some 3) 1 (.file 9 5), .mapped 3 0, s₂⟩,
      ⟨s₂, .mmap (some 2) 1 (.file 9 5), .mapped 2 0, s₃⟩,
      ⟨s₃, .madvise 2 2, .done, s₃⟩, ⟨s₃, .munmap 1 1, .failed false, s₃⟩,
      ⟨s₃, .munmap 0 1, .done, unmap s₃ 0 1⟩], _,
      .call rfl (.call rfl (.call rfl (.call rfl (.call rfl (.call rfl (.call rfl (.call rfl
        (.call rfl (.call rfl (.refl _ _)))))))))), rfl, rfl⟩
  obtain ⟨calls, objs, hr, hfirst, hsecond⟩ := hr
  obtain ⟨howned, hcircular⟩ := owned_by_objects (by decide) (by decide) rfl hr
  exact ⟨calls, objs, _, hr, hfirst, hsecond, rfl, howned, hcircular 2 2 1 hsecond⟩

/-- **The other threads' pages are left alone**, unless a call for an address has failed.  Then
a constructor has thrown, and it is a `munmap` that takes them. -/
theorem others_spared (hpage : 0 < pagesize) (hlimit : limit * pagesize < 2 ^ 64)
    {ops : List Op} {before after : List (Made Space Call Answer)} {m : Made Space Call Answer}
    {q : Calls Objects} {t : Space} (hs : part true s = nothing)
    (hr : Run (kernel limit fun _ => true) (program pagesize ops) s (before ++ m :: after) q t)
    (hlost : part false m.after ≠ part false m.before) :
    (∃ base n, m.call = .munmap base n) ∧
      ∃ f ∈ before, f.call.isFixed = true ∧ f.answer.isFailed = true := by
  have hcalls : before ++ m :: after = before ++ [m] ++ after := by simp
  obtain ⟨p', s', hcut⟩ := hr.cut hcalls
  have hmem : m ∈ before ++ [m] := List.mem_append_right _ List.mem_cons_self
  have hmunmap : ∃ base n, m.call = .munmap base n := by
    rcases ((program_spec hpage hlimit ops hs).sound hcut).1 m hmem with hsame | ⟨-, hmunmap⟩
    · exact absurd hsame hlost
    · exact hmunmap
  refine ⟨hmunmap, ?_⟩
  by_contra hnone
  -- with no such failure, the run is one of a kernel in which calls for an address do not fail
  have hok : ∀ f ∈ before ++ [m], f.answer.isFailed = true → (!f.call.isFixed) = true := by
    intro f hf hfailed
    rcases List.mem_append.mp hf with hf | hf
    · cases hfixed : f.call.isFixed with
      | true => exact absurd ⟨f, hf, hfixed, hfailed⟩ hnone
      | false => rfl
    · obtain ⟨base, n, hcall⟩ := hmunmap
      rw [List.mem_singleton.mp hf, hcall]
      rfl
  have hcut' := run_fallible (fun c => !c.isFixed) hcut hok
  rcases ((program_spec hpage hlimit ops hs).sound hcut').1 m hmem with hsame |
    ⟨⟨c, hfixed, hno⟩, -⟩
  · exact hlost hsame
  · have hno : (!c.isFixed) = true := hno
    rw [hfixed] at hno
    cases hno

/-- The constructor throws because the first half could not be mapped, and unmaps the second
half.  Before it unmaps both, another thread has mapped a page there. -/
theorem unwinding_unmaps_others : ∃ before m,
    Run (kernel 8 fun _ => true) (program 4096 [.construct 0 4096 .anonymous]) nothing
      (before ++ [m]) (.ret fun _ => none) m.after ∧
    part false m.before 1 = some ⟨7, 0, false⟩ ∧ part false m.after 1 = none := by
  let s := unmap halved 1 1
  let s' := patch s 1 1 fun _ => some ⟨false, 7, 0, false⟩
  refine ⟨[⟨nothing, .mmap none 2 (.anonymous false), .mapped 0 100, reserved⟩,
    ⟨reserved, .mmap (some 1) 1 (.anonymous true), .mapped 1 101, halved⟩,
    ⟨halved, .mremap 1 1 0, .failed false, halved⟩, ⟨halved, .munmap 1 1, .done, s⟩],
    ⟨s', .munmap 0 2, .done, unmap s' 0 2⟩, ?_, rfl, rfl⟩
  refine .call rfl (.call rfl (.call rfl (.call rfl (.others ?_ (.call rfl (.refl _ _))))))
  show part true s' = part true s
  rw [part_patch]
  exact patch_eq_self fun i hi => by
    obtain rfl := Nat.lt_one_iff.mp hi
    rfl

/-- There, a call for an address has failed before. -/
theorem others_spared_unwinding : ∃ before m,
    Run (kernel 8 fun _ => true) (program 4096 [.construct 0 4096 .anonymous]) nothing
      (before ++ [m]) (.ret fun _ => none) m.after ∧
    (∃ base n, m.call = .munmap base n) ∧
      ∃ f ∈ before, f.call.isFixed = true ∧ f.answer.isFailed = true := by
  obtain ⟨before, m, hr, hbefore, hafter⟩ := unwinding_unmaps_others
  refine ⟨before, m, hr, others_spared (by decide) (by decide) rfl hr fun heq => ?_⟩
  rw [← heq, hafter] at hbefore
  cases hbefore

end Xtr.MirroredMapping
