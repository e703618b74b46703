import Mathlib.Data.Fin.Rev
import Mathlib.Data.List.FinRange
import Mathlib.Data.List.Forall2

/-!
# Arrangements

In which order something is done to the elements of a list.  An arrangement says so for
every length: `arrange` lists the elements as they are come to, and `restore` puts what was
made of them back in their places.
-/
/-- The position that is come to first, second, and so on, in a list of each length. -/
def Arrangement : Type := (n : Nat) → Equiv.Perm (Fin n)

namespace Arrangement
variable {α β : Type} (r : Arrangement)

def forwards : Arrangement := fun _ => Equiv.refl _

def backwards : Arrangement := fun _ => Fin.revPerm

def inverse : Arrangement := fun n => (r n).symm

def arrange (l : List α) : List α := List.ofFn fun i => l.get (r l.length i)

def restore (l : List α) : List α := r.inverse.arrange l

@[simp] theorem length_arrange (l : List α) : (r.arrange l).length = l.length := List.length_ofFn

@[simp] theorem length_restore (l : List α) : (r.restore l).length = l.length := length_arrange _ l

theorem arrange_eq {n : Nat} (l : List α) (h : l.length = n) :
    r.arrange l = List.ofFn fun i : Fin n => l.get ((r n i).cast h.symm) := by
  subst h
  rfl

@[simp] theorem restore_arrange (l : List α) : r.restore (r.arrange l) = l := by
  rw [restore, arrange_eq r.inverse _ (r.length_arrange l)]
  refine List.ext_getElem List.length_ofFn fun i hi hi' => ?_
  simp only [arrange, List.getElem_ofFn, List.get_eq_getElem]
  show l[(r l.length ((r l.length).symm ⟨i, hi'⟩)).val] = l[i]
  simp only [Equiv.apply_symm_apply]

@[simp] theorem inverse_inverse : r.inverse.inverse = r := rfl

@[simp] theorem arrange_restore (l : List α) : r.arrange (r.restore l) = l :=
  r.inverse.restore_arrange l

theorem arrange_map (f : α → β) (l : List α) : r.arrange (l.map f) = (r.arrange l).map f := by
  rw [r.arrange_eq _ (List.length_map f), arrange, List.map_ofFn]
  congr 1
  funext i
  simp

theorem restore_map (f : α → β) (l : List α) : r.restore (l.map f) = (r.restore l).map f :=
  r.inverse.arrange_map f l

theorem arrange_perm (l : List α) : (r.arrange l).Perm l := by
  have hperm := (r l.length).ofFn_comp_perm l.get
  rwa [List.ofFn_get] at hperm

@[simp] theorem mem_arrange {l : List α} {a : α} : a ∈ r.arrange l ↔ a ∈ l :=
  (r.arrange_perm l).mem_iff

@[simp] theorem mem_restore {l : List α} {a : α} : a ∈ r.restore l ↔ a ∈ l := r.inverse.mem_arrange

theorem forall₂_arrange {R : α → β → Prop} {l : List α} {l' : List β} (h : List.Forall₂ R l l') :
    List.Forall₂ R (r.arrange l) (r.arrange l') := by
  rw [r.arrange_eq l h.length_eq, arrange]
  refine List.forall₂_iff_get.mpr ⟨by simp, fun i hi hi' => ?_⟩
  simp only [List.get_eq_getElem, List.getElem_ofFn]
  exact (List.forall₂_iff_get.mp h).2 _ _ _

theorem forall₂_restore {R : α → β → Prop} {l : List α} {l' : List β} (h : List.Forall₂ R l l') :
    List.Forall₂ R (r.restore l) (r.restore l') :=
  r.inverse.forall₂_arrange h

example : backwards.arrange [1, 2, 3] = [3, 2, 1] := by decide

end Arrangement
