import Mathlib.Logic.Function.Basic

/-!
# Programs among others

A program that makes calls into a system which others change between any two of its calls,
as often as they like.  `Run` is what may happen.  `Safe` is what a program must meet at
each call, by recursion on the program, so that it is proved along the program's text: it
says that the call keeps to `guar`, however the others have changed the state before it, and
that what is returned meets `post`, however they change it after.

The others are bound by a preorder, as the changes they may make can follow each other.
-/
namespace Interference

/-- A program that makes calls of type `C`, is answered in `A`, and returns an `α`. -/
inductive Program (C A α : Type)
  | ret (a : α)
  | call (c : C) (k : A → Program C A α)

namespace Program
variable {C A α β : Type}

def bind : Program C A α → (α → Program C A β) → Program C A β
  | ret a, f => f a
  | call c k, f => call c fun answer => (k answer).bind f

instance : Monad (Program C A) where
  pure := ret
  bind := bind

/-- One program after another, each from what the one before it has returned. -/
def each (f : α → β → Program C A β) : List α → β → Program C A β
  | [], b => ret b
  | a :: as, b => (f a b).bind (each f as)

end Program

/-- A system: what a call does when it is answered so, and none if it cannot be; and what
the others may do. -/
structure System (S C A : Type) where
  perform : S → C → A → Option S
  others : S → S → Prop
  refl : ∀ s, others s s
  trans : ∀ {s t u}, others s t → others t u → others s u

/-- A call that was made. -/
structure Made (S C A : Type) where
  before : S
  call : C
  answer : A
  after : S

variable {S C A α β : Type} (sys : System S C A)

/-- What may happen from a program and a state on: the calls made, and what is left. -/
inductive Run : Program C A α → S → List (Made S C A) → Program C A α → S → Prop
  | refl (p : Program C A α) (s : S) : Run p s [] p s
  | others {p q : Program C A α} {s s' t : S} {calls : List (Made S C A)} :
      sys.others s s' → Run p s' calls q t → Run p s calls q t
  | call {c : C} {k : A → Program C A α} {answer : A} {q : Program C A α} {s s' t : S}
      {calls : List (Made S C A)} : sys.perform s c answer = some s' →
      Run (k answer) s' calls q t →
      Run (.call c k) s (⟨s, c, answer, s'⟩ :: calls) q t

variable {sys} in
/-- A run, cut short. -/
theorem Run.cut {p q : Program C A α} {s t : S} {calls : List (Made S C A)}
    (h : Run sys p s calls q t) {before after : List (Made S C A)}
    (heq : calls = before ++ after) : ∃ p' s', Run sys p s before p' s' := by
  induction h generalizing before with
  | refl p s =>
    obtain ⟨rfl, -⟩ := List.append_eq_nil_iff.mp heq.symm
    exact ⟨p, s, .refl p s⟩
  | others hs _ ih =>
    obtain ⟨p', s', hr⟩ := ih heq
    exact ⟨p', s', .others hs hr⟩
  | @call c k answer q s s' t calls hs _ ih =>
    cases before with
    | nil => exact ⟨.call c k, s, .refl _ _⟩
    | cons m before =>
      rw [List.cons_append] at heq
      obtain ⟨hm, hrest⟩ := List.cons_eq_cons.mp heq
      obtain ⟨p', s', hr⟩ := ih hrest
      rw [← hm]
      exact ⟨p', s', .call hs hr⟩

variable (guar : S → C → S → Prop)

/-- From this state on, every call keeps to `guar`, and what is returned meets `post`. -/
def Safe (post : α → S → Prop) : Program C A α → S → Prop
  | .ret a, s => ∀ s', sys.others s s' → post a s'
  | .call c k, s => ∀ s', sys.others s s' → ∀ answer s'', sys.perform s' c answer = some s'' →
      guar s' c s'' ∧ Safe post (k answer) s''

/-- What the others leave true. -/
def Stable (P : S → Prop) : Prop := ∀ s s', P s → sys.others s s' → P s'

variable {sys guar} {post : α → S → Prop} {p : Program C A α} {s s' : S}

theorem Safe.others (h : Safe sys guar post p s) (hs : sys.others s s') :
    Safe sys guar post p s' := by
  cases p with
  | ret a => exact fun t ht => h t (sys.trans hs ht)
  | call c k => exact fun t ht => h t (sys.trans hs ht)

/-- A safe program is so all along its runs. -/
theorem Safe.run {calls : List (Made S C A)} {q : Program C A α} {t : S}
    (h : Safe sys guar post p s) (hr : Run sys p s calls q t) :
    Safe sys guar post q t ∧ ∀ m ∈ calls, guar m.before m.call m.after := by
  induction hr with
  | refl => exact ⟨h, fun m hm => absurd hm List.not_mem_nil⟩
  | others hs _ ih => exact ih (h.others hs)
  | @call c k answer q s s' t calls hs _ ih =>
    obtain ⟨hguar, hsafe⟩ := h s (sys.refl s) answer s' hs
    obtain ⟨hq, hcalls⟩ := ih hsafe
    exact ⟨hq, List.forall_mem_cons.mpr ⟨hguar, hcalls⟩⟩

/-- **Soundness.**  Whatever the others do, the calls keep to `guar`, and if the program
returns, to `post`. -/
theorem Safe.sound {calls : List (Made S C A)} {q : Program C A α} {t : S}
    (h : Safe sys guar post p s) (hr : Run sys p s calls q t) :
    (∀ m ∈ calls, guar m.before m.call m.after) ∧ ∀ a, q = .ret a → post a t := by
  obtain ⟨hq, hcalls⟩ := h.run hr
  refine ⟨hcalls, ?_⟩
  rintro a rfl
  exact hq t (sys.refl t)

/-! ## Rules -/

theorem Safe.ret {a : α} (hstable : Stable sys (post a)) (h : post a s) :
    Safe sys guar post (.ret a) s :=
  fun s' hs => hstable s s' h hs

/-- A call made where `P` holds. -/
theorem Safe.call {P : S → Prop} {c : C} {k : A → Program C A α} (hstable : Stable sys P)
    (h : P s)
    (hcall : ∀ s answer s', P s → sys.perform s c answer = some s' →
      guar s c s' ∧ Safe sys guar post (k answer) s') :
    Safe sys guar post (.call c k) s :=
  fun s' hs answer s'' hperform => hcall s' answer s'' (hstable s s' h hs) hperform

theorem Safe.bind {f : α → Program C A β} {final : β → S → Prop} (h : Safe sys guar post p s)
    (hf : ∀ a s, post a s → Safe sys guar final (f a) s) :
    Safe sys guar final (p.bind f) s := by
  induction p generalizing s with
  | ret a => exact hf a s (h s (sys.refl s))
  | call c k ih =>
    intro s' hs answer s'' hperform
    obtain ⟨hguar, hsafe⟩ := h s' hs answer s'' hperform
    exact ⟨hguar, ih answer hsafe⟩

/-- **The rule for a series of programs**: what each of them keeps, they all keep. -/
theorem Safe.each {f : α → β → Program C A β} {I : β → S → Prop}
    (hstable : ∀ b, Stable sys (I b))
    (hf : ∀ a b s, I b s → Safe sys guar I (f a b) s) (as : List α) {b : β} (h : I b s) :
    Safe sys guar I (Program.each f as b) s := by
  induction as generalizing b s with
  | nil => exact .ret (hstable b) h
  | cons a as ih => exact (hf a b s h).bind fun b s hb => ih hb

end Interference
