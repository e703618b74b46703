import Mathlib.Logic.Function.Basic
import Mathlib.Logic.Relation

/-!
# Machines

A machine is a set of initial states and an executable, partial step function:
`step s e = none` says that event `e` cannot happen in `s`.  Interleavings are
runs: every party's next atomic action is an event, and a run is any sequence of
enabled events.

Everything proved about a machine is proved by the invariant rule
(`ReachableBy.invariant`).  Its runs may be restricted to those whose steps all
meet a condition, which is how a property that only some runs have is stated.

A machine refines another along an abstraction function when each of its steps
is one abstract step or none (`Refines`).

A function that keeps a state between its calls may answer as one without a state
does; then so does any sequence of its calls (`Answers.mapM`).
-/

/-- A transition system with an executable step function. -/
structure Machine (State Event : Type) where
  /-- The initial states. -/
  init : State → Prop
  /-- One step; `none` when the event is not enabled. -/
  step : State → Event → Option State

namespace Machine
variable {State Event : Type} (M : Machine State Event)

/-- The states reached by runs all of whose steps meet `P`. -/
inductive ReachableBy (P : State → Event → Prop) : State → Prop
  | start {s : State} : M.init s → ReachableBy P s
  | next {s s' : State} {e : Event} :
      ReachableBy P s → P s e → M.step s e = some s' → ReachableBy P s'

/-- The states reached by any run. -/
def Reachable (s : State) : Prop := M.ReachableBy (fun _ _ => True) s

/-- The same steps, from one state on. -/
def after (s : State) : Machine State Event where
  init t := t = s
  step := M.step

/-- The state after a list of events. -/
def run (s : State) : List Event → Option State
  | [] => some s
  | e :: es => (M.step s e).bind fun s' => run s' es

/-- The state after a list of events, if all the steps meet `P`. -/
def runBy (P : State → Event → Prop) [∀ s e, Decidable (P s e)] (s : State) :
    List Event → Option State
  | [] => some s
  | e :: es => if P s e then (M.step s e).bind fun s' => runBy P s' es else none

variable {M} {P : State → Event → Prop} {s s' : State}

/-- **The invariant rule.**  What holds initially and is kept by every step that
meets `P` holds in every state reached by such steps. -/
theorem ReachableBy.invariant {I : State → Prop} (h : M.ReachableBy P s)
    (start : ∀ s, M.init s → I s)
    (next : ∀ s e s', I s → P s e → M.step s e = some s' → I s') : I s := by
  induction h with
  | start h0 => exact start _ h0
  | next _ hp hs ih => exact next _ _ _ ih hp hs

theorem ReachableBy.mono {Q : State → Event → Prop} (h : M.ReachableBy P s)
    (hPQ : ∀ s e, P s e → Q s e) : M.ReachableBy Q s := by
  induction h with
  | start h0 => exact .start h0
  | next _ hp hs ih => exact .next ih (hPQ _ _ hp) hs

/-- Runs go on. -/
theorem ReachableBy.trans (h : M.ReachableBy P s) (h' : (M.after s).ReachableBy P s') :
    M.ReachableBy P s' := by
  induction h' with
  | start h0 => exact (show _ = s from h0) ▸ h
  | next _ hp hs ih => exact .next ih hp hs

theorem ReachableBy.reachable (h : M.ReachableBy P s) : M.Reachable s :=
  h.mono fun _ _ _ => trivial

theorem Reachable.step {e : Event} (h : M.Reachable s) (hs : M.step s e = some s') :
    M.Reachable s' :=
  ReachableBy.next h trivial hs

theorem Reachable.invariant {I : State → Prop} (h : M.Reachable s)
    (start : ∀ s, M.init s → I s)
    (next : ∀ s e s', I s → M.step s e = some s' → I s') : I s :=
  ReachableBy.invariant h start fun s e s' hi _ hs => next s e s' hi hs

/-- A list of events run from a reachable state ends in a reachable state. -/
theorem Reachable.run {es : List Event} (h : M.Reachable s) (hr : M.run s es = some s') :
    M.Reachable s' := by
  induction es generalizing s with
  | nil => exact Option.some.inj hr ▸ h
  | cons e es ih =>
    obtain ⟨t, ht, hr⟩ := Option.bind_eq_some_iff.mp hr
    exact ih (h.step ht) hr

theorem ReachableBy.runBy [∀ s e, Decidable (P s e)] {es : List Event} (h : M.ReachableBy P s)
    (hr : M.runBy P s es = some s') : M.ReachableBy P s' := by
  induction es generalizing s with
  | nil => exact Option.some.inj hr ▸ h
  | cons e es ih =>
    obtain ⟨hp, hr⟩ := Option.ite_none_right_eq_some.mp hr
    obtain ⟨t, ht, hr⟩ := Option.bind_eq_some_iff.mp hr
    exact ih (h.next hp ht) hr

/-- A run that can be evaluated reaches a state with what it evaluates to. -/
theorem exists_reachable {α : Type} {es : List Event} {f : State → α} {a : α}
    (hr : (M.run s es).map f = some a) (h0 : M.init s) : ∃ t, M.Reachable t ∧ f t = a := by
  obtain ⟨t, ht, hf⟩ := Option.map_eq_some_iff.mp hr
  exact ⟨t, Reachable.run (.start h0) ht, hf⟩

theorem exists_reachableBy [∀ s e, Decidable (P s e)] {α : Type} {es : List Event} {f : State → α}
    {a : α} (hr : (M.runBy P s es).map f = some a) (h0 : M.init s) :
    ∃ t, M.ReachableBy P t ∧ f t = a := by
  obtain ⟨t, ht, hf⟩ := Option.map_eq_some_iff.mp hr
  exact ⟨t, ReachableBy.runBy (.start h0) ht, hf⟩

/-- A run that can be evaluated goes on from a reachable state. -/
theorem exists_reachable_run {s : State} {es fs : List Event} {p : State → State → Bool}
    (hr : (M.run s es).any (fun t => (M.run t fs).any (p t)) = true) (h0 : M.init s) :
    ∃ t t', M.Reachable t ∧ M.run t fs = some t' ∧ p t t' = true := by
  obtain ⟨t, ht, hr⟩ := (Option.any_eq_true ..).mp hr
  obtain ⟨t', ht', hp⟩ := (Option.any_eq_true ..).mp hr
  exact ⟨t, t', Reachable.run (.start h0) ht, ht', hp⟩

theorem run_append (s : State) (es fs : List Event) :
    M.run s (es ++ fs) = (M.run s es).bind fun t => M.run t fs := by
  induction es generalizing s with
  | nil => rfl
  | cons e es ih =>
    simp only [List.cons_append, Machine.run, ih, Option.bind_assoc]

section Refinement
variable {Abs Act : Type} {A : Machine Abs Act} {abs : State → Abs}
  {label : State → Event → Option Act}

/-- **Refinement.**  Every initial state abstracts to an initial state, and every
step of a reachable state is the abstract step it is labelled with, or none. -/
structure Refines (M : Machine State Event) (A : Machine Abs Act) (abs : State → Abs)
    (label : State → Event → Option Act) : Prop where
  init : ∀ s, M.init s → A.init (abs s)
  step : ∀ s e s', M.Reachable s → M.step s e = some s' →
    match label s e with
    | none => abs s' = abs s
    | some a => A.step (abs s) a = some (abs s')

/-- Whatever the concrete machine reaches, the abstract one reaches too. -/
theorem Refines.reachable (h : Refines M A abs label) (hs : M.Reachable s) :
    A.Reachable (abs s) := by
  induction hs with
  | start h0 => exact .start (h.init _ h0)
  | @next s s' e hr _ hs ih =>
    have key := h.step s e s' hr hs
    cases hl : label s e with
    | none => rw [hl] at key; exact key ▸ ih
    | some a => rw [hl] at key; exact Reachable.step ih key

end Refinement

end Machine

section Hidden
variable {σ α β κ : Type} {f : α → StateM σ β} {spec : α → β} {P : α → Prop} {I : σ → Prop}

/-- From states in `I`, the calls of `f` with arguments in `P` answer as `spec` does, and
lead to states in `I`. -/
def Answers (f : α → StateM σ β) (spec : α → β) (P : α → Prop) (I : σ → Prop) : Prop :=
  ∀ a s, P a → I s → ((f a).run s).1 = spec a ∧ I ((f a).run s).2

/-- **The state does not show**, whatever was called before. -/
theorem Answers.mapM (h : Answers f spec P I) {as : List α} (has : ∀ a ∈ as, P a) {s : σ}
    (hs : I s) : ((as.mapM f).run s).1 = as.map spec ∧ I ((as.mapM f).run s).2 := by
  induction as generalizing s with
  | nil => exact ⟨rfl, hs⟩
  | cons a as ih =>
    obtain ⟨hanswer, hnext⟩ := h a s (has a List.mem_cons_self) hs
    obtain ⟨hrest, hlast⟩ := ih (fun b hb => has b (List.mem_cons_of_mem a hb)) hnext
    rw [List.mapM_cons]
    refine ⟨?_, hlast⟩
    show ((f a).run s).1 :: ((as.mapM f).run ((f a).run s).2).1 = spec a :: as.map spec
    rw [hanswer, hrest]

variable [DecidableEq κ]

/-- A call that has the state under `k` to itself. -/
def onKey (k : κ) (x : StateM σ β) : StateM (κ → σ) β := fun s =>
  ((x.run (s k)).1, Function.update s k (x.run (s k)).2)

/-- Calls under many keys answer as those under one. -/
theorem Answers.keyed (h : Answers f spec P I) (key : α → κ) :
    Answers (fun a => onKey (key a) (f a)) spec P fun s => ∀ k, I (s k) := by
  intro a s ha hs
  obtain ⟨hanswer, hnext⟩ := h a (s (key a)) ha (hs (key a))
  refine ⟨hanswer, fun k => ?_⟩
  show I (Function.update s (key a) _ k)
  by_cases hk : k = key a
  · rw [hk, Function.update_self]
    exact hnext
  · rw [Function.update_of_ne hk]
    exact hs k

end Hidden
