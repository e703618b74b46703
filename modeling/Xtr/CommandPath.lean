import Mathlib.Logic.Function.Basic
import Xtr.CString

/-!
# The command path

`consumer::set_command_path`, with the constructor and the destructor of
`command_dispatcher`, on the name space that sockets are bound in.

The new dispatcher is constructed before the old one is destroyed: it binds its name while
the old one still has its own, and the old one unlinks its name after that.  That is as it
should be for two different names, and a call that sets the current path again finds the
name in use: the new dispatcher is not open, the old one is gone, and its name with it
(`last_path_wins_iff`).

Names are what `bind` takes them for.  A path that starts with a zero names an abstract
socket, by all the bytes of `sun_path`; any other path leads to a file, and two paths may
lead to the same one (`resolve`).
-/
namespace Xtr.CommandPath

/-! ## Names -/

/-- What a socket is bound to. -/
inductive Address
  | abstract (name : Str)
  | file (inode : Nat)
  deriving DecidableEq

/-- Sockets are numbered as they are created; those of other programs are not. -/
inductive Owner
  | socket (n : Nat)
  | foreign
  deriving DecidableEq

/-- `sizeof(sockaddr_un::sun_path)`. -/
def sunPathSize : Nat := 108

def nullCommandPath : Str := []

section Paths
variable (resolve : Str → Nat)

/-- The name `bind` is given for a path. -/
def address (path : Str) : Address :=
  if path.headD 0 = 0 then .abstract (path ++ List.replicate (sunPathSize - path.length) 0)
  else .file (resolve (cStr path))

/-! ## The dispatcher -/

/-- `command_dispatcher`: `path_`, and the socket at the front of `pollfds_`. -/
structure Dispatcher where
  path : Str
  listening : Option Nat
  deriving DecidableEq

/-- `is_open`. -/
def Dispatcher.isOpen (d : Dispatcher) : Bool := d.listening.isSome

/-- `cmds_`, who has each name, and how many sockets there have been. -/
structure State where
  cmds : Option Dispatcher
  names : Address → Option Owner
  sockets : Nat

/-- What `socket`, `bind` and `listen` come to, apart from names that are in use. -/
structure System where
  socket : Bool
  permitted : Bool
  listen : Bool

/-- A socket is closed: an abstract name goes with it, a file stays. -/
def close (s : State) (n : Nat) : State :=
  { s with names := fun a => match a with
      | .abstract _ => if s.names a = some (.socket n) then none else s.names a
      | .file _ => s.names a }

/-- `unlink`; no file has the empty path. -/
def unlink (s : State) (path : Str) : State :=
  if path = [] then s else { s with names := Function.update s.names (.file (resolve path)) none }

/-- The constructor.  What it created is closed again when it returns early. -/
def construct (sys : System) (s : State) (path : Str) : State × Dispatcher :=
  if path.length > sunPathSize - 1 then (s, ⟨[], none⟩)
  else if !sys.socket then (s, ⟨[], none⟩)
  else
    let n := s.sockets
    let s := { s with sockets := n + 1 }
    if !sys.permitted || (s.names (address resolve path)).isSome then (close s n, ⟨[], none⟩)
    else
      let s := { s with names := Function.update s.names (address resolve path) (some (.socket n)) }
      if !sys.listen then (close s n, ⟨path, none⟩)
      else (s, ⟨path, some n⟩)

/-- The destructor: `path_` is unlinked, and then the members are destroyed. -/
def destruct (s : State) (d : Dispatcher) : State :=
  let s := if d.path ≠ [] then unlink resolve s (cStr d.path) else s
  match d.listening with
  | none => s
  | some n => close s n

/-- `cmds_.reset(d)`. -/
def reset (s : State) (d : Option Dispatcher) : State :=
  let s' := match s.cmds with
    | none => s
    | some old => destruct resolve s old
  { s' with cmds := d }

/-- `set_command_path`. -/
def setCommandPath (sys : System) (s : State) (path : Str) : State :=
  if path = nullCommandPath then reset resolve s none
  else
    let (s, d) := construct resolve sys s path
    let s := reset resolve s (some d)
    if !d.isOpen then reset resolve s none else s

/-! ## Sequences of calls -/

/-- The calls succeed but for names that are in use. -/
def able : System := ⟨true, true, true⟩

/-- The consumer listens at the path, and at no other path of `paths`. -/
def Wins (paths : List Str) (s : State) (path : Str) : Prop :=
  ∃ n, s.cmds = some ⟨path, some n⟩ ∧ s.names (address resolve path) = some (.socket n) ∧
    ∀ other ∈ paths, address resolve other ≠ address resolve path →
      s.names (address resolve other) = none

/-- **The last path wins**, after each of the calls. -/
def AlwaysWins (paths : List Str) : State → List Str → Prop
  | _, [] => True
  | s, path :: calls =>
    let s := setCommandPath resolve able s path
    (path ≠ nullCommandPath → Wins resolve paths s path) ∧ AlwaysWins paths s calls

/-- No call sets the name that is current. -/
def NeverRepeats : Option Str → List Str → Prop
  | _, [] => True
  | current, path :: calls =>
    if path = nullCommandPath then NeverRepeats none calls
    else (∀ c ∈ current, address resolve c ≠ address resolve path) ∧ NeverRepeats (some path) calls

/-- Nothing has been set yet; other programs have bound names. -/
def initial (foreign : Address → Bool) : State :=
  ⟨none, fun a => if foreign a then some .foreign else none, 0⟩

end Paths

variable {resolve : Str → Nat} {s : State} {path : Str}

/-! ## Construction and destruction -/

theorem address_eq_file (h : path.headD 0 ≠ 0) :
    address resolve path = .file (resolve (cStr path)) :=
  if_neg h

/-- A path that starts with a zero is empty as a C string. -/
theorem cStr_eq_nil_iff : cStr path = [] ↔ path.headD 0 = 0 := by
  cases path with
  | nil => exact iff_of_true rfl rfl
  | cons b path =>
    rw [cStr, List.takeWhile_cons, List.headD_cons]
    by_cases hb : b = 0
    · simp [hb]
    · simp [hb]

/-- Closing a socket that no name leads to changes nothing. -/
theorem names_close_of_unnamed {n : Nat} (h : ∀ a, s.names a ≠ some (.socket n)) :
    (close s n).names = s.names := by
  funext a
  cases a with
  | abstract name => exact if_neg (h _)
  | file inode => rfl

/-- **The name of a dispatcher goes with it**, and no other. -/
theorem names_destruct {n : Nat} (hpath : path ≠ [])
    (honly : ∀ a, s.names a = some (.socket n) ↔ a = address resolve path) :
    (destruct resolve s ⟨path, some n⟩).names =
      Function.update s.names (address resolve path) none := by
  simp only [destruct, if_pos hpath]
  by_cases hhead : path.headD 0 = 0
  · -- an abstract name: there is nothing to unlink
    rw [unlink, if_pos (cStr_eq_nil_iff.mpr hhead)]
    funext a
    by_cases ha : a = address resolve path
    · subst ha
      have hname := (honly _).mpr rfl
      rw [Function.update_self]
      rw [address, if_pos hhead] at hname ⊢
      exact if_pos hname
    · rw [Function.update_of_ne ha]
      cases a with
      | abstract name => exact if_neg (mt (honly _).mp ha)
      | file inode => rfl
  · rw [unlink, if_neg (mt cStr_eq_nil_iff.mp hhead), ← address_eq_file hhead]
    refine names_close_of_unnamed fun a ha => ?_
    have ha : Function.update s.names (address resolve path) none a = some (.socket n) := ha
    by_cases heq : a = address resolve path
    · rw [heq, Function.update_self] at ha
      cases ha
    · rw [Function.update_of_ne heq] at ha
      exact heq ((honly a).mp ha)

/-- The constructor finds the name free, and binds it. -/
theorem construct_of_free (hlen : path.length ≤ sunPathSize - 1)
    (hfree : s.names (address resolve path) = none) :
    construct resolve able s path =
      ({ s with
          sockets := s.sockets + 1
          names := Function.update s.names (address resolve path) (some (.socket s.sockets)) },
        ⟨path, some s.sockets⟩) := by
  simp only [construct, able, if_neg (Nat.not_lt.mpr hlen), hfree, Bool.not_true,
    Option.isSome_none, Bool.or_self, Bool.false_eq_true, if_false]

/-- The constructor finds the name in use, and gives up. -/
theorem construct_of_used (hlen : path.length ≤ sunPathSize - 1)
    (hused : (s.names (address resolve path)).isSome = true) :
    construct resolve able s path =
      (close { s with sockets := s.sockets + 1 } s.sockets, ⟨[], none⟩) := by
  simp only [construct, able, if_neg (Nat.not_lt.mpr hlen), hused, Bool.not_true, Bool.false_or,
    Bool.false_eq_true, if_false, if_true]

/-! ## One call -/

/-- Where the consumer is between two calls.  `names` are those of other programs. -/
inductive At (resolve : Str → Nat) (names : Address → Option Owner) (s : State) : Option Str → Prop
  | closed : s.cmds = none → s.names = names → At resolve names s none
  | listens {path : Str} {n : Nat} : path ≠ [] → n < s.sockets → s.cmds = some ⟨path, some n⟩ →
      names (address resolve path) = none →
      s.names = Function.update names (address resolve path) (some (.socket n)) →
      At resolve names s (some path)

/-- The path that is current after a call. -/
def next (resolve : Str → Nat) (current : Option Str) (path : Str) : Option Str :=
  if path = nullCommandPath then none
  else if ∃ c ∈ current, address resolve c = address resolve path then none
  else some path

variable {names : Address → Option Owner} {current : Option Str}

theorem names_update_eq_socket_iff {a b : Address} {n : Nat}
    (hf : ∀ a n, names a ≠ some (.socket n)) :
    Function.update names b (some (.socket n)) a = some (.socket n) ↔ a = b := by
  by_cases h : a = b
  · rw [h, Function.update_self]
    exact iff_of_true rfl rfl
  · rw [Function.update_of_ne h]
    exact iff_of_false (hf a n) h

/-- `cmds_.reset()`. -/
theorem At.reset (h : At resolve names s current) (hf : ∀ a n, names a ≠ some (.socket n)) :
    At resolve names (reset resolve s none) none := by
  cases h with
  | closed hcmds hnames =>
    refine .closed rfl ?_
    simp only [CommandPath.reset, hcmds]
    exact hnames
  | @listens p n hp hn hcmds hfree hnames =>
    refine .closed rfl ?_
    have honly : ∀ a, s.names a = some (.socket n) ↔ a = address resolve p := by
      intro a
      rw [hnames]
      exact names_update_eq_socket_iff hf
    simp only [CommandPath.reset, hcmds]
    rw [names_destruct hp honly, hnames, Function.update_idem, ← hfree, Function.update_eq_self]

/-- The numbers of the sockets that have names. -/
theorem At.fresh (h : At resolve names s current) (hf : ∀ a n, names a ≠ some (.socket n))
    (a : Address) : s.names a ≠ some (.socket s.sockets) := by
  cases h with
  | closed _ hnames =>
    rw [hnames]
    exact hf a _
  | @listens p n _ hn _ _ hnames =>
    intro ha
    rw [hnames] at ha
    by_cases heq : a = address resolve p
    · rw [heq, Function.update_self] at ha
      cases ha
      exact Nat.lt_irrefl _ hn
    · rw [Function.update_of_ne heq] at ha
      exact hf a _ ha

/-- The name is free unless it is the current one. -/
theorem At.names_eq_none (h : At resolve names s current)
    (hfree : names (address resolve path) = none)
    (hnew : ∀ c ∈ current, address resolve c ≠ address resolve path) :
    s.names (address resolve path) = none := by
  cases h with
  | closed _ hnames => rw [hnames, hfree]
  | listens _ _ _ _ hnames => rw [hnames, Function.update_of_ne (hnew _ rfl).symm, hfree]

/-- **A new name is bound, and the old one is given up.** -/
theorem At.replace (h : At resolve names s current) (hf : ∀ a n, names a ≠ some (.socket n))
    (hpath : path ≠ []) (hlen : path.length ≤ sunPathSize - 1)
    (hfree : names (address resolve path) = none)
    (hnew : ∀ c ∈ current, address resolve c ≠ address resolve path) :
    At resolve names (setCommandPath resolve able s path) (some path) := by
  have hconstruct := construct_of_free hlen (h.names_eq_none hfree hnew)
  simp only [setCommandPath, nullCommandPath, if_neg hpath, hconstruct, Dispatcher.isOpen,
    Option.isSome_some, Bool.not_true, Bool.false_eq_true, if_false]
  cases h with
  | closed hcmds hnames =>
    simp only [CommandPath.reset, hcmds]
    exact .listens hpath (Nat.lt_succ_self _) rfl hfree (by rw [hnames])
  | @listens p n hp hn hcmds hfree' hnames =>
    have hne : address resolve p ≠ address resolve path := hnew p rfl
    have honly : ∀ a, Function.update s.names (address resolve path)
        (some (.socket s.sockets)) a = some (.socket n) ↔ a = address resolve p := by
      intro a
      by_cases ha : a = address resolve path
      · rw [ha, Function.update_self]
        refine iff_of_false (fun heq => ?_) hne.symm
        cases heq
        exact Nat.lt_irrefl _ hn
      · rw [Function.update_of_ne ha, hnames]
        exact names_update_eq_socket_iff hf
    have hdestruct := @names_destruct resolve { s with
      sockets := s.sockets + 1
      names := Function.update s.names (address resolve path) (some (.socket s.sockets)) } p n
        hp honly
    simp only [CommandPath.reset, hcmds]
    refine .listens hpath (n := s.sockets) ?_ rfl hfree ?_
    · simp only [destruct, if_pos hp]
      show s.sockets < (close _ n).sockets
      unfold unlink
      split <;> exact Nat.lt_succ_self _
    · rw [hcmds] at hdestruct
      refine hdestruct.trans ?_
      simp only [hnames]
      rw [Function.update_comm hne.symm, Function.update_idem, ← hfree', Function.update_eq_self]

/-- **The current name is set again**: it is in use, so the new dispatcher is not open; the
old one is destroyed all the same. -/
theorem At.repeats {c : Str} (h : At resolve names s (some c))
    (hf : ∀ a n, names a ≠ some (.socket n)) (hpath : path ≠ [])
    (hlen : path.length ≤ sunPathSize - 1) (heq : address resolve c = address resolve path) :
    At resolve names (setCommandPath resolve able s path) none := by
  have hfresh := h.fresh hf
  obtain ⟨⟩ | ⟨hp, hn, hcmds, hfree, hnames⟩ := id h
  have hused : (s.names (address resolve path)).isSome = true := by
    rw [hnames, ← heq, Function.update_self]
    rfl
  have hclose : At resolve names (close { s with sockets := s.sockets + 1 } s.sockets)
      (some c) := by
    refine .listens hp (Nat.lt_succ_of_lt hn) hcmds hfree ?_
    exact (names_close_of_unnamed (s := { s with sockets := s.sockets + 1 }) hfresh).trans hnames
  simp only [setCommandPath, nullCommandPath, if_neg hpath, construct_of_used hlen hused,
    Dispatcher.isOpen, Option.isSome_none, Bool.not_false, if_true]
  -- the dispatcher that failed has neither a name nor a socket
  have hreset := hclose.reset hf
  refine .closed rfl ?_
  obtain ⟨-, hnames'⟩ := hreset
  exact hnames'

/-- One call. -/
theorem At.step (h : At resolve names s current) (hf : ∀ a n, names a ≠ some (.socket n))
    (hlen : path.length ≤ sunPathSize - 1) (hfree : names (address resolve path) = none) :
    At resolve names (setCommandPath resolve able s path) (next resolve current path) := by
  unfold next
  split
  · rename_i hnull
    rw [setCommandPath, if_pos hnull]
    exact h.reset hf
  · rename_i hnull
    split
    · rename_i hrepeat
      obtain ⟨c, rfl, heq⟩ := hrepeat
      exact h.repeats hf hnull hlen heq
    · rename_i hnew
      exact h.replace hf hnull hlen hfree fun c hc heq => hnew ⟨c, hc, heq⟩

/-! ## Every sequence of calls -/

/-- The consumer listens where it was told to last. -/
theorem At.wins {paths : List Str} (h : At resolve names s (some path))
    (hfree : ∀ other ∈ paths, names (address resolve other) = none) :
    Wins resolve paths s path := by
  obtain ⟨⟩ | ⟨hp, hn, hcmds, -, hnames⟩ := h
  refine ⟨_, hcmds, ?_, fun other hmem hne => ?_⟩
  · rw [hnames, Function.update_self]
  · rw [hnames, Function.update_of_ne hne, hfree other hmem]

theorem At.not_wins {paths : List Str} (h : At resolve names s none) :
    ¬ Wins resolve paths s path := by
  rintro ⟨n, hcmds, -⟩
  obtain ⟨hnone, -⟩ := h
  rw [hnone] at hcmds
  cases hcmds

theorem At.alwaysWins_iff {paths calls : List Str} (h : At resolve names s current)
    (hf : ∀ a n, names a ≠ some (.socket n)) (hsub : ∀ path ∈ calls, path ∈ paths)
    (hlen : ∀ path ∈ paths, path.length ≤ sunPathSize - 1)
    (hfree : ∀ path ∈ paths, names (address resolve path) = none) :
    AlwaysWins resolve paths s calls ↔ NeverRepeats resolve current calls := by
  induction calls generalizing s current with
  | nil => exact Iff.rfl
  | cons path calls ih =>
    obtain ⟨hmem, hsub'⟩ := List.forall_mem_cons.mp hsub
    have hstep := h.step hf (hlen path hmem) (hfree path hmem)
    have hrest := ih hstep hsub'
    rw [AlwaysWins, NeverRepeats, hrest]
    unfold next at hstep ⊢
    by_cases hnull : path = nullCommandPath
    · simp only [hnull, if_true, ne_eq, not_true, false_implies, true_and]
    · simp only [if_neg hnull] at hstep ⊢
      by_cases hrepeat : ∃ c ∈ current, address resolve c = address resolve path
      · -- the dispatcher is gone
        rw [if_pos hrepeat] at hstep
        obtain ⟨c, hc, heq⟩ := hrepeat
        exact iff_of_false (fun hall => hstep.not_wins (hall.1 hnull)) (fun hall => hall.1 c hc heq)
      · simp only [if_neg hrepeat] at hstep ⊢
        have hnew : ∀ c ∈ current, address resolve c ≠ address resolve path :=
          fun c hc heq => hrepeat ⟨c, hc, heq⟩
        exact and_congr_left fun _ => iff_of_true (fun _ => hstep.wins hfree) hnew

/-- **When the last command path wins.**  The paths are short enough and nobody else has
their names: after every call the consumer listens at the path of that call and at no other
of the sequence, if and only if no call sets the name that is current. -/
theorem last_path_wins_iff (resolve : Str → Nat) (foreign : Address → Bool) (calls : List Str)
    (hlen : ∀ path ∈ calls, path.length ≤ sunPathSize - 1)
    (hfree : ∀ path ∈ calls, foreign (address resolve path) = false) :
    AlwaysWins resolve calls (initial foreign) calls ↔ NeverRepeats resolve none calls := by
  have hat : At resolve (initial foreign).names (initial foreign) none := .closed rfl rfl
  refine hat.alwaysWins_iff (fun a n => ?_) (fun _ h => h) hlen (fun path hmem => ?_)
  · simp only [initial]
    split <;> exact fun h => by cases h
  · simp only [initial, hfree path hmem, Bool.false_eq_true, if_false]

/-- Paths lead to files of their own. -/
def distinctFiles (path : Str) : Nat := path.foldr (fun b n => b.toNat + 1 + 257 * n) 0

/-- Two paths in turn, with the command socket closed in between. -/
theorem last_path_wins_alternates :
    AlwaysWins distinctFiles [[97], [98], [97], [], [97]] (initial fun _ => false)
      [[97], [98], [97], [], [97]] :=
  (last_path_wins_iff distinctFiles (fun _ => false) _ (by decide) (by decide)).mpr (by
    simp [NeverRepeats, nullCommandPath, address, distinctFiles, cStr])

/-- The path `a` is set twice: there is no dispatcher any more, and the name is not bound. -/
theorem same_path_closes : (setCommandPath distinctFiles able
      (setCommandPath distinctFiles able (initial fun _ => false) [97]) [97]).cmds = none ∧
    (setCommandPath distinctFiles able (setCommandPath distinctFiles able (initial fun _ => false)
      [97]) [97]).names (address distinctFiles [97]) = none ∧
    ¬ AlwaysWins distinctFiles [[97], [97]] (initial fun _ => false) [[97], [97]] := by
  have hnone : (setCommandPath distinctFiles able
      (setCommandPath distinctFiles able (initial fun _ => false) [97]) [97]).cmds = none := by
    decide +kernel
  refine ⟨hnone, by decide +kernel, ?_⟩
  rintro ⟨-, hwins, -⟩
  obtain ⟨n, hcmds, -⟩ := hwins (by decide)
  cases hnone.symm.trans hcmds

end Xtr.CommandPath
