import Xtr.CString
import Xtr.Record

/-!
# Posting a record

`sink::log_impl`, `post` and `post_variable_len`, with `transform_args` and
`wait_for_capacity` of `detail/transform_args.hpp`.

The reader moves while a record is being built, and the writer sees that only
when it loads the reader's counter.  `loads` lists what the reader releases just
before each of the loads still to come, so a call is a function of the argument
list, of the buffer and of the reader's progress; it has no result (`none`) when
the list runs out while the call still spins.

The arguments are transformed in the order in which the pack is evaluated (`order`):
those come to before take up the space of those after, wherever they stand.
-/
namespace Xtr
variable {F V C : Type}

/-- An argument of a log statement, by the overload it selects.  A
`std::string` that is an r-value is moved into the closure; every other value of
fixed size is forwarded, `nocopy` references included. -/
inductive Arg (V : Type)
  | value (type : Layout) (v : V)
  | cString (mem : List UInt8)
  | stringView (bytes : List UInt8)
  | string (bytes : List UInt8)
  | stringRvalue (bytes : List UInt8)
  | nocopyCString (mem : List UInt8)
  | nocopyString (bytes : List UInt8)
  | nocopyStringView (bytes : List UInt8)
  | vcopy (type : Layout) (bytes : List UInt8) (h : type.size ≤ bytes.length)

/-- `is_str || is_vcopy` of `log_impl`. -/
def Arg.isVariableLen : Arg V → Bool
  | .cString _ | .stringView _ | .string _ | .stringRvalue _ | .vcopy .. => true
  | _ => false

/-- The layout of what `transform_args` returns for the argument. -/
def Arg.layout : Arg V → Layout
  | .value type _ => type
  | .cString _ | .stringView _ | .string _ | .vcopy .. => .entry
  | .stringRvalue _ => .string
  | .nocopyCString _ | .nocopyString _ => .pointer
  | .nocopyStringView _ => .view

/-- The cell at an address, `base` being where the mapping starts. -/
def RingBuffer.readAt (rb : RingBuffer (Cell F V C)) (base addr : Nat) : Cell F V C :=
  rb.cell (addr - base)

def RingBuffer.storeAt (rb : RingBuffer (Cell F V C)) (base addr : Nat) (xs : List (Cell F V C)) :
    RingBuffer (Cell F V C) :=
  rb.store (addr - base) xs

/-! ## The calls -/

section Calls
variable (order : Arrangement) (base : Nat)

/-- The loop of `write_span`. -/
def writeSpanLoops (tags : Tags) (minsize : Nat) (rb : RingBuffer (Cell F V C)) :
    List Nat → Option (Option Span × RingBuffer (Cell F V C) × List Nat)
  | [] => none
  | n :: loads =>
    match (rb.reduceReadable n).writeSpanLoop tags minsize with
    | (rb, .spin) => writeSpanLoops tags minsize rb loads
    | (rb, .ret span) => some (span, rb, loads)

/-- A call of `write_span<Tags>(minsize)`. -/
def writeSpanCall (tags : Tags) (minsize : Nat) (rb : RingBuffer (Cell F V C)) (loads : List Nat) :
    Option (Option Span × RingBuffer (Cell F V C) × List Nat) := do
  -- only the speculative variant enters the loop without a load
  let (rb, loads) ←
    if tags.speculative then some (rb, loads)
    else match loads with
      | [] => none
      | n :: loads => some (rb.reduceReadable n, loads)
  match rb.writeSpan tags minsize with
  | (rb, .spin) => writeSpanLoops tags minsize rb loads
  | (rb, .ret span) => some (span, rb, loads)

/-- The variable-length area under construction: `vlen_cur`, `vlen_end`,
`overflow`. -/
structure Area (F V C : Type) where
  rb : RingBuffer (Cell F V C)
  loads : List Nat
  pos : Nat
  stop : Nat
  overflow : Bool

/-- `wait_for_capacity`; the result says whether `min_end` came within reach. -/
def waitForCapacity (nonBlocking : Bool) (minEnd : Nat) (rb : RingBuffer (Cell F V C))
    (stop : Nat) : List Nat → Option (Bool × RingBuffer (Cell F V C) × Nat × List Nat)
  | [] => if stop < minEnd then none else some (true, rb, stop, [])
  | n :: loads =>
    if stop < minEnd then
      let rb := (rb.reduceReadable n).acquire
      let s := rb.writeSpanNow
      let stop' := base + s.begin + s.size
      if stop' < minEnd ∧ (s.size = rb.capacity ∨ nonBlocking = true) then
        some (false, rb, stop, loads)
      else waitForCapacity nonBlocking minEnd rb stop' loads
    else some (true, rb, stop, n :: loads)

/-- `copy` of `transform_args.hpp`. -/
def copyBytes (nonBlocking : Bool) (a : Area F V C) (bytes : List UInt8) :
    Option (Bool × Area F V C) := do
  let (fits, rb, stop, loads) ←
    waitForCapacity base nonBlocking (a.pos + bytes.length) a.rb a.stop a.loads
  if fits then
    return (true, { a with
      rb := rb.storeAt base a.pos (bytes.map .byte)
      loads := loads, pos := a.pos + bytes.length, stop := stop })
  else
    return (false, { a with rb := rb, loads := loads, stop := stop })

/-- The string overloads of `transform_args`. -/
def transformString (nonBlocking : Bool) (a : Area F V C) (bytes : List UInt8) :
    Option (Entry V × Area F V C) := do
  let (copied, a) ← copyBytes base nonBlocking a bytes
  return (.stringTable (if copied then UInt32.ofNat bytes.length else truncated), a)

/-- `transform_args` on one argument. -/
def transformArg (nonBlocking : Bool) (a : Area F V C) : Arg V → Option (Entry V × Area F V C)
  | .value type v => some (.value type v, a)
  | .stringRvalue bytes => some (.ownedString bytes, a)
  | .nocopyCString mem => some (.refCString mem, a)
  | .nocopyString bytes => some (.refCString bytes, a)
  | .nocopyStringView bytes => some (.refStringView bytes, a)
  | .cString mem => transformString base nonBlocking a (cStr mem)
  | .stringView bytes => transformString base nonBlocking a bytes
  | .string bytes => transformString base nonBlocking a bytes
  | .vcopy type bytes _ => do
    let a := { a with pos := align a.pos type.alignment }
    let (copied, a) ← copyBytes base nonBlocking a bytes
    return (.variableLength type (UInt32.ofNat bytes.length),
      { a with overflow := a.overflow || !copied })

/-- `transform_args` on the arguments as they are come to. -/
def transformInTurn (nonBlocking : Bool) (a : Area F V C) :
    List (Arg V) → Option (List (Entry V) × Area F V C)
  | [] => some ([], a)
  | arg :: args => do
    let (e, a) ← transformArg base nonBlocking a arg
    let (es, a) ← transformInTurn nonBlocking a args
    return (e :: es, a)

/-- `transform_args` on a pack; what it returns goes to `make_lambda` in the order of the
pack. -/
def transformArgs (nonBlocking : Bool) (a : Area F V C) (args : List (Arg V)) :
    Option (List (Entry V) × Area F V C) := do
  let (es, a) ← transformInTurn base nonBlocking a (order.arrange args)
  return (order.restore es, a)

/-- A posted record is committed with its size, or dropped (and counted in
`dropped_count_`). -/
inductive Outcome
  | committed (size : Nat)
  | dropped
  deriving DecidableEq, Repr

variable (tags : Tags)

/-- The second call of `write_span` in `post` and `post_variable_len`, made when
the speculative span is too small. -/
def reserve (size : Nat) (rb : RingBuffer (Cell F V C)) (loads : List Nat) :
    Option (Option Span × RingBuffer (Cell F V C) × List Nat) :=
  if rb.writable < size then writeSpanCall ⟨tags.nonBlocking, false⟩ size rb loads
  else some (some rb.writeSpanNow, rb, loads)

/-- `post_variable_len`. -/
def postVariableLen (f : F) (args : List (Arg V)) (rb : RingBuffer (Cell F V C))
    (loads : List Nat) : Option (Outcome × RingBuffer (Cell F V C) × List Nat) := do
  let func := Layout.closure (args.map Arg.layout)
  let (_, rb, loads) ← writeSpanCall ⟨false, true⟩ 0 rb loads
  let record := base + rb.writeBegin
  let pos := funcPos record func
  let vlenPos := pos + func.size
  let size := vlenPos - record
  let (s, rb, loads) ← reserve tags size rb loads
  match s with
  | none => return (.dropped, rb, loads)
  | some s =>
    let rb := rb.storeAt base record (fptrCells (.trampolineV f func))
    let (entries, a) ← transformArgs order base tags.nonBlocking
      ⟨rb, loads, vlenPos, base + s.begin + s.size, false⟩ args
    let rb := a.rb.storeAt base pos (closureCells (.args entries) func.size)
    if a.overflow then return (.dropped, rb, a.loads)
    else
      let total := align a.pos fptrSize - record
      return (.committed total, rb.reduceWritable total, a.loads)

/-- `post`: a closure whose size is known at compile time.  Commands are posted
with the null format. -/
def post (f : Option F) (c : Closure V C) (func : Layout) (rb : RingBuffer (Cell F V C))
    (loads : List Nat) : Option (Outcome × RingBuffer (Cell F V C) × List Nat) := do
  let (_, rb, loads) ← writeSpanCall ⟨false, true⟩ 0 rb loads
  let record := base + rb.writeBegin
  let pos := funcPos record func
  let size := pos + align func.size fptrSize - record
  let (s, rb, loads) ← reserve tags size rb loads
  match s with
  | none => return (.dropped, rb, loads)
  | some _ =>
    let rb := rb.storeAt base record (fptrCells (.trampolineN f func))
    let rb := rb.storeAt base pos (closureCells c func.size)
    return (.committed size, rb.reduceWritable size, loads)

/-- `log_impl` without arguments. -/
def log0 (f : F) (rb : RingBuffer (Cell F V C)) (loads : List Nat) :
    Option (Outcome × RingBuffer (Cell F V C) × List Nat) := do
  let (s, rb, loads) ← writeSpanCall ⟨tags.nonBlocking, true⟩ fptrSize rb loads
  match s with
  | none => return (.dropped, rb, loads)
  | some s =>
    let rb := rb.storeAt base (base + s.begin) (fptrCells (.trampoline0 f))
    return (.committed fptrSize, rb.reduceWritable fptrSize, loads)

/-- The captures of a closure without variable-length arguments. -/
def Arg.capture : Arg V → Entry V
  | .value type v => .value type v
  | .nocopyCString mem => .refCString mem
  | .nocopyString bytes => .refCString bytes
  | .nocopyStringView bytes => .refStringView bytes
  | .stringRvalue bytes => .ownedString bytes
  | .cString _ | .stringView _ | .string _ => .stringTable 0
  | .vcopy type _ _ => .variableLength type 0

/-- `log_impl`. -/
def logImpl (f : F) (args : List (Arg V)) (rb : RingBuffer (Cell F V C)) (loads : List Nat) :
    Option (Outcome × RingBuffer (Cell F V C) × List Nat) :=
  match args with
  | [] => log0 base tags f rb loads
  | args =>
    if args.any Arg.isVariableLen then postVariableLen order base tags f args rb loads
    else post base tags (some f) (.args (args.map Arg.capture))
      (Layout.closure (args.map Arg.layout)) rb loads

end Calls
end Xtr
