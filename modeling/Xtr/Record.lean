import Xtr.Arrangement
import Xtr.RingBuffer
import Mathlib.Data.List.Forall2

/-!
# Log records

A record is a function pointer, a closure object and, for arguments whose length
is only known at run time, a variable-length area:

    fptr | pad | closure | strings and vcopy objects | pad

The pads are to the alignment of the closure type, of each copied object, and of
the function pointer that starts the next record.

A cell of the ring is a raw byte or one byte of the object representation of a
function pointer or of a closure; what the object's other bytes are is not
looked into.  Loading an object from cells that are not all of that object's
bytes in order fails: it stands for the jump through a garbage function pointer
or the use of a garbage closure.

The elements of a parameter pack are evaluated in the order that the compiler likes
best.  It is a parameter, the same for the writer as for the trampolines; a closure has
its captures in the order of the pack.

`F` is the static part of a log statement (format, level, tags), `V` the
captured values of fixed size and `C` the commands sent to the consumer.
-/
namespace Xtr

/-- `sizeof(fptr_t)`, and `alignof(fptr_t)`. -/
def fptrSize : Nat := 8

/-- The size and the alignment of a C++ type. -/
structure Layout where
  size : Nat
  alignment : Nat
  single : HasSingleBit alignment
  deriving DecidableEq

/-- `string_table_entry` and `variable_length_entry<T>` are one `uint32_t`. -/
def Layout.entry : Layout := ⟨4, 4, 2, by decide, rfl⟩

def Layout.pointer : Layout := ⟨8, 8, hasSingleBit_8⟩

/-- `std::string_view`, and `string_ref` of one. -/
def Layout.view : Layout := ⟨16, 8, hasSingleBit_8⟩

/-- `std::string`. -/
def Layout.string : Layout := ⟨32, 8, hasSingleBit_8⟩

/-- One field laid out after `l`. -/
def Layout.push (l field : Layout) : Layout where
  size := align l.size field.alignment + field.size
  alignment := max l.alignment field.alignment
  single := by
    rcases max_choice l.alignment field.alignment with h | h <;> rw [h]
    exacts [l.single, field.single]

/-- The layout of a closure type, with its captures in order: a class layout.
An empty class still has size one. -/
def Layout.closure (fields : List Layout) : Layout :=
  let l := fields.foldl Layout.push ⟨0, 1, 0, by decide, rfl⟩
  { l with size := max 1 (align l.size l.alignment) }

section Types
variable (F V C : Type)

/-- The captures of a log statement's closure, as `transform_args` returns them. -/
inductive Entry
  | value (type : Layout) (v : V)
  | ownedString (bytes : List UInt8)
  | refCString (mem : List UInt8)
  | refStringView (bytes : List UInt8)
  | stringTable (size : UInt32)
  | variableLength (type : Layout) (size : UInt32)
  deriving DecidableEq

/-- The object behind a record's function pointer: the captures of a log
statement, or a command for the consumer. -/
inductive Closure
  | args (entries : List (Entry V))
  | command (c : C)
  deriving DecidableEq

/-- The instantiations of `trampoline0`, `trampolineN` and `trampolineV`.  A
command has the null format. -/
inductive Trampoline
  | trampoline0 (format : F)
  | trampolineN (format : Option F) (func : Layout)
  | trampolineV (format : F) (func : Layout)
  deriving DecidableEq

inductive Cell
  | byte (b : UInt8)
  | fptr (t : Trampoline F) (k : Nat)
  | closure (c : Closure V C) (k : Nat)
  deriving DecidableEq

/-- An argument as `reconstruct_args` hands it to `print`. -/
inductive Reconstructed
  | value (v : V)
  | ownedString (bytes : List UInt8)
  | refCString (mem : List UInt8)
  | stringRef (bytes : List UInt8)
  | copied (type : Layout) (bytes : List UInt8)
  deriving DecidableEq

/-- What a trampoline does with a record. -/
inductive Invocation
  | print (format : F) (args : List (Reconstructed V))
  | command (c : C)
  deriving DecidableEq

end Types

variable {F V C : Type}

/-- `string_table_entry::truncated`. -/
def truncated : UInt32 := 0xFFFFFFFF

/-- The text `reconstruct_args` puts in place of a truncated string. -/
def truncatedMarker : List UInt8 := "<truncated>".toUTF8.toList

/-- The layout of a capture. -/
def Entry.layout : Entry V → Layout
  | .value type _ => type
  | .ownedString _ => .string
  | .refCString _ => .pointer
  | .refStringView _ => .view
  | .stringTable _ => .entry
  | .variableLength _ _ => .entry

/-- `lambda_t`. -/
def lambdaLayout (entries : List (Entry V)) : Layout := .closure (entries.map Entry.layout)

/-- `func_pos` of a record at `record`. -/
def funcPos (record : Nat) (func : Layout) : Nat :=
  if func.alignment > fptrSize then align (record + fptrSize) func.alignment
  else record + fptrSize

/-! ## Reading a record -/

section Read
variable (order : Arrangement) (read : Nat → Cell F V C)

/-- `n` cells from an address. -/
def cells (addr n : Nat) : List (Cell F V C) := (List.range n).map fun k => read (addr + k)

/-- The bytes of a function pointer. -/
def fptrCells (t : Trampoline F) : List (Cell F V C) := (List.range fptrSize).map (.fptr t)

/-- The bytes of a closure object. -/
def closureCells (c : Closure V C) (size : Nat) : List (Cell F V C) :=
  (List.range size).map (.closure c)

def loadFptr [DecidableEq F] [DecidableEq V] [DecidableEq C] (addr : Nat) :
    Option (Trampoline F) :=
  match read addr with
  | .fptr t _ => if cells read addr fptrSize = fptrCells t then some t else none
  | _ => none

def loadClosure [DecidableEq F] [DecidableEq V] [DecidableEq C] (addr size : Nat) :
    Option (Closure V C) :=
  match read addr with
  | .closure c _ => if cells read addr size = closureCells c size then some c else none
  | _ => none

def Cell.asByte : Cell F V C → Option UInt8
  | .byte b => some b
  | _ => none

def loadBytes (addr n : Nat) : Option (List UInt8) := (cells read addr n).mapM Cell.asByte

/-- `reconstruct_args` on one capture; the second component is `pos` after it. -/
def reconstructArg (pos : Nat) : Entry V → Option (Reconstructed V × Nat)
  | .value _ v => some (.value v, pos)
  | .ownedString bytes => some (.ownedString bytes, pos)
  | .refCString mem => some (.refCString mem, pos)
  | .refStringView bytes => some (.stringRef bytes, pos)
  | .stringTable size =>
    if size = truncated then some (.stringRef truncatedMarker, pos)
    else (loadBytes read pos size.toNat).map fun bytes => (.stringRef bytes, pos + size.toNat)
  | .variableLength type size =>
    let pos := align pos type.alignment
    (loadBytes read pos size.toNat).map fun bytes => (.copied type bytes, pos + size.toNat)

/-- `reconstruct_args` on the captures as they are come to. -/
def reconstructInTurn (pos : Nat) : List (Entry V) → Option (List (Reconstructed V) × Nat)
  | [] => some ([], pos)
  | e :: es => do
    let (r, pos) ← reconstructArg read pos e
    let (rs, pos) ← reconstructInTurn pos es
    return (r :: rs, pos)

/-- `reconstruct_args` on a pack. -/
def reconstructArgs (pos : Nat) (entries : List (Entry V)) :
    Option (List (Reconstructed V) × Nat) := do
  let (rs, pos) ← reconstructInTurn read pos (order.arrange entries)
  return (order.restore rs, pos)

/-- The call through the function pointer at `record`: what it invokes, and the
address it returns. -/
def trampoline [DecidableEq F] [DecidableEq V] [DecidableEq C] (record : Nat) :
    Option (Invocation F V C × Nat) := do
  match ← loadFptr read record with
  | .trampoline0 f => return (.print f [], record + fptrSize)
  | .trampolineN f func =>
    let pos := funcPos record func
    match f, ← loadClosure read pos func.size with
    | none, .command c => return (.command c, pos + align func.size fptrSize)
    | some f, .args entries =>
      let (args, _) ← reconstructArgs order read record entries
      return (.print f args, pos + align func.size fptrSize)
    | _, _ => none
  | .trampolineV f func =>
    let pos := funcPos record func
    match ← loadClosure read pos func.size with
    | .args entries =>
      let (args, record) ← reconstructArgs order read (pos + func.size) entries
      return (.print f args, align record fptrSize)
    | _ => none

end Read

/-! ## What a record holds -/

/-- An argument as it was committed: a capture of fixed size, a string copied
whole, one recorded as truncated, or an object copied by `vcopy`. -/
inductive Item (V : Type)
  | fixed (e : Entry V)
  | string (bytes : List UInt8)
  | truncated
  | copied (type : Layout) (bytes : List UInt8)
  deriving DecidableEq

namespace Item

/-- Captures that `reconstruct_args` forwards as they are. -/
def forwards : Entry V → Bool
  | .stringTable _ => false
  | .variableLength _ _ => false
  | _ => true

/-- The item's lengths fit the 32-bit entries, and a fixed capture is one that
is forwarded. -/
def Valid : Item V → Prop
  | fixed e => forwards e = true
  | string bytes => bytes.length < 2 ^ 32 - 1
  | truncated => True
  | copied _ bytes => bytes.length < 2 ^ 32 - 1

def entry : Item V → Entry V
  | fixed e => e
  | string bytes => .stringTable (UInt32.ofNat bytes.length)
  | truncated => .stringTable Xtr.truncated
  | copied type bytes => .variableLength type (UInt32.ofNat bytes.length)

/-- What the argument is reconstructed to. -/
def reconstructed : Item V → Reconstructed V
  | fixed (.value _ v) => .value v
  | fixed (.ownedString bytes) => .ownedString bytes
  | fixed (.refCString mem) => .refCString mem
  | fixed (.refStringView bytes) => .stringRef bytes
  | fixed _ => .stringRef []
  | string bytes => .stringRef bytes
  | truncated => .stringRef truncatedMarker
  | copied type bytes => .copied type bytes

/-- Where the item's bytes are, if it has any in the variable-length area. -/
def start (pos : Nat) : Item V → Nat
  | copied type _ => align pos type.alignment
  | _ => pos

def bytes : Item V → List UInt8
  | string bytes => bytes
  | copied _ bytes => bytes
  | _ => []

def finish (pos : Nat) (i : Item V) : Nat := i.start pos + i.bytes.length

/-- Where a list of items ends. -/
def finishAll (pos : Nat) : List (Item V) → Nat
  | [] => pos
  | i :: is => finishAll (i.finish pos) is

/-- The variable-length area at `pos` holds the items. -/
def Hold (read : Nat → Cell F V C) (pos : Nat) : List (Item V) → Prop
  | [] => True
  | i :: is => cells read (i.start pos) i.bytes.length = i.bytes.map .byte ∧
      Hold read (i.finish pos) is

end Item

/-- A committed record. -/
inductive Record (F V C : Type)
  | log0 (format : F)
  | logN (format : F) (entries : List (Entry V))
  | logV (format : F) (items : List (Item V))
  | command (c : C) (func : Layout)
  deriving DecidableEq

namespace Record

def Valid : Record F V C → Prop
  | log0 _ => True
  | logN _ entries => ∀ e ∈ entries, Item.forwards e = true
  | logV _ items => ∀ i ∈ items, i.Valid
  | command _ func => 0 < func.size

def trampoline : Record F V C → Trampoline F
  | log0 f => .trampoline0 f
  | logN f entries => .trampolineN (some f) (lambdaLayout entries)
  | logV f items => .trampolineV f (lambdaLayout (items.map Item.entry))
  | command _ func => .trampolineN none func

/-- The size of the record at an address. -/
def size (order : Arrangement) (addr : Nat) : Record F V C → Nat
  | log0 _ => fptrSize
  | logN _ entries =>
    let func := lambdaLayout entries
    funcPos addr func + align func.size fptrSize - addr
  | logV _ items =>
    let func := lambdaLayout (items.map Item.entry)
    align (Item.finishAll (funcPos addr func + func.size) (order.arrange items)) fptrSize - addr
  | command _ func => funcPos addr func + align func.size fptrSize - addr

def invocation : Record F V C → Invocation F V C
  | log0 f => .print f []
  | logN f entries => .print f (entries.map fun e => (Item.fixed e).reconstructed)
  | logV f items => .print f (items.map Item.reconstructed)
  | command c _ => .command c

/-- The closure and where it stands. -/
def closure? : Record F V C → Option (Closure V C × Layout)
  | log0 _ => none
  | logN _ entries => some (.args entries, lambdaLayout entries)
  | logV _ items => some (.args (items.map Item.entry), lambdaLayout (items.map Item.entry))
  | command c func => some (.command c, func)

/-- The captures in the record's closure. -/
def entries : Record F V C → List (Entry V)
  | log0 _ => []
  | logN _ entries => entries
  | logV _ items => items.map Item.entry
  | command _ _ => []

/-- The memory at `addr` holds the record.  Padding holds anything. -/
structure Holds (order : Arrangement) (read : Nat → Cell F V C) (addr : Nat)
    (r : Record F V C) : Prop where
  fptr : cells read addr fptrSize = fptrCells r.trampoline
  closure : ∀ c func, r.closure? = some (c, func) →
    cells read (funcPos addr func) func.size = closureCells c func.size
  area : ∀ f is, r = logV f is →
    Item.Hold read (funcPos addr (lambdaLayout (is.map Item.entry)) +
      (lambdaLayout (is.map Item.entry)).size) (order.arrange is)

end Record

/-! ## A trampoline reads back the record it is called at -/

theorem le_funcPos (addr : Nat) (func : Layout) : addr + fptrSize ≤ funcPos addr func := by
  unfold funcPos
  split
  · exact le_align func.single.pos
  · exact Nat.le_refl _

theorem lambdaLayout_size_pos (entries : List (Entry V)) : 0 < (lambdaLayout entries).size :=
  Nat.le_max_left 1 _

theorem Item.start_le (pos : Nat) (i : Item V) : pos ≤ i.start pos := by
  cases i with
  | copied type bytes => exact le_align type.single.pos
  | _ => exact Nat.le_refl pos

theorem Item.le_finish (pos : Nat) (i : Item V) : pos ≤ i.finish pos :=
  Nat.le_trans (i.start_le pos) (Nat.le_add_right _ _)

theorem Item.le_finishAll (pos : Nat) (is : List (Item V)) : pos ≤ finishAll pos is := by
  induction is generalizing pos with
  | nil => exact Nat.le_refl pos
  | cons i is ih => exact Nat.le_trans (i.le_finish pos) (ih _)

theorem cells_head {read : Nat → Cell F V C} {addr n : Nat} {g : Nat → Cell F V C}
    (hn : 0 < n) (h : cells read addr n = (List.range n).map g) : read addr = g 0 := by
  have := congrArg (·[0]?) h
  simpa [cells, hn] using this

section Trampoline
variable [DecidableEq F] [DecidableEq V] [DecidableEq C] {order : Arrangement}
  {read : Nat → Cell F V C}

theorem loadFptr_eq {addr : Nat} {t : Trampoline F} (h : cells read addr fptrSize = fptrCells t) :
    loadFptr read addr = some t := by
  unfold loadFptr
  rw [cells_head (by decide) h]
  exact if_pos h

theorem loadClosure_eq {addr size : Nat} {c : Closure V C} (hpos : 0 < size)
    (h : cells read addr size = closureCells c size) : loadClosure read addr size = some c := by
  unfold loadClosure
  rw [cells_head hpos h]
  exact if_pos h

omit [DecidableEq F] [DecidableEq V] [DecidableEq C] in
theorem loadBytes_eq {addr : Nat} {bytes : List UInt8}
    (h : cells read addr bytes.length = bytes.map .byte) :
    loadBytes read addr bytes.length = some bytes := by
  unfold loadBytes
  rw [h]
  clear h
  induction bytes with
  | nil => rfl
  | cons b bs ih =>
    rw [List.map_cons, List.mapM_cons, ih]
    rfl

omit [DecidableEq F] [DecidableEq V] [DecidableEq C] in
/-- One argument is reconstructed to what was committed, and `pos` moves to the
item's end. -/
theorem reconstructArg_item {pos : Nat} {i : Item V} (hv : i.Valid)
    (h : cells read (i.start pos) i.bytes.length = i.bytes.map .byte) :
    reconstructArg read pos i.entry = some (i.reconstructed, i.finish pos) := by
  have toNat_length : ∀ bytes : List UInt8, bytes.length < 2 ^ 32 - 1 →
      (UInt32.ofNat bytes.length).toNat = bytes.length := by
    intro bytes hlt
    rw [UInt32.toNat_ofNat']
    exact Nat.mod_eq_of_lt (by omega)
  cases i with
  | fixed e =>
    cases e with
    | stringTable size => cases hv
    | variableLength type size => cases hv
    | _ => rfl
  | string bytes =>
    have hlen := toNat_length bytes hv
    -- a length that fits is not the mark of a truncated string
    have hne : UInt32.ofNat bytes.length ≠ truncated := by
      intro he
      have := congrArg UInt32.toNat he
      rw [hlen] at this
      have hv : bytes.length < 2 ^ 32 - 1 := hv
      rw [this] at hv
      exact absurd hv (by decide)
    have h : cells read pos bytes.length = bytes.map .byte := h
    simp only [Item.entry, reconstructArg, if_neg hne, hlen]
    rw [loadBytes_eq h]
    rfl
  | truncated => rfl
  | copied type bytes =>
    have h : cells read (align pos type.alignment) bytes.length = bytes.map .byte := h
    simp only [Item.entry, reconstructArg, toNat_length bytes hv]
    rw [loadBytes_eq h]
    rfl

omit [DecidableEq F] [DecidableEq V] [DecidableEq C] in
theorem reconstructInTurn_items {pos : Nat} {is : List (Item V)} (hv : ∀ i ∈ is, i.Valid)
    (h : Item.Hold read pos is) :
    reconstructInTurn read pos (is.map Item.entry) =
      some (is.map Item.reconstructed, Item.finishAll pos is) := by
  induction is generalizing pos with
  | nil => rfl
  | cons i is ih =>
    obtain ⟨hi, his⟩ := h
    have hrest := ih (fun j hj => hv j (by simp [hj])) his
    simp only [List.map_cons, reconstructInTurn, reconstructArg_item (hv i (by simp)) hi,
      Option.bind_eq_bind, Option.bind_some, hrest]
    rfl

omit [DecidableEq F] [DecidableEq V] [DecidableEq C] in
/-- In whatever order they are come to, the arguments are those of the pack. -/
theorem reconstructArgs_items {pos : Nat} {is : List (Item V)} (hv : ∀ i ∈ is, i.Valid)
    (h : Item.Hold read pos (order.arrange is)) :
    reconstructArgs order read pos (is.map Item.entry) =
      some (is.map Item.reconstructed, Item.finishAll pos (order.arrange is)) := by
  have hturn := reconstructInTurn_items (fun i hi => hv i (order.mem_arrange.mp hi)) h
  unfold reconstructArgs
  rw [order.arrange_map, hturn]
  show some (order.restore _, _) = _
  rw [order.restore_map, order.restore_arrange]

omit [DecidableEq F] [DecidableEq V] [DecidableEq C] in
/-- A closure without variable-length captures needs no area. -/
theorem reconstructArgs_forwards {pos : Nat} {es : List (Entry V)}
    (hv : ∀ e ∈ es, Item.forwards e = true) :
    ∃ pos', reconstructArgs order read pos es =
      some (es.map fun e => (Item.fixed e).reconstructed, pos') := by
  have hold : Item.Hold read pos (order.arrange (es.map Item.fixed)) := by
    rw [order.arrange_map]
    clear hv
    induction order.arrange es with
    | nil => trivial
    | cons e es ih => exact ⟨rfl, ih⟩
  have valid : ∀ i ∈ es.map Item.fixed, i.Valid := by
    intro i hi
    obtain ⟨e, he, rfl⟩ := List.mem_map.mp hi
    exact hv e he
  have key := reconstructArgs_items valid hold
  rw [List.map_map, List.map_map, show (Item.entry ∘ Item.fixed : Entry V → Entry V) = id from rfl,
    List.map_id] at key
  exact ⟨_, key⟩

/-- **A trampoline called at a record reconstructs its arguments and returns its
end.** -/
theorem trampoline_of_holds {addr : Nat} {r : Record F V C} (hv : r.Valid)
    (h : r.Holds order read addr) :
    trampoline order read addr = some (r.invocation, addr + r.size order addr) := by
  have hf := loadFptr_eq h.fptr
  unfold trampoline
  rw [hf]
  cases r with
  | log0 f => rfl
  | logN f entries =>
    have hpos := le_funcPos addr (lambdaLayout entries)
    have hc := loadClosure_eq (lambdaLayout_size_pos entries) (h.closure _ _ rfl)
    -- `trampolineN` has no area: whatever `pos` is, the captures are forwarded
    obtain ⟨pos', hargs⟩ : ∃ pos', reconstructArgs order read addr entries =
        some (entries.map fun e => (Item.fixed e).reconstructed, pos') :=
      reconstructArgs_forwards hv
    simp only [Record.trampoline, Option.bind_eq_bind, Option.bind_some,
      hc, hargs]
    show some _ = some _
    simp only [Record.invocation, Record.size]
    congr 2
    omega
  | logV f is =>
    have hpos := le_funcPos addr (lambdaLayout (is.map Item.entry))
    have hend := Item.le_finishAll (funcPos addr (lambdaLayout (is.map Item.entry)) +
      (lambdaLayout (is.map Item.entry)).size) (order.arrange is)
    have hal : Item.finishAll (funcPos addr (lambdaLayout (is.map Item.entry)) +
        (lambdaLayout (is.map Item.entry)).size) (order.arrange is) ≤ align _ fptrSize :=
          le_align (by decide)
    have hc := loadClosure_eq (lambdaLayout_size_pos (is.map Item.entry)) (h.closure _ _ rfl)
    simp only [Record.trampoline, Option.bind_eq_bind, Option.bind_some,
      hc,
      reconstructArgs_items hv (h.area f is rfl)]
    show some _ = some _
    simp only [Record.invocation, Record.size]
    congr 2
    omega
  | command c func =>
    have hpos := le_funcPos addr func
    have hc := loadClosure_eq hv (h.closure _ _ rfl)
    simp only [Record.trampoline, Option.bind_eq_bind, Option.bind_some,
      hc]
    show some _ = some _
    simp only [Record.invocation, Record.size]
    congr 2
    omega

end Trampoline
end Xtr
