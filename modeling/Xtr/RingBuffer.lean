import Xtr.Align
import Xtr.CircularMemory

/-!
# The synchronized ring buffer

`detail/synchronized_ring_buffer.hpp`.  One writer and one reader share a
mirrored mapping and two free-running 64-bit counters: `nwritten`, stored by the
writer only, and `nreadPlusCapacity`, stored by the reader only.  The reader's
counter runs `capacity` ahead of the bytes it has read, so that the writer gets
the free space by one subtraction.  The writer keeps a copy of its own counter
(`wrnwritten`) and a possibly stale copy of the reader's (`wrnreadPlusCapacity`).

The memory is generic in what a cell holds: the buffer moves cells about and
never looks at them.
-/
namespace Xtr

/-- How the capacity of a ring buffer is fixed: by the template argument, which
a static assertion requires to be a power of two, or by the `min_capacity`
argument of the dynamic buffer's constructor.  `std::bit_ceil` requires its
result to be representable, and page sizes are powers of two. -/
inductive Sizing
  | static (capacity : Nat) (h : HasSingleBit capacity)
  | dynamic (pagesize minCapacity : Nat) (hp : HasSingleBit pagesize) (hm : minCapacity ≤ 2 ^ 63)

/-- `std::bit_ceil`: the smallest power of two not below `n`. -/
def bitCeil (n : Nat) : Nat := 2 ^ Nat.clog 2 n

/-- `align_to_page_size` of `pagesize.cpp`. -/
def alignToPageSize (pagesize length : Nat) : Nat :=
  (alignBits (UInt64.ofNat length) (UInt64.ofNat pagesize)).toNat

namespace Sizing

/-- `capacity()`. -/
def capacity : Sizing → Nat
  | static capacity _ => capacity
  | dynamic pagesize minCapacity _ _ => alignToPageSize pagesize (bitCeil minCapacity)

/-- One page of 4 KiB. -/
def page : Sizing := .static 4096 ⟨12, by decide, rfl⟩

theorem page_dvd : 8 ∣ page.capacity := ⟨512, rfl⟩

theorem page_lt : page.capacity < 2 ^ 32 := by decide

/-- The width of `least_uint_t<N>`. -/
def leastUint (n : Nat) : Nat :=
  if n ≤ 0xFF then 8 else if n ≤ 0xFFFF then 16 else if n ≤ 0xFFFFFFFF then 32 else 64

/-- The width of `clamp_type`. -/
def clampWidth : Sizing → Nat
  | static capacity _ => leastUint (capacity - 1)
  | dynamic .. => 64

theorem bitCeil_hasSingleBit {n : Nat} (h : n ≤ 2 ^ 63) : HasSingleBit (bitCeil n) := by
  have := Nat.clog_mono_right 2 h
  rw [Nat.clog_pow 2 63 (by decide)] at this
  exact ⟨_, by omega, rfl⟩

/-- Rounding up to pages does not overflow on sizes up to `2 ^ 63`. -/
theorem alignToPageSize_eq {pagesize length : Nat} (hp : HasSingleBit pagesize)
    (hl : length ≤ 2 ^ 63) : alignToPageSize pagesize length = align length pagesize := by
  have hple := hp.le
  have hpv : (UInt64.ofNat pagesize).toNat = pagesize := by
    rw [UInt64.toNat_ofNat']
    exact Nat.mod_eq_of_lt (by omega)
  have hlv : (UInt64.ofNat length).toNat = length := by
    rw [UInt64.toNat_ofNat']
    exact Nat.mod_eq_of_lt (by omega)
  unfold alignToPageSize
  rw [alignBits_toNat (hpv.symm ▸ hp) (by rw [hpv, hlv]; omega), hpv, hlv]

/-- **Every capacity is a power of two**, however it was obtained. -/
theorem capacity_hasSingleBit (z : Sizing) : HasSingleBit z.capacity := by
  cases z with
  | static capacity h => exact h
  | dynamic pagesize minCapacity hp hm =>
    have hb := bitCeil_hasSingleBit hm
    show HasSingleBit (alignToPageSize pagesize (bitCeil minCapacity))
    rw [alignToPageSize_eq hp hb.le]
    rcases Nat.le_total pagesize (bitCeil minCapacity) with hle | hle
    · rw [align_of_dvd hp.pos (hp.dvd_of_le hb hle)]
      exact hb
    · have h1 := align_le_of_dvd hp.pos (Nat.dvd_refl pagesize) hle
      have h2 := Nat.le_of_dvd (Nat.lt_of_lt_of_le hb.pos (le_align hp.pos))
        (dvd_align (bitCeil minCapacity) pagesize)
      rw [Nat.le_antisymm h1 h2]
      exact hp

theorem capacity_pos (z : Sizing) : 0 < z.capacity := z.capacity_hasSingleBit.pos

theorem capacity_le (z : Sizing) : z.capacity ≤ 2 ^ 63 := z.capacity_hasSingleBit.le

theorem capacity_dvd (z : Sizing) : z.capacity ∣ 2 ^ 64 := by
  obtain ⟨k, hk, h⟩ := z.capacity_hasSingleBit
  rw [h]
  exact Nat.pow_dvd_pow 2 (Nat.le_of_lt hk)

/-- The narrowed type holds every offset: a capacity no larger than what it counts. -/
theorem capacity_le_clamp (z : Sizing) : z.capacity ≤ 2 ^ z.clampWidth := by
  cases z with
  | static capacity h =>
    show capacity ≤ 2 ^ leastUint (capacity - 1)
    have := h.le
    unfold leastUint
    split_ifs <;> simp only [Nat.reducePow] at * <;> omega
  | dynamic pagesize minCapacity hp hm =>
    have := capacity_le (dynamic pagesize minCapacity hp hm)
    show _ ≤ 2 ^ 64
    omega

end Sizing

/-- The tags that select a variant of `write_span`. -/
structure Tags where
  nonBlocking : Bool
  speculative : Bool
  deriving DecidableEq, Repr

/-- A contiguous span, by the offset of its first cell from the start of the
mapping. -/
structure Span where
  begin : Nat
  size : Nat
  deriving DecidableEq, Repr

/-- What one iteration of the loop in `write_span` comes to: another iteration,
or the returned span (`none` is the non-blocking failure span). -/
inductive Poll
  | spin
  | ret (span : Option Span)
  deriving DecidableEq, Repr

structure RingBuffer (β : Type) where
  sizing : Sizing
  mem : Nat → β
  nwritten : UInt64
  wrnreadPlusCapacity : UInt64
  wrnwritten : UInt64
  nreadPlusCapacity : UInt64

namespace RingBuffer
variable {β : Type}

def capacity (rb : RingBuffer β) : Nat := rb.sizing.capacity

/-- The constructors. -/
def make (sizing : Sizing) (mem : Nat → β) : RingBuffer β where
  sizing := sizing
  mem := mem
  nwritten := 0
  wrnreadPlusCapacity := UInt64.ofNat sizing.capacity
  wrnwritten := 0
  nreadPlusCapacity := UInt64.ofNat sizing.capacity

/-- `clear`. -/
def clear (rb : RingBuffer β) : RingBuffer β :=
  { rb with
    nwritten := 0
    wrnreadPlusCapacity := UInt64.ofNat rb.capacity
    wrnwritten := 0
    nreadPlusCapacity := UInt64.ofNat rb.capacity }

/-- `clamp`: both operands are narrowed to `clamp_type` before they are masked. -/
def clamp (rb : RingBuffer β) (n : UInt64) (capacity : Nat) : Nat :=
  (n.toNat % 2 ^ rb.sizing.clampWidth) &&& ((capacity - 1) % 2 ^ rb.sizing.clampWidth)

/-- The acquire load of the reader's counter. -/
def acquire (rb : RingBuffer β) : RingBuffer β :=
  { rb with wrnreadPlusCapacity := rb.nreadPlusCapacity }

/-- `sz` of `write_span`: the free space by the writer's own copies. -/
def writable (rb : RingBuffer β) : Nat := (rb.wrnreadPlusCapacity - rb.wrnwritten).toNat

/-- `b` of `write_span`, relative to `wrbase_`. -/
def writeBegin (rb : RingBuffer β) : Nat := rb.clamp rb.wrnwritten rb.capacity

def writeSpanNow (rb : RingBuffer β) : Span := ⟨rb.writeBegin, rb.writable⟩

/-- `write_span` up to the loop test. -/
def writeSpan (rb : RingBuffer β) (tags : Tags) (minsize : Nat) : RingBuffer β × Poll :=
  let rb := if tags.speculative then rb else rb.acquire
  (rb, if rb.writable < minsize then .spin else .ret (some rb.writeSpanNow))

/-- One iteration of the loop in `write_span`.  A blocking caller goes on while
the space is short; a non-blocking one leaves the loop and reports failure. -/
def writeSpanLoop (rb : RingBuffer β) (tags : Tags) (minsize : Nat) : RingBuffer β × Poll :=
  let rb := rb.acquire
  (rb,
    if rb.writable < minsize then
      if tags.nonBlocking then .ret none else .spin
    else .ret (some rb.writeSpanNow))

/-- `reduce_writable`. -/
def reduceWritable (rb : RingBuffer β) (nbytes : Nat) : RingBuffer β :=
  let wrnwritten := rb.wrnwritten + UInt64.ofNat nbytes
  { rb with wrnwritten := wrnwritten, nwritten := wrnwritten }

/-- `nr` of `read_span`. -/
def nread (rb : RingBuffer β) : UInt64 := rb.nreadPlusCapacity - UInt64.ofNat rb.capacity

/-- `read_span`. -/
def readSpan (rb : RingBuffer β) : Span :=
  ⟨rb.clamp rb.nread rb.capacity, (rb.nwritten - rb.nread).toNat⟩

/-- `reduce_readable`. -/
def reduceReadable (rb : RingBuffer β) (nbytes : Nat) : RingBuffer β :=
  { rb with nreadPlusCapacity := rb.nreadPlusCapacity + UInt64.ofNat nbytes }

/-- Write cells through a span pointer; the mapping is mirrored. -/
def store (rb : RingBuffer β) (offset : Nat) (xs : List β) : RingBuffer β :=
  { rb with mem := CircularMemory.store rb.mem rb.capacity offset xs }

/-- The cell a span pointer reads. -/
def cell (rb : RingBuffer β) (offset : Nat) : β := rb.mem (offset % rb.capacity)

/-- Masking with a power of two minus one, in a type wide enough, is the
remainder. -/
theorem clamp_eq (rb : RingBuffer β) (n : UInt64) :
    rb.clamp n rb.capacity = n.toNat % rb.capacity := by
  obtain ⟨k, -, hk⟩ := rb.sizing.capacity_hasSingleBit
  have hle := rb.sizing.capacity_le_clamp
  have hpos := Nat.two_pow_pos k
  unfold clamp capacity
  rw [hk] at hle ⊢
  rw [Nat.mod_eq_of_lt (a := 2 ^ k - 1) (by omega), Nat.and_two_pow_sub_one_eq_mod,
    Nat.mod_mod_of_dvd _ (Nat.pow_dvd_pow 2 ((Nat.pow_le_pow_iff_right (by decide)).mp hle))]

@[simp] theorem store_capacity (rb : RingBuffer β) (offset : Nat) (xs : List β) :
    (rb.store offset xs).capacity = rb.capacity := rfl

theorem capacity_pos (rb : RingBuffer β) : 0 < rb.capacity := rb.sizing.capacity_pos

theorem capacity_le (rb : RingBuffer β) : rb.capacity ≤ 2 ^ 63 := rb.sizing.capacity_le

theorem capacity_dvd (rb : RingBuffer β) : rb.capacity ∣ 2 ^ 64 := rb.sizing.capacity_dvd

/-! ## What the counters count

`W` cells have been committed and `R` released since the buffer was last cleared;
the writer last saw `S` released.  The counters are these totals modulo `2 ^ 64`.
-/

structure Counts (rb : RingBuffer β) (W R S : Nat) : Prop where
  nwritten : rb.nwritten.toNat = W % 2 ^ 64
  wrnwritten : rb.wrnwritten = rb.nwritten
  nread : rb.nreadPlusCapacity.toNat = (R + rb.capacity) % 2 ^ 64
  wrnread : rb.wrnreadPlusCapacity.toNat = (S + rb.capacity) % 2 ^ 64
  stale : S ≤ R
  read_le : R ≤ W
  room : W ≤ S + rb.capacity

/-- The difference of two wrapped counters is the difference of their totals,
when that is less than a whole turn of the counters. -/
theorem toNat_sub_of_totals {x y : UInt64} {a b : Nat} (hx : x.toNat = a % 2 ^ 64)
    (hy : y.toNat = b % 2 ^ 64) (hle : b ≤ a) (hlt : a - b < 2 ^ 64) : (x - y).toNat = a - b := by
  rw [UInt64.toNat_sub, hx, hy]
  omega

namespace Counts
variable {rb : RingBuffer β} {W R S : Nat}

theorem writable (h : rb.Counts W R S) : rb.writable = S + rb.capacity - W := by
  have hcap := rb.capacity_le
  have hroom := h.room
  have hstale := h.stale
  have hle := h.read_le
  exact toNat_sub_of_totals h.wrnread (by rw [h.wrnwritten]; exact h.nwritten) hroom (by omega)

theorem nread_toNat (h : rb.Counts W R S) : rb.nread.toNat = R % 2 ^ 64 := by
  have hcap := rb.capacity_le
  unfold RingBuffer.nread
  rw [UInt64.toNat_sub, h.nread, UInt64.toNat_ofNat']
  omega

/-- The write span starts where the committed cells end. -/
theorem writeBegin (h : rb.Counts W R S) : rb.writeBegin = W % rb.capacity := by
  unfold RingBuffer.writeBegin
  rw [clamp_eq, h.wrnwritten, h.nwritten]
  exact Nat.mod_mod_of_dvd _ rb.capacity_dvd

/-- The read span is exactly the committed cells not yet released. -/
theorem readSpan (h : rb.Counts W R S) : rb.readSpan = ⟨R % rb.capacity, W - R⟩ := by
  have hcap := rb.capacity_le
  have hroom := h.room
  have hstale := h.stale
  have hle := h.read_le
  unfold RingBuffer.readSpan
  rw [clamp_eq, h.nread_toNat, Nat.mod_mod_of_dvd _ rb.capacity_dvd,
    toNat_sub_of_totals h.nwritten h.nread_toNat hle (by omega)]

theorem acquire (h : rb.Counts W R S) : rb.acquire.Counts W R R where
  nwritten := h.nwritten
  wrnwritten := h.wrnwritten
  nread := h.nread
  wrnread := h.nread
  stale := Nat.le_refl R
  read_le := h.read_le
  room := by
    have hroom := h.room
    have hstale := h.stale
    show W ≤ R + rb.capacity
    omega

theorem store (h : rb.Counts W R S) (offset : Nat) (xs : List β) :
    (rb.store offset xs).Counts W R S :=
  ⟨h.nwritten, h.wrnwritten, h.nread, h.wrnread, h.stale, h.read_le, h.room⟩

/-- Adding to a wrapped counter adds to its total. -/
theorem toNat_add_ofNat {x : UInt64} {a : Nat} (hx : x.toNat = a % 2 ^ 64) (n : Nat) :
    (x + UInt64.ofNat n).toNat = (a + n) % 2 ^ 64 := by
  rw [UInt64.toNat_add, hx, UInt64.toNat_ofNat']
  omega

theorem reduceWritable (h : rb.Counts W R S) {n : Nat} (hn : n ≤ S + rb.capacity - W) :
    (rb.reduceWritable n).Counts (W + n) R S where
  nwritten := toNat_add_ofNat (by rw [h.wrnwritten]; exact h.nwritten) n
  wrnwritten := rfl
  nread := h.nread
  wrnread := h.wrnread
  stale := h.stale
  read_le := Nat.le_trans h.read_le (Nat.le_add_right W n)
  room := by
    have hroom := h.room
    show W + n ≤ S + rb.capacity
    omega

theorem reduceReadable (h : rb.Counts W R S) {n : Nat} (hn : n ≤ W - R) :
    (rb.reduceReadable n).Counts W (R + n) S where
  nwritten := h.nwritten
  wrnwritten := h.wrnwritten
  nread := by
    show (rb.nreadPlusCapacity + UInt64.ofNat n).toNat = (R + n + rb.capacity) % 2 ^ 64
    rw [toNat_add_ofNat h.nread, Nat.add_right_comm]
  wrnread := h.wrnread
  stale := Nat.le_trans h.stale (Nat.le_add_right R n)
  read_le := by
    have hle := h.read_le
    omega
  room := h.room

theorem clear (rb : RingBuffer β) : rb.clear.Counts 0 0 0 where
  nwritten := rfl
  wrnwritten := rfl
  nread := by rw [Nat.zero_add]; exact UInt64.toNat_ofNat'
  wrnread := by rw [Nat.zero_add]; exact UInt64.toNat_ofNat'
  stale := Nat.le_refl 0
  read_le := Nat.le_refl 0
  room := Nat.zero_le _

theorem make (z : Sizing) (mem : Nat → β) : (RingBuffer.make z mem).Counts 0 0 0 :=
  clear (RingBuffer.make z mem)

end Counts

/-- A span that was returned is the free space by the writer's copies, and large
enough; only a non-blocking call can fail. -/
def SpanOk (tags : Tags) (minsize : Nat) (rb : RingBuffer β) : Option Span → Prop
  | none => tags.nonBlocking = true
  | some span => span = rb.writeSpanNow ∧ minsize ≤ span.size

theorem writeSpanLoop_spec (tags : Tags) (minsize : Nat) (rb : RingBuffer β) :
    (rb.writeSpanLoop tags minsize).1 = rb.acquire ∧
      ∀ s, (rb.writeSpanLoop tags minsize).2 = .ret s → SpanOk tags minsize rb.acquire s := by
  refine ⟨rfl, fun s h => ?_⟩
  simp only [writeSpanLoop] at h
  split at h
  · split at h
    · cases h; assumption
    · cases h
  · rename_i hlt
    cases h
    exact ⟨rfl, Nat.not_lt.mp hlt⟩

theorem writeSpan_spec (tags : Tags) (minsize : Nat) (rb : RingBuffer β) :
    (rb.writeSpan tags minsize).1 = (if tags.speculative then rb else rb.acquire) ∧
      ∀ s, (rb.writeSpan tags minsize).2 = .ret s →
        SpanOk tags minsize (rb.writeSpan tags minsize).1 s := by
  refine ⟨rfl, fun s h => ?_⟩
  simp only [writeSpan] at h ⊢
  generalize (if tags.speculative = true then rb else rb.acquire) = rb' at h ⊢
  split at h
  · cases h
  · rename_i hlt
    cases h
    exact ⟨rfl, Nat.not_lt.mp hlt⟩

/-- The cells a reader finds in the buffer: those of its read span. -/
def contents (rb : RingBuffer β) : List β :=
  CircularMemory.window rb.mem rb.capacity rb.readSpan.begin rb.readSpan.size

theorem Counts.contents {rb : RingBuffer β} {W R S : Nat} (h : rb.Counts W R S) :
    rb.contents = CircularMemory.window rb.mem rb.capacity R (W - R) := by
  unfold RingBuffer.contents
  rw [h.readSpan]
  exact CircularMemory.window_mod ..

end RingBuffer
end Xtr
