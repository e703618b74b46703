import Xtr.Post

/-!
# Writers and trampolines agree

What a call commits at the write position is a record the trampolines read back:
`logImpl_trampoline` for log statements, `post_command_trampoline` for commands.
The argument follows the writer: every load keeps the buffer ready
(`Ready`), `wait_for_capacity` answers yes only for an end inside the free
space, each argument is placed behind the ones before it without touching them
(`transformArg_spec`), and the closure and the function pointer stand in front
of the area.
-/
namespace Xtr
open CircularMemory
variable {F V C : Type}

/-! ## Memory by address -/

section Memory
variable {rb : RingBuffer (Cell F V C)} {base p : Nat}

/-- A store does not change a cell outside it, as long as both lie within one
turn of the ring. -/
theorem readAt_storeAt {a b : Nat} {xs : List (Cell F V C)} (hp : base ≤ p) (hpa : p ≤ a)
    (ha : a + xs.length ≤ p + rb.capacity) (hpb : p ≤ b) (hb : b < p + rb.capacity)
    (hout : b < a ∨ a + xs.length ≤ b) :
    (rb.storeAt base a xs).readAt base b = rb.readAt base b := by
  have key : window (store rb.mem rb.capacity (a - base) xs) rb.capacity (b - base) 1 =
      window rb.mem rb.capacity (b - base) 1 := by
    rcases hout with hlt | hge
    · exact window_store_of_disjoint xs (by omega) (by omega)
    · -- the same store, one turn further on, lies behind the cell
      rw [store_congr (show (a - base) % rb.capacity = (a - base + rb.capacity) % rb.capacity by
        rw [Nat.add_mod_right])]
      exact window_store_of_disjoint xs (by omega) (by omega)
  have := congrArg (·[0]?) key
  simp only [window_getElem? _ _ _ 1 0 (by decide), Option.some.injEq, Nat.add_zero] at this
  exact this

theorem cells_storeAt_self {a : Nat} {xs : List (Cell F V C)} (ha : base ≤ a)
    (hle : xs.length ≤ rb.capacity) :
    cells ((rb.storeAt base a xs).readAt base) a xs.length = xs := by
  have key : window (store rb.mem rb.capacity (a - base) xs) rb.capacity (a - base) xs.length =
      xs := window_store_self (a - base) xs hle
  calc cells ((rb.storeAt base a xs).readAt base) a xs.length
      = window (store rb.mem rb.capacity (a - base) xs) rb.capacity (a - base) xs.length := by
        unfold cells window
        refine List.map_congr_left fun k _ => ?_
        show store rb.mem rb.capacity (a - base) xs ((a + k - base) % rb.capacity) = _
        rw [show a + k - base = a - base + k by omega]
    _ = xs := key

end Memory

/-! ## Loads -/

/-- `W` cells are committed; the reader has released `R` of them, the writer knows
of `S`, and the reader's progress still to come is whole records that are there, up to
`T` cells. -/
structure Ready (rb : RingBuffer (Cell F V C)) (loads : List Nat) (W T R S : Nat) : Prop where
  counts : rb.Counts W R S
  read8 : 8 ∣ R
  seen8 : 8 ∣ S
  loads8 : ∀ n ∈ loads, 8 ∣ n
  progress : R + loads.sum = T
  within : T ≤ W

/-- What loads do: the counters move on, and the memory stays. -/
structure Later (W T : Nat) (rb rb' : RingBuffer (Cell F V C)) (loads' : List Nat) (S : Nat) :
    Prop where
  ready : ∃ R' S', Ready rb' loads' W T R' S' ∧ S ≤ S'
  sizing : rb'.sizing = rb.sizing
  mem : rb'.mem = rb.mem

section Loads
variable {rb rb' : RingBuffer (Cell F V C)} {loads loads' : List Nat} {W T R S n : Nat}

theorem Ready.later (h : Ready rb loads W T R S) : Later W T rb rb loads S :=
  ⟨⟨R, S, h, Nat.le_refl S⟩, rfl, rfl⟩

theorem Later.trans {rb'' : RingBuffer (Cell F V C)} {loads'' : List Nat}
    (h : Later W T rb rb' loads' S)
    (h' : ∀ R' S', Ready rb' loads' W T R' S' → Later W T rb' rb'' loads'' S') :
    Later W T rb rb'' loads'' S := by
  obtain ⟨⟨R', S', hr, hs⟩, hz, hm⟩ := h
  obtain ⟨⟨R'', S'', hr', hs'⟩, hz', hm'⟩ := h' R' S' hr
  exact ⟨⟨R'', S'', hr', Nat.le_trans hs hs'⟩, hz'.trans hz, hm'.trans hm⟩

/-- The reader releases, the writer has not looked. -/
theorem Ready.release (h : Ready rb (n :: loads) W T R S) :
    Ready (rb.reduceReadable n) loads W T (R + n) S where
  counts := h.counts.reduceReadable (by
    have hsum := h.progress
    have hle := h.within
    simp only [List.sum_cons] at hsum
    omega)
  read8 := Nat.dvd_add h.read8 (h.loads8 n (by simp))
  seen8 := h.seen8
  loads8 m hm := h.loads8 m (by simp [hm])
  progress := by
    have hsum := h.progress
    simp only [List.sum_cons] at hsum
    omega
  within := h.within

theorem Ready.acquire (h : Ready rb loads W T R S) : Ready rb.acquire loads W T R R where
  counts := h.counts.acquire
  read8 := h.read8
  seen8 := h.read8
  loads8 := h.loads8
  progress := h.progress
  within := h.within

theorem Ready.release_acquire (h : Ready rb (n :: loads) W T R S) :
    Later W T rb (rb.reduceReadable n).acquire loads S :=
  ⟨⟨_, _, h.release.acquire, Nat.le_trans h.counts.stale (Nat.le_add_right R n)⟩, rfl, rfl⟩

theorem writeSpanLoops_spec {tags : Tags} {minsize : Nat} {s : Option Span}
    (hr : Ready rb loads W T R S)
    (h : writeSpanLoops tags minsize rb loads = some (s, rb', loads')) :
    Later W T rb rb' loads' S ∧ RingBuffer.SpanOk tags minsize rb' s := by
  induction loads generalizing rb R S with
  | nil => cases h
  | cons n loads ih =>
    have hl := hr.release_acquire
    rw [writeSpanLoops] at h
    obtain ⟨hrb, hspan⟩ := RingBuffer.writeSpanLoop_spec tags minsize (rb.reduceReadable n)
    split at h
    · rename_i heq
      have he : _ = (rb.reduceReadable n).acquire := (congrArg Prod.fst heq).symm.trans hrb
      subst he
      exact ⟨hl.trans fun R' S' hr' => (ih hr' h).1,
        (ih hr.release.acquire h).2⟩
    · rename_i heq
      have he : _ = (rb.reduceReadable n).acquire := (congrArg Prod.fst heq).symm.trans hrb
      cases h
      subst he
      exact ⟨hl, hspan _ (congrArg Prod.snd heq)⟩

/-- What follows the optional first load of `writeSpanCall`. -/
theorem writeSpanPolled_spec {tags : Tags} {minsize : Nat} {s : Option Span}
    (hr : Ready rb loads W T R S)
    (h : (match rb.writeSpan tags minsize with
      | (rb, .spin) => writeSpanLoops tags minsize rb loads
      | (rb, .ret span) => some (span, rb, loads)) = some (s, rb', loads')) :
    Later W T (rb.writeSpan tags minsize).1 rb' loads' S ∧
      RingBuffer.SpanOk tags minsize rb' s := by
  obtain ⟨hrb, hspan⟩ := RingBuffer.writeSpan_spec tags minsize rb
  have hready : ∃ S₁, Ready (rb.writeSpan tags minsize).1 loads W T R S₁ ∧ S ≤ S₁ := by
    rw [hrb]
    split
    · exact ⟨S, hr, Nat.le_refl _⟩
    · exact ⟨R, hr.acquire, hr.counts.stale⟩
  obtain ⟨S₁, hr₁, hle⟩ := hready
  split at h
  · rename_i heq
    rw [heq] at hr₁ ⊢
    obtain ⟨⟨⟨R', S', hr', hs'⟩, hz, hmem⟩, hok⟩ := writeSpanLoops_spec hr₁ h
    exact ⟨⟨⟨R', S', hr', Nat.le_trans hle hs'⟩, hz, hmem⟩, hok⟩
  · rename_i heq
    have hok := hspan _ (congrArg Prod.snd heq)
    rw [heq] at hr₁ hok ⊢
    cases h
    exact ⟨⟨⟨R, S₁, hr₁, hle⟩, rfl, rfl⟩, hok⟩

theorem writeSpanCall_spec {tags : Tags} {minsize : Nat} {s : Option Span}
    (hr : Ready rb loads W T R S)
    (h : writeSpanCall tags minsize rb loads = some (s, rb', loads')) :
    Later W T rb rb' loads' S ∧ RingBuffer.SpanOk tags minsize rb' s := by
  unfold writeSpanCall at h
  by_cases hspec : tags.speculative = true
  · simp only [hspec, if_true, Option.bind_eq_bind, Option.bind_some] at h
    have hb := writeSpanPolled_spec hr h
    rw [(RingBuffer.writeSpan_spec tags minsize rb).1, if_pos hspec] at hb
    exact hb
  · simp only [hspec, Bool.false_eq_true, if_false] at h
    cases loads with
    | nil => cases h
    | cons n loads =>
      simp only [Option.bind_eq_bind, Option.bind_some] at h
      have hb := writeSpanPolled_spec hr.release h
      rw [(RingBuffer.writeSpan_spec tags minsize _).1, if_neg hspec] at hb
      exact ⟨⟨hb.1.ready, hb.1.sizing, hb.1.mem⟩, hb.2⟩

end Loads

/-! ## The variable-length area -/

/-- How an argument was recorded: as it was passed, except that a string may have
been recorded as truncated. -/
def Arg.Recorded : Arg V → Item V → Prop
  | .value type v, i => i = .fixed (.value type v)
  | .stringRvalue bytes, i => i = .fixed (.ownedString bytes)
  | .nocopyCString mem, i => i = .fixed (.refCString mem)
  | .nocopyString bytes, i => i = .fixed (.refCString bytes)
  | .nocopyStringView bytes, i => i = .fixed (.refStringView bytes)
  | .cString mem, i => i = .string (cStr mem) ∨ i = .truncated
  | .stringView bytes, i => i = .string bytes ∨ i = .truncated
  | .string bytes, i => i = .string bytes ∨ i = .truncated
  | .vcopy type bytes _, i => i = .copied type bytes

theorem Arg.Recorded.layout {arg : Arg V} {i : Item V} (h : arg.Recorded i) :
    i.entry.layout = arg.layout := by
  cases arg with
  | cString mem | stringView bytes | string bytes => rcases h with rfl | rfl <;> rfl
  | _ => cases h; rfl

section Area
variable {base W T : Nat}

/-- Nothing but the cells from `lo` to `hi` differs, within one turn from `p`. -/
def SameOutside (base p lo hi : Nat) (rb rb' : RingBuffer (Cell F V C)) : Prop :=
  ∀ b, p ≤ b → b < p + rb.capacity → b < lo ∨ hi ≤ b → rb'.readAt base b = rb.readAt base b

theorem SameOutside.cells {p lo hi b n : Nat} {rb rb' : RingBuffer (Cell F V C)}
    (h : SameOutside base p lo hi rb rb') (hpb : p ≤ b) (hb : b + n ≤ p + rb.capacity)
    (hout : b + n ≤ lo ∨ hi ≤ b) :
    cells (rb'.readAt base) b n = cells (rb.readAt base) b n := by
  unfold Xtr.cells
  refine List.map_congr_left fun k hk => ?_
  have hk := List.mem_range.mp hk
  exact h _ (by omega) (by omega) (by omega)

theorem sameOutside_storeAt {p a : Nat} {rb : RingBuffer (Cell F V C)} {xs : List (Cell F V C)}
    (hp : base ≤ p) (hpa : p ≤ a) (ha : a + xs.length ≤ p + rb.capacity) :
    SameOutside base p a (a + xs.length) rb (rb.storeAt base a xs) :=
  fun _ hpb hb hout => readAt_storeAt hp hpa ha hpb hb hout

/-- A store of `n` cells within one turn from `p`: they read back, and nothing
else differs. -/
theorem storeAt_spec {p a n : Nat} {rb : RingBuffer (Cell F V C)} {xs : List (Cell F V C)}
    (hlen : xs.length = n) (hp : base ≤ p) (hpa : p ≤ a) (ha : a + n ≤ p + rb.capacity) :
    cells ((rb.storeAt base a xs).readAt base) a n = xs ∧
      SameOutside base p a (a + n) rb (rb.storeAt base a xs) := by
  subst hlen
  exact ⟨cells_storeAt_self (Nat.le_trans hp hpa) (by omega), sameOutside_storeAt hp hpa ha⟩

theorem sameOutside_of_mem {p lo hi : Nat} {rb rb' : RingBuffer (Cell F V C)}
    (hz : rb'.sizing = rb.sizing) (hm : rb'.mem = rb.mem) : SameOutside base p lo hi rb rb' := by
  intro b _ _ _
  unfold RingBuffer.readAt RingBuffer.cell RingBuffer.capacity
  rw [hz, hm]

theorem SameOutside.trans {p lo mid hi lo' : Nat} {rb rb' rb'' : RingBuffer (Cell F V C)}
    (h : SameOutside base p lo mid rb rb') (h' : SameOutside base p lo' hi rb' rb'')
    (hz : rb'.sizing = rb.sizing) (h1 : lo ≤ lo') (h2 : mid ≤ hi) :
    SameOutside base p lo hi rb rb'' := by
  intro b hpb hb hout
  have hcap : rb'.capacity = rb.capacity := congrArg Sizing.capacity hz
  rw [h' b hpb (hcap ▸ hb) (by omega), h b hpb hb (by omega)]

theorem Ready.storeAt {rb : RingBuffer (Cell F V C)} {loads : List Nat} {R S : Nat}
    (h : Ready rb loads W T R S) (addr : Nat) (xs : List (Cell F V C)) :
    Ready (rb.storeAt base addr xs) loads W T R S :=
  ⟨h.counts.store _ _, h.read8, h.seen8, h.loads8, h.progress, h.within⟩

theorem Ready.reduceWritable {rb : RingBuffer (Cell F V C)} {loads : List Nat} {R S n : Nat}
    (h : Ready rb loads W T R S) (hn : n ≤ S + rb.capacity - W) :
    Ready (rb.reduceWritable n) loads (W + n) T R S :=
  ⟨h.counts.reduceWritable hn, h.read8, h.seen8, h.loads8, h.progress,
    Nat.le_trans h.within (Nat.le_add_right W n)⟩

/-- The free space by the writer's copies, and where the write span ends. -/
theorem Ready.span_end {rb : RingBuffer (Cell F V C)} {loads : List Nat} {R S : Nat}
    (h : Ready rb loads W T R S) :
    base + rb.writeSpanNow.begin + rb.writeSpanNow.size =
      base + W % rb.capacity + rb.writable := by
  show base + rb.writeBegin + rb.writable = _
  rw [h.counts.writeBegin]

theorem Ready.writable_le {rb : RingBuffer (Cell F V C)} {loads : List Nat} {R S : Nat}
    (h : Ready rb loads W T R S) : rb.writable ≤ rb.capacity := by
  have h1 := h.counts.stale
  have h2 := h.counts.read_le
  rw [h.counts.writable]
  omega

/-- Loads never shrink the writer's view of the free space. -/
theorem Later.writable_le {rb rb' : RingBuffer (Cell F V C)} {loads loads' : List Nat} {R S : Nat}
    (hr : Ready rb loads W T R S) (h : Later W T rb rb' loads' S) : rb.writable ≤ rb'.writable := by
  obtain ⟨⟨R', S', hr', hs⟩, hz, -⟩ := h
  have hcap : rb'.capacity = rb.capacity := congrArg Sizing.capacity hz
  rw [hr.counts.writable, hr'.counts.writable, hcap]
  omega

theorem waitForCapacity_spec {nonBlocking fits : Bool} {minEnd stop stop' R S : Nat}
    {rb rb' : RingBuffer (Cell F V C)} {loads loads' : List Nat} (hr : Ready rb loads W T R S)
    (hstop : stop ≤ base + W % rb.capacity + rb.writable)
    (h : waitForCapacity base nonBlocking minEnd rb stop loads = some (fits, rb', stop', loads')) :
    Later W T rb rb' loads' S ∧ stop' ≤ base + W % rb.capacity + rb'.writable ∧ stop ≤ stop' ∧
      (fits = true → minEnd ≤ stop') := by
  induction loads generalizing rb stop R S with
  | nil =>
    rw [waitForCapacity] at h
    split at h
    · cases h
    · rename_i hge
      cases h
      exact ⟨hr.later, hstop, Nat.le_refl _, fun _ => Nat.not_lt.mp hge⟩
  | cons n loads ih =>
    rw [waitForCapacity] at h
    split at h
    -- one load: the span may have grown, and the search goes on from there
    · have hl := hr.release_acquire
      have hw := hl.writable_le hr
      have hend : base + (rb.reduceReadable n).acquire.writeSpanNow.begin +
          (rb.reduceReadable n).acquire.writeSpanNow.size = _ := hr.release.acquire.span_end
      have hcap : (rb.reduceReadable n).acquire.capacity = rb.capacity := rfl
      simp only at h
      split at h
      · cases h
        exact ⟨hl, by omega, Nat.le_refl _, fun h => by cases h⟩
      · rw [hend] at h
        obtain ⟨h1, h2, h3, h4⟩ := ih hr.release.acquire (Nat.le_refl _) h
        rw [hcap] at h2 h3
        refine ⟨hl.trans fun R' S' hr' => ?_, h2, by omega, h4⟩
        exact (ih hr' (Nat.le_refl _) h).1
    · rename_i hge
      cases h
      exact ⟨hr.later, hstop, Nat.le_refl _, fun _ => Nat.not_lt.mp hge⟩

/-- The invariant of the area: it ends inside the free space, and unless an
object did not fit what has been placed ends inside it too. -/
structure Area.Inv (base W T : Nat) (a : Area F V C) : Prop where
  ready : ∃ R S, Ready a.rb a.loads W T R S
  stop_le : a.stop ≤ base + W % a.rb.capacity + a.rb.writable
  pos_le : a.overflow = false → a.pos ≤ a.stop

theorem copyBytes_spec {nonBlocking ok : Bool} {a a' : Area F V C} {bytes : List UInt8} {R S : Nat}
    (hr : Ready a.rb a.loads W T R S)
    (hstop : a.stop ≤ base + W % a.rb.capacity + a.rb.writable)
    (hpos : base + W % a.rb.capacity ≤ a.pos)
    (h : copyBytes base nonBlocking a bytes = some (ok, a')) :
    (∃ R S, Ready a'.rb a'.loads W T R S) ∧ a'.rb.sizing = a.rb.sizing ∧
      a'.overflow = a.overflow ∧ a.stop ≤ a'.stop ∧
      a'.stop ≤ base + W % a'.rb.capacity + a'.rb.writable ∧
      SameOutside base (base + W % a.rb.capacity) a.pos a'.pos a.rb a'.rb ∧
      (ok = true → a'.pos = a.pos + bytes.length ∧ a'.pos ≤ a'.stop ∧
        bytes.length ≤ a.rb.capacity ∧
        cells (a'.rb.readAt base) a.pos bytes.length = bytes.map .byte) ∧
      (ok = false → a'.pos = a.pos) := by
  obtain ⟨⟨fits, rb', stop', loads'⟩, hw, h⟩ := Option.bind_eq_some_iff.mp h
  obtain ⟨⟨⟨R', S', hr', -⟩, hz, hm⟩, hstop', hle, hfit⟩ := waitForCapacity_spec hr hstop hw
  have hcap : rb'.capacity = a.rb.capacity := congrArg Sizing.capacity hz
  have hwle := hr'.writable_le
  cases fits with
  | true =>
    cases h
    have hfit := hfit rfl
    have hlen : (bytes.map (Cell.byte : UInt8 → Cell F V C)).length = bytes.length :=
      List.length_map _
    -- there is room for the bytes, within one turn of the record's start
    obtain ⟨hself, hsame⟩ := storeAt_spec hlen
      (Nat.le_add_right base (W % a.rb.capacity)) hpos
      (show a.pos + bytes.length ≤ base + W % a.rb.capacity + rb'.capacity by omega)
    refine ⟨⟨R', S', hr'.storeAt _ _⟩, hz, rfl, hle, ?_, ?_, fun _ => ⟨rfl, hfit, by omega, ?_⟩,
      fun h => by cases h⟩
    · show stop' ≤ base + W % rb'.capacity + rb'.writable
      rw [hcap]
      exact hstop'
    · exact (sameOutside_of_mem hz hm).trans hsame hz (Nat.le_refl _) (Nat.le_refl _)
    · exact hself
  | false =>
    cases h
    refine ⟨⟨R', S', hr'⟩, hz, rfl, hle, ?_, sameOutside_of_mem hz hm, ?_, fun _ => rfl⟩
    · show stop' ≤ base + W % rb'.capacity + rb'.writable
      rw [hcap]
      exact hstop'
    · intro h
      cases h

/-- What is known of the area once one more argument has been placed. -/
structure Placed (base W T : Nat) (a a' : Area F V C) (i : Item V) : Prop where
  inv : a'.Inv base W T
  sizing : a'.rb.sizing = a.rb.sizing
  valid : i.Valid
  pos : a'.pos = i.finish a.pos
  same : SameOutside base (base + W % a.rb.capacity) a.pos a'.pos a.rb a'.rb
  held : cells (a'.rb.readAt base) (i.start a.pos) i.bytes.length = i.bytes.map .byte

/-- A capture of fixed size takes no room in the area. -/
theorem Area.Inv.placed_fixed {a : Area F V C} {e : Entry V} (h : a.Inv base W T)
    (he : Item.forwards e = true) : Placed base W T a a (.fixed e) :=
  ⟨h, rfl, he, rfl, sameOutside_of_mem rfl rfl, rfl⟩

/-- A length that fits in the ring fits in a 32-bit entry. -/
theorem length_lt_of_capacity {rb : RingBuffer (Cell F V C)} (hcap : rb.capacity < 2 ^ 32) {n : Nat}
    (h : n ≤ rb.capacity) : n < 2 ^ 32 - 1 := by
  obtain ⟨k, -, hk⟩ := rb.sizing.capacity_hasSingleBit
  have hk' : rb.capacity = 2 ^ k := hk
  rw [hk'] at hcap h
  have : k < 32 := (Nat.pow_lt_pow_iff_right (by decide)).mp hcap
  have := Nat.pow_le_pow_right (show 0 < 2 by decide) (show k ≤ 31 by omega)
  simp only [Nat.reducePow] at *
  omega

theorem copyBytes_overflow {nonBlocking ok : Bool} {a a' : Area F V C} {bytes : List UInt8}
    (h : copyBytes base nonBlocking a bytes = some (ok, a')) : a'.overflow = a.overflow := by
  obtain ⟨⟨fits, rb', stop', loads'⟩, -, h⟩ := Option.bind_eq_some_iff.mp h
  cases fits <;> cases h <;> rfl

/-- Once set, `overflow` stays set. -/
theorem transformArg_overflow {nonBlocking : Bool} {a a' : Area F V C} {arg : Arg V} {e : Entry V}
    (h : transformArg base nonBlocking a arg = some (e, a')) (hof : a'.overflow = false) :
    a.overflow = false := by
  cases arg with
  | cString mem | stringView bytes | string bytes =>
    obtain ⟨⟨ok, a₁⟩, hc, h⟩ := Option.bind_eq_some_iff.mp h
    cases h
    exact copyBytes_overflow hc ▸ hof
  | vcopy type bytes hsz =>
    obtain ⟨⟨ok, a₁⟩, hc, h⟩ := Option.bind_eq_some_iff.mp h
    cases h
    have ho := copyBytes_overflow hc
    simp only [Bool.or_eq_false_iff] at hof
    exact ho ▸ hof.1
  | _ => cases h; exact hof

theorem transformInTurn_overflow {nonBlocking : Bool} {args : List (Arg V)} {a a' : Area F V C}
    {es : List (Entry V)} (h : transformInTurn base nonBlocking a args = some (es, a'))
    (hof : a'.overflow = false) : a.overflow = false := by
  induction args generalizing a es with
  | nil => cases h; exact hof
  | cons arg args ih =>
    obtain ⟨⟨e, a₁⟩, ha, h⟩ := Option.bind_eq_some_iff.mp h
    obtain ⟨⟨es', a₂⟩, hs, h⟩ := Option.bind_eq_some_iff.mp h
    cases h
    exact transformArg_overflow ha (ih hs)

theorem transformString_spec {nonBlocking : Bool} {a a' : Area F V C} {bytes : List UInt8}
    {e : Entry V} (hcap : a.rb.capacity < 2 ^ 32) (hi : a.Inv base W T)
    (hpos : base + W % a.rb.capacity ≤ a.pos) (hof : a.overflow = false)
    (h : transformString base nonBlocking a bytes = some (e, a')) :
    ∃ i : Item V, (i = .string bytes ∨ i = .truncated) ∧ i.entry = e ∧ Placed base W T a a' i := by
  obtain ⟨⟨ok, a₁⟩, hc, h⟩ := Option.bind_eq_some_iff.mp h
  cases h
  obtain ⟨R, S, hr⟩ := hi.ready
  obtain ⟨hr', hz, ho, hst, hst', hsame, hok, hno⟩ := copyBytes_spec hr hi.stop_le hpos hc
  cases ok with
  | true =>
    obtain ⟨hp, hple, hlen, hcells⟩ := hok rfl
    exact ⟨.string bytes, .inl rfl, rfl, ⟨hr', hst', fun _ => hple⟩, hz,
      length_lt_of_capacity hcap hlen, hp, hsame, hcells⟩
  | false =>
    have hp := hno rfl
    have := hi.pos_le hof
    exact ⟨.truncated, .inr rfl, rfl, ⟨hr', hst', fun _ => by omega⟩, hz, trivial, hp, hsame, rfl⟩

theorem transformArg_spec {nonBlocking : Bool} {a a' : Area F V C} {arg : Arg V} {e : Entry V}
    (hcap : a.rb.capacity < 2 ^ 32) (hi : a.Inv base W T)
    (hpos : base + W % a.rb.capacity ≤ a.pos)
    (h : transformArg base nonBlocking a arg = some (e, a')) (hof : a'.overflow = false) :
    ∃ i, arg.Recorded i ∧ i.entry = e ∧ Placed base W T a a' i := by
  have hof₀ := transformArg_overflow h hof
  cases arg with
  | value type v => cases h; exact ⟨_, rfl, rfl, hi.placed_fixed rfl⟩
  | stringRvalue bytes => cases h; exact ⟨_, rfl, rfl, hi.placed_fixed rfl⟩
  | nocopyCString mem => cases h; exact ⟨_, rfl, rfl, hi.placed_fixed rfl⟩
  | nocopyString bytes => cases h; exact ⟨_, rfl, rfl, hi.placed_fixed rfl⟩
  | nocopyStringView bytes => cases h; exact ⟨_, rfl, rfl, hi.placed_fixed rfl⟩
  | cString mem | stringView bytes | string bytes => exact transformString_spec hcap hi hpos hof₀ h
  | vcopy type bytes hsz =>
    obtain ⟨⟨ok, a₁⟩, hc, h⟩ := Option.bind_eq_some_iff.mp h
    cases h
    have hal : a.pos ≤ align a.pos type.alignment := le_align type.single.pos
    obtain ⟨R, S, hr⟩ := hi.ready
    have hcopy := @copyBytes_spec F V C base W T nonBlocking ok
      { a with pos := align a.pos type.alignment } a₁ bytes R S hr hi.stop_le
      (Nat.le_trans hpos hal) hc
    obtain ⟨hr', hz, ho, hst, hst', hsame, hok, -⟩ := hcopy
    cases ok with
    -- an object that does not fit sets the overflow
    | false => simp at hof
    | true =>
      obtain ⟨hp, hple, hlen, hcells⟩ := hok rfl
      refine ⟨.copied type bytes, rfl, rfl, ⟨hr', hst', fun _ => hple⟩, hz,
        length_lt_of_capacity hcap hlen, hp, fun b hpb hb hout => ?_, hcells⟩
      refine hsame b hpb hb (hout.imp_left fun hlt => ?_)
      exact Nat.lt_of_lt_of_le hlt hal

theorem transformInTurn_spec {nonBlocking : Bool} {args : List (Arg V)} {a a' : Area F V C}
    {es : List (Entry V)} (hcap : a.rb.capacity < 2 ^ 32) (hi : a.Inv base W T)
    (hpos : base + W % a.rb.capacity ≤ a.pos)
    (h : transformInTurn base nonBlocking a args = some (es, a')) (hof : a'.overflow = false) :
    ∃ is : List (Item V), List.Forall₂ Arg.Recorded args is ∧
      is.map Item.entry = es ∧ (∀ i ∈ is, i.Valid) ∧ a'.pos = Item.finishAll a.pos is ∧
      a'.Inv base W T ∧ a'.rb.sizing = a.rb.sizing ∧
      SameOutside base (base + W % a.rb.capacity) a.pos a'.pos a.rb a'.rb ∧
      Item.Hold (a'.rb.readAt base) a.pos is := by
  induction args generalizing a es with
  | nil =>
    cases h
    exact ⟨[], .nil, rfl, by simp, rfl, hi, rfl, sameOutside_of_mem rfl rfl, trivial⟩
  | cons arg args ih =>
    obtain ⟨⟨e, a₁⟩, ha, h⟩ := Option.bind_eq_some_iff.mp h
    obtain ⟨⟨es', a₂⟩, hs, h⟩ := Option.bind_eq_some_iff.mp h
    cases h
    have hof₁ := transformInTurn_overflow hs hof
    obtain ⟨i, hrec, he, hpl⟩ := transformArg_spec hcap hi hpos ha hof₁
    have hc1 : a₁.rb.capacity = a.rb.capacity := congrArg Sizing.capacity hpl.sizing
    have hle : a.pos ≤ a₁.pos := hpl.pos ▸ i.le_finish a.pos
    obtain ⟨is, hall, hes, hval, hp', hinv', hz', hsame', hhold⟩ :=
      ih (hc1 ▸ hcap) hpl.inv (by rw [hc1]; omega) hs
    rw [hc1] at hsame'
    have hle' : a₁.pos ≤ a'.pos := hp' ▸ Item.le_finishAll a₁.pos is
    refine ⟨i :: is, .cons hrec hall, by rw [List.map_cons, he, hes], ?_, ?_, hinv',
      hz'.trans hpl.sizing, ?_, ?_, ?_⟩
    · intro j hj
      rcases List.mem_cons.mp hj with rfl | hj
      exacts [hpl.valid, hval j hj]
    · rw [hp', hpl.pos]
      rfl
    · exact hpl.same.trans hsame' hpl.sizing hle hle'
    · -- the later arguments lie behind this one
      have hend := hpl.inv.pos_le hof₁
      obtain ⟨R, S, hr⟩ := hpl.inv.ready
      have hw := hr.writable_le
      have hstop := hpl.inv.stop_le
      have hstart := i.start_le a.pos
      have hfin : i.start a.pos + i.bytes.length = a₁.pos := hpl.pos.symm
      rw [hsame'.cells (by omega) (by rw [hc1] at hw hstop ⊢; omega) (.inl (by omega))]
      exact hpl.held
    · rw [← hpl.pos]
      exact hhold

variable {order : Arrangement}

/-- A pack is transformed as its arguments are come to. -/
theorem transformArgs_iff {nonBlocking : Bool} {args : List (Arg V)} {a a' : Area F V C}
    {es : List (Entry V)} : transformArgs order base nonBlocking a args = some (es, a') ↔
      transformInTurn base nonBlocking a (order.arrange args) = some (order.arrange es, a') := by
  constructor
  · intro h
    obtain ⟨⟨es', a₁⟩, ha, h⟩ := Option.bind_eq_some_iff.mp h
    cases h
    rw [ha, order.arrange_restore]
  · intro h
    rw [transformArgs, h]
    show some (order.restore _, _) = _
    rw [order.restore_arrange]

theorem transformArgs_spec {nonBlocking : Bool} {args : List (Arg V)} {a a' : Area F V C}
    {es : List (Entry V)} (hcap : a.rb.capacity < 2 ^ 32) (hi : a.Inv base W T)
    (hpos : base + W % a.rb.capacity ≤ a.pos)
    (h : transformArgs order base nonBlocking a args = some (es, a')) (hof : a'.overflow = false) :
    ∃ is : List (Item V), List.Forall₂ Arg.Recorded args is ∧
      is.map Item.entry = es ∧ (∀ i ∈ is, i.Valid) ∧
      a'.pos = Item.finishAll a.pos (order.arrange is) ∧
      a'.Inv base W T ∧ a'.rb.sizing = a.rb.sizing ∧
      SameOutside base (base + W % a.rb.capacity) a.pos a'.pos a.rb a'.rb ∧
      Item.Hold (a'.rb.readAt base) a.pos (order.arrange is) := by
  obtain ⟨is, hall, hes, hval, hrest⟩ :=
    transformInTurn_spec hcap hi hpos (transformArgs_iff.mp h) hof
  have hback := order.forall₂_restore hall
  rw [order.restore_arrange] at hback
  refine ⟨order.restore is, hback, ?_, fun i hi => hval i (order.mem_restore.mp hi), ?_⟩
  · rw [← order.restore_map, hes, order.restore_arrange]
  · rw [order.arrange_restore]
    exact hrest

end Area

/-! ## The three calls -/

/-- A ring of records: its mapping starts at `base`, and everything in it is a
multiple of the function pointer's alignment.  `XTR_SINK_CAPACITY` is at least a
page, and a static assertion keeps it within 32 bits. -/
structure Grid (base W : Nat) (rb : RingBuffer (Cell F V C)) : Prop where
  base8 : 8 ∣ base
  capacity8 : 8 ∣ rb.capacity
  capacity_lt : rb.capacity < 2 ^ 32
  written8 : 8 ∣ W

/-- **What a call that commits `n` cells has done**: it left the record `r` at the
write position, in a span that was large enough, and touched nothing else. -/
structure Commits (order : Arrangement) (base W T n : Nat) (rb rb' : RingBuffer (Cell F V C))
    (r : Record F V C) : Prop where
  valid : r.Valid
  holds : r.Holds order (rb'.readAt base) (base + W % rb.capacity)
  size : r.size order (base + W % rb.capacity) = n
  size8 : 8 ∣ n
  sizing : rb'.sizing = rb.sizing
  /-- `S'` cells were released when the span was last loaded. -/
  span : ∃ loads' R' S', Ready rb' loads' (W + n) T R' S' ∧ n ≤ S' + rb.capacity - W
  same : SameOutside base (base + W % rb.capacity) (base + W % rb.capacity)
    (base + W % rb.capacity + n) rb rb'

section Calls
variable {order : Arrangement} {base W T R S : Nat} {rb : RingBuffer (Cell F V C)}
  {loads : List Nat}

theorem Grid.record8 (g : Grid base W rb) : 8 ∣ base + W % rb.capacity :=
  Nat.dvd_add g.base8 ((Nat.dvd_mod_iff g.capacity8).mpr g.written8)

theorem Grid.writable8 (g : Grid base W rb) {rb' : RingBuffer (Cell F V C)} {loads' : List Nat}
    (hz : rb'.sizing = rb.sizing) (h : Ready rb' loads' W T R S) : 8 ∣ rb'.writable := by
  have hcap : rb'.capacity = rb.capacity := congrArg Sizing.capacity hz
  rw [h.counts.writable, hcap]
  exact Nat.dvd_sub (Nat.dvd_add h.seen8 g.capacity8) g.written8

/-- The closure starts at a multiple of eight. -/
theorem funcPos_dvd {record : Nat} (h : 8 ∣ record) (func : Layout) : 8 ∣ funcPos record func := by
  have h8 : 8 ∣ record + fptrSize := Nat.dvd_add h (Nat.dvd_refl 8)
  unfold funcPos
  split
  · rename_i hlt
    exact Nat.dvd_trans (hasSingleBit_8.dvd_of_le func.single (Nat.le_of_lt hlt)) (dvd_align _ _)
  · exact h8

/-- Reserving space: the speculative call, and a second one if its span is too
small. -/
theorem reserve_spec {tags : Tags} {size : Nat} {s₁ : Option Span} {s : Span}
    {rb₁ rb₂ : RingBuffer (Cell F V C)} {l₁ l₂ : List Nat} (hr : Ready rb loads W T R S)
    (h₁ : writeSpanCall ⟨false, true⟩ 0 rb loads = some (s₁, rb₁, l₁))
    (h₂ : reserve tags size rb₁ l₁ = some (some s, rb₂, l₂)) :
    (∃ R' S', Ready rb₂ l₂ W T R' S') ∧ rb₂.sizing = rb.sizing ∧ rb₂.mem = rb.mem ∧
      rb₁.writeBegin = W % rb.capacity ∧ s = rb₂.writeSpanNow ∧ size ≤ rb₂.writable := by
  obtain ⟨⟨⟨R₁, S₁, hr₁, -⟩, hz₁, hm₁⟩, -⟩ := writeSpanCall_spec hr h₁
  have hcap : rb₁.capacity = rb.capacity := congrArg Sizing.capacity hz₁
  have hbegin : rb₁.writeBegin = W % rb.capacity := by rw [hr₁.counts.writeBegin, hcap]
  unfold reserve at h₂
  split at h₂
  · obtain ⟨⟨⟨R₂, S₂, hr₂, -⟩, hz₂, hm₂⟩, hs, hsize⟩ := writeSpanCall_spec hr₁ h₂
    rw [hs] at hsize
    exact ⟨⟨R₂, S₂, hr₂⟩, hz₂.trans hz₁, hm₂.trans hm₁, hbegin, hs, hsize⟩
  · rename_i hlt
    cases h₂
    exact ⟨⟨R₁, S₁, hr₁⟩, hz₁, hm₁, hbegin, rfl, Nat.not_lt.mp hlt⟩

theorem fptrCells_length (t : Trampoline F) :
    (fptrCells t : List (Cell F V C)).length = fptrSize := by simp [fptrCells]

theorem closureCells_length (c : Closure V C) (n : Nat) :
    (closureCells c n : List (Cell F V C)).length = n := by simp [closureCells]

theorem log0_commits {tags : Tags} {f : F} {n : Nat} {rb' : RingBuffer (Cell F V C)}
    {loads' : List Nat} (hr : Ready rb loads W T R S)
    (h : log0 base tags f rb loads = some (.committed n, rb', loads')) :
    Commits order base W T n rb rb' (.log0 f) := by
  obtain ⟨⟨s, rb₁, l₁⟩, hw, h⟩ := Option.bind_eq_some_iff.mp h
  obtain ⟨⟨⟨R₁, S₁, hr₁, -⟩, hz, hm⟩, hok⟩ := writeSpanCall_spec hr hw
  have hcap : rb₁.capacity = rb.capacity := congrArg Sizing.capacity hz
  cases s with
  | none => cases h
  | some s =>
    cases h
    obtain ⟨hs, hsize⟩ := hok
    rw [hs] at hsize
    have hsize : fptrSize ≤ rb₁.writable := hsize
    have hw := hr₁.writable_le
    have hbegin : s.begin = W % rb.capacity := by
      rw [hs, ← hcap]; exact hr₁.counts.writeBegin
    obtain ⟨hself, hsame⟩ := storeAt_spec (fptrCells_length (.trampoline0 f))
      (Nat.le_add_right base (W % rb.capacity)) (Nat.le_refl _)
      (show base + W % rb.capacity + fptrSize ≤ base + W % rb.capacity + rb₁.capacity by omega)
    have hcount := hr₁.counts.writable
    rw [hbegin]
    refine ⟨trivial, ⟨hself, fun _ _ h => (nomatch h), fun _ _ h => (nomatch h)⟩, rfl,
      Nat.dvd_refl 8, hz, ⟨_, R₁, S₁, (hr₁.storeAt _ _).reduceWritable ?_, by omega⟩, ?_⟩
    · show fptrSize ≤ S₁ + rb₁.capacity - W
      omega
    · exact (sameOutside_of_mem hz hm).trans hsame hz (Nat.le_refl _) (Nat.le_refl _)

variable (order) in
/-- The two copies of `post`: the record is there, and nothing behind it differs. -/
theorem storeRecord_spec {f : Option F} {c : Closure V C} {func : Layout} {p : Nat}
    {r : Record F V C} (hbp : base ≤ p) (hsize : funcPos p func + func.size ≤ p + rb.capacity)
    (ht : r.trampoline = .trampolineN f func) (hc : r.closure? = some (c, func))
    (hna : ∀ f is, r ≠ .logV f is) :
    r.Holds order
      (((rb.storeAt base p (fptrCells (.trampolineN f func))).storeAt base (funcPos p func)
        (closureCells c func.size)).readAt base) p ∧
      SameOutside base p p (funcPos p func + func.size) rb
        ((rb.storeAt base p (fptrCells (.trampolineN f func))).storeAt base (funcPos p func)
          (closureCells c func.size)) := by
  have hfunc := le_funcPos p func
  obtain ⟨hself₁, hsame₁⟩ := storeAt_spec (fptrCells_length (.trampolineN f func)) hbp
    (Nat.le_refl p) (show p + fptrSize ≤ p + rb.capacity by omega)
  obtain ⟨hself₂, hsame₂⟩ : cells (((rb.storeAt base p (fptrCells (.trampolineN f func))).storeAt
      base (funcPos p func) (closureCells c func.size)).readAt base)
        (funcPos p func) func.size = _ ∧ SameOutside base p _ _ _ _ :=
    storeAt_spec (closureCells_length c func.size) hbp (by omega)
      (show funcPos p func + func.size ≤ p + rb.capacity by omega)
  refine ⟨⟨?_, ?_, fun f is he => absurd he (hna f is)⟩,
    hsame₁.trans hsame₂ rfl (by omega) (by omega)⟩
  · rw [ht]
    exact (hsame₂.cells (Nat.le_refl p) (show p + fptrSize ≤ p + rb.capacity by omega)
      (.inl hfunc)).trans hself₁
  · intro c' func' he
    rw [hc] at he
    cases he
    exact hself₂

theorem post_commits {tags : Tags} {f : Option F} {c : Closure V C} {func : Layout} {n : Nat}
    {rb' : RingBuffer (Cell F V C)} {loads' : List Nat} {r : Record F V C} (g : Grid base W rb)
    (hr : Ready rb loads W T R S) (hv : r.Valid) (ht : r.trampoline = .trampolineN f func)
    (hc : r.closure? = some (c, func)) (hna : ∀ f is, r ≠ .logV f is)
    (hsz : ∀ addr, r.size order addr = funcPos addr func + align func.size fptrSize - addr)
    (h : post base tags f c func rb loads = some (.committed n, rb', loads')) :
    Commits order base W T n rb rb' r := by
  unfold post at h
  obtain ⟨⟨s₁, rb₁, l₁⟩, hw₁, h⟩ := Option.bind_eq_some_iff.mp h
  obtain ⟨⟨s, rb₂, l₂⟩, hw₂, h⟩ := Option.bind_eq_some_iff.mp h
  cases s with
  | none => cases h
  | some s =>
    obtain ⟨⟨R₂, S₂, hr₂⟩, hz, hm, hbegin, hs, hsize⟩ := reserve_spec hr hw₁ hw₂
    cases h
    rw [hbegin] at hsize ⊢
    have hcap : rb₂.capacity = rb.capacity := congrArg Sizing.capacity hz
    have hw := hr₂.writable_le
    have hcount := hr₂.counts.writable
    have hfunc := le_funcPos (base + W % rb.capacity) func
    have hal : func.size ≤ align func.size fptrSize := le_align (by decide)
    generalize hp : base + W % rb.capacity = p at *
    have hbp : base ≤ p := hp ▸ Nat.le_add_right _ _
    obtain ⟨hholds, hstores⟩ := storeRecord_spec order hbp
      (show funcPos p func + func.size ≤ p + rb₂.capacity by omega) ht hc hna
    have hsame := (sameOutside_of_mem hz hm).trans hstores hz (Nat.le_refl p)
      (show p ≤ funcPos p func + func.size by omega)
    have h8 : 8 ∣ p := hp ▸ g.record8
    refine ⟨hv, hp ▸ hholds, hp ▸ hsz p, ?_, hz,
      ⟨_, R₂, S₂, ((hr₂.storeAt _ _).storeAt _ _).reduceWritable ?_, by omega⟩, ?_⟩
    · exact Nat.dvd_sub (Nat.dvd_add (funcPos_dvd h8 func) (dvd_align _ _)) h8
    · show _ ≤ S₂ + rb₂.capacity - W
      omega
    · rw [hp]
      intro b hpb hb hout
      exact hsame b hpb hb (by omega)

/-- The closure type depends on the argument types only, not on which strings
were truncated. -/
theorem lambdaLayout_of_recorded {args : List (Arg V)} {is : List (Item V)}
    (h : List.Forall₂ Arg.Recorded args is) :
    lambdaLayout (is.map Item.entry) = Layout.closure (args.map Arg.layout) := by
  unfold lambdaLayout
  congr 1
  induction h with
  | nil => rfl
  | cons hrec _ ih => rw [List.map_cons, List.map_cons, hrec.layout, ih, List.map_cons]

theorem Item.Hold.congr {read read' : Nat → Cell F V C} {is : List (Item V)} {pos : Nat}
    (h : Item.Hold read pos is)
    (hsame : ∀ b, pos ≤ b → b < Item.finishAll pos is → read' b = read b) :
    Item.Hold read' pos is := by
  induction is generalizing pos with
  | nil => trivial
  | cons i is ih =>
    obtain ⟨hi, his⟩ := h
    have hle := Item.le_finishAll (i.finish pos) is
    have hstart := i.start_le pos
    refine ⟨?_, ih his fun b hb hlt => hsame b (Nat.le_trans (i.le_finish pos) hb) hlt⟩
    rw [← hi]
    unfold Xtr.cells
    refine List.map_congr_left fun k hk => hsame _ (by omega) (Nat.lt_of_lt_of_le ?_ hle)
    have hk := List.mem_range.mp hk
    unfold Item.finish
    omega

/-- The two copies of `post_variable_len`, with the arguments transformed in between:
`rb` has the function pointer, `rb₁` the variable-length area behind the closure. -/
theorem storeRecordV_spec {f : F} {is : List (Item V)} {func : Layout} {p : Nat}
    {rb₁ : RingBuffer (Cell F V C)} (hlam : lambdaLayout (is.map Item.entry) = func)
    (hbp : base ≤ p) (hz : rb₁.sizing = rb.sizing)
    (hend : Item.finishAll (funcPos p func + func.size) (order.arrange is) ≤ p + rb.capacity)
    (hself : cells ((rb.storeAt base p (fptrCells (.trampolineV f func))).readAt base) p fptrSize =
      fptrCells (.trampolineV f func))
    (hsame : SameOutside base p (funcPos p func + func.size)
      (Item.finishAll (funcPos p func + func.size) (order.arrange is))
      (rb.storeAt base p (fptrCells (.trampolineV f func))) rb₁)
    (hhold : Item.Hold (rb₁.readAt base) (funcPos p func + func.size) (order.arrange is)) :
    (Record.logV f is).Holds order ((rb₁.storeAt base (funcPos p func)
        (closureCells (.args (is.map Item.entry)) func.size)).readAt base) p ∧
      SameOutside base p (funcPos p func)
        (Item.finishAll (funcPos p func + func.size) (order.arrange is))
        (rb.storeAt base p (fptrCells (.trampolineV f func)))
        (rb₁.storeAt base (funcPos p func)
          (closureCells (.args (is.map Item.entry)) func.size)) := by
  have hcap : rb₁.capacity = rb.capacity := congrArg Sizing.capacity hz
  have hfunc := le_funcPos p func
  have hle := Item.le_finishAll (funcPos p func + func.size) (order.arrange is)
  have hfptr : p + fptrSize ≤ p + rb.capacity := by omega
  obtain ⟨hself₂, hsame₂⟩ : cells ((rb₁.storeAt base (funcPos p func)
      (closureCells (.args (is.map Item.entry)) func.size)).readAt base)
        (funcPos p func) func.size = _ ∧ SameOutside base p _ _ _ _ :=
    storeAt_spec (closureCells_length _ func.size) hbp (by omega)
      (show funcPos p func + func.size ≤ p + rb₁.capacity by omega)
  refine ⟨⟨?_, ?_, ?_⟩, ?_⟩
  · show cells _ _ _ = fptrCells (.trampolineV f (lambdaLayout (is.map Item.entry)))
    rw [hlam]
    refine (hsame₂.cells (Nat.le_refl p) (hcap ▸ hfptr) (.inl hfunc)).trans ?_
    exact (hsame.cells (Nat.le_refl p) hfptr (.inl (by omega))).trans hself
  · intro c func' he
    cases he
    rw [hlam]
    exact hself₂
  · intro f' is' he
    cases he
    rw [hlam]
    -- the closure is copied in front of the area
    exact hhold.congr fun b hb hlt => hsame₂ b (by omega) (by omega) (.inr hb)
  · intro b hpb hb hout
    refine (hsame₂ b hpb ?_ (by omega)).trans (hsame b hpb hb (by omega))
    rw [hcap]
    exact hb

theorem postVariableLen_commits {tags : Tags} {f : F} {args : List (Arg V)} {n : Nat}
    {rb' : RingBuffer (Cell F V C)} {loads' : List Nat} (g : Grid base W rb)
    (hr : Ready rb loads W T R S)
    (h : postVariableLen order base tags f args rb loads = some (.committed n, rb', loads')) :
    ∃ is, List.Forall₂ Arg.Recorded args is ∧ Commits order base W T n rb rb' (.logV f is) := by
  unfold postVariableLen at h
  obtain ⟨⟨s₁, rb₁, l₁⟩, hw₁, h⟩ := Option.bind_eq_some_iff.mp h
  obtain ⟨⟨s, rb₂, l₂⟩, hw₂, h⟩ := Option.bind_eq_some_iff.mp h
  cases s with
  | none => cases h
  | some s =>
    obtain ⟨⟨R₂, S₂, hr₂⟩, hz, hm, hbegin, hs, hsize⟩ := reserve_spec hr hw₁ hw₂
    obtain ⟨⟨es, a⟩, ha, h⟩ := Option.bind_eq_some_iff.mp h
    simp only [hbegin] at ha h hsize
    generalize hfn : Layout.closure (args.map Arg.layout) = func at *
    have hcap : rb₂.capacity = rb.capacity := congrArg Sizing.capacity hz
    have hw := hr₂.writable_le
    have hfunc := le_funcPos (base + W % rb.capacity) func
    have h8 := g.record8
    generalize hp : base + W % rb.capacity = p at *
    have hbp : base ≤ p := hp ▸ Nat.le_add_right _ _
    obtain ⟨hself₁, hsame₁⟩ := storeAt_spec (fptrCells_length (.trampolineV f func)) hbp
      (Nat.le_refl p) (show p + fptrSize ≤ p + rb₂.capacity by omega)
    -- the area starts behind the closure, inside the span
    have hstop : base + s.begin + s.size = p + rb₂.writable := by
      rw [hs, hr₂.span_end, hcap, hp]
    cases hof : a.overflow with
    | true => rw [hof] at h; cases h
    | false =>
      rw [hof] at h
      cases h
      have hinv : (⟨rb₂.storeAt base p (fptrCells (.trampolineV f func)), l₂,
          funcPos p func + func.size, base + s.begin + s.size, false⟩ :
            Area F V C).Inv base W T := by
        refine ⟨⟨R₂, S₂, hr₂.storeAt _ _⟩, ?_, fun _ => ?_⟩
        · show base + s.begin + s.size ≤ base + W % rb₂.capacity + rb₂.writable
          rw [hstop, hcap, hp]
        · show funcPos p func + func.size ≤ base + s.begin + s.size
          omega
      obtain ⟨is, hall, hes, hval, hpos, hinv', hz', hsame', hhold⟩ := transformArgs_spec
        (show rb₂.capacity < 2 ^ 32 from hcap ▸ g.capacity_lt) hinv
        (show base + W % rb₂.capacity ≤ funcPos p func + func.size by rw [hcap, hp]; omega) ha hof
      have hlam : lambdaLayout (is.map Item.entry) = func :=
        (lambdaLayout_of_recorded hall).trans hfn
      have hcap' : a.rb.capacity = rb.capacity := (congrArg Sizing.capacity hz').trans hcap
      have hsame' : SameOutside base p (funcPos p func + func.size) a.pos
          (rb₂.storeAt base p (fptrCells (.trampolineV f func))) a.rb := by
        have hcap₂ : (rb₂.storeAt base p
          (fptrCells (.trampolineV f func))).capacity = rb.capacity := hcap
        rw [← hp, ← hcap₂]
        simpa only [hp, hcap₂] using hsame'
      obtain ⟨R₃, S₃, hr₃⟩ := hinv'.ready
      have hw₃ := hr₃.writable_le
      have hcount := hr₃.counts.writable
      have hle : funcPos p func + func.size ≤ a.pos := hpos ▸ Item.le_finishAll _ (order.arrange is)
      have hend : a.pos ≤ p + a.rb.writable := by
        have h1 := hinv'.pos_le hof
        have h2 := hinv'.stop_le
        rw [hcap', hp] at h2
        omega
      have hal : align a.pos fptrSize ≤ p + a.rb.writable :=
        align_le_of_dvd (by decide) (Nat.dvd_add h8 (g.writable8 (hz'.trans hz) hr₃)) hend
      have hge : a.pos ≤ align a.pos fptrSize := le_align (by decide)
      rw [hpos] at hsame'
      have hfits : Item.finishAll (funcPos p func + func.size) (order.arrange is) ≤
          p + rb₂.capacity := by
        rw [← hpos]
        omega
      obtain ⟨hholds, hsame₂⟩ := storeRecordV_spec hlam hbp
        (show a.rb.sizing = rb₂.sizing from hz') hfits hself₁ hsame' hhold
      rw [hes, ← hpos] at hsame₂
      rw [hes] at hholds
      refine ⟨is, hall, hval, hp ▸ hholds, ?_, Nat.dvd_sub (dvd_align _ _) h8, hz'.trans hz,
        ⟨a.loads, R₃, S₃, (hr₃.storeAt _ _).reduceWritable ?_, by omega⟩, ?_⟩
      · show align (Item.finishAll (funcPos _ _ + _) (order.arrange is)) fptrSize - _ = _
        rw [hp, hlam, hpos]
      · show _ ≤ S₃ + a.rb.capacity - W
        omega
      · rw [hp]
        intro b hpb hb hout
        refine (hsame₂ b hpb (by show b < p + rb₂.capacity; omega) (by omega)).trans ?_
        refine (hsame₁ b hpb (by omega) (by omega)).trans ?_
        have hsame₀ : SameOutside base p p p rb rb₂ := sameOutside_of_mem hz hm
        exact hsame₀ b hpb hb (.inr hpb)

/-- A statement without variable-length arguments records each of them as it is. -/
theorem recorded_capture {args : List (Arg V)} (h : ∀ arg ∈ args, arg.isVariableLen = false) :
    List.Forall₂ Arg.Recorded args (args.map fun arg => .fixed arg.capture) ∧
      (args.map Arg.capture).map Entry.layout = args.map Arg.layout ∧
      ∀ e ∈ args.map Arg.capture, Item.forwards e = true := by
  induction args with
  | nil => exact ⟨.nil, rfl, by simp⟩
  | cons arg args ih =>
    obtain ⟨h1, h2, h3⟩ := ih fun a ha => h a (List.mem_cons_of_mem _ ha)
    have hself : arg.Recorded (.fixed arg.capture) ∧ arg.capture.layout = arg.layout ∧
        Item.forwards arg.capture = true := by
      have := h arg List.mem_cons_self
      cases arg <;> first | exact ⟨rfl, rfl, rfl⟩ | cases this
    refine ⟨.cons hself.1 h1, by rw [List.map_cons, List.map_cons, hself.2.1, h2, List.map_cons],
      fun e he => ?_⟩
    rcases List.mem_cons.mp he with rfl | he
    exacts [hself.2.2, h3 e he]

/-- What `log_impl` commits is a record of the statement's arguments. -/
theorem logImpl_commits {tags : Tags} {f : F} {args : List (Arg V)} {n : Nat}
    {rb' : RingBuffer (Cell F V C)} {loads' : List Nat} (g : Grid base W rb)
    (hr : Ready rb loads W T R S)
    (h : logImpl order base tags f args rb loads = some (.committed n, rb', loads')) :
    ∃ (r : Record F V C) (is : List (Item V)), List.Forall₂ Arg.Recorded args is ∧
      r.entries = is.map Item.entry ∧ r.invocation = .print f (is.map Item.reconstructed) ∧
      Commits order base W T n rb rb' r := by
  cases args with
  | nil => exact ⟨.log0 f, [], .nil, rfl, rfl, log0_commits hr h⟩
  | cons arg args =>
    simp only [logImpl] at h
    split at h
    · obtain ⟨is, hall, hcom⟩ := postVariableLen_commits g hr h
      exact ⟨.logV f is, is, hall, rfl, rfl, hcom⟩
    · rename_i hany
      have hnone : ∀ a ∈ arg :: args, a.isVariableLen = false := by
        intro a ha
        by_contra hne
        exact hany (List.any_eq_true.mpr ⟨a, ha, by simpa using hne⟩)
      obtain ⟨hrec, hlay, hfw⟩ := recorded_capture hnone
      have hlam : lambdaLayout ((arg :: args).map Arg.capture) =
          Layout.closure ((arg :: args).map Arg.layout) := congrArg Layout.closure hlay
      refine ⟨.logN f ((arg :: args).map Arg.capture), _, hrec, ?_, ?_,
        post_commits g hr hfw ?_ ?_ (fun _ _ h => nomatch h) (fun addr => ?_) h⟩
      · rw [List.map_map]
        rfl
      · rw [List.map_map]
        show Invocation.print f _ = _
        rw [List.map_map]
        rfl
      · show Trampoline.trampolineN (some f) _ = _
        rw [hlam]
      · show some _ = some _
        rw [hlam]
      · show funcPos addr (lambdaLayout _) + align (lambdaLayout _).size fptrSize - addr = _
        rw [hlam]

theorem Commits.counts {n : Nat} {rb' : RingBuffer (Cell F V C)} {r : Record F V C}
    (h : Commits order base W T n rb rb' r) :
    ∃ R' S', rb'.Counts (W + n) R' S' ∧ n ≤ S' + rb.capacity - W := by
  obtain ⟨loads', R', S', hr, hn⟩ := h.span
  exact ⟨R', S', hr.counts, hn⟩

variable [DecidableEq F] [DecidableEq V] [DecidableEq C]

/-- Loading at the write position after a commit gives the record back. -/
theorem Commits.trampoline {n : Nat} {rb' : RingBuffer (Cell F V C)} {r : Record F V C}
    (h : Commits order base W T n rb rb' r) :
    trampoline order (rb'.readAt base) (base + W % rb.capacity) =
      some (r.invocation, base + W % rb.capacity + n) := by
  rw [trampoline_of_holds h.valid h.holds, h.size]

/-- **Writers and trampolines agree.**  Whatever a log statement or a posted
command commits, the trampoline called at that address gives back: each argument
as it was recorded, the truncated marker exactly for the strings whose entry says
so, and the address where the record ends.  The size is a multiple of eight and
no more than the span that was last loaded. -/
theorem writer_trampoline_agree (g : Grid base W rb) (hr : Ready rb loads W T R S) :
    (∀ (tags : Tags) (f : F) (args : List (Arg V)) (n : Nat) (rb' : RingBuffer (Cell F V C))
        (loads' : List Nat),
      logImpl order base tags f args rb loads = some (.committed n, rb', loads') →
      ∃ (r : Record F V C) (is : List (Item V)), List.Forall₂ Arg.Recorded args is ∧
        r.Holds order (rb'.readAt base) (base + W % rb.capacity) ∧ r.entries = is.map Item.entry ∧
        trampoline order (rb'.readAt base) (base + W % rb.capacity) =
          some (.print f (is.map Item.reconstructed), base + W % rb.capacity + n) ∧
        8 ∣ n ∧ ∃ R' S', rb'.Counts (W + n) R' S' ∧ n ≤ S' + rb.capacity - W) ∧
    (∀ (tags : Tags) (c : C) (func : Layout) (n : Nat) (rb' : RingBuffer (Cell F V C))
        (loads' : List Nat), 0 < func.size →
      post base tags none (.command c) func rb loads = some (.committed n, rb', loads') →
      trampoline order (rb'.readAt base) (base + W % rb.capacity) =
          some (.command c, base + W % rb.capacity + n) ∧
        8 ∣ n ∧ ∃ R' S', rb'.Counts (W + n) R' S' ∧ n ≤ S' + rb.capacity - W) := by
  constructor
  · intro tags f args n rb' loads' h
    obtain ⟨r, is, hall, hes, hinv, hcom⟩ := logImpl_commits g hr h
    exact ⟨r, is, hall, hcom.holds, hes, hinv ▸ hcom.trampoline, hcom.size8, hcom.counts⟩
  · intro tags c func n rb' loads' hpos h
    have hcom : Commits order base W T n rb rb' (.command c func) :=
      post_commits g hr hpos rfl rfl (fun _ _ h => nomatch h) (fun _ => rfl) h
    exact ⟨hcom.trampoline, hcom.size8, hcom.counts⟩

end Calls

/-- An empty sink queue of one page, mapped at 64 KiB. -/
def pageRing : RingBuffer (Cell Nat Nat Nat) :=
  .make .page fun _ => .byte 0

/-- Two strings, with a value of 16 bytes in between. -/
def pageArgs : List (Arg Nat) := [.string [104, 105], .value .view 42, .stringView [33]]

/-- Posted to the empty queue from right to left, they take 48 bytes and come back. -/
theorem writer_trampoline_agree_page :
    ∃ rb' loads', logImpl .backwards 65536 ⟨false, false⟩ 7 pageArgs pageRing [] =
        some (.committed 48, rb', loads') ∧
      ∃ (r : Record Nat Nat Nat) (is : List (Item Nat)), List.Forall₂ Arg.Recorded pageArgs is ∧
        r.Holds .backwards (rb'.readAt 65536) 65536 ∧ r.entries = is.map Item.entry ∧
        trampoline .backwards (rb'.readAt 65536) 65536 =
          some (.print 7 (is.map Item.reconstructed), 65536 + 48) := by
  have g : Grid 65536 0 pageRing := ⟨⟨8192, rfl⟩, Sizing.page_dvd, Sizing.page_lt, ⟨0, rfl⟩⟩
  have hr : Ready pageRing [] 0 0 0 0 :=
    ⟨.make _ _, ⟨0, rfl⟩, ⟨0, rfl⟩, fun _ h => (nomatch h), rfl, Nat.le_refl 0⟩
  have hrun : (logImpl .backwards 65536 ⟨false, false⟩ 7 pageArgs pageRing []).map Prod.fst =
      some (.committed 48) := by decide +kernel
  obtain ⟨⟨o, rb', loads'⟩, hcall, rfl⟩ := Option.map_eq_some_iff.mp hrun
  obtain ⟨r, is, h1, h2, h3, h4, -⟩ :=
    (writer_trampoline_agree g hr).1 ⟨false, false⟩ 7 pageArgs 48 rb' loads' hcall
  exact ⟨rb', loads', hcall, r, is, h1, h2, h3, h4⟩

end Xtr
