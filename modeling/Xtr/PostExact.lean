import Xtr.PostDropped

/-!
# What a blocking call truncates and drops

A blocking `post_variable_len` waits for its arguments one by one, and gives one up
only once the queue is empty: whether it fits then depends on the capacity and on
where the record starts, and on nothing else (`blocking_exact`).  `Item.place` says
what becomes of an argument in a record that must end by `limit`, and the call is
shown to do that, in two steps: `postVariableLen_eq` sets the part that has a span
apart, and `transformArgs_blocking` runs over the arguments.
-/
namespace Xtr
variable {F V C : Type} {order : Arrangement} {base W T R S : Nat} {rb : RingBuffer (Cell F V C)}
  {loads : List Nat}

/-! ## Past the check for an empty span -/

/-- `vlen_pos` of a record at `record`. -/
def vlenPos (record : Nat) (args : List (Arg V)) : Nat :=
  funcPos record (.closure (args.map Arg.layout)) + (Layout.closure (args.map Arg.layout)).size

theorem record_lt_vlenPos (record : Nat) (args : List (Arg V)) : record < vlenPos record args := by
  have := le_funcPos record (.closure (args.map Arg.layout))
  unfold vlenPos
  simp only [fptrSize] at this
  omega

/-- The part of `post_variable_len` that has a span to write to. -/
def buildVariableLen (order : Arrangement) (base record : Nat) (nonBlocking : Bool) (f : F)
    (args : List (Arg V)) (s : Span) (rb : RingBuffer (Cell F V C)) (loads : List Nat) :
    Option (Outcome × RingBuffer (Cell F V C) × List Nat) := do
  let func := Layout.closure (args.map Arg.layout)
  let rb := rb.storeAt base record (fptrCells (.trampolineV f func))
  let (entries, a) ← transformArgs order base nonBlocking
    ⟨rb, loads, vlenPos record args, base + s.begin + s.size, false⟩ args
  let rb := a.rb.storeAt base (funcPos record func) (closureCells (.args entries) func.size)
  if a.overflow then return (.dropped, rb, a.loads)
  else
    let total := align a.pos fptrSize - record
    return (.committed total, rb.reduceWritable total, a.loads)

/-- The speculative span is looked at for its address and its size only. -/
theorem postVariableLen_eq {tags : Tags} {f : F} {args : List (Arg V)}
    (hr : Ready rb loads W T R S) :
    postVariableLen order base tags f args rb loads =
      (reserve tags (vlenPos (base + W % rb.capacity) args - (base + W % rb.capacity)) rb
          loads).bind fun x =>
        match x.1 with
        | none => some (.dropped, x.2.1, x.2.2)
        | some s =>
          buildVariableLen order base (base + W % rb.capacity) tags.nonBlocking f args s x.2.1
            x.2.2 := by
  have hspec : writeSpanCall ⟨false, true⟩ 0 rb loads =
      some (some rb.writeSpanNow, rb, loads) := rfl
  unfold postVariableLen
  rw [hspec]
  simp only [Option.bind_eq_bind, Option.bind_some, hr.counts.writeBegin]
  rfl

/-- The arguments of a call were transformed: it started behind the closure, inside a
span that was large enough, and the closure holds what came out. -/
structure Built (order : Arrangement) (base W T : Nat) (nonBlocking : Bool) (args : List (Arg V))
    (rb : RingBuffer (Cell F V C)) (o : Outcome) (rb' : RingBuffer (Cell F V C))
    (loads' : List Nat) (a₀ a : Area F V C) (es : List (Entry V)) : Prop where
  transformed : transformArgs order base nonBlocking a₀ args = some (es, a)
  inv : a₀.Inv base W T
  sizing : a₀.rb.sizing = rb.sizing
  pos : a₀.pos = vlenPos (base + W % rb.capacity) args
  overflow : a₀.overflow = false
  outcome : o = if a.overflow then .dropped
    else .committed (align a.pos fptrSize - (base + W % rb.capacity))
  loads : loads' = a.loads
  closure : cells (rb'.readAt base)
      (funcPos (base + W % rb.capacity) (.closure (args.map Arg.layout)))
      (Layout.closure (args.map Arg.layout)).size =
    closureCells (.args es) (Layout.closure (args.map Arg.layout)).size

/-- The variable-length area as it is before the arguments are transformed. -/
theorem reserve_area {tags : Tags} {args : List (Arg V)} {s : Span}
    {rb' : RingBuffer (Cell F V C)} {loads' : List Nat} (xs : List (Cell F V C))
    (hr : Ready rb loads W T R S)
    (h : reserve tags (vlenPos (base + W % rb.capacity) args - (base + W % rb.capacity)) rb loads =
      some (some s, rb', loads')) :
    (⟨rb'.storeAt base (base + W % rb.capacity) xs, loads', vlenPos (base + W % rb.capacity) args,
        base + s.begin + s.size, false⟩ : Area F V C).Inv base W T ∧
      rb'.sizing = rb.sizing ∧
      vlenPos (base + W % rb.capacity) args ≤ base + W % rb.capacity + rb.capacity := by
  obtain ⟨⟨R', S', hr'⟩, hz, -, -, hs, hsize⟩ := reserve_spec hr rfl h
  have hcap : rb'.capacity = rb.capacity := congrArg Sizing.capacity hz
  have hwle := hr'.writable_le
  have hstop : base + s.begin + s.size = base + W % rb.capacity + rb'.writable := by
    rw [hs, hr'.span_end, hcap]
  refine ⟨⟨⟨R', S', hr'.storeAt _ _⟩, ?_, fun _ => ?_⟩, hz, by omega⟩
  · show base + s.begin + s.size ≤ base + W % rb'.capacity + rb'.writable
    rw [hstop, hcap]
  · show vlenPos (base + W % rb.capacity) args ≤ base + s.begin + s.size
    omega

/-- What a call with a span does comes down to how its arguments are transformed. -/
theorem buildVariableLen_spec {tags : Tags} {f : F} {args : List (Arg V)} {o : Outcome} {s : Span}
    {rb₁ rb' : RingBuffer (Cell F V C)} {l₁ loads' : List Nat} (hr : Ready rb loads W T R S)
    (hw : reserve tags (vlenPos (base + W % rb.capacity) args - (base + W % rb.capacity)) rb loads =
      some (some s, rb₁, l₁))
    (h : buildVariableLen order base (base + W % rb.capacity) tags.nonBlocking f args s rb₁ l₁ =
      some (o, rb', loads')) :
    ∃ a₀ a es, a₀.loads = l₁ ∧
      Built order base W T tags.nonBlocking args rb o rb' loads' a₀ a es := by
  obtain ⟨⟨es, a⟩, ha, h⟩ := Option.bind_eq_some_iff.mp h
  obtain ⟨hinv, hz, hend⟩ := reserve_area
    (fptrCells (.trampolineV f (.closure (args.map Arg.layout)))) hr hw
  have hlt := record_lt_vlenPos (base + W % rb.capacity) args
  have hcap : rb₁.capacity = rb.capacity := congrArg Sizing.capacity hz
  have hcon := transformArgs_confined hinv.ready hinv.stop_le
    (show base + W % rb₁.capacity ≤ vlenPos (base + W % rb.capacity) args by rw [hcap]; omega) ha
  have hcap' : a.rb.capacity = rb₁.capacity := congrArg Sizing.capacity hcon.sizing
  have hfunc := le_funcPos (base + W % rb.capacity) (.closure (args.map Arg.layout))
  have hroom : funcPos (base + W % rb.capacity) (.closure (args.map Arg.layout)) +
      (Layout.closure (args.map Arg.layout)).size ≤ base + W % rb.capacity + a.rb.capacity := by
    rw [hcap', hcap]
    exact hend
  have hself := (storeAt_spec (closureCells_length (.args es) _)
    (Nat.le_add_right base (W % rb.capacity)) (Nat.le_of_add_right_le hfunc) hroom).1
  simp only at h
  cases hof : a.overflow with
  | true =>
    rw [hof] at h
    cases h
    exact ⟨_, a, es, rfl, ha, hinv, hz, rfl, rfl, by rw [hof]; rfl, rfl, hself⟩
  | false =>
    rw [hof] at h
    cases h
    exact ⟨_, a, es, rfl, ha, hinv, hz, rfl, rfl, by rw [hof]; rfl, rfl, hself⟩

/-! ## Placing items below a limit -/

/-- The item an argument is committed as when it fits. -/
def Arg.whole : Arg V → Item V
  | .value type v => .fixed (.value type v)
  | .cString mem => .string (cStr mem)
  | .stringView bytes => .string bytes
  | .string bytes => .string bytes
  | .stringRvalue bytes => .fixed (.ownedString bytes)
  | .nocopyCString mem => .fixed (.refCString mem)
  | .nocopyString bytes => .fixed (.refCString bytes)
  | .nocopyStringView bytes => .fixed (.refStringView bytes)
  | .vcopy type bytes _ => .copied type bytes

namespace Item

def isCopied : Item V → Bool
  | copied .. => true
  | _ => false

/-- What becomes of an item at `pos` if the record may end at `limit`: a string that
does not fit is marked as truncated. -/
def place (limit pos : Nat) (i : Item V) : Item V :=
  match i with
  | string bytes => if pos + bytes.length ≤ limit then string bytes else truncated
  | i => i

/-- Where the next item may start.  One that does not fit takes no room, but the
padding in front of an object stays. -/
def next (limit pos : Nat) (i : Item V) : Nat :=
  if i.finish pos ≤ limit then i.finish pos else i.start pos

def placeAll (limit pos : Nat) : List (Item V) → List (Item V)
  | [] => []
  | i :: is => i.place limit pos :: placeAll limit (i.next limit pos) is

def nextAll (limit pos : Nat) : List (Item V) → Nat
  | [] => pos
  | i :: is => nextAll limit (i.next limit pos) is

/-- An object does not fit. -/
def overflows (limit pos : Nat) : List (Item V) → Bool
  | [] => false
  | i :: is =>
    (i.isCopied && decide (limit < i.finish pos)) || overflows limit (i.next limit pos) is

theorem overflows_iff {limit pos : Nat} {is : List (Item V)} :
    overflows limit pos is = true ↔ ∃ before i after, is = before ++ i :: after ∧
      i.isCopied = true ∧ limit < i.finish (nextAll limit pos before) := by
  induction is generalizing pos with
  | nil => simp [overflows]
  | cons i is ih =>
    rw [overflows, Bool.or_eq_true, Bool.and_eq_true, decide_eq_true_eq, ih]
    constructor
    · rintro (⟨hc, hlt⟩ | ⟨before, j, after, rfl, hc, hlt⟩)
      · exact ⟨[], i, is, rfl, hc, hlt⟩
      · exact ⟨i :: before, j, after, rfl, hc, hlt⟩
    · rintro ⟨_ | ⟨j, before⟩, k, after, he, hc, hlt⟩
      · cases he
        exact .inl ⟨hc, hlt⟩
      · cases he
        exact .inr ⟨before, k, after, rfl, hc, hlt⟩

theorem placeAll_append (limit pos : Nat) (before : List (Item V)) (i : Item V)
    (after : List (Item V)) :
    (placeAll limit pos (before ++ i :: after))[before.length]? =
      some (i.place limit (nextAll limit pos before)) := by
  induction before generalizing pos with
  | nil => rfl
  | cons j before ih => exact ih (j.next limit pos)

end Item

/-! ## Blocking calls -/

theorem waitForCapacity_blocking {fits : Bool} {minEnd stop stop' : Nat}
    {rb' : RingBuffer (Cell F V C)} {loads' : List Nat} (hr : Ready rb loads W T R S)
    (hstop : stop ≤ base + W % rb.capacity + rb.writable)
    (h : waitForCapacity base false minEnd rb stop loads = some (fits, rb', stop', loads')) :
    fits = true ↔ minEnd ≤ base + W % rb.capacity + rb.capacity := by
  induction loads generalizing rb stop R S with
  | nil =>
    have hwle := hr.writable_le
    rw [waitForCapacity] at h
    split at h
    · cases h
    · cases h
      exact iff_of_true rfl (by omega)
  | cons n loads ih =>
    have hwle := hr.writable_le
    rw [waitForCapacity] at h
    split at h
    · have hend : base + (rb.reduceReadable n).acquire.writeSpanNow.begin +
          (rb.reduceReadable n).acquire.writeSpanNow.size = _ := hr.release.acquire.span_end
      have hcap : (rb.reduceReadable n).acquire.capacity = rb.capacity := rfl
      simp only at h
      split at h
      · -- given up, so the queue was empty
        rename_i hfull
        obtain ⟨hlt, hsize | hnb⟩ := hfull
        · cases h
          rw [hend] at hlt
          have hw : (rb.reduceReadable n).acquire.writable = rb.capacity := hsize
          rw [hcap, hw] at hlt
          exact iff_of_false (by simp) (by omega)
        · cases hnb
      · rw [hend] at h
        have hrest := ih hr.release.acquire (Nat.le_refl _) h
        exact hrest
    · cases h
      exact iff_of_true rfl (by omega)

theorem copyBytes_blocking {ok : Bool} {a a' : Area F V C} {bytes : List UInt8}
    (hr : Ready a.rb a.loads W T R S)
    (hstop : a.stop ≤ base + W % a.rb.capacity + a.rb.writable)
    (h : copyBytes base false a bytes = some (ok, a')) :
    (ok = true ↔ a.pos + bytes.length ≤ base + W % a.rb.capacity + a.rb.capacity) ∧
      a'.pos = if ok then a.pos + bytes.length else a.pos := by
  obtain ⟨⟨fits, rb', stop', loads'⟩, hw, h⟩ := Option.bind_eq_some_iff.mp h
  have hiff := waitForCapacity_blocking hr hstop hw
  cases fits <;> cases h <;> exact ⟨hiff, rfl⟩

theorem transformString_blocking {a a' : Area F V C} {bytes : List UInt8} {e : Entry V}
    {limit : Nat} (hr : Ready a.rb a.loads W T R S)
    (hstop : a.stop ≤ base + W % a.rb.capacity + a.rb.writable)
    (hlimit : base + W % a.rb.capacity + a.rb.capacity = limit)
    (h : transformString base false a bytes = some (e, a')) :
    e = ((Item.string bytes).place limit a.pos).entry ∧
      a'.pos = (Item.string bytes : Item V).next limit a.pos ∧ a'.overflow = a.overflow := by
  obtain ⟨⟨ok, a₁⟩, hc, h⟩ := Option.bind_eq_some_iff.mp h
  obtain ⟨hok, hpos⟩ := copyBytes_blocking hr hstop hc
  have ho := copyBytes_overflow hc
  cases h
  rw [hlimit] at hok
  refine ⟨?_, ?_, ho⟩
  · by_cases hle : a.pos + bytes.length ≤ limit
    · simp [hok.mpr hle, Item.place, hle, Item.entry]
    · have hno : ok = false := by simpa [hle] using hok
      simp [hno, Item.place, hle, Item.entry]
  · rw [hpos]
    exact if_congr hok rfl rfl

/-- One argument of a blocking call: what it comes to is settled by the limit. -/
theorem transformArg_blocking {a a' : Area F V C} {arg : Arg V} {e : Entry V} {limit : Nat}
    (hready : ∃ R S, Ready a.rb a.loads W T R S)
    (hstop : a.stop ≤ base + W % a.rb.capacity + a.rb.writable)
    (hlimit : base + W % a.rb.capacity + a.rb.capacity = limit)
    (h : transformArg base false a arg = some (e, a')) :
    e = (arg.whole.place limit a.pos).entry ∧ a'.pos = arg.whole.next limit a.pos ∧
      a'.overflow = (a.overflow ||
        (arg.whole.isCopied && decide (limit < arg.whole.finish a.pos))) := by
  obtain ⟨R, S, hr⟩ := hready
  cases arg with
  | cString mem | stringView bytes | string bytes =>
    obtain ⟨h1, h2, h3⟩ := transformString_blocking hr hstop hlimit h
    exact ⟨h1, h2, by rw [h3]; exact (Bool.or_false _).symm⟩
  | vcopy type bytes hsz =>
    obtain ⟨⟨ok, a₁⟩, hc, h⟩ := Option.bind_eq_some_iff.mp h
    obtain ⟨hok, hpos⟩ := copyBytes_blocking (a := { a with pos := align a.pos type.alignment })
      hr hstop hc
    have ho := copyBytes_overflow hc
    cases h
    rw [hlimit] at hok
    refine ⟨rfl, ?_, ?_⟩
    · rw [hpos]
      exact if_congr hok rfl rfl
    · -- the overflow is set exactly when the object does not fit
      have hlost : (!ok) = decide (limit < align a.pos type.alignment + bytes.length) := by
        rw [Bool.eq_iff_iff, decide_eq_true_eq, ← Nat.not_le, ← hok]
        simp
      rw [ho, hlost]
      rfl
  | _ =>
    cases h
    refine ⟨rfl, (ite_self _).symm, (Bool.or_false _).symm⟩

theorem transformInTurn_blocking {args : List (Arg V)} {a a' : Area F V C} {es : List (Entry V)}
    {limit : Nat} (hready : ∃ R S, Ready a.rb a.loads W T R S)
    (hstop : a.stop ≤ base + W % a.rb.capacity + a.rb.writable)
    (hpos : base + W % a.rb.capacity ≤ a.pos)
    (hlimit : base + W % a.rb.capacity + a.rb.capacity = limit)
    (h : transformInTurn base false a args = some (es, a')) :
    es = (Item.placeAll limit a.pos (args.map Arg.whole)).map Item.entry ∧
      a'.pos = Item.nextAll limit a.pos (args.map Arg.whole) ∧
      a'.overflow = (a.overflow || Item.overflows limit a.pos (args.map Arg.whole)) := by
  induction args generalizing a es with
  | nil =>
    cases h
    exact ⟨rfl, rfl, (Bool.or_false _).symm⟩
  | cons arg args ih =>
    obtain ⟨⟨e, a₁⟩, ha, h⟩ := Option.bind_eq_some_iff.mp h
    obtain ⟨⟨es', a₂⟩, hs, h⟩ := Option.bind_eq_some_iff.mp h
    cases h
    have hcon := transformArg_confined hready hstop hpos ha
    have hcap : a₁.rb.capacity = a.rb.capacity := congrArg Sizing.capacity hcon.sizing
    have hle := hcon.pos_le
    obtain ⟨he, hp, ho⟩ := transformArg_blocking hready hstop hlimit ha
    obtain ⟨h1, h2, h3⟩ :=
      ih hcon.ready hcon.stop_le (by rw [hcap]; omega) (by rw [hcap, hlimit]) hs
    rw [hp] at h1 h2 h3
    refine ⟨?_, h2, ?_⟩
    · rw [h1, he]
      rfl
    · rw [h3, ho, Bool.or_assoc]
      rfl

theorem transformArgs_blocking {args : List (Arg V)} {a a' : Area F V C} {es : List (Entry V)}
    {limit : Nat} (hready : ∃ R S, Ready a.rb a.loads W T R S)
    (hstop : a.stop ≤ base + W % a.rb.capacity + a.rb.writable)
    (hpos : base + W % a.rb.capacity ≤ a.pos)
    (hlimit : base + W % a.rb.capacity + a.rb.capacity = limit)
    (h : transformArgs order base false a args = some (es, a')) :
    es = (order.restore
        (Item.placeAll limit a.pos ((order.arrange args).map Arg.whole))).map Item.entry ∧
      a'.pos = Item.nextAll limit a.pos ((order.arrange args).map Arg.whole) ∧
      a'.overflow =
        (a.overflow || Item.overflows limit a.pos ((order.arrange args).map Arg.whole)) := by
  obtain ⟨hes, hrest⟩ :=
    transformInTurn_blocking hready hstop hpos hlimit (transformArgs_iff.mp h)
  refine ⟨?_, hrest⟩
  rw [← order.restore_map, ← hes, order.restore_arrange]

/-! ## Blocking calls return

`k` of the loads to come find the reader idle after it has released everything. -/

theorem replicate_suffix_tail {k n : Nat} (h : List.replicate (k + 1) 0 <:+ n :: loads) :
    List.replicate (k + 1) 0 <:+ loads ∨ n = 0 ∧ loads = List.replicate k 0 := by
  rcases List.suffix_cons_iff.mp h with he | hs
  · rw [List.replicate_succ, List.cons.injEq] at he
    exact .inr ⟨he.1.symm, he.2.symm⟩
  · exact .inl hs

theorem replicate_suffix_of_le {j k : Nat} (hle : j ≤ k) (h : List.replicate k 0 <:+ loads) :
    List.replicate j 0 <:+ loads := by
  obtain ⟨d, rfl⟩ := Nat.exists_eq_add_of_le hle
  refine List.IsSuffix.trans ⟨List.replicate d 0, ?_⟩ h
  rw [List.replicate_append_replicate, Nat.add_comm]

theorem replicate_suffix_of_cons {k n : Nat} (h : List.replicate (k + 1) 0 <:+ n :: loads) :
    List.replicate k 0 <:+ loads := by
  rcases replicate_suffix_tail h with h | ⟨-, rfl⟩
  · exact replicate_suffix_of_le (Nat.le_succ k) h
  · exact List.suffix_rfl

/-- The first load after the queue has been emptied shows all of it free. -/
theorem Ready.writable_drained (h : Ready rb loads W W R S) (hsum : loads.sum = 0) :
    rb.acquire.writable = rb.capacity := by
  have hprog := h.progress
  have hw := h.acquire.counts.writable
  have hcap : rb.acquire.capacity = rb.capacity := rfl
  omega

theorem writeSpanLoops_returns {k minsize : Nat} {tags : Tags} (hb : tags.nonBlocking = false)
    (hr : Ready rb loads W W R S) (hsize : minsize ≤ rb.capacity)
    (hd : List.replicate (k + 1) 0 <:+ loads) :
    ∃ s rb' loads', writeSpanLoops tags minsize rb loads = some (s, rb', loads') ∧
      List.replicate k 0 <:+ loads' := by
  induction loads generalizing rb R S with
  | nil => simp at hd
  | cons n loads ih =>
    rw [writeSpanLoops]
    simp only [RingBuffer.writeSpanLoop]
    by_cases hlt : (rb.reduceReadable n).acquire.writable < minsize
    · simp only [hlt, if_true, hb, Bool.false_eq_true, if_false]
      rcases replicate_suffix_tail hd with hd | ⟨rfl, rfl⟩
      · exact ih hr.release.acquire hsize hd
      · have hfree := hr.release.writable_drained (by simp)
        have hcap : (rb.reduceReadable 0).capacity = rb.capacity := rfl
        omega
    · simp only [hlt, if_false]
      exact ⟨_, _, loads, rfl, replicate_suffix_of_cons hd⟩

/-- The load in front of the loop of a blocking `write_span` is one more turn of it. -/
theorem writeSpanCall_blocking (minsize : Nat) (rb : RingBuffer (Cell F V C)) (loads : List Nat) :
    writeSpanCall ⟨false, false⟩ minsize rb loads =
      writeSpanLoops ⟨false, false⟩ minsize rb loads := by
  cases loads with
  | nil => rfl
  | cons n loads =>
    simp only [writeSpanCall, writeSpanLoops, RingBuffer.writeSpan, RingBuffer.writeSpanLoop,
      Bool.false_eq_true, if_false, Option.bind_eq_bind, Option.bind_some]

theorem reserve_returns {k size : Nat} {tags : Tags} (hb : tags.nonBlocking = false)
    (hr : Ready rb loads W W R S) (hsize : size ≤ rb.capacity)
    (hd : List.replicate (k + 1) 0 <:+ loads) :
    ∃ s rb' loads', reserve tags size rb loads = some (s, rb', loads') ∧
      List.replicate k 0 <:+ loads' := by
  unfold reserve
  split
  · rw [hb, writeSpanCall_blocking]
    exact writeSpanLoops_returns rfl hr hsize hd
  · exact ⟨_, rb, loads, rfl, replicate_suffix_of_le (Nat.le_succ k) hd⟩

theorem waitForCapacity_of_le {nonBlocking : Bool} {minEnd stop : Nat} (h : minEnd ≤ stop) :
    waitForCapacity base nonBlocking minEnd rb stop loads = some (true, rb, stop, loads) := by
  cases loads with
  | nil => exact if_neg (Nat.not_lt.mpr h)
  | cons n loads => exact if_neg (Nat.not_lt.mpr h)

theorem waitForCapacity_returns {k : Nat} (base minEnd stop : Nat) (hr : Ready rb loads W W R S)
    (hd : List.replicate (k + 1) 0 <:+ loads) :
    ∃ fits rb' stop' loads',
      waitForCapacity base false minEnd rb stop loads = some (fits, rb', stop', loads') ∧
        List.replicate k 0 <:+ loads' := by
  induction loads generalizing rb stop R S with
  | nil => simp at hd
  | cons n loads ih =>
    rw [waitForCapacity]
    by_cases hlt : stop < minEnd
    · simp only [hlt, if_true, Bool.false_eq_true, or_false]
      split
      · exact ⟨_, _, _, loads, rfl, replicate_suffix_of_cons hd⟩
      · rename_i hgo
        rcases replicate_suffix_tail hd with hd | ⟨rfl, rfl⟩
        · exact ih _ hr.release.acquire hd
        · -- the whole ring is free, so the end is within reach at once
          have hfree : (rb.reduceReadable 0).acquire.writeSpanNow.size =
              (rb.reduceReadable 0).acquire.capacity := hr.release.writable_drained (by simp)
          have hge := fun hlt => hgo ⟨hlt, hfree⟩
          rw [waitForCapacity_of_le (Nat.not_lt.mp hge)]
          exact ⟨_, _, _, _, rfl, List.suffix_rfl⟩
    · simp only [hlt, if_false]
      exact ⟨_, _, _, _, rfl, replicate_suffix_of_le (Nat.le_succ k) hd⟩

theorem copyBytes_returns {k : Nat} {a : Area F V C} (base : Nat) (bytes : List UInt8)
    (hr : Ready a.rb a.loads W W R S) (hd : List.replicate (k + 1) 0 <:+ a.loads) :
    ∃ ok a', copyBytes base false a bytes = some (ok, a') ∧ List.replicate k 0 <:+ a'.loads := by
  obtain ⟨fits, rb', stop', loads', hw, hd'⟩ :=
    waitForCapacity_returns base (a.pos + bytes.length) a.stop hr hd
  unfold copyBytes
  rw [hw]
  cases fits with
  | true => exact ⟨_, _, rfl, hd'⟩
  | false => exact ⟨_, _, rfl, hd'⟩

theorem transformString_returns {k : Nat} {a : Area F V C} (base : Nat) (bytes : List UInt8)
    (hr : Ready a.rb a.loads W W R S) (hd : List.replicate (k + 1) 0 <:+ a.loads) :
    ∃ e a', transformString base false a bytes = some (e, a') ∧
      List.replicate k 0 <:+ a'.loads := by
  obtain ⟨ok, a', hc, hd'⟩ := copyBytes_returns base bytes hr hd
  exact ⟨_, a', by rw [transformString, hc]; rfl, hd'⟩

theorem transformArg_returns {k : Nat} {a : Area F V C} (base : Nat) (arg : Arg V)
    (hready : ∃ R S, Ready a.rb a.loads W W R S) (hd : List.replicate (k + 1) 0 <:+ a.loads) :
    ∃ e a', transformArg base false a arg = some (e, a') ∧ List.replicate k 0 <:+ a'.loads := by
  obtain ⟨R, S, hr⟩ := hready
  cases arg with
  | cString mem => exact transformString_returns base (cStr mem) hr hd
  | stringView bytes | string bytes => exact transformString_returns base bytes hr hd
  | vcopy type bytes hsz =>
    obtain ⟨ok, a', hc, hd'⟩ :=
      copyBytes_returns (a := { a with pos := align a.pos type.alignment }) base bytes hr hd
    exact ⟨_, { a' with overflow := a'.overflow || !ok }, by rw [transformArg, hc]; rfl, hd'⟩
  | _ => exact ⟨_, a, rfl, replicate_suffix_of_le (Nat.le_succ k) hd⟩

theorem transformInTurn_returns {args : List (Arg V)} {a : Area F V C}
    (hready : ∃ R S, Ready a.rb a.loads W W R S)
    (hstop : a.stop ≤ base + W % a.rb.capacity + a.rb.writable)
    (hpos : base + W % a.rb.capacity ≤ a.pos)
    (hd : List.replicate args.length 0 <:+ a.loads) :
    ∃ es a', transformInTurn base false a args = some (es, a') := by
  induction args generalizing a with
  | nil => exact ⟨_, _, rfl⟩
  | cons arg args ih =>
    obtain ⟨e, a₁, ha, hd₁⟩ := transformArg_returns base arg hready hd
    have hcon := transformArg_confined hready hstop hpos ha
    have hcap : a₁.rb.capacity = a.rb.capacity := congrArg Sizing.capacity hcon.sizing
    have hle := hcon.pos_le
    obtain ⟨es, a', hs⟩ := ih hcon.ready hcon.stop_le (by rw [hcap]; omega) hd₁
    exact ⟨e :: es, a', by simp [transformInTurn, ha, hs]⟩

theorem transformArgs_returns {args : List (Arg V)} {a : Area F V C} (order : Arrangement)
    (hready : ∃ R S, Ready a.rb a.loads W W R S)
    (hstop : a.stop ≤ base + W % a.rb.capacity + a.rb.writable)
    (hpos : base + W % a.rb.capacity ≤ a.pos)
    (hd : List.replicate args.length 0 <:+ a.loads) :
    ∃ es a', transformArgs order base false a args = some (es, a') := by
  rw [← order.length_arrange] at hd
  obtain ⟨es, a', hs⟩ := transformInTurn_returns hready hstop hpos hd
  exact ⟨order.restore es, a', transformArgs_iff.mpr (by rw [hs, order.arrange_restore])⟩

/-- A blocking call whose fixed part fits returns, whatever the reader does before it
has emptied the queue. -/
theorem postVariableLen_returns {tags : Tags} (order : Arrangement) (f : F) {args : List (Arg V)}
    (hb : tags.nonBlocking = false) (hr : Ready rb loads W W R S)
    (hfit : vlenPos (base + W % rb.capacity) args ≤ base + W % rb.capacity + rb.capacity)
    (hd : List.replicate (args.length + 1) 0 <:+ loads) :
    ∃ r, postVariableLen order base tags f args rb loads = some r := by
  obtain ⟨s, rb₁, l₁, hw, hd₁⟩ := reserve_returns hb hr
    (show vlenPos (base + W % rb.capacity) args - (base + W % rb.capacity) ≤ rb.capacity by
      omega) hd
  rw [postVariableLen_eq hr, hw, hb]
  cases s with
  | none => exact ⟨_, rfl⟩
  | some s =>
    obtain ⟨hinv, hz, -⟩ := reserve_area
      (fptrCells (.trampolineV f (.closure (args.map Arg.layout)))) hr hw
    have hlt := record_lt_vlenPos (base + W % rb.capacity) args
    have hcap : rb₁.capacity = rb.capacity := congrArg Sizing.capacity hz
    obtain ⟨es, a, ha⟩ := transformArgs_returns order hinv.ready hinv.stop_le
      (show base + W % rb₁.capacity ≤ vlenPos (base + W % rb.capacity) args by rw [hcap]; omega) hd₁
    simp only [Option.bind_some, buildVariableLen, ha, Option.bind_eq_bind]
    split
    · exact ⟨_, rfl⟩
    · exact ⟨_, rfl⟩

/-! ## What a blocking call comes to -/

theorem Item.le_next (limit pos : Nat) (i : Item V) : pos ≤ i.next limit pos := by
  unfold Item.next
  split
  · exact i.le_finish pos
  · exact i.start_le pos

/-- The length of a string in a ring is not taken for the truncation mark. -/
theorem ofNat_ne_truncated {n : Nat} (h : n < 2 ^ 32 - 1) : UInt32.ofNat n ≠ truncated := by
  intro he
  have := congrArg UInt32.toNat he
  rw [UInt32.toNat_ofNat', Nat.mod_eq_of_lt (by omega)] at this
  simp only [truncated] at this
  have hmark : (0xFFFFFFFF : UInt32).toNat = 2 ^ 32 - 1 := rfl
  omega

theorem Arg.Recorded.eq_place {arg : Arg V} {i : Item V} {limit pos : Nat} (h : arg.Recorded i)
    (hv : i.Valid) (hlimit : limit < pos + (2 ^ 32 - 1))
    (he : i.entry = (arg.whole.place limit pos).entry) : i = arg.whole.place limit pos := by
  have hstring : ∀ bytes : List UInt8, i = .string bytes ∨ i = .truncated →
      i.entry = ((Item.string bytes : Item V).place limit pos).entry →
      i = (Item.string bytes).place limit pos := by
    intro bytes h he
    simp only [Item.place] at he ⊢
    split at he
    · rename_i hle
      rw [if_pos hle]
      refine h.resolve_right ?_
      rintro rfl
      exact ofNat_ne_truncated (by omega) (Entry.stringTable.inj he).symm
    · rename_i hgt
      rw [if_neg hgt]
      refine h.resolve_left ?_
      rintro rfl
      exact ofNat_ne_truncated hv (Entry.stringTable.inj he)
  cases arg with
  | cString mem | stringView bytes | string bytes => exact hstring _ h he
  | _ => exact h

theorem eq_placeAll_of_recorded {args : List (Arg V)} {is : List (Item V)} {limit pos : Nat}
    (h : List.Forall₂ Arg.Recorded args is) (hv : ∀ i ∈ is, i.Valid)
    (hlimit : limit < pos + (2 ^ 32 - 1))
    (he : is.map Item.entry = (Item.placeAll limit pos (args.map Arg.whole)).map Item.entry) :
    is = Item.placeAll limit pos (args.map Arg.whole) := by
  induction h generalizing pos with
  | nil => rfl
  | @cons arg i args is hrec _ ih =>
    simp only [List.map_cons, Item.placeAll, List.cons.injEq] at he ⊢
    have hnext := arg.whole.le_next limit pos
    exact ⟨hrec.eq_place (hv i (by simp)) hlimit he.1,
      ih (fun j hj => hv j (by simp [hj])) (by omega) he.2⟩

/-- What a blocking call does with a record at `record` of a ring of that capacity. -/
def plannedOutcome (order : Arrangement) (record capacity : Nat) (args : List (Arg V)) : Outcome :=
  let whole := (order.arrange args).map Arg.whole
  if Item.overflows (record + capacity) (vlenPos record args) whole then .dropped
  else .committed (align (Item.nextAll (record + capacity) (vlenPos record args) whole) fptrSize -
    record)

/-- The items of that record, in the order of the pack. -/
def plannedItems (order : Arrangement) (record capacity : Nat) (args : List (Arg V)) :
    List (Item V) :=
  order.restore
    (Item.placeAll (record + capacity) (vlenPos record args) ((order.arrange args).map Arg.whole))

/-- Where the argument that is come to after `before` may start in that record. -/
def plannedPos (record capacity : Nat) (args before : List (Arg V)) : Nat :=
  Item.nextAll (record + capacity) (vlenPos record args) (before.map Arg.whole)

theorem plannedItems_append {record capacity : Nat} {args before after : List (Arg V)} {arg : Arg V}
    (h : order.arrange args = before ++ arg :: after) :
    (order.arrange (plannedItems order record capacity args))[before.length]? =
      some (arg.whole.place (record + capacity) (plannedPos record capacity args before)) := by
  have hmap : (order.arrange args).map Arg.whole =
      before.map Arg.whole ++ arg.whole :: after.map Arg.whole := by
    rw [h, List.map_append, List.map_cons]
  unfold plannedItems
  rw [order.arrange_restore, hmap, ← List.length_map (f := Arg.whole)]
  exact Item.placeAll_append ..

theorem plannedOutcome_dropped_iff {record capacity : Nat} {args : List (Arg V)} :
    plannedOutcome order record capacity args = .dropped ↔
      ∃ before type bytes hsz after, order.arrange args = before ++ .vcopy type bytes hsz :: after ∧
        record + capacity <
          align (plannedPos record capacity args before) type.alignment + bytes.length := by
  have hiff : plannedOutcome order record capacity args = .dropped ↔ Item.overflows
      (record + capacity) (vlenPos record args) ((order.arrange args).map Arg.whole) = true := by
    simp only [plannedOutcome]
    split <;> simp_all
  rw [hiff, Item.overflows_iff]
  constructor
  · rintro ⟨is, i, js, he, hc, hlt⟩
    obtain ⟨before, rest, hargs, rfl, hrest⟩ := List.map_eq_append_iff.mp he
    obtain ⟨arg, after, rfl, rfl, rfl⟩ := List.map_eq_cons_iff.mp hrest
    cases arg with
    | vcopy type bytes hsz => exact ⟨before, type, bytes, hsz, after, hargs, hlt⟩
    | _ => cases hc
  · rintro ⟨before, type, bytes, hsz, after, hargs, hlt⟩
    exact ⟨before.map Arg.whole, .copied type bytes, after.map Arg.whole,
      by simp [hargs, Arg.whole], rfl, hlt⟩

/-- The items are settled by what the call recorded for each argument. -/
theorem eq_plannedItems_of_recorded {record capacity : Nat} {args : List (Arg V)}
    {is : List (Item V)} (h : List.Forall₂ Arg.Recorded args is) (hv : ∀ i ∈ is, i.Valid)
    (hlimit : record + capacity < vlenPos record args + (2 ^ 32 - 1))
    (he : is.map Item.entry = (plannedItems order record capacity args).map Item.entry) :
    is = plannedItems order record capacity args := by
  have he' := congrArg order.arrange he
  rw [order.arrange_map, order.arrange_map, plannedItems, order.arrange_restore] at he'
  have his := eq_placeAll_of_recorded (order.forall₂_arrange h)
    (fun i hi => hv i (order.mem_arrange.mp hi)) hlimit he'
  rw [plannedItems, ← his, order.restore_arrange]

/-- Only a non-blocking call can fail to get a span. -/
theorem reserve_blocking {tags : Tags} {size : Nat} {s : Option Span}
    {rb' : RingBuffer (Cell F V C)} {loads' : List Nat} (hb : tags.nonBlocking = false)
    (hr : Ready rb loads W T R S) (h : reserve tags size rb loads = some (s, rb', loads')) :
    s ≠ none := by
  rintro rfl
  unfold reserve at h
  split at h
  · have hok : tags.nonBlocking = true := (writeSpanCall_spec hr h).2
    rw [hb] at hok
    cases hok
  · cases h

/-- The outcome of a blocking call, and the captures its closure has been given. -/
theorem postVariableLen_blocking {tags : Tags} {f : F} {args : List (Arg V)} {o : Outcome}
    {rb' : RingBuffer (Cell F V C)} {loads' : List Nat} (hb : tags.nonBlocking = false)
    (hr : Ready rb loads W T R S)
    (h : postVariableLen order base tags f args rb loads = some (o, rb', loads')) :
    o = plannedOutcome order (base + W % rb.capacity) rb.capacity args ∧
      cells (rb'.readAt base)
          (funcPos (base + W % rb.capacity) (.closure (args.map Arg.layout)))
          (Layout.closure (args.map Arg.layout)).size =
        closureCells
          (.args ((plannedItems order (base + W % rb.capacity) rb.capacity args).map Item.entry))
          (Layout.closure (args.map Arg.layout)).size := by
  rw [postVariableLen_eq hr] at h
  obtain ⟨⟨s, rb₁, l₁⟩, hw, h⟩ := Option.bind_eq_some_iff.mp h
  cases s with
  | none => exact absurd rfl (reserve_blocking hb hr hw)
  | some s =>
    obtain ⟨a₀, a, es, -, hbuilt⟩ := buildVariableLen_spec hr hw h
    have hcap : a₀.rb.capacity = rb.capacity := congrArg Sizing.capacity hbuilt.sizing
    have hlt := record_lt_vlenPos (base + W % rb.capacity) args
    have htrans := hbuilt.transformed
    rw [hb] at htrans
    obtain ⟨hes, hpos, hof⟩ := transformArgs_blocking hbuilt.inv.ready hbuilt.inv.stop_le
      (by rw [hcap, hbuilt.pos]; omega) rfl htrans
    rw [hcap, hbuilt.pos] at hes hpos hof
    rw [hbuilt.overflow, Bool.false_or] at hof
    refine ⟨?_, ?_⟩
    · rw [hbuilt.outcome, hof, hpos]
      rfl
    · rw [hbuilt.closure, hes]
      rfl

theorem closureCells_inj {c c' : Closure V C} {n : Nat} (hn : 0 < n)
    (h : (closureCells c n : List (Cell F V C)) = closureCells c' n) : c = c' := by
  obtain ⟨m, rfl⟩ := Nat.exists_eq_succ_of_ne_zero hn.ne'
  have hhead := congrArg List.head? h
  simp only [closureCells, List.range_succ_eq_map, List.map_cons, List.head?_cons,
    Option.some.injEq, Cell.closure.injEq] at hhead
  exact hhead.1

/-- The record a blocking call commits holds the planned items. -/
theorem postVariableLen_blocking_commits {tags : Tags} {f : F} {args : List (Arg V)} {n : Nat}
    {rb' : RingBuffer (Cell F V C)} {loads' : List Nat} (hb : tags.nonBlocking = false)
    (g : Grid base W rb) (hr : Ready rb loads W T R S)
    (h : postVariableLen order base tags f args rb loads = some (.committed n, rb', loads')) :
    Commits order base W T n rb rb'
      (.logV f (plannedItems order (base + W % rb.capacity) rb.capacity args)) := by
  obtain ⟨is, hall, hcom⟩ := postVariableLen_commits g hr h
  have hlam := lambdaLayout_of_recorded hall
  have hclosure := hcom.holds.closure _ _ rfl
  rw [hlam, (postVariableLen_blocking hb hr h).2] at hclosure
  have hes := Closure.args.inj (closureCells_inj (hlam ▸ lambdaLayout_size_pos _) hclosure)
  have hlt := record_lt_vlenPos (base + W % rb.capacity) args
  have hlen := length_lt_of_capacity g.capacity_lt (Nat.le_refl _)
  have his : is = plannedItems order (base + W % rb.capacity) rb.capacity args :=
    eq_plannedItems_of_recorded hall hcom.valid (by omega) hes.symm
  exact his ▸ hcom

/-- **Blocking calls truncate and drop only what can never fit.**  If the fixed part
fits in the ring, the call returns once the reader has emptied the queue.  Whenever it
returns, what it did is settled by the record's address, the capacity, the arguments and
the order in which they are evaluated: a string is marked as truncated if and only if it
would end past the capacity behind those evaluated before it, the record is dropped if and
only if an object would, and otherwise the consumer reads every other argument whole. -/
theorem blocking_exact [DecidableEq F] [DecidableEq V] [DecidableEq C] (order : Arrangement)
    (tags : Tags) (f : F) (args : List (Arg V)) (hb : tags.nonBlocking = false) (g : Grid base W rb)
    (hr : Ready rb loads W T R S)
    (hfit : vlenPos (base + W % rb.capacity) args ≤ base + W % rb.capacity + rb.capacity) :
    (T = W → List.replicate (args.length + 1) 0 <:+ loads →
      ∃ r, postVariableLen order base tags f args rb loads = some r) ∧
    ∀ o rb' loads', postVariableLen order base tags f args rb loads = some (o, rb', loads') →
      o = plannedOutcome order (base + W % rb.capacity) rb.capacity args ∧
      cells (rb'.readAt base)
          (funcPos (base + W % rb.capacity) (.closure (args.map Arg.layout)))
          (Layout.closure (args.map Arg.layout)).size =
        closureCells
          (.args ((plannedItems order (base + W % rb.capacity) rb.capacity args).map Item.entry))
          (Layout.closure (args.map Arg.layout)).size ∧
      (∀ before arg after bytes, order.arrange args = before ++ arg :: after →
        arg.whole = .string bytes →
        ((order.arrange
            (plannedItems order (base + W % rb.capacity) rb.capacity args))[before.length]? =
            some .truncated ↔
          base + W % rb.capacity + rb.capacity <
            plannedPos (base + W % rb.capacity) rb.capacity args before + bytes.length)) ∧
      (o = .dropped ↔ ∃ before type bytes hsz after,
        order.arrange args = before ++ .vcopy type bytes hsz :: after ∧
          base + W % rb.capacity + rb.capacity <
            align (plannedPos (base + W % rb.capacity) rb.capacity args before) type.alignment +
              bytes.length) ∧
      ∀ n, o = .committed n → (∃ R' S', rb'.Counts (W + n) R' S') ∧
        trampoline order (rb'.readAt base) (base + W % rb.capacity) =
          some (.print f ((plannedItems order (base + W % rb.capacity) rb.capacity args).map
            Item.reconstructed), base + W % rb.capacity + n) := by
  refine ⟨fun hT hd => ?_, fun o rb' loads' h => ?_⟩
  · subst hT
    exact postVariableLen_returns order f hb hr hfit hd
  · obtain ⟨ho, hclosure⟩ := postVariableLen_blocking hb hr h
    refine ⟨ho, hclosure, ?_, ho ▸ plannedOutcome_dropped_iff, ?_⟩
    · intro before arg after bytes hargs hstr
      rw [plannedItems_append hargs, hstr, Item.place]
      by_cases hle : plannedPos (base + W % rb.capacity) rb.capacity args before + bytes.length ≤
          base + W % rb.capacity + rb.capacity
      · simp [hle]
      · simpa [hle] using Nat.not_le.mp hle
    · rintro n rfl
      have hcom := postVariableLen_blocking_commits hb g hr h
      obtain ⟨R', S', hcounts, -⟩ := hcom.counts
      exact ⟨⟨R', S', hcounts⟩, hcom.trampoline⟩

/-- A page, of which all but 16 bytes have been committed and not been read. -/
def busyRing : RingBuffer (Cell Nat Nat Nat) :=
  (RingBuffer.make .page fun _ => .byte 0).reduceWritable 4080

theorem busyRing_grid : Grid 65536 4080 busyRing :=
  ⟨⟨8192, rfl⟩, Sizing.page_dvd, Sizing.page_lt, ⟨510, rfl⟩⟩

theorem busyRing_counts : busyRing.Counts 4080 0 0 :=
  (RingBuffer.Counts.make .page _).reduceWritable (by decide)

/-- The reader gets through the queue in two steps. -/
theorem busyRing_ready : Ready busyRing [2040, 2040, 0, 0, 0] 4080 4080 0 0 :=
  ⟨busyRing_counts, ⟨0, rfl⟩, ⟨0, rfl⟩, by decide, rfl, Nat.le_refl 4080⟩

/-- Two strings that do not fit in the ring together. -/
def busyArgs : List (Arg Nat) :=
  [.string (List.replicate 4000 65), .string (List.replicate 100 66)]

/-- The one that is evaluated last is marked as truncated. -/
theorem blocking_exact_busy :
    (∃ rb' loads', postVariableLen .backwards 65536 ⟨false, false⟩ 7 busyArgs busyRing
        [2040, 2040, 0, 0, 0] = some (.committed 120, rb', loads') ∧
      trampoline .backwards (rb'.readAt 65536) 69616 =
        some (.print 7 [.stringRef truncatedMarker, .stringRef (List.replicate 100 66)], 69736)) ∧
    ∃ rb' loads', postVariableLen .forwards 65536 ⟨false, false⟩ 7 busyArgs busyRing
      [2040, 2040, 0, 0, 0] = some (.committed 4016, rb', loads') := by
  have hfit : vlenPos (65536 + 4080 % busyRing.capacity) busyArgs ≤
      65536 + 4080 % busyRing.capacity + busyRing.capacity := by decide +kernel
  have hall := fun order =>
    blocking_exact order ⟨false, false⟩ 7 busyArgs rfl busyRing_grid busyRing_ready hfit
  refine ⟨?_, ?_⟩
  · obtain ⟨⟨o, rb', loads'⟩, hrun⟩ := (hall .backwards).1 rfl ⟨[2040, 2040], rfl⟩
    obtain ⟨ho, -, -, -, hcom⟩ := (hall .backwards).2 o rb' loads' hrun
    have hplan : plannedOutcome .backwards (65536 + 4080 % busyRing.capacity) busyRing.capacity
        busyArgs = .committed 120 := by decide +kernel
    have ho : o = .committed 120 := ho.trans hplan
    have hitems : plannedItems .backwards (65536 + 4080 % busyRing.capacity) busyRing.capacity
        busyArgs = [.truncated, .string (List.replicate 100 66)] := by decide +kernel
    have hread := (hcom 120 ho).2
    rw [hitems] at hread
    exact ⟨rb', loads', ho ▸ hrun, hread⟩
  · obtain ⟨⟨o, rb', loads'⟩, hrun⟩ := (hall .forwards).1 rfl ⟨[2040, 2040], rfl⟩
    have hplan : plannedOutcome .forwards (65536 + 4080 % busyRing.capacity) busyRing.capacity
        busyArgs = .committed 4016 := by decide +kernel
    have ho : o = .committed 4016 := ((hall .forwards).2 o rb' loads' hrun).1.trans hplan
    exact ⟨rb', loads', ho ▸ hrun⟩

end Xtr
