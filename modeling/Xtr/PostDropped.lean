import Xtr.PostCorrect

/-!
# Records that are dropped

A log call that drops its record has loaded the reader's counter and may have
written to memory: the function pointer, the strings before an object that did not
fit, the closure.  All of that lies in the free space, so neither the committed
records nor the shared counters change (`logImpl_drops`).
-/
namespace Xtr
variable {F V C : Type} {order : Arrangement} {base W T R S : Nat} {rb : RingBuffer (Cell F V C)}
  {loads : List Nat}

/-- **What a call that drops its record has done.**  `W` cells are still committed, and
only cells that are free by the writer's counters differ. -/
structure Drops (base W T : Nat) (rb rb' : RingBuffer (Cell F V C)) (loads' : List Nat) :
    Prop where
  ready : ∃ R' S', Ready rb' loads' W T R' S'
  sizing : rb'.sizing = rb.sizing
  same : SameOutside base (base + W % rb.capacity) (base + W % rb.capacity)
    (base + W % rb.capacity + rb'.writable) rb rb'

theorem Later.drops {rb' : RingBuffer (Cell F V C)} {loads' : List Nat}
    (h : Later W T rb rb' loads' S) : Drops base W T rb rb' loads' := by
  obtain ⟨⟨R', S', hr, -⟩, hz, hm⟩ := h
  exact ⟨⟨R', S', hr⟩, hz, sameOutside_of_mem hz hm⟩

/-- Placing arguments only touches free cells. -/
structure Confined (base W T : Nat) (a a' : Area F V C) : Prop where
  ready : ∃ R S, Ready a'.rb a'.loads W T R S
  sizing : a'.rb.sizing = a.rb.sizing
  stop_le : a'.stop ≤ base + W % a'.rb.capacity + a'.rb.writable
  pos_le : a.pos ≤ a'.pos
  writable_le : a.rb.writable ≤ a'.rb.writable
  same : SameOutside base (base + W % a.rb.capacity) (base + W % a.rb.capacity)
    (base + W % a.rb.capacity + a'.rb.writable) a.rb a'.rb

theorem Confined.trans {a a' a'' : Area F V C} (h : Confined base W T a a')
    (h' : Confined base W T a' a'') : Confined base W T a a'' := by
  have hcap : a'.rb.capacity = a.rb.capacity := congrArg Sizing.capacity h.sizing
  have hw := h'.writable_le
  have hsame' := h'.same
  rw [hcap] at hsame'
  exact ⟨h'.ready, h'.sizing.trans h.sizing, h'.stop_le, Nat.le_trans h.pos_le h'.pos_le,
    Nat.le_trans h.writable_le hw,
    h.same.trans hsame' h.sizing (Nat.le_refl _) (by omega)⟩

theorem copyBytes_confined {nonBlocking ok : Bool} {a a' : Area F V C} {bytes : List UInt8}
    (hr : Ready a.rb a.loads W T R S) (hstop : a.stop ≤ base + W % a.rb.capacity + a.rb.writable)
    (hpos : base + W % a.rb.capacity ≤ a.pos)
    (h : copyBytes base nonBlocking a bytes = some (ok, a')) : Confined base W T a a' := by
  obtain ⟨hready, hz, -, -, hstop', hsame, hok, hno⟩ := copyBytes_spec hr hstop hpos h
  obtain ⟨⟨fits, rb', stop', loads'⟩, hw, h⟩ := Option.bind_eq_some_iff.mp h
  have hwle := (waitForCapacity_spec hr hstop hw).1.writable_le hr
  have hcap : a'.rb.capacity = a.rb.capacity := congrArg Sizing.capacity hz
  have hmono : a.rb.writable ≤ a'.rb.writable := by
    cases fits <;> cases h <;> exact hwle
  rw [hcap] at hstop'
  cases ok with
  | true =>
    obtain ⟨hp, hple, -, -⟩ := hok rfl
    refine ⟨hready, hz, by rw [hcap]; exact hstop', by omega, hmono, ?_⟩
    intro b hpb hb hout
    exact hsame b hpb hb (by omega)
  | false =>
    have hp := hno rfl
    refine ⟨hready, hz, by rw [hcap]; exact hstop', by omega, hmono, ?_⟩
    intro b hpb hb _
    exact hsame b hpb hb (by omega)

theorem transformArg_confined {nonBlocking : Bool} {a a' : Area F V C} {arg : Arg V} {e : Entry V}
    (hready : ∃ R S, Ready a.rb a.loads W T R S)
    (hstop : a.stop ≤ base + W % a.rb.capacity + a.rb.writable)
    (hpos : base + W % a.rb.capacity ≤ a.pos)
    (h : transformArg base nonBlocking a arg = some (e, a')) : Confined base W T a a' := by
  have hself : Confined base W T a a :=
    ⟨hready, rfl, hstop, Nat.le_refl _, Nat.le_refl _, sameOutside_of_mem rfl rfl⟩
  obtain ⟨R, S, hr⟩ := hready
  cases arg with
  | cString mem | stringView bytes | string bytes =>
    obtain ⟨⟨ok, a₁⟩, hc, h⟩ := Option.bind_eq_some_iff.mp h
    cases h
    exact copyBytes_confined hr hstop hpos hc
  | vcopy type bytes hsz =>
    obtain ⟨⟨ok, a₁⟩, hc, h⟩ := Option.bind_eq_some_iff.mp h
    cases h
    have hal : a.pos ≤ align a.pos type.alignment := le_align type.single.pos
    obtain ⟨h1, h2, h3, h4, h5, h6⟩ := @copyBytes_confined F V C base W T R S nonBlocking ok
      { a with pos := align a.pos type.alignment } a₁ bytes hr hstop (Nat.le_trans hpos hal) hc
    exact ⟨h1, h2, h3, Nat.le_trans hal h4, h5, h6⟩
  | _ => cases h; exact hself

theorem transformInTurn_confined {nonBlocking : Bool} {args : List (Arg V)} {a a' : Area F V C}
    {es : List (Entry V)} (hready : ∃ R S, Ready a.rb a.loads W T R S)
    (hstop : a.stop ≤ base + W % a.rb.capacity + a.rb.writable)
    (hpos : base + W % a.rb.capacity ≤ a.pos)
    (h : transformInTurn base nonBlocking a args = some (es, a')) : Confined base W T a a' := by
  induction args generalizing a es with
  | nil =>
    cases h
    exact ⟨hready, rfl, hstop, Nat.le_refl _, Nat.le_refl _, sameOutside_of_mem rfl rfl⟩
  | cons arg args ih =>
    obtain ⟨⟨e, a₁⟩, ha, h⟩ := Option.bind_eq_some_iff.mp h
    obtain ⟨⟨es', a₂⟩, hs, h⟩ := Option.bind_eq_some_iff.mp h
    cases h
    have h₁ := transformArg_confined hready hstop hpos ha
    have hcap : a₁.rb.capacity = a.rb.capacity := congrArg Sizing.capacity h₁.sizing
    have hle := h₁.pos_le
    exact h₁.trans (ih h₁.ready h₁.stop_le (by rw [hcap]; omega) hs)

theorem transformArgs_confined {nonBlocking : Bool} {args : List (Arg V)} {a a' : Area F V C}
    {es : List (Entry V)} (hready : ∃ R S, Ready a.rb a.loads W T R S)
    (hstop : a.stop ≤ base + W % a.rb.capacity + a.rb.writable)
    (hpos : base + W % a.rb.capacity ≤ a.pos)
    (h : transformArgs order base nonBlocking a args = some (es, a')) : Confined base W T a a' :=
  transformInTurn_confined hready hstop hpos (transformArgs_iff.mp h)

/-- The calls before the record is built. -/
theorem reserve_later {tags : Tags} {size : Nat} {s₁ s : Option Span}
    {rb₁ rb₂ : RingBuffer (Cell F V C)} {l₁ l₂ : List Nat} (hr : Ready rb loads W T R S)
    (h₁ : writeSpanCall ⟨false, true⟩ 0 rb loads = some (s₁, rb₁, l₁))
    (h₂ : reserve tags size rb₁ l₁ = some (s, rb₂, l₂)) : Later W T rb rb₂ l₂ S := by
  obtain ⟨hl, -⟩ := writeSpanCall_spec hr h₁
  unfold reserve at h₂
  split at h₂
  · exact hl.trans fun R' S' hr' => (writeSpanCall_spec hr' h₂).1
  · cases h₂
    exact hl

theorem postVariableLen_drops {tags : Tags} {f : F} {args : List (Arg V)}
    {rb' : RingBuffer (Cell F V C)} {loads' : List Nat} (hr : Ready rb loads W T R S)
    (h : postVariableLen order base tags f args rb loads = some (.dropped, rb', loads')) :
    Drops base W T rb rb' loads' := by
  unfold postVariableLen at h
  obtain ⟨⟨s₁, rb₁, l₁⟩, hw₁, h⟩ := Option.bind_eq_some_iff.mp h
  obtain ⟨⟨s, rb₂, l₂⟩, hw₂, h⟩ := Option.bind_eq_some_iff.mp h
  cases s with
  | none =>
    cases h
    exact (reserve_later hr hw₁ hw₂).drops
  | some s =>
    obtain ⟨⟨R₂, S₂, hr₂⟩, hz, hm, hbegin, hs, hsize⟩ := reserve_spec hr hw₁ hw₂
    obtain ⟨⟨es, a⟩, ha, h⟩ := Option.bind_eq_some_iff.mp h
    simp only [hbegin] at ha h hsize
    generalize Layout.closure (args.map Arg.layout) = func at *
    have hcap : rb₂.capacity = rb.capacity := congrArg Sizing.capacity hz
    have hw := hr₂.writable_le
    have hfunc := le_funcPos (base + W % rb.capacity) func
    have hend : base + s.begin + s.size = base + W % rb.capacity + rb₂.writable := by
      rw [hs, hr₂.span_end, hcap]
    generalize hp : base + W % rb.capacity = p at *
    have hbp : base ≤ p := hp ▸ Nat.le_add_right _ _
    obtain ⟨-, hsame₁⟩ := storeAt_spec (fptrCells_length (.trampolineV f func)) hbp
      (Nat.le_refl p) (show p + fptrSize ≤ p + rb₂.capacity by omega)
    -- the arguments that were placed before the overflow lie in the free space
    have hc : Confined base W T (⟨rb₂.storeAt base p (fptrCells (.trampolineV f func)), l₂,
        funcPos p func + func.size, base + s.begin + s.size, false⟩ : Area F V C) a := by
      refine transformArgs_confined ⟨R₂, S₂, hr₂.storeAt _ _⟩ ?_ ?_ ha
      · show base + s.begin + s.size ≤ base + W % rb₂.capacity + rb₂.writable
        rw [hend, hcap, hp]
      · show base + W % rb₂.capacity ≤ funcPos p func + func.size
        rw [hcap, hp]
        omega
    obtain ⟨⟨R₃, S₃, hr₃⟩, hz₃, -, -, hwle, hsame₃⟩ := hc
    have hz₃ : a.rb.sizing = rb₂.sizing := hz₃
    have hcap₃ : a.rb.capacity = rb.capacity := congrArg Sizing.capacity (hz₃.trans hz)
    have hwle : rb₂.writable ≤ a.rb.writable := hwle
    have hw₃ := hr₃.writable_le
    have hsame₃ : SameOutside base p p (p + a.rb.writable)
        (rb₂.storeAt base p (fptrCells (.trampolineV f func))) a.rb := by
      have hp₂ : base + W % (rb₂.storeAt base p
          (fptrCells (.trampolineV f func))).capacity = p := by
        show base + W % rb₂.capacity = p
        rw [hcap, hp]
      rwa [hp₂] at hsame₃
    obtain ⟨-, hsame₂⟩ := storeAt_spec (closureCells_length (.args es) func.size) hbp
      (show p ≤ funcPos p func by omega)
      (show funcPos p func + func.size ≤ p + a.rb.capacity by omega)
    cases hof : a.overflow with
    | false => rw [hof] at h; cases h
    | true =>
      rw [hof] at h
      cases h
      refine ⟨⟨R₃, S₃, hr₃.storeAt _ _⟩, hz₃.trans hz, ?_⟩
      rw [hp]
      show SameOutside base p p (p + a.rb.writable) rb _
      have h₁ := (sameOutside_of_mem hz hm).trans hsame₁ hz (Nat.le_refl p) (Nat.le_refl _)
      have h₂ := h₁.trans hsame₃ hz (Nat.le_refl p) (by omega)
      intro b hpb hb hout
      exact (hsame₂ b hpb (by omega) (by omega)).trans (h₂ b hpb hb (by omega))

theorem log0_drops {tags : Tags} {f : F} {rb' : RingBuffer (Cell F V C)} {loads' : List Nat}
    (hr : Ready rb loads W T R S)
    (h : log0 base tags f rb loads = some (.dropped, rb', loads')) :
    Drops base W T rb rb' loads' := by
  obtain ⟨⟨s, rb₁, l₁⟩, hw, h⟩ := Option.bind_eq_some_iff.mp h
  cases s with
  | some s => cases h
  | none =>
    cases h
    exact (writeSpanCall_spec hr hw).1.drops

theorem post_drops {tags : Tags} {f : Option F} {c : Closure V C} {func : Layout}
    {rb' : RingBuffer (Cell F V C)} {loads' : List Nat} (hr : Ready rb loads W T R S)
    (h : post base tags f c func rb loads = some (.dropped, rb', loads')) :
    Drops base W T rb rb' loads' := by
  unfold post at h
  obtain ⟨⟨s₁, rb₁, l₁⟩, hw₁, h⟩ := Option.bind_eq_some_iff.mp h
  obtain ⟨⟨s, rb₂, l₂⟩, hw₂, h⟩ := Option.bind_eq_some_iff.mp h
  cases s with
  | some s => cases h
  | none =>
    cases h
    exact (reserve_later hr hw₁ hw₂).drops

/-- **A dropped record leaves the queue as it was.** -/
theorem logImpl_drops {tags : Tags} {f : F} {args : List (Arg V)} {rb' : RingBuffer (Cell F V C)}
    {loads' : List Nat} (hr : Ready rb loads W T R S)
    (h : logImpl order base tags f args rb loads = some (.dropped, rb', loads')) :
    Drops base W T rb rb' loads' := by
  cases args with
  | nil => exact log0_drops hr h
  | cons arg args =>
    simp only [logImpl] at h
    split at h
    · exact postVariableLen_drops hr h
    · exact post_drops hr h

end Xtr
