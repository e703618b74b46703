import Xtr.PostNonBlocking

/-!
# The space a call asks for

A blocking call spins in `write_span` until there is room for the function pointer, the
closure and the padding between them.  Nothing in `sink.hpp` bounds that: strings and
`vcopy` objects are truncated and dropped when they can never fit, but a closure is as large
as its captures are.  A closure that does not fit behind the worst padding is asked for in
vain from some write position, and the assertion of `write_span` fails
(`minsize_le_capacity_iff`).
-/
namespace Xtr
variable {F V C : Type} {order : Arrangement} {base W T R S : Nat} {rb : RingBuffer (Cell F V C)}
  {loads : List Nat}

/-- The sizes that `log_impl` passes to `write_span`.  The speculative call of `post` and
`post_variable_len`, and those of `wait_for_capacity`, ask for none. -/
def minsizes (base : Nat) (args : List (Arg V)) (rb : RingBuffer (Cell F V C)) : List Nat :=
  match args with
  | [] => [fptrSize]
  | args =>
    let size := requestedSize (base + rb.writeBegin) args
    if rb.writable < size then [0, size] else [0]

/-- **A statement never asks for space that cannot exist**: from every write position of a
ring, whatever is unread, the assertion of `write_span` holds, and a blocking call returns
once the reader has emptied the queue. -/
def AlwaysFits (F C : Type) (order : Arrangement) (base : Nat) (sizing : Sizing)
    (args : List (Arg V)) : Prop :=
  ∀ (rb : RingBuffer (Cell F V C)) (loads : List Nat) (W T R S : Nat), rb.sizing = sizing →
    Grid base W rb → Ready rb loads W T R S →
    (∀ minsize ∈ minsizes base args rb, minsize ≤ rb.capacity) ∧
      ∀ (tags : Tags) (f : F), tags.nonBlocking = false → T = W →
        List.replicate (args.length + 1) 0 <:+ loads →
          ∃ r, logImpl order base tags f args rb loads = some r

/-! ## Padding -/

/-- The closure starts within its alignment, or right behind the function pointer. -/
theorem funcPos_le {record : Nat} (h8 : 8 ∣ record) (func : Layout) :
    funcPos record func ≤ record + max fptrSize func.alignment := by
  unfold funcPos
  split
  · rename_i hgt
    have h8' : 8 ∣ func.alignment := hasSingleBit_8.dvd_of_le func.single (Nat.le_of_lt hgt)
    have hlt := @align_lt (record + fptrSize) func.alignment func.single.pos
    have hal : 8 ∣ align (record + fptrSize) func.alignment :=
      h8'.trans (dvd_align _ _)
    rw [Nat.max_eq_right (Nat.le_of_lt hgt)]
    simp only [fptrSize] at *
    omega
  · exact Nat.add_le_add_left (Nat.le_max_left _ _) _

/-- All the padding is needed at an address that is itself aligned. -/
theorem funcPos_of_dvd {record : Nat} {func : Layout} (h : func.alignment ∣ record) :
    funcPos record func = record + max fptrSize func.alignment := by
  unfold funcPos
  split
  · rename_i hgt
    rw [Nat.max_eq_right (Nat.le_of_lt hgt)]
    have hd : func.alignment ∣ record + func.alignment := h.add (Nat.dvd_refl _)
    refine Nat.le_antisymm (align_le_of_dvd func.single.pos hd (by omega)) ?_
    -- the next multiple is a whole alignment away
    have hle := @le_align (record + fptrSize) func.alignment func.single.pos
    have hlt : record < align (record + fptrSize) func.alignment :=
      Nat.lt_of_lt_of_le (Nat.lt_add_of_pos_right (by decide)) hle
    obtain ⟨k, hk⟩ := Nat.dvd_sub (dvd_align (record + fptrSize) func.alignment) h
    have hpos : 0 < k := by
      rcases Nat.eq_zero_or_pos k with rfl | hpos
      · rw [Nat.mul_zero] at hk
        omega
      · exact hpos
    have := Nat.le_mul_of_pos_right func.alignment hpos
    omega
  · rename_i hle
    rw [Nat.max_eq_left (Nat.le_of_not_lt hle)]

theorem dvd_max_alignment (func : Layout) : 8 ∣ max fptrSize func.alignment := by
  rcases Nat.le_total fptrSize func.alignment with hle | hle
  · rw [Nat.max_eq_right hle]
    exact hasSingleBit_8.dvd_of_le func.single hle
  · rw [Nat.max_eq_left hle]
    exact Nat.dvd_refl 8

/-- A closure with a capture is at least as large as its alignment. -/
theorem alignment_le_size {fields : List Layout} (hne : fields ≠ [])
    (hsize : ∀ l ∈ fields, 0 < l.size) :
    (Layout.closure fields).alignment ≤ (Layout.closure fields).size := by
  obtain ⟨init, last, rfl⟩ := (List.eq_nil_or_concat fields).resolve_left hne
  have hlast : 0 < last.size := hsize last (by simp)
  unfold Layout.closure
  simp only [List.concat_eq_append, List.foldl_append, List.foldl_cons, List.foldl_nil]
  generalize init.foldl Layout.push ⟨0, 1, 0, by decide, rfl⟩ = l
  have hpos : 0 < (l.push last).size := Nat.lt_of_lt_of_le hlast (Nat.le_add_left _ _)
  have hal := @le_align (l.push last).size (l.push last).alignment (l.push last).single.pos
  exact Nat.le_trans (Nat.le_of_dvd (by omega) (dvd_align _ _)) (Nat.le_max_right _ _)

/-! ## What is asked for -/

section Requested
variable {args : List (Arg V)} {record : Nat}

theorem requestedSize_le_padded (hne : args ≠ []) (h8 : 8 ∣ record) :
    requestedSize record args ≤
      max fptrSize (Layout.closure (args.map Arg.layout)).alignment +
        align (Layout.closure (args.map Arg.layout)).size fptrSize := by
  obtain ⟨arg, rest, rfl⟩ := List.exists_cons_of_ne_nil hne
  have hpos := funcPos_le h8 (.closure ((arg :: rest).map Arg.layout))
  have hal := @le_align (Layout.closure ((arg :: rest).map Arg.layout)).size fptrSize (by decide)
  simp only [requestedSize, vlenPos]
  split <;> omega

theorem le_requestedSize (hne : args ≠ []) :
    funcPos record (.closure (args.map Arg.layout)) + (Layout.closure (args.map Arg.layout)).size ≤
      record + requestedSize record args := by
  obtain ⟨arg, rest, rfl⟩ := List.exists_cons_of_ne_nil hne
  have hal := @le_align (Layout.closure ((arg :: rest).map Arg.layout)).size fptrSize (by decide)
  simp only [requestedSize, vlenPos]
  split <;> omega

/-- Space that cannot exist is asked for: the assertion fails. -/
theorem exists_minsize_gt (hne : args ≠ []) (hr : Ready rb loads W T R S)
    (h : base + W % rb.capacity + rb.capacity <
      funcPos (base + W % rb.capacity) (.closure (args.map Arg.layout)) +
        (Layout.closure (args.map Arg.layout)).size) :
    ∃ minsize ∈ minsizes base args rb, rb.capacity < minsize := by
  have hreq := @le_requestedSize V args (base + W % rb.capacity) hne
  have hle := hr.writable_le
  obtain ⟨arg, rest, rfl⟩ := List.exists_cons_of_ne_nil hne
  refine ⟨requestedSize (base + W % rb.capacity) (arg :: rest), ?_, by omega⟩
  simp only [minsizes, hr.counts.writeBegin]
  rw [if_pos (by omega)]
  exact List.mem_cons_of_mem _ List.mem_cons_self

end Requested

/-! ## Calls return -/

/-- The span of a blocking call whose size fits comes when the queue is empty. -/
theorem admission_blocking_returns {tags : Tags} {args : List (Arg V)} {k : Nat}
    (hb : tags.nonBlocking = false) (hr : Ready rb loads W W R S)
    (hsize : requestedSize (base + W % rb.capacity) args ≤ rb.capacity)
    (hd : List.replicate (k + 1) 0 <:+ loads) :
    ∃ x, admission base tags args rb loads = some x := by
  cases args with
  | nil =>
    simp only [admission, writeSpanCall, RingBuffer.writeSpan, if_true, Option.bind_eq_bind,
      Option.bind_some]
    split
    · rename_i rb₁ hspin
      obtain ⟨rfl, -⟩ := Prod.mk.inj hspin
      have hb' : (⟨tags.nonBlocking, true⟩ : Tags).nonBlocking = false := hb
      obtain ⟨s, rb', loads', hloop, -⟩ := writeSpanLoops_returns (k := k) hb' hr hsize hd
      exact ⟨_, hloop⟩
    · exact ⟨_, rfl⟩
  | cons arg rest =>
    rw [← hr.counts.writeBegin] at hsize
    obtain ⟨s, rb', loads', hres, -⟩ := reserve_returns (k := k) hb hr hsize hd
    exact ⟨_, hres⟩

/-- **A blocking call whose fixed part fits returns**, once the queue is empty. -/
theorem logImpl_blocking_returns {tags : Tags} (f : F) {args : List (Arg V)}
    (hb : tags.nonBlocking = false) (hr : Ready rb loads W W R S)
    (hsize : requestedSize (base + W % rb.capacity) args ≤ rb.capacity)
    (hd : List.replicate (args.length + 1) 0 <:+ loads) :
    ∃ r, logImpl order base tags f args rb loads = some r := by
  by_cases hany : args.any Arg.isVariableLen = true
  · cases args with
    | nil => cases hany
    | cons arg rest =>
      simp only [logImpl, hany, if_true]
      simp only [requestedSize, hany, if_true] at hsize
      exact postVariableLen_returns order f hb hr (by omega) hd
  · obtain ⟨⟨s, rb', loads'⟩, hadm⟩ := admission_blocking_returns hb hr hsize hd
    rw [logImpl_eq hr, hadm]
    cases s with
    | none => exact ⟨_, rfl⟩
    | some s =>
      cases args with
      | nil => exact ⟨_, rfl⟩
      | cons arg rest =>
        simp only [Option.bind_some, build, hany, Bool.false_eq_true, if_false]
        exact ⟨_, rfl⟩

/-- A blocking call that asks for more than there is never returns. -/
theorem logImpl_eq_none {tags : Tags} (f : F) {args : List (Arg V)} (hb : tags.nonBlocking = false)
    (hne : args ≠ []) (hr : Ready rb loads W T R S)
    (h : rb.capacity < requestedSize (base + W % rb.capacity) args) :
    logImpl order base tags f args rb loads = none := by
  obtain ⟨arg, rest, rfl⟩ := List.exists_cons_of_ne_nil hne
  rw [logImpl_eq hr]
  cases hadm : admission base tags (arg :: rest) rb loads with
  | none => rfl
  | some x =>
    obtain ⟨s, rb', loads'⟩ := x
    simp only [admission, hr.counts.writeBegin] at hadm
    cases s with
    | none => exact absurd rfl (reserve_blocking hb hr hadm)
    | some s =>
      obtain ⟨⟨R', S', hr'⟩, hz, -, -, -, hsize⟩ := reserve_spec hr rfl hadm
      have hwle := hr'.writable_le
      have hcap : rb'.capacity = rb.capacity := congrArg Sizing.capacity hz
      omega

/-! ## When every statement fits -/

/-- Some cells have been committed and nothing has been read. -/
theorem ready_at (sizing : Sizing) (mem : Nat → Cell F V C) {W : Nat} (hW : W ≤ sizing.capacity) :
    Ready ((RingBuffer.make sizing mem).reduceWritable W) [] W 0 0 0 := by
  have hcounts := (RingBuffer.Counts.make sizing mem).reduceWritable
    (show W ≤ 0 + (RingBuffer.make sizing mem).capacity - 0 by
      show W ≤ 0 + sizing.capacity - 0
      omega)
  rw [Nat.zero_add] at hcounts
  exact ⟨hcounts, ⟨0, rfl⟩, ⟨0, rfl⟩, fun _ h => (nomatch h), rfl, Nat.zero_le W⟩

/-- An address in the first turn of the ring that is a multiple of an alignment no larger. -/
theorem exists_aligned {sizing : Sizing} {alignment : Nat} (h8 : 8 ∣ base)
    (hal : HasSingleBit alignment) (hge : 8 ≤ alignment) (hle : alignment ≤ sizing.capacity) :
    ∃ W, 8 ∣ W ∧ W < sizing.capacity ∧ alignment ∣ base + W := by
  have h1 := @le_align base alignment hal.pos
  have h2 := @align_lt base alignment hal.pos
  have hdvd := dvd_align base alignment
  have hd8 : 8 ∣ align base alignment := (hasSingleBit_8.dvd_of_le hal hge).trans hdvd
  refine ⟨align base alignment - base, Nat.dvd_sub hd8 h8, by omega, ?_⟩
  rwa [Nat.add_sub_cancel' h1]

/-- A write position from which the closure ends past the capacity, if it does not fit behind
the worst padding. -/
theorem exists_past_capacity (h8 : 8 ∣ base) {sizing : Sizing} {args : List (Arg V)}
    (hsize : ∀ arg ∈ args, 0 < arg.layout.size) (hne : args ≠ [])
    (hlarge : ¬ max fptrSize (Layout.closure (args.map Arg.layout)).alignment +
      (Layout.closure (args.map Arg.layout)).size ≤ sizing.capacity) :
    ∃ W, 8 ∣ W ∧ W < sizing.capacity ∧
      base + W + sizing.capacity < funcPos (base + W) (.closure (args.map Arg.layout)) +
        (Layout.closure (args.map Arg.layout)).size := by
  have hfunc := le_funcPos (base + 0) (.closure (args.map Arg.layout))
  by_cases hge : fptrSize < (Layout.closure (args.map Arg.layout)).alignment
  · by_cases hle : (Layout.closure (args.map Arg.layout)).alignment ≤ sizing.capacity
    · obtain ⟨W, hW8, hW, hdvd⟩ := exists_aligned h8
        (Layout.closure (args.map Arg.layout)).single (Nat.le_of_lt hge) hle
      exact ⟨W, hW8, hW, by rw [funcPos_of_dvd hdvd]; omega⟩
    · have hself := alignment_le_size (mt List.map_eq_nil_iff.mp hne)
        (List.forall_mem_map.mpr hsize)
      exact ⟨0, Nat.dvd_zero 8, sizing.capacity_pos, by omega⟩
  · rw [Nat.max_eq_left (Nat.le_of_not_lt hge)] at hlarge
    exact ⟨0, Nat.dvd_zero 8, sizing.capacity_pos, by omega⟩

/-- What fits behind the worst padding fits wherever the record starts. -/
theorem requestedSize_le_capacity (g : Grid base W rb) {args : List (Arg V)} (hfit : args = [] ∨
      max fptrSize (Layout.closure (args.map Arg.layout)).alignment +
        (Layout.closure (args.map Arg.layout)).size ≤ rb.capacity) :
    requestedSize (base + W % rb.capacity) args ≤ rb.capacity := by
  by_cases hne : args = []
  · subst hne
    exact Nat.le_of_dvd rb.capacity_pos g.capacity8
  · have hle := hfit.resolve_left hne
    have hpad := requestedSize_le_padded hne g.record8
    -- the capacity is a multiple of eight, so the closure may be rounded up
    have hdvd : 8 ∣ rb.capacity - max fptrSize (Layout.closure (args.map Arg.layout)).alignment :=
      Nat.dvd_sub g.capacity8 (dvd_max_alignment _)
    have hround := align_le_of_dvd (by decide) hdvd
      (show (Layout.closure (args.map Arg.layout)).size ≤ _ from Nat.le_sub_of_add_le' hle)
    simp only [fptrSize] at *
    omega

/-- Every request is for nothing or for the requested size. -/
theorem minsizes_le (hr : Ready rb loads W T R S) {args : List (Arg V)}
    (hreq : requestedSize (base + W % rb.capacity) args ≤ rb.capacity) :
    ∀ minsize ∈ minsizes base args rb, minsize ≤ rb.capacity := by
  intro minsize hmem
  cases args with
  | nil =>
    rw [List.mem_singleton.mp hmem]
    exact hreq
  | cons arg rest =>
    simp only [minsizes, hr.counts.writeBegin] at hmem
    split at hmem
    · simp only [List.mem_cons, List.not_mem_nil, or_false] at hmem
      rcases hmem with rfl | rfl
      · exact Nat.zero_le _
      · exact hreq
    · rw [List.mem_singleton.mp hmem]
      exact Nat.zero_le _

/-- **When a statement never asks for space that cannot exist**: it has no arguments, or its
closure fits in the ring behind the function pointer and the worst padding. -/
theorem minsize_le_capacity_iff (h8 : 8 ∣ base) {sizing : Sizing}
    (hcap8 : 8 ∣ sizing.capacity) (hcap : sizing.capacity < 2 ^ 32) (args : List (Arg V))
    (hsize : ∀ arg ∈ args, 0 < arg.layout.size) :
    AlwaysFits F C order base sizing args ↔ args = [] ∨
      max fptrSize (Layout.closure (args.map Arg.layout)).alignment +
        (Layout.closure (args.map Arg.layout)).size ≤ sizing.capacity := by
  constructor
  · intro hfits
    by_contra hno
    obtain ⟨hne, hlarge⟩ := not_or.mp hno
    obtain ⟨W, hW8, hW, hpos⟩ := exists_past_capacity h8 hsize hne hlarge
    have hr := ready_at sizing (fun _ => (.byte 0 : Cell F V C)) (Nat.le_of_lt hW)
    have g : Grid base W
        ((RingBuffer.make sizing fun _ => (.byte 0 : Cell F V C)).reduceWritable W) :=
      ⟨h8, hcap8, hcap, hW8⟩
    rw [← Nat.mod_eq_of_lt hW] at hpos
    obtain ⟨minsize, hmem, hgt⟩ := exists_minsize_gt hne hr hpos
    exact Nat.not_le.mpr hgt ((hfits _ _ _ _ _ _ rfl g hr).1 minsize hmem)
  · rintro hfit rb loads W T R S rfl g hr
    have hreq := requestedSize_le_capacity g hfit
    refine ⟨minsizes_le hr hreq, fun tags f hb hT hd => ?_⟩
    subst hT
    exact logImpl_blocking_returns f hb hr hreq hd

theorem hasSingleBit_16 : HasSingleBit 16 := ⟨4, by decide, rfl⟩

/-- A structure of 48 bytes with an alignment of 16. -/
def vectorArgs : List (Arg Nat) := [.value ⟨48, 16, hasSingleBit_16⟩ 1]

/-- It fits in a ring of one page, wherever the record starts. -/
theorem minsize_le_capacity_vector : AlwaysFits Nat Nat .backwards 65536 .page vectorArgs :=
  (minsize_le_capacity_iff ⟨8192, rfl⟩ Sizing.page_dvd Sizing.page_lt vectorArgs
    (by decide)).mpr (.inr (by decide))

/-- `XTR_LOG(s, "{}", t)`, where `t` is a structure of 5000 bytes. -/
def pageArg : List (Arg Nat) := [.value ⟨5000, 8, hasSingleBit_8⟩ 1]

theorem pageRing_ready (loads : List Nat) (h : ∀ n ∈ loads, n = 0) : Ready pageRing loads 0 0 0 0 :=
  ⟨.make _ _, ⟨0, rfl⟩, ⟨0, rfl⟩, fun n hn => h n hn ▸ Nat.dvd_zero 8,
    by rw [List.sum_eq_zero h, Nat.zero_add], Nat.le_refl 0⟩

/-- A queue of one page that is empty is asked for 5008 bytes, and the call spins however
often it looks. -/
theorem blocking_call_spins : minsizes 65536 pageArg pageRing = [0, 5008] ∧
    pageRing.capacity = 4096 ∧
    (∀ order n,
      logImpl order 65536 ⟨false, false⟩ 7 pageArg pageRing (List.replicate n 0) = none) ∧
    ∀ order, ¬ AlwaysFits Nat Nat order 65536 .page pageArg := by
  have hask : minsizes 65536 pageArg pageRing = [0, 5008] := by decide +kernel
  have hr := pageRing_ready [] fun _ h => (nomatch h)
  refine ⟨hask, rfl, fun order n => ?_, fun order hfits => ?_⟩
  · exact logImpl_eq_none 7 rfl (by decide) (pageRing_ready _ fun _ h => List.eq_of_mem_replicate h)
      (by decide +kernel)
  · have hle := (hfits pageRing [] 0 0 0 0 rfl
      ⟨⟨8192, rfl⟩, Sizing.page_dvd, Sizing.page_lt, ⟨0, rfl⟩⟩ hr).1
      5008 (hask ▸ by decide)
    exact absurd hle (by decide)

end Xtr
