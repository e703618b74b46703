import Xtr.PostCorrect

/-!
# Log message sanitizing

`detail/sanitize.hpp`, the formatters of `detail/string_ref.hpp`, and `print`.
A string argument reaches the formatter as a `string_ref`, whose formatter
escapes every byte that is not printable and the backslash itself.  The one
exception is a `std::string` passed as an r-value: `transform_args` moves it into
the closure, `reconstruct_args` hands it over as it is, and the formatting
library prints it byte for byte.

So what an argument that is printed contributes to the line is escaped exactly when it
is not such a string, or is one whose bytes were harmless to begin with
(`string_arguments_escaped_iff`).
-/
namespace Xtr
variable {V C : Type}

/-! ## Escaping -/

/-- The digits of `sanitize_char_to`. -/
def hexDigit (n : Nat) : UInt8 := "0123456789ABCDEF".toUTF8.toList.getD n 0

/-- `sanitize_char_to`.  `char` is signed: a byte with the high bit set is
negative, and `c >> 4` keeps its sign. -/
def sanitizeCharTo (b : UInt8) : List UInt8 :=
  let c := b.toInt8
  if 0x20 ≤ c ∧ c ≤ 0x7E ∧ c ≠ 0x5C then [b]
  else [0x5C, 0x78, hexDigit ((c >>> 4) &&& 0xF).toNatClampNeg, hexDigit (c &&& 0xF).toNatClampNeg]

/-- The formatter of `string_ref<std::string_view>`. -/
def sanitize (bytes : List UInt8) : List UInt8 := bytes.flatMap sanitizeCharTo

/-- The formatter of `string_ref<const char*>`, which stops at the terminator. -/
def sanitizeCString (mem : List UInt8) : List UInt8 := sanitize (cStr mem)

def isPrintable (b : UInt8) : Bool := 0x20 ≤ b && b ≤ 0x7E

def isHexDigit (b : UInt8) : Bool := (0x30 ≤ b && b ≤ 0x39) || (0x41 ≤ b && b ≤ 0x46)

/-- Every byte is printable ASCII, and a backslash only starts a `\xHH` escape. -/
def escaped : List UInt8 → Bool
  | [] => true
  | b :: rest =>
    if b = 0x5C then
      match rest with
      | x :: h :: l :: rest => x = 0x78 && isHexDigit h && isHexDigit l && escaped rest
      | _ => false
    else isPrintable b && escaped rest

/-- A statement about bytes that holds of the 256 of them. -/
theorem forall_byte {P : UInt8 → Prop} (h : ∀ n : Fin 256, P (UInt8.ofNat n)) (b : UInt8) :
    P b := by
  have := h ⟨b.toNat, b.toNat_lt⟩
  rwa [show UInt8.ofNat b.toNat = b from UInt8.ofNat_toNat] at this

theorem sanitizeCharTo_cases (b : UInt8) :
    (sanitizeCharTo b = [b] ∧ b ≠ 0x5C ∧ isPrintable b = true) ∨
      sanitizeCharTo b = [0x5C, 0x78, hexDigit (b.toNat / 16), hexDigit (b.toNat % 16)] := by
  revert b
  exact forall_byte (by decide +kernel)

theorem isHexDigit_hexDigit {n : Nat} (h : n < 16) : isHexDigit (hexDigit n) = true := by
  have key : ∀ n : Fin 16, isHexDigit (hexDigit n) = true := by decide +kernel
  exact key ⟨n, h⟩

/-- Escaping one byte puts one escaped unit in front of what follows. -/
theorem escaped_sanitizeCharTo (b : UInt8) (rest : List UInt8) :
    escaped (sanitizeCharTo b ++ rest) = escaped rest := by
  rcases sanitizeCharTo_cases b with ⟨hs, hne, hp⟩ | hs
  · rw [hs, List.singleton_append, escaped.eq_def]
    simp only [if_neg hne, hp, Bool.true_and]
  · have hh : isHexDigit (hexDigit (b.toNat / 16)) = true :=
      isHexDigit_hexDigit (by have := b.toNat_lt; omega)
    have hl : isHexDigit (hexDigit (b.toNat % 16)) = true :=
      isHexDigit_hexDigit (Nat.mod_lt _ (by decide))
    rw [hs, escaped.eq_def]
    simp [hh, hl]

theorem escaped_sanitize (bytes : List UInt8) : escaped (sanitize bytes) = true := by
  induction bytes with
  | nil => rfl
  | cons b bytes ih =>
    rw [sanitize, List.flatMap_cons, escaped_sanitizeCharTo]
    exact ih

theorem isPrintable_of_isHexDigit (b : UInt8) (h : isHexDigit b = true) : isPrintable b = true := by
  revert b
  exact forall_byte (by decide +kernel)

/-- Escaped text is printable. -/
theorem isPrintable_of_escaped {bytes : List UInt8} (h : escaped bytes = true) :
    ∀ b ∈ bytes, isPrintable b = true := by
  fun_induction escaped bytes with
  | case1 => simp
  | case2 x d l rest ih =>
    simp only [Bool.and_eq_true, decide_eq_true_eq] at h
    obtain ⟨⟨⟨rfl, hd⟩, hl⟩, hrest⟩ := h
    intro c hc
    simp only [List.mem_cons] at hc
    rcases hc with rfl | rfl | rfl | rfl | hc
    exacts [rfl, rfl, isPrintable_of_isHexDigit _ hd, isPrintable_of_isHexDigit _ hl, ih hrest c hc]
  | case3 => cases h
  | case4 b rest hb ih =>
    simp only [Bool.and_eq_true] at h
    intro c hc
    rcases List.mem_cons.mp hc with rfl | hc
    exacts [h.1, ih h.2 c hc]

/-! ## Reading it back -/

/-- The value of a digit of `sanitize_char_to`. -/
def hexValue (b : UInt8) : UInt8 := if b ≤ 0x39 then b - 0x30 else b - 0x37

/-- A reader of the log: `\xHH` stands for the byte with these digits, and every other
character for itself. -/
def unsanitize : List UInt8 → List UInt8
  | b :: x :: h :: l :: rest =>
    if b = 0x5C && x = 0x78 && isHexDigit h && isHexDigit l then
      (16 * hexValue h + hexValue l) :: unsanitize rest
    else b :: unsanitize (x :: h :: l :: rest)
  | b :: rest => b :: unsanitize rest
  | [] => []

/-- The loop of the formatter of `string_ref<const char*>`, over the memory from `str` on. -/
def formatCString : List UInt8 → List UInt8
  | [] => []
  | c :: mem => if c ≠ 0 then sanitizeCharTo c ++ formatCString mem else []

theorem formatCString_eq (mem : List UInt8) : formatCString mem = sanitizeCString mem := by
  induction mem with
  | nil => rfl
  | cons c mem ih =>
    rw [formatCString, ih, sanitizeCString, sanitizeCString, cStr, cStr, List.takeWhile_cons]
    by_cases hc : c = 0
    · simp [hc, sanitize]
    · simp [hc, sanitize]

/-- The two digits of a byte, read as they were written: the sign of `c >> 4` is masked out. -/
theorem hexValue_hexDigit (b : UInt8) :
    16 * hexValue (hexDigit (b.toNat / 16)) + hexValue (hexDigit (b.toNat % 16)) = b := by
  revert b
  exact forall_byte (by decide +kernel)

theorem unsanitize_cons_of_ne {b : UInt8} (h : b ≠ 0x5C) (rest : List UInt8) :
    unsanitize (b :: rest) = b :: unsanitize rest := by
  rw [unsanitize.eq_def]
  split
  · rename_i heq
    cases heq
    simp only [h, decide_false, Bool.false_and, Bool.false_eq_true, if_false]
  · rename_i heq
    cases heq
    rfl
  · rename_i heq
    cases heq

/-- **One byte is read back**, whatever stands behind it. -/
theorem unsanitize_sanitizeCharTo (b : UInt8) (rest : List UInt8) :
    unsanitize (sanitizeCharTo b ++ rest) = b :: unsanitize rest := by
  rcases sanitizeCharTo_cases b with ⟨hs, hne, -⟩ | hs
  · rw [hs, List.singleton_append, unsanitize_cons_of_ne hne]
  · have hh : isHexDigit (hexDigit (b.toNat / 16)) = true :=
      isHexDigit_hexDigit (by have := b.toNat_lt; omega)
    have hl : isHexDigit (hexDigit (b.toNat % 16)) = true :=
      isHexDigit_hexDigit (Nat.mod_lt _ (by decide))
    rw [hs]
    simp only [List.cons_append, List.nil_append, unsanitize, hh, hl, decide_true, Bool.and_self,
      if_true, hexValue_hexDigit]

theorem unsanitize_sanitize (bytes : List UInt8) : unsanitize (sanitize bytes) = bytes := by
  induction bytes with
  | nil => rfl
  | cons b bytes ih =>
    rw [sanitize, List.flatMap_cons, unsanitize_sanitizeCharTo]
    exact congrArg (b :: ·) ih

/-- **Sanitizing loses nothing.**  What is printed is printable ASCII, and can be read back,
so that different strings print differently; a string without a zero prints the same through
a pointer to its characters. -/
theorem sanitize_loses_nothing (bytes : List UInt8) :
    (∀ b ∈ sanitize bytes, isPrintable b = true) ∧ unsanitize (sanitize bytes) = bytes ∧
      (∀ bytes', sanitize bytes' = sanitize bytes → bytes' = bytes) ∧
      (0 ∉ bytes → ∀ rest, formatCString (bytes ++ 0 :: rest) = sanitize bytes) := by
  refine ⟨isPrintable_of_escaped (escaped_sanitize bytes), unsanitize_sanitize bytes, ?_, ?_⟩
  · intro bytes' heq
    rw [← unsanitize_sanitize bytes', heq, unsanitize_sanitize]
  · intro h rest
    rw [formatCString_eq, sanitizeCString, cStr_append_of_not_mem h]

/-- The string `\x41`, and a byte with the high bit set. -/
theorem sanitize_loses_nothing_escapes :
    unsanitize (sanitize [0x5C, 0x78, 0x34, 0x31, 0xE9]) = [0x5C, 0x78, 0x34, 0x31, 0xE9] ∧
      formatCString [0x5C, 0x78, 0x34, 0x31, 0xE9, 0, 0x41] =
        sanitize [0x5C, 0x78, 0x34, 0x31, 0xE9] := by
  obtain ⟨-, hback, -, hptr⟩ := sanitize_loses_nothing [0x5C, 0x78, 0x34, 0x31, 0xE9]
  exact ⟨hback, hptr (by decide) [0x41]⟩

/-! ## The line -/

/-- A compiled format string: literal text, and replacement fields by number. -/
inductive Piece
  | literal (bytes : List UInt8)
  | field (k : Nat)
  deriving DecidableEq

/-- The static part of a log statement.  `timestamp` is set by the macros that take
the timestamp as their first argument. -/
structure Statement where
  pieces : List Piece
  timestamp : Bool
  deriving DecidableEq

/-- What an argument contributes to the line.  `value` and `object` are the
formatting library's output for the captured values and the copied objects; a
`std::string` it prints as it is. -/
def contribution (value : V → List UInt8) (object : Layout → List UInt8 → List UInt8) :
    Reconstructed V → List UInt8
  | .value v => value v
  | .ownedString bytes => bytes
  | .refCString mem => sanitizeCString mem
  | .stringRef bytes => sanitize bytes
  | .copied type bytes => object type bytes

/-- `format_to` with the given replacement fields. -/
def formatTo (pieces : List Piece) (fields : List (List UInt8)) : List UInt8 :=
  pieces.flatMap fun
    | .literal bytes => bytes
    | .field k => fields.getD k []

/-- `print` and `print_ts`: the level, the timestamp and the sink's name come
before the arguments, and `print_ts` takes the first argument for the timestamp. -/
def print (value : V → List UInt8) (object : Layout → List UInt8 → List UInt8) (st : Statement)
    (level ts name : List UInt8) (args : List (Reconstructed V)) : List UInt8 :=
  let args := args.map (contribution value object)
  if st.timestamp then formatTo st.pieces (level :: args.headD [] :: name :: args.tail)
  else formatTo st.pieces (level :: ts :: name :: args)

/-- The replacement field that argument `k` is for. -/
def Statement.fieldOf (st : Statement) (k : Nat) : Nat :=
  if st.timestamp then (if k = 0 then 1 else k + 2) else k + 3

/-- The format string has that field: not every argument has to be printed. -/
def Statement.prints (st : Statement) (k : Nat) : Bool := st.pieces.contains (.field (st.fieldOf k))

/-- The text of a format string. -/
def literals (pieces : List Piece) : List UInt8 :=
  pieces.flatMap fun
    | .literal bytes => bytes
    | .field _ => []

/-- Fields without a byte add none to the line. -/
theorem count_formatTo {b : UInt8} {pieces : List Piece} {fields : List (List UInt8)}
    (h : ∀ k, .field k ∈ pieces → b ∉ fields.getD k []) :
    (formatTo pieces fields).count b = (literals pieces).count b := by
  induction pieces with
  | nil => rfl
  | cons p pieces ih =>
    have ih : (List.flatMap _ pieces).count b = (List.flatMap _ pieces).count b :=
      ih fun k hk => h k (List.mem_cons_of_mem _ hk)
    rw [formatTo, List.flatMap_cons, List.count_append, literals, List.flatMap_cons,
      List.count_append, ih]
    cases p with
    | literal bytes => rfl
    | field k =>
      show List.count b (fields.getD k []) + _ = List.count b [] + _
      rw [List.count_eq_zero.mpr (h k List.mem_cons_self), List.count_nil]

/-! ## Arguments -/

/-- The string arguments: character pointers and arrays, string views, strings by
l-value and by r-value, and `nocopy` of these. -/
def Arg.isString : Arg V → Bool
  | .value .. | .vcopy .. => false
  | _ => true

variable {value : V → List UInt8} {object : Layout → List UInt8 → List UInt8}

/-- **When one argument's contribution is escaped.** -/
theorem escaped_contribution_iff {arg : Arg V} {i : Item V} (hs : arg.isString = true)
    (h : arg.Recorded i) :
    escaped (contribution value object i.reconstructed) = true ↔
      ∀ bytes, arg = .stringRvalue bytes → escaped bytes = true := by
  cases arg with
  | value type v => cases hs
  | vcopy type bytes hle => cases hs
  | stringRvalue bytes =>
    cases h
    constructor
    · intro he bytes' heq
      cases heq
      exact he
    · intro he
      exact he bytes rfl
  | cString mem | stringView bytes | string bytes =>
    rcases h with rfl | rfl <;>
      exact iff_of_true (escaped_sanitize _) (fun _ heq => nomatch heq)
  | _ =>
    cases h
    exact iff_of_true (escaped_sanitize _) (fun _ heq => nomatch heq)

/-- An escaped contribution has no newline. -/
theorem newline_not_mem_of_escaped {bytes : List UInt8} (h : escaped bytes = true) :
    (10 : UInt8) ∉ bytes :=
  fun hmem => absurd (isPrintable_of_escaped h 10 hmem) (by decide)

/-- The contributions of the string arguments that are printed, all together. -/
theorem escaped_contributions_iff {args : List (Arg V)} {is : List (Item V)}
    (h : List.Forall₂ Arg.Recorded args is) (printed : Nat → Bool) :
    (∀ k arg r, args[k]? = some arg → (is.map Item.reconstructed)[k]? = some r →
        printed k = true → arg.isString = true →
        escaped (contribution value object r) = true) ↔
      ∀ k bytes, args[k]? = some (.stringRvalue bytes) → printed k = true →
        escaped bytes = true := by
  have hrec : ∀ (k : Nat) (arg : Arg V) (i : Item V), args[k]? = some arg → is[k]? = some i →
      arg.Recorded i := by
    intro k arg i harg hi
    obtain ⟨hk, rfl⟩ := List.getElem?_eq_some_iff.mp harg
    obtain ⟨hk', rfl⟩ := List.getElem?_eq_some_iff.mp hi
    exact (List.forall₂_iff_get.mp h).2 k hk hk'
  constructor
  · intro hall k bytes harg hp
    have hk := (List.getElem?_eq_some_iff.mp harg).1
    rw [h.length_eq] at hk
    obtain ⟨i, hi⟩ : ∃ i, is[k]? = some i := ⟨_, List.getElem?_eq_getElem hk⟩
    have he := hall k _ i.reconstructed harg (by rw [List.getElem?_map, hi]; rfl) hp rfl
    exact (escaped_contribution_iff rfl (hrec k _ i harg hi)).mp he bytes rfl
  · intro hall k arg r harg hr hp hs
    rw [List.getElem?_map] at hr
    obtain ⟨i, hi, rfl⟩ := Option.map_eq_some_iff.mp hr
    refine (escaped_contribution_iff hs (hrec k arg i harg hi)).mpr fun bytes heq => ?_
    exact hall k bytes (heq ▸ harg) hp

/-- The fields of the line are those of the arguments and the three in front. -/
theorem count_print {b : UInt8} {st : Statement} {level ts name : List UInt8}
    {args : List (Reconstructed V)} (hlevel : b ∉ level) (hts : b ∉ ts) (hname : b ∉ name)
    (hargs : ∀ k r, args[k]? = some r → st.prints k = true → b ∉ contribution value object r) :
    (print value object st level ts name args).count b = (literals st.pieces).count b := by
  -- what stands in the field of an argument, if there is one
  have hfield : ∀ k, .field (st.fieldOf k) ∈ st.pieces →
      b ∉ (args.map (contribution value object)).getD k [] := by
    intro k hk
    rw [List.getD_eq_getElem?_getD, List.getElem?_map]
    cases hr : args[k]? with
    | none => exact List.not_mem_nil
    | some r => exact hargs k r hr (List.contains_iff_mem.mpr hk)
  unfold print
  generalize args.map (contribution value object) = fields at hfield
  dsimp only
  by_cases hstamp : st.timestamp = true
  · rw [if_pos hstamp]
    simp only [Statement.fieldOf, hstamp, if_true] at hfield
    refine count_formatTo fun k hk => ?_
    match k, hk with
    | 0, _ => exact hlevel
    | 1, hk =>
      have hhead := hfield 0 hk
      cases fields with
      | nil => exact List.not_mem_nil
      | cons t fields => exact hhead
    | 2, _ => exact hname
    | k + 3, hk =>
      have hrest := hfield (k + 1) hk
      cases fields with
      | nil => exact List.not_mem_nil
      | cons t fields => exact hrest
  · rw [if_neg hstamp]
    simp only [Statement.fieldOf, hstamp, Bool.false_eq_true, if_false] at hfield
    refine count_formatTo fun k hk => ?_
    match k, hk with
    | 0, _ => exact hlevel
    | 1, _ => exact hts
    | 2, _ => exact hname
    | k + 3, hk => exact hfield k hk

variable [DecidableEq V] [DecidableEq C]

/-- **When string arguments are escaped.**  The statement's record is committed, the
consumer calls the trampoline where it starts, and the share of the line of every string
argument that is printed is printable, with backslashes only in escapes, if and only if
that is so of the bytes of each `std::string` that was passed as an r-value and is
printed.  Then the line has the newlines of its format string and no more. -/
theorem string_arguments_escaped_iff {order : Arrangement} {base W T R S n : Nat} {tags : Tags}
    {st : Statement} {args : List (Arg V)} {rb rb' : RingBuffer (Cell Statement V C)}
    {loads loads' : List Nat} (g : Grid base W rb) (hr : Ready rb loads W T R S)
    (h : logImpl order base tags st args rb loads = some (.committed n, rb', loads')) :
    ∃ rs, trampoline order (rb'.readAt base) (base + W % rb.capacity) =
        some (.print st rs, base + W % rb.capacity + n) ∧ rs.length = args.length ∧
      ((∀ k arg r, args[k]? = some arg → rs[k]? = some r → st.prints k = true →
          arg.isString = true → escaped (contribution value object r) = true) ↔
        ∀ k bytes, args[k]? = some (.stringRvalue bytes) → st.prints k = true →
          escaped bytes = true) ∧
      ((∀ k bytes, args[k]? = some (.stringRvalue bytes) → st.prints k = true →
          escaped bytes = true) →
        ∀ level ts name : List UInt8, 10 ∉ level → 10 ∉ ts → 10 ∉ name →
          (∀ k arg r, args[k]? = some arg → rs[k]? = some r → st.prints k = true →
            arg.isString = false → 10 ∉ contribution value object r) →
          (print value object st level ts name rs).count 10 = (literals st.pieces).count 10) := by
  obtain ⟨r, is, hall, -, hinv, hcom⟩ := logImpl_commits g hr h
  have hlen : (is.map Item.reconstructed).length = args.length := by
    rw [List.length_map, hall.length_eq]
  have hiff := @escaped_contributions_iff V value object args is hall st.prints
  refine ⟨is.map Item.reconstructed, hinv ▸ hcom.trampoline, hlen, hiff, ?_⟩
  intro hraw level ts name hlevel hts hname hother
  refine count_print hlevel hts hname fun k r hr hp => ?_
  have hk := (List.getElem?_eq_some_iff.mp hr).1
  rw [hlen] at hk
  obtain ⟨arg, harg⟩ : ∃ arg, args[k]? = some arg := ⟨_, List.getElem?_eq_getElem hk⟩
  cases hs : arg.isString with
  | true => exact newline_not_mem_of_escaped (hiff.mpr hraw k arg r harg hr hp hs)
  | false => exact hother k arg r harg hr hp hs

/-- `XTR_LOG(s, "{}", ...)`, without the file name and the line number. -/
def lineStatement : Statement :=
  ⟨[.field 0, .field 1, .literal [32], .field 2, .literal [58, 32], .field 3, .literal [10]], false⟩

/-- The queue of a sink that logs such statements. -/
def statementRing : RingBuffer (Cell Statement Nat Nat) :=
  .make .page fun _ => .byte 0

theorem statementRing_ready : Grid 65536 0 statementRing ∧ Ready statementRing [] 0 0 0 0 :=
  ⟨⟨⟨8192, rfl⟩, Sizing.page_dvd, Sizing.page_lt, ⟨0, rfl⟩⟩,
    .make _ _, ⟨0, rfl⟩, ⟨0, rfl⟩, fun _ h => (nomatch h), rfl, Nat.le_refl 0⟩

/-- The same newline, passed as an l-value: it comes out as `\x0A`. -/
theorem string_arguments_escaped_lvalue :
    ∃ n rb' loads', logImpl .backwards 65536 ⟨false, false⟩ lineStatement [.string [10]]
        statementRing [] = some (.committed n, rb', loads') ∧
      ∃ rs, trampoline .backwards (rb'.readAt 65536) 65536 =
        some (.print lineStatement rs, 65536 + n) ∧
        (print (fun _ : Nat => []) (fun _ _ => []) lineStatement [] [] [] rs).count 10 = 1 := by
  obtain ⟨g, hr⟩ := statementRing_ready
  have hrun : (logImpl .backwards 65536 ⟨false, false⟩ lineStatement [.string [10]]
      statementRing []).map Prod.fst = some (.committed 16) := by decide +kernel
  obtain ⟨⟨o, rb', loads'⟩, hcall, rfl⟩ := Option.map_eq_some_iff.mp hrun
  obtain ⟨rs, htramp, hlen, -, hline⟩ := @string_arguments_escaped_iff Nat Nat (fun _ => [])
    (fun _ _ => []) _ _ _ _ _ _ _ _ _ _ _ _ _ _ _ _ g hr hcall
  refine ⟨16, rb', loads', hcall, rs, htramp, ?_⟩
  refine hline (fun k bytes hk => ?_) [] [] [] (by simp) (by simp) (by simp)
    fun k arg r hk _ _ hs => ?_
  · cases List.mem_singleton.mp (List.mem_of_getElem? hk)
  · rw [List.mem_singleton.mp (List.mem_of_getElem? hk)] at hs
    cases hs

/-- `XTR_LOG(s, "{}", std::string("\n"))`: the newline goes through, and the line
becomes two. -/
theorem string_rvalue_forges_line :
    ∃ n rb' loads' rs, logImpl .backwards 65536 ⟨false, false⟩ lineStatement [.stringRvalue [10]]
        statementRing [] = some (.committed n, rb', loads') ∧
      trampoline .backwards (rb'.readAt 65536) 65536 = some (.print lineStatement rs, 65536 + n) ∧
      ¬ (∀ k arg r, [(Arg.stringRvalue [10] : Arg Nat)][k]? = some arg → rs[k]? = some r →
        lineStatement.prints k = true → arg.isString = true →
        escaped (contribution (fun _ : Nat => []) (fun _ _ => []) r) = true) ∧
      (print (fun _ : Nat => []) (fun _ _ => []) lineStatement [] [] [] rs).count 10 = 2 := by
  have hrun : ((logImpl .backwards 65536 ⟨false, false⟩ lineStatement [.stringRvalue [10]]
      statementRing []).bind fun x =>
        (trampoline .backwards (x.2.1.readAt 65536) 65536).map fun y => (x.1, y)) =
        some (.committed 40, .print lineStatement [.ownedString [10]], 65536 + 40) := by
    decide +kernel
  obtain ⟨⟨o, rb', loads'⟩, hcall, hrest⟩ := Option.bind_eq_some_iff.mp hrun
  obtain ⟨y, htramp, heq⟩ := Option.map_eq_some_iff.mp hrest
  cases heq
  exact ⟨40, rb', loads', [.ownedString [10]], hcall, htramp,
    fun hall => absurd (hall 0 _ _ rfl rfl rfl rfl) (by decide), by decide⟩

end Xtr
