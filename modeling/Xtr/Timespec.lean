import Xtr.Calendar
import Xtr.Machine

/-!
# Timestamps

The formatter of `timespec.hpp`.  It keeps the text it wrote last in a `thread_local`
variable: the date is written again only when the second has changed, the microseconds
every time, from the end of the text backwards.

The formatter is a template: each thread has one such variable for every kind of format
context.  Dates are the formatting library's, which is taken for what it is documented to
do: `gmtime` throws when the year of a time is not an `int`.

What was formatted before does not show, whether or not it failed
(`timestamp_cache_invisible`).
-/
namespace Xtr.Formatter
open Calendar (zeroPadded zeroPadded_succ)

/-- `std::timespec`. -/
structure Timespec where
  tvSec : Int64
  tvNsec : Int64
  deriving DecidableEq

/-- What the formatter uses of the formatting library. -/
structure Fmt (Tm : Type) where
  /-- `gmtime`; `none` when it throws. -/
  gmtime : Int64 → Option Tm
  /-- What `{:%Y-%m-%d %T}` is replaced by. -/
  dateTime : Tm → List UInt8

/-- The characters of a literal. -/
def chars (s : String) : List UInt8 := s.toUTF8.toList

section Format
variable {Tm Out ε : Type}

/-- What a `format_to` with `{:%Y-%m-%d %T}.` writes. -/
def Fmt.text (fmt : Fmt Tm) (tm : Tm) : List UInt8 := fmt.dateTime tm ++ chars "."

/-- The size of `buf`. -/
def bufSize : Nat := 26

abbrev Buf := Vector UInt8 bufSize

/-- The `thread_local` variable `last`. -/
structure Last where
  sec : Int64
  buf : Buf

/-- `last` when the thread starts: `sec` has no initialiser, and is zeroed. -/
def Last.initial : Last where
  sec := 0
  buf := Vector.ofFn fun i => (chars "1970-01-01 00:00:00.").getD i 0

/-- How `format` may fail. -/
inductive Failure (ε : Type)
  /-- `gmtime` throws. -/
  | timeOutOfRange
  /-- A write outside of `buf`, which is undefined behaviour. -/
  | outOfBounds
  /-- The output iterator throws. -/
  | output (e : ε)
  deriving DecidableEq

/-- A write to `buf`. -/
def store (buf : Buf) (i : Nat) (b : UInt8) : Option Buf :=
  if h : i < bufSize then some (buf.set i b h) else none

/-- The writes of `format_to`, to `buf` from `i` on. -/
def formatTo (buf : Buf) (i : Nat) : List UInt8 → Option Buf
  | [] => some buf
  | b :: text => (store buf i b).bind fun buf => formatTo buf (i + 1) text

/-- `static_cast<char>('0' + value % 10)`. -/
def digit (value : Int64) : UInt8 := (0x30 + value % 10).toInt8.toUInt8

/-- The loop of `format_micros`, with `n` iterations to go. -/
def formatMicrosLoop : Nat → Buf → Nat → Int64 → Option Buf
  | 0, buf, _, _ => some buf
  | _ + 1, _, 0, _ => none
  | n + 1, buf, out + 1, value =>
    (store buf out (digit value)).bind fun buf => formatMicrosLoop n buf out (value / 10)

/-- `format_micros`, with the position of `out` in `buf`. -/
def formatMicros (buf : Buf) (out : Nat) (value : Int64) : Option Buf :=
  formatMicrosLoop 6 buf out value

/-- `std::copy` to an output iterator, which may throw. -/
def copy (put : Out → UInt8 → Except ε Out) (bytes : List UInt8) (out : Out) :
    Except (Failure ε) Out :=
  (bytes.foldlM put out).mapError Failure.output

/-- What runs with `last`; what was done to it before an exception stays done. -/
abbrev Formatting (ε α : Type) := ExceptT (Failure ε) (StateM Last) α

/-- Writes to `buf`. -/
def writeBuf (write : Buf → Option Buf) : Formatting ε Unit := do
  match write (← get).buf with
  | some buf => modify ({ · with buf })
  | none => throw .outOfBounds

/-- `format` up to the microseconds. -/
def formatDate (fmt : Fmt Tm) (ts : Timespec) : Formatting ε Unit := do
  if ts.tvSec ≠ (← get).sec then
    let tm ← (fmt.gmtime ts.tvSec).getDM (throw .timeOutOfRange)
    writeBuf fun buf => formatTo buf 0 (fmt.text tm)
    modify ({ · with sec := ts.tvSec })

/-- `formatter<xtr::timespec>::format`. -/
def format (fmt : Fmt Tm) (put : Out → UInt8 → Except ε Out) (ts : Timespec) (out : Out) :
    Formatting ε Out := do
  formatDate fmt ts
  writeBuf fun buf => formatMicros buf bufSize (ts.tvNsec / 1000)
  MonadExcept.ofExcept (copy put (← get).buf.toList out)

end Format

/-! ## What each part writes -/

section Writes
variable {buf : Buf} {value : Int64}

theorem store_spec (buf : Buf) {i : Nat} (h : i < bufSize) (b : UInt8) :
    ∃ buf', store buf i b = some buf' ∧ buf'.toList = buf.toList.set i b :=
  ⟨buf.set i b h, dif_pos h, Vector.toList_set h⟩

/-- `format_to` puts its text in place of as many characters. -/
theorem formatTo_spec (buf : Buf) {i : Nat} {text : List UInt8} (h : i + text.length ≤ bufSize) :
    ∃ buf', formatTo buf i text = some buf' ∧
      buf'.toList = buf.toList.take i ++ text ++ buf.toList.drop (i + text.length) := by
  induction text generalizing buf i with
  | nil => exact ⟨buf, rfl, by simp⟩
  | cons b text ih =>
    rw [List.length_cons] at h
    obtain ⟨buf₁, hstore, hset⟩ := store_spec buf (show i < bufSize by omega) b
    obtain ⟨buf₂, hrest, hlist⟩ := ih buf₁ (show i + 1 + text.length ≤ bufSize by omega)
    refine ⟨buf₂, ?_, ?_⟩
    · rw [formatTo, hstore]
      exact hrest
    · have hi : i < buf.toList.length := by
        rw [Vector.length_toList]
        omega
      have htake : (buf.toList.set i b).take (i + 1) = buf.toList.take i ++ [b] := by
        rw [List.take_add_one, List.take_set_of_le (Nat.le_refl i), List.getElem?_set_self hi]
        rfl
      rw [hlist, hset, htake, List.drop_set_of_lt (by omega), List.append_assoc,
        List.append_assoc, List.append_assoc, List.length_cons, Nat.add_assoc, Nat.add_comm 1]
      rfl

theorem digit_eq (h : 0 ≤ value.toInt) :
    digit value = UInt8.ofNat (48 + value.toInt.toNat % 10) := by
  have key : ∀ r : Fin 10, (0x30 + Int64.ofInt r).toInt8.toUInt8 = UInt8.ofNat (48 + r) := by
    decide +kernel
  have hmod : (value % 10).toInt = ((value.toInt.toNat % 10 : Nat) : Int) := by
    rw [Int64.toInt_mod, Int.tmod_eq_emod_of_nonneg h]
    show value.toInt % 10 = _
    omega
  have hval : value % 10 = Int64.ofInt ((value.toInt.toNat % 10 : Nat) : Int) := by
    rw [← hmod, Int64.ofInt_toInt]
  rw [digit, hval]
  exact key ⟨value.toInt.toNat % 10, Nat.mod_lt _ (by decide)⟩

theorem toInt_div_of_nonneg (h : 0 ≤ value.toInt) {d : Int64} (hd : d ≠ -1) :
    (value / d).toInt = value.toInt / d.toInt := by
  rw [Int64.toInt_div_of_ne_right _ _ hd, Int.tdiv_eq_ediv_of_nonneg h]

/-- `format_micros` puts the digits in front of `out`, and is not seen elsewhere. -/
theorem formatMicrosLoop_spec (n : Nat) (buf : Buf) {out : Nat} (hn : n ≤ out)
    (hout : out ≤ bufSize) (h0 : 0 ≤ value.toInt) (hlt : value.toInt < 10 ^ n) :
    ∃ buf', formatMicrosLoop n buf out value = some buf' ∧
      buf'.toList =
        buf.toList.take (out - n) ++ zeroPadded n value.toInt.toNat ++ buf.toList.drop out := by
  induction n generalizing buf out value with
  | zero =>
    obtain hzero : value.toInt = 0 := by omega
    refine ⟨buf, rfl, ?_⟩
    rw [hzero, Nat.sub_zero]
    show _ = buf.toList.take out ++ [] ++ buf.toList.drop out
    rw [List.append_nil, List.take_append_drop]
  | succ n ih =>
    obtain _ | out := out
    · omega
    obtain ⟨buf₁, hstore, hset⟩ := store_spec buf (show out < bufSize by omega) (digit value)
    have hdiv : (value / 10).toInt = value.toInt / 10 := toInt_div_of_nonneg h0 (by decide)
    have hlt' : (value / 10).toInt < 10 ^ n := by
      rw [hdiv]
      rw [Int.pow_succ] at hlt
      omega
    have hnat : (value / 10).toInt.toNat = value.toInt.toNat / 10 := by
      rw [hdiv]
      omega
    obtain ⟨buf₂, hrest, hlist⟩ := ih buf₁ (Nat.le_of_succ_le_succ hn) (Nat.le_of_succ_le hout)
      (show 0 ≤ (value / 10).toInt by omega) hlt'
    refine ⟨buf₂, ?_, ?_⟩
    · rw [formatMicrosLoop, hstore]
      exact hrest
    · have hi : out < buf.toList.length := by
        rw [Vector.length_toList]
        omega
      have hdrop : (buf.toList.set out (digit value)).drop out =
          digit value :: buf.toList.drop (out + 1) := by
        rw [List.drop_set, if_neg (Nat.lt_irrefl out), Nat.sub_self, List.drop_eq_getElem_cons hi]
        rfl
      rw [hlist, hset, List.take_set_of_le (Nat.sub_le out n), hdrop, Nat.add_sub_add_right,
        digit_eq h0, hnat, zeroPadded_succ]
      simp only [List.append_assoc, List.singleton_append]

end Writes

/-! ## The cache -/

section Cache
variable {Tm Key Out ε : Type} {fmt : Fmt Tm} {last : Last} {ts : Timespec}

/-- The date text of a second; `none` when `gmtime` throws. -/
def Fmt.dateText (fmt : Fmt Tm) (sec : Int64) : Option (List UInt8) :=
  (fmt.gmtime sec).map fmt.text

/-- The length of a date text whose year has four digits. -/
def dateSize : Nat := 20

/-- `last` holds the date of its second. -/
def Last.Valid (fmt : Fmt Tm) (last : Last) : Prop :=
  fmt.dateText last.sec = some (last.buf.toList.take dateSize)

/-- The formatting library's date of the epoch, which is what `buf` starts with. -/
def Fmt.Epoch (fmt : Fmt Tm) : Prop := fmt.dateText 0 = some (chars "1970-01-01 00:00:00.")

theorem valid_initial (h : fmt.Epoch) : Last.initial.Valid fmt := by
  have hbuf : Last.initial.buf.toList.take dateSize = chars "1970-01-01 00:00:00." := by
    decide +kernel
  show fmt.dateText 0 = some (Last.initial.buf.toList.take dateSize)
  rw [hbuf]
  exact h

/-- The arguments that the formatter is for: `gmtime` throws, or the date text has the size
that `buf` has room for, and the nanoseconds are less than a second. -/
def Timespec.InRange (fmt : Fmt Tm) (ts : Timespec) : Prop :=
  ∀ text ∈ fmt.dateText ts.tvSec,
    text.length = dateSize ∧ 0 ≤ ts.tvNsec.toInt ∧ ts.tvNsec.toInt < 10 ^ 9

/-- The timestamp: the date text and the microseconds with six digits. -/
def timestamp (fmt : Fmt Tm) (ts : Timespec) : Option (List UInt8) :=
  (fmt.dateText ts.tvSec).map (· ++ zeroPadded 6 (ts.tvNsec.toInt / 1000).toNat)

/-- The formatter without a cache. -/
def stateless (fmt : Fmt Tm) (put : Out → UInt8 → Except ε Out) (ts : Timespec) (out : Out) :
    Except (Failure ε) Out :=
  match timestamp fmt ts with
  | none => .error .timeOutOfRange
  | some text => copy put text out

theorem run_bind_ok {α β : Type} {x : Formatting ε α} {f : α → Formatting ε β} {a : α}
    {last' : Last}
    (h : x.run.run last = (.ok a, last')) : (x >>= f).run.run last = (f a).run.run last' := by
  rw [ExceptT.run_bind, StateT.run_bind, h]
  rfl

theorem run_bind_error {α β : Type} {x : Formatting ε α} {f : α → Formatting ε β} {e : Failure ε}
    {last' : Last} (h : x.run.run last = (.error e, last')) :
    (x >>= f).run.run last = (.error e, last') := by
  rw [ExceptT.run_bind, StateT.run_bind, h]
  rfl

theorem run_writeBuf {write : Buf → Option Buf} {buf : Buf} (h : write last.buf = some buf) :
    (writeBuf write : Formatting ε Unit).run.run last = (.ok (), { last with buf }) := by
  show (match write last.buf with
    | some buf => modify ({ · with buf })
    | none => throw .outOfBounds : Formatting ε Unit).run.run last = _
  rw [h]
  rfl

theorem formatDate_same (h : ts.tvSec = last.sec) :
    (formatDate fmt ts : Formatting ε Unit).run.run last = (.ok (), last) := by
  show (ite (ts.tvSec ≠ last.sec) _ _ : Formatting ε Unit).run.run last = _
  rw [if_neg (not_not.mpr h)]
  rfl

/-- When `gmtime` throws, `last` stays as it is. -/
theorem formatDate_throws (h : ts.tvSec ≠ last.sec) (hg : fmt.gmtime ts.tvSec = none) :
    (formatDate fmt ts : Formatting ε Unit).run.run last = (.error .timeOutOfRange, last) := by
  show (ite (ts.tvSec ≠ last.sec) _ _ : Formatting ε Unit).run.run last = _
  rw [if_pos h, hg]
  rfl

theorem formatDate_writes (h : ts.tvSec ≠ last.sec) {tm : Tm} (hg : fmt.gmtime ts.tvSec = some tm)
    {buf : Buf} (hbuf : formatTo last.buf 0 (fmt.text tm) = some buf) :
    (formatDate fmt ts : Formatting ε Unit).run.run last = (.ok (), { sec := ts.tvSec, buf }) := by
  show (ite (ts.tvSec ≠ last.sec) _ _ : Formatting ε Unit).run.run last = _
  rw [if_pos h, hg, Option.getDM_some, pure_bind, run_bind_ok (run_writeBuf hbuf)]
  rfl

/-- Before the microseconds, `gmtime` threw, or `last` is for the second to be formatted. -/
theorem formatDate_spec (hin : ts.InRange fmt) (hvalid : last.Valid fmt) :
    (fmt.dateText ts.tvSec = none ∧
        (formatDate fmt ts : Formatting ε Unit).run.run last = (.error .timeOutOfRange, last)) ∨
      ∃ last', (formatDate fmt ts : Formatting ε Unit).run.run last = (.ok (), last') ∧
        last'.sec = ts.tvSec ∧ last'.Valid fmt := by
  by_cases hsec : ts.tvSec = last.sec
  · exact .inr ⟨last, formatDate_same hsec, hsec.symm, hvalid⟩
  cases hg : fmt.gmtime ts.tvSec with
  | none => exact .inl ⟨by rw [Fmt.dateText, hg]; rfl, formatDate_throws hsec hg⟩
  | some tm =>
    have htext : fmt.dateText ts.tvSec = some (fmt.text tm) := by rw [Fmt.dateText, hg]; rfl
    have hlen : (fmt.text tm).length = dateSize := (hin _ htext).1
    obtain ⟨buf, hbuf, hlist⟩ := @formatTo_spec last.buf 0 (fmt.text tm) (by rw [hlen]; decide)
    refine .inr ⟨_, formatDate_writes hsec hg hbuf, rfl, ?_⟩
    -- the text is as long as the one it replaces, so nothing of that is left
    show fmt.dateText ts.tvSec = some (buf.toList.take dateSize)
    rw [htext, hlist, List.take_zero, List.nil_append, List.take_left' hlen]

/-- The microseconds take the place of those before them. -/
theorem formatMicros_spec {nsec : Int64} (h0 : 0 ≤ nsec.toInt) (hlt : nsec.toInt < 10 ^ 9)
    (buf : Buf) : ∃ buf', formatMicros buf bufSize (nsec / 1000) = some buf' ∧
      buf'.toList = buf.toList.take dateSize ++ zeroPadded 6 (nsec.toInt / 1000).toNat := by
  have hdiv : (nsec / 1000).toInt = nsec.toInt / 1000 := toInt_div_of_nonneg h0 (by decide)
  obtain ⟨buf', hmicros, hlist⟩ := formatMicrosLoop_spec 6 buf (show 6 ≤ bufSize by decide)
    (Nat.le_refl _) (show 0 ≤ (nsec / 1000).toInt by omega) (by omega)
  refine ⟨buf', hmicros, ?_⟩
  rw [hlist, hdiv, List.drop_of_length_le (by rw [Vector.length_toList]), List.append_nil]
  rfl

theorem format_ok {put : Out → UInt8 → Except ε Out} {out : Out} {last' : Last} {buf : Buf}
    (hdate : (formatDate fmt ts : Formatting ε Unit).run.run last = (.ok (), last'))
    (hmicros : formatMicros last'.buf bufSize (ts.tvNsec / 1000) = some buf) :
    (format fmt put ts out).run.run last = (copy put buf.toList out, { last' with buf }) := by
  rw [format, run_bind_ok hdate, run_bind_ok (run_writeBuf hmicros)]
  show (MonadExcept.ofExcept (copy put buf.toList out) : Formatting ε Out).run.run
    { last' with buf } = _
  cases copy put buf.toList out with
  | error e => rfl
  | ok out => rfl

/-- A call of `format`: under which key its `thread_local` variable is, and its arguments. -/
structure Call (Key Out ε : Type) where
  key : Key
  ts : Timespec
  put : Out → UInt8 → Except ε Out
  out : Out

theorem format_answers : Answers (fun c : Call Key Out ε => (format fmt c.put c.ts c.out).run)
    (fun c => stateless fmt c.put c.ts c.out) (fun c => c.ts.InRange fmt) (Last.Valid fmt) := by
  rintro ⟨key, ts, put, out⟩ last hin hvalid
  show (((format fmt put ts out).run).run last).1 = stateless fmt put ts out ∧
    Last.Valid fmt (((format fmt put ts out).run).run last).2
  rcases formatDate_spec (ε := ε) hin hvalid with ⟨hnone, hrun⟩ | ⟨last', hrun, hsec, hvalid'⟩
  · rw [format, run_bind_error hrun, stateless, timestamp, hnone]
    exact ⟨rfl, hvalid⟩
  · have htext : fmt.dateText ts.tvSec = some (last'.buf.toList.take dateSize) := hsec ▸ hvalid'
    obtain ⟨hlen, h0, hlt⟩ := hin _ htext
    obtain ⟨buf, hmicros, hlist⟩ := formatMicros_spec h0 hlt last'.buf
    rw [format_ok hrun hmicros, stateless, timestamp, htext]
    refine ⟨?_, ?_⟩
    · rw [hlist]
      rfl
    · show fmt.dateText last'.sec = some (buf.toList.take dateSize)
      rw [hvalid', hlist, List.take_left' hlen]

end Cache

/-! ## In UTC -/

/-- The formatting library as it is documented: `gmtime` throws when the year, counted from
1900, is not an `int`. -/
def utc : Fmt Calendar.Date where
  gmtime sec :=
    let date := Calendar.ofSeconds sec.toInt
    if -2 ^ 31 ≤ date.year - 1900 ∧ date.year - 1900 < 2 ^ 31 then some date else none
  dateTime := Calendar.Date.text

theorem utc_epoch : utc.Epoch := by
  unfold Fmt.Epoch
  decide +kernel

/-- All times of years with four digits are in range. -/
theorem inRange_utc {ts : Timespec} (h0 : -62162035200 ≤ ts.tvSec.toInt)
    (h1 : ts.tvSec.toInt < 253402300800) (hnsec0 : 0 ≤ ts.tvNsec.toInt)
    (hnsec1 : ts.tvNsec.toInt < 10 ^ 9) : ts.InRange utc := by
  intro text htext
  obtain ⟨date, hdate, rfl⟩ := Option.map_eq_some_iff.mp htext
  obtain ⟨-, hdate⟩ := Option.ite_none_right_eq_some.mp hdate
  obtain rfl := Option.some.inj hdate
  refine ⟨?_, hnsec0, hnsec1⟩
  have hdot : (chars ".").length = 1 := by decide +kernel
  rw [Fmt.text, List.length_append, hdot]
  show (Calendar.ofSeconds ts.tvSec.toInt).text.length + 1 = dateSize
  rw [Calendar.length_text_ofSeconds h0 h1]
  rfl

/-- The end of `tsc::to_timespec`, from `total_nanos` on. -/
def toTimespec (totalNanos : UInt64) : Timespec where
  tvSec := (totalNanos / 1000000000).toInt64
  tvNsec := (totalNanos % 1000000000).toInt64

theorem toInt_toInt64 {n : UInt64} (h : n.toNat < 2 ^ 63) : n.toInt64.toInt = n.toNat := by
  show n.toBitVec.toInt = n.toBitVec.toNat
  exact BitVec.toInt_eq_toNat_of_lt (by
    show 2 * n.toNat < 2 ^ 64
    omega)

/-- Whatever the counter is, its timestamp is in range. -/
theorem inRange_toTimespec (totalNanos : UInt64) : (toTimespec totalNanos).InRange utc := by
  have hlt := totalNanos.toNat_lt
  have hsec : (totalNanos / 1000000000).toNat = totalNanos.toNat / 1000000000 :=
    UInt64.toNat_div ..
  have hnsec : (totalNanos % 1000000000).toNat = totalNanos.toNat % 1000000000 :=
    UInt64.toNat_mod ..
  have hsec' : (toTimespec totalNanos).tvSec.toInt = (totalNanos / 1000000000).toNat :=
    toInt_toInt64 (by omega)
  have hnsec' : (toTimespec totalNanos).tvNsec.toInt = (totalNanos % 1000000000).toNat :=
    toInt_toInt64 (by omega)
  exact inRange_utc (by omega) (by omega) (by omega) (by omega)

/-! ## The cache is invisible -/

section Invisible
variable {Tm Key Out ε : Type} [DecidableEq Key]

/-- A call of `format` among those of all threads and all kinds of context. -/
def Call.format (fmt : Fmt Tm) (c : Call Key Out ε) :
    StateM (Key → Last) (Except (Failure ε) Out) :=
  onKey c.key (Formatter.format fmt c.put c.ts c.out).run

/-- **The cache is invisible.**  Whatever is formatted, in whatever order and whether or not
it fails, each call does what it would do without the cache: `gmtime` throws, or the date
text and the microseconds are copied to the output iterator. -/
theorem timestamp_cache_invisible (fmt : Fmt Tm) (hepoch : fmt.Epoch)
    (calls : List (Call Key Out ε)) (hin : ∀ c ∈ calls, c.ts.InRange fmt) :
    ((calls.mapM (Call.format fmt)).run fun _ => Last.initial).1 =
      calls.map fun c => stateless fmt c.put c.ts c.out :=
  ((format_answers.keyed Call.key).mapM hin fun _ => valid_initial hepoch).1

end Invisible

/-- An output iterator that appends to a string. -/
def append (out : List UInt8) (b : UInt8) : Except Unit (List UInt8) := .ok (out ++ [b])

/-- Timestamps of two contexts: seconds that repeat and alternate, one of them beyond what
`gmtime` takes, and an output that throws. -/
def someCalls : List (Call Bool (List UInt8) Unit) := [
  ⟨false, ⟨0, 0⟩, append, []⟩,
  ⟨false, ⟨946688523, 123456789⟩, append, []⟩,
  ⟨false, ⟨Int64.maxValue, 5000⟩, append, []⟩,
  ⟨true, ⟨4858113906, 123456000⟩, fun _ _ => .error (), []⟩,
  ⟨true, ⟨4858113906, 654321000⟩, append, []⟩,
  ⟨false, ⟨946688523, 999⟩, append, []⟩,
  ⟨false, ⟨0, 1000⟩, append, []⟩]

theorem timestamp_cache_invisible_failures :
    ((someCalls.mapM (Call.format utc)).run fun _ => Last.initial).1 = [
      .ok (chars "1970-01-01 00:00:00.000000"),
      .ok (chars "2000-01-01 01:02:03.123456"),
      .error .timeOutOfRange,
      .error (.output ()),
      .ok (chars "2123-12-13 04:05:06.654321"),
      .ok (chars "2000-01-01 01:02:03.000000"),
      .ok (chars "1970-01-01 00:00:00.000001")] := by
  have hin : ∀ c ∈ someCalls, c.ts.InRange utc := by
    unfold Timespec.InRange
    decide +kernel
  rw [timestamp_cache_invisible utc utc_epoch someCalls hin]
  decide +kernel

end Xtr.Formatter
