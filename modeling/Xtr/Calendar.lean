import Mathlib.Data.Nat.Digits.Lemmas

/-!
# The calendar

Times in seconds since 1970-01-01 00:00:00 UTC as dates of the Gregorian calendar, and
dates as text.  Years are counted from March, so that a leap day is the last day of its
year, and 400 of them always have the same number of days.
-/
namespace Calendar

/-! ## Decimal numbers -/

/-- The number in decimal, with zeros in front if it has fewer than `width` digits. -/
def zeroPadded (width n : Nat) : List UInt8 :=
  ((Nat.digits 10 n).reverse.leftpad width 0).map fun d => UInt8.ofNat (48 + d)

/-- The last digit comes off the end. -/
theorem zeroPadded_succ (width n : Nat) :
    zeroPadded (width + 1) n = zeroPadded width (n / 10) ++ [UInt8.ofNat (48 + n % 10)] := by
  have key : (Nat.digits 10 n).reverse.leftpad (width + 1) 0 =
      (Nat.digits 10 (n / 10)).reverse.leftpad width 0 ++ [n % 10] := by
    by_cases hn : n = 0
    · subst hn
      simp [List.leftpad, List.replicate_succ']
    · rw [Nat.digits_def' (by decide) (Nat.pos_of_ne_zero hn), List.reverse_cons]
      simp [List.leftpad]
  rw [zeroPadded, key, List.map_append]
  rfl

theorem length_zeroPadded {width n : Nat} (h : n < 10 ^ width) :
    (zeroPadded width n).length = width := by
  induction width generalizing n with
  | zero =>
    obtain rfl : n = 0 := by simpa using h
    rfl
  | succ width ih =>
    have hlt : n / 10 < 10 ^ width := by
      rw [Nat.pow_succ] at h
      omega
    rw [zeroPadded_succ, List.length_append, ih hlt]
    rfl

/-! ## Dates -/

/-- A date and a time of day. -/
structure Date where
  year : Int
  month : Nat
  day : Nat
  hour : Nat
  minute : Nat
  second : Nat
  deriving DecidableEq

/-- The days of 400 years. -/
def eraDays : Int := 146097

/-- The year, counted from March, of a day of an era. -/
def yearOfEra (doe : Int) : Int := (doe - doe / 1460 + doe / 36524 - doe / 146096) / 365

/-- The day of its year, counted from March, of a day of an era. -/
def dayOfYear (doe : Int) : Int :=
  doe - (365 * yearOfEra doe + yearOfEra doe / 4 - yearOfEra doe / 100)

/-- The date `sec` seconds after 1970-01-01 00:00:00, which is day 719468 of its count. -/
def ofSeconds (sec : Int) : Date :=
  let days := sec / 86400 + 719468
  let rest := (sec % 86400).toNat
  let doe := days % eraDays
  let month := (5 * dayOfYear doe + 2) / 153
  { year := yearOfEra doe + days / eraDays * 400 + if month < 10 then 0 else 1
    month := (if month < 10 then month + 3 else month - 9).toNat
    day := (dayOfYear doe - (153 * month + 2) / 5 + 1).toNat
    hour := rest / 3600
    minute := rest / 60 % 60
    second := rest % 60 }

/-- The year with at least four characters, one of them the sign of a negative one. -/
def yearText (year : Int) : List UInt8 :=
  if year < 0 then 0x2D :: zeroPadded 3 year.natAbs else zeroPadded 4 year.natAbs

/-- `%Y-%m-%d %T`. -/
def Date.text (d : Date) : List UInt8 :=
  yearText d.year ++ 0x2D :: zeroPadded 2 d.month ++ 0x2D :: zeroPadded 2 d.day ++
    0x20 :: zeroPadded 2 d.hour ++ 0x3A :: zeroPadded 2 d.minute ++ 0x3A :: zeroPadded 2 d.second

theorem yearOfEra_mem {doe : Int} (h0 : 0 ≤ doe) (h1 : doe < eraDays) :
    0 ≤ yearOfEra doe ∧ yearOfEra doe < 400 := by
  unfold eraDays at h1
  unfold yearOfEra
  constructor
  · omega
  · omega

theorem dayOfYear_le {doe : Int} (h0 : 0 ≤ doe) (h1 : doe < eraDays) : dayOfYear doe ≤ 370 := by
  unfold eraDays at h1
  unfold dayOfYear yearOfEra
  omega

theorem month_ofSeconds_lt (sec : Int) : (ofSeconds sec).month < 10 ^ 2 := by
  have h0 : 0 ≤ (sec / 86400 + 719468) % eraDays := Int.emod_nonneg _ (by decide)
  have h1 : (sec / 86400 + 719468) % eraDays < eraDays := Int.emod_lt_of_pos _ (by decide)
  have hdoy := dayOfYear_le h0 h1
  show (if (5 * dayOfYear _ + 2) / 153 < 10 then _ else _ : Int).toNat < 100
  split <;> omega

theorem day_ofSeconds_lt (sec : Int) : (ofSeconds sec).day < 10 ^ 2 := by
  show (dayOfYear _ - (153 * ((5 * dayOfYear _ + 2) / 153) + 2) / 5 + 1).toNat < 100
  omega

theorem hour_ofSeconds_lt (sec : Int) : (ofSeconds sec).hour < 10 ^ 2 := by
  show (sec % 86400).toNat / 3600 < 100
  omega

theorem minute_ofSeconds_lt (sec : Int) : (ofSeconds sec).minute < 10 ^ 2 := by
  show (sec % 86400).toNat / 60 % 60 < 100
  omega

theorem second_ofSeconds_lt (sec : Int) : (ofSeconds sec).second < 10 ^ 2 := by
  show (sec % 86400).toNat % 60 < 100
  omega

theorem year_ofSeconds_mem {sec : Int} (h0 : -62162035200 ≤ sec) (h1 : sec < 253402300800) :
    0 ≤ (ofSeconds sec).year ∧ (ofSeconds sec).year < 10000 := by
  have hsplit := Int.mul_ediv_add_emod (sec / 86400 + 719468) eraDays
  have hmod0 : 0 ≤ (sec / 86400 + 719468) % eraDays := Int.emod_nonneg _ (by decide)
  have hmod1 : (sec / 86400 + 719468) % eraDays < eraDays := Int.emod_lt_of_pos _ (by decide)
  obtain ⟨hyear0, hyear1⟩ := yearOfEra_mem hmod0 hmod1
  show 0 ≤ yearOfEra ((sec / 86400 + 719468) % eraDays) +
        (sec / 86400 + 719468) / eraDays * 400 + (if _ < _ then 0 else 1) ∧
      yearOfEra ((sec / 86400 + 719468) % eraDays) +
        (sec / 86400 + 719468) / eraDays * 400 + (if _ < _ then 0 else 1) < 10000
  generalize hdoe : (sec / 86400 + 719468) % eraDays = doe at *
  generalize hera : (sec / 86400 + 719468) / eraDays = era at *
  unfold eraDays at hsplit hmod1
  split
  · omega
  · -- in January or February, the year counted from March is the one before
    rename_i hmonth
    by_cases hlast : yearOfEra doe = 399
    · have hdoy : dayOfYear doe = doe - 145731 := by
        rw [dayOfYear, hlast]
        rfl
      omega
    · omega

/-- The year has four digits from 0000-03-01 to the end of 9999. -/
theorem length_text_ofSeconds {sec : Int} (h0 : -62162035200 ≤ sec) (h1 : sec < 253402300800) :
    (ofSeconds sec).text.length = 19 := by
  obtain ⟨hy0, hy1⟩ := year_ofSeconds_mem h0 h1
  have hyear : (yearText (ofSeconds sec).year).length = 4 := by
    rw [yearText, if_neg (Int.not_lt.mpr hy0), length_zeroPadded]
    show _ < 10000
    omega
  simp only [Date.text, List.length_append, List.length_cons, hyear,
    length_zeroPadded (month_ofSeconds_lt sec), length_zeroPadded (day_ofSeconds_lt sec),
    length_zeroPadded (hour_ofSeconds_lt sec), length_zeroPadded (minute_ofSeconds_lt sec),
    length_zeroPadded (second_ofSeconds_lt sec)]

/-- A leap day, and the last second of the last year with four digits. -/
example : (ofSeconds 951782400).text = "2000-02-29 00:00:00".toUTF8.toList := by decide +kernel
example : (ofSeconds 253402300799).text = "9999-12-31 23:59:59".toUTF8.toList := by decide +kernel

end Calendar
