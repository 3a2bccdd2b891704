import Gofusion.Lib.Calendar
import Gofusion.Lib.Format

/-!
# Times as texts

Times in the format `2006-01-02T15:04:05.999999999Z07:00`, as the `time` package of Go writes
and reads them.  An instant is the number of nanoseconds since 1970, and an offset is a number
of seconds.

A year has at least four digits when it is written, and exactly four when it is read.  Newer
versions of Go check that the hours of an offset are not above 24, here `checked`.

Go also reads an hour of one digit and a comma before the fraction, which it does not write.
They are left out.
-/

namespace Gofusion.Lib.Rfc3339

open Calendar Format

/-- A number, filled up with zeros. -/
def pad (width k : Nat) : List Char := padInt true width k

def unixDays : Int := 719162

/-! ## Writing -/

def appendInt (n : Int) (width : Nat) : List Char :=
  (if n < 0 then ['-'] else []) ++ pad width n.natAbs

/-- The fraction of a second, without the zeros at its end. -/
def fraction (nanos : Nat) : List Char :=
  if nanos = 0 then []
  else '.' :: ((pad 9 nanos).reverse.dropWhile (· = '0')).reverse

def zone (offset : Int) : List Char :=
  if offset = 0 then ['Z']
  else
    let minutes := offset.tdiv 60
    (if minutes < 0 then '-' else '+') ::
      (pad 2 (minutes.natAbs / 60) ++ ':' :: pad 2 (minutes.natAbs % 60))

/-- The seconds since 1970 on a clock with this offset. -/
def localSeconds (instant offset : Int) : Int := instant / 1000000000 + offset

def localDate (instant offset : Int) : Date :=
  dateOfDays (localSeconds instant offset / 86400 + unixDays)

/-- `Format(time.RFC3339Nano)`. -/
def format (instant offset : Int) : List Char :=
  let date := localDate instant offset
  let time := (localSeconds instant offset % 86400).toNat
  appendInt date.year 4 ++ '-' :: (pad 2 date.month ++ '-' :: (pad 2 date.day ++ 'T' ::
    (pad 2 (time / 3600) ++ ':' :: (pad 2 (time / 60 % 60) ++ ':' ::
      (pad 2 (time % 60) ++
        (fraction (instant % 1000000000).toNat ++ zone offset))))))

/-! ## Reading -/

/-- So many digits at the beginning of a text. -/
def number (width : Nat) (s : List Char) : Option (Nat × List Char) :=
  if (s.take width).length = width ∧ (s.take width).all digit then
    some (Nat.ofDigitChars 10 (s.take width) 0, s.drop width)
  else none

/-- So many digits with a character behind them. -/
def field (width : Nat) (c : Char) (s : List Char) : Option (Nat × List Char) :=
  match number width s with
  | some (n, c' :: rest) => if c' = c then some (n, rest) else none
  | _ => none

/-- The fraction of a second in nanoseconds, and what is behind it. -/
def parseFraction : List Char → Nat × List Char
  | '.' :: s =>
    if (s.takeWhile digit).isEmpty then (0, '.' :: s)
    else (Nat.ofDigitChars 10 ((s.takeWhile digit ++ List.replicate 9 '0').take 9) 0,
      s.dropWhile digit)
  | s => (0, s)

/-- An offset, `none` for `Z`. -/
def parseZone (checked : Bool) : List Char → Option (Option Int)
  | [] => none
  | sign :: s =>
    if sign = 'Z' then (if s = [] then some none else none)
    else if sign = '+' ∨ sign = '-' then do
      let (hours, s) ← field 2 ':' s
      let (minutes, s) ← number 2 s
      if s = [] ∧ (checked → hours ≤ 24 ∧ minutes ≤ 60) then
        let offset : Int := (hours * 60 + minutes) * 60
        return some (if sign = '-' then -offset else offset)
      else none
    else none

/-- `time.ParseInLocation(time.RFC3339Nano, s, …)`: the instant and the offset. -/
def parse (checked : Bool) (s : List Char) : Option (Int × Option Int) := do
  let (year, s) ← field 4 '-' s
  let (month, s) ← field 2 '-' s
  let (day, s) ← field 2 'T' s
  let (hour, s) ← field 2 ':' s
  let (minute, s) ← field 2 ':' s
  let (second, s) ← number 2 s
  let date : Date := ⟨year, month, day⟩
  if date.Valid ∧ hour < 24 ∧ minute < 60 ∧ second < 60 then
    let (nanos, s) := parseFraction s
    let offset ← parseZone checked s
    let seconds := (date.days - unixDays) * 86400 + hour * 3600 + minute * 60 + second
    return ((seconds - offset.getD 0) * 1000000000 + nanos, offset)
  else none

/-! ## Numbers are read back -/

variable {width k : Nat} {c : Char} {checked : Bool}

theorem ofDigitChars_pad (width k : Nat) : Nat.ofDigitChars 10 (pad width k) 0 = k := by
  rw [pad, ofDigitChars_padInt, Int.natAbs_natCast]

theorem digit_of_mem_pad (h : c ∈ pad width k) : digit c = true := by
  rw [pad, padInt_natCast] at h
  rcases List.mem_append.mp h with h | h
  · obtain ⟨-, rfl⟩ := List.mem_replicate.mp h
    rfl
  · have hdigit := Nat.isDigit_of_mem_toDigits (by decide) (by decide) h
    simpa [digit, Char.isDigit, Char.le_def] using hdigit

theorem length_pad (width k : Nat) :
    (pad width k).length = max width (Nat.toDigits 10 k).length := by
  simp only [pad, padInt_natCast, List.length_append, List.length_replicate]
  omega

theorem length_pad_of_lt (hw : 0 < width) (h : k < 10 ^ width) :
    (pad width k).length = width := by
  have hle := (Nat.length_toDigits_le_iff (by decide) hw).mpr h
  rw [length_pad]
  omega

theorem number_pad (hw : 0 < width) (h : k < 10 ^ width) (s : List Char) :
    number width (pad width k ++ s) = some (k, s) := by
  have hlength := length_pad_of_lt hw h
  have htake : (pad width k ++ s).take width = pad width k :=
    List.take_left' hlength
  have hdrop : (pad width k ++ s).drop width = s := List.drop_left' hlength
  have hdigits : (pad width k).all digit = true :=
    List.all_eq_true.mpr fun c => digit_of_mem_pad
  rw [number, htake, hdrop, if_pos ⟨hlength, hdigits⟩, ofDigitChars_pad]

/-- A number is read back exactly if it has not too many digits. -/
theorem field_pad (hw : 0 < width) (hc : digit c = false) (s : List Char) :
    field width c (pad width k ++ c :: s) = if k < 10 ^ width then some (k, s) else none := by
  split
  · next h => simp [field, number_pad hw h]
  · next h =>
    -- one more digit stands where the character should be
    have hlength : width < (pad width k).length := by
      have hlt : ¬(Nat.toDigits 10 k).length ≤ width := fun hle =>
        h ((Nat.length_toDigits_le_iff (by decide) hw).mp hle)
      rw [length_pad]
      omega
    obtain ⟨d, rest, hrest⟩ : ∃ d rest, (pad width k).drop width = d :: rest :=
      List.exists_cons_of_length_pos (by rw [List.length_drop]; omega)
    have hmem : d ∈ (pad width k).drop width := by
      rw [hrest]
      exact List.mem_cons_self
    have hd : digit d = true := digit_of_mem_pad (List.mem_of_mem_drop hmem)
    have hne : d ≠ c := by
      rintro rfl
      rw [hc] at hd
      cases hd
    have hdrop : (pad width k ++ c :: s).drop width = d :: (rest ++ c :: s) := by
      rw [List.drop_append_of_le_length (Nat.le_of_lt hlength), hrest, List.cons_append]
    unfold field number
    rw [hdrop]
    split <;> simp_all

theorem field_of_lt (hw : 0 < width) (hc : digit c = false) (h : k < 10 ^ width) (s : List Char) :
    field width c (pad width k ++ c :: s) = some (k, s) := by
  rw [field_pad hw hc, if_pos h]

theorem field_minus (hw : 0 < width) (s : List Char) :
    field width c ('-' :: s) = none := by
  obtain ⟨w, rfl⟩ : ∃ w, width = w + 1 := ⟨width - 1, by omega⟩
  simp [field, number, digit]

theorem field_appendInt {n : Int} (hw : 0 < width) (hc : digit c = false)
    (s : List Char) :
    field width c (appendInt n width ++ c :: s) =
      if 0 ≤ n ∧ n.toNat < 10 ^ width then some (n.toNat, s) else none := by
  by_cases hn : n < 0
  · rw [appendInt, if_pos hn, if_neg (by omega), List.append_assoc]
    exact field_minus hw _
  · have habs : n.natAbs = n.toNat := by omega
    have hpos : 0 ≤ n := by omega
    rw [appendInt, if_neg hn, List.nil_append, field_pad hw hc, habs]
    simp only [hpos, true_and]

/-! ## Fractions and offsets are read back -/

/-- The digits of a fraction are those that are written, with zeros behind them. -/
theorem exists_zeros (ds : List Char) :
    ∃ n, ds = (ds.reverse.dropWhile (· = '0')).reverse ++ List.replicate n '0' := by
  refine ⟨(ds.reverse.takeWhile (· = '0')).length, ?_⟩
  have hzeros : ds.reverse.takeWhile (· = '0') =
      List.replicate (ds.reverse.takeWhile (· = '0')).length '0' :=
    List.eq_replicate_of_mem fun c hc => by
      simpa using List.all_eq_true.mp List.all_takeWhile c hc
  have hsplit := congrArg List.reverse
    (List.takeWhile_append_dropWhile (p := (· = '0')) (l := ds.reverse))
  rw [hzeros, List.reverse_append, List.reverse_replicate, List.reverse_reverse] at hsplit
  exact hsplit.symm

theorem parseFraction_fraction (h : nanos < 10 ^ 9)
    (hc : digit c = false) (hdot : c ≠ '.') :
    parseFraction (fraction nanos ++ c :: s) = (nanos, c :: s) := by
  by_cases hzero : nanos = 0
  · rw [fraction, if_pos hzero, List.nil_append, hzero]
    unfold parseFraction
    split
    · next heq => exact absurd (List.cons.inj heq).1 hdot
    · rfl
  · obtain ⟨n, hn⟩ := exists_zeros (pad 9 nanos)
    rw [fraction, if_neg hzero, List.cons_append]
    generalize ((pad 9 nanos).reverse.dropWhile (· = '0')).reverse = ds at hn ⊢
    have hdigits : ∀ d ∈ ds, digit d = true := fun d hd =>
      digit_of_mem_pad (hn ▸ List.mem_append_left _ hd)
    have htake : (ds ++ c :: s).takeWhile digit = ds := by
      rw [List.takeWhile_append_of_pos hdigits, List.takeWhile_cons_of_neg (by simp [hc]),
        List.append_nil]
    have hdrop : (ds ++ c :: s).dropWhile digit = c :: s := by
      rw [List.dropWhile_append_of_pos hdigits, List.dropWhile_cons_of_neg (by simp [hc])]
    have hne : ds ≠ [] := by
      rintro rfl
      have hvalue := ofDigitChars_pad 9 nanos
      rw [hn, List.nil_append, ofDigitChars_fill '0' (by decide)] at hvalue
      exact hzero hvalue.symm
    have hlength : ds.length + n = 9 := by
      have hpad := length_pad_of_lt (by decide) h
      rwa [hn, List.length_append, List.length_replicate] at hpad
    have hnine : (ds ++ List.replicate 9 '0').take 9 = pad 9 nanos := by
      rw [hn, List.take_append, List.take_of_length_le (by omega), List.take_replicate]
      congr 2
      omega
    simp only [parseFraction, htake, hdrop, hnine, ofDigitChars_pad, List.isEmpty_iff, hne, if_false]

/-- The hours of an offset that can be read. -/
def hourLimit (checked : Bool) : Nat := if checked then 25 else 100

theorem parseZone_sign (h : sign = '+' ∨ sign = '-') (minutes : Nat) :
    parseZone checked
        (sign :: (pad 2 (minutes / 60) ++ ':' :: pad 2 (minutes % 60))) =
      if minutes / 60 < hourLimit checked then
        some (some (if sign = '-' then -(minutes * 60 : Int) else minutes * 60))
      else none := by
  have hzone : sign ≠ 'Z' := by rcases h with rfl | rfl <;> decide
  have hvalue : (((minutes / 60 : Nat) : Int) * 60 + (minutes % 60 : Nat)) * 60 = minutes * 60 := by
    omega
  have hnumber : number 2 (pad 2 (minutes % 60) ++ []) = some (minutes % 60, []) :=
    number_pad (by decide) (by omega) []
  rw [List.append_nil] at hnumber
  rw [parseZone, if_neg hzone, if_pos h, field_pad (by decide) (by decide)]
  by_cases hhundred : minutes / 60 < 10 ^ 2
  · have hminutes : minutes % 60 ≤ 60 := by omega
    simp only [if_pos hhundred, Option.bind_eq_bind, Option.bind_some, hnumber, hvalue]
    cases checked with
    | true => simp [hourLimit, hminutes, Nat.lt_succ_iff]
    | false =>
      have hless : minutes / 60 < 100 := hhundred
      simp [hourLimit, hless]
  · have hlimit : ¬minutes / 60 < hourLimit checked := by
      cases checked <;> simp [hourLimit] <;> omega
    rw [if_neg hhundred, if_neg hlimit]
    rfl

/-- An offset of whole minutes is read back exactly if its hours can be read. -/
theorem parseZone_zone {offset : Int} (h : offset % 60 = 0) :
    parseZone checked (zone offset) =
      if offset.natAbs / 3600 < hourLimit checked then
        some (if offset = 0 then none else some offset)
      else none := by
  obtain ⟨m, rfl⟩ : ∃ m, offset = 60 * m := ⟨offset / 60, by omega⟩
  by_cases hzero : m = 0
  · subst hzero
    cases checked <;> rfl
  have hhours : m.natAbs / 60 = (60 * m).natAbs / 3600 := by omega
  have htdiv : (60 * m).tdiv 60 = m := Int.mul_tdiv_cancel_left m (by decide)
  have hsign : (if m < 0 then '-' else '+') = '+' ∨ (if m < 0 then '-' else '+') = '-' := by
    split
    · exact .inr rfl
    · exact .inl rfl
  have hvalue : (if (if m < 0 then '-' else '+') = '-' then -(m.natAbs * 60 : Int)
      else m.natAbs * 60) = 60 * m := by
    by_cases hneg : m < 0
    · rw [if_pos hneg, if_pos rfl]
      omega
    · rw [if_neg hneg, if_neg (by decide)]
      omega
  have hne : ¬60 * m = 0 := by omega
  simp only [zone, if_neg hne, htdiv]
  rw [parseZone_sign hsign, hvalue, hhours]

/-! ## Times are read back -/

theorem zone_head (offset : Int) : ∃ c s, zone offset = c :: s ∧ digit c = false ∧ c ≠ '.' := by
  unfold zone
  split
  · exact ⟨'Z', [], rfl, by decide, by decide⟩
  · refine ⟨_, _, rfl, ?_⟩
    split <;> decide

/-- The year on a clock can be written with four digits. -/
def YearFits (instant offset : Int) : Prop :=
  0 ≤ (localDate instant offset).year ∧ (localDate instant offset).year ≤ 9999

instance (instant offset : Int) : Decidable (YearFits instant offset) := by
  unfold YearFits
  infer_instance

/-- A time is read back exactly if its year and the hours of its offset can be read. -/
theorem parse_format {instant offset : Int} (h : offset % 60 = 0) :
    parse checked (format instant offset) =
      if YearFits instant offset ∧ offset.natAbs / 3600 < hourLimit checked then
        some (instant, if offset = 0 then none else some offset)
      else none := by
  have hvalid : (localDate instant offset).Valid := dateOfDays_valid _
  have hdays : (localDate instant offset).days = localSeconds instant offset / 86400 + unixDays :=
    days_dateOfDays _
  simp only [parse, format, field_appendInt (by decide : 0 < 4) (by decide : digit '-' = false)]
  by_cases hyear : ¬YearFits instant offset
  · have hdigits : ¬(0 ≤ (localDate instant offset).year ∧
        (localDate instant offset).year.toNat < 10 ^ 4) := fun hfits => hyear ⟨hfits.1, by omega⟩
    rw [if_neg hdigits, if_neg fun hboth => hyear hboth.1]
    rfl
  obtain ⟨hpos, hle⟩ : YearFits instant offset := Decidable.not_not.mp hyear
  have hdigits : 0 ≤ (localDate instant offset).year ∧
      (localDate instant offset).year.toNat < 10 ^ 4 := ⟨hpos, by omega⟩
  have hdate : (⟨(localDate instant offset).year.toNat, (localDate instant offset).month,
      (localDate instant offset).day⟩ : Date) = localDate instant offset := by
    rw [Int.toNat_of_nonneg hpos]
  obtain ⟨hmonth, hday⟩ := Date.Valid.lt_hundred hvalid
  obtain ⟨c, s, hzone, hc, hdot⟩ := zone_head offset
  have hrest : parseFraction (fraction (instant % 1000000000).toNat ++ zone offset) =
      ((instant % 1000000000).toNat, zone offset) := by
    rw [hzone]
    exact parseFraction_fraction (by omega) hc hdot
  have htime : (localSeconds instant offset % 86400).toNat < 86400 := by omega
  have hseconds : ((localSeconds instant offset % 86400).toNat : Int) =
      localSeconds instant offset % 86400 := by omega
  have htwo : 0 < 2 := by decide
  have hdash : digit '-' = false := by decide
  have hT : digit 'T' = false := by decide
  have hcolon : digit ':' = false := by decide
  generalize (localSeconds instant offset % 86400).toNat = time at *
  have hfields : (localDate instant offset).Valid ∧
      time / 3600 < 24 ∧ time / 60 % 60 < 60 ∧ time % 60 < 60 :=
    ⟨hvalid, by omega, by omega, by omega⟩
  have hoffset : (if offset = 0 then none else some offset).getD 0 = offset := by
    split
    · next hzero => exact hzero.symm
    · rfl
  have hinstant : ((localSeconds instant offset / 86400 + unixDays - unixDays) * 86400 +
      (time / 3600 : Nat) * 3600 + (time / 60 % 60 : Nat) * 60 + (time % 60 : Nat) - offset) *
        1000000000 + (instant % 1000000000).toNat = instant := by
    unfold localSeconds at *
    omega
  rw [if_pos hdigits]
  simp only [Option.bind_eq_bind, Option.bind_some, field_of_lt htwo hdash hmonth,
    field_of_lt htwo hT hday, field_of_lt htwo hcolon (show time / 3600 < 10 ^ 2 by omega),
    field_of_lt htwo hcolon (show time / 60 % 60 < 10 ^ 2 by omega),
    number_pad htwo (show time % 60 < 10 ^ 2 by omega), hrest, hdate, hdays, parseZone_zone h]
  rw [if_pos hfields]
  by_cases hlimit : offset.natAbs / 3600 < hourLimit checked
  · have hboth : YearFits instant offset ∧ offset.natAbs / 3600 < hourLimit checked :=
      ⟨⟨hpos, hle⟩, hlimit⟩
    rw [if_pos hlimit, if_pos hboth, Option.bind_some, hoffset, hinstant]
    rfl
  · rw [if_neg hlimit, if_neg fun hboth => hlimit hboth.2]
    rfl

example : format 1709210096000000789 (-16200) =
    "2024-02-29T08:04:56.000000789-04:30".toList := by decide

end Gofusion.Lib.Rfc3339
