import Mathlib

namespace NyonOS.Fat

/-! Time stamps, and the days that the clock counts. -/

@[ext]
structure Civil where
  year : Int
  month : Nat
  day : Nat

def daysFromCivil (date : Civil) : Int :=
  let y := if date.month ≤ 2 then date.year - 1 else date.year
  let era := (if 0 ≤ y then y else y - 399).tdiv 400
  let yoe := (y - era * 400).toNat
  let doy := (153 * (if 2 < date.month then date.month - 3 else date.month + 9) + 2) / 5 + date.day - 1
  let doe := yoe * 365 + yoe / 4 - yoe / 100 + doy
  era * 146097 + doe - 719468

/-- The date that `fat_stamp` finds. -/
def civilFromDays (days : Int) : Civil :=
  let z := days + 719468
  let era := (if 0 ≤ z then z else z - 146096).tdiv 146097
  let doe := (z - era * 146097).toNat
  let yoe := (doe - doe / 1460 + doe / 36524 - doe / 146096) / 365
  let doy := doe - (365 * yoe + yoe / 4 - yoe / 100)
  let mp := (5 * doy + 2) / 153
  let day := doy - (153 * mp + 2) / 5 + 1
  let month := if mp < 10 then mp + 3 else mp - 9
  ⟨yoe + era * 400 + if month ≤ 2 then 1 else 0, month, day⟩

/-- The time and the date. -/
def fatStamp (unixSec : Int) : Nat × Nat :=
  let days := if unixSec.tmod 86400 < 0 then unixSec.tdiv 86400 - 1 else unixSec.tdiv 86400
  let rem := (if unixSec.tmod 86400 < 0 then unixSec.tmod 86400 + 86400 else unixSec.tmod 86400).toNat
  let date := civilFromDays days
  let year := if date.year < 1980 then 1980 else date.year
  let year := if 2107 < year then 2107 else year
  (((rem / 3600) <<< 11 ||| (rem % 3600 / 60) <<< 5 ||| rem % 60 / 2) % 65536,
    ((year - 1980).toNat <<< 9 ||| date.month <<< 5 ||| date.day) % 65536)

def isLeap (year : Int) : Bool := year % 4 = 0 && (year % 100 ≠ 0 || year % 400 = 0)

def daysInMonth (leap : Bool) : Nat → Nat
  | 2 => if leap then 29 else 28
  | 4 | 6 | 9 | 11 => 30
  | _ => 31

namespace Civil

variable {date other : Civil}

/-- A date of the calendar. -/
structure Valid (date : Civil) : Prop where
  month : 1 ≤ date.month ∧ date.month ≤ 12
  day : 1 ≤ date.day ∧ date.day ≤ daysInMonth (isLeap date.year) date.month

/-- The days up to the March of a year. -/
def yearStart (year : Int) : Int := 365 * year + year / 4 - year / 100 + year / 400

/-- The days from March to a month. -/
def monthStart (mp : Nat) : Nat := (153 * mp + 2) / 5

/-- The date of a day, in a year that starts with March. -/
structure March (year : Int) (mp : Nat) (days : Int) (date : Civil) : Prop where
  within : mp ≤ 11
  inMonth : 1 ≤ date.day ∧ monthStart mp + date.day ≤ monthStart (mp + 1)
  inYear : yearStart year + monthStart mp + date.day ≤ yearStart (year + 1)
  isDays : days + 719469 = yearStart year + monthStart mp + date.day
  isYear : date.year = if mp < 10 then year else year + 1
  isMonth : date.month = if mp < 10 then mp + 3 else mp - 9

theorem yearStart_succ (year : Int) :
    yearStart (year + 1) = yearStart year + 365 + if isLeap (year + 1) then 1 else 0 := by
  unfold yearStart isLeap
  split_ifs with leap <;> simp at leap <;> omega

theorem daysInMonth_fits : ∀ leap, ∀ mp < 12, monthStart mp + daysInMonth leap (if mp < 10 then mp + 3 else mp - 9) ≤
      min (monthStart (mp + 1)) (365 + if leap then 1 else 0) := by
  decide

theorem Valid.march (valid : date.Valid) : ∃ year mp, March year mp (daysFromCivil date) date := by
  obtain ⟨⟨first, last⟩, one, bound⟩ := valid
  obtain ⟨mp, isMp, within⟩ : ∃ mp, (if 2 < date.month then date.month - 3 else date.month + 9) = mp ∧ mp ≤ 11 :=
    ⟨_, rfl, by split_ifs <;> omega⟩
  obtain ⟨year, isYear⟩ : ∃ year, (if date.month ≤ 2 then date.year - 1 else date.year) = year := ⟨_, rfl⟩
  have isMonth : date.month = if mp < 10 then mp + 3 else mp - 9 := by split_ifs at * <;> omega
  have fits := daysInMonth_fits (isLeap date.year) mp (by omega)
  rw [← isMonth] at fits
  refine ⟨year, mp, within, ⟨one, by omega⟩, ?_, ?_, by split_ifs at * <;> omega, isMonth⟩
  · rw [yearStart_succ]
    by_cases early : date.month ≤ 2
    · rw [if_pos early] at isYear
      rw [show year + 1 = date.year by omega]
      split_ifs at * <;> omega
    · rw [if_pos (by omega)] at isMp
      have spring : monthStart (mp + 1) ≤ 365 := by
        unfold monthStart
        omega
      split_ifs at * <;> omega
  · have era : (if 0 ≤ year then year else year - 399).tdiv 400 = year / 400 := by
      rw [Int.tdiv_eq_ediv, show Int.sign 400 = 1 from rfl]
      split_ifs <;> omega
    simp only [daysFromCivil, isMp, isYear, era, yearStart, monthStart]
    omega

def code (date : Civil) : Int := 512 * date.year + 32 * date.month + date.day

namespace March

variable {year yearToo days daysToo : Int} {mp mpToo : Nat} (march : March year mp days date)
include march

theorem bounds : 1 ≤ date.month ∧ date.month ≤ 12 ∧ 1 ≤ date.day ∧ date.day ≤ 31 := by
  obtain ⟨within, ⟨one, last⟩, -, -, -, isMonth⟩ := march
  unfold monthStart at last
  split_ifs at isMonth <;> omega

theorem valid : date.Valid := by
  obtain ⟨within, ⟨one, last⟩, ends, -, isYear, isMonth⟩ := march
  rw [yearStart_succ] at ends
  refine ⟨by split_ifs at isMonth <;> omega, one, ?_⟩
  unfold monthStart at *
  interval_cases mp <;> simp_all [daysInMonth] <;> split_ifs at * <;> omega

section

variable (also : March yearToo mpToo daysToo other)
include also

theorem days_lt (less : date.code < other.code) : days < daysToo := by
  have bounds := march.bounds
  have boundsToo := also.bounds
  obtain ⟨within, ⟨one, last⟩, ends, isDays, isYear, isMonth⟩ := march
  obtain ⟨withinToo, -, -, isDaysToo, isYearToo, isMonthToo⟩ := also
  unfold code at less
  rcases lt_trichotomy year yearToo with before | rfl | after
  · have : yearStart (year + 1) ≤ yearStart yearToo := by
      unfold yearStart
      omega
    omega
  · rcases lt_trichotomy mp mpToo with before | rfl | after
    · have : monthStart (mp + 1) ≤ monthStart mpToo := by
        unfold monthStart
        omega
      omega
    · omega
    · split_ifs at * <;> omega
  · split_ifs at * <;> omega

theorem eq_of_code (same : date.code = other.code) : date = other := by
  have := march.bounds
  have := also.bounds
  unfold code at same
  ext <;> omega

theorem le_iff : days ≤ daysToo ↔ date.code ≤ other.code := by
  rcases lt_trichotomy date.code other.code with less | same | more
  · exact iff_of_true (march.days_lt also less).le less.le
  · refine iff_of_true ?_ same.le
    obtain rfl := march.eq_of_code also same
    obtain ⟨within, -, -, isDays, isYear, isMonth⟩ := march
    obtain ⟨withinToo, -, -, isDaysToo, isYearToo, isMonthToo⟩ := also
    obtain ⟨rfl, rfl⟩ : mp = mpToo ∧ year = yearToo := by split_ifs at * <;> omega
    omega
  · exact iff_of_false (also.days_lt march more).not_ge more.not_ge

end

end March

theorem yearOfEra {doe : Nat} (bound : doe < 146097) : ∃ yoe doy,
    (doe - doe / 1460 + doe / 36524 - doe / 146096) / 365 = yoe ∧ yoe ≤ 399 ∧
      doe = 365 * yoe + yoe / 4 - yoe / 100 + doy ∧
      (doy ≤ 364 ∨ doy = 365 ∧ yoe % 4 = 3 ∧ (yoe % 100 ≠ 99 ∨ yoe = 399)) := by
  -- the century, the four years and the year in them, of which the last may be longer
  obtain ⟨c, q, s, doy, century, four, year, day, rfl⟩ : ∃ c q s doy, c ≤ 3 ∧ q ≤ 24 ∧ s ≤ 3 ∧
      (doy ≤ 364 ∨ doy = 365 ∧ s = 3 ∧ (q ≠ 24 ∨ c = 3)) ∧ doe = 36524 * c + 1461 * q + 365 * s + doy := by
    let c := min 3 (doe / 36524)
    let q := (doe - 36524 * c) / 1461
    let s := min 3 ((doe - 36524 * c - 1461 * q) / 365)
    refine ⟨c, q, s, doe - 36524 * c - 1461 * q - 365 * s, ?_⟩
    omega
  have quarters : (100 * c + 4 * q + s) / 4 = 25 * c + q := by omega
  have hundreds : (100 * c + 4 * q + s) / 100 = c := by omega
  refine ⟨100 * c + 4 * q + s, doy, ?_, by omega, by omega, by omega⟩
  have inside : 1461 * q + 365 * s + doy < 36524 ∨ c = 3 ∧ 1461 * q + 365 * s + doy = 36524 := by omega
  generalize isDoe : 36524 * c + 1461 * q + 365 * s + doy = doe
  have centuries : doe / 36524 = c + doe / 146096 := by omega
  have fours : doe / 1460 = 25 * c + q ∧ doy ≤ 364 ∨ doe / 1460 = 25 * c + q + 1 ∧ 1 ≤ doy := by omega
  omega

theorem civilFromDays_march (days : Int) : ∃ year mp, March year mp days (civilFromDays days) := by
  have era : (if 0 ≤ days + 719468 then days + 719468 else days + 719468 - 146096).tdiv 146097 =
      (days + 719468) / 146097 := by
    rw [Int.tdiv_eq_ediv, show Int.sign 146097 = 1 from rfl]
    split_ifs <;> omega
  obtain ⟨doe, isDoe⟩ := Int.eq_ofNat_of_zero_le (show 0 ≤ days + 719468 - (days + 719468) / 146097 * 146097 by omega)
  obtain ⟨yoe, doy, isYoe, low, rfl, inYear⟩ := @yearOfEra doe (by omega)
  simp only [civilFromDays, era, isDoe, Int.toNat_natCast, isYoe, Nat.add_sub_cancel_left]
  clear isYoe
  generalize (days + 719468) / 146097 = century at *
  refine ⟨yoe + century * 400, (5 * doy + 2) / 153, by omega, ⟨by simp, ?_⟩, ?_, ?_, ?_, rfl⟩ <;> dsimp only
  · unfold monthStart
    omega
  · unfold monthStart yearStart
    omega
  · unfold monthStart yearStart
    omega
  · split_ifs <;> omega

theorem civilFromDays_days (valid : date.Valid) : civilFromDays (daysFromCivil date) = date := by
  obtain ⟨_, _, march⟩ := valid.march
  obtain ⟨_, _, also⟩ := civilFromDays_march (daysFromCivil date)
  exact also.eq_of_code march (le_antisymm ((also.le_iff march).mp le_rfl) ((march.le_iff also).mp le_rfl))

/-- Days and dates correspond, and so do their orders. -/
theorem calendar_ordered (days later : Int) : (civilFromDays days).Valid ∧ daysFromCivil (civilFromDays days) = days ∧
    (∀ date : Civil, date.Valid → civilFromDays (daysFromCivil date) = date) ∧
    (days ≤ later ↔ (civilFromDays days).code ≤ (civilFromDays later).code) := by
  obtain ⟨_, _, march⟩ := civilFromDays_march days
  obtain ⟨_, _, after⟩ := civilFromDays_march later
  obtain ⟨_, _, also⟩ := march.valid.march
  have same := le_antisymm ((also.le_iff march).mpr le_rfl) ((march.le_iff also).mpr le_rfl)
  exact ⟨march.valid, same, fun _ => civilFromDays_days, march.le_iff after⟩

/-- The years that a stamp can have, by the first days of the years. -/
theorem year_range (days : Int) : (1980 ≤ (civilFromDays days).year ↔ 3652 ≤ days) ∧
    (2108 ≤ (civilFromDays days).year ↔ 50403 ≤ days) := by
  have by_first : ∀ year : Int, year ≤ (civilFromDays days).year ↔ daysFromCivil ⟨year, 1, 1⟩ ≤ days := by
    intro year
    have january : (⟨year, 1, 1⟩ : Civil).Valid := ⟨by simp, by simp [daysInMonth]⟩
    obtain ⟨_, _, march⟩ := january.march
    obtain ⟨_, _, also⟩ := civilFromDays_march days
    have := also.bounds
    rw [march.le_iff also]
    unfold code
    dsimp only
    omega
  exact ⟨by_first 1980, by_first 2108⟩

end Civil

open Civil

theorem packed {shift mid low : Nat} (high : Nat) (wide : 5 ≤ shift) (fits : mid < 2 ^ (shift - 5)) (small : low < 2 ^ 5) :
    high <<< shift ||| mid <<< 5 ||| low = (high * 2 ^ (shift - 5) + mid) * 32 + low := by
  obtain ⟨n, rfl⟩ := Nat.exists_eq_add_of_le' wide
  rw [Nat.add_sub_cancel] at *
  have both : high <<< (n + 5) ||| mid <<< 5 = (high * 2 ^ n + mid) <<< 5 := by
    rw [← Nat.shiftLeft_add_eq_or_of_lt, Nat.shiftLeft_eq, Nat.shiftLeft_eq, Nat.shiftLeft_eq]
    · ring
    · rw [Nat.shiftLeft_eq, pow_add]
      omega
  rw [both, ← Nat.shiftLeft_add_eq_or_of_lt small, Nat.shiftLeft_eq]

def encodeTime (second : Nat) : Nat := (second / 3600 * 64 + second % 3600 / 60) * 32 + second % 60 / 2

def encodeDate (year : Int) (date : Civil) : Nat := ((year - 1980).toNat * 16 + date.month) * 32 + date.day

theorem fatStamp_eq (unixSec : Int) : fatStamp unixSec = (encodeTime (unixSec % 86400).toNat,
    encodeDate (max 1980 (min (civilFromDays (unixSec / 86400)).year 2107)) (civilFromDays (unixSec / 86400))) := by
  have split_ : (if unixSec.tmod 86400 < 0 then unixSec.tdiv 86400 - 1 else unixSec.tdiv 86400) = unixSec / 86400 ∧
      (if unixSec.tmod 86400 < 0 then unixSec.tmod 86400 + 86400 else unixSec.tmod 86400) = unixSec % 86400 := by
    rw [Int.tmod_def, Int.tdiv_eq_ediv, show Int.sign 86400 = 1 from rfl]
    split_ifs <;> omega
  obtain ⟨_, _, march⟩ := civilFromDays_march (unixSec / 86400)
  have bounds := march.bounds
  simp only [fatStamp, split_, encodeTime, encodeDate]
  rw [packed _ (by decide) (by omega) (by omega), packed _ (by decide) (by omega) (by omega)]
  refine Prod.ext ?_ ?_ <;> dsimp only
  · omega
  · split_ifs <;> omega

/-- The times that are stamped as the nearest time from the start of 1980 to the end of 2107. -/
def Clamped (unixSec : Int) : Prop :=
  315532800 ≤ unixSec ∧ unixSec ≤ 4354819199 ∨
  unixSec < 315532800 ∧ encodeDate 1980 (civilFromDays (unixSec / 86400)) = 33 ∧ unixSec % 86400 < 2 ∨
  4354819199 < unixSec ∧ encodeDate 1980 (civilFromDays (unixSec / 86400)) = 415 ∧ 86398 ≤ unixSec % 86400

theorem fatStamp_clamped_iff (unixSec : Int) :
    fatStamp unixSec = fatStamp (max 315532800 (min unixSec 4354819199)) ↔ Clamped unixSec := by
  have range := year_range (unixSec / 86400)
  unfold Clamped
  obtain ⟨before, ends⟩ | ⟨after, ends⟩ | ⟨inside, ends⟩ :
      unixSec < 315532800 ∧ max 315532800 (min unixSec 4354819199) = 315532800 ∨
      4354819199 < unixSec ∧ max 315532800 (min unixSec 4354819199) = 4354819199 ∨
      (315532800 ≤ unixSec ∧ unixSec ≤ 4354819199) ∧ max 315532800 (min unixSec 4354819199) = unixSec := by omega
  · rw [ends, show fatStamp 315532800 = (0, 33) from rfl, fatStamp_eq, Prod.mk.injEq]
    unfold encodeTime encodeDate
    omega
  · rw [ends, show fatStamp 4354819199 = (49021, 65439) from rfl, fatStamp_eq, Prod.mk.injEq]
    unfold encodeTime encodeDate
    omega
  · rw [ends]
    exact iff_of_true rfl (.inl inside)

/-- In the range the stamps are in the order of the times. -/
theorem fatStamp_mono {t u : Int} (first : 315532800 ≤ t) (le : t ≤ u) (last : u ≤ 4354819199) :
    (fatStamp t).2 < (fatStamp u).2 ∨ (fatStamp t).2 = (fatStamp u).2 ∧ (fatStamp t).1 ≤ (fatStamp u).1 := by
  have early := year_range (t / 86400)
  have late := year_range (u / 86400)
  obtain ⟨_, _, march⟩ := civilFromDays_march (t / 86400)
  obtain ⟨_, _, also⟩ := civilFromDays_march (u / 86400)
  have order := march.le_iff also
  have back := also.le_iff march
  have := march.bounds
  have := also.bounds
  have sameDay : t % 86400 ≤ u % 86400 → encodeTime (t % 86400).toNat ≤ encodeTime (u % 86400).toNat := by
    unfold encodeTime
    omega
  rw [fatStamp_eq, fatStamp_eq]
  unfold encodeDate code at *
  dsimp only
  omega

theorem stamp_faithful (t u : Int) :
    (∀ date : Civil, date.Valid → 1980 ≤ date.year → date.year ≤ 2107 → ∀ second : Nat, second < 86400 →
      fatStamp (daysFromCivil date * 86400 + second) = (encodeTime second, encodeDate date.year date)) ∧
    (fatStamp t = fatStamp (max 315532800 (min t 4354819199)) ↔ Clamped t) ∧
    (t ≤ u → Clamped t → Clamped u → (fatStamp t).2 < (fatStamp u).2 ∨
      (fatStamp t).2 = (fatStamp u).2 ∧ (fatStamp t).1 ≤ (fatStamp u).1) := by
  refine ⟨fun date valid low high second bound => ?_, fatStamp_clamped_iff t, fun le clamped also => ?_⟩
  · rw [fatStamp_eq, show (daysFromCivil date * 86400 + second) / 86400 = daysFromCivil date by omega,
      show ((daysFromCivil date * 86400 + second) % 86400).toNat = second by omega, civilFromDays_days valid, min_eq_left high,
      max_eq_right low]
  · rw [(fatStamp_clamped_iff t).mpr clamped, (fatStamp_clamped_iff u).mpr also]
    apply fatStamp_mono <;> omega

/-- The last day of 1979 is stamped as the last day of 1980. -/
theorem stamp_before_1980 : daysFromCivil ⟨1979, 12, 31⟩ * 86400 < 315532800 ∧
    (fatStamp 315532800).2 < (fatStamp (daysFromCivil ⟨1979, 12, 31⟩ * 86400)).2 := by
  decide +kernel

end NyonOS.Fat
