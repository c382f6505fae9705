import Mathlib.Tactic

/-!
# The proleptic Gregorian calendar

The rule of leap years is applied to every year, also before it was made and before the year 1. The
days are numbered in a row, so that the number of a date is 1 on 1 January of the year 1.
-/
namespace SkeinDB.Calendar

def isLeap (year : ℤ) : Bool := (year % 4 = 0 && year % 100 ≠ 0) || year % 400 = 0

def daysInMonth (year : ℤ) (month : ℕ) : ℕ :=
  match month with
  | 1 | 3 | 5 | 7 | 8 | 10 | 12 => 31
  | 4 | 6 | 9 | 11 => 30
  | 2 => if isLeap year then 29 else 28
  | _ => 0

structure Date where
  year : ℤ
  month : ℕ
  day : ℕ
  deriving DecidableEq, Repr

/-- The days before a year. -/
def yearStart (year : ℤ) : ℤ :=
  365 * (year - 1) + (year - 1) / 4 - (year - 1) / 100 + (year - 1) / 400

/-- The days before a month. -/
def monthStart (year : ℤ) (month : ℕ) : ℤ :=
  yearStart year + ((∑ m ∈ Finset.range month, daysInMonth year m : ℕ) : ℤ)

theorem monthStart_succ (year : ℤ) (month : ℕ) :
    monthStart year (month + 1) = monthStart year month + daysInMonth year month := by
  rw [monthStart, monthStart, Finset.sum_range_succ, Nat.cast_add, add_assoc]

theorem monthStart_zero (year : ℤ) : monthStart year 0 = yearStart year := by
  simp [monthStart]

theorem monthStart_one (year : ℤ) : monthStart year 1 = yearStart year := by
  simp [monthStart, daysInMonth]

theorem isLeap_iff (year : ℤ) :
    isLeap year = true ↔ (year % 4 = 0 ∧ year % 100 ≠ 0) ∨ year % 400 = 0 := by
  simp [isLeap]

theorem yearStart_succ (year : ℤ) :
    yearStart (year + 1) = yearStart year + if isLeap year then 366 else 365 := by
  unfold yearStart
  split_ifs with hleap <;> rw [isLeap_iff] at hleap <;> omega

theorem monthStart_mono (year : ℤ) {month month' : ℕ} (h : month ≤ month') :
    monthStart year month ≤ monthStart year month' := by
  induction h with
  | refl => exact le_rfl
  | step _ ih =>
    rw [monthStart_succ]
    omega

theorem monthStart_thirteen (year : ℤ) : monthStart year 13 = yearStart (year + 1) := by
  rw [yearStart_succ]
  simp only [monthStart_succ, monthStart_zero, daysInMonth]
  split_ifs <;> push_cast <;> ring

theorem yearStart_mono {year year' : ℤ} (h : year ≤ year') : yearStart year ≤ yearStart year' := by
  unfold yearStart
  omega

namespace Date

structure Valid (d : Date) : Prop where
  month_pos : 1 ≤ d.month
  month_le : d.month ≤ 12
  day_pos : 1 ≤ d.day
  day_le : d.day ≤ daysInMonth d.year d.month

/-- The number of a date. -/
def ordinal (d : Date) : ℤ := monthStart d.year d.month + d.day

/-- The order by year, month and day. -/
def Before (d d' : Date) : Prop :=
  d.year < d'.year ∨ d.year = d'.year ∧
    (d.month < d'.month ∨ d.month = d'.month ∧ d.day < d'.day)

/-- The date of the following day. -/
def next (d : Date) : Date :=
  if d.day < daysInMonth d.year d.month then { d with day := d.day + 1 }
  else if d.month < 12 then ⟨d.year, d.month + 1, 1⟩
  else ⟨d.year + 1, 1, 1⟩

theorem daysInMonth_pos {year : ℤ} {month : ℕ} (h : 1 ≤ month) (h' : month ≤ 12) :
    28 ≤ daysInMonth year month := by
  interval_cases month <;> grind [daysInMonth]

theorem daysInMonth_le (year : ℤ) (month : ℕ) : daysInMonth year month ≤ 31 := by
  unfold daysInMonth
  split <;> grind

section Order
variable {d d' : Date}

theorem before_trichotomy (d d' : Date) : d.Before d' ∨ d = d' ∨ d'.Before d := by
  obtain ⟨y, m, n⟩ := d
  obtain ⟨y', m', n'⟩ := d'
  simp only [Before, Date.mk.injEq]
  omega

theorem Valid.monthStart_lt_ordinal (h : d.Valid) : monthStart d.year d.month < d.ordinal := by
  have := h.day_pos
  rw [ordinal]
  omega

theorem Valid.ordinal_le_monthStart (h : d.Valid) :
    d.ordinal ≤ monthStart d.year (d.month + 1) := by
  have := h.day_le
  rw [monthStart_succ, ordinal]
  omega

theorem Valid.yearStart_lt_ordinal (h : d.Valid) : yearStart d.year < d.ordinal :=
  (monthStart_one d.year).ge.trans_lt
    ((monthStart_mono _ h.month_pos).trans_lt h.monthStart_lt_ordinal)

theorem Valid.ordinal_le_yearStart (h : d.Valid) : d.ordinal ≤ yearStart (d.year + 1) :=
  (h.ordinal_le_monthStart.trans (monthStart_mono _ (Nat.succ_le_succ h.month_le))).trans
    (monthStart_thirteen d.year).le

theorem ordinal_lt_of_before (h : d.Valid) (h' : d'.Valid) (hlt : d.Before d') :
    d.ordinal < d'.ordinal := by
  rcases hlt with hyear | ⟨hyear, hmonth | ⟨hmonth, hday⟩⟩
  · calc d.ordinal ≤ yearStart (d.year + 1) := h.ordinal_le_yearStart
      _ ≤ yearStart d'.year := yearStart_mono hyear
      _ < d'.ordinal := h'.yearStart_lt_ordinal
  · calc d.ordinal ≤ monthStart d.year (d.month + 1) := h.ordinal_le_monthStart
      _ ≤ monthStart d'.year d'.month := hyear ▸ monthStart_mono _ hmonth
      _ < d'.ordinal := h'.monthStart_lt_ordinal
  · rw [ordinal, ordinal, hyear, hmonth]
    omega

theorem ordinal_lt_iff (h : d.Valid) (h' : d'.Valid) : d.ordinal < d'.ordinal ↔ d.Before d' := by
  refine ⟨fun hlt => ?_, ordinal_lt_of_before h h'⟩
  rcases before_trichotomy d d' with hbefore | rfl | hafter
  · exact hbefore
  · exact absurd hlt (lt_irrefl _)
  · exact absurd (hlt.trans (ordinal_lt_of_before h' h hafter)) (lt_irrefl _)

theorem ordinal_inj (h : d.Valid) (h' : d'.Valid) (heq : d.ordinal = d'.ordinal) : d = d' := by
  rcases before_trichotomy d d' with hbefore | rfl | hafter
  · exact absurd heq (ordinal_lt_of_before h h' hbefore).ne
  · rfl
  · exact absurd heq (ordinal_lt_of_before h' h hafter).ne'

theorem Valid.next (h : d.Valid) : d.next.Valid := by
  obtain ⟨hpos, hle, hday, hday'⟩ := h
  unfold Date.next
  split_ifs with hin hmonth
  · exact ⟨hpos, hle, by simp, hin⟩
  · exact ⟨by simp, hmonth, le_rfl, le_trans (by simp) (daysInMonth_pos (by simp) hmonth)⟩
  · exact ⟨le_rfl, by simp, le_rfl, by simp [daysInMonth]⟩

theorem ordinal_next (h : d.Valid) : d.next.ordinal = d.ordinal + 1 := by
  have hday := h.day_le
  unfold Date.next
  split_ifs with hin hmonth
  · simp only [ordinal]
    push_cast
    ring
  · simp only [ordinal, monthStart_succ]
    omega
  · have hdecember : d.month = 12 := by
      have := h.month_le
      omega
    simp only [ordinal, monthStart_one, ← monthStart_thirteen, monthStart_succ _ 12, hdecember]
    rw [hdecember] at hday hin
    omega

end Order

section March

/-- The year counted from March on, so that the leap day is its last. -/
def marchYear (d : Date) : ℤ := d.year - if d.month ≤ 2 then 1 else 0

def marchMonth (d : Date) : ℕ := if d.month ≤ 2 then d.month + 9 else d.month - 3

/-- The months from March on have 31 and 30 days in turn, five of them 153. -/
theorem marchDays_succ (year : ℤ) {k : ℕ} (h : k < 10) :
    (153 * (k + 1) + 2) / 5 = (153 * k + 2) / 5 + daysInMonth year (k + 3) := by
  interval_cases k <;> rfl

theorem monthStart_march (year : ℤ) {k : ℕ} (h : k ≤ 10) :
    monthStart year (k + 3) = yearStart (year + 1) - 306 + ((153 * k + 2) / 5 : ℕ) := by
  obtain ⟨j, hj⟩ := Nat.exists_eq_add_of_le h
  induction j generalizing k with
  | zero =>
    obtain rfl : k = 10 := by omega
    rw [monthStart_thirteen]
    norm_num
  | succ j ih =>
    have hnext := ih (k := k + 1) (by omega) (by omega)
    rw [Nat.add_right_comm, monthStart_succ, marchDays_succ year (by omega)] at hnext
    push_cast at hnext ⊢
    linarith

theorem Valid.ordinal_eq {d : Date} (h : d.Valid) :
    d.ordinal = 365 * d.marchYear + d.marchYear / 4 - d.marchYear / 100 + d.marchYear / 400 - 306 +
      ((153 * d.marchMonth + 2) / 5 : ℕ) + d.day := by
  have hpos := h.month_pos
  have hle := h.month_le
  rw [ordinal, marchYear, marchMonth]
  by_cases hearly : d.month ≤ 2
  · rw [if_pos hearly, if_pos hearly]
    rcases (by omega : d.month = 1 ∨ d.month = 2) with hmonth | hmonth <;> rw [hmonth]
    · rw [monthStart_one, yearStart]
      norm_num
    · rw [monthStart_succ, monthStart_one, yearStart, daysInMonth]
      norm_num
      ring
  · obtain ⟨k, hk⟩ := Nat.exists_eq_add_of_le (not_le.mp hearly)
    rw [if_neg hearly, if_neg hearly, (by omega : d.month = k + 3), monthStart_march _ (by omega),
      yearStart, add_sub_cancel_right, sub_zero, Nat.add_sub_cancel]

end March

section Inverse

/-- The year of a 400-year era that starts in March, from the day of the era. -/
def yearOfEra (doe : ℤ) : ℤ := (doe - doe / 1460 + doe / 36524 - doe / 146096) / 365

def dayOfYear (doe : ℤ) : ℤ :=
  doe - (365 * yearOfEra doe + yearOfEra doe / 4 - yearOfEra doe / 100)

theorem mul_add_ediv {a c r : ℤ} (h : 0 ≤ r) (h' : r < a) : (a * c + r) / a = c := by
  rw [Int.add_comm, Int.add_mul_ediv_left _ _ (by omega), Int.ediv_eq_zero_of_lt h h', zero_add]

/-- Centuries, groups of four years and years, as if every one of them had the days of its first:
the formula of `yearOfEra` takes the leap days out of the day of the era. -/
theorem yearOfEra_digits {c q k r : ℤ} (hc : 0 ≤ c ∧ c ≤ 3) (hq : 0 ≤ q ∧ q ≤ 24)
    (hk : 0 ≤ k ∧ k ≤ 3) (hr : 0 ≤ r ∧ r ≤ 365) (hleap : r = 365 → k = 3 ∧ (q = 24 → c = 3)) :
    yearOfEra (36524 * c + (1461 * q + (365 * k + r))) = 100 * c + 4 * q + k := by
  rcases em (r = 365 ∧ q = 24) with ⟨rfl, rfl⟩ | hlast
  · obtain ⟨rfl, hc3⟩ := hleap rfl
    obtain rfl := hc3 rfl
    rfl
  obtain ⟨carry, hcarry⟩ : ∃ carry, (24 * c + q + 365 * k + r) / 1460 = carry := ⟨_, rfl⟩
  have hcarry' : carry = 0 ∨ carry = 1 ∧ 1 ≤ r := by omega
  have hcentury : (36524 * c + (1461 * q + (365 * k + r))) / 36524 = c :=
    mul_add_ediv (by omega) (by omega)
  have hera : (36524 * c + (1461 * q + (365 * k + r))) / 146096 = 0 :=
    Int.ediv_eq_zero_of_lt (by omega) (by omega)
  have hfours : (36524 * c + (1461 * q + (365 * k + r))) / 1460 = 25 * c + q + carry := by
    rw [← hcarry, (by ring : 36524 * c + (1461 * q + (365 * k + r)) =
      24 * c + q + 365 * k + r + 1460 * (25 * c + q)), Int.add_mul_ediv_left _ _ (by norm_num)]
    ring
  rw [yearOfEra, hcentury, hera, hfours, (by ring : 36524 * c + (1461 * q + (365 * k + r)) -
    (25 * c + q + carry) + c - 0 = 365 * (100 * c + 4 * q + k) + (r - carry))]
  exact mul_add_ediv (by omega) (by omega)

theorem dayOfYear_digits {c q k r : ℤ} (hc : 0 ≤ c ∧ c ≤ 3) (hq : 0 ≤ q ∧ q ≤ 24)
    (hk : 0 ≤ k ∧ k ≤ 3) (hr : 0 ≤ r ∧ r ≤ 365) (hleap : r = 365 → k = 3 ∧ (q = 24 → c = 3)) :
    dayOfYear (36524 * c + (1461 * q + (365 * k + r))) = r := by
  have hcentury : (100 * c + (4 * q + k)) / 100 = c := mul_add_ediv (by omega) (by omega)
  have hfour : (4 * (25 * c + q) + k) / 4 = 25 * c + q := mul_add_ediv (by omega) (by omega)
  rw [dayOfYear, yearOfEra_digits hc hq hk hr hleap, add_assoc (100 * c), hcentury,
    (by ring : 100 * c + (4 * q + k) = 4 * (25 * c + q) + k), hfour]
  ring

theorem exists_digits {doe : ℤ} (h : 0 ≤ doe ∧ doe ≤ 146096) :
    ∃ c q k r, (0 ≤ c ∧ c ≤ 3) ∧ (0 ≤ q ∧ q ≤ 24) ∧ (0 ≤ k ∧ k ≤ 3) ∧ (0 ≤ r ∧ r ≤ 365) ∧
      (r = 365 → k = 3 ∧ (q = 24 → c = 3)) ∧ doe = 36524 * c + (1461 * q + (365 * k + r)) := by
  obtain ⟨c, hc⟩ : ∃ c, c = min 3 (doe / 36524) := ⟨_, rfl⟩
  obtain ⟨q, hq⟩ : ∃ q, q = (doe - 36524 * c) / 1461 := ⟨_, rfl⟩
  obtain ⟨k, hk⟩ : ∃ k, k = min 3 ((doe - 36524 * c - 1461 * q) / 365) := ⟨_, rfl⟩
  refine ⟨c, q, k, doe - 36524 * c - 1461 * q - 365 * k, ?_, ?_, ?_, ?_, ?_, ?_⟩ <;> omega

/-- The year of the era starts no later than the day, and the day is within it. -/
theorem dayOfYear_bounds {doe : ℤ} (h : 0 ≤ doe ∧ doe ≤ 146096) :
    (0 ≤ yearOfEra doe ∧ yearOfEra doe ≤ 399) ∧ (0 ≤ dayOfYear doe ∧ dayOfYear doe ≤ 365) ∧
      (dayOfYear doe = 365 → ∀ era : ℤ, isLeap (yearOfEra doe + era * 400 + 1)) := by
  obtain ⟨c, q, k, r, hc, hq, hk, hr, hleap, rfl⟩ := exists_digits h
  rw [dayOfYear_digits hc hq hk hr hleap, yearOfEra_digits hc hq hk hr hleap]
  refine ⟨by omega, hr, fun hlast era => ?_⟩
  have := hleap hlast
  rw [isLeap_iff]
  omega

/-- The months counted from March, from the day of the year. -/
def monthPrime (doy : ℤ) : ℤ := (5 * doy + 2) / 153

theorem monthPrime_bounds {doy : ℤ} (h : 0 ≤ doy ∧ doy ≤ 365) :
    (0 ≤ monthPrime doy ∧ monthPrime doy ≤ 11) ∧ (153 * monthPrime doy + 2) / 5 ≤ doy ∧
      doy < (153 * (monthPrime doy + 1) + 2) / 5 := by
  unfold monthPrime
  omega

/-- The date of a number. -/
def ofOrdinal (n : ℤ) : Date :=
  let doe := (n + 305) % 146097
  let doy := dayOfYear doe
  let month := if monthPrime doy < 10 then monthPrime doy + 3 else monthPrime doy - 9
  { year := yearOfEra doe + (n + 305) / 146097 * 400 + if month ≤ 2 then 1 else 0
    month := month.toNat
    day := (doy - (153 * monthPrime doy + 2) / 5 + 1).toNat }

section
variable (n : ℤ)

theorem doe_bounds : 0 ≤ (n + 305) % 146097 ∧ (n + 305) % 146097 ≤ 146096 := by omega

theorem ofOrdinal_marchMonth :
    ((ofOrdinal n).marchMonth : ℤ) = monthPrime (dayOfYear ((n + 305) % 146097)) := by
  have hdoy := dayOfYear_bounds (doe_bounds n)
  have hmonth := monthPrime_bounds hdoy.2.1
  simp only [marchMonth, ofOrdinal]
  split_ifs <;> omega

theorem ofOrdinal_marchYear :
    (ofOrdinal n).marchYear =
      yearOfEra ((n + 305) % 146097) + (n + 305) / 146097 * 400 := by
  have hdoy := dayOfYear_bounds (doe_bounds n)
  have hmonth := monthPrime_bounds hdoy.2.1
  simp only [marchYear, ofOrdinal]
  split_ifs <;> omega

theorem ofOrdinal_valid : (ofOrdinal n).Valid := by
  obtain ⟨hyear, hdoy, hleap⟩ := dayOfYear_bounds (doe_bounds n)
  obtain ⟨hmonth, hstart, hend⟩ := monthPrime_bounds hdoy
  generalize hd : dayOfYear ((n + 305) % 146097) = doy at *
  generalize hm : monthPrime doy = mp at *
  have hday : (ofOrdinal n).day = (doy - (153 * mp + 2) / 5 + 1).toNat := by
    simp only [ofOrdinal, hd, hm]
  have hmonth' : (ofOrdinal n).month = (if mp < 10 then mp + 3 else mp - 9).toNat := by
    simp only [ofOrdinal, hd, hm]
  refine ⟨by rw [hmonth']; split_ifs <;> omega, by rw [hmonth']; split_ifs <;> omega,
    by rw [hday]; omega, ?_⟩
  rw [hday, hmonth']
  rcases (by omega : mp = 11 ∨ mp ≤ 10) with rfl | hbefore
  · -- February: its 29th is the last day of the year
    have hyear' : (ofOrdinal n).year =
        yearOfEra ((n + 305) % 146097) + (n + 305) / 146097 * 400 + 1 := by
      simp only [ofOrdinal, hd, hm]
      norm_num
    have hlast := fun h : doy = 365 => hleap h ((n + 305) / 146097)
    rw [← hyear'] at hlast
    have hfebruary : daysInMonth (ofOrdinal n).year 2 =
        if isLeap (ofOrdinal n).year then 29 else 28 := rfl
    rw [if_neg (by decide), show (11 - 9 : ℤ).toNat = 2 from rfl, hfebruary]
    split_ifs with hisleap
    · omega
    · have := mt hlast hisleap
      omega
  · have hlength : ((153 * (mp + 1) + 2) / 5 - (153 * mp + 2) / 5).toNat =
        daysInMonth (ofOrdinal n).year (if mp < 10 then mp + 3 else mp - 9).toNat := by
      obtain ⟨hpos, -⟩ := hmonth
      interval_cases mp <;> rfl
    rw [← hlength]
    omega

theorem ordinal_ofOrdinal : (ofOrdinal n).ordinal = n := by
  obtain ⟨hyear, hdoy, -⟩ := dayOfYear_bounds (doe_bounds n)
  obtain ⟨hmonth, hstart, hend⟩ := monthPrime_bounds hdoy
  have hday : ((ofOrdinal n).day : ℤ) = dayOfYear ((n + 305) % 146097) -
      (153 * monthPrime (dayOfYear ((n + 305) % 146097)) + 2) / 5 + 1 := by
    simp only [ofOrdinal]
    omega
  rw [(ofOrdinal_valid n).ordinal_eq, Int.natCast_div]
  push_cast
  rw [ofOrdinal_marchMonth, ofOrdinal_marchYear, hday, dayOfYear]
  have hdays := Int.mul_ediv_add_emod (n + 305) 146097
  generalize (n + 305) / 146097 = era at *
  generalize (n + 305) % 146097 = doe at *
  generalize yearOfEra doe = yoe at *
  generalize (153 * monthPrime _ + 2) / 5 = before
  have hfour : (yoe + era * 400) / 4 = yoe / 4 + 100 * era := by omega
  have hcentury : (yoe + era * 400) / 100 = yoe / 100 + 4 * era := by omega
  have hera : (yoe + era * 400) / 400 = era := by omega
  rw [hfour, hcentury, hera]
  omega

end

theorem ofOrdinal_ordinal {d : Date} (h : d.Valid) : ofOrdinal d.ordinal = d :=
  ordinal_inj (ofOrdinal_valid _) h (ordinal_ofOrdinal _)

end Inverse

/-- The same day of the month some months later, or the last day of a month that is too short. -/
def addMonths (d : Date) (months : ℤ) : Date :=
  let total := d.year * 12 + d.month - 1 + months
  let month := (total % 12).toNat + 1
  { year := total / 12, month, day := min d.day (daysInMonth (total / 12) month) }

section Weeks

/-- The Monday of the week of a day. The first day of the year 1 was one. -/
def mondayOf (n : ℤ) : ℤ := n - (n - 1) % 7

/-- The Monday of the week with 4 January. -/
def isoYearStart (year : ℤ) : ℤ := mondayOf (ordinal ⟨year, 1, 4⟩)

/-- The year of the Thursday in the week of a date. -/
def isoYear (d : Date) : ℤ := (ofOrdinal (mondayOf d.ordinal + 3)).year

/-- The weeks from the first Monday of the year on, counted from 1. -/
def isoWeek (d : Date) : ℤ := (d.ordinal - isoYearStart d.isoYear) / 7 + 1

theorem isoYearStart_eq (year : ℤ) : isoYearStart year = mondayOf (yearStart year + 4) := by
  rw [isoYearStart, ordinal, monthStart_one]
  rfl

theorem isoYear_eq_iff (d : Date) (year : ℤ) :
    d.isoYear = year ↔ isoYearStart year ≤ d.ordinal ∧ d.ordinal < isoYearStart (year + 1) := by
  -- the first Thursday of a year is in the week with 4 January
  have hthursday : ∀ y, isoYearStart y ≤ d.ordinal ↔ yearStart y < mondayOf d.ordinal + 3 := by
    intro y
    rw [isoYearStart_eq]
    unfold mondayOf
    omega
  have hn := ordinal_ofOrdinal (mondayOf d.ordinal + 3)
  have hstart := (ofOrdinal_valid (mondayOf d.ordinal + 3)).yearStart_lt_ordinal
  have hend := (ofOrdinal_valid (mondayOf d.ordinal + 3)).ordinal_le_yearStart
  rw [hn] at hstart hend
  rw [← not_le, hthursday, hthursday, not_lt]
  change (ofOrdinal _).year = year ↔ _
  generalize (ofOrdinal (mondayOf d.ordinal + 3)).year = y at *
  constructor
  · rintro rfl
    exact ⟨hstart, hend⟩
  · rintro ⟨hlo, hhi⟩
    by_contra hne
    rcases lt_or_gt_of_ne hne with hlt | hgt
    · have := yearStart_mono (Int.add_one_le_of_lt hlt)
      omega
    · have := yearStart_mono (Int.add_one_le_of_lt hgt)
      omega

/-- A year has 52 whole weeks at least, and its first week starts within three days of it. -/
theorem isoYearStart_bounds (year : ℤ) :
    yearStart year - 2 ≤ isoYearStart year ∧ isoYearStart year ≤ yearStart year + 4 ∧
      isoYearStart year + 364 ≤ isoYearStart (year + 1) := by
  have hlength := yearStart_succ year
  rw [isoYearStart_eq, isoYearStart_eq]
  unfold mondayOf
  split_ifs at hlength <;> omega

end Weeks
end Date
end SkeinDB.Calendar
