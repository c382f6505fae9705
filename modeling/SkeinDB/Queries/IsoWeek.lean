import SkeinDB.Queries.DateArithmetic

/-!
# Weeks of the year

`skeindb/src/engine.rs`: `mysql_iso_week` counts from the Monday of the week with 4 January. Days
before it belong to the year before, and the last days of a year may belong to the next.
-/
namespace SkeinDB.Queries
open SkeinDB.Calendar SkeinDB.Codec

/-- The Monday of the week with 4 January of a year, in days from 1970 on. -/
def jan4Monday (year : ℤ) : Except Fault ℤ := do
  let jan4 ← mysqlDaysFromCivil ⟨year, 1, 4⟩
  return jan4 - (jan4 + 3) % 7

def mysqlIsoWeek (date : MySqlDateParts) : Except Fault ℕ := do
  let isoYearStart ← jan4Monday date.year
  let currentDay ← mysqlDaysFromCivil date
  let diff := currentDay - isoYearStart
  if diff < 0 then
    let prevIsoStart ← i32 (date.year - 1) >>= jan4Monday
    return asU8 ((currentDay - prevIsoStart).tdiv 7 + 1)
  else if asU8 (diff.tdiv 7 + 1) > 52 then
    let nextIsoStart ← i32 (date.year + 1) >>= jan4Monday
    return if currentDay ≥ nextIsoStart then 1 else asU8 (diff.tdiv 7 + 1)
  else
    return asU8 (diff.tdiv 7 + 1)

theorem jan4_valid (year : ℤ) : (⟨year, 1, 4⟩ : Date).Valid :=
  ⟨le_rfl, by simp, by simp, by simp [daysInMonth]⟩

theorem jan4Monday_eq {year : ℤ} (hfits : FitsI32 year) :
    jan4Monday year =
      if firstMarchYear < year then .ok (Date.isoYearStart year - 719163)
      else .error .arithmeticOverflow := by
  rw [jan4Monday, mysqlDaysFromCivil_eq (jan4_valid year) hfits]
  have hmarch : firstMarchYear ≤ (⟨year, 1, 4⟩ : Date).marchYear ↔ firstMarchYear < year := by
    rw [Date.marchYear, if_pos (by norm_num)]
    exact Int.le_sub_one_iff
  rw [if_congr hmarch rfl rfl]
  split_ifs
  · refine congrArg Except.ok ?_
    rw [Date.isoYearStart, Date.mondayOf]
    omega
  · rfl

/-- The week with 4 January of the first year whose formulas have room for it starts before the
year does. -/
theorem isoYearStart_first :
    Date.isoYearStart (firstMarchYear + 1) ≤ yearStart (firstMarchYear + 1) + 1 := by decide

section Week
variable {date : MySqlDateParts}

/-- The weeks of a date in its own ISO year fit in `u8`. -/
theorem isoWeek_eq {year : ℤ} (h : date.isoYear = year) :
    (asU8 ((date.ordinal - 719163 - (Date.isoYearStart year - 719163)).tdiv 7 + 1) : ℤ) =
      date.isoWeek := by
  obtain ⟨hstart, hend⟩ := (Date.isoYear_eq_iff date year).mp h
  have hbounds := Date.isoYearStart_bounds year
  have hnext := Date.isoYearStart_bounds (year + 1)
  have hlength := yearStart_succ year
  have hdays : date.ordinal - 719163 - (Date.isoYearStart year - 719163) =
      date.ordinal - Date.isoYearStart year := by ring
  rw [hdays, Int.tdiv_eq_ediv_of_nonneg (by omega), Date.isoWeek, h]
  have hlt : date.ordinal - Date.isoYearStart year < 1000 := by
    split_ifs at hlength <;> omega
  rw [asU8_eq (by omega) (by omega)]
  omega

theorem mysqlIsoWeek_eq (hvalid : date.Valid) (hroom : firstMarchYear < date.year)
    (hprev : FitsI32 (date.year - 1)) (hnext : FitsI32 (date.year + 1)) :
    ∃ week, mysqlIsoWeek date = .ok week ∧ (week : ℤ) = date.isoWeek := by
  have hfits : FitsI32 date.year := ⟨by have := hprev.1; omega, by have := hnext.2; omega⟩
  have hmarch : firstMarchYear ≤ date.marchYear := by
    rw [Date.marchYear]
    split_ifs <;> omega
  have hlo := hvalid.yearStart_lt_ordinal
  have hhi := hvalid.ordinal_le_yearStart
  have hstart := Date.isoYearStart_bounds date.year
  have hstart' := Date.isoYearStart_bounds (date.year + 1)
  have hbefore := Date.isoYearStart_bounds (date.year - 1)
  rw [sub_add_cancel] at hbefore
  rw [mysqlIsoWeek, jan4Monday_eq hfits, if_pos hroom, mysqlDaysFromCivil_eq hvalid hfits,
    if_pos hmarch]
  simp only [bind, Except.bind, i32_ok hprev, i32_ok hnext, jan4Monday_eq hprev,
    jan4Monday_eq hnext]
  rw [if_pos (by omega : firstMarchYear < date.year + 1)]
  by_cases hearly : date.ordinal - 719163 - (Date.isoYearStart date.year - 719163) < 0
  · -- the last week of the year before
    have hroom' : firstMarchYear < date.year - 1 := by
      by_contra hlast
      have hfirst := isoYearStart_first
      rw [(by omega : firstMarchYear + 1 = date.year)] at hfirst
      omega
    have hyear : date.isoYear = date.year - 1 := by
      have hprevStart := yearStart_mono (by omega : date.year - 1 ≤ date.year)
      have hlength := yearStart_succ (date.year - 1)
      rw [sub_add_cancel] at hlength
      rw [Date.isoYear_eq_iff, sub_add_cancel]
      split_ifs at hlength <;> omega
    rw [if_pos hearly, if_pos hroom']
    exact ⟨_, rfl, isoWeek_eq hyear⟩
  · rw [if_neg hearly]
    by_cases hlate : Date.isoYearStart (date.year + 1) ≤ date.ordinal
    · -- the first week of the year after, whose days are too many for this year's last week
      have hyear : date.isoYear = date.year + 1 := by
        have hlength := yearStart_succ (date.year + 1)
        have hafter := Date.isoYearStart_bounds (date.year + 1 + 1)
        rw [Date.isoYear_eq_iff]
        split_ifs at hlength <;> omega
      have hweeks := Int.tdiv_eq_ediv_of_nonneg (not_lt.mp hearly) (b := 7)
      have hlength := yearStart_succ date.year
      have hweek : 52 < asU8 ((date.ordinal - 719163 -
          (Date.isoYearStart date.year - 719163)).tdiv 7 + 1) := by
        rw [hweeks]
        rw [asU8_eq (by omega) (by split_ifs at hlength <;> omega)]
        omega
      rw [if_pos hweek]
      refine ⟨1, congrArg Except.ok (if_pos (by omega)), ?_⟩
      rw [Date.isoWeek, hyear]
      omega
    · have hyear : date.isoYear = date.year :=
        (Date.isoYear_eq_iff date date.year).mpr ⟨by omega, not_le.mp hlate⟩
      have hweek := isoWeek_eq hyear
      split_ifs with hlong
      · exact ⟨_, congrArg Except.ok (if_neg (by omega)), hweek⟩
      · exact ⟨_, rfl, hweek⟩

/-- The week is the one of ISO 8601 exactly if the formulas of the days have room for the start of
the year. -/
theorem mysqlIsoWeek_iff (hvalid : date.Valid) (hprev : FitsI32 (date.year - 1))
    (hnext : FitsI32 (date.year + 1)) :
    (∃ week, mysqlIsoWeek date = .ok week ∧ (week : ℤ) = date.isoWeek) ↔
      firstMarchYear < date.year := by
  refine ⟨fun ⟨week, hweek, _⟩ => ?_, fun hroom => mysqlIsoWeek_eq hvalid hroom hprev hnext⟩
  by_contra hroom
  have hfits : FitsI32 date.year := ⟨by have := hprev.1; omega, by have := hnext.2; omega⟩
  rw [mysqlIsoWeek, jan4Monday_eq hfits, if_neg hroom] at hweek
  cases hweek

theorem mysqlIsoWeek_iff_sample :
    ∃ week, mysqlIsoWeek ⟨2021, 1, 3⟩ = .ok week ∧ (week : ℤ) = Date.isoWeek ⟨2021, 1, 3⟩ :=
  have hvalid : (⟨2021, 1, 3⟩ : Date).Valid := ⟨by decide, by decide, by decide, by decide⟩
  (mysqlIsoWeek_iff hvalid (by decide) (by decide)).mpr (by decide)

/-- The formulas take 399 years from a year that is among the first of `i32`. -/
theorem first_years_overflow : ¬ ∃ week, mysqlIsoWeek ⟨-2147483600, 6, 1⟩ = .ok week ∧
    (week : ℤ) = Date.isoWeek ⟨-2147483600, 6, 1⟩ := by
  rintro ⟨week, hweek, -⟩
  have hfault : mysqlIsoWeek ⟨-2147483600, 6, 1⟩ = .error .arithmeticOverflow := rfl
  rw [hfault] at hweek
  cases hweek

end Week

end SkeinDB.Queries
