import SkeinDB.Queries.Dates

/-!
# Arithmetic of dates

The days of a date are its number in the Gregorian calendar from 1970 on, as long as the code stays
in the range of its integers. The literals that are parsed are valid dates and times, and what an
interval leads to is exact or nothing unless an operator overflows.
-/
namespace SkeinDB.Queries
open SkeinDB.Calendar SkeinDB.Codec SkeinDB.Sessions SkeinDB.Tables SkeinDB.Text

section Integers
variable {v : ℤ}

theorem i32_ok (h : FitsI32 v) : i32 v = .ok v := if_pos h

theorem i32_overflow (h : ¬ FitsI32 v) : i32 v = .error .arithmeticOverflow := if_neg h

theorem i32_bind {α : Type} (h : FitsI32 v) (f : ℤ → Except Fault α) : (i32 v).bind f = f v := by
  rw [i32_ok h]
  rfl

theorem i32_bind_overflow {α : Type} (h : ¬ FitsI32 v) (f : ℤ → Except Fault α) :
    (i32 v).bind f = .error .arithmeticOverflow := by
  rw [i32_overflow h]
  rfl

theorem i64_ok (h : FitsI64 v) : i64 v = .ok v := if_pos h

theorem i64_overflow (h : ¬ FitsI64 v) : i64 v = .error .arithmeticOverflow := if_neg h

theorem asI32_eq (h : FitsI32 v) : asI32 v = v := by
  unfold FitsI32 at h
  unfold asI32
  omega

theorem asU8_eq (h : 0 ≤ v) (h' : v < 256) : asU8 v = v.toNat := by
  rw [asU8, Int.emod_eq_of_lt h h']

theorem tdiv_era (year : ℤ) : (if 0 ≤ year then year else year - 399).tdiv 400 = year / 400 := by
  split_ifs with h
  · exact Int.tdiv_eq_ediv_of_nonneg h
  · rw [← neg_neg (year - 399), Int.neg_tdiv, Int.tdiv_eq_ediv_of_nonneg (by omega)]
    omega

theorem tdiv_days (days : ℤ) :
    (if 0 ≤ days then days else days - 146096).tdiv 146097 = days / 146097 := by
  split_ifs with h
  · exact Int.tdiv_eq_ediv_of_nonneg h
  · rw [← neg_neg (days - 146096), Int.neg_tdiv, Int.tdiv_eq_ediv_of_nonneg (by omega)]
    omega

theorem tmod_eq_zero_iff (a b : ℤ) : a.tmod b = 0 ↔ a % b = 0 := by
  rw [← Int.dvd_iff_tmod_eq_zero, Int.dvd_iff_emod_eq_zero]

theorem mysqlIsLeapYear_eq (year : ℤ) : mysqlIsLeapYear year = isLeap year := by
  rw [Bool.eq_iff_iff, isLeap_iff]
  simp [mysqlIsLeapYear, tmod_eq_zero_iff]

theorem mysqlDaysInMonth_eq (year : ℤ) (month : ℕ) :
    mysqlDaysInMonth year month = daysInMonth year month := by
  unfold mysqlDaysInMonth daysInMonth
  rw [mysqlIsLeapYear_eq] <;> rfl

end Integers

section Days

/-- The first March in which the years of `i32` have room for the formulas. -/
def firstMarchYear : ℤ := -2 ^ 31 + 399

theorem mysqlDaysFromCivil_eq {date : MySqlDateParts} (hvalid : date.Valid)
    (hfits : FitsI32 date.year) :
    mysqlDaysFromCivil date =
      if firstMarchYear ≤ date.marchYear then .ok (date.ordinal - 719163)
      else .error .arithmeticOverflow := by
  have hmarch : date.year - (if date.month ≤ 2 then 1 else 0) = date.marchYear := rfl
  have hle : date.marchYear ≤ date.year := by
    rw [Date.marchYear]
    split_ifs <;> omega
  have hmonth : 153 * (date.month + if date.month > 2 then (-3 : ℤ) else 9) + 2 =
      153 * date.marchMonth + 2 := by
    have := hvalid.month_pos
    rw [Date.marchMonth]
    split_ifs <;> omega
  have hmonths : date.marchMonth ≤ 11 := by
    have := hvalid.month_le
    rw [Date.marchMonth]
    split_ifs <;> omega
  have hday := hvalid.day_le.trans (Date.daysInMonth_le date.year date.month)
  have hordinal := hvalid.ordinal_eq
  rw [mysqlDaysFromCivil, hmarch, hmonth]
  generalize date.marchYear = year at *
  unfold FitsI32 at hfits
  rw [firstMarchYear]
  by_cases hroom : -2 ^ 31 + 399 ≤ year
  · have hshifted : downShift i32 year 399 = .ok (if 0 ≤ year then year else year - 399) := by
      rw [downShift]
      split_ifs
      · rfl
      · exact i32_ok ⟨by omega, by omega⟩
    rw [if_pos hroom, i32_ok ⟨by omega, by omega⟩]
    simp only [bind, Except.bind, hshifted, tdiv_era]
    rw [i32_ok ⟨by omega, by omega⟩]
    simp only
    rw [i32_ok ⟨by omega, by omega⟩]
    simp only
    have hyear : 0 ≤ year - year / 400 * 400 := by omega
    rw [Int.tdiv_eq_ediv_of_nonneg hyear, Int.tdiv_eq_ediv_of_nonneg hyear,
      Int.tdiv_eq_ediv_of_nonneg (by omega), i32_ok ⟨by omega, by omega⟩]
    simp only
    rw [i64_ok ⟨by omega, by omega⟩]
    refine congrArg Except.ok ?_
    rw [hordinal, Int.natCast_div]
    push_cast
    omega
  · rw [if_neg hroom]
    by_cases hyear : FitsI32 year
    · rw [i32_ok hyear]
      simp only [bind, Except.bind]
      rw [downShift, if_neg (by omega), i32_overflow fun h => by unfold FitsI32 at h; omega]
    · rw [i32_overflow hyear]
      rfl

/-- The dates of whose numbers `mysql_civil_from_days` stays in the range of `i32`. -/
def firstDate : Date := ⟨-2147483600, 3, 1⟩

def lastDate : Date := ⟨2147483647, 12, 31⟩

theorem ordinal_bounds_iff (n : ℤ) :
    (firstDate.ordinal ≤ n ∧ n ≤ lastDate.ordinal) ↔
      -2147483600 ≤ (Date.ofOrdinal n).marchYear ∧ (Date.ofOrdinal n).year ≤ 2147483647 := by
  have hvalid := Date.ofOrdinal_valid n
  have hfirst : firstDate.Valid := ⟨by decide, by decide, by decide, by decide⟩
  have hlast : lastDate.Valid := ⟨by decide, by decide, by decide, by decide⟩
  have hmonth := hvalid.month_le
  have hpos := hvalid.day_pos
  have hday := hvalid.day_le.trans (Date.daysInMonth_le _ _)
  have hn := Date.ordinal_ofOrdinal n
  rw [← not_lt, ← not_lt, ← hn, Date.ordinal_lt_iff hvalid hfirst, Date.ordinal_lt_iff hlast hvalid,
    hn]
  simp only [Date.Before, Date.marchYear, firstDate, lastDate]
  split_ifs <;> omega

/-- The formulas of `mysql_civil_from_days` but for the range of the year. -/
theorem mysqlCivilFromDays_eq_bind {days : ℤ} (h : -2 ^ 47 ≤ days) (h' : days ≤ 2 ^ 47) :
    mysqlCivilFromDays days =
      (i32 ((days + 719468) / 146097 * 400)).bind fun cycles =>
        (i32 (Date.yearOfEra ((days + 719468) % 146097) + cycles)).bind fun year =>
          let date := Date.ofOrdinal (days + 719163)
          (i32 (year + if date.month ≤ 2 then 1 else 0)).bind fun year =>
            .ok { date with year } := by
  have hshifted : downShift i64 (days + 719468) 146096 =
      .ok (if 0 ≤ days + 719468 then days + 719468 else days + 719468 - 146096) := by
    rw [downShift]
    split_ifs
    · rfl
    · exact i64_ok ⟨by omega, by omega⟩
  have hera : asI32 ((days + 719468) / 146097) = (days + 719468) / 146097 :=
    asI32_eq ⟨by omega, by omega⟩
  have hdoe : days + 719468 - (days + 719468) / 146097 * 146097 = (days + 719468) % 146097 := by
    omega
  have hbounds : 0 ≤ (days + 719468) % 146097 ∧ (days + 719468) % 146097 ≤ 146096 := by omega
  have hdate : days + 719163 + 305 = days + 719468 := by ring
  rw [mysqlCivilFromDays, i64_ok ⟨by omega, by omega⟩]
  simp only [bind, Except.bind, hshifted, tdiv_days, hera, hdoe, Date.ofOrdinal, hdate]
  generalize (days + 719468) / 146097 = era
  generalize (days + 719468) % 146097 = doe at *
  obtain ⟨hyear, hdoy, -⟩ := Date.dayOfYear_bounds hbounds
  obtain ⟨hmonth, hstart, hend⟩ := Date.monthPrime_bounds hdoy
  have hyoe : (doe - doe.tdiv 1460 + doe.tdiv 36524 - doe.tdiv 146096).tdiv 365 =
      Date.yearOfEra doe := by
    rw [Int.tdiv_eq_ediv_of_nonneg hbounds.1, Int.tdiv_eq_ediv_of_nonneg hbounds.1,
      Int.tdiv_eq_ediv_of_nonneg hbounds.1, Int.tdiv_eq_ediv_of_nonneg (by omega)]
    rfl
  have hday : doe - (365 * Date.yearOfEra doe + (Date.yearOfEra doe).tdiv 4 -
      (Date.yearOfEra doe).tdiv 100) = Date.dayOfYear doe := by
    rw [Int.tdiv_eq_ediv_of_nonneg hyear.1, Int.tdiv_eq_ediv_of_nonneg hyear.1]
    rfl
  have hprime : (5 * Date.dayOfYear doe + 2).tdiv 153 = Date.monthPrime (Date.dayOfYear doe) :=
    Int.tdiv_eq_ediv_of_nonneg (by omega)
  have hasYear : asI32 (Date.yearOfEra doe) = Date.yearOfEra doe :=
    asI32_eq ⟨by omega, by omega⟩
  simp only [hyoe, hday, hprime, hasYear]
  generalize Date.dayOfYear doe = doy at *
  generalize Date.monthPrime doy = mp at *
  have hmonthU8 : asU8 (mp + if mp < 10 then 3 else -9) = (mp + if mp < 10 then 3 else -9).toNat :=
    asU8_eq (by split_ifs <;> omega) (by split_ifs <;> omega)
  rw [Int.tdiv_eq_ediv_of_nonneg (by omega), hmonthU8, asU8_eq (by omega) (by omega)]
  have hmonths : (if mp < 10 then mp + 3 else mp - 9) = mp + if mp < 10 then 3 else -9 := by
    split_ifs <;> rfl
  simp only [hmonths]
  rfl

theorem mysqlCivilFromDays_eq {days : ℤ} (h : -2 ^ 47 ≤ days) (h' : days ≤ 2 ^ 47) :
    mysqlCivilFromDays days =
      if firstDate.ordinal ≤ days + 719163 ∧ days + 719163 ≤ lastDate.ordinal then
        .ok (Date.ofOrdinal (days + 719163))
      else .error .arithmeticOverflow := by
  have hmarch := Date.ofOrdinal_marchYear (days + 719163)
  have hdate : days + 719163 + 305 = days + 719468 := by ring
  have hyear : (Date.ofOrdinal (days + 719163)).year =
      (Date.ofOrdinal (days + 719163)).marchYear +
        if (Date.ofOrdinal (days + 719163)).month ≤ 2 then 1 else 0 := by
    rw [Date.marchYear]
    ring
  have hyoe := (Date.dayOfYear_bounds (Date.doe_bounds (days + 719163))).1
  rw [mysqlCivilFromDays_eq_bind h h', if_congr (ordinal_bounds_iff _) rfl rfl]
  rw [hdate] at hmarch hyoe
  generalize Date.ofOrdinal (days + 719163) = date at *
  generalize Date.yearOfEra ((days + 719468) % 146097) = yoe at *
  generalize (days + 719468) / 146097 = era at *
  have hcarry : 0 ≤ (if date.month ≤ 2 then 1 else 0 : ℤ) := by split_ifs <;> decide
  dsimp only
  generalize (if date.month ≤ 2 then 1 else 0 : ℤ) = carry at *
  by_cases hfits : -2147483600 ≤ date.marchYear ∧ date.year ≤ 2147483647
  · rw [if_pos hfits, i32_bind ⟨by omega, by omega⟩, i32_bind ⟨by omega, by omega⟩,
      i32_bind ⟨by omega, by omega⟩, ← hmarch, ← hyear]
  · rw [if_neg hfits]
    by_cases hcycles : FitsI32 (era * 400)
    · rw [i32_bind hcycles]
      unfold FitsI32 at hcycles
      by_cases hstart : FitsI32 (yoe + era * 400)
      · rw [i32_bind hstart]
        exact i32_bind_overflow (by unfold FitsI32; omega) _
      · exact i32_bind_overflow hstart _
    · exact i32_bind_overflow hcycles _

theorem ordinal_bounds {date : MySqlDateParts} (hvalid : date.Valid) (hfits : FitsI32 date.year) :
    -2 ^ 40 ≤ date.ordinal ∧ date.ordinal ≤ 2 ^ 40 := by
  have hstart := hvalid.yearStart_lt_ordinal
  have hend := hvalid.ordinal_le_yearStart
  unfold yearStart at hstart hend
  unfold FitsI32 at hfits
  omega

theorem civil_roundTrip_iff {date : MySqlDateParts} (hvalid : date.Valid)
    (hfits : FitsI32 date.year) :
    (mysqlDaysFromCivil date).bind mysqlCivilFromDays = .ok date ↔
      firstMarchYear ≤ date.marchYear := by
  have hbounds := ordinal_bounds hvalid hfits
  rw [mysqlDaysFromCivil_eq hvalid hfits]
  by_cases hroom : firstMarchYear ≤ date.marchYear
  · have hdates : firstDate.ordinal ≤ date.ordinal ∧ date.ordinal ≤ lastDate.ordinal := by
      unfold firstMarchYear at hroom
      unfold FitsI32 at hfits
      rw [ordinal_bounds_iff, Date.ofOrdinal_ordinal hvalid]
      omega
    rw [if_pos hroom, Except.bind, mysqlCivilFromDays_eq (by omega) (by omega), sub_add_cancel,
      if_pos hdates, Date.ofOrdinal_ordinal hvalid]
    exact iff_of_true rfl hroom
  · rw [if_neg hroom]
    exact iff_of_false (fun h => by cases h) hroom

end Days

section Parsing

structure MySqlTimeParts.Valid (time : MySqlTimeParts) : Prop where
  hour_le : time.hour ≤ 23
  minute_le : time.minute ≤ 59
  second_le : time.second ≤ 59

theorem not_mem_of_mem_splitAtChar {sep : Char} {chars part : List Char}
    (h : part ∈ splitAtChar sep chars) : sep ∉ part := by
  induction chars generalizing part with
  | nil =>
    rw [splitAtChar, List.mem_singleton] at h
    exact h ▸ List.not_mem_nil
  | cons c chars ih =>
    rw [splitAtChar] at h
    split_ifs at h with hsep
    · rcases List.mem_cons.mp h with rfl | h
      · exact List.not_mem_nil
      · exact ih h
    · rcases hparts : splitAtChar sep chars with _ | ⟨first, parts⟩
      · rw [hparts] at h
        exact absurd h List.not_mem_nil
      · rw [hparts] at h ih
        rcases List.mem_cons.mp h with rfl | h
        · exact fun hmem => (List.mem_cons.mp hmem).elim (fun heq => hsep heq.symm)
            (ih List.mem_cons_self)
        · exact ih (List.mem_cons_of_mem _ h)

theorem parseI32_bounds {chars : List Char} {v : ℤ} (hsign : '-' ∉ chars)
    (h : parseI32 chars = some v) : 0 ≤ v ∧ v < 2 ^ 31 := by
  have hdigits : ∀ digits : List Char,
      ((parseDigits digits).bind fun n => if n < 2 ^ 31 then some (n : ℤ) else none) = some v →
        0 ≤ v ∧ v < 2 ^ 31 := by
    intro digits hv
    obtain ⟨n, -, hn⟩ := Option.bind_eq_some_iff.mp hv
    split_ifs at hn with hlt
    obtain rfl := Option.some.inj hn
    omega
  unfold parseI32 at h
  split at h
  · exact absurd List.mem_cons_self hsign
  · exact hdigits _ h
  · exact hdigits _ h

theorem mysqlParseDateParts_valid {text : List Char} {date : MySqlDateParts}
    (h : mysqlParseDateParts text = some date) :
    date.Valid ∧ 0 ≤ date.year ∧ date.year < 2 ^ 31 := by
  unfold mysqlParseDateParts at h
  split at h
  case h_1 year month day hparts =>
    obtain ⟨y, hy, h⟩ := Option.bind_eq_some_iff.mp h
    obtain ⟨m, -, h⟩ := Option.bind_eq_some_iff.mp h
    obtain ⟨d, -, h⟩ := Option.bind_eq_some_iff.mp h
    have hsign : '-' ∉ year := not_mem_of_mem_splitAtChar (hparts ▸ List.mem_cons_self)
    split_ifs at h with hmonth hday
    obtain rfl := Option.some.inj h
    rw [mysqlDaysInMonth_eq] at hday
    simp only [not_or, gt_iff_lt, not_lt] at hday
    exact ⟨⟨hmonth.1, hmonth.2, Nat.pos_of_ne_zero hday.1, hday.2⟩, parseI32_bounds hsign hy⟩
  case h_2 => cases h

/-- A text is cut after some bytes unless the next is in the middle of a character. -/
theorem takeBytes_isSome {n : ℕ} {chars : List Char} {b : UInt8}
    (hb : (utf8 chars)[n]? = some b) (hfirst : ¬ Continues b) : (takeBytes n chars).isSome := by
  induction chars generalizing n with
  | nil =>
    rw [utf8_nil, List.getElem?_nil] at hb
    cases hb
  | cons c chars ih =>
    rcases n with _ | n
    · rfl
    rw [takeBytes]
    obtain ⟨first, bytes, hencode, -, hnext⟩ := utf8EncodeChar_cons c
    have hsize : c.utf8Size = bytes.length + 1 := by
      rw [← String.length_utf8EncodeChar, hencode, List.length_cons]
    rw [utf8_cons, hencode, List.cons_append, List.getElem?_cons_succ] at hb
    split_ifs with hle
    · rw [List.getElem?_append_right (by omega)] at hb
      rw [Option.isSome_map]
      refine ih ?_
      rwa [hsize, Nat.add_sub_add_right]
    · rw [List.getElem?_append_left (by omega)] at hb
      exact absurd (hnext b (List.mem_of_getElem? hb)) hfirst

theorem withoutOffset_ok (text : List Char) : ∃ trimmed, withoutOffset text = .ok trimmed := by
  unfold withoutOffset
  dsimp only
  generalize List.takeWhile _ _ = trimmed
  split_ifs with hoffset
  · have hsome : (takeBytes 8 trimmed).isSome := by
      rcases hoffset with h | h
      · exact takeBytes_isSome h (not_not.mpr (by decide))
      · exact takeBytes_isSome h (not_not.mpr (by decide))
    obtain ⟨front, hfront⟩ := Option.isSome_iff_exists.mp hsome
    rw [hfront]
    exact ⟨front, rfl⟩
  · exact ⟨trimmed, rfl⟩

theorem mysqlParseTimeParts_ok (text : List Char) :
    ∃ time, mysqlParseTimeParts text = .ok time ∧ ∀ t, time = some t → t.Valid := by
  obtain ⟨trimmed, htrimmed⟩ := withoutOffset_ok text
  rw [mysqlParseTimeParts, htrimmed]
  refine ⟨_, rfl, fun t ht => ?_⟩
  split at ht
  · obtain ⟨hour, -, ht⟩ := Option.bind_eq_some_iff.mp ht
    obtain ⟨minute, -, ht⟩ := Option.bind_eq_some_iff.mp ht
    obtain ⟨second, -, ht⟩ := Option.bind_eq_some_iff.mp ht
    split_ifs at ht with hrange
    obtain rfl := Option.some.inj ht
    simp only [not_or, not_lt] at hrange
    exact ⟨hrange.1, hrange.2.1, hrange.2.2⟩
  · cases ht

variable (fmt : Formats)

theorem mysqlParseDateTimeLitParts_ok (lit : Lit) :
    ∃ parts, mysqlParseDateTimeLitParts fmt lit = .ok parts ∧
      ∀ date time, parts = some (some date, time) →
        (date.Valid ∧ 0 ≤ date.year ∧ date.year < 2 ^ 31) ∧ ∀ t, time = some t → t.Valid := by
  unfold mysqlParseDateTimeLitParts
  split
  case h_1 => exact ⟨_, rfl, fun date time h => by cases h⟩
  case h_2 text _ =>
    dsimp only
    by_cases hempty : trimChars text.toList = []
    · rw [if_pos hempty]
      exact ⟨_, rfl, fun date time h => by cases h⟩
    rw [if_neg hempty]
    split
    case h_1 dateText timeText _ =>
      rcases hdate : mysqlParseDateParts (trimChars dateText) with _ | parsed
      · exact ⟨_, rfl, fun date time h => by cases h⟩
      · obtain ⟨time, htime, hvalid⟩ := mysqlParseTimeParts_ok (trimChars timeText)
        simp only [htime]
        refine ⟨_, rfl, fun date time' h => ?_⟩
        obtain ⟨t, ht, heq⟩ := Option.map_eq_some_iff.mp h
        cases heq
        exact ⟨mysqlParseDateParts_valid hdate, fun t' ht' => hvalid t' (ht.trans ht')⟩
    case h_2 =>
      split_ifs with hdash hcolon
      · refine ⟨_, rfl, fun date time h => ?_⟩
        obtain ⟨parsed, hparsed, heq⟩ := Option.map_eq_some_iff.mp h
        cases heq
        exact ⟨mysqlParseDateParts_valid hparsed, fun t ht => by cases ht⟩
      · obtain ⟨time, htime, -⟩ := mysqlParseTimeParts_ok (trimChars text.toList)
        rw [htime]
        refine ⟨_, rfl, fun date time' h => ?_⟩
        obtain ⟨t, -, heq⟩ := Option.map_eq_some_iff.mp h
        cases heq
      · exact ⟨_, rfl, fun date time h => by cases h⟩

end Parsing

section Interval

def MySqlTimeParts.seconds (time : MySqlTimeParts) : ℤ :=
  time.hour * 3600 + time.minute * 60 + time.second

/-- The seconds from the start of the year 1970. -/
def unixSeconds (moment : MySqlDateParts × MySqlTimeParts) : ℤ :=
  (moment.1.ordinal - 719163) * 86400 + moment.2.seconds

/-- The time after some seconds of a day. -/
def timeOfDay (seconds : ℤ) : MySqlTimeParts :=
  ⟨(seconds / 3600).toNat, (seconds % 3600 / 60).toNat, (seconds % 60).toNat⟩

theorem timeOfDay_valid {seconds : ℤ} (h : 0 ≤ seconds) (h' : seconds < 86400) :
    (timeOfDay seconds).Valid := by
  refine ⟨?_, ?_, ?_⟩ <;> simp only [timeOfDay] <;> omega

theorem seconds_timeOfDay {seconds : ℤ} (h : 0 ≤ seconds) :
    (timeOfDay seconds).seconds = seconds := by
  simp only [MySqlTimeParts.seconds, timeOfDay]
  omega

theorem mysqlDatetimePartsFromUnixSeconds_eq {seconds : ℤ} (h : FitsI64 seconds) :
    mysqlDatetimePartsFromUnixSeconds seconds =
      if unixSeconds (firstDate, ⟨0, 0, 0⟩) ≤ seconds ∧
          seconds ≤ unixSeconds (lastDate, ⟨23, 59, 59⟩) then
        .ok (Date.ofOrdinal (seconds / 86400 + 719163), timeOfDay (seconds % 86400))
      else .error .arithmeticOverflow := by
  unfold FitsI64 at h
  have htime : ({ hour := asU8 ((seconds % 86400).tdiv 3600)
                  minute := asU8 (((seconds % 86400).tmod 3600).tdiv 60)
                  second := asU8 ((seconds % 86400).tmod 60) } : MySqlTimeParts) =
      timeOfDay (seconds % 86400) := by
    have hnonneg : 0 ≤ seconds % 86400 := by omega
    rw [Int.tdiv_eq_ediv_of_nonneg hnonneg, Int.tmod_eq_emod_of_nonneg hnonneg,
      Int.tmod_eq_emod_of_nonneg hnonneg, Int.tdiv_eq_ediv_of_nonneg (by omega),
      asU8_eq (by omega) (by omega), asU8_eq (by omega) (by omega), asU8_eq (by omega) (by omega)]
    rfl
  have hdates : (firstDate.ordinal ≤ seconds / 86400 + 719163 ∧
      seconds / 86400 + 719163 ≤ lastDate.ordinal) ↔
      unixSeconds (firstDate, ⟨0, 0, 0⟩) ≤ seconds ∧
        seconds ≤ unixSeconds (lastDate, ⟨23, 59, 59⟩) := by
    simp only [unixSeconds, MySqlTimeParts.seconds]
    omega
  rw [mysqlDatetimePartsFromUnixSeconds, mysqlCivilFromDays_eq (by omega) (by omega)]
  simp only [htime, if_congr hdates rfl rfl]
  split_ifs <;> rfl

/-- The months of a unit that is counted in months. -/
def IntervalUnit.months : IntervalUnit → Option ℤ
  | .year => some 12
  | .quarter => some 3
  | .month => some 1
  | _ => none

/-- The result of an interval in the proleptic Gregorian calendar, without regard to the range of
any integer. -/
def ExactlyAfter (start : MySqlDateParts × MySqlTimeParts) (unit : IntervalUnit) (amount : ℤ)
    (next : MySqlDateParts × MySqlTimeParts) : Prop :=
  match unit.months with
  | some months => next = (start.1.addMonths (amount * months), start.2)
  | none => next.1.Valid ∧ next.2.Valid ∧ unixSeconds next = unixSeconds start + amount * unit.factor

/-- No operator overflows on the way to the result: the months are added up in `i64`, and a target
in seconds is a date that `mysql_civil_from_days` converts. -/
def IntervalFits (start : MySqlDateParts × MySqlTimeParts) (unit : IntervalUnit)
    (amount : ℤ) : Prop :=
  match unit.months with
  | some months => start.1.year * 12 + start.1.month - 1 + saturatingMul amount months < 2 ^ 63
  | none => FitsI64 (amount * unit.factor) → FitsI64 (unixSeconds start + amount * unit.factor) →
      unixSeconds (firstDate, ⟨0, 0, 0⟩) ≤ unixSeconds start + amount * unit.factor ∧
        unixSeconds start + amount * unit.factor ≤ unixSeconds (lastDate, ⟨23, 59, 59⟩)

/-- A computation overflows unless a condition holds, and what it then returns is exact. -/
def Outcome {α : Type} (x : Except Fault (Option α)) (fits : Prop) (exact : α → Prop) : Prop :=
  (fits ∧ ∃ r, x = .ok r ∧ ∀ a, r = some a → exact a) ∨ (¬ fits ∧ x = .error .arithmeticOverflow)

theorem Outcome.map {α β : Type} {x : Except Fault (Option α)} {fits : Prop} {exact : α → Prop}
    {exact' : β → Prop} (h : Outcome x fits exact) (f : α → β) (hf : ∀ a, exact a → exact' (f a)) :
    Outcome (x.bind fun r => .ok (r.map f)) fits exact' := by
  rcases h with ⟨hfits, r, rfl, hexact⟩ | ⟨hfits, rfl⟩
  · refine Or.inl ⟨hfits, r.map f, rfl, fun b hb => ?_⟩
    obtain ⟨a, ha, rfl⟩ := Option.map_eq_some_iff.mp hb
    exact hf a (hexact a ha)
  · exact Or.inr ⟨hfits, rfl⟩

section Results
variable {date : MySqlDateParts} {time : MySqlTimeParts} {unit : IntervalUnit} {amount : ℤ}
  (hvalid : date.Valid) (hyear : 0 ≤ date.year) (hyear' : date.year < 2 ^ 31)
include hvalid hyear hyear'

theorem mysqlAddMonths_eq {months : ℤ} (hmonths : FitsI64 months) :
    mysqlAddMonths date months =
      if date.year * 12 + date.month - 1 + months < 2 ^ 63 then
        .ok (if FitsI32 ((date.year * 12 + date.month - 1 + months) / 12) then
          some (date.addMonths months) else none)
      else .error .arithmeticOverflow := by
  have hpos := hvalid.month_pos
  have hle := hvalid.month_le
  unfold FitsI64 at hmonths
  rw [mysqlAddMonths]
  by_cases hfits : date.year * 12 + date.month - 1 + months < 2 ^ 63
  · rw [if_pos hfits, i64_ok ⟨by omega, hfits⟩]
    simp only [bind, Except.bind, pure, Except.pure]
    rw [asU8_eq (by omega) (by omega)]
    simp only [mysqlDaysInMonth_eq]
    split_ifs <;> rfl
  · rw [if_neg hfits, i64_overflow fun h => hfits h.2]
    rfl

/-- A sum of months that is a year of `i32` was not saturated. -/
theorem saturatingMul_eq_of_fits {months : ℤ}
    (h : FitsI32 ((date.year * 12 + date.month - 1 + saturatingMul amount months) / 12)) :
    saturatingMul amount months = amount * months := by
  have hle := hvalid.month_le
  unfold FitsI32 saturatingMul at h
  unfold saturatingMul
  omega

theorem mysqlAddMonths_outcome (months : ℤ) :
    Outcome (mysqlAddMonths date (saturatingMul amount months))
      (date.year * 12 + date.month - 1 + saturatingMul amount months < 2 ^ 63)
      fun d => d = date.addMonths (amount * months) := by
  have hrange : FitsI64 (saturatingMul amount months) := by
    unfold FitsI64 saturatingMul
    omega
  rw [mysqlAddMonths_eq hvalid hyear hyear' hrange]
  split_ifs with hsum hfits
  · refine Or.inl ⟨hsum, _, rfl, fun d h => ?_⟩
    rw [← saturatingMul_eq_of_fits hvalid hyear hyear' hfits]
    exact (Option.some.inj h).symm
  · exact Or.inl ⟨hsum, _, rfl, fun d h => by cases h⟩
  · exact Or.inr ⟨hsum, rfl⟩

theorem targetSeconds_eq (htime : time.Valid) :
    targetSeconds (date.ordinal - 719163) time unit amount =
      if FitsI64 (amount * unit.factor) ∧ FitsI64 (unixSeconds (date, time) + amount * unit.factor)
      then some (unixSeconds (date, time) + amount * unit.factor) else none := by
  have hbounds := ordinal_bounds hvalid ⟨by omega, hyear'⟩
  have hhour := htime.hour_le
  have hminute := htime.minute_le
  have hsecond := htime.second_le
  have hchecked : ∀ v : ℤ, FitsI64 v → checkedI64 v = some v := fun v h => if_pos h
  have hnone : ∀ v : ℤ, ¬ FitsI64 v → checkedI64 v = none := fun v h => if_neg h
  rw [targetSeconds, hchecked _ ⟨by omega, by omega⟩]
  simp only [bind, Option.bind]
  rw [hchecked _ ⟨by omega, by omega⟩]
  simp only
  rw [hchecked _ ⟨by omega, by omega⟩]
  simp only
  rw [hchecked _ ⟨by omega, by omega⟩]
  simp only
  have hbase : (date.ordinal - 719163) * 86400 + time.hour * 3600 + time.minute * 60 +
      time.second = unixSeconds (date, time) := by
    simp only [unixSeconds, MySqlTimeParts.seconds]
    ring
  rw [hbase]
  by_cases hoffset : FitsI64 (amount * unit.factor)
  · rw [hchecked _ hoffset]
    simp only
    by_cases htarget : FitsI64 (unixSeconds (date, time) + amount * unit.factor)
    · rw [if_pos ⟨hoffset, htarget⟩, hchecked _ htarget]
    · rw [if_neg fun h => htarget h.2, hnone _ htarget]
  · rw [if_neg fun h => hoffset h.1, hnone _ hoffset]

theorem addSeconds_outcome (htime : time.Valid) (hunit : unit.months = none) :
    Outcome ((mysqlDaysFromCivil date).bind fun days =>
        match targetSeconds days time unit amount with
        | none => .ok none
        | some target => (mysqlDatetimePartsFromUnixSeconds target).bind fun next =>
            .ok (some next))
      (IntervalFits (date, time) unit amount) (ExactlyAfter (date, time) unit amount) := by
  have hroom : firstMarchYear ≤ date.marchYear := by
    rw [firstMarchYear, Date.marchYear]
    split_ifs <;> omega
  rw [mysqlDaysFromCivil_eq hvalid ⟨by omega, hyear'⟩, if_pos hroom, Except.bind,
    targetSeconds_eq hvalid hyear hyear' htime]
  unfold Outcome
  simp only [ExactlyAfter, IntervalFits, hunit]
  generalize unixSeconds (date, time) + amount * unit.factor = target
  by_cases hfits : FitsI64 (amount * unit.factor) ∧ FitsI64 target
  · rw [if_pos hfits]
    simp only [mysqlDatetimePartsFromUnixSeconds_eq hfits.2]
    have hday : 0 ≤ target % 86400 ∧ target % 86400 < 86400 := by omega
    split_ifs with hrange
    · refine Or.inl ⟨fun _ _ => hrange, _, rfl, fun next h => ?_⟩
      cases h
      refine ⟨Date.ofOrdinal_valid _, timeOfDay_valid hday.1 hday.2, ?_⟩
      rw [unixSeconds, Date.ordinal_ofOrdinal, seconds_timeOfDay hday.1]
      omega
    · exact Or.inr ⟨fun h => hrange (h hfits.1 hfits.2), rfl⟩
  · rw [if_neg hfits]
    exact Or.inl ⟨fun h h' => absurd ⟨h, h'⟩ hfits, none, rfl, fun next h => by cases h⟩

theorem addInterval_outcome (htime : time.Valid) (hamount : FitsI64 amount) :
    Outcome (addInterval date time unit amount) (IntervalFits (date, time) unit amount)
      (ExactlyAfter (date, time) unit amount) := by
  have hmonths : ∀ k, Outcome ((mysqlAddMonths date (saturatingMul amount k)).bind fun d =>
      .ok (d.map (·, time))) (date.year * 12 + date.month - 1 + saturatingMul amount k < 2 ^ 63)
      fun next => next = (date.addMonths (amount * k), time) := fun k =>
    (mysqlAddMonths_outcome hvalid hyear hyear' k).map (·, time) fun d hd => by rw [hd]
  cases unit with
  | year => exact hmonths 12
  | quarter => exact hmonths 3
  | month =>
    have hone : saturatingMul amount 1 = amount := by
      unfold FitsI64 at hamount
      unfold saturatingMul
      omega
    have hmonth := hmonths 1
    rw [hone] at hmonth
    simp only [IntervalFits, IntervalUnit.months, hone]
    exact hmonth
  | week => exact addSeconds_outcome hvalid hyear hyear' htime rfl
  | day => exact addSeconds_outcome hvalid hyear hyear' htime rfl
  | hour => exact addSeconds_outcome hvalid hyear hyear' htime rfl
  | minute => exact addSeconds_outcome hvalid hyear hyear' htime rfl
  | second => exact addSeconds_outcome hvalid hyear hyear' htime rfl

end Results

variable (fmt : Formats) (value : Lit) (unit : String) (amount : ℤ)

/-- An interval is added without overflow, and what is returned is exact. -/
def AddsExactly : Prop :=
  ∃ r, mysqlDatetimeAddIntervalLit fmt value unit amount = .ok r ∧
    ∀ lit, r = some lit → ∃ date time u next,
      mysqlParseDateTimeLitParts fmt value = .ok (some (some date, time)) ∧
      intervalUnit unit = some u ∧
      ExactlyAfter (date, time.getD ⟨0, 0, 0⟩) u amount next ∧
      lit = intervalLit time.isSome u next

/-- The interval of a date and a unit that are understood leads to no overflow. -/
def AddFits : Prop :=
  ∀ date time u, mysqlParseDateTimeLitParts fmt value = .ok (some (some date, time)) →
    intervalUnit unit = some u → IntervalFits (date, time.getD ⟨0, 0, 0⟩) u amount

theorem addsExactly_iff (hamount : FitsI64 amount) :
    AddsExactly fmt value unit amount ↔ AddFits fmt value unit amount := by
  obtain ⟨parts, hparts, hvalid⟩ := mysqlParseDateTimeLitParts_ok fmt value
  unfold AddsExactly AddFits
  rw [mysqlDatetimeAddIntervalLit, hparts]
  simp only [bind, Except.bind, pure, Except.pure, Except.ok.injEq]
  rcases parts with _ | ⟨_ | date, time⟩
  · exact iff_of_true ⟨none, rfl, fun lit h => by cases h⟩ fun date time u h => by cases h
  · exact iff_of_true ⟨none, rfl, fun lit h => by cases h⟩ fun date time u h => by cases h
  rcases hunit : intervalUnit unit with _ | u
  · exact iff_of_true ⟨none, rfl, fun lit h => by cases h⟩ fun date time u _ h => by cases h
  obtain ⟨⟨hdate, hyear, hyear'⟩, htimes⟩ := hvalid date time rfl
  have htime : (time.getD ⟨0, 0, 0⟩).Valid := by
    rcases time with _ | t
    · exact ⟨by decide, by decide, by decide⟩
    · exact htimes t rfl
  simp only [Option.some.injEq, Prod.mk.injEq]
  have houtcome : Outcome (addInterval date (time.getD ⟨0, 0, 0⟩) u amount) _ _ :=
    addInterval_outcome hdate hyear hyear' htime hamount
  rcases houtcome with ⟨hfits, r, hr, hexact⟩ | ⟨hfits, hr⟩
  · rw [hr]
    refine iff_of_true ⟨_, rfl, fun lit hlit => ?_⟩ ?_
    · obtain ⟨next, hnext, rfl⟩ := Option.map_eq_some_iff.mp hlit
      exact ⟨date, time, u, next, ⟨rfl, rfl⟩, rfl, hexact next hnext, rfl⟩
    · rintro _ _ _ ⟨rfl, rfl⟩ rfl
      exact hfits
  · rw [hr]
    exact iff_of_false (fun ⟨r, h, _⟩ => by cases h) fun h => hfits (h date time u ⟨rfl, rfl⟩ rfl)

/-- The days of a date are exact, in order and in a row as far as `i32` has room for the formulas,
and intervals are exact as long as none of them leads out of the range of the integers. -/
theorem civilDates_exact_iff {date date' : MySqlDateParts} (hvalid : date.Valid)
    (hvalid' : date'.Valid) (hfits : FitsI32 date.year) (hfits' : FitsI32 date'.year)
    (hamount : FitsI64 amount) :
    ((mysqlDaysFromCivil date).bind mysqlCivilFromDays = .ok date ↔
        firstMarchYear ≤ date.marchYear) ∧
      ((∃ days days', mysqlDaysFromCivil date = .ok days ∧ mysqlDaysFromCivil date' = .ok days' ∧
          (date.Before date' → days < days') ∧ (date' = date.next → days' = days + 1)) ↔
        firstMarchYear ≤ date.marchYear ∧ firstMarchYear ≤ date'.marchYear) ∧
      (AddsExactly fmt value unit amount ↔ AddFits fmt value unit amount) := by
  refine ⟨civil_roundTrip_iff hvalid hfits, ?_, addsExactly_iff fmt value unit amount hamount⟩
  rw [mysqlDaysFromCivil_eq hvalid hfits, mysqlDaysFromCivil_eq hvalid' hfits']
  constructor
  · rintro ⟨days, days', hdays, hdays', -⟩
    split_ifs at hdays hdays' with hroom hroom'
    exact ⟨hroom, hroom'⟩
  · rintro ⟨hroom, hroom'⟩
    refine ⟨_, _, if_pos hroom, if_pos hroom', fun hbefore => ?_, ?_⟩
    · have := Date.ordinal_lt_of_before hvalid hvalid' hbefore
      omega
    · rintro rfl
      rw [Date.ordinal_next hvalid]
      ring

def emptyFormats : Formats := ⟨fun _ => none, fun _ => "", fun _ => ""⟩

theorem civilDates_exact_sample :
    (⟨2024, 2, 28⟩ : Date).next = ⟨2024, 2, 29⟩ ∧
      (mysqlDaysFromCivil ⟨2024, 2, 28⟩).bind mysqlCivilFromDays = .ok ⟨2024, 2, 28⟩ :=
  have hvalid : (⟨2024, 2, 28⟩ : Date).Valid := ⟨by decide, by decide, by decide, by decide⟩
  have hvalid' : (⟨2024, 2, 29⟩ : Date).Valid := ⟨by decide, by decide, by decide, by decide⟩
  ⟨by decide, (civilDates_exact_iff emptyFormats .null "day" 1 hvalid hvalid' (by decide)
    (by decide) (by decide)).1.mpr (by decide)⟩

/-- A trillion days after the end of January 2024 the year is beyond `i32`. -/
theorem trillion_days_overflow :
    ¬ AddsExactly emptyFormats (.str "2024-01-31") "day" 1000000000000 := by
  rintro ⟨r, hr, -⟩
  have hfault : mysqlDatetimeAddIntervalLit emptyFormats (.str "2024-01-31") "day" 1000000000000 =
      .error .arithmeticOverflow := rfl
  rw [hfault] at hr
  cases hr

end Interval

end SkeinDB.Queries
