import Mathlib

/-!
# The calendar of the guest's libc

`localtime_core` walks from 1970 to the year of a time, forwards or backwards.  `mktime_core`
walks forwards only: for a year before 1970 its loop does not run.
-/

namespace Waste.Libc

/-- The conversion to `i32`. -/
def toI32 (n : Int) : Int := n.bmod (2 ^ 32)

/-- `WasteTm`. -/
structure Tm where
  sec : Int
  min : Int
  hour : Int
  mday : Int
  mon : Nat
  year : Int
  wday : Int
  yday : Int
  isdst : Int
deriving DecidableEq

variable (y : Int)

def leap : Bool := y.tmod 4 = 0 ∧ (y.tmod 100 ≠ 0 ∨ y.tmod 400 = 0)

/-- `leap(year)?366:365`. -/
def yearDays (year : Int) : Int := if leap year then 366 else 365

/-- `month_days[month]+(month==1&&leap(year))`. -/
def monthDays (year : Int) (month : Nat) : Int :=
  [31, 28, 31, 30, 31, 30, 31, 31, 30, 31, 30, 31].getD month 0 +
    if month = 1 ∧ leap year then 1 else 0

theorem yearDays_pos (year : Int) : 365 ≤ yearDays year := by
  unfold yearDays
  split_ifs <;> decide

/-- The first loop over years. -/
def yearsUp (days year : Int) : Int × Int :=
  if yearDays year ≤ days then yearsUp (days - yearDays year) (year + 1) else (days, year)
termination_by days.toNat
decreasing_by
  have := yearDays_pos year
  omega

/-- The second loop over years. -/
def yearsDown (days year : Int) : Int × Int :=
  if days < 0 then yearsDown (days + yearDays (year - 1)) (year - 1) else (days, year)
termination_by (-days).toNat
decreasing_by
  have := yearDays_pos (year - 1)
  omega

/-- The loop over months. -/
def monthsUp (year days : Int) (month : Nat) : Int × Nat :=
  if month < 11 ∧ monthDays year month ≤ days then
    monthsUp year (days - monthDays year month) (month + 1)
  else (days, month)
termination_by 11 - month

/-- The days and the seconds of the last day. -/
def splitDays (seconds : Int) : Int × Int :=
  if seconds.tmod 86400 < 0 then (seconds.tdiv 86400 - 1, seconds.tmod 86400 + 86400)
  else (seconds.tdiv 86400, seconds.tmod 86400)

def weekday (days : Int) : Int :=
  if (days + 4).tmod 7 < 0 then (days + 4).tmod 7 + 7 else (days + 4).tmod 7

/-- `localtime_core`. -/
def localtimeCore (timer : Int) : Tm :=
  let (days, rest) := splitDays timer
  let up := yearsUp days 1970
  let (yday, year) := yearsDown up.1 up.2
  let (day, month) := monthsUp year yday 0
  { sec := rest % 60, min := rest / 60 % 60, hour := rest / 3600, mday := day + 1, mon := month,
    year := toI32 (year - 1900), wday := weekday days, yday, isdst := 0 }

def localtime (timer : Int) : Tm := localtimeCore timer

def gmtime (timer : Int) : Tm := localtimeCore timer

/-- A `for` loop that adds `f i` to `days` for `i` from 0. -/
def addUp (f : Nat → Int) (count : Nat) (days : Int) : Int :=
  (List.range count).foldl (fun days i => days + f i) days

/-- `mktime_core`. -/
def mktime (tm : Tm) : Int :=
  let y := toI32 (tm.year + 1900)
  let days := addUp (fun i => yearDays (1970 + i)) (y - 1970).toNat 0
  let days := addUp (monthDays y) tm.mon days
  (days + (tm.mday - 1)) * 86400 + tm.hour * 3600 + tm.min * 60 + tm.sec

/-! ## The proleptic Gregorian calendar -/

/-- The days from 1 January 1970 to 1 January of a year: a leap day in every fourth year, but
not in every hundredth, but in every four hundredth. -/
def yearStart : Int :=
  365 * (y - 1970) + (y - 1) / 4 - (y - 1) / 100 + (y - 1) / 400 - 477

def monthLength (month : Nat) : Int :=
  if month = 1 then if 4 ∣ y ∧ (¬ 100 ∣ y ∨ 400 ∣ y) then 29 else 28
  else if month ∈ [3, 5, 8, 10] then 30 else 31

/-- The days of a year before a month. -/
def monthStart (month : Nat) : Int := ∑ i ∈ Finset.range month, monthLength y i

/-- The fields are the date and the time of day, in UTC, of `t` seconds after 1970. -/
structure IsDate (t : Int) (tm : Tm) : Prop where
  mon : tm.mon ≤ 11
  mday : 1 ≤ tm.mday ∧ tm.mday ≤ monthLength (tm.year + 1900) tm.mon
  yday : tm.yday = monthStart (tm.year + 1900) tm.mon + (tm.mday - 1)
  hour : 0 ≤ tm.hour ∧ tm.hour < 24
  min : 0 ≤ tm.min ∧ tm.min < 60
  sec : 0 ≤ tm.sec ∧ tm.sec < 60
  time : t =
    (yearStart (tm.year + 1900) + tm.yday) * 86400 + tm.hour * 3600 + tm.min * 60 + tm.sec
  -- 1 January 1970 was a Thursday
  wday : tm.wday = (yearStart (tm.year + 1900) + tm.yday + 4) % 7

theorem leap_iff : leap y ↔ 4 ∣ y ∧ (¬ 100 ∣ y ∨ 400 ∣ y) := by
  simp [leap, Int.dvd_iff_tmod_eq_zero]

theorem yearStart_succ : yearStart (y + 1) = yearStart y + yearDays y := by
  simp only [yearStart, yearDays, leap_iff]
  split_ifs <;> omega

theorem yearStart_strictMono : StrictMono yearStart := by
  apply strictMono_int_of_lt_succ
  intro y
  have hdays := yearDays_pos y
  rw [yearStart_succ]
  omega

theorem monthDays_eq {y : Int} {month : Nat} (hmonth : month ≤ 11) :
    monthDays y month = monthLength y month := by
  simp only [monthDays, monthLength, leap_iff]
  interval_cases month <;> simp
  split_ifs <;> rfl

theorem monthStart_succ (month : Nat) :
    monthStart y (month + 1) = monthStart y month + monthLength y month := Finset.sum_range_succ _ _

theorem monthStart_year : monthStart y 12 = yearDays y := by
  simp only [monthStart, Finset.sum_range_succ, monthLength, yearDays, leap_iff]
  by_cases hleap : 4 ∣ y ∧ (¬ 100 ∣ y ∨ 400 ∣ y) <;> simp [hleap]

theorem splitDays_eq (t : Int) : splitDays t = (t / 86400, t % 86400) := by
  simp only [splitDays, Int.tmod_eq_emod, Int.tdiv_eq_ediv]
  have hsign : Int.sign 86400 = 1 := rfl
  split_ifs <;> simp only [Prod.mk.injEq, hsign] <;> omega

theorem weekday_eq (days : Int) : weekday days = (days + 4) % 7 := by
  simp only [weekday, Int.tmod_eq_emod]
  split_ifs <;> omega

theorem yearsUp_spec (days year : Int) : let (d, y) := yearsUp days year
    yearStart y + d = yearStart year + days ∧ d < yearDays y := by
  fun_induction yearsUp days year with
  | case1 days year hle ih =>
    have hsucc := yearStart_succ year
    grind
  | case2 days year hle => grind

theorem yearsDown_spec (days year : Int) (hdays : days < yearDays year) :
    let (d, y) := yearsDown days year
    yearStart y + d = yearStart year + days ∧ 0 ≤ d ∧ d < yearDays y := by
  fun_induction yearsDown days year with
  | case1 days year hneg ih =>
    have hsucc := yearStart_succ (year - 1)
    grind
  | case2 days year hneg => grind

theorem monthsUp_spec (year days : Int) (month : Nat) (hmonth : month ≤ 11) (hdays : 0 ≤ days)
    (hend : monthStart year month + days < yearDays year) : let (d, m) := monthsUp year days month
    monthStart year m + d = monthStart year month + days ∧ m ≤ 11 ∧ 0 ≤ d ∧
      d < monthLength year m := by
  fun_induction monthsUp year days month with
  | case1 days month hle ih =>
    have hsucc := monthStart_succ year month
    have hlen := monthDays_eq (y := year) hmonth
    grind
  | case2 days month hle =>
    have hlen := monthDays_eq (y := year) hmonth
    have hyear := monthStart_year year
    have hsucc := monthStart_succ year month
    grind

theorem addUp_eq (f : Nat → Int) (count : Nat) (days : Int) :
    addUp f count days = days + ∑ i ∈ .range count, f i := by
  unfold addUp
  induction count with
  | zero => simp
  | succ count ih =>
    rw [List.range_succ, List.foldl_append, ih, Finset.sum_range_succ, ← add_assoc]
    rfl

theorem sum_yearDays (count : Nat) :
    ∑ i ∈ .range count, yearDays (1970 + i) = yearStart (1970 + count) := by
  induction count with
  | zero => decide
  | succ count ih =>
    rw [Finset.sum_range_succ, ih, ← yearStart_succ]
    push_cast
    rw [add_assoc]

/-! ## The conversions -/

/-- The fields are the date, but for the year, which has to fit. -/
theorem localtimeCore_isDate (t : Int) :
    ∃ year, IsDate t { localtimeCore t with year := year - 1900 } ∧
      (localtimeCore t).year = toI32 (year - 1900) ∧
      yearStart year ≤ t / 86400 ∧ t / 86400 < yearStart (year + 1) := by
  obtain ⟨hup, hupLt⟩ := yearsUp_spec (t / 86400) 1970
  obtain ⟨hdown, hyday, hydayLt⟩ := yearsDown_spec _ _ hupLt
  obtain ⟨hday, hmonth, hmday, hmdayLt⟩ :=
    monthsUp_spec _ _ 0 (by decide) hyday (by simpa [monthStart] using hydayLt)
  unfold localtimeCore
  rw [splitDays_eq]
  dsimp only
  generalize yearsDown (yearsUp (t / 86400) 1970).1 (yearsUp (t / 86400) 1970).2 = at_ at *
  generalize monthsUp at_.2 at_.1 0 = day at *
  have hzero : yearStart 1970 = 0 := by decide
  refine ⟨at_.2, ⟨hmonth, ?_, ?_, ?_, ?_, ?_, ?_, ?_⟩, rfl, ?_⟩
  all_goals simp only [sub_add_cancel, weekday_eq, yearStart_succ]
  · omega
  · simp [monthStart] at hday ⊢
    omega
  all_goals omega

theorem toI32_eq {n : Int} (hlo : -2 ^ 31 ≤ n) (hhi : n < 2 ^ 31) : toI32 n = n :=
  Int.bmod_eq_of_le (by simpa using hlo) (by simpa using hhi)

theorem toI32_sub_add (n : Int) : toI32 (toI32 (n - 1900) + 1900) = toI32 n := by
  simp [toI32]

/-- The loop over years stops at once for a year before 1970. -/
theorem sum_years :
    addUp (fun i => yearDays (1970 + i)) (y - 1970).toNat 0 = max 0 (yearStart y) := by
  rw [addUp_eq, sum_yearDays, zero_add]
  unfold yearStart
  omega

theorem mktime_eq {t year : Int} {tm : Tm} (h : IsDate t { tm with year := year - 1900 })
    (hyear : toI32 (tm.year + 1900) = year) :
    mktime tm = t - min 0 (yearStart year) * 86400 := by
  obtain ⟨hmon, -, hyday, -, -, -, htime, -⟩ := h
  simp only [sub_add_cancel] at *
  have hmonths : ∑ i ∈ .range tm.mon, monthDays year i = monthStart year tm.mon := by
    apply Finset.sum_congr rfl
    intro i hi
    exact monthDays_eq (by grind)
  simp only [mktime]
  rw [hyear, sum_years, addUp_eq, hmonths, htime, hyday]
  omega

/-- The fields of a time are its date if its year since 1900 fits too, and `mktime` of them is
the time again exactly if it is not before 1970. -/
theorem calendar_round_trip_iff {t : Int} (hfirst : yearStart (-2 ^ 31) * 86400 ≤ t)
    (hlast : t < yearStart (2 ^ 31) * 86400) :
    (yearStart (1900 - 2 ^ 31) * 86400 ≤ t → IsDate t (localtime t) ∧ IsDate t (gmtime t)) ∧
      (IsDate t (localtime t) ∧ IsDate t (gmtime t) ∧ mktime (localtime t) = t ↔ 0 ≤ t) := by
  obtain ⟨year, hdate, hyear, hstart, hend⟩ := localtimeCore_isDate t
  have hmono {a b : Int} := yearStart_strictMono.lt_iff_lt (a := a) (b := b)
  have hzero : yearStart 1970 = 0 := by decide
  have hlo : -2 ^ 31 < year + 1 := hmono.1 (by omega)
  have hhi : year < 2 ^ 31 := hmono.1 (by omega)
  have hback : toI32 ((localtimeCore t).year + 1900) = year := by
    rw [hyear, toI32_sub_add, toI32_eq (by omega) hhi]
  have hmktime := mktime_eq hdate hback
  have hdates (hlow : 1900 - 2 ^ 31 < year + 1) : IsDate t (localtime t) ∧ IsDate t (gmtime t) := by
    rw [toI32_eq (by omega) (by omega)] at hyear
    rw [← hyear] at hdate
    exact ⟨hdate, hdate⟩
  refine ⟨fun hlow => hdates (hmono.1 (by omega)), ?_, fun hpos => ?_⟩
  · rintro ⟨-, -, hsame⟩
    rw [localtime, hmktime] at hsame
    omega
  · have hyear1970 : 1970 < year + 1 := hmono.1 (by omega)
    refine ⟨(hdates (by omega)).1, (hdates (by omega)).2, ?_⟩
    rw [localtime, hmktime]
    have := yearStart_strictMono.monotone (show 1970 ≤ year by omega)
    omega

/-- 29 February 2000. -/
theorem calendar_round_trip_leap_day : mktime (localtime 951782400) = 951782400 :=
  ((calendar_round_trip_iff (by decide) (by decide)).2.2 (by decide)).2.2

/-- A second before 1970 comes back as the last second of 1970. -/
theorem mktime_before_1970 : mktime (localtime (-1)) = 31535999 := by
  simp [localtime, localtimeCore, splitDays, yearsUp, yearsDown, monthsUp, mktime, yearDays, leap,
    monthDays, addUp, toI32]
  rfl

end Waste.Libc

