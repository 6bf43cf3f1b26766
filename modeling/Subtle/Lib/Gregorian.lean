import Mathlib.Order.Monotone.Basic
import Mathlib.Algebra.Order.Group.Int
import Mathlib.Algebra.Order.Archimedean.Basic
import Mathlib.Data.Int.ConditionallyCompleteOrder

/-!
# Gregorian years

Days are counted from 1 January of the year 1, and times in milliseconds from its
start.  A number of years is added to a time by keeping its month, day and time of
day, where 29 February becomes 28 February in a year that has none.

* `yearOf_eq_iff`: the year of a day.
* `addYears_le_of_le`: a time that is at most `k` years before `t` is, `k` years
  later, at most `t`.  The converse fails on leap days.
* `le_completedYears_iff`: **the completed years between two times**.
-/

namespace Subtle.Lib.Gregorian

/-! ### Years -/

def isLeap (y : Int) : Bool := y % 4 = 0 ∧ (y % 100 ≠ 0 ∨ y % 400 = 0)

/-- The days before 1 January of the year `y`. -/
def daysBefore (y : Int) : Int := 365 * (y - 1) + (y - 1) / 4 - (y - 1) / 100 + (y - 1) / 400

def yearLength (leap : Bool) : Int := if leap then 366 else 365

theorem daysBefore_succ (y : Int) : daysBefore (y + 1) = daysBefore y + yearLength (isLeap y) := by
  unfold daysBefore isLeap yearLength
  by_cases h : y % 4 = 0 ∧ (y % 100 ≠ 0 ∨ y % 400 = 0)
  · rw [if_pos (decide_eq_true h)]
    omega
  · rw [if_neg (by simpa using h)]
    omega

theorem yearLength_pos (leap : Bool) : 0 < yearLength leap := by
  cases leap <;> decide

theorem daysBefore_strictMono : StrictMono daysBefore := by
  apply strictMono_int_of_lt_succ
  intro y
  rw [daysBefore_succ]
  have := yearLength_pos (isLeap y)
  omega

/-- The year of a day, near the day in years of mean length. -/
def yearOf (n : Int) : Int :=
  let q := n * 400 / 146097
  if daysBefore (q + 2) ≤ n then q + 2 else q + 1

theorem yearOf_spec (n : Int) : daysBefore (yearOf n) ≤ n ∧ n < daysBefore (yearOf n + 1) := by
  simp only [yearOf]
  split
  · refine ⟨‹_›, ?_⟩
    unfold daysBefore
    omega
  · refine ⟨?_, ?_⟩
    · unfold daysBefore
      omega
    · have hnext : n * 400 / 146097 + 1 + 1 = n * 400 / 146097 + 2 := by omega
      rw [hnext]
      omega

theorem yearOf_eq_iff {n y : Int} : yearOf n = y ↔ daysBefore y ≤ n ∧ n < daysBefore (y + 1) := by
  constructor
  · rintro rfl
    exact yearOf_spec n
  · rintro ⟨hle, hlt⟩
    obtain ⟨hle', hlt'⟩ := yearOf_spec n
    have h₁ := daysBefore_strictMono.lt_iff_lt.mp (lt_of_le_of_lt hle' hlt)
    have h₂ := daysBefore_strictMono.lt_iff_lt.mp (lt_of_le_of_lt hle hlt')
    omega

/-! ### The same day of another year -/

/-- The position, in a year that is leap or not, of the month and day at position `p` of
a year. -/
def sameDay (leap leap' : Bool) (p : Int) : Int :=
  if leap = leap' ∨ p < 59 then p else if leap' then p + 1 else p - 1

/-- The months of a year with their lengths. -/
def monthLengths (leap : Bool) : List Nat :=
  [31, if leap then 29 else 28, 31, 30, 31, 30, 31, 31, 30, 31, 30, 31]

/-- The month and the day at a position, each from 1. -/
def monthAndDay (leap : Bool) (p : Nat) : Nat × Nat :=
  go 1 p (monthLengths leap)
where
  go : Nat → Nat → List Nat → Nat × Nat
    | month, p, [] => (month, p + 1)
    | month, p, n :: ns => if p < n then (month, p + 1) else go (month + 1) (p - n) ns

/-- **The same day has the same month and day**, but for 29 February. -/
theorem monthAndDay_sameDay (leap leap' : Bool) :
    ∀ p < (yearLength leap).toNat, monthAndDay leap' (sameDay leap leap' p).toNat =
      if leap && !leap' && p == 59 then (2, 28) else monthAndDay leap p := by
  cases leap <;> cases leap' <;> decide +kernel

theorem sameDay_self (leap : Bool) (p : Int) : sameDay leap leap p = p := if_pos (Or.inl rfl)

/-- Into a leap year. -/
theorem sameDay_false_true (p : Int) : sameDay false true p = if p < 59 then p else p + 1 := by
  simp [sameDay]

/-- Out of a leap year. -/
theorem sameDay_true_false (p : Int) : sameDay true false p = if p < 59 then p else p - 1 := by
  simp [sameDay]

theorem sameDay_bounds {leap leap' : Bool} {p : Int} (h : 0 ≤ p) (h' : p < yearLength leap) :
    0 ≤ sameDay leap leap' p ∧ sameDay leap leap' p < yearLength leap' := by
  have hleap : yearLength true = 366 := rfl
  have hcommon : yearLength false = 365 := rfl
  cases leap with
  | false =>
    cases leap' with
    | false => rw [sameDay_self]; exact ⟨h, h'⟩
    | true =>
      rw [sameDay_false_true]
      split <;> omega
  | true =>
    cases leap' with
    | false =>
      rw [sameDay_true_false]
      split <;> omega
    | true => rw [sameDay_self]; exact ⟨h, h'⟩

/-- The day with the same month and day `k` years later. -/
def addDay (k n : Int) : Int :=
  daysBefore (yearOf n + k) +
    sameDay (isLeap (yearOf n)) (isLeap (yearOf n + k)) (n - daysBefore (yearOf n))

theorem yearOf_addDay (k n : Int) : yearOf (addDay k n) = yearOf n + k := by
  obtain ⟨hle, hlt⟩ := yearOf_spec n
  rw [daysBefore_succ] at hlt
  have hb := @sameDay_bounds (isLeap (yearOf n)) (isLeap (yearOf n + k)) _ (sub_nonneg.mpr hle)
    (by omega)
  rw [yearOf_eq_iff, daysBefore_succ]
  unfold addDay
  omega

/-! ### Times -/

def perDay : Int := 86400000

def year (t : Int) : Int := yearOf (t / perDay)

/-- The same month, day and time of day, `k` years later. -/
def addYears (k t : Int) : Int := addDay k (t / perDay) * perDay + t % perDay

/-- The start of 1 January of the year `y`. -/
def startOfYear (y : Int) : Int := daysBefore y * perDay

/-- The start of 31 December of the year `y`. -/
def startOfLastDay (y : Int) : Int := (daysBefore (y + 1) - 1) * perDay

theorem day_addYears (k t : Int) : addYears k t / perDay = addDay k (t / perDay) := by
  unfold addYears perDay
  omega

@[simp] theorem year_addYears (k t : Int) : year (addYears k t) = year t + k := by
  rw [year, day_addYears, yearOf_addDay, year]

theorem startOfYear_le_iff {y t : Int} : startOfYear y ≤ t ↔ y ≤ year t := by
  have hday : startOfYear y ≤ t ↔ daysBefore y ≤ t / perDay := by
    unfold startOfYear perDay
    omega
  obtain ⟨hle, hlt⟩ := yearOf_spec (t / perDay)
  rw [hday]
  constructor
  · intro h
    have := daysBefore_strictMono.lt_iff_lt.mp (lt_of_le_of_lt h hlt)
    unfold year
    omega
  · intro h
    exact le_trans (daysBefore_strictMono.monotone h) hle

theorem year_mono {t t' : Int} (h : t ≤ t') : year t ≤ year t' :=
  startOfYear_le_iff.mp (le_trans (startOfYear_le_iff.mpr le_rfl) h)

theorem lt_of_year_lt {t t' : Int} (h : year t < year t') : t < t' := by
  by_contra hle
  have := year_mono (not_lt.mp hle)
  omega

/-- A year too late. -/
theorem lt_addYears {k s t : Int} (h : year t < year s + k) : t < addYears k s := by
  apply lt_of_year_lt
  rwa [year_addYears]

/-- A year too early. -/
theorem addYears_lt {k s t : Int} (h : year s + k < year t) : addYears k s < t := by
  apply lt_of_year_lt
  rwa [year_addYears]

theorem startOfLastDay_lt (y : Int) : startOfLastDay y < startOfYear (y + 1) := by
  unfold startOfLastDay startOfYear perDay
  omega

theorem startOfYear_le_startOfLastDay (y : Int) : startOfYear y ≤ startOfLastDay y := by
  have hsucc := daysBefore_succ y
  have hpos := yearLength_pos (isLeap y)
  unfold startOfLastDay startOfYear perDay
  omega

theorem addYears_zero (t : Int) : addYears 0 t = t := by
  unfold addYears addDay sameDay perDay
  rw [add_zero, if_pos (Or.inl rfl)]
  omega

theorem addYears_lt_addYears {k k' : Int} (h : k < k') (t : Int) :
    addYears k t < addYears k' t := by
  apply lt_addYears
  rw [year_addYears]
  omega

theorem addYears_startOfYear (k y : Int) : addYears k (startOfYear y) = startOfYear (y + k) := by
  have hday : startOfYear y / perDay = daysBefore y := by
    unfold startOfYear perDay
    omega
  have htime : startOfYear y % perDay = 0 := by
    unfold startOfYear perDay
    omega
  have hyear : yearOf (daysBefore y) = y :=
    yearOf_eq_iff.mpr ⟨le_rfl, daysBefore_strictMono (by omega)⟩
  rw [addYears, hday, htime, addDay, hyear, sub_self, sameDay, if_pos (Or.inr (by decide)),
    add_zero, add_zero, startOfYear]

/-- The two ways to compare days of different years, of times `s` and `t`. -/
theorem sameDay_le_of_le {leap leap' : Bool} {p q s t : Int} (hs : 0 ≤ s) (hs' : s < perDay)
    (ht : 0 ≤ t) (ht' : t < perDay) (h : p * perDay + s ≤ sameDay leap' leap q * perDay + t) :
    sameDay leap leap' p * perDay + s ≤ q * perDay + t := by
  unfold perDay at *
  cases leap with
  | false =>
    cases leap' with
    | false => rwa [sameDay_self] at *
    | true =>
      rw [sameDay_true_false] at h
      rw [sameDay_false_true]
      split at h <;> split <;> omega
  | true =>
    cases leap' with
    | false =>
      rw [sameDay_false_true] at h
      rw [sameDay_true_false]
      split at h <;> split <;> omega
    | true => rwa [sameDay_self] at *

/-- **What is at most `k` years before `t` is at most `t`, `k` years later.** -/
theorem addYears_le_of_le {k s t : Int} (h : s ≤ addYears (-k) t) : addYears k s ≤ t := by
  have hyears := year_mono h
  rw [year_addYears] at hyears
  rcases lt_or_eq_of_le (by omega : year s + k ≤ year t) with hlt | heq
  · exact le_of_lt (addYears_lt hlt)
  · -- the two times compare by their positions in one year or in the other
    have hback : yearOf (t / perDay) + -k = yearOf (s / perDay) := by
      unfold year at heq
      omega
    have hthere : yearOf (s / perDay) + k = yearOf (t / perDay) := heq
    rw [addYears, addDay, hback] at h
    rw [addYears, addDay, hthere]
    have hpos : 0 < perDay := by decide
    have hsame := @sameDay_le_of_le (isLeap (yearOf (s / perDay))) (isLeap (yearOf (t / perDay)))
      (s / perDay - daysBefore (yearOf (s / perDay)))
      (t / perDay - daysBefore (yearOf (t / perDay))) (s % perDay) (t % perDay)
      (Int.emod_nonneg _ hpos.ne') (Int.emod_lt_of_pos _ hpos) (Int.emod_nonneg _ hpos.ne')
      (Int.emod_lt_of_pos _ hpos)
    unfold perDay at *
    omega

/-! ### Completed years -/

/-- The completed years from `s` to `t`; what is later counts back, as negative years. -/
def completedYears (s t : Int) : Int :=
  if s ≤ t then
    let k := year t - year s
    if addYears k s ≤ t then k else k - 1
  else
    let k := year s - year t
    if t ≤ addYears (-k) s then -k else 1 - k

/-- **`k` years are completed when the day `k` years later has come.** -/
theorem le_completedYears_iff {s t : Int} (h : s ≤ t) (k : Int) :
    k ≤ completedYears s t ↔ addYears k s ≤ t := by
  have hmono : ∀ {i j}, i ≤ j → addYears i s ≤ addYears j s := by
    intro i j hij
    rcases lt_or_eq_of_le hij with hlt | rfl
    · exact le_of_lt (addYears_lt_addYears hlt s)
    · exact le_rfl
  have hlate : ∀ {i}, year t - year s < i → t < addYears i s := by
    intro i hi
    apply lt_addYears
    omega
  rw [completedYears, if_pos h]
  simp only
  split
  · refine ⟨fun hk => le_trans (hmono hk) ‹_›, fun hk => ?_⟩
    by_contra hlt
    exact absurd hk (not_le.mpr (hlate (not_le.mp hlt)))
  · refine ⟨fun hk => ?_, fun hk => ?_⟩
    · apply le_of_lt
      apply addYears_lt
      omega
    · by_contra hlt
      have hk' := le_trans (hmono (by omega : year t - year s ≤ k)) hk
      exact absurd hk' ‹_›

theorem completedYears_lt_iff {s t : Int} (h : s ≤ t) (k : Int) :
    completedYears s t < k ↔ t < addYears k s := by
  rw [← not_le, le_completedYears_iff h, not_le]

/-- What is later has no completed year, and is not a whole year away when none counts. -/
theorem completedYears_of_lt {s t : Int} (h : t < s) :
    completedYears s t ≤ 0 ∧ (0 ≤ completedYears s t ↔ addYears (-1) s < t) := by
  have hyears := year_mono (le_of_lt h)
  rw [completedYears, if_neg (not_le.mpr h)]
  simp only
  rcases lt_trichotomy (year s - year t) 1 with hk | hk | hk
  · have hzero : year s - year t = 0 := by omega
    have hsoon : addYears (-1) s < t := by
      apply addYears_lt
      omega
    rw [hzero, neg_zero, addYears_zero, if_pos (le_of_lt h)]
    exact ⟨le_rfl, iff_of_true le_rfl hsoon⟩
  · rw [hk]
    split
    · exact ⟨by decide, iff_of_false (by decide) (not_lt.mpr ‹_›)⟩
    · exact ⟨by decide, iff_of_true (by decide) (not_le.mp ‹_›)⟩
  · have hfar : t < addYears (-1) s := by
      apply lt_addYears
      omega
    split
    · exact ⟨by omega, iff_of_false (by omega) (not_lt.mpr (le_of_lt hfar))⟩
    · exact ⟨by omega, iff_of_false (by omega) (not_lt.mpr (le_of_lt hfar))⟩

/-- Completed years only grow. -/
theorem completedYears_mono {s t t' : Int} (hs : s ≤ t) (h : t ≤ t') :
    completedYears s t ≤ completedYears s t' := by
  rw [le_completedYears_iff (le_trans hs h)]
  exact le_trans ((le_completedYears_iff hs _).mp le_rfl) h

theorem addYears_neg_le {k : Nat} (t : Int) : addYears (-k) t ≤ t := by
  have hmono := addYears_zero t
  rcases Nat.eq_zero_or_pos k with rfl | hk
  · exact le_of_eq hmono
  · exact le_of_lt (lt_of_lt_of_eq (addYears_lt_addYears (by omega) t) hmono)

end Subtle.Lib.Gregorian

namespace Subtle.Lib

open Gregorian

/-! ### Calendars -/

/-- The Gregorian calendar at an offset from UTC, for times since 1970. -/
structure Calendar where
  offset : Int

namespace Calendar

variable (calendar : Calendar)

/-- The local time since 1 January of the year 1. -/
def localTime (t : Int) : Int := t + calendar.offset + daysBefore 1970 * perDay

/-- The time with a local time. -/
def date (t : Int) : Int := t - calendar.offset - daysBefore 1970 * perDay

/-- `date(byAdding: .year, value: k, to: t)` -/
def dateByAddingYears (k t : Int) : Int := calendar.date (addYears k (calendar.localTime t))

/-- `dateComponents([.year], from: s, to: t)` -/
def yearsBetween (s t : Int) : Int := completedYears (calendar.localTime s) (calendar.localTime t)

/-- The date with the year of `t`, month 1 and day 1. -/
def firstDay (t : Int) : Int := calendar.date (startOfYear (year (calendar.localTime t)))

/-- The date with the year of `t`, month 12 and day 31. -/
def lastDay (t : Int) : Int := calendar.date (startOfLastDay (year (calendar.localTime t)))

variable {calendar}

@[simp] theorem localTime_date (t : Int) : calendar.localTime (calendar.date t) = t := by
  unfold localTime date
  omega

theorem localTime_lt_iff {s t : Int} : calendar.localTime s < calendar.localTime t ↔ s < t := by
  unfold localTime
  omega

theorem localTime_le_iff {s t : Int} : calendar.localTime s ≤ calendar.localTime t ↔ s ≤ t := by
  unfold localTime
  omega

theorem lt_date_iff {s t : Int} : s < calendar.date t ↔ calendar.localTime s < t := by
  rw [← @localTime_lt_iff calendar, localTime_date]

theorem date_lt_iff {s t : Int} : calendar.date s < t ↔ s < calendar.localTime t := by
  rw [← @localTime_lt_iff calendar, localTime_date]

theorem le_date_iff {s t : Int} : s ≤ calendar.date t ↔ calendar.localTime s ≤ t := by
  rw [← @localTime_le_iff calendar, localTime_date]

theorem date_le_iff {s t : Int} : calendar.date s ≤ t ↔ s ≤ calendar.localTime t := by
  rw [← @localTime_le_iff calendar, localTime_date]

end Calendar

end Subtle.Lib
