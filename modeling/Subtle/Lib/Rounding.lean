import Mathlib.Algebra.Order.Field.Power
import Mathlib.Data.Int.Log
import Mathlib.Data.Rat.Floor

/-!
# Rounding to a binary floating-point format

A format has numbers of the form `m * 2 ^ e`, where `m` has a bounded number of bits and the
exponent a least value, up to a bound on the magnitude.

* `FloatFormat.round`: to the nearest number, ties to the even one, unless that overflows.
* `FloatFormat.round_eq_self_iff`: **exactly the numbers of the format are rounded to
  themselves**.
-/

namespace Subtle.Lib

/-- To the nearest integer, ties to the even one. -/
def roundHalfEven (x : ℚ) : ℤ :=
  if x - ⌊x⌋ < 1 / 2 then ⌊x⌋
  else if 1 / 2 < x - ⌊x⌋ then ⌊x⌋ + 1
  else if Even ⌊x⌋ then ⌊x⌋ else ⌊x⌋ + 1

theorem roundHalfEven_intCast (m : ℤ) : roundHalfEven m = m := by
  have hfrac : (m : ℚ) - ⌊(m : ℚ)⌋ < 1 / 2 := by
    rw [Int.floor_intCast, sub_self]
    norm_num
  rw [roundHalfEven, if_pos hfrac, Int.floor_intCast]

structure FloatFormat where
  precision : ℕ
  minExponent : ℤ
  overflow : ℚ

namespace FloatFormat

/-- IEEE 754 binary64. -/
def binary64 : FloatFormat := ⟨53, -1074, 2 ^ 1024⟩

variable (F : FloatFormat) {q : ℚ}

/-- A number of the format. -/
def Represents (q : ℚ) : Prop :=
  ∃ m e : ℤ, |m| < 2 ^ F.precision ∧ F.minExponent ≤ e ∧ q = m * 2 ^ e ∧ |q| < F.overflow

/-- The exponent of the last place of a number. -/
def lastPlace (q : ℚ) : ℤ := max (Int.log 2 |q| + 1 - F.precision) F.minExponent

/-- The nearest number of the format, `none` where it overflows. -/
def round (q : ℚ) : Option ℚ :=
  let r : ℚ := roundHalfEven (q / 2 ^ F.lastPlace q) * 2 ^ F.lastPlace q
  if |r| < F.overflow then some r else none

variable {F}

theorem abs_lt_two_zpow_lastPlace (q : ℚ) : |q| < 2 ^ (F.precision + F.lastPlace q) := by
  have hlog : |q| < 2 ^ (Int.log 2 |q| + 1) := by
    have := Int.lt_zpow_succ_log_self (b := 2) (by decide) |q|
    simpa using this
  have hle : Int.log 2 |q| + 1 ≤ F.precision + F.lastPlace q := by
    have := le_max_left (Int.log 2 |q| + 1 - F.precision) F.minExponent
    rw [lastPlace]
    omega
  exact hlog.trans_le (zpow_le_zpow_right₀ one_le_two hle)

/-- The last place of a number of the format is not above its exponent. -/
theorem lastPlace_le {m e : ℤ} (hq : (m : ℚ) * 2 ^ e ≠ 0) (hm : |m| < 2 ^ F.precision)
    (he : F.minExponent ≤ e) : F.lastPlace (m * 2 ^ e) ≤ e := by
  have hpos : 0 < |(m : ℚ) * 2 ^ e| := abs_pos.mpr hq
  have hlog : (2 : ℚ) ^ Int.log 2 |(m : ℚ) * 2 ^ e| ≤ |(m : ℚ) * 2 ^ e| := by
    have := Int.zpow_log_le_self (b := 2) (by decide) hpos
    simpa using this
  have hm' : |(m : ℚ)| < 2 ^ (F.precision : ℤ) := by
    rw [zpow_natCast]
    exact_mod_cast hm
  have hlt : |(m : ℚ) * 2 ^ e| < 2 ^ (F.precision + e) := by
    have htwo : (0 : ℚ) < 2 ^ e := zpow_pos two_pos e
    rw [abs_mul, abs_of_pos htwo, zpow_add₀ two_ne_zero]
    exact mul_lt_mul_of_pos_right hm' htwo
  have hexp : Int.log 2 |(m : ℚ) * 2 ^ e| < F.precision + e :=
    (zpow_lt_zpow_iff_right₀ one_lt_two).mp (hlog.trans_lt hlt)
  exact max_le (by omega) he

/-- A number of the format is an integer in its last place. -/
theorem Represents.exists_int (h : F.Represents q) :
    ∃ k : ℤ, q / 2 ^ F.lastPlace q = k := by
  obtain ⟨m, e, hm, he, rfl, -⟩ := h
  by_cases hq : (m : ℚ) * 2 ^ e = 0
  · exact ⟨0, by rw [hq, zero_div, Int.cast_zero]⟩
  · have hle := lastPlace_le hq hm he
    obtain ⟨n, hn⟩ := Int.eq_ofNat_of_zero_le (sub_nonneg.mpr hle)
    refine ⟨m * 2 ^ n, ?_⟩
    rw [mul_div_assoc, ← zpow_sub₀ two_ne_zero, hn, zpow_natCast]
    push_cast
    rfl

/-- **Exactly the numbers of the format are rounded to themselves.** -/
theorem round_eq_self_iff : F.round q = some q ↔ F.Represents q := by
  have hne : (2 : ℚ) ^ F.lastPlace q ≠ 0 := zpow_ne_zero _ two_ne_zero
  constructor
  · intro h
    obtain ⟨hbound, heq⟩ := Option.ite_none_right_eq_some.mp h
    have hr := Option.some.inj heq
    rw [hr] at hbound
    refine ⟨roundHalfEven (q / 2 ^ F.lastPlace q), F.lastPlace q, ?_, le_max_right _ _, hr.symm,
      hbound⟩
    have htwo : (0 : ℚ) < 2 ^ F.lastPlace q := zpow_pos two_pos _
    have hlt := abs_lt_two_zpow_lastPlace (F := F) q
    nth_rewrite 1 [← hr] at hlt
    rw [abs_mul, abs_of_pos htwo, zpow_add₀ two_ne_zero] at hlt
    have hm := lt_of_mul_lt_mul_right hlt htwo.le
    rw [zpow_natCast] at hm
    exact_mod_cast hm
  · intro h
    obtain ⟨k, hk⟩ := h.exists_int
    obtain ⟨-, -, -, -, -, hbound⟩ := h
    have hr : (roundHalfEven (q / 2 ^ F.lastPlace q) : ℚ) * 2 ^ F.lastPlace q = q := by
      rw [hk, roundHalfEven_intCast, ← hk, div_mul_cancel₀ _ hne]
    rw [round, hr]
    exact if_pos hbound

end FloatFormat

end Subtle.Lib
