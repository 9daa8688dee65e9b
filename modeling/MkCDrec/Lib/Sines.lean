import Mathlib.Analysis.Complex.Basic
import Mathlib.Analysis.Complex.Exponential
import Mathlib.Analysis.Complex.Trigonometric
import Mathlib.NumberTheory.Zsqrtd.GaussianInt

/-!
# The sine of a natural number, in whole numbers

The first terms of the series of `exp i` are a Gaussian integer over a factorial, and the
powers of that number are near those of `exp i`. What is known of a sine that way is
decided with integers.
-/

namespace Sines

open Finset

/-- The sum of the first `n` terms of the series of `exp i`, times `(n - 1)!`. -/
def series : ℕ → GaussianInt
  | 0 => 0
  | n + 1 => n * series n + ⟨0, 1⟩ ^ n

theorem sum_eq_series (n : ℕ) :
    ∑ m ∈ range (n + 1), Complex.I ^ m / (m.factorial : ℂ) =
      GaussianInt.toComplex (series (n + 1)) / (n.factorial : ℂ) := by
  have hi : GaussianInt.toComplex ⟨0, 1⟩ = Complex.I := by
    rw [GaussianInt.toComplex_def]
    simp
  induction n with
  | zero => simp [series]
  | succ n ih =>
    have hfac : (n.factorial : ℂ) ≠ 0 := Nat.cast_ne_zero.mpr n.factorial_ne_zero
    have hsucc : ((n : ℂ) + 1) ≠ 0 := Nat.cast_add_one_ne_zero n
    have hseries : GaussianInt.toComplex (series (n + 1 + 1)) =
        ((n : ℂ) + 1) * GaussianInt.toComplex (series (n + 1)) + Complex.I ^ (n + 1) := by
      rw [series, map_add, map_mul, map_pow, hi, map_natCast, Nat.cast_add_one]
    rw [sum_range_succ, ih, hseries, Nat.factorial_succ, Nat.cast_mul, Nat.cast_add_one]
    field_simp

/-- Powers of a number of norm one, and of one that is near it. -/
theorem norm_pow_sub_pow_le {a z : ℂ} {ε : ℝ} (ha : ‖a‖ = 1) (hε : ε ≤ 1) (hz : ‖a - z‖ ≤ ε)
    (k : ℕ) : ‖a ^ k - z ^ k‖ ≤ (2 ^ k - 1) * ε := by
  have hnorm : ‖z‖ ≤ 2 := by
    calc ‖z‖ = ‖a - (a - z)‖ := by rw [sub_sub_cancel]
      _ ≤ ‖a‖ + ‖a - z‖ := norm_sub_le _ _
      _ ≤ 2 := by linarith
  induction k with
  | zero => simp
  | succ k ih =>
    have hpow : ‖a ^ k‖ = 1 := by rw [norm_pow, ha, one_pow]
    calc ‖a ^ (k + 1) - z ^ (k + 1)‖ = ‖z * (a ^ k - z ^ k) + a ^ k * (a - z)‖ := by ring_nf
      _ ≤ ‖z * (a ^ k - z ^ k)‖ + ‖a ^ k * (a - z)‖ := norm_add_le _ _
      _ = ‖z‖ * ‖a ^ k - z ^ k‖ + ‖a - z‖ := by rw [norm_mul, norm_mul, hpow, one_mul]
      _ ≤ 2 * ((2 ^ k - 1) * ε) + ε := by gcongr
      _ = (2 ^ (k + 1) - 1) * ε := by ring

section Near

/-- The terms that are taken. -/
def terms : ℕ := 40

def scale : ℕ := (terms - 1).factorial

/-- How far the sum is from `exp i`. -/
theorem norm_exp_sub_series_le :
    ‖Complex.exp Complex.I - GaussianInt.toComplex (series terms) / (scale : ℂ)‖ ≤ 1 / 2 ^ 124 := by
  have hbound := Complex.exp_bound (Complex.norm_I.le) (n := terms) (by decide)
  rw [Complex.norm_I, one_pow, one_mul, terms, sum_eq_series] at hbound
  refine hbound.trans ?_
  norm_num [Nat.factorial]

/-- The sine, as far as the sum tells. -/
theorem abs_sin_sub_le {k : ℕ} (hk : k ≤ 64) :
    |Real.sin k - ((series terms ^ k).im : ℝ) / (scale : ℝ) ^ k| ≤ 1 / 2 ^ 60 := by
  have hexp : (Complex.exp Complex.I) ^ k = Complex.exp (k * Complex.I) := by
    rw [← Complex.exp_nat_mul]
  have him : (Complex.exp (k * Complex.I) -
      (GaussianInt.toComplex (series terms) / (scale : ℂ)) ^ k).im =
      Real.sin k - ((series terms ^ k).im : ℝ) / (scale : ℝ) ^ k := by
    have hcast : (GaussianInt.toComplex (series terms) / (scale : ℂ)) ^ k =
        GaussianInt.toComplex (series terms ^ k) / (((scale : ℝ) ^ k : ℝ) : ℂ) := by
      rw [div_pow, map_pow, Complex.ofReal_pow, Complex.ofReal_natCast]
    have hsin : (Complex.exp (k * Complex.I)).im = Real.sin k := by
      rw [← Complex.ofReal_natCast, Complex.exp_ofReal_mul_I_im]
    rw [hcast, Complex.sub_im, hsin, Complex.div_ofReal_im, ← GaussianInt.intCast_im]
  have hnorm : ‖Complex.exp Complex.I‖ = 1 := by
    rw [← one_mul Complex.I, ← Complex.ofReal_one, Complex.norm_exp_ofReal_mul_I]
  have hpow := norm_pow_sub_pow_le hnorm (by norm_num) norm_exp_sub_series_le k
  rw [hexp] at hpow
  calc |Real.sin k - ((series terms ^ k).im : ℝ) / (scale : ℝ) ^ k|
      ≤ (2 ^ k - 1) * (1 / 2 ^ 124) := by
        rw [← him]
        exact (Complex.abs_im_le_norm _).trans hpow
    _ ≤ 2 ^ 64 * (1 / 2 ^ 124) := by
        have hle : (2 : ℝ) ^ k ≤ 2 ^ 64 := pow_le_pow_right₀ (by norm_num) hk
        gcongr
        linarith
    _ = 1 / 2 ^ 60 := by norm_num

/-- The whole part of `2 ^ 32 * |sin k|` is `n`, with something to spare. -/
def wholePart (k n : ℕ) : Bool :=
  let num := (series terms ^ k).im.natAbs
  let den := scale ^ k
  decide ((n * 2 ^ 28 + 1) * den ≤ 2 ^ 60 * num ∧ 2 ^ 60 * num + den < (n + 1) * 2 ^ 28 * den)

theorem floor_abs_sin {k n : ℕ} (hk : k ≤ 64) (h : wholePart k n = true) :
    ⌊2 ^ 32 * |Real.sin k|⌋₊ = n := by
  obtain ⟨hlow, hhigh⟩ := of_decide_eq_true h
  have hden : (0 : ℝ) < (scale : ℝ) ^ k :=
    pow_pos (Nat.cast_pos.mpr (Nat.factorial_pos _)) k
  -- the sine of the sum, without its sign
  have habs : |((series terms ^ k).im : ℝ) / (scale : ℝ) ^ k| =
      ((series terms ^ k).im.natAbs : ℝ) / (scale : ℝ) ^ k := by
    rw [abs_div, abs_of_pos hden, ← Int.cast_abs, Int.abs_eq_natAbs, Int.cast_natCast]
  have hnear : |(|Real.sin k| - ((series terms ^ k).im.natAbs : ℝ) / (scale : ℝ) ^ k)| ≤
      1 / 2 ^ 60 := by
    rw [← habs]
    exact (abs_abs_sub_abs_le _ _).trans (abs_sin_sub_le hk)
  obtain ⟨hge, hle⟩ := abs_le.mp hnear
  have hlow' : ((n : ℝ) * 2 ^ 28 + 1) ≤
      2 ^ 60 * (((series terms ^ k).im.natAbs : ℝ) / (scale : ℝ) ^ k) := by
    rw [← mul_div_assoc, le_div_iff₀ hden]
    exact_mod_cast hlow
  have hhigh' : 2 ^ 60 * (((series terms ^ k).im.natAbs : ℝ) / (scale : ℝ) ^ k) + 1 <
      ((n : ℝ) + 1) * 2 ^ 28 := by
    rw [← mul_div_assoc, ← lt_sub_iff_add_lt, div_lt_iff₀ hden]
    have hcast : 2 ^ 60 * ((series terms ^ k).im.natAbs : ℝ) + (scale : ℝ) ^ k <
        ((n : ℝ) + 1) * 2 ^ 28 * (scale : ℝ) ^ k := by exact_mod_cast hhigh
    linarith
  rw [Nat.floor_eq_iff (by positivity)]
  constructor
  · linarith
  · linarith

end Near

end Sines
