import Mathlib.Data.Int.Order.Basic
import Mathlib.Tactic.Ring

/-!
# Numbers in shell variables

A variable that a script calculates with holds the text of an integer, or what is left of
a text after a failed command. `expr` and `[` work on integers only, `bc -l` works on
decimals with twenty digits behind the point, and `sed 's/\..*$//'` takes these digits
away again. `bc` writes no zero before the point.
-/

namespace ShellNumber

/-- The value of a variable: an integer, nothing, or a sign without digits. -/
inductive Word
  | int (n : Int)
  | empty
  | sign
deriving DecidableEq

/-- `expr ${v} + ${w}`. The text is empty where `expr` fails: it takes nothing but two
integers, and has no unary plus. -/
def Word.add : Word → Word → Word
  | int a, int b => int (a + b)
  | _, _ => empty

/-- `expr ${v} - ${w}`. -/
def Word.sub : Word → Word → Word
  | int a, int b => int (a - b)
  | _, _ => empty

/-- `[ ${v} -lt ${w} ]`, which fails unless both are integers. -/
def Word.lt : Word → Word → Bool
  | int a, int b => a < b
  | _, _ => false

@[simp] theorem add_int (a b : Int) : (Word.int a).add (.int b) = .int (a + b) := rfl
@[simp] theorem add_empty (v : Word) : v.add .empty = .empty := by cases v <;> rfl
@[simp] theorem empty_add (w : Word) : Word.empty.add w = .empty := by cases w <;> rfl
@[simp] theorem add_sign (v : Word) : v.add .sign = .empty := by cases v <;> rfl
@[simp] theorem sub_int (a b : Int) : (Word.int a).sub (.int b) = .int (a - b) := rfl
@[simp] theorem sub_empty (v : Word) : v.sub .empty = .empty := by cases v <;> rfl
@[simp] theorem lt_int (a b : Int) : (Word.int a).lt (.int b) = decide (a < b) := rfl
@[simp] theorem lt_empty (v : Word) : v.lt .empty = false := by cases v <;> rfl
@[simp] theorem empty_lt (w : Word) : Word.empty.lt w = false := by cases w <;> rfl
@[simp] theorem sign_lt (w : Word) : Word.sign.lt w = false := by cases w <;> rfl

/-- A decimal is counted in units of its twentieth digit. -/
def unit : Int := 10 ^ 20

/-- `bc -l` on `a/b`. -/
def divide (a b : Int) : Int := (a * unit).tdiv b

/-- `sed 's/\..*$//'` on the decimal that `bc` writes. -/
def wholePart (d : Int) : Word :=
  if d = 0 then .int 0
  else if d.tdiv unit ≠ 0 then .int (d.tdiv unit)
  else if 0 < d then .empty
  else .sign

theorem unit_pos : 0 < unit := by decide

@[simp] theorem wholePart_zero : wholePart 0 = .int 0 := rfl

theorem wholePart_of_unit_le {d : Int} (h : unit ≤ d) : wholePart d = .int (d / unit) := by
  have hpos := unit_pos
  have hdiv : d.tdiv unit = d / unit := Int.tdiv_eq_ediv_of_nonneg (by omega)
  have hone : 1 ≤ d / unit := (Int.le_ediv_iff_mul_le hpos).2 (by omega)
  have hne : d ≠ 0 := by omega
  simp only [wholePart, hdiv, if_neg hne, if_pos (show d / unit ≠ 0 by omega)]

/-- A decimal without digits before the point. -/
theorem wholePart_of_lt {d : Int} (hne : d ≠ 0) (hlt : d < unit) (hgt : -unit < d) :
    wholePart d = if 0 < d then .empty else .sign := by
  have hzero : d.tdiv unit = 0 := by
    by_cases hsign : 0 ≤ d
    · exact Int.tdiv_eq_zero_of_lt hsign hlt
    · rw [← Int.neg_neg d, Int.neg_tdiv, Int.tdiv_eq_zero_of_lt (by omega) (by omega)]
      rfl
  simp only [wholePart, if_neg hne, hzero, ne_eq, not_true_eq_false, if_false]

theorem tdiv_unit_neg {d : Int} (h : d ≤ -unit) : d.tdiv unit < 0 := by
  have hneg : d.tdiv unit = -((-d) / unit) := by
    rw [← Int.neg_neg d, Int.neg_tdiv, Int.neg_neg, Int.tdiv_eq_ediv_of_nonneg]
    have hpos := unit_pos
    omega
  have hone : 1 ≤ -d / unit := (Int.le_ediv_iff_mul_le unit_pos).2 (by omega)
  omega

/-- `sed` leaves a number of nought, and of decimals with digits before the point. -/
theorem wholePart_eq_int_iff {d : Int} :
    wholePart d = .int (d.tdiv unit) ↔ d = 0 ∨ unit ≤ d ∨ d ≤ -unit := by
  have hpos := unit_pos
  constructor
  · intro h
    by_contra hcon
    rw [wholePart_of_lt (by omega) (by omega) (by omega)] at h
    split at h
    · cases h
    · cases h
  · rintro (rfl | h | h)
    · simp
    · rw [wholePart_of_unit_le h, Int.tdiv_eq_ediv_of_nonneg (by omega)]
    · have hne := tdiv_unit_neg h
      simp only [wholePart, if_neg (show d ≠ 0 by omega), if_pos (show d.tdiv unit ≠ 0 by omega)]

theorem divide_nonneg {a b : Int} (ha : 0 ≤ a) (hb : 0 ≤ b) : 0 ≤ divide a b :=
  Int.tdiv_nonneg (Int.mul_nonneg ha unit_pos.le) hb

theorem divide_nonpos {a b : Int} (ha : a ≤ 0) (hb : 0 ≤ b) : divide a b ≤ 0 := by
  have hneg := divide_nonneg (a := -a) (by omega) hb
  rw [divide, Int.neg_mul, Int.neg_tdiv] at hneg
  rw [divide]
  omega

theorem divide_mul_le {a b : Int} (ha : 0 ≤ a) (hb : 0 < b) : divide a b * b ≤ a * unit := by
  have hnonneg : 0 ≤ a * unit := Int.mul_nonneg ha unit_pos.le
  rw [divide, Int.tdiv_eq_ediv_of_nonneg hnonneg]
  exact Int.ediv_mul_le _ hb.ne'

theorem unit_le_divide_iff {a b : Int} (ha : 0 ≤ a) (hb : 0 < b) :
    unit ≤ divide a b ↔ b ≤ a := by
  have hnonneg : 0 ≤ a * unit := Int.mul_nonneg ha unit_pos.le
  rw [divide, Int.tdiv_eq_ediv_of_nonneg hnonneg, Int.le_ediv_iff_mul_le hb, mul_comm]
  exact Int.mul_le_mul_right unit_pos

theorem ediv_add_le (a b : Int) {d : Int} (hd : 0 < d) : a / d + b / d ≤ (a + b) / d := by
  rw [Int.le_ediv_iff_mul_le hd, add_mul]
  have ha := Int.ediv_mul_le a hd.ne'
  have hb := Int.ediv_mul_le b hd.ne'
  omega

end ShellNumber
