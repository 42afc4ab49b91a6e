import KernelElevator.Library.Decimal
import Mathlib.Algebra.Order.Field.Basic
import Mathlib.Data.Rat.Cast.Order
import Mathlib.Tactic.Common

/-!
# Decimal fractions

What a reader takes `12.5` for: the digits after the point count by their place, and not by the
number they spell. `fraction_eq_iff` says when the two agree.
-/

namespace Decimal

/-- The number that the digits spell. -/
def digitsValue (digits : List Char) : Nat := Nat.ofDigitChars 10 digits 0

/-- The value of a numeral with a point in it. -/
def fractionValue (text : String) : ℚ :=
  let whole := text.toList.takeWhile (· ≠ '.')
  let fraction := (text.toList.dropWhile (· ≠ '.')).tail
  digitsValue whole + digitsValue fraction / 10 ^ fraction.length

theorem digitsValue_repr (n : Nat) : digitsValue n.repr.toList = n := by
  rw [digitsValue, Nat.toList_repr, Nat.ofDigitChars_ten_toDigits]

theorem fractionValue_dotted (whole fraction : Nat) :
    fractionValue (whole.repr ++ "." ++ fraction.repr) =
      whole + fraction / 10 ^ fraction.repr.length := by
  have hpoint : ".".toList = ['.'] := by simp
  have hdigits : ∀ c ∈ whole.repr.toList, decide (c ≠ '.') = true := by
    intro c hc
    have hdigit := isDigit_of_mem_natRepr hc
    refine decide_eq_true ?_
    rintro rfl
    exact absurd hdigit (by decide)
  have htext : (whole.repr ++ "." ++ fraction.repr).toList =
      whole.repr.toList ++ '.' :: fraction.repr.toList := by
    simp [hpoint]
  have htake : ('.' :: fraction.repr.toList).takeWhile (· ≠ '.') = [] := by simp
  have hdrop : ('.' :: fraction.repr.toList).dropWhile (· ≠ '.') = '.' :: fraction.repr.toList := by
    simp
  rw [fractionValue, htext, List.takeWhile_append_of_pos hdigits, htake,
    List.dropWhile_append_of_pos hdigits, hdrop, List.append_nil, List.tail_cons, digitsValue_repr,
    digitsValue_repr, String.length_toList]

theorem length_repr_le_iff {n : Nat} (hn : n ≠ 0) (k : Nat) : n.repr.length ≤ k ↔ n < 10 ^ k := by
  cases k with
  | zero =>
    have hpos : 0 < n.repr.length := Nat.length_repr_pos
    simp only [Nat.pow_zero, Nat.le_zero]
    omega
  | succ k => exact Nat.length_repr_le_iff (Nat.succ_pos k)

/-- **Where the digits spell what they stand for**: a number below `10 ^ (k + 1)`, counted in the
last of `k + 1` places, needs all of its digits, unless it is 0. -/
theorem fraction_eq_iff {n k : Nat} (h : n < 10 ^ (k + 1)) :
    (n : ℚ) / 10 ^ n.repr.length = n / 10 ^ (k + 1) ↔ n = 0 ∨ 10 ^ k ≤ n := by
  by_cases hn : n = 0
  · simp [hn]
  · have hcast : (n : ℚ) ≠ 0 := Nat.cast_ne_zero.2 hn
    have hbase : Function.Injective fun e : Nat => (10 : ℚ) ^ e :=
      pow_right_injective₀ (by norm_num) (by norm_num)
    have hlength : n.repr.length = k + 1 ↔ 10 ^ k ≤ n := by
      have hle := (length_repr_le_iff hn (k + 1)).2 h
      have hshort := length_repr_le_iff hn k
      omega
    rw [div_eq_mul_inv, div_eq_mul_inv, mul_right_inj' hcast, inv_inj, hbase.eq_iff, hlength,
      or_iff_right hn]

end Decimal
