import Mathlib.Tactic.Ring

/-!
# Integers as floating-point numbers

The conversion of an integer to `float64`, rounded to 53 bits and half to even.  The result is
again an integer, as long as nothing overflows, so it is one here.
-/

namespace Gofusion.Lib.Float64

/-- A number rounded to 53 bits. -/
def roundNat (m : Nat) : Nat :=
  let e := m.log2 + 1 - 53
  let q := m / 2 ^ e
  let r := m % 2 ^ e
  if 2 * r < 2 ^ e ∨ 2 * r = 2 ^ e ∧ q % 2 = 0 then q * 2 ^ e else (q + 1) * 2 ^ e

/-- `float64(n)`. -/
def ofInt (n : Int) : Int := if n < 0 then -(roundNat n.natAbs : Int) else roundNat n.natAbs

theorem roundNat_of_lt (h : m < 2 ^ 53) : roundNat m = m := by
  have he : m.log2 + 1 - 53 = 0 := by
    rcases Nat.eq_zero_or_pos m with rfl | hpos
    · rfl
    · have := (Nat.log2_lt (by omega)).mpr h
      omega
  simp [roundNat, he, Nat.mod_one]

/-- With one bit too many, even numbers stay and odd ones go to the next multiple of four. -/
theorem roundNat_of_le (hlo : 2 ^ 53 ≤ m) (hhi : m < 2 ^ 54) :
    roundNat m = if m % 2 = 0 then m else if m % 4 = 1 then m - 1 else m + 1 := by
  have he : m.log2 + 1 - 53 = 1 := by
    have h₁ := (Nat.le_log2 (by omega)).mpr hlo
    have h₂ := (Nat.log2_lt (by omega)).mpr hhi
    omega
  simp only [roundNat, he, pow_one]
  split_ifs <;> omega

theorem ofInt_of_abs_lt (hlo : -2 ^ 53 < n) (hhi : n < 2 ^ 53) : ofInt n = n := by
  have habs : n.natAbs < 2 ^ 53 := by omega
  rw [ofInt, roundNat_of_lt habs]
  split <;> omega

theorem ofInt_of_le (hlo : 2 ^ 53 ≤ n) (hhi : n < 2 ^ 54) :
    ofInt n = if n % 2 = 0 then n else if n % 4 = 1 then n - 1 else n + 1 := by
  have hn : ¬n < 0 := by omega
  rw [ofInt, if_neg hn, roundNat_of_le (by omega) (by omega)]
  split_ifs <;> omega

end Gofusion.Lib.Float64
