import Mathlib.Algebra.Group.Int.Defs

/-!
# Big-endian bytes

Integers of a fixed number of bytes in two's complement, the most significant
byte first.  A wider encoding of the same integer is the narrower one behind
copies of its sign byte.
-/

namespace Gofusion.Lib

/-- The lowest `width` bytes of an integer in two's complement. -/
def beBytes : Nat → Int → List UInt8
  | 0, _ => []
  | width + 1, n => beBytes width (n / 256) ++ [UInt8.ofInt n]

theorem beBytes_add (k : Nat) : ∀ (width : Nat) (n : Int),
    beBytes (k + width) n = beBytes k (n / 256 ^ width) ++ beBytes width n
  | 0, n => by simp [beBytes]
  | width + 1, n => by
    have hdiv : n / 256 ^ (width + 1) = n / 256 / 256 ^ width := by
      rw [Int.pow_succ, Int.mul_comm, Int.ediv_ediv_of_nonneg (by decide)]
    rw [← Nat.add_assoc, beBytes, beBytes_add k width, hdiv, beBytes, List.append_assoc]

/-- The byte that fills up a wider encoding. -/
def signByte (n : Int) : UInt8 := if n < 0 then 255 else 0

theorem beBytes_sign (h : n = 0 ∨ n = -1) :
    ∀ k : Nat, beBytes k n = List.replicate k (signByte n)
  | 0 => rfl
  | k + 1 => by
    have hdiv : n / 256 = n := by rcases h with rfl | rfl <;> rfl
    have hbyte : UInt8.ofInt n = signByte n := by rcases h with rfl | rfl <;> rfl
    rw [beBytes, hdiv, hbyte, beBytes_sign h k, List.replicate_succ']

theorem beBytes_widen
    (h : -256 ^ width ≤ n) (h' : n < 256 ^ width) (k : Nat) :
    beBytes (k + width) n = List.replicate k (signByte n) ++ beBytes width n := by
  have hpos : (0 : Int) < 256 ^ width := Int.pow_pos (by decide)
  rw [beBytes_add]
  by_cases hn : n < 0
  · have hdiv : n / 256 ^ width = -1 := by
      rw [Int.ediv_eq_iff_of_pos hpos]
      omega
    rw [hdiv, beBytes_sign (.inr rfl), signByte, signByte, if_pos hn, if_pos (by decide)]
  · have hdiv : n / 256 ^ width = 0 := Int.ediv_eq_zero_of_lt (by omega) h'
    rw [hdiv, beBytes_sign (.inl rfl), signByte, signByte, if_neg hn, if_neg (by decide)]

end Gofusion.Lib
