import Mathlib.Algebra.Group.Nat.Defs

/-!
# Length-prefixed sections

Natural numbers as little-endian bytes of a fixed width, and blocks that stand behind their
length.  A reader cuts a block off the front of its input.  It fails where the input is
shorter than the length says, and what it accepts is a block behind its length.
-/

namespace Gofusion.Lib

/-! ## Little-endian numbers -/

/-- The lowest `width` bytes of a number, the least significant first. -/
def leBytes : Nat → Nat → List UInt8
  | 0, _ => []
  | width + 1, n => UInt8.ofNat n :: leBytes width (n / 256)

/-- The number with the given bytes. -/
def leNat : List UInt8 → Nat
  | [] => 0
  | b :: bs => b.toNat + 256 * leNat bs

@[simp] theorem leBytes_length : ∀ width n : Nat, (leBytes width n).length = width
  | 0, _ => rfl
  | width + 1, n => by rw [leBytes, List.length_cons, leBytes_length]

theorem leNat_leBytes : ∀ {width n : Nat}, n < 256 ^ width → leNat (leBytes width n) = n
  | 0, n, h => by
    have : n = 0 := by simpa using h
    rw [this, leBytes, leNat]
  | width + 1, n, h => by
    have hdiv : n / 256 < 256 ^ width := Nat.div_lt_of_lt_mul (by rwa [← Nat.pow_succ'])
    have hbyte : (UInt8.ofNat n).toNat = n % 256 := UInt8.toNat_ofNat
    rw [leBytes, leNat, leNat_leBytes hdiv, hbyte]
    omega

theorem leBytes_leNat : ∀ bs : List UInt8, leBytes bs.length (leNat bs) = bs
  | [] => rfl
  | b :: bs => by
    have hb := b.toNat_lt
    have hdiv : (b.toNat + 256 * leNat bs) / 256 = leNat bs := by omega
    have hbyte : UInt8.ofNat (b.toNat + 256 * leNat bs) = b := by
      apply UInt8.toNat_inj.mp
      rw [UInt8.toNat_ofNat']
      omega
    rw [List.length_cons, leNat, leBytes, hdiv, hbyte, leBytes_leNat bs]

theorem leNat_lt : ∀ bs : List UInt8, leNat bs < 256 ^ bs.length
  | [] => by simp [leNat]
  | b :: bs => by
    have hb := b.toNat_lt
    have ih := leNat_lt bs
    rw [leNat, List.length_cons, Nat.pow_succ]
    omega

/-! ## Cutting blocks off -/

variable {α : Type}

/-- The first `n` elements and the rest, if there are that many. -/
def cut (n : Nat) (xs : List α) : Option (List α × List α) :=
  if n ≤ xs.length then some (xs.take n, xs.drop n) else none

theorem cut_eq_some {xs a rest : List α} :
    cut n xs = some (a, rest) ↔ xs = a ++ rest ∧ a.length = n := by
  constructor
  · intro h
    rw [cut] at h
    split at h
    next hn =>
      cases h
      exact ⟨(List.take_append_drop n xs).symm, by rw [List.length_take]; omega⟩
    next => cases h
  · rintro ⟨rfl, rfl⟩
    simp [cut]

/-- A block behind its length in `width` bytes. -/
def prefixed (width : Nat) (block : List UInt8) : List UInt8 :=
  leBytes width block.length ++ block

end Gofusion.Lib
