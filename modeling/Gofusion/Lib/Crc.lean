/-!
# Cyclic redundancy checks

The checksum of a polynomial in its reflected form, for a register of any width and bit
by bit.  The tables of an implementation hold values of `shift` for whole bytes.
-/

namespace Gofusion.Lib.Crc

variable {w : Nat} (poly : BitVec w)

def shift (c : BitVec w) : BitVec w := if c.getLsbD 0 then (c >>> 1) ^^^ poly else c >>> 1

def shifts : Nat → BitVec w → BitVec w
  | 0, c => c
  | n + 1, c => shift poly (shifts n c)

def update (c : BitVec w) (b : UInt8) : BitVec w := shifts poly 8 (c ^^^ b.toBitVec.setWidth w)

def checksum (bytes : List UInt8) : BitVec w :=
  ~~~(bytes.foldl (update poly) (BitVec.allOnes w))

section

variable {poly}

/-! ## Steps are invertible -/

/-- The bit that falls out is the top bit of the result. -/
theorem shift_msb (hpoly : poly.getLsbD (w - 1) = true) (c : BitVec w) :
    (shift poly c).getLsbD (w - 1) = c.getLsbD 0 := by
  have htop : c.getLsbD (1 + (w - 1)) = false := BitVec.getLsbD_of_ge _ _ (by omega)
  unfold shift
  split
  next h => rw [h, BitVec.getLsbD_xor, BitVec.getLsbD_ushiftRight, htop, hpoly]; rfl
  next h => rw [BitVec.getLsbD_ushiftRight, htop, Bool.eq_false_iff.mpr h]

theorem shift_injective (hpoly : poly.getLsbD (w - 1) = true)
    (h : shift poly c = shift poly d) : c = d := by
  have hlow : c.getLsbD 0 = d.getLsbD 0 := by rw [← shift_msb hpoly, ← shift_msb hpoly, h]
  have hrest : c >>> 1 = d >>> 1 := by
    unfold shift at h
    rw [hlow] at h
    split at h
    · exact (BitVec.xor_left_inj _).mp h
    · exact h
  apply BitVec.eq_of_getLsbD_eq
  intro i hi
  cases i with
  | zero => exact hlow
  | succ i =>
    have hbit := congrArg (BitVec.getLsbD · i) hrest
    simpa [BitVec.getLsbD_ushiftRight, Nat.add_comm] using hbit

theorem shifts_injective (hpoly : poly.getLsbD (w - 1) = true) : ∀ (n : Nat) {c d : BitVec w},
    shifts poly n c = shifts poly n d → c = d
  | 0, _, _, h => h
  | n + 1, _, _, h => shifts_injective hpoly n (shift_injective hpoly h)

theorem update_injective (hpoly : poly.getLsbD (w - 1) = true)
    (h : update poly c b = update poly d b) : c = d :=
  (BitVec.xor_left_inj _).mp (shifts_injective hpoly 8 h)

/-- Different registers stay different. -/
theorem foldl_injective (hpoly : poly.getLsbD (w - 1) = true) :
    ∀ (bytes : List UInt8) {c d : BitVec w},
      bytes.foldl (update poly) c = bytes.foldl (update poly) d → c = d
  | [], _, _, h => h
  | _ :: bytes, _, _, h => update_injective hpoly (foldl_injective hpoly bytes h)

/-! ## Shifts are linear -/

theorem shift_xor (a b : BitVec w) : shift poly (a ^^^ b) = shift poly a ^^^ shift poly b := by
  unfold shift
  rw [BitVec.getLsbD_xor, BitVec.ushiftRight_xor_distrib]
  cases a.getLsbD 0 <;> cases b.getLsbD 0
  · rfl
  · simp [BitVec.xor_assoc]
  · simp [BitVec.xor_assoc, BitVec.xor_comm poly]
  · have hcancel : poly ^^^ (b >>> 1 ^^^ poly) = b >>> 1 := by
      rw [BitVec.xor_comm, BitVec.xor_assoc, BitVec.xor_self, BitVec.xor_zero]
    simp [BitVec.xor_assoc, hcancel]

theorem shifts_xor (n : Nat) (a b : BitVec w) :
    shifts poly n (a ^^^ b) = shifts poly n a ^^^ shifts poly n b := by
  induction n with
  | zero => rfl
  | succ n ih => rw [shifts, ih, shift_xor, shifts, shifts]

/-- A register whose low bits are clear only moves down. -/
theorem shifts_high {c : BitVec w} : ∀ {n : Nat}, (∀ i < n, c.getLsbD i = false) →
    shifts poly n c = c >>> n
  | 0, _ => by rw [shifts, BitVec.ushiftRight_zero]
  | n + 1, h => by
    have hlow : (c >>> n).getLsbD 0 = false := by simpa using h n (Nat.lt_succ_self n)
    rw [shifts, shifts_high fun i hi => h i (Nat.lt_succ_of_lt hi), shift, hlow,
      BitVec.shiftRight_add]
    rfl

theorem shifts_add (m n : Nat) (c : BitVec w) :
    shifts poly (m + n) c = shifts poly m (shifts poly n c) := by
  induction m with
  | zero => rw [Nat.zero_add, shifts]
  | succ m ih => rw [Nat.succ_add, shifts, ih, shifts]

end

/-! ## Bytes as a word -/

/-- The word of some bytes, the first byte at the bottom. -/
def leWord (w : Nat) : List UInt8 → BitVec w
  | [] => 0
  | b :: bytes => b.toBitVec.setWidth w ^^^ (leWord w bytes <<< 8)

theorem leWord_high : ∀ {bytes : List UInt8} {i : Nat}, 8 * bytes.length ≤ i →
    (leWord w bytes).getLsbD i = false
  | [], i, _ => by simp [leWord]
  | b :: bytes, i, hi => by
    rw [List.length_cons] at hi
    have hrest : (leWord w bytes).getLsbD (i - 8) = false := leWord_high (by omega)
    have hbyte : b.toBitVec.getLsbD i = false := BitVec.getLsbD_of_ge _ _ (by omega)
    simp [leWord, hrest, hbyte]

theorem leWord_injective : ∀ {p q : List UInt8}, p.length = q.length → 8 * p.length ≤ w →
    leWord w p = leWord w q → p = q
  | [], [], _, _, _ => rfl
  | b :: p, c :: q, hlen, hw, h => by
    rw [List.length_cons, List.length_cons, Nat.add_right_cancel_iff] at hlen
    rw [List.length_cons] at hw
    have hbit : ∀ i, (leWord w (b :: p)).getLsbD i = (leWord w (c :: q)).getLsbD i := fun i => by
      rw [h]
    have hhead : b = c := by
      apply UInt8.toBitVec_inj.mp
      apply BitVec.eq_of_getLsbD_eq
      intro i hi
      have hiw : i < w := by omega
      simpa [leWord, hi, hiw] using hbit i
    have htail : leWord w p = leWord w q := by
      apply BitVec.eq_of_getLsbD_eq
      intro i hi
      by_cases hfit : i < 8 * p.length
      · have hb : b.toBitVec.getLsbD (i + 8) = false := BitVec.getLsbD_of_ge _ _ (by omega)
        have hc : c.toBitVec.getLsbD (i + 8) = false := BitVec.getLsbD_of_ge _ _ (by omega)
        have hiw : i + 8 < w := by omega
        have hlow : ¬i + 8 < 8 := by omega
        simpa [leWord, hb, hc, hiw, hlow, hi, ← BitVec.getLsbD_eq_getElem] using hbit (i + 8)
      · rw [leWord_high (by omega), leWord_high (by omega)]
    rw [hhead, leWord_injective hlen (by omega) htail]

section

variable {poly}

/-- Bytes that fit into the register are added to it before the shifts. -/
theorem foldl_update : ∀ {bytes : List UInt8} (c : BitVec w), 8 * bytes.length ≤ w →
    bytes.foldl (update poly) c = shifts poly (8 * bytes.length) (c ^^^ leWord w bytes)
  | [], c, _ => by simp [leWord, shifts]
  | b :: bytes, c, hw => by
    rw [List.length_cons] at hw
    -- The word of the rest has room for a byte, so it comes back from the shifts.
    have hrest : shifts poly 8 (leWord w bytes <<< 8) = leWord w bytes := by
      rw [shifts_high fun i hi => by simp [hi]]
      apply BitVec.eq_of_getLsbD_eq
      intro i hi
      by_cases hfit : 8 + i < w
      · have hlow : ¬8 + i < 8 := by omega
        simp [hfit, hlow, -BitVec.getLsbD_eq_getElem]
      · rw [leWord_high (by omega)]
        simp [hfit]
    rw [List.foldl_cons, foldl_update _ (by omega), update, leWord, List.length_cons,
      Nat.mul_succ, shifts_add, ← BitVec.xor_assoc, shifts_xor 8 _ (leWord w bytes <<< 8), hrest]

/-- Texts of one length that fit into the register have different checksums. -/
theorem checksum_injective (hpoly : poly.getLsbD (w - 1) = true) {p q : List UInt8}
    (hlen : p.length = q.length) (hw : 8 * p.length ≤ w)
    (h : checksum poly p = checksum poly q) : p = q := by
  have hfold := BitVec.not_inj.mp h
  rw [foldl_update _ hw, foldl_update _ (hlen ▸ hw), ← hlen] at hfold
  exact leWord_injective hlen hw ((BitVec.xor_right_inj _).mp (shifts_injective hpoly _ hfold))

theorem checksum_append (h : checksum poly p = checksum poly q)
    (bytes : List UInt8) : checksum poly (p ++ bytes) = checksum poly (q ++ bytes) := by
  rw [checksum, checksum, List.foldl_append, List.foldl_append, BitVec.not_inj.mp h]

/-- What stands before a common rest shows in the checksum exactly when it changes the
register. -/
theorem checksum_append_eq_iff (hpoly : poly.getLsbD (w - 1) = true) (p q bytes : List UInt8) :
    checksum poly (p ++ bytes) = checksum poly (q ++ bytes) ↔
      p.foldl (update poly) (BitVec.allOnes w) = q.foldl (update poly) (BitVec.allOnes w) := by
  unfold checksum
  rw [List.foldl_append, List.foldl_append]
  constructor
  · exact fun h => foldl_injective hpoly bytes (BitVec.not_inj.mp h)
  · exact fun h => by rw [h]

end

/-! ## CRC-32 -/

/-- The reflected IEEE polynomial. -/
def ieee : BitVec 32 := 0xEDB88320#32

example : checksum ieee [49, 50, 51, 52, 53, 54, 55, 56, 57] = 0xCBF43926#32 := by decide +kernel

end Gofusion.Lib.Crc
