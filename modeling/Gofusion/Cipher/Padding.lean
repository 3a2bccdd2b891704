import Gofusion.Cipher.BlockMode
import Mathlib.Tactic.Common

/-!
# Padding

`PKCS7Unpad` does not know the block size.  It takes off any run of `n` bytes `n`, also one that is
longer than a block, and it takes nothing off no bytes at all.  So it accepts more than
`PKCS7Pad` returns.
-/

namespace Gofusion.Cipher

variable {size n : Nat} {data x : Bytes}

theorem dvd_length_pkcs7Pad (hpos : 0 < size) (data : Bytes) :
    size ∣ (pkcs7Pad data size).length := by
  have hmod := Nat.mod_lt data.length hpos
  have hdiv := Nat.div_add_mod data.length size
  rw [pkcs7Pad, if_neg (by omega), List.length_append, List.length_replicate]
  exact ⟨data.length / size + 1, by rw [Nat.mul_add]; omega⟩

theorem pkcs7Unpad_append (data : Bytes) (hpos : 0 < n) (hle : n ≤ 255) :
    pkcs7Unpad (data ++ List.replicate n (UInt8.ofNat n)) = .ok data := by
  obtain ⟨k, rfl⟩ := Nat.exists_eq_add_one.mpr hpos
  have hbyte : (UInt8.ofNat (k + 1)).toNat = k + 1 := by
    rw [UInt8.toNat_ofNat']
    omega
  generalize UInt8.ofNat (k + 1) = last at hbyte ⊢
  have hlast : (data ++ List.replicate (k + 1) last).getLast? = some last := by
    rw [List.replicate_succ', ← List.append_assoc, List.getLast?_concat]
  have hall : (((data ++ List.replicate (k + 1) last).reverse.take (k + 1)).drop 1).all
      (· == last) = true := by
    rw [List.reverse_append, List.reverse_replicate, List.take_left' (List.length_replicate),
      List.drop_replicate, List.all_eq_true]
    intro y hy
    exact beq_iff_eq.mpr (List.eq_of_mem_replicate hy)
  have hlen : (data ++ List.replicate (k + 1) last).length = data.length + (k + 1) := by
    rw [List.length_append, List.length_replicate]
  rw [pkcs7Unpad, hlast]
  simp only [hbyte, hlen]
  rw [if_neg (by omega), if_pos hall, Nat.add_sub_cancel, List.take_left' rfl]

/-- The padding is `n` bytes `n`, at least one and at most a block. -/
theorem pkcs7Pad_eq (hpos : 0 < size) (data : Bytes) : ∃ n, 0 < n ∧ n ≤ size ∧
    pkcs7Pad data size = data ++ List.replicate n (UInt8.ofNat n) := by
  have hmod := Nat.mod_lt data.length hpos
  refine ⟨size - data.length % size, by omega, by omega, ?_⟩
  rw [pkcs7Pad, if_neg (by omega)]

theorem pkcs7Unpad_pkcs7Pad (hpos : 0 < size) (hle : size ≤ 255) (data : Bytes) :
    pkcs7Unpad (pkcs7Pad data size) = .ok data := by
  obtain ⟨n, hn, hle', hpad⟩ := pkcs7Pad_eq hpos data
  rw [hpad, pkcs7Unpad_append data hn (by omega)]

theorem pkcs7Unpad_eq_ok : pkcs7Unpad data = .ok x ↔ data = [] ∧ x = [] ∨
    ∃ n, 0 < n ∧ n ≤ 255 ∧ data = x ++ List.replicate n (UInt8.ofNat n) := by
  constructor
  · intro h
    rw [pkcs7Unpad] at h
    split at h
    next hnone =>
      obtain rfl := List.getLast?_eq_none_iff.mp hnone
      cases h
      exact .inl ⟨rfl, rfl⟩
    next last hlast =>
      obtain ⟨ys, rfl⟩ := List.getLast?_eq_some_iff.mp hlast
      dsimp only at h
      split at h
      next => cases h
      next hsize =>
        split at h
        next hall =>
          -- the last `n` bytes, read backwards, are the last one and `n - 1` others
          have hx := Except.ok.inj h
          obtain ⟨k, hk⟩ := Nat.exists_eq_add_one.mpr (show 0 < last.toNat by omega)
          rw [List.length_append, List.length_singleton] at hsize
          rw [List.reverse_append, hk] at hall
          have hrun : ys.reverse.take k = List.replicate k last :=
            List.eq_replicate_iff.mpr ⟨List.length_take_of_le (by rw [List.length_reverse]; omega),
              fun y hy => beq_iff_eq.mp (List.all_eq_true.mp hall y hy)⟩
          have hsuffix : ys = ys.take (ys.length - k) ++ List.replicate k last := by
            rw [← List.reverse_inj, List.reverse_append, List.reverse_replicate, ← hrun,
              List.reverse_take, Nat.sub_sub_self (by omega), List.take_append_drop]
          have hprefix : x = ys.take (ys.length - k) := by
            rw [← hx, List.length_append, List.length_singleton, hk, Nat.add_sub_add_right,
              List.take_append_of_le_length (by omega)]
          refine .inr ⟨k + 1, by omega, by have := last.toNat_lt; omega, ?_⟩
          rw [← hk, UInt8.ofNat_toNat, hk, List.replicate_succ', ← List.append_assoc, hprefix,
            ← hsuffix]
        next => cases h
  · rintro (⟨rfl, rfl⟩ | ⟨n, hpos, hle, rfl⟩)
    · rfl
    · exact pkcs7Unpad_append x hpos hle

/-- Of whole blocks a run of at most a block is the padding of the rest. -/
theorem eq_pkcs7Pad (hpos : 0 < n) (hle : n ≤ size)
    (hdvd : size ∣ (x ++ List.replicate n (UInt8.ofNat n)).length) :
    x ++ List.replicate n (UInt8.ofNat n) = pkcs7Pad x size := by
  rw [List.length_append, List.length_replicate] at hdvd
  have hmod := Nat.mod_lt x.length (show 0 < size by omega)
  have hdiv := Nat.div_add_mod x.length size
  have hrest : size ∣ x.length % size + n := by
    refine (Nat.dvd_add_right (Nat.dvd_mul_right size (x.length / size))).mp ?_
    rwa [← Nat.add_assoc, hdiv]
  have hsize : x.length % size + n = size := by
    obtain ⟨c, hc⟩ := hrest
    obtain rfl : c = 1 := by
      rcases c with - | - | c
      · omega
      · rfl
      · rw [Nat.mul_add, Nat.mul_add] at hc
        omega
    omega
  rw [pkcs7Pad, if_neg (by omega), show size - x.length % size = n by omega]

/-- A message comes back from its padding.  And of whole blocks `PKCS7Unpad` accepts exactly what
`PKCS7Pad` returns, and gives the message back, unless there are no bytes or they end with a run
of bytes `n` that is longer than a block. -/
theorem unpads_exactly_iff (b : Nat) (hpos : 1 ≤ b) (hle : b ≤ 255) :
    (∀ x, pkcs7Unpad (pkcs7Pad x b) = .ok x) ∧ ∀ d : Bytes, b ∣ d.length →
      ((∀ x, pkcs7Unpad d = .ok x ↔ d = pkcs7Pad x b) ↔ d ≠ [] ∧
        ¬∃ x n, b < n ∧ n ≤ 255 ∧ d = x ++ List.replicate n (UInt8.ofNat n)) := by
  have hback := pkcs7Unpad_pkcs7Pad hpos hle
  refine ⟨hback, fun d hd => ⟨fun h => ⟨?_, ?_⟩, fun ⟨hne, hrun⟩ x => ⟨fun hok => ?_, ?_⟩⟩⟩
  · rintro rfl
    obtain ⟨n, hn, -, hpad⟩ := pkcs7Pad_eq hpos []
    have hlen := congrArg List.length (((h []).mp rfl).trans hpad)
    rw [List.nil_append, List.length_replicate, List.length_nil] at hlen
    omega
  · rintro ⟨x, n, hbn, hn, rfl⟩
    obtain ⟨n', hn', hle', hpad⟩ := pkcs7Pad_eq hpos x
    have hlen := congrArg List.length
      (((h x).mp (pkcs7Unpad_append x (by omega) hn)).trans hpad)
    simp only [List.length_append, List.length_replicate] at hlen
    omega
  · rcases pkcs7Unpad_eq_ok.mp hok with ⟨rfl, -⟩ | ⟨n, hn, hn', rfl⟩
    · exact absurd rfl hne
    · refine eq_pkcs7Pad hn ?_ hd
      by_contra hlt
      exact hrun ⟨x, n, by omega, hn', rfl⟩
  · rintro rfl
    exact hback x

/-- A block of AES with two bytes of padding. -/
theorem fourteen_zeros_unpadded : 16 ∣ (List.replicate 14 0 ++ [2, 2] : Bytes).length ∧
    ∀ x : Bytes, pkcs7Unpad (List.replicate 14 0 ++ [2, 2]) = .ok x ↔
      List.replicate 14 0 ++ [2, 2] = pkcs7Pad x 16 := by
  refine ⟨by decide, ((unpads_exactly_iff 16 (by decide) (by decide)).2 _ (by decide)).mpr
    ⟨by decide, ?_⟩⟩
  rintro ⟨x, n, hlt, -, h⟩
  have hlen : 16 = (x ++ List.replicate n (UInt8.ofNat n)).length := congrArg List.length h
  rw [List.length_append, List.length_replicate] at hlen
  omega

/-- No bytes, and two blocks of AES that are all one padding, are accepted. -/
theorem empty_and_long_padding_unpadded :
    (pkcs7Unpad [] = .ok [] ∧ ∀ x, [] ≠ pkcs7Pad x 16) ∧
      pkcs7Unpad (List.replicate 32 32) = .ok [] ∧ ∀ x, List.replicate 32 32 ≠ pkcs7Pad x 16 := by
  -- both are read as the padding of no bytes, which is a block of sixteens
  have hnil {d} (hd : pkcs7Unpad d = .ok []) (hne : d ≠ pkcs7Pad [] 16) x : d ≠ pkcs7Pad x 16 := by
    rintro rfl
    rw [pkcs7Unpad_pkcs7Pad (by decide) (by decide)] at hd
    exact hne (by rw [Except.ok.inj hd])
  exact ⟨⟨rfl, hnil rfl (by decide)⟩, by decide, hnil (by decide) (by decide)⟩

end Gofusion.Cipher
