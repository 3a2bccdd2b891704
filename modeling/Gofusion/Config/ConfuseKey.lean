import Gofusion.Lib.Crc
import Mathlib.Data.Set.Function

/-!
# Confused cipher keys

`cryptoConfuseKey` of `config/types.go`.  With `confuse_key` the cipher key is the exclusive or of
four streams of `math/rand`, and the configured key decides about three of their seeds, through
its CRC-64 and nothing else.  Up to eight bytes the checksum tells the keys apart.
-/

namespace Gofusion.Config

open Gofusion.Lib

abbrev Bytes := List UInt8

/-- The table of `crc64.ISO`. -/
def iso : BitVec 64 := 0xD800000000000000#64

/-- `cipher.RndSeed`. -/
def cipherSeed : BitVec 64 := BitVec.ofInt 64 (-3250455768463625913)

/-- `compress.RndSeed`. -/
def compressSeed : BitVec 64 := BitVec.ofInt 64 9009760027768254931

/-- `encode.RndSeed`. -/
def encodeSeed : BitVec 64 := BitVec.ofInt 64 (-6544809196299914340)

/-- The sources of `math/rand`: the bytes that `Read` gives for a seed. -/
abbrev Source := BitVec 64 → Nat → UInt8

/-- The streams that depend on the key, byte by byte. -/
def mask (source : Source) (n : Nat) (rndSeed : BitVec 64) : Bytes :=
  let k1 := source (cipherSeed ^^^ compressSeed ^^^ rndSeed)
  let k2 := source (cipherSeed ^^^ encodeSeed ^^^ rndSeed)
  let k3 := source (compressSeed ^^^ encodeSeed ^^^ rndSeed)
  (List.range n).map fun i => k1 i ^^^ k2 i ^^^ k3 i

def cryptoConfuseKey (source : Source) (key : Bytes) : Bytes :=
  let confused := source (cipherSeed ^^^ compressSeed ^^^ encodeSeed)
  (mask source key.length (Crc.checksum iso key)).mapIdx fun i b => confused i ^^^ b

example : Crc.checksum iso [49, 50, 51, 52, 53, 54, 55, 56, 57] = 0xB90956C775A41001#64 := by
  decide +kernel

/-- The last stream is the same for all keys. -/
theorem mapIdx_xor_inj (f : Nat → UInt8) {p q : Bytes} :
    (p.mapIdx fun i b => f i ^^^ b) = (q.mapIdx fun i b => f i ^^^ b) ↔ p = q := by
  constructor
  · intro h
    have hlen : p.length = q.length := by simpa using congrArg List.length h
    refine List.ext_getElem hlen fun i hp hq => ?_
    have hbyte : (p.mapIdx fun i b => f i ^^^ b)[i]? = (q.mapIdx fun i b => f i ^^^ b)[i]? := by
      rw [h]
    simpa [hp, hq] using hbyte
  · exact fun h => by rw [h]

/-- Keys of one length are merged exactly if their masks are. -/
theorem cryptoConfuseKey_eq_iff (source : Source) {p q : Bytes} (hlen : p.length = q.length) :
    cryptoConfuseKey source p = cryptoConfuseKey source q ↔
      mask source p.length (Crc.checksum iso p) = mask source p.length (Crc.checksum iso q) := by
  rw [cryptoConfuseKey, cryptoConfuseKey, mapIdx_xor_inj, hlen]

def nineZeros : Bytes := [0, 0, 0, 0, 0, 0, 0, 0, 0]

def likeNineZeros : Bytes := [1, 0, 0, 0, 0, 0, 0, 176, 1]

theorem checksum_likeNineZeros : Crc.checksum iso nineZeros = Crc.checksum iso likeNineZeros := by
  decide +kernel

theorem merged (source : Source) (rest : Bytes) :
    cryptoConfuseKey source (nineZeros ++ rest) = cryptoConfuseKey source (likeNineZeros ++ rest) := by
  rw [cryptoConfuseKey_eq_iff source (by simp [nineZeros, likeNineZeros]),
    Crc.checksum_append checksum_likeNineZeros]

theorem not_merged_start (rest : Bytes) : nineZeros ++ rest ≠ likeNineZeros ++ rest := by
  simp [nineZeros, likeNineZeros]

/-- No two keys of a length are merged exactly when they have at most eight bytes and the
streams tell their checksums apart. -/
theorem cryptoConfuseKey_injective_iff (source : Source) (n : Nat) :
    Set.InjOn (cryptoConfuseKey source) {key | key.length = n} ↔
      n ≤ 8 ∧ Set.InjOn (mask source n) (Crc.checksum iso '' {key | key.length = n}) := by
  constructor
  · intro hinj
    constructor
    · by_contra hn
      refine not_merged_start (List.replicate (n - 9) 0) (hinj ?_ ?_ (merged source _)) <;>
        simp [nineZeros, likeNineZeros] <;> omega
    · rintro _ ⟨p, rfl, rfl⟩ _ ⟨q, hq, rfl⟩ heq
      have hkeys := hinj rfl hq ((cryptoConfuseKey_eq_iff source hq.symm).mpr heq)
      rw [hkeys]
  · rintro ⟨hn, hinj⟩ p rfl q hq heq
    have hsum := hinj ⟨p, rfl, rfl⟩ ⟨q, hq, rfl⟩ ((cryptoConfuseKey_eq_iff source hq.symm).mp heq)
    exact Crc.checksum_injective (by decide) hq.symm (by omega) hsum

/-- Two keys for AES-128 give the same cipher key. -/
theorem aes_keys_merged :
    ∃ p q : Bytes, p ≠ q ∧ p.length = 16 ∧ q.length = 16 ∧
      ∀ source, cryptoConfuseKey source p = cryptoConfuseKey source q :=
  ⟨_, _, not_merged_start (List.replicate 7 0), rfl, rfl, fun source => merged source _⟩

end Gofusion.Config
