import Gofusion.Db.Sharding.Dispatch
import Gofusion.Lib.Bytes
import Gofusion.Lib.Crc
import Gofusion.Lib.Format
import Mathlib.Data.Nat.ModEq
import Mathlib.Data.Int.GCD

/-!
# The hash of the sharding keys

`defaultShardingFunc` without raw values and without an expression.  The values of the keys are
written one behind the other in big-endian order, and the CRC-32 of the bytes modulo the number of
shards is the number of the shard.

How a number is written depends on the Go type that carries it: `int` and `uint` are narrowed to
the smallest type that holds the number, and a text that is a number becomes the gob encoding of a
`big.Float`.
-/

namespace Gofusion.Db

open Gofusion.Lib

/-! ## Configuration -/

/-- The settings of a `TableShardingConfig` that this mode reads. -/
structure HashSettings where
  shardingKeys : List Text
  numberOfShards : Nat
  customSuffix : Text

/-- The verb for a number of shards, none from 10000 on. -/
def shardVerb (numberOfShards : Nat) : Text :=
  if numberOfShards < 10 then "_%01d".toList
  else if numberOfShards < 100 then "_%02d".toList
  else if numberOfShards < 1000 then "_%03d".toList
  else if numberOfShards < 10000 then "_%04d".toList
  else []

/-- The format before a verb is added. -/
def HashSettings.name (s : HashSettings) : Text :=
  '_' :: if isStrBlank s.customSuffix then List.intercalate ['_'] s.shardingKeys else s.customSuffix

def HashSettings.suffixFormat (s : HashSettings) : Text :=
  if '%' ∈ s.name then s.name else s.name ++ shardVerb s.numberOfShards

/-- The settings that `DefaultTableSharding` accepts, with a suffix format of plain
text and decimal verbs. -/
structure HashConfig extends HashSettings where
  keys_ne_nil : shardingKeys ≠ []
  shards_pos : 0 < numberOfShards
  shards_lt : numberOfShards < 100000
  format_isSome : (Format.parse toHashSettings.suffixFormat).isSome

def HashConfig.suffix (cfg : HashConfig) (shard : Nat) : Text :=
  Format.printAs "uint64".toList shard ((Format.parse cfg.suffixFormat).get cfg.format_isSome)

/-! ## Bytes of a value -/

/-- `utils.IntNarrow`, on a number in the range of `int`. -/
def intNarrow (n : Int) : IntType :=
  if -2 ^ 7 ≤ n ∧ n < 2 ^ 7 then .int8
  else if -2 ^ 15 ≤ n ∧ n < 2 ^ 15 then .int16
  else if -2 ^ 31 ≤ n ∧ n < 2 ^ 31 then .int32
  else .int64

/-- `utils.UintNarrow`, on a number in the range of `uint`. -/
def uintNarrow (n : Int) : IntType :=
  if n < 2 ^ 8 then .uint8
  else if n < 2 ^ 16 then .uint16
  else if n < 2 ^ 32 then .uint32
  else .uint64

def IntType.written : IntType → Int → IntType
  | .int, n => intNarrow n
  | .uint, n => uintNarrow n
  | t, _ => t

/-- The size of a type in bytes, on a platform of 64 bits. -/
def IntType.size : IntType → Nat
  | .int8 | .uint8 => 1
  | .int16 | .uint16 => 2
  | .int32 | .uint32 => 4
  | .int | .uint | .int64 | .uint64 => 8

def plainDecimal : List UInt8 → Option (Bool × Nat)
  | [] => none
  | b :: bs =>
    let digits := if b = 43 ∨ b = 45 then bs else b :: bs
    if digits ≠ [] ∧ digits.all (fun d => 48 ≤ d && d ≤ 57) then
      some (b = 45, digits.foldl (fun m d => 10 * m + (d.toNat - 48)) 0)
    else none

/-- A number rounded to 64 bits, half to even: the exponent, the mantissa with its
top bit set, and whether the result is below, equal to or above the number. -/
def roundTo64 (m : Nat) : Nat × Nat × Ordering :=
  let bits := m.log2 + 1
  if bits ≤ 64 then (bits, m <<< (64 - bits), .eq)
  else
    let q := m >>> (bits - 64)
    let r := m % 2 ^ (bits - 64)
    let half := 2 ^ (bits - 65)
    if r = 0 then (bits, q, .eq)
    else if r < half ∨ r = half ∧ q % 2 = 0 then (bits, q, .lt)
    else if q + 1 = 2 ^ 64 then (bits + 1, 2 ^ 63, .gt)
    else (bits, q + 1, .gt)

/-- The accuracy of a signed number, as `Float.acc + 1`. -/
def accuracy (neg : Bool) : Ordering → Nat
  | .eq => 1
  | .lt => if neg then 2 else 0
  | .gt => if neg then 0 else 2

/-- `Float.GobEncode` of an integer read with the default precision. -/
def gobEncode (neg : Bool) (m : Nat) : List UInt8 :=
  if m = 0 then [1, UInt8.ofNat (8 + neg.toNat)] ++ beBytes 4 64
  else
    let (exp, mant, acc) := roundTo64 m
    [1, UInt8.ofNat (8 * accuracy neg acc + 2 + neg.toNat)] ++ beBytes 4 64 ++ beBytes 4 exp ++
      beBytes 8 mant

/-- What the encoding takes from elsewhere. -/
structure Codec where
  /-- `big.Float` on a text that is no plain decimal integer: its gob encoding if the
  text is a number. -/
  gobFloat : List UInt8 → Option (List UInt8)
  /-- `uuid.Parse`. -/
  parseUUID : List UInt8 → Option (List UInt8)
  /-- The shortest form of a UUID has 32 digits. -/
  parseUUID_short : ∀ s, s.length < 32 → parseUUID s = none
  /-- `binary.Write` of a value of another type. -/
  encodeOther : Nat → Except DbError (List UInt8)

def Codec.number (codec : Codec) (s : List UInt8) : Option (List UInt8) :=
  if s = [] then none
  else match plainDecimal s with
    | some (neg, m) => some (gobEncode neg m)
    | none => codec.gobFloat s

/-- `stringToByteSliceFunc`. -/
def Codec.stringToByteSlice (codec : Codec) (s : List UInt8) : List UInt8 :=
  match codec.number s with
  | some b => b
  | none => (codec.parseUUID s).getD s

def utf8 (s : Text) : List UInt8 := s.flatMap String.utf8EncodeChar

def Codec.encode (codec : Codec) : Value → Except Fault (List UInt8)
  | .null => .error .panic
  | .num t n => .ok (beBytes (t.written n).size n)
  | .string s => .ok (codec.stringToByteSlice (utf8 s))
  | .bytes b => .ok (codec.stringToByteSlice b)
  | .uuid b => .ok b
  | .other tag => match codec.encodeOther tag with
    | .ok b => .ok b
    | .error e => .error (.error e)

/-- The number of the shard for what was written. -/
def HashConfig.shard (cfg : HashConfig) (data : List (List UInt8)) : Nat :=
  (Crc.checksum Crc.ieee data.flatten).toNat % cfg.numberOfShards

/-- The sharding function of the hash mode. -/
def HashConfig.shardingFunc (cfg : HashConfig) (codec : Codec) (values : List Value) :
    Except Fault Text := do
  let data ← values.mapM codec.encode
  .ok (cfg.suffix (cfg.shard data))

/-! ## Carriers of a number -/

/-- The ways in which an integer gets to the sharding function: in a model field or
a bind argument of one of four types, or as the text of a literal. -/
inductive Carrier
  | int | int64 | uint | uint64 | literal
deriving DecidableEq, Repr

def decimalInt (n : Int) : Text := if n < 0 then '-' :: decimal n.natAbs else decimal n.natAbs

/-- The value that carries an integer, if the type holds it. -/
def Carrier.value (n : Int) : Carrier → Option Value
  | .int => if -2 ^ 63 ≤ n ∧ n < 2 ^ 63 then some (.num .int n) else none
  | .int64 => if -2 ^ 63 ≤ n ∧ n < 2 ^ 63 then some (.num .int64 n) else none
  | .uint => if 0 ≤ n ∧ n < 2 ^ 64 then some (.num .uint n) else none
  | .uint64 => if 0 ≤ n ∧ n < 2 ^ 64 then some (.num .uint64 n) else none
  | .literal => some (.string (decimalInt n))

inductive Encoding
  | narrowSigned | narrowUnsigned | wide | gob
deriving DecidableEq, Repr

def Carrier.encoding : Carrier → Encoding
  | .int => .narrowSigned
  | .uint => .narrowUnsigned
  | .int64 | .uint64 => .wide
  | .literal => .gob

/-- Two carriers of an integer in one column lead to the same suffix, whatever the
other columns hold. -/
def Agree (cfg : HashConfig) (codec : Codec) (n : Int) (c d : Carrier) : Prop :=
  ∀ v w, c.value n = some v → d.value n = some w → ∀ before after : List Value,
    before.length + 1 + after.length = cfg.shardingKeys.length →
    cfg.shardingFunc codec (before ++ v :: after) = cfg.shardingFunc codec (before ++ w :: after)

/-! ## One column -/

variable {cfg : HashConfig} {codec : Codec}

variable {v : Value} {b : List UInt8} {n : Int} {c d : Carrier} {e : Encoding}

theorem shardingFunc_insert (h : codec.encode v = .ok b) (before after : List Value) :
    cfg.shardingFunc codec (before ++ v :: after) = (do
      let xs ← before.mapM codec.encode
      let ys ← after.mapM codec.encode
      .ok (cfg.suffix (cfg.shard (xs ++ b :: ys)))) := by
  simp only [HashConfig.shardingFunc, List.mapM_append, List.mapM_cons, h, bind_assoc, pure_bind]
  rfl

theorem encode_empty (codec : Codec) : codec.encode (.string []) = .ok [] := by
  have huuid : codec.parseUUID [] = none := codec.parseUUID_short [] (by decide)
  simp [Codec.encode, Codec.stringToByteSlice, Codec.number, utf8, huuid]

theorem mapM_encode_empty (codec : Codec) : ∀ k : Nat,
    (List.replicate k (Value.string [])).mapM codec.encode = .ok (List.replicate k [])
  | 0 => rfl
  | k + 1 => by
    rw [List.replicate_succ, List.mapM_cons, encode_empty, mapM_encode_empty codec k]
    rfl

/-- With empty texts in all other columns the suffix shows the checksum. -/
theorem shardingFunc_alone (h : codec.encode v = .ok b) (k : Nat) :
    cfg.shardingFunc codec ([] ++ v :: List.replicate k (.string [])) =
      .ok (cfg.suffix ((Crc.checksum Crc.ieee b).toNat % cfg.numberOfShards)) := by
  have hdata : (([] : List (List UInt8)) ++ b :: List.replicate k []).flatten = b := by simp
  rw [shardingFunc_insert h, mapM_encode_empty, List.mapM_nil]
  simp only [bind, Except.bind, pure, Except.pure, HashConfig.shard, hdata]

theorem suffix_injective (h : cfg.suffix i = cfg.suffix j) : i = j :=
  Int.ofNat.inj (Format.printAs_injective _ h)

/-! ## Literals -/

theorem utf8EncodeChar_digit {c : Char} (h : c.isDigit) :
    String.utf8EncodeChar c = [UInt8.ofNat c.toNat] ∧ 48 ≤ c.toNat ∧ c.toNat ≤ 57 := by
  have hr : 48 ≤ c.toNat ∧ c.toNat ≤ 57 := by
    simp only [Char.isDigit, ge_iff_le, Bool.and_eq_true, decide_eq_true_eq] at h
    exact ⟨UInt32.le_iff_toNat_le.mp h.1, UInt32.le_iff_toNat_le.mp h.2⟩
  refine ⟨?_, hr⟩
  have hval : c.val.toNat ≤ 127 := Nat.le_trans hr.2 (by decide)
  rw [String.utf8EncodeChar, if_pos hval]
  rfl

theorem utf8_digits : ∀ {ds : Text}, (∀ c ∈ ds, c.isDigit) →
    (utf8 ds).length = ds.length ∧ (utf8 ds).all (fun d => 48 ≤ d && d ≤ 57) = true ∧
      ∀ m, (utf8 ds).foldl (fun m d => 10 * m + (d.toNat - 48)) m = Nat.ofDigitChars 10 ds m
  | [], _ => ⟨rfl, rfl, fun _ => rfl⟩
  | c :: ds, h => by
    obtain ⟨hc, hds⟩ := List.forall_mem_cons.mp h
    obtain ⟨henc, hlo, hhi⟩ := utf8EncodeChar_digit hc
    obtain ⟨hlen, hall, hfold⟩ := utf8_digits hds
    have hcons : utf8 (c :: ds) = UInt8.ofNat c.toNat :: utf8 ds := by simp [utf8, henc]
    have hnat : (UInt8.ofNat c.toNat).toNat = c.toNat := UInt8.toNat_ofNat_of_lt (by
      simp [UInt8.size]; omega)
    refine ⟨by rw [hcons, List.length_cons, List.length_cons, hlen], ?_, fun m => ?_⟩
    · rw [hcons, List.all_cons, hall]
      simp [UInt8.le_iff_toNat_le, hnat, hlo, hhi]
    · rw [hcons, List.foldl_cons, hnat, hfold, Nat.ofDigitChars_cons]
      rfl

theorem plainDecimal_decimalInt (n : Int) :
    plainDecimal (utf8 (decimalInt n)) = some (decide (n < 0), n.natAbs) := by
  have hdigits : ∀ c ∈ decimal n.natAbs, c.isDigit := fun c hc =>
    Nat.isDigit_of_mem_toDigits (by decide) (by decide) hc
  obtain ⟨hlen, hall, hfold⟩ := utf8_digits hdigits
  have hne : utf8 (decimal n.natAbs) ≠ [] := by
    intro h
    rw [h] at hlen
    exact Nat.toDigits_ne_nil (List.eq_nil_of_length_eq_zero hlen.symm)
  have hval : (utf8 (decimal n.natAbs)).foldl (fun m d => 10 * m + (d.toNat - 48)) 0 = n.natAbs :=
    (hfold 0).trans Nat.ofDigitChars_ten_toDigits
  by_cases hn : n < 0
  · have hcons : utf8 (decimalInt n) = 45 :: utf8 (decimal n.natAbs) := by
      rw [decimalInt, if_pos hn]
      rfl
    rw [hcons, plainDecimal]
    simp only [or_true, if_true]
    rw [if_pos ⟨hne, hall⟩, hval]
    simp [hn]
  · rw [decimalInt, if_neg hn]
    cases hs : utf8 (decimal n.natAbs) with
    | nil => exact absurd hs hne
    | cons b bs =>
      rw [hs] at hall hval
      have hb : ¬(b = 43 ∨ b = 45) := by
        rintro (rfl | rfl) <;> simp at hall
      have hb' : b ≠ 45 := fun h => hb (.inr h)
      rw [plainDecimal]
      simp only [if_neg hb]
      rw [if_pos ⟨nofun, hall⟩, hval]
      simp [hn, hb']

def Encoding.bytes (n : Int) : Encoding → List UInt8
  | .narrowSigned => beBytes (intNarrow n).size n
  | .narrowUnsigned => beBytes (uintNarrow n).size n
  | .wide => beBytes 8 n
  | .gob => gobEncode (n < 0) n.natAbs

theorem Carrier.encode_value (h : c.value n = some v) :
    codec.encode v = .ok (c.encoding.bytes n) := by
  cases c with
  | literal =>
    obtain rfl := Option.some.inj h
    have hne : utf8 (decimalInt n) ≠ [] := by
      intro hnil
      have := plainDecimal_decimalInt n
      rw [hnil] at this
      cases this
    simp [Codec.encode, Codec.stringToByteSlice, Codec.number, hne, plainDecimal_decimalInt,
      encoding, Encoding.bytes]
  | int | int64 | uint | uint64 =>
    obtain ⟨-, hv⟩ := Option.ite_none_right_eq_some.mp h
    obtain rfl := Option.some.inj hv
    rfl

/-! ## Agreement -/

theorem Agree.checksum_mod (h : Agree cfg codec n c d) (hc : (c.value n).isSome)
    (hd : (d.value n).isSome) :
    (Crc.checksum Crc.ieee (c.encoding.bytes n)).toNat % cfg.numberOfShards =
      (Crc.checksum Crc.ieee (d.encoding.bytes n)).toNat % cfg.numberOfShards := by
  obtain ⟨v, hv⟩ := Option.isSome_iff_exists.mp hc
  obtain ⟨w, hw⟩ := Option.isSome_iff_exists.mp hd
  have hlen : 0 < cfg.shardingKeys.length := List.length_pos_iff.mpr cfg.keys_ne_nil
  have heq := h v w hv hw [] (List.replicate (cfg.shardingKeys.length - 1) (.string []))
    (by simp; omega)
  rw [shardingFunc_alone (Carrier.encode_value hv),
    shardingFunc_alone (Carrier.encode_value hw)] at heq
  exact suffix_injective (Except.ok.inj heq)

/-- Encodings with the same shards agree. -/
theorem agree_of_shard (h : ∀ xs ys, cfg.shard (xs ++ c.encoding.bytes n :: ys) =
      cfg.shard (xs ++ d.encoding.bytes n :: ys)) : Agree cfg codec n c d := by
  intro v w hv hw before after _
  rw [shardingFunc_insert (Carrier.encode_value hv), shardingFunc_insert (Carrier.encode_value hw)]
  simp only [h]


def sample : List Int := [129, 40000, 70000]

def Encoding.crc (n : Int) (e : Encoding) : Nat := (Crc.checksum Crc.ieee (e.bytes n)).toNat

/-- The greatest common divisor of the differences of checksums over some numbers. -/
def spread (e f : Encoding) : List Int → Nat
  | [] => 0
  | n :: ns => Nat.gcd ((e.crc n : Int) - f.crc n).natAbs (spread e f ns)

theorem dvd_spread {f : Encoding} : ∀ {ns : List Int},
    (∀ n ∈ ns, e.crc n % shards = f.crc n % shards) → shards ∣ spread e f ns
  | [], _ => Nat.dvd_zero _
  | n :: ns, h => by
    obtain ⟨hn, hns⟩ := List.forall_mem_cons.mp h
    have hdvd : (shards : Int) ∣ (e.crc n : Int) - f.crc n :=
      (Nat.modEq_iff_dvd.mp (Nat.ModEq.symm hn))
    exact Nat.dvd_gcd (Int.natCast_dvd.mp hdvd) (dvd_spread hns)

theorem spread_sample : ∀ e f : Encoding, e ≠ f → spread e f sample = 1
  | .narrowSigned, .narrowUnsigned, _ => by decide +kernel
  | .narrowSigned, .wide, _ => by decide +kernel
  | .narrowSigned, .gob, _ => by decide +kernel
  | .narrowUnsigned, .narrowSigned, _ => by decide +kernel
  | .narrowUnsigned, .wide, _ => by decide +kernel
  | .narrowUnsigned, .gob, _ => by decide +kernel
  | .wide, .narrowSigned, _ => by decide +kernel
  | .wide, .narrowUnsigned, _ => by decide +kernel
  | .wide, .gob, _ => by decide +kernel
  | .gob, .narrowSigned, _ => by decide +kernel
  | .gob, .narrowUnsigned, _ => by decide +kernel
  | .gob, .wide, _ => by decide +kernel
  | .narrowSigned, .narrowSigned, h | .narrowUnsigned, .narrowUnsigned, h
  | .wide, .wide, h | .gob, .gob, h => absurd rfl h

theorem sample_isSome (c : Carrier) : ∀ n ∈ sample, (c.value n).isSome := by
  cases c <;> exact List.forall_mem_cons.mpr ⟨rfl, List.forall_mem_cons.mpr
    ⟨rfl, List.forall_mem_singleton.mpr rfl⟩⟩

/-- For a fixed number of shards, two carriers agree on every number exactly when
there is one shard or both are encoded in the same way. -/
theorem agree_iff_encoding (cfg : HashConfig) (codec : Codec) (c d : Carrier) :
    (∀ n, Agree cfg codec n c d) ↔ cfg.numberOfShards = 1 ∨ c.encoding = d.encoding := by
  constructor
  · intro h
    by_cases he : c.encoding = d.encoding
    · exact .inr he
    · have hmod : ∀ n ∈ sample,
          c.encoding.crc n % cfg.numberOfShards = d.encoding.crc n % cfg.numberOfShards :=
        fun n hn => (h n).checksum_mod (sample_isSome c n hn) (sample_isSome d n hn)
      have hdvd := dvd_spread hmod
      rw [spread_sample _ _ he] at hdvd
      exact .inl (Nat.dvd_one.mp hdvd)
  · rintro (h | h) n
    · exact agree_of_shard fun xs ys => by simp [HashConfig.shard, h, Nat.mod_one]
    · exact agree_of_shard fun xs ys => by rw [h]

/-! ## Numbers on which integer types agree -/

def Encoding.width (n : Int) : Encoding → Nat
  | .narrowSigned => (intNarrow n).size
  | .narrowUnsigned => (uintNarrow n).size
  | .wide | .gob => 8

/-- Every encoding but gob is big-endian with its width. -/
theorem Encoding.bytes_eq (h : e ≠ .gob) (n : Int) : e.bytes n = beBytes (e.width n) n := by
  cases e with
  | gob => exact absurd rfl h
  | narrowSigned | narrowUnsigned | wide => rfl

def Fits (w : Nat) (n : Int) : Prop := 0 < w ∧ w ≤ 8 ∧ -256 ^ w ≤ n ∧ n < 256 ^ w

theorem intNarrow_fits (h : -2 ^ 63 ≤ n ∧ n < 2 ^ 63) : Fits (intNarrow n).size n := by
  unfold Fits intNarrow
  repeat' split
  all_goals simp only [IntType.size] at *; omega

theorem uintNarrow_fits (h : 0 ≤ n ∧ n < 2 ^ 64) : Fits (uintNarrow n).size n := by
  unfold Fits uintNarrow
  repeat' split
  all_goals simp only [IntType.size] at *; omega

theorem Carrier.fits (h : (c.value n).isSome) (hg : c.encoding ≠ .gob) :
    Fits (c.encoding.width n) n := by
  obtain ⟨v, hv⟩ := Option.isSome_iff_exists.mp h
  cases c with
  | literal => exact absurd rfl hg
  | int => exact intNarrow_fits (Option.ite_none_right_eq_some.mp hv).1
  | uint => exact uintNarrow_fits (Option.ite_none_right_eq_some.mp hv).1
  | int64 | uint64 =>
    have hr := (Option.ite_none_right_eq_some.mp hv).1
    simp only [Fits, encoding, Encoding.width]
    omega

theorem sign_changes_register : ∀ k < 8, k ≠ 0 → ∀ b ∈ [(0 : UInt8), 255],
    (List.replicate k b).foldl (Crc.update Crc.ieee) (BitVec.allOnes 32) ≠ BitVec.allOnes 32 := by
  decide +kernel

/-- Two widths of one number have different checksums. -/
theorem checksum_widen_ne (h : Fits w n) (h' : Fits w' n) (hlt : w < w') :
    Crc.checksum Crc.ieee (beBytes w' n) ≠ Crc.checksum Crc.ieee (beBytes w n) := by
  obtain ⟨hpos, -, hlo, hhi⟩ := h
  obtain ⟨-, hw', -⟩ := h'
  have hwide := beBytes_widen hlo hhi (w' - w)
  rw [Nat.sub_add_cancel (Nat.le_of_lt hlt)] at hwide
  have hsign : signByte n ∈ [(0 : UInt8), 255] := by
    unfold signByte
    split <;> simp
  intro h
  rw [hwide, ← List.nil_append (beBytes w n), ← List.append_assoc,
    Crc.checksum_append_eq_iff (by decide), List.append_nil] at h
  exact sign_changes_register _ (by omega) (by omega) _ hsign h

/-- Two integer types have the same checksum exactly when they write the same number
of bytes. -/
theorem crc_eq_iff_width (hc : (c.value n).isSome) (hd : (d.value n).isSome)
    (hcg : c.encoding ≠ .gob) (hdg : d.encoding ≠ .gob) :
    c.encoding.crc n = d.encoding.crc n ↔ c.encoding.width n = d.encoding.width n := by
  have hcf := Carrier.fits hc hcg
  have hdf := Carrier.fits hd hdg
  simp only [Encoding.crc, Encoding.bytes_eq hcg, Encoding.bytes_eq hdg, BitVec.toNat_inj]
  rcases Nat.lt_trichotomy (c.encoding.width n) (d.encoding.width n) with h | h | h
  · exact iff_of_false (fun he => checksum_widen_ne hcf hdf h he.symm) h.ne
  · exact iff_of_true (by rw [h]) h
  · exact iff_of_false (checksum_widen_ne hdf hcf h) h.ne'

/-- A configuration with one key and the default suffix. -/
def plainConfig (numberOfShards : Nat) (hpos : 10000 ≤ numberOfShards)
    (hlt : numberOfShards < 100000) : HashConfig where
  shardingKeys := [['a']]
  numberOfShards := numberOfShards
  customSuffix := []
  keys_ne_nil := nofun
  shards_pos := by omega
  shards_lt := hlt
  format_isSome := by
    have hverb : shardVerb numberOfShards = [] := by
      unfold shardVerb
      split_ifs <;> first | omega | rfl
    have hformat : HashSettings.suffixFormat ⟨[['a']], numberOfShards, []⟩ = ['_', 'a'] := by
      simp [HashSettings.suffixFormat, HashSettings.name, isStrBlank, hverb]
    rw [hformat]
    rfl

/-- Two numbers of 32 bits with the same shards of 99999 and of 99998 are equal. -/
theorem eq_of_mod_eq (hx : x < 2 ^ 32) (hy : y < 2 ^ 32)
    (h₁ : x % 99999 = y % 99999) (h₂ : x % 99998 = y % 99998) : x = y := by
  have hcop : Nat.Coprime 99999 99998 := rfl
  have hmod : x ≡ y [MOD 99999 * 99998] := (Nat.modEq_and_modEq_iff_modEq_mul hcop).mp ⟨h₁, h₂⟩
  exact Nat.ModEq.eq_of_lt_of_lt hmod (by omega) (by omega)

/-- Two integer types agree on a number in every configuration exactly when they
write it with the same number of bytes. -/
theorem agree_iff_width (codec : Codec) (hc : (c.value n).isSome) (hd : (d.value n).isSome)
    (hcg : c.encoding ≠ .gob) (hdg : d.encoding ≠ .gob) :
    (∀ cfg, Agree cfg codec n c d) ↔ c.encoding.width n = d.encoding.width n := by
  rw [← crc_eq_iff_width hc hd hcg hdg]
  constructor
  · intro h
    exact eq_of_mod_eq (BitVec.isLt _) (BitVec.isLt _)
      ((h (plainConfig 99999 (by omega) (by omega))).checksum_mod hc hd)
      ((h (plainConfig 99998 (by omega) (by omega))).checksum_mod hc hd)
  · intro h cfg
    have hw := (crc_eq_iff_width hc hd hcg hdg).mp h
    have hbytes : c.encoding.bytes n = d.encoding.bytes n := by
      rw [Encoding.bytes_eq hcg, Encoding.bytes_eq hdg, hw]
    exact agree_of_shard fun xs ys => by rw [hbytes]

/-! ## Results -/

/-- Two carriers of a column agree on all numbers exactly when there is one shard or
both have one encoding.  Two integer types agree on a single number, for every
configuration, exactly when they write it with the same number of bytes. -/
theorem hash_carriers_agree_iff (codec : Codec) (c d : Carrier) :
    (∀ cfg : HashConfig, (∀ n, Agree cfg codec n c d) ↔
      cfg.numberOfShards = 1 ∨ c.encoding = d.encoding) ∧
    (∀ n, (c.value n).isSome → (d.value n).isSome → c.encoding ≠ .gob → d.encoding ≠ .gob →
      ((∀ cfg, Agree cfg codec n c d) ↔ c.encoding.width n = d.encoding.width n)) :=
  ⟨fun cfg => agree_iff_encoding cfg codec c d, fun _ hc hd hcg hdg =>
    agree_iff_width codec hc hd hcg hdg⟩

/-- No other numbers, no UUIDs and no other types. -/
def plainCodec : Codec := ⟨fun _ => none, fun _ => none, fun _ _ => rfl, fun _ => .ok []⟩

/-- `int64` and `uint64` agree on 5, as on every number that both hold. -/
theorem int64_uint64_agree :
    (∀ cfg n, Agree cfg plainCodec n .int64 .uint64) ∧
      ∀ cfg, Agree cfg plainCodec 5 .int64 .uint64 := by
  have h := hash_carriers_agree_iff plainCodec .int64 .uint64
  exact ⟨fun cfg => (h.1 cfg).mpr (.inr rfl), (h.2 5 rfl rfl nofun nofun).mpr rfl⟩

def byUser : HashConfig where
  shardingKeys := ["user_id".toList]
  numberOfShards := 16
  customSuffix := []
  keys_ne_nil := nofun
  shards_pos := by decide
  shards_lt := by decide
  format_isSome := by decide

/-- User 5 lives in three shards, by the way its number is carried. -/
theorem user5_disagree :
    byUser.shardingFunc plainCodec [.num .int 5] = .ok "_user_id_02".toList ∧
    byUser.shardingFunc plainCodec [.num .int64 5] = .ok "_user_id_06".toList ∧
    byUser.shardingFunc plainCodec [.string ['5']] = .ok "_user_id_07".toList := by
  decide +kernel

end Gofusion.Db
