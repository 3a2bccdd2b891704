import Gofusion.Db.Sharding.Hash
import Gofusion.Lib.Float64
import Mathlib.Data.List.Nodup

/-!
# The suffixes of the shards

`suffixes` of `db/plugins/table_sharding.go`, which lists the shards for the migration, and the two
sharding functions of `defaultShardingFunc` that print a number into the suffix format.

All three print with the same format, but numbers of three types.  Without a verb `Sprintf` reports
the argument with its type, and then no suffix of a sharding function is in the list.
-/

namespace Gofusion.Db

open Gofusion.Lib

/-! ## The list of suffixes -/

def HashConfig.pieces (cfg : HashConfig) : List Format.Piece :=
  (Format.parse cfg.suffixFormat).get cfg.format_isSome

def HashConfig.suffixes (cfg : HashConfig) : List Text :=
  (List.range cfg.numberOfShards).map fun i : Nat => Format.printAs "int".toList i cfg.pieces

/-- The suffixes of the hash mode are in the list, and the list has one for each shard. -/
structure HashConfig.Migrated (cfg : HashConfig) : Prop where
  mem : ∀ codec values suffix, cfg.shardingFunc codec values = .ok suffix → suffix ∈ cfg.suffixes
  length : cfg.suffixes.length = cfg.numberOfShards
  nodup : cfg.suffixes.Nodup

section

variable {cfg : HashConfig}

theorem suffix_eq_printAs (k : Nat) :
    cfg.suffix k = Format.printAs "uint64".toList k cfg.pieces := rfl

theorem mem_suffixes_of_takes (h : Format.takes cfg.pieces = true) (type : Text) {k : Int}
    (hk : 0 ≤ k) (hlt : k < cfg.numberOfShards) :
    Format.printAs type k cfg.pieces ∈ cfg.suffixes := by
  obtain ⟨n, rfl⟩ := Int.eq_ofNat_of_zero_le hk
  rw [Format.printAs_of_takes h type "int".toList]
  exact List.mem_map.mpr ⟨n, List.mem_range.mpr (by omega), rfl⟩

theorem not_mem_suffixes (h : Format.takes cfg.pieces = false)
    (hne : ∀ x y, "int".toList ++ '=' :: x ≠ type ++ '=' :: y) (k : Int) :
    Format.printAs type k cfg.pieces ∉ cfg.suffixes := by
  intro hmem
  obtain ⟨i, -, hi⟩ := List.mem_map.mp hmem
  exact Format.printAs_ne_of_not_takes h hne i k hi

theorem int_ne_uint64 (x y : Text) : "int".toList ++ '=' :: x ≠ "uint64".toList ++ '=' :: y :=
  fun h => absurd (List.cons.inj h).1 (by decide)

theorem int_ne_int64 (x y : Text) : "int".toList ++ '=' :: x ≠ "int64".toList ++ '=' :: y := by
  intro h
  have h : "int".toList ++ '=' :: x = "int".toList ++ '6' :: ('4' :: '=' :: y) := h
  exact absurd (List.cons.inj (List.append_cancel_left h)).1 (by decide)

theorem suffixes_nodup : cfg.suffixes.Nodup := by
  refine List.Nodup.map (fun i j h => ?_) List.nodup_range
  exact Int.ofNat.inj (Format.printAs_injective cfg.pieces h)

theorem shardingFunc_eq_ok
    (h : cfg.shardingFunc codec values = .ok suffix) :
    ∃ data, suffix = cfg.suffix (cfg.shard data) := by
  unfold HashConfig.shardingFunc at h
  cases hdata : values.mapM codec.encode with
  | error e =>
    rw [hdata] at h
    cases h
  | ok data =>
    rw [hdata] at h
    cases h
    exact ⟨data, rfl⟩

theorem shard_lt (data : List (List UInt8)) : cfg.shard data < cfg.numberOfShards :=
  Nat.mod_lt _ cfg.shards_pos

/-- The suffixes are migrated exactly if a verb takes the number. -/
theorem migrated_iff (cfg : HashConfig) : cfg.Migrated ↔ Format.takes cfg.pieces = true := by
  constructor
  · intro h
    cases ht : Format.takes cfg.pieces with
    | true => rfl
    | false =>
      have hmem := h.mem plainCodec [.string []] _ (shardingFunc_alone (encode_empty plainCodec) 0)
      rw [suffix_eq_printAs] at hmem
      exact absurd hmem (not_mem_suffixes ht int_ne_uint64 _)
  · intro h
    refine ⟨fun codec values suffix hs => ?_, ?_, suffixes_nodup⟩
    · obtain ⟨data, rfl⟩ := shardingFunc_eq_ok hs
      rw [suffix_eq_printAs]
      exact mem_suffixes_of_takes h _ (by omega) (by exact_mod_cast shard_lt data)
    · rw [HashConfig.suffixes, List.length_map, List.length_range]

end

/-! ## Names without a verb -/

theorem parse_shardVerb (n : Nat) : ∃ ps, Format.parseFrom .text (shardVerb n) = some ps ∧
    (Format.takes ps = true ↔ n < 10000) := by
  unfold shardVerb
  split_ifs with h₁ h₂ h₃ h₄
  · exact ⟨_, rfl, iff_of_true rfl (by omega)⟩
  · exact ⟨_, rfl, iff_of_true rfl (by omega)⟩
  · exact ⟨_, rfl, iff_of_true rfl (by omega)⟩
  · exact ⟨_, rfl, iff_of_true rfl (by omega)⟩
  · exact ⟨[], rfl, iff_of_false nofun h₄⟩

theorem plain_format {s : HashSettings} (h : '%' ∉ s.name) :
    ∃ ps, Format.parse s.suffixFormat = some ps ∧
      (Format.takes ps = true ↔ s.numberOfShards < 10000) := by
  obtain ⟨ps, hps, htakes⟩ := parse_shardVerb s.numberOfShards
  have hformat : s.suffixFormat = s.name ++ shardVerb s.numberOfShards := if_neg h
  refine ⟨s.name.map Format.Piece.lit ++ ps, ?_, ?_⟩
  · rw [Format.parse, hformat, Format.parseFrom_append h, hps]
    rfl
  · rw [Format.takes_lit_append, htakes]

theorem mem_intercalate : ∀ {keys : List Text}, c ∈ List.intercalate [d] keys →
    c = d ∨ ∃ key ∈ keys, c ∈ key
  | [], h => by simp [List.intercalate] at h
  | [key], h => .inr ⟨key, List.mem_singleton.mpr rfl, by simpa [List.intercalate] using h⟩
  | key :: key' :: keys, h => by
    have hsplit : List.intercalate [d] (key :: key' :: keys) =
        key ++ (d :: List.intercalate [d] (key' :: keys)) := by
      simp [List.intercalate]
    rw [hsplit, List.mem_append, List.mem_cons] at h
    rcases h with h | h | h
    · exact .inr ⟨key, List.mem_cons_self, h⟩
    · exact .inl h
    · rcases mem_intercalate h with h | ⟨k, hk, h⟩
      · exact .inl h
      · exact .inr ⟨k, List.mem_cons_of_mem _ hk, h⟩

theorem plain_name {s : HashSettings} (hblank : isStrBlank s.customSuffix = true)
    (h : ∀ key ∈ s.shardingKeys, '%' ∉ key) : '%' ∉ s.name := by
  rw [HashSettings.name, if_pos hblank, List.mem_cons, not_or]
  refine ⟨by decide, fun hmem => ?_⟩
  rcases mem_intercalate hmem with hd | ⟨key, hkey, hmem⟩
  · exact absurd hd (by decide)
  · exact h key hkey hmem

/-- The hash mode with a blank custom suffix: for keys without a `%` its suffixes are migrated
exactly if there are fewer than 10000 shards.  In every configuration with decimal verbs they are
exactly if a verb takes the number. -/
theorem hash_suffixes_migrated_iff (s : HashSettings) :
    (s.shardingKeys ≠ [] → 0 < s.numberOfShards → s.numberOfShards < 100000 →
      isStrBlank s.customSuffix = true → (∀ key ∈ s.shardingKeys, '%' ∉ key) →
      ∃ cfg : HashConfig, cfg.toHashSettings = s ∧ (cfg.Migrated ↔ s.numberOfShards < 10000)) ∧
    ∀ cfg : HashConfig, cfg.toHashSettings = s →
      (cfg.Migrated ↔ Format.takes cfg.pieces = true) := by
  refine ⟨fun hkeys hpos hlt hblank hplain => ?_, fun cfg _ => migrated_iff cfg⟩
  obtain ⟨ps, hps, htakes⟩ := plain_format (plain_name hblank hplain)
  refine ⟨⟨s, hkeys, hpos, hlt, by rw [hps]; rfl⟩, rfl, ?_⟩
  rw [migrated_iff, ← htakes, HashConfig.pieces]
  simp only [hps, Option.get_some]

/-- With 10000 shards the suffix of an empty text is not in the list. -/
theorem tenThousand_not_migrated :
    (plainConfig 10000 (by decide) (by decide)).shardingFunc plainCodec [.string []] =
        .ok ('_' :: 'a' :: Format.extraAs "uint64".toList 0) ∧
      ('_' :: 'a' :: Format.extraAs "uint64".toList 0) ∉
        (plainConfig 10000 (by decide) (by decide)).suffixes := by
  have hpieces : (plainConfig 10000 (by decide) (by decide)).pieces =
      [.lit '_', .lit 'a'] := rfl
  constructor
  · refine (shardingFunc_alone (encode_empty plainCodec) 0).trans ?_
    rw [suffix_eq_printAs, hpieces]
    rfl
  · have hmem := not_mem_suffixes (by rw [hpieces]; rfl) int_ne_uint64 0
    rwa [hpieces] at hmem

/-! ## Expressions -/

/-- What the expression gets: the values by their keys. -/
def exprParams (keys : List Text) (values : List Value) (key : Text) : Option Value :=
  (keys.zip values).reverse.lookup key

/-- A `ShardingKeyExpr` whose results are integers. -/
abbrev ShardingKeyExpr := (Text → Option Value) → Except DbError Int

/-- The number that is printed for the result of an expression: `math.Mod` of the result as a
`float64`, as an `int64`. -/
def HashConfig.exprShard (cfg : HashConfig) (r : Int) : Int :=
  Int.tmod (Float64.ofInt r) cfg.numberOfShards

def HashConfig.exprSuffix (cfg : HashConfig) (r : Int) : Text :=
  Format.printAs "int64".toList (cfg.exprShard r) cfg.pieces

/-- The sharding function of the mode with an expression. -/
def HashConfig.exprShardingFunc (cfg : HashConfig) (expr : ShardingKeyExpr) (values : List Value) :
    Except Fault Text :=
  if values.length < cfg.shardingKeys.length then .error .panic
  else
    match expr (exprParams cfg.shardingKeys values) with
    | .error e => .error (.error e)
    | .ok r => .ok (cfg.exprSuffix r)

/-- Calls of the sharding function in which the expression has a result. -/
def HashConfig.Yields (cfg : HashConfig) (r : Int) (suffix : Text) : Prop :=
  ∃ (expr : ShardingKeyExpr) (values : List Value),
    cfg.shardingKeys.length ≤ values.length ∧
    expr (exprParams cfg.shardingKeys values) = .ok r ∧
    cfg.exprShardingFunc expr values = .ok suffix

/-- Every call in which the result is `r` gives a suffix of the list, and those in which it is
`r` plus the number of shards give the same. -/
structure HashConfig.ExprInRange (cfg : HashConfig) (r : Int) : Prop where
  mem : ∀ suffix, cfg.Yields r suffix → suffix ∈ cfg.suffixes
  periodic : ∀ suffix suffix', cfg.Yields r suffix → cfg.Yields (r + cfg.numberOfShards) suffix' →
    suffix = suffix'

section

variable {cfg : HashConfig} {r : Int}

/-- An expression yields one suffix. -/
theorem yields_iff : cfg.Yields r suffix ↔ suffix = cfg.exprSuffix r := by
  constructor
  · rintro ⟨expr, values, hlen, hr, h⟩
    rw [HashConfig.exprShardingFunc, if_neg (by omega), hr] at h
    exact (Except.ok.inj h).symm
  · rintro rfl
    refine ⟨fun _ => .ok r, List.replicate cfg.shardingKeys.length .null, ?_, rfl, ?_⟩
    · rw [List.length_replicate]
    · rw [HashConfig.exprShardingFunc, if_neg (by simp)]

theorem exprShard_of_abs_lt (hlo : -2 ^ 53 < r) (hhi : r < 2 ^ 53) :
    cfg.exprShard r = Int.tmod r cfg.numberOfShards := by
  rw [HashConfig.exprShard, Float64.ofInt_of_abs_lt hlo hhi]

/-- The sign of `math.Mod`. -/
theorem tmod_nonneg_iff : 0 ≤ Int.tmod r n ↔ 0 ≤ r ∨ (n : Int) ∣ r := by
  constructor
  · intro h
    by_cases hr : 0 ≤ r
    · exact .inl hr
    · refine .inr (Int.dvd_of_tmod_eq_zero (Int.le_antisymm ?_ h))
      have hneg : Int.tmod (-(-r)) n = -Int.tmod (-r) n := Int.neg_tmod _ _
      have hpos : 0 ≤ Int.tmod (-r) n := Int.tmod_nonneg _ (by omega)
      rw [Int.neg_neg] at hneg
      omega
  · rintro (h | h)
    · exact Int.tmod_nonneg _ h
    · rw [Int.tmod_eq_zero_of_dvd h]

/-- When the suffix of a result is in the list. -/
theorem mem_suffixes_iff (hlo : -2 ^ 53 < r) (hhi : r < 2 ^ 53) :
    cfg.exprSuffix r ∈ cfg.suffixes ↔
      Format.takes cfg.pieces = true ∧ (0 ≤ r ∨ (cfg.numberOfShards : Int) ∣ r) := by
  rw [← tmod_nonneg_iff, ← exprShard_of_abs_lt hlo hhi]
  constructor
  · intro hmem
    cases ht : Format.takes cfg.pieces with
    | true =>
      -- the type is not seen, so the two numbers are equal
      obtain ⟨i, -, heq⟩ := List.mem_map.mp hmem
      have heq := heq.trans (Format.printAs_of_takes ht _ "int".toList _)
      have := Format.printAs_injective cfg.pieces heq
      exact ⟨rfl, by omega⟩
    | false => exact absurd hmem (not_mem_suffixes ht int_ne_int64 _)
  · rintro ⟨ht, hk⟩
    refine mem_suffixes_of_takes ht _ hk ?_
    rw [exprShard_of_abs_lt hlo hhi]
    exact Int.tmod_lt_of_pos _ (by exact_mod_cast cfg.shards_pos)

/-- Two results that are a number of shards apart give the same number, up to 53 bits.  Behind
that an odd number is rounded to a neighbour. -/
theorem exprShard_add_iff (hn : cfg.numberOfShards < 10000) (hlo : -2 ^ 53 < r) (hhi : r < 2 ^ 53)
    (hr : 0 ≤ r ∨ (cfg.numberOfShards : Int) ∣ r) :
    cfg.exprShard r = cfg.exprShard (r + cfg.numberOfShards) ↔
      r + cfg.numberOfShards < 2 ^ 53 ∨ 2 ∣ r + cfg.numberOfShards ∨ cfg.numberOfShards = 1 := by
  have hpos := cfg.shards_pos
  rw [exprShard_of_abs_lt hlo hhi]
  by_cases hsmall : r + cfg.numberOfShards < 2 ^ 53
  · refine iff_of_true ?_ (.inl hsmall)
    rw [exprShard_of_abs_lt (by omega) hsmall]
    rcases hr with hr | hr
    · rw [Int.tmod_eq_emod_of_nonneg hr, Int.tmod_eq_emod_of_nonneg (by omega), Int.add_emod_right]
    · rw [Int.tmod_eq_zero_of_dvd hr,
        Int.tmod_eq_zero_of_dvd (Int.dvd_add hr (Int.dvd_refl _))]
  · have hnonneg : 0 ≤ r := by omega
    have hround := Float64.ofInt_of_le (n := r + cfg.numberOfShards) (by omega) (by omega)
    have hround_nonneg : 0 ≤ Float64.ofInt (r + cfg.numberOfShards) := by
      rw [hround]
      split_ifs <;> omega
    have hdvd : Int.tmod r cfg.numberOfShards = cfg.exprShard (r + cfg.numberOfShards) ↔
        (cfg.numberOfShards : Int) ∣
          r + cfg.numberOfShards - Float64.ofInt (r + cfg.numberOfShards) := by
      rw [HashConfig.exprShard, Int.tmod_eq_emod_of_nonneg hnonneg,
        Int.tmod_eq_emod_of_nonneg hround_nonneg, ← Int.add_emod_right,
        Int.emod_eq_emod_iff_emod_sub_eq_zero, Int.dvd_iff_emod_eq_zero]
    have hone : ∀ d : Int, d = 1 ∨ d = -1 →
        ((cfg.numberOfShards : Int) ∣ d ↔ cfg.numberOfShards = 1) := by
      rintro d (rfl | rfl)
      · exact Int.natCast_dvd.trans Nat.dvd_one
      · exact Int.natCast_dvd.trans Nat.dvd_one
    rw [hdvd, hround]
    by_cases heven : (r + cfg.numberOfShards) % 2 = 0
    · rw [if_pos heven, Int.sub_self]
      exact iff_of_true (Int.dvd_zero _) (.inr (.inl (Int.dvd_of_emod_eq_zero heven)))
    · have hodd : ¬(2 : Int) ∣ r + cfg.numberOfShards := fun h => heven (Int.emod_eq_zero_of_dvd h)
      rw [if_neg heven, hone _ (by split <;> omega)]
      rw [or_iff_right hsmall, or_iff_right hodd]

/-- For fewer than 10000 shards: the suffixes of a result are in range exactly if a verb takes the
number, the result is not negative or a multiple of the number of shards, and adding the number of
shards is not rounded. -/
theorem exprInRange_iff (hn : cfg.numberOfShards < 10000) (hlo : -2 ^ 53 < r) (hhi : r < 2 ^ 53) :
    cfg.ExprInRange r ↔ Format.takes cfg.pieces = true ∧
      (0 ≤ r ∨ (cfg.numberOfShards : Int) ∣ r) ∧
      (r + cfg.numberOfShards < 2 ^ 53 ∨ 2 ∣ r + cfg.numberOfShards ∨ cfg.numberOfShards = 1) := by
  constructor
  · intro h
    obtain ⟨ht, hr⟩ := (mem_suffixes_iff hlo hhi).mp (h.mem _ (yields_iff.mpr rfl))
    refine ⟨ht, hr, (exprShard_add_iff hn hlo hhi hr).mp ?_⟩
    exact Format.printAs_injective _ (h.periodic _ _ (yields_iff.mpr rfl) (yields_iff.mpr rfl))
  · rintro ⟨ht, hr, hadd⟩
    refine ⟨fun suffix hs => ?_, fun suffix suffix' hs hs' => ?_⟩
    · rw [yields_iff.mp hs]
      exact (mem_suffixes_iff hlo hhi).mpr ⟨ht, hr⟩
    · rw [yields_iff.mp hs, yields_iff.mp hs', HashConfig.exprSuffix, HashConfig.exprSuffix,
        (exprShard_add_iff hn hlo hhi hr).mpr hadd]

end

/-- Expressions with integer results of up to 53 bits, for fewer than 10000 shards: with a name
without a `%`, and in every configuration with decimal verbs. -/
theorem expr_suffixes_inRange_iff (cfg : HashConfig) (r : Int)
    (hn : cfg.numberOfShards < 10000) (hr : |r| < 2 ^ 53) :
    ('%' ∉ cfg.name → (cfg.ExprInRange r ↔
      (0 ≤ r ∨ (cfg.numberOfShards : Int) ∣ r) ∧
      (r + cfg.numberOfShards < 2 ^ 53 ∨ 2 ∣ r + cfg.numberOfShards ∨ cfg.numberOfShards = 1))) ∧
    (cfg.ExprInRange r ↔ Format.takes cfg.pieces = true ∧
      (0 ≤ r ∨ (cfg.numberOfShards : Int) ∣ r) ∧
      (r + cfg.numberOfShards < 2 ^ 53 ∨ 2 ∣ r + cfg.numberOfShards ∨ cfg.numberOfShards = 1)) := by
  obtain ⟨hlo, hhi⟩ := abs_lt.mp hr
  refine ⟨fun hplain => ?_, exprInRange_iff hn hlo hhi⟩
  obtain ⟨ps, hps, htakes⟩ := plain_format hplain
  have hpieces : Format.takes cfg.pieces = true := by
    rw [HashConfig.pieces]
    simp only [hps, Option.get_some]
    exact htakes.mpr hn
  rw [exprInRange_iff hn hlo hhi, hpieces]
  exact and_iff_right rfl

/-- For the sixteen shards of `byUser`, the result 35 is in range. -/
theorem byUser_35_inRange : byUser.ExprInRange 35 :=
  ((expr_suffixes_inRange_iff byUser 35 (by decide) (by decide)).1 (by decide)).mpr
    ⟨.inl (by decide), .inl (by decide)⟩

/-- The result -3 is not, and 13 gives another suffix. -/
theorem byUser_negative_not_inRange :
    byUser.exprShardingFunc (fun _ => .ok (-3)) [.null] = .ok "_user_id_-3".toList ∧
      "_user_id_-3".toList ∉ byUser.suffixes ∧
      byUser.exprShardingFunc (fun _ => .ok 13) [.null] = .ok "_user_id_13".toList := by
  decide

end Gofusion.Db
