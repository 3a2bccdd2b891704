import Gofusion.Db.Sharding.Callback
import Gofusion.Lib.Printf

/-!
# The tables of raw values

With `ShardingKeyByRawValue` the tables to migrate are listed in `ShardingKeysForMigrating`.
`suffixes` prints each of them with the suffix format.  The sharding function does not use that
format, its suffix is always an underscore and the value.
-/

namespace Gofusion.Db

open Gofusion.Lib

/-- The settings of a table sharded by raw values. -/
structure RawSettings where
  customSuffix : Text
  shardingKeysForMigrating : List Text

/-- `suffixFormat`, as `defaultShardingFunc` builds it for raw values. -/
def RawSettings.suffixFormat (s : RawSettings) : Text :=
  let format := '_' :: if isStrBlank s.customSuffix then ['%', 's'] else s.customSuffix
  if '%' ∈ format then format else format ++ ['_', '%', 's']

/-- `suffixes` for raw values. -/
def RawSettings.suffixes (isPrint : Char → Bool) (s : RawSettings) : Except DbError (List Text) :=
  if s.shardingKeysForMigrating = [] then
    .error (.other
      "sharding key by raw value but do not configure keys for migrating".toList)
  else .ok (s.shardingKeysForMigrating.map (Printf.sprintf isPrint s.suffixFormat))

/-- The underscore-joined text of a list of values. -/
def joined (toStringE : Value → Except DbError Text) (values : List Value) : Except DbError Text :=
  (values.mapM toStringE).map (List.intercalate ['_'])

/-- The custom suffix prints a value as it is. -/
def RawSettings.PrintsBack (isPrint : Char → Bool) (s : RawSettings) (v : Text) : Prop :=
  isStrBlank s.customSuffix = true ∨
    '%' ∈ s.customSuffix ∧ Printf.sprintf isPrint s.customSuffix v = v

section

variable {isPrint : Char → Bool} {s : RawSettings} {v : Text}

theorem sprintf_suffixFormat_blank (h : isStrBlank s.customSuffix = true) :
    Printf.sprintf isPrint s.suffixFormat v = '_' :: v := by
  rw [RawSettings.suffixFormat, if_pos h, if_pos (by decide), Printf.sprintf_cons (by decide),
    Printf.sprintf_verb_s]

theorem sprintf_suffixFormat_plain (h : isStrBlank s.customSuffix = false)
    (hno : '%' ∉ s.customSuffix) :
    Printf.sprintf isPrint s.suffixFormat v = '_' :: (s.customSuffix ++ '_' :: v) := by
  have hformat : s.suffixFormat = '_' :: (s.customSuffix ++ ['_', '%', 's']) := by
    simp only [RawSettings.suffixFormat, h, Bool.false_eq_true, if_false]
    exact if_neg (by simp [hno])
  rw [hformat, Printf.sprintf_cons (by decide), Printf.sprintf_append hno,
    Printf.sprintf_cons (by decide), Printf.sprintf_verb_s]

theorem sprintf_suffixFormat_verb (h : isStrBlank s.customSuffix = false)
    (hverb : '%' ∈ s.customSuffix) :
    Printf.sprintf isPrint s.suffixFormat v =
      '_' :: Printf.sprintf isPrint s.customSuffix v := by
  have hformat : s.suffixFormat = '_' :: s.customSuffix := by
    simp only [RawSettings.suffixFormat, h, Bool.false_eq_true, if_false]
    exact if_pos (by simp [hverb])
  rw [hformat, Printf.sprintf_cons (by decide)]

/-- The migrated table is the one with the value if and only if the custom suffix prints the value
as it is. -/
theorem sprintf_suffixFormat_iff :
    Printf.sprintf isPrint s.suffixFormat v = '_' :: v ↔ s.PrintsBack isPrint v := by
  rw [RawSettings.PrintsBack]
  cases h : isStrBlank s.customSuffix with
  | true => simp [sprintf_suffixFormat_blank h]
  | false =>
    by_cases hverb : '%' ∈ s.customSuffix
    · simp [sprintf_suffixFormat_verb h hverb, hverb]
    · rw [sprintf_suffixFormat_plain h hverb]
      refine iff_of_false (fun heq => ?_) (by simp [hverb])
      have hlen := congrArg List.length heq
      simp only [List.length_cons, List.length_append] at hlen
      omega

end

theorem rawSharding_of_joined
    (h : joined toStringE values = .ok v) :
    (rawSharding table shardingKeys toStringE).shardingFunc values = .ok ('_' :: v) := by
  rw [joined] at h
  cases hdata : values.mapM toStringE with
  | error e =>
    rw [hdata] at h
    cases h
  | ok data =>
    rw [hdata] at h
    cases h
    simp only [rawSharding, hdata]
    rfl

/-- For every listed value that is the text of a list of values, the suffix that is migrated is the
one that is routed to, if and only if the custom suffix prints all of these values as they are. -/
theorem raw_suffixes_migrated_iff (table : Text) (shardingKeys : List Text)
    (toStringE : Value → Except DbError Text) (isPrint : Char → Bool) (s : RawSettings) :
    (∀ suffixes, s.suffixes isPrint = .ok suffixes → ∀ (i : Nat) (v : Text) (values : List Value),
        s.shardingKeysForMigrating[i]? = some v → joined toStringE values = .ok v →
        ∃ suffix, suffixes[i]? = some suffix ∧
          (rawSharding table shardingKeys toStringE).shardingFunc values = .ok suffix) ↔
      ∀ v ∈ s.shardingKeysForMigrating, (∃ values, joined toStringE values = .ok v) →
        s.PrintsBack isPrint v := by
  constructor
  · rintro h v hv ⟨values, hvalues⟩
    have hne : s.shardingKeysForMigrating ≠ [] := List.ne_nil_of_mem hv
    obtain ⟨i, hi⟩ := List.mem_iff_getElem?.mp hv
    obtain ⟨suffix, hsuffix, hrouted⟩ := h _ (if_neg hne) i v values hi hvalues
    rw [List.getElem?_map, hi] at hsuffix
    rw [rawSharding_of_joined hvalues] at hrouted
    cases hrouted
    exact sprintf_suffixFormat_iff.mp (Option.some.inj hsuffix)
  · intro h suffixes hsuffixes i v values hi hvalues
    have hv : v ∈ s.shardingKeysForMigrating := List.mem_of_getElem? hi
    rw [RawSettings.suffixes, if_neg (List.ne_nil_of_mem hv)] at hsuffixes
    cases hsuffixes
    have hprint := sprintf_suffixFormat_iff.mpr (h v hv ⟨values, hvalues⟩)
    exact ⟨'_' :: v, by rw [List.getElem?_map, hi, Option.map_some, hprint],
      rawSharding_of_joined hvalues⟩

/-- With the custom suffix `tenants` the table of the value `a` is migrated as `_tenants_a`, but rows
with it are sent to `_a`. -/
theorem tenants_migrated_elsewhere :
    RawSettings.suffixes (fun _ => true) ⟨"tenants".toList, ["a".toList]⟩ =
        .ok ["_tenants_a".toList] ∧
      joined castString [.string "a".toList] = .ok "a".toList ∧
      (rawSharding "orders".toList ["tenant".toList] castString).shardingFunc
          [.string "a".toList] = .ok "_a".toList :=
  ⟨rfl, rfl, rfl⟩

end Gofusion.Db
