import Gofusion.Sqlparser.Printer

/-!
# The table sharding plugin

`db/plugins/table_sharding.go`: the configuration of a sharded table and the values its router
computes with.  What the plugin calls in other packages is collected in `Env`.
-/

namespace Gofusion.Db

open Gofusion.Sqlparser

/-! ## Values -/

inductive IntType
  | int | int8 | int16 | int32 | int64 | uint | uint8 | uint16 | uint32 | uint64
deriving DecidableEq, Repr

/-- A value of type `any`, as a bind argument or a model field holds it. -/
inductive Value
  /-- `nil`, which the database stores as `NULL`. -/
  | null
  | num (t : IntType) (n : Int)
  | string (s : Text)
  | bytes (b : List UInt8)
  | uuid (b : List UInt8)
  /-- A value of any other type, told apart by a number. -/
  | other (tag : Nat)
deriving DecidableEq, Repr

/-! ## Errors -/

/-- The errors the plugin adds to a `gorm.DB`. -/
inductive DbError
  | missingShardingKey
  | notImplemented
  | diffSuffixDML
  | columnAndExprMismatch
  | idGeneratorNotFound
  /-- `parse id as uint64 failed`. -/
  | parseID (value : Text)
  /-- An error of the sharding function or of another package. -/
  | other (message : Text)
deriving DecidableEq, Repr

/-- How a computation of the plugin can fail. -/
inductive Fault
  | error (e : DbError)
  | panic
deriving DecidableEq, Repr

/-! ## Configuration -/

/-- A `tableSharding`: a sharded table, its keys and the sharding function. -/
structure TableSharding where
  table : Text
  shardingKeys : List Text
  shardingFunc : List Value → Except DbError Text

/-- A table sharded by raw values, as `defaultShardingFunc` makes it with `ShardingKeyByRawValue`.
`toStringE` is `cast.ToStringE`. -/
def rawSharding (table : Text) (shardingKeys : List Text)
    (toStringE : Value → Except DbError Text) : TableSharding where
  table := table
  shardingKeys := shardingKeys
  shardingFunc values := do
    let data ← values.mapM toStringE
    .ok ('_' :: List.intercalate ['_'] data)

/-- The spellings of `id`. -/
def isIdKey (key : Text) : Bool :=
  key = ['i', 'd'] || key = ['I', 'D'] || key = ['I', 'd'] || key = ['i', 'D']

def TableSharding.isShardingPrimaryKey (t : TableSharding) : Bool := t.shardingKeys.any isIdKey

/-- `shardingPrimaryKey`, the empty text when there is none. -/
def TableSharding.shardingPrimaryKey (t : TableSharding) : Text :=
  (t.shardingKeys.find? isIdKey).getD []

/-- What the plugin calls in other packages. -/
structure Env where
  /-- `cast.ToUint64E`, and `ErrInvalidID` for a type that is no number or string. -/
  toUint64E : Value → Except DbError Nat
  /-- The `n`-th call of the primary key generator, if there is one. -/
  next : Option (Nat → Except DbError Nat)
  /-- `createTableIfNotExists` for a suffix. -/
  createTable : Text → Except DbError Unit

end Gofusion.Db
