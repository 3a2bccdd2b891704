import Gofusion.Db.Sharding.Callback
import Gofusion.Lib.Groups

/-!
# Batches by shard

`ShardingByModelList` and `ShardingByValues` sort models and maps into groups by suffix.  A group
passes the batch check of the create callback with its own suffix, but `dispatchTableByModel`
leaves some groups alone (`dispatch_group_iff`).
-/

namespace Gofusion.Db

open Gofusion.Lib

/-! ## The partition -/

/-- `ErrInvalidID`. -/
def DbError.invalidID : DbError := .other "invalid id format".toList

/-- `IsZero` of a field, and `IsBlank` of a value in a map.  A nil slice and an empty one are
the same here, the number of a zero value of another type is 0. -/
def Value.isZero : Value → Bool
  | .null => true
  | .num _ n => n = 0
  | .string s => s.isEmpty
  | .bytes b => b.isEmpty
  | .uuid b => b.all (· = 0)
  | .other tag => tag = 0

/-- The value of a key, which has to be there for the primary key. -/
def TableSharding.shardingValue (t : TableSharding) (key : Text) (v : Value) :
    Except DbError Value :=
  if key = t.shardingPrimaryKey ∧ v.isZero = true then .error .invalidID else .ok v

/-- The suffix of a model in `ShardingByModelList`. -/
def TableSharding.modelShard (t : TableSharding) (m : Model) : Except DbError Text := do
  let values ← t.shardingKeys.mapM fun key => do
    let v ← m.key key
    t.shardingValue key v
  t.shardingFunc values

/-- `ShardingByModelList`, up to the order of the suffixes. -/
def TableSharding.shardingByModelList (t : TableSharding) (src : List Model) :
    Except DbError (List (Text × List Model)) :=
  groupM t.modelShard src

/-- A `map[string]any`. -/
abbrev ValueMap := Text → Option Value

def ValueMap.key (col : ValueMap) (key : Text) : Except DbError Value :=
  match col key with
  | some v => .ok v
  | none => .error (.other ("sharding key not found [column[".toList ++ key ++ "]]".toList))

/-- The suffix of a map in `ShardingByValues`. -/
def TableSharding.valuesShard (t : TableSharding) (col : ValueMap) : Except DbError Text := do
  let values ← t.shardingKeys.mapM fun key => do
    let v ← col.key key
    t.shardingValue key v
  t.shardingFunc values

/-- `ShardingByValues`, up to the order of the suffixes. -/
def TableSharding.shardingByValues (t : TableSharding) (src : List ValueMap) :
    Except DbError (List (Text × List ValueMap)) :=
  groupM t.valuesShard src

/-! ## Models that are created -/

/-- `Schema.PrioritizedPrimaryField` of a model. -/
structure PrimaryKey where
  isZero : Model → Bool
  set : Model → Nat → Except DbError Model

/-- `setPrimaryKeyFunc`, for the models in order.  The number is the one of the next call of the
generator. -/
def PrimaryKey.setAll (p : PrimaryKey) (env : Env) : Nat → List Model → Except DbError (List Model)
  | _, [] => .ok []
  | n, m :: ms =>
    if p.isZero m then
      match env.next with
      | none => .error .idGeneratorNotFound
      | some next => do
        let id ← next n
        let m' ← p.set m id
        let ms' ← p.setAll env (n + 1) ms
        return m' :: ms'
    else do
      let ms' ← p.setAll env n ms
      return m :: ms'

/-- `setPrimaryKeyByModel` of an insert. -/
def setPrimaryKeyByModel (p : Option PrimaryKey) (env : Env) (v : ReflectValue) :
    Except DbError ReflectValue :=
  match p, v with
  | none, v => .ok v
  | some p, .slice ms => (p.setAll env 0 ms).map .slice
  | some p, .array ms => (p.setAll env 0 ms).map .array
  | some p, .struct m => (p.setAll env 0 [m]).map fun
    | [m'] => .struct m'
    | _ => .struct m
  | some _, .other blank => .ok (.other blank)

/-- `dispatchTableByModel` of an `INSERT`. -/
def TableSharding.dispatchCreateByModel (t : TableSharding) (env : Env) (p : Option PrimaryKey)
    (s : GormStatement) : ByModel :=
  match s.model with
  | none => .skip
  | some v =>
    if v.isBlank then .skip
    else if s.table ≠ t.table then .otherTable
    else match (if t.isShardingPrimaryKey then setPrimaryKeyByModel p env v else .ok v) with
      | .error e => .failed e
      | .ok v =>
        match getModelReflectValue v with
        | none => .skip
        | some m => t.routeModel env v m

section

variable {t : TableSharding} {env : Env} {m : Model} {ms : List Model} {suffix : Text}

theorem setAll_of_set {p : PrimaryKey} (h : ∀ m ∈ ms, p.isZero m = false) (n : Nat) :
    p.setAll env n ms = .ok ms := by
  induction ms with
  | nil => rfl
  | cons m ms ih =>
    rw [PrimaryKey.setAll, if_neg (by simp [h m List.mem_cons_self]),
      ih fun m' hm' => h m' (List.mem_cons_of_mem _ hm')]
    rfl

theorem dispatchCreateByModel_slice
    (h : t.isShardingPrimaryKey = true → ∀ q, p = some q → ∀ m ∈ ms, q.isZero m = false) :
    t.dispatchCreateByModel env p ⟨table, some (.slice ms)⟩ =
      t.dispatchTableByModel env ⟨table, some (.slice ms)⟩ := by
  have hset : (if t.isShardingPrimaryKey then setPrimaryKeyByModel p env (.slice ms)
      else .ok (.slice ms)) = .ok (.slice ms) := by
    split
    · next hpk =>
      cases p with
      | none => rfl
      | some q => simp only [setPrimaryKeyByModel, setAll_of_set (h hpk q rfl), Except.map]
    · rfl
  cases hmodel : getModelReflectValue (.slice ms) <;>
    simp only [TableSharding.dispatchCreateByModel, TableSharding.dispatchTableByModel, hset, hmodel]

/-! ## Groups in one batch -/

/-- The partition, the check and the dispatcher read the same values. -/
theorem modelSuffix_of_modelShard (h : t.modelShard m = .ok suffix) :
    t.modelSuffix m = .ok suffix := by
  have hkeys : ∀ {keys : List Text} {values : List Value},
      (keys.mapM fun key => do
        let v ← m.key key
        t.shardingValue key v) = .ok values → keys.mapM m.key = .ok values := by
    intro keys
    induction keys with
    | nil => exact fun h => h
    | cons key keys ih =>
      intro values h
      rw [List.mapM_cons] at h ⊢
      obtain ⟨v, hv, h⟩ := bind_eq_ok.mp h
      obtain ⟨vs, hvs, h⟩ := bind_eq_ok.mp h
      obtain ⟨v', hv', hval⟩ := bind_eq_ok.mp hv
      rw [TableSharding.shardingValue] at hval
      split at hval
      · cases hval
      · cases hval
        rw [hv', ih hvs]
        exact h
  obtain ⟨values, hvalues, hfunc⟩ := bind_eq_ok.mp h
  rw [TableSharding.modelSuffix, hkeys hvalues]
  exact hfunc

theorem valuesShard_of_modelShard
    (hcol : ∀ key ∈ t.shardingKeys, col key = m.field key) (h : t.modelShard m = .ok suffix) :
    t.valuesShard col = .ok suffix := by
  have hkeys : ∀ {keys : List Text} {values : List Value}, (∀ key ∈ keys, col key = m.field key) →
      (keys.mapM fun key => do
        let v ← m.key key
        t.shardingValue key v) = .ok values →
      (keys.mapM fun key => do
        let v ← col.key key
        t.shardingValue key v) = .ok values := by
    intro keys
    induction keys with
    | nil => exact fun _ h => h
    | cons key keys ih =>
      intro values hcol h
      rw [List.mapM_cons] at h ⊢
      obtain ⟨v, hv, h⟩ := bind_eq_ok.mp h
      obtain ⟨vs, hvs, h⟩ := bind_eq_ok.mp h
      obtain ⟨v', hv', hval⟩ := bind_eq_ok.mp hv
      have hkey : col.key key = .ok v' := by
        have hfield := hcol key List.mem_cons_self
        rw [Model.key] at hv'
        rw [ValueMap.key, hfield]
        cases hf : m.field key with
        | none => rw [hf] at hv'; cases hv'
        | some w => rw [hf] at hv'; cases hv'; rfl
      rw [hkey, ih (fun k hk => hcol k (List.mem_cons_of_mem _ hk)) hvs]
      exact bind_eq_ok.mpr ⟨v, hval, h⟩
  obtain ⟨values, hvalues, hfunc⟩ := bind_eq_ok.mp h
  rw [TableSharding.valuesShard, hkeys hcol hvalues]
  exact hfunc

theorem checkDiffSuffixes_slice (h : ∀ m ∈ ms, t.modelSuffix m = .ok suffix) (hne : ms ≠ []) :
    t.checkDiffSuffixesByModel (.slice ms) = .ok suffix := by
  have hfold : ∀ {rest : List Model}, (∀ m ∈ rest, t.modelSuffix m = .ok suffix) →
      rest.foldlM t.sameSuffix suffix = .ok suffix := by
    intro rest
    induction rest with
    | nil => exact fun _ => rfl
    | cons m rest ih =>
      intro h
      have hstep : t.sameSuffix suffix m = .ok suffix := by
        simp [TableSharding.sameSuffix, h m List.mem_cons_self, bind, Except.bind]
      rw [List.foldlM_cons, hstep]
      exact ih fun m' hm' => h m' (List.mem_cons_of_mem _ hm')
  cases ms with
  | nil => exact absurd rfl hne
  | cons m ms =>
    have hstep : t.sameSuffix [] m = .ok suffix := by
      simp [TableSharding.sameSuffix, h m List.mem_cons_self, bind, Except.bind]
    rw [TableSharding.checkDiffSuffixesByModel, ReflectValue.elems, List.foldlM_cons, hstep]
    exact hfold fun m' hm' => h m' (List.mem_cons_of_mem _ hm')

/-- A batch of models with one suffix is sent to the table with that suffix if and only if its
first model is not blank and the suffix is one. -/
theorem dispatch_group_iff (h : ∀ m' ∈ m :: ms, t.modelSuffix m' = .ok suffix)
    (hcreate : env.createTable suffix = .ok ()) :
    t.dispatchTableByModel env ⟨t.table, some (.slice (m :: ms))⟩ = .routed (t.table ++ suffix) ↔
      m.blank = false ∧ noSuffix suffix = false := by
  have hcheck := checkDiffSuffixes_slice h (List.cons_ne_nil m ms)
  have hfirst : getModelReflectValue (.slice (m :: ms)) = if m.blank then none else some m := by
    rw [getModelReflectValue, List.head?_cons, Option.filter_some]
    cases m.blank <;> rfl
  simp only [TableSharding.dispatchTableByModel, ReflectValue.isBlank, List.isEmpty_cons,
    Bool.false_eq_true, if_false, ne_eq, not_true_eq_false, hfirst]
  by_cases hblank : m.blank = true
  · simp [hblank]
  · rw [if_neg hblank]
    simp only [TableSharding.routeModel, hcheck, h m List.mem_cons_self, hcreate]
    cases noSuffix suffix with
    | true => simp
    | false => simpa using hblank

end

end Gofusion.Db
