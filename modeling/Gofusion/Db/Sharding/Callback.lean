import Gofusion.Db.Sharding.Hash
import Gofusion.Db.Sharding.Routing

/-!
# The callbacks

The query, update and delete callbacks try `dispatchTableByModel` first and go on with the built
text only when it leaves the statement alone: without a model or with a blank one, or if the
suffix is blank or just an underscore.
-/

namespace Gofusion.Db

open Gofusion.Sqlparser

/-! ## Models -/

/-- A struct that a model points to. -/
structure Model where
  /-- `utils.IsBlank`: all fields are zero. -/
  blank : Bool
  /-- The field of a column, found by its name or by its `gorm` tag. -/
  field : Text → Option Value

/-- The `ReflectValue` of a statement. -/
inductive ReflectValue
  | struct (m : Model)
  | slice (ms : List Model)
  | array (ms : List Model)
  /-- A map, or a collection of something else than structs. -/
  | other (blank : Bool)

/-- `utils.IsBlank`. -/
def ReflectValue.isBlank : ReflectValue → Bool
  | .struct m => m.blank
  | .slice ms => ms.isEmpty
  | .array ms => ms.all Model.blank
  | .other blank => blank

def ReflectValue.elems : ReflectValue → List Model
  | .slice ms | .array ms => ms
  | _ => []

/-- A statement of gorm before its text is built. -/
structure GormStatement where
  table : Text
  /-- The value of the model, `none` when `Model` is `nil`. -/
  model : Option ReflectValue

def getModelReflectValue (v : ReflectValue) : Option Model :=
  let m := match v with
    | .struct m => some m
    | .slice ms | .array ms => ms.head?
    | .other _ => none
  m.filter fun m => !m.blank

def Model.key (m : Model) (key : Text) : Except DbError Value :=
  match m.field key with
  | some v => .ok v
  | none => .error .missingShardingKey

def TableSharding.modelSuffix (t : TableSharding) (m : Model) : Except DbError Text := do
  let values ← t.shardingKeys.mapM m.key
  t.shardingFunc values

/-- One round of `checkDiffSuffixesByModel`. -/
def TableSharding.sameSuffix (t : TableSharding) (suffix : Text) (m : Model) :
    Except DbError Text := do
  let subSuffix ← t.modelSuffix m
  if suffix ≠ [] ∧ suffix ≠ subSuffix then .error .diffSuffixDML else .ok subSuffix

def TableSharding.checkDiffSuffixesByModel (t : TableSharding) (v : ReflectValue) :
    Except DbError Text :=
  v.elems.foldlM t.sameSuffix []

/-! ## Dispatch by model -/

/-- The result of `dispatchTableByModel`.  `skip` is `false, false`. -/
inductive ByModel
  | skip
  | otherTable
  | failed (e : DbError)
  | routed (table : Text)
deriving DecidableEq, Repr

/-- A suffix that cannot come from a model. -/
def noSuffix (suffix : Text) : Bool := isStrBlank suffix || suffix = ['_']

/-- The part of `dispatchTableByModel` behind its guards. -/
def TableSharding.routeModel (t : TableSharding) (env : Env) (v : ReflectValue) (m : Model) :
    ByModel :=
  match t.checkDiffSuffixesByModel v with
  | .error e => .failed e
  | .ok _ =>
    match t.modelSuffix m with
    | .error e => .failed e
    | .ok suffix =>
      if noSuffix suffix then .skip
      else match env.createTable suffix with
        | .error e => .failed e
        | .ok _ => .routed (t.table ++ suffix)

/-- `dispatchTableByModel` of a statement that is no `INSERT`. -/
def TableSharding.dispatchTableByModel (t : TableSharding) (env : Env) (s : GormStatement) :
    ByModel :=
  match s.model with
  | none => .skip
  | some v =>
    if v.isBlank then .skip
    else if s.table ≠ t.table then .otherTable
    else match getModelReflectValue v with
      | none => .skip
      | some m => t.routeModel env v m

/-! ## The callback -/

inductive Callback
  | ignored
  | otherTable
  | failed (e : DbError)
  | byModel (table : Text)
  | bySQL (result : Dispatched)
deriving DecidableEq, Repr

/-- `queryCallback`, `updateCallback` and `deleteCallback`.  `sql` and `args` are what
`BuildQuerySQL` and the like build from the statement. -/
def TableSharding.callback (t : TableSharding) (env : Env) (isIgnored : Bool) (s : GormStatement)
    (sql : Text) (args : List Value) : Callback :=
  if isIgnored then .ignored
  else match t.dispatchTableByModel env s with
    | .otherTable => .otherTable
    | .failed e => .failed e
    | .routed table => .byModel table
    | .skip => .bySQL (t.dispatchTableBySQL env sql args)

/-! ## Following the condition -/

/-- The condition is one conjunction, and it fixes the keys to these values. -/
def Fixes (tableName : Text) (keys : List Text) (args : List Value)
    (condition : Node (.opt .expr)) (values : List Value) : Prop :=
  ∃ clause, clauses tableName args condition = [clause] ∧ Consistent clause ∧
    List.Forall₂ (fun key v => (key, v) ∈ clause) keys values

/-- The tables that the parts of a text are sent to. -/
def TableSharding.sqlTables (t : TableSharding) (env : Env) (sql : Text) (args : List Value) :
    Except Stop (List Text) :=
  match parseStatement sql with
  | .error e => .error (if e = .panic then .panic else .unchanged)
  | .ok stmt =>
    (t.dispatchStatement env args stmt).map fun stmt' =>
      (sites t.table (arms stmt) (arms stmt')).map Prod.snd

/-- The table for the values of the keys. -/
def TableSharding.IsTableOf (t : TableSharding) (values : List Value) (table : Text) : Prop :=
  ∃ suffix, t.shardingFunc values = .ok suffix ∧ table = t.table ++ suffix

/-- The callback chooses the table of the values, or an error is recorded. -/
def Chooses (t : TableSharding) (env : Env) (s : GormStatement) (sql : Text) (args : List Value)
    (values : List Value) : Prop :=
  match t.callback env false s sql args with
  | .failed _ => True
  | .byModel table => t.IsTableOf values table
  | .bySQL _ =>
    match t.sqlTables env sql args with
    | .ok tables => ∀ table ∈ tables, t.IsTableOf values table
    | .error (.error _) => True
    | .error _ => False
  | _ => False

/-- A text of a statement on the table with one part, which the parser may reject. -/
def IsTextOf (table : Text) (a : Arm) (sql : Text) : Prop :=
  ∀ stmt, parseStatement sql = .ok stmt → onTable table stmt = true ∧ arms stmt = [a]

/-- The values that the walk takes from the condition have the suffix of the values,
or the first one that cannot be read is an error. -/
def TakesSuffixOf (t : TableSharding) (args : List Value) (condition : Node (.opt .expr))
    (values : List Value) : Prop :=
  match firstFault (t.shardingKeys.map (picked t.table args condition)) with
  | some .panic => False
  | some (.error _) => True
  | none => ∀ taken, t.shardingKeys.mapM (picked t.table args condition) = .ok taken →
    ∀ suffix, t.shardingFunc taken = .ok suffix → t.shardingFunc values = .ok suffix

/-- The text is parsed and its condition leads to the suffix of the values. -/
def TextAgrees (t : TableSharding) (args : List Value) (sql : Text)
    (condition : Node (.opt .expr)) (values : List Value) : Prop :=
  (∃ stmt, parseStatement sql = .ok stmt) ∧ TakesSuffixOf t args condition values

/-- The key fields of the model have the suffix of the values.  Without such a suffix
the text has to agree. -/
def ModelAgrees (t : TableSharding) (env : Env) (args : List Value) (v : ReflectValue) (sql : Text)
    (condition : Node (.opt .expr)) (values : List Value) : Prop :=
  match getModelReflectValue v with
  | none => TextAgrees t args sql condition values
  | some m => ∀ common suffix, t.checkDiffSuffixesByModel v = .ok common →
    t.modelSuffix m = .ok suffix →
    if noSuffix suffix then TextAgrees t args sql condition values
    else env.createTable suffix = .ok () → t.shardingFunc values = .ok suffix

section

variable {t : TableSharding} {env : Env} {args : List Value}

theorem isTableOf_append :
    t.IsTableOf values (t.table ++ suffix) ↔ t.shardingFunc values = .ok suffix := by
  constructor
  · rintro ⟨suffix', h, heq⟩
    rw [h, List.append_cancel_left heq]
  · exact fun h => ⟨suffix, h, rfl⟩

/-- The table that a text is sent to. -/
theorem sqlTables_eq {a : Arm}
    (hparse : parseStatement sql = .ok stmt) (hon : onTable t.table stmt = true)
    (harm : arms stmt = [a]) :
    t.sqlTables env sql args =
      (t.suffixOrStop a.condition t.table args).map fun suffix => [t.table ++ suffix] := by
  have h : (t.dispatchStatement env args stmt).map (fun stmt' => sites t.table (arms stmt) (arms stmt')) =
      (arms stmt).mapM (t.route args) := dispatchStatement_sites env hon
  rw [harm] at h
  simp only [TableSharding.sqlTables, hparse, harm]
  cases hd : t.dispatchStatement env args stmt with
  | error e =>
    rw [hd] at h
    cases hs : t.suffixOrStop a.condition t.table args with
    | error e' =>
      rw [List.mapM_cons, TableSharding.route, hs] at h
      cases h
      rfl
    | ok suffix =>
      rw [List.mapM_cons, TableSharding.route, hs] at h
      cases h
  | ok stmt' =>
    rw [hd] at h
    cases hs : t.suffixOrStop a.condition t.table args with
    | error e' =>
      rw [List.mapM_cons, TableSharding.route, hs] at h
      cases h
    | ok suffix =>
      rw [List.mapM_cons, TableSharding.route, hs] at h
      have hsites : sites t.table [a] (arms stmt') = [(a.condition, t.table ++ suffix)] :=
        Except.ok.inj h
      simp [Except.map, hsites]

/-- When the text chooses the table of some values. -/
theorem textAgrees_iff (env : Env) (args values : List Value) {a : Arm}
    (htext : IsTextOf t.table a sql) :
    (match t.sqlTables env sql args with
      | .ok tables => ∀ table ∈ tables, t.IsTableOf values table
      | .error (.error _) => True
      | .error _ => False) ↔ TextAgrees t args sql a.condition values := by
  cases hparse : parseStatement sql with
  | error e =>
    simp only [TableSharding.sqlTables, TextAgrees, hparse, reduceCtorEq, exists_false, false_and,
      iff_false]
    split_ifs <;> exact not_false
  | ok stmt =>
  rw [TextAgrees, and_iff_right ⟨stmt, hparse⟩, sqlTables_eq hparse (htext stmt hparse).1
    (htext stmt hparse).2, TakesSuffixOf]
  cases hf : firstFault (t.shardingKeys.map (picked t.table args a.condition)) with
  | some f =>
    rw [suffixOrStop_of_fault hf]
    cases f <;> exact Iff.rfl
  | none =>
    obtain ⟨taken, htaken⟩ := mapM_eq_ok hf
    rw [suffixOrStop_of_values htaken]
    cases hs : t.shardingFunc taken with
    | error e => simp [Except.map, htaken, hs]
    | ok suffix => simp [Except.map, htaken, hs, isTableOf_append]

/-- On a statement with a model that is not blank, the callback chooses the table of
the values that the condition fixes exactly when the model agrees with them. -/
theorem callback_chooses_iff {s : GormStatement} {v : ReflectValue} {sql : Text} {a : Arm}
    (hmodel : s.model = some v) (hblank : v.isBlank = false) (htable : s.table = t.table)
    (htext : IsTextOf t.table a sql) :
    (∀ values, Fixes t.table t.shardingKeys args a.condition values →
      Chooses t env s sql args values) ↔
    (∀ values, Fixes t.table t.shardingKeys args a.condition values →
      ModelAgrees t env args v sql a.condition values) := by
  refine forall_congr' fun values => imp_congr_right fun _ => ?_
  have hsql := textAgrees_iff env args values htext
  unfold Chooses ModelAgrees
  simp only [TableSharding.callback, Bool.false_eq_true, if_false, TableSharding.dispatchTableByModel,
    hmodel, hblank, htable, ne_eq, not_true_eq_false]
  cases getModelReflectValue v with
  | none => exact hsql
  | some m =>
    simp only [TableSharding.routeModel]
    cases t.checkDiffSuffixesByModel v with
    | error e => simp
    | ok common =>
      cases t.modelSuffix m with
      | error e => simp
      | ok suffix =>
        by_cases hno : noSuffix suffix = true
        · simpa [hno] using hsql
        · cases hc : env.createTable suffix <;> simp [hno, hc, isTableOf_append]

end

/-! ## Orders of users -/

/-- `cast.ToStringE` on numbers and texts. -/
def castString : Value → Except DbError Text
  | .num _ n => .ok (decimalInt n)
  | .string s => .ok s
  | _ => .error .notImplemented

/-- The table `orders` with the raw value of `user_id` as its suffix. -/
def rawOrders : TableSharding := rawSharding "orders".toList ["user_id".toList] castString

def orderModel (user : Int) : Model :=
  ⟨false, fun column =>
    if column = "user_id".toList then some (.num .int64 user)
    else if column = "amount".toList then some (.num .int64 2)
    else none⟩

/-- A query with a model for the orders of user 1. -/
def ordersOfUser1 : Text := "SELECT * FROM orders WHERE user_id = 1".toList

theorem parse_ordersOfUser1 :
    parseStatement ordersOfUser1 = .ok (selectAll "orders".toList (.present userCondition)) := by
  decide

theorem isTextOf_ordersOfUser1 : IsTextOf "orders".toList
    ⟨none, .present (.table ⟨.plain "orders".toList, none⟩), .present userCondition⟩
    ordersOfUser1 := by
  intro stmt h
  obtain rfl := Except.ok.inj (parse_ordersOfUser1.symm.trans h)
  exact ⟨rfl, rfl⟩

theorem fixes_user1
    (h : Fixes "orders".toList ["user_id".toList] [] (.present userCondition) values) :
    values = [.string ['1']] := by
  obtain ⟨clause, hclause, -, hall⟩ := h
  obtain rfl : [("user_id".toList, Value.string ['1'])] = clause := List.cons.inj hclause |>.1
  cases hall with
  | cons hv hnil =>
    cases hnil
    obtain ⟨-, rfl⟩ := Prod.mk.inj (List.mem_singleton.mp hv)
    rfl

/-- The model of an order of user 1 agrees with the condition. -/
theorem model_of_user1_chooses :
    Fixes "orders".toList ["user_id".toList] [] (.present userCondition) [.string ['1']] ∧
    Chooses rawOrders noEnv ⟨"orders".toList, some (.struct (orderModel 1))⟩ ordersOfUser1 []
      [.string ['1']] := by
  have hfix : Fixes "orders".toList ["user_id".toList] [] (.present userCondition)
      [.string ['1']] :=
    ⟨_, rfl, by decide, .cons (List.mem_singleton.mpr rfl) .nil⟩
  refine ⟨hfix, (callback_chooses_iff (t := rawOrders) (v := .struct (orderModel 1)) rfl rfl rfl
    isTextOf_ordersOfUser1).mpr ?_ _ hfix⟩
  intro values hfix
  rw [fixes_user1 hfix]
  rintro common suffix - ⟨⟩ -
  rfl

/-- A model with no user set is routed by user 0, although the condition asks for
user 1. -/
theorem zero_model_contradicts_where :
    parseStatement ordersOfUser1 = .ok (selectAll "orders".toList (.present userCondition)) ∧
    clauses "orders".toList [] (.present userCondition) = [[("user_id".toList, .string ['1'])]] ∧
    rawOrders.shardingFunc [.string ['1']] = .ok "_1".toList ∧
    rawOrders.callback noEnv false ⟨"orders".toList, some (.struct (orderModel 0))⟩
      ordersOfUser1 [] = .byModel "orders_0".toList :=
  ⟨parse_ordersOfUser1, rfl, rfl, rfl⟩

end Gofusion.Db
