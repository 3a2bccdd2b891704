import Gofusion.Db.Sharding.InsertRows
import Gofusion.Db.Sharding.Partition
import Gofusion.Lib.Runs

/-!
# Creating the tables

Before a statement is sent to a shard, `createTableIfNotExists` makes sure that its table exists.
`dispatchTableByModel` calls it with the table of the statement.  So does the `INSERT` case of
`dispatchTableBySQL`, but it has compared the table in the text, and gorm leaves that of the
statement empty for a raw text.  What is migrated is the model of the statement, and `AutoMigrate`
panics on `nil`.

A run is a list of requests.  A request has everything that the plugin asks the database, so a
statement about all runs is one about any database.
-/

namespace Gofusion.Db

open Gofusion.Sqlparser Gofusion.Lib

/-! ## The state and the requests -/

/-- What a `tableSharding` keeps between two calls. -/
structure ShardingState where
  shardingTableModel : Option ReflectValue
  shardingTableCreated : List Text

/-- A statement that reaches one of the callbacks. -/
structure Request where
  isIgnored : Bool
  /-- The create callback, with `tableShardingIsInsert`. -/
  isInsert : Bool
  statement : GormStatement
  /-- The model is a `schema.Tabler`. -/
  isTabler : Bool
  primaryKey : Option PrimaryKey
  /-- The text of the statement, built or raw, and its arguments. -/
  sql : Text
  args : List Value
  toUint64E : Value → Except DbError Nat
  next : Option (Nat → Except DbError Nat)
  /-- `HasTable`. -/
  hasTable : Text → Bool
  /-- `AutoMigrate` of a model for a table. -/
  autoMigrate : Text → ReflectValue → Except DbError Unit

/-- `ErrShardingModelNotFound`. -/
def DbError.modelNotFound : DbError :=
  .other "sharding table model not found when migrating".toList

/-- What `createTableIfNotExists` has done. -/
structure TableCheck where
  /-- The table that it looked for or created. -/
  table : Text
  /-- The argument of `AutoMigrate`, if it was called. -/
  migrated : Option ReflectValue

/-- A table that is known, or in the database. -/
def Request.Exists (r : Request) (state : ShardingState) (table : Text) : Prop :=
  table ∈ state.shardingTableCreated ∨ r.hasTable table = true

instance (r : Request) (state : ShardingState) (table : Text) : Decidable (r.Exists state table) :=
  inferInstanceAs (Decidable (_ ∨ _))

def Request.createTableIfNotExists (r : Request) (state : ShardingState) (tableName suffix : Text) :
    Except Fault TableCheck :=
  let shardingTableName := tableName ++ suffix
  if r.Exists state shardingTableName then .ok ⟨shardingTableName, none⟩
  else match r.statement.model, state.shardingTableModel with
    | none, none => .error (.error .modelNotFound)
    -- `AutoMigrate(nil)`
    | none, some _ => .error .panic
    | some v, _ =>
      match r.autoMigrate shardingTableName v with
      | .error e => .error (.error e)
      | .ok _ => .ok ⟨shardingTableName, some v⟩

/-- What ends the callback.  A panic does so as well, and the statement is not sent. -/
def Fault.toError : Fault → DbError
  | .error e => e
  | .panic => .other "panic".toList

/-- The first lines of `dispatchTableByModel` behind its guards: the first model is kept. -/
def TableSharding.remember (t : TableSharding) (state : ShardingState) (r : Request) :
    ShardingState :=
  match r.statement.model with
  | none => state
  | some v =>
    if r.isIgnored = false ∧ v.isBlank = false ∧ r.statement.table = t.table ∧
        state.shardingTableModel.isNone = true ∧ r.isTabler = true then
      { state with shardingTableModel := some v }
    else state

/-- What the plugin calls in other packages, with `createTableIfNotExists` for the statement. -/
def TableSharding.envAt (t : TableSharding) (state : ShardingState) (r : Request) : Env where
  toUint64E := r.toUint64E
  next := r.next
  createTable suffix :=
    match r.createTableIfNotExists (t.remember state r) r.statement.table suffix with
    | .error e => .error e.toError
    | .ok _ => .ok ()

/-! ## The calls -/

/-- How far `dispatchTableByModel` gets before it calls `createTableIfNotExists`. -/
inductive Ahead
  | skip
  /-- `setPrimaryKeyByModel` has failed.  The error is recorded, and the callback goes on. -/
  | unset (e : DbError)
  | otherTable
  | failed (e : DbError)
  | create (suffix : Text)

/-- `dispatchTableByModel` from there on. -/
def TableSharding.finish (t : TableSharding) (env : Env) : Ahead → ByModel
  | .skip => .skip
  | .unset e => .failed e
  | .otherTable => .otherTable
  | .failed e => .failed e
  | .create suffix =>
    match env.createTable suffix with
    | .error e => .failed e
    | .ok _ => .routed (t.table ++ suffix)

/-- The callback goes on with the text. -/
def Ahead.goesOn : Ahead → Bool
  | .skip | .unset _ => true
  | _ => false

def TableSharding.routeAhead (t : TableSharding) (v : ReflectValue) (m : Model) : Ahead :=
  match t.checkDiffSuffixesByModel v with
  | .error e => .failed e
  | .ok _ =>
    match t.modelSuffix m with
    | .error e => .failed e
    | .ok suffix => if noSuffix suffix then .skip else .create suffix

/-- The model with its primary key, for an insert into a table that is sharded by it. -/
def TableSharding.keyedModel (t : TableSharding) (env : Env) (r : Request) (v : ReflectValue) :
    Except DbError ReflectValue :=
  if r.isInsert then
    if t.isShardingPrimaryKey then setPrimaryKeyByModel r.primaryKey env v else .ok v
  else .ok v

def TableSharding.modelAhead (t : TableSharding) (env : Env) (r : Request) : Ahead :=
  match r.statement.model with
  | none => .skip
  | some v =>
    if v.isBlank then .skip
    else if r.statement.table ≠ t.table then .otherTable
    else match t.keyedModel env r v with
      | .error e => .unset e
      | .ok v =>
        match getModelReflectValue v with
        | none => .skip
        | some m => t.routeAhead v m

/-- `dispatchTableByModel` of a request. -/
def TableSharding.byModel (t : TableSharding) (env : Env) (r : Request) : ByModel :=
  if r.isInsert then t.dispatchCreateByModel env r.primaryKey r.statement
  else t.dispatchTableByModel env r.statement

/-- The suffix that the `INSERT` case of `dispatchTableBySQL` asks a table for. -/
def TableSharding.askedBySQL (t : TableSharding) (env : Env) (r : Request) : Option Text :=
  match parseStatement r.sql with
  | .ok (.insert stmt) =>
    if stmt.tableName.tableName ≠ t.table then none
    else match t.insertRows env r.args stmt with
      | .error _ => none
      | .ok st => some st.suffix
  | _ => none

/-- The suffix that a callback asks a table for. -/
def TableSharding.asked (t : TableSharding) (env : Env) (r : Request) : Option Text :=
  if r.isIgnored then none
  else match t.modelAhead env r with
    | .create suffix => some suffix
    | a => if a.goesOn then t.askedBySQL env r else none

/-- The call of `createTableIfNotExists`. -/
def TableSharding.creation (t : TableSharding) (state : ShardingState) (r : Request) :
    Option (Except Fault TableCheck) :=
  (t.asked (t.envAt state r) r).map
    (r.createTableIfNotExists (t.remember state r) r.statement.table)

/-- The state behind a request, and whether a table was asked for and is there. -/
def TableSharding.serve (t : TableSharding) (state : ShardingState) (r : Request) :
    ShardingState × Bool :=
  match t.creation state r with
  | some (.ok c) =>
    ({ t.remember state r with
        shardingTableCreated := c.table :: (t.remember state r).shardingTableCreated }, true)
  | _ => (t.remember state r, false)

def TableSharding.after (t : TableSharding) (history : List Request) : ShardingState :=
  runFrom t.serve ⟨none, []⟩ history

/-! ## The tables that are written -/

/-- The table in the `INSERT` that a request is rewritten to. -/
def TableSharding.emitted (t : TableSharding) (state : ShardingState) (r : Request) : Option Text :=
  if r.isIgnored then none
  else if (t.modelAhead (t.envAt state r) r).goesOn then
    match parseStatement r.sql with
    | .ok (.insert stmt) =>
      match t.dispatchInsert (t.envAt state r) r.args stmt with
      | .ok out => some out.tableName.tableName
      | .error _ => none
    | _ => none
  else match t.byModel (t.envAt state r) r with
    | .routed table => if r.isInsert then some table else none
    | _ => none

/-- A model of the table was in a statement that the plugin has seen. -/
def TableSharding.Seen (t : TableSharding) (history : List Request) : Prop :=
  ∃ r ∈ history, r.isIgnored = false ∧ r.statement.model ≠ none ∧ r.statement.table = t.table

/-- The table that is looked for or created for an `INSERT` is the one that is written, and once a
model has been seen, `nil` is not migrated. -/
structure TableSharding.CreatesWritten (t : TableSharding) (history : List Request) (r : Request) :
    Prop where
  table : ∀ table, t.emitted (t.after history) r = some table →
    ∃ c, t.creation (t.after history) r = some (.ok c) ∧ c.table = table
  model : t.Seen history → t.creation (t.after history) r ≠ some (.error .panic)

/-- An `INSERT` that is dispatched by its text comes with the table in the statement.  A statement
without a model comes for a table that is there, or before a model is remembered. -/
structure TableSharding.NamesTable (t : TableSharding) (history : List Request) (r : Request) :
    Prop where
  table : (t.modelAhead (t.envAt (t.after history) r) r).goesOn = true →
    ∀ table, t.emitted (t.after history) r = some table → r.statement.table = t.table
  model : r.statement.model = none → (t.after history).shardingTableModel ≠ none →
    ∀ suffix, t.asked (t.envAt (t.after history) r) r = some suffix →
      r.Exists (t.after history) (r.statement.table ++ suffix)

section

variable {t : TableSharding} {env : Env} {state : ShardingState} {r : Request} {suffix : Text}

/-! ## Where the calls come from -/

/-- Routing a model is looking ahead and finishing. -/
theorem routeModel_eq (v : ReflectValue) (m : Model) :
    t.routeModel env v m = t.finish env (t.routeAhead v m) := by
  rw [TableSharding.routeModel, TableSharding.routeAhead]
  cases t.checkDiffSuffixesByModel v with
  | error e => rfl
  | ok _ =>
    cases t.modelSuffix m with
    | error e => rfl
    | ok suffix =>
      cases hno : noSuffix suffix with
      | true => simp [hno, TableSharding.finish]
      | false => cases hc : env.createTable suffix <;> simp [hno, hc, TableSharding.finish]

/-- `dispatchTableByModel` goes as far as `modelAhead` says, and then creates the table. -/
theorem byModel_eq : t.byModel env r = t.finish env (t.modelAhead env r) := by
  rw [TableSharding.byModel, TableSharding.modelAhead, TableSharding.dispatchCreateByModel,
    TableSharding.dispatchTableByModel]
  cases r.statement.model with
  | none => cases r.isInsert <;> rfl
  | some v =>
    cases hb : v.isBlank with
    | true => cases r.isInsert <;> simp [hb, TableSharding.finish]
    | false =>
      by_cases ht : r.statement.table = t.table
      · cases hi : r.isInsert with
        | false =>
          simp only [hb, ht, TableSharding.keyedModel, hi, Bool.false_eq_true, if_false, ne_eq,
            not_true_eq_false]
          cases getModelReflectValue v with
          | none => rfl
          | some m => exact routeModel_eq v m
        | true =>
          simp only [hb, ht, TableSharding.keyedModel, hi, Bool.false_eq_true, if_false, if_true,
            ne_eq, not_true_eq_false]
          cases (if t.isShardingPrimaryKey = true then setPrimaryKeyByModel r.primaryKey env v
              else .ok v) with
          | error e => rfl
          | ok v' =>
            dsimp only
            cases getModelReflectValue v' with
            | none => rfl
            | some m => exact routeModel_eq v' m
      · cases r.isInsert <;> simp [hb, ht, TableSharding.finish]

theorem dispatchInsert_asked {stmt out : InsertStatement}
    (hparse : parseStatement r.sql = .ok (.insert stmt))
    (h : t.dispatchInsert env r.args stmt = .ok out) :
    ∃ suffix, t.askedBySQL env r = some suffix ∧ env.createTable suffix = .ok () ∧
      out.tableName.tableName = t.table ++ suffix := by
  obtain ⟨htable, st, hst, hcreated, rfl⟩ := dispatchInsert_eq_ok.mp h
  refine ⟨st.suffix, ?_, hcreated, rfl⟩
  simp only [TableSharding.askedBySQL, hparse, htable, ne_eq, not_true_eq_false, if_false, hst]

theorem envAt_createTable (h : (t.envAt state r).createTable suffix = .ok ()) :
    ∃ c, r.createTableIfNotExists (t.remember state r) r.statement.table suffix = .ok c := by
  simp only [TableSharding.envAt] at h
  split at h
  · cases h
  · next c hc => exact ⟨c, hc⟩

/-- A table is asked for with the table of the statement as the base of its name. -/
theorem createTable_ok {c : TableCheck}
    (h : r.createTableIfNotExists state tableName suffix = .ok c) : c.table = tableName ++ suffix := by
  simp only [Request.createTableIfNotExists] at h
  split at h
  · cases h
    rfl
  · split at h
    · cases h
    · cases h
    · split at h <;> cases h
      rfl

theorem createTable_panic :
    r.createTableIfNotExists state tableName suffix = .error .panic ↔
      ¬r.Exists state (tableName ++ suffix) ∧ r.statement.model = none ∧
        state.shardingTableModel ≠ none := by
  simp only [Request.createTableIfNotExists]
  split
  case isTrue h => simp [h]
  case isFalse h =>
    cases hmodel : r.statement.model with
    | none => cases hstate : state.shardingTableModel <;> simp [h]
    | some v => cases hm : r.autoMigrate (tableName ++ suffix) v <;> simp [hm]

/-! ## What is remembered -/

theorem remember_of_none (h : r.statement.model = none) : t.remember state r = state := by
  rw [TableSharding.remember, h]

theorem remember_model (h : (t.remember state r).shardingTableModel ≠ none) :
    state.shardingTableModel ≠ none ∨
      r.isIgnored = false ∧ r.statement.model ≠ none ∧ r.statement.table = t.table := by
  unfold TableSharding.remember at h
  split at h
  · exact .inl h
  · next v hv =>
    split at h
    case isTrue hnew => exact .inr ⟨hnew.1, by rw [hv]; nofun, hnew.2.2.1⟩
    case isFalse => exact .inl h

theorem serve_model : (t.serve state r).1.shardingTableModel =
    (t.remember state r).shardingTableModel := by
  unfold TableSharding.serve
  split <;> rfl

theorem seen_of_remembered
    (h : (t.after history).shardingTableModel ≠ none) : t.Seen history := by
  induction history using List.reverseRecOn with
  | nil => exact absurd rfl h
  | append_singleton history r ih =>
    rw [TableSharding.after, runFrom_concat, serve_model] at h
    obtain hold | hnew := remember_model h
    · obtain ⟨r', hr', hseen⟩ := ih hold
      exact ⟨r', List.mem_append_left _ hr', hseen⟩
    · exact ⟨r, List.mem_append_right _ (List.mem_singleton_self r), hnew⟩

end

/-! ## Every run -/

section

variable {t : TableSharding} {history : List Request} {r : Request}

/-- A model leads to a table only where the statement names the configured one. -/
theorem modelAhead_create (h : t.modelAhead env r = .create suffix) :
    r.statement.table = t.table := by
  unfold TableSharding.modelAhead at h
  split at h
  · cases h
  · next v hv =>
    split at h
    · cases h
    · split at h
      · cases h
      · next htable => exact not_not.mp htable

/-- By its model, an `INSERT` is sent to the table that was asked for. -/
theorem emitted_by_model
    (hmodel : (t.modelAhead (t.envAt (t.after history) r) r).goesOn = false)
    (hemitted : t.emitted (t.after history) r = some table) :
    ∃ c, t.creation (t.after history) r = some (.ok c) ∧ c.table = table := by
  unfold TableSharding.emitted at hemitted
  split at hemitted
  · cases hemitted
  next hignored =>
  rw [if_neg (by simp [hmodel]), byModel_eq] at hemitted
  cases hahead : t.modelAhead (t.envAt (t.after history) r) r with
  | skip | unset e => rw [hahead] at hmodel; cases hmodel
  | otherTable | failed e => rw [hahead] at hemitted; cases hemitted
  | create suffix =>
    have htable := modelAhead_create hahead
    rw [hahead, TableSharding.finish] at hemitted
    cases hcreated : (t.envAt (t.after history) r).createTable suffix with
    | error e =>
      rw [hcreated] at hemitted
      cases hemitted
    | ok u =>
      rw [hcreated] at hemitted
      have hwritten : t.table ++ suffix = table := by
        dsimp only at hemitted
        split at hemitted
        · exact Option.some.inj hemitted
        · cases hemitted
      obtain ⟨c, hc⟩ := envAt_createTable hcreated
      refine ⟨c, ?_, by rw [createTable_ok hc, htable, hwritten]⟩
      rw [TableSharding.creation, TableSharding.asked, if_neg hignored, hahead, Option.map_some, hc]

/-- A text that is sent has asked for a table before. -/
theorem emitted_by_text
    (htext : (t.modelAhead (t.envAt state r) r).goesOn = true)
    (hemitted : t.emitted state r = some table) :
    ∃ suffix c, table = t.table ++ suffix ∧ t.creation state r = some (.ok c) ∧
      r.createTableIfNotExists (t.remember state r) r.statement.table suffix = .ok c := by
  unfold TableSharding.emitted at hemitted
  split at hemitted
  · cases hemitted
  next hignored =>
  split at hemitted
  case h_2 => cases hemitted
  case h_1 stmt hparse =>
  split at hemitted
  case h_2 => cases hemitted
  case h_1 out hout =>
  obtain ⟨suffix, hasked, hcreated, hname⟩ := dispatchInsert_asked hparse hout
  obtain ⟨c, hc⟩ := envAt_createTable hcreated
  refine ⟨suffix, c, by rw [← hname, Option.some.inj hemitted], ?_, hc⟩
  have hall : t.asked (t.envAt state r) r = some suffix := by
    rw [TableSharding.asked, if_neg hignored]
    cases hahead : t.modelAhead (t.envAt state r) r with
    | create suffix | otherTable | failed e => rw [hahead] at htext; cases htext
    | skip | unset e => exact hasked
  rw [TableSharding.creation, hall, Option.map_some, hc]

/-- The table that is created is the one that is written if and only if a statement that is
dispatched by its text names it. -/
theorem table_written_iff :
    (∀ table, t.emitted (t.after history) r = some table →
        ∃ c, t.creation (t.after history) r = some (.ok c) ∧ c.table = table) ↔
      ((t.modelAhead (t.envAt (t.after history) r) r).goesOn = true →
        ∀ table, t.emitted (t.after history) r = some table → r.statement.table = t.table) := by
  cases htext : (t.modelAhead (t.envAt (t.after history) r) r).goesOn with
  | false => exact iff_of_true (fun _ => emitted_by_model htext) fun h => by cases h
  | true =>
    rw [imp_iff_right rfl]
    refine forall₂_congr fun table hemitted => ?_
    obtain ⟨suffix, c, rfl, hcreation, hc⟩ := emitted_by_text htext hemitted
    have hname := createTable_ok hc
    constructor
    · rintro ⟨c', hcreation', htable⟩
      cases hcreation.symm.trans hcreation'
      exact List.append_cancel_right (hname.symm.trans htable)
    · intro hbase
      exact ⟨c, hcreation, by rw [hname, hbase]⟩

/-- `nil` is migrated for a statement without a model, once a model is remembered. -/
theorem creation_panic_iff : t.creation (t.after history) r = some (.error .panic) ↔
    r.statement.model = none ∧ (t.after history).shardingTableModel ≠ none ∧
      ∃ suffix, t.asked (t.envAt (t.after history) r) r = some suffix ∧
        ¬r.Exists (t.after history) (r.statement.table ++ suffix) := by
  rw [TableSharding.creation, Option.map_eq_some_iff]
  constructor
  · rintro ⟨suffix, hasked, hpanic⟩
    obtain ⟨hnew, hnone, hmodel⟩ := createTable_panic.mp hpanic
    rw [remember_of_none hnone] at hnew hmodel
    exact ⟨hnone, hmodel, suffix, hasked, hnew⟩
  · rintro ⟨hnone, hmodel, suffix, hasked, hnew⟩
    refine ⟨suffix, hasked, createTable_panic.mpr ?_⟩
    rw [remember_of_none hnone]
    exact ⟨hnew, hnone, hmodel⟩

/-- One request behind a history. -/
theorem createsWritten_iff : t.CreatesWritten history r ↔ t.NamesTable history r := by
  constructor
  · rintro ⟨htable, hmodel⟩
    refine ⟨table_written_iff.mp htable, fun hnone hremembered suffix hasked => ?_⟩
    by_contra hnew
    exact hmodel (seen_of_remembered hremembered)
      (creation_panic_iff.mpr ⟨hnone, hremembered, suffix, hasked, hnew⟩)
  · rintro ⟨htable, hmodel⟩
    refine ⟨table_written_iff.mpr htable, fun _ hpanic => ?_⟩
    obtain ⟨hnone, hremembered, suffix, hasked, hnew⟩ := creation_panic_iff.mp hpanic
    exact hnew (hmodel hnone hremembered suffix hasked)

end

/-- In a run, the tables that are looked for or created for inserts are the ones that are written,
and `nil` is not migrated once a model was seen, if and only if every `INSERT` that is dispatched by
its text comes with the table in the statement, and every statement without a model for a table that
is there, or before a model is remembered. -/
theorem creates_written_iff (t : TableSharding) (history : List Request) :
    (∀ before r later, history = before ++ r :: later → t.CreatesWritten before r) ↔
      ∀ before r later, history = before ++ r :: later → t.NamesTable before r :=
  forall₄_congr fun _ _ _ _ => createsWritten_iff

/-! ## A model and a raw text -/

/-- An order of user 1 is created with its model. -/
def createOrder : Request where
  isIgnored := false
  isInsert := true
  statement := ⟨"orders".toList, some (.struct (orderModel 1))⟩
  isTabler := true
  primaryKey := none
  sql := []
  args := []
  toUint64E _ := .ok 0
  next := none
  hasTable _ := false
  autoMigrate _ _ := .ok ()

/-- An order of user 2 is inserted with a raw text, without a table or a model in the statement. -/
def rawInsert : Request :=
  { createOrder with
    isInsert := false
    statement := ⟨[], none⟩
    isTabler := false
    sql := "INSERT INTO orders (user_id) VALUES (2)".toList }

/-- The same where a table `_2` exists. -/
def rawInsertBeside : Request := { rawInsert with hasTable := fun table => table = "_2".toList }

/-- Where a table `_2` exists, the raw text is sent to `orders_2`, but `_2` is the table that is
looked for.  Where it does not, `nil` is migrated, although a model of the table has been seen. -/
theorem raw_insert_creates_elsewhere :
    rawOrders.Seen [createOrder] ∧
      rawOrders.emitted (rawOrders.after [createOrder]) rawInsertBeside = some "orders_2".toList ∧
      rawOrders.creation (rawOrders.after [createOrder]) rawInsertBeside =
        some (.ok ⟨"_2".toList, none⟩) ∧
      rawOrders.creation (rawOrders.after [createOrder]) rawInsert = some (.error .panic) := by
  have hbeside : rawOrders.asked (rawOrders.envAt (rawOrders.after [createOrder]) rawInsertBeside)
      rawInsertBeside = some "_2".toList := by decide
  have hasked : rawOrders.asked (rawOrders.envAt (rawOrders.after [createOrder]) rawInsert)
      rawInsert = some "_2".toList := by decide
  refine ⟨⟨createOrder, List.mem_singleton_self _, rfl, nofun, rfl⟩, by decide, ?_, ?_⟩
  · rw [TableSharding.creation, hbeside]
    rfl
  · rw [TableSharding.creation, hasked]
    rfl

end Gofusion.Db
