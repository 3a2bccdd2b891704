import Gofusion.Utils.Text
import Mathlib.Data.List.Nodup

/-!
# Soft-delete clauses

`db/softdelete` and `db/callbacks`.  A field of type `softdelete.Deleted` or
`softdelete.Timestamp` brings clauses of its own into every statement on its model.  All fields
work on the one map of clauses of the statement.

The expressions of a condition are gorm's.  Here they are any type with what the clauses
use of them (`Gorm`).
-/

namespace Gofusion.Db.Softdelete

/-! ## Columns and tags -/

inductive Cell
  | null
  | bool (b : Bool)
  | int (n : Int)
  | text (s : Text)
deriving DecidableEq, Repr

abbrev Row := Text → Cell

abbrev Assignment := Text × Cell

/-- The two types of fields. -/
inductive Kind
  | deleted
  | timestamp
deriving DecidableEq, Repr

/-- A soft-delete field of a model, with the text of its `ZEROVALUE` tag. -/
structure Field where
  kind : Kind
  dbName : Text
  zeroValue : Option Text
deriving DecidableEq, Repr

/-- The soft-delete fields of a model, in order.  Two fields have two columns. -/
structure Schema where
  fields : List Field
  nodup : (fields.map Field.dbName).Nodup

/-- The soft-delete fields of `DataSoftDeleted` of `db/model.go`. -/
def dataSoftDeleted : Schema where
  fields := [⟨.timestamp, "delete_time".toList, none⟩, ⟨.deleted, "deleted".toList, none⟩]
  nodup := by decide

/-- `strconv.ParseBool`. -/
def parseBool (s : Text) : Option Bool :=
  if s ∈ ["1", "t", "T", "TRUE", "true", "True"].map String.toList then some true
  else if s ∈ ["0", "f", "F", "FALSE", "false", "False"].map String.toList then some false
  else none

/-- The digits of an integer, not none. -/
def parseDigits (s : Text) : Option Nat :=
  if s ≠ [] ∧ s.all Char.isDigit then some (Nat.ofDigitChars 10 s 0) else none

/-- `strconv.ParseInt` with base 10 and 64 bits. -/
def parseInt (s : Text) : Option Int :=
  match s with
  | '-' :: ds => (parseDigits ds).bind fun n => if n ≤ 2 ^ 63 then some (-(n : Int)) else none
  | '+' :: ds => (parseDigits ds).bind fun n => if n < 2 ^ 63 then some (n : Int) else none
  | ds => (parseDigits ds).bind fun n => if n < 2 ^ 63 then some (n : Int) else none

/-- A tag that is no Boolean is ignored. -/
def parseStatusZeroValueTag (f : Field) : Bool := (f.zeroValue.bind parseBool).getD false

/-- The `sql.NullInt64` of the tag, `none` where it is not valid. -/
def parseTimestampZeroValueTag (f : Field) : Option Int := f.zeroValue.bind parseInt

/-- What the column of a row that is not deleted holds. -/
def Field.zero (f : Field) : Cell :=
  match f.kind with
  | .deleted => .bool (parseStatusZeroValueTag f)
  | .timestamp => (parseTimestampZeroValueTag f).elim .null .int

/-- What a delete at the time `now` writes into the column. -/
def Field.mark (now : Int) (f : Field) : Cell :=
  match f.kind with
  | .deleted => .bool true
  | .timestamp => .int now

/-! ## Expressions -/

section

variable {ε : Type} (isOr holds : ε → Bool)

/-- The expressions behind the first one, where `acc` holds of what is in front of them
up to the last OR. -/
def joinedFrom (acc : Bool) : List ε → Bool
  | [] => acc
  | e :: es => if isOr e then acc || joinedFrom (holds e) es else joinedFrom (acc && holds e) es

/-- A text of expressions joined by AND, and by OR in front of those that `isOr` selects.
AND binds stronger. -/
def joined : List ε → Bool
  | [] => true
  | e :: es => joinedFrom isOr holds (holds e) es

end

/-- What the clauses use of gorm.  `isOr` selects `clause.OrConditions` with one
expression, `and` is `clause.And`, `eq` is `clause.Eq` on a column of the table and `holds`
the rows that an expression selects.  gorm writes the expressions of a group and of a
`WHERE` joined by AND, except that it joins those of `isOr` by OR. -/
structure Gorm (ε : Type) where
  isOr : ε → Bool
  and : List ε → ε
  eq : Text → Cell → ε
  holds : Row → ε → Bool
  isOr_and : ∀ es, es.any isOr → isOr (and es) = false
  isOr_eq : ∀ column value, isOr (eq column value) = false
  holds_and : ∀ row es, es.any isOr → holds row (and es) = joined isOr (holds row) es
  holds_eq : ∀ row column value, holds row (eq column value) = decide (row column = value)

/-- The expressions that gorm builds from the values of primary keys. -/
abbrev Gorm.Key {ε : Type} (g : Gorm ε) := { e : ε // g.isOr e = false }

/-- Predicates on rows, and whether they are joined by OR. -/
def Gorm.plain : Gorm (Bool × (Row → Bool)) where
  isOr := Prod.fst
  and es := (false, fun row => joined Prod.fst (fun e : Bool × (Row → Bool) => e.2 row) es)
  eq column value := (false, fun row => decide (row column = value))
  holds row e := e.2 row
  isOr_and _ _ := rfl
  isOr_eq _ _ := rfl
  holds_and _ _ _ := rfl
  holds_eq _ _ _ := rfl

/-! ## Statements -/

/-- The keys of `db/softdelete/types.go` in the map of clauses. -/
inductive Flag
  | default
  | status
  | timestamp
  | deletedAt
deriving DecidableEq, Repr

/-- The text of a statement, by the clauses it is built of.  `raw` is the text that a
caller has given, or none. -/
inductive Sql (ε : Type)
  | raw (text : Text)
  | select (conditions : Option (List ε))
  | update (set : List Assignment) (conditions : Option (List ε))
  | delete (conditions : Option (List ε))
deriving Repr

/-- `SQL.Len() == 0`. -/
def Sql.isEmpty {ε : Type} : Sql ε → Bool
  | .raw text => text.isEmpty
  | _ => false

/-- The entries of the map of clauses that limit a statement to some rows: the
expressions of `WHERE`, and the flags. -/
structure Scope (ε : Type) where
  conditions : Option (List ε)
  flags : List Flag
deriving Repr

/-- `gorm.Statement`. -/
structure Statement (ε : Type) extends Scope ε where
  set : Option (List Assignment)
  unscoped : Bool
  sql : Sql ε
deriving Repr

section

variable {ε : Type} (g : Gorm ε)

/-- `AddClause` of a `clause.Where`, which appends. -/
def Scope.addWhere (es : List ε) (s : Scope ε) : Scope ε :=
  { s with conditions := some (s.conditions.getD [] ++ es) }

def Scope.addFlag (flag : Flag) (s : Scope ε) : Scope ε := { s with flags := s.flags ++ [flag] }

/-- A `WHERE` with an OR in it becomes one group. -/
def Scope.group (s : Scope ε) : Scope ε :=
  match s.conditions with
  | some es => if es.any g.isOr then { s with conditions := some [g.and es] } else s
  | none => s

/-- `AddClause` of a `clause.Set` behind which the assignments of the statement come. -/
def Statement.addSet (a : Assignment) (st : Statement ε) : Statement ε :=
  { st with set := some (a :: st.set.getD []) }

def isClausesWithSoftDelete (s : Scope ε) : Bool :=
  .default ∈ s.flags || .status ∈ s.flags || .timestamp ∈ s.flags || .deletedAt ∈ s.flags

/-! ## The clauses of a field -/

/-- `ModifyStatement` of both query clauses. -/
def queryClause (flag : Flag) (zeroValue : Cell) (f : Field) (st : Statement ε) : Statement ε :=
  if flag ∈ st.flags ∨ st.unscoped then st
  else { st with
    toScope := (st.toScope.group g |>.addWhere [g.eq f.dbName zeroValue]).addFlag flag }

def deletedQueryClause (f : Field) : Statement ε → Statement ε :=
  queryClause g .status (.bool (parseStatusZeroValueTag f)) f

def timestampQueryClause (f : Field) : Statement ε → Statement ε :=
  queryClause g .timestamp ((parseTimestampZeroValueTag f).elim .null .int) f

/-- `ModifyStatement` of both update clauses. -/
def updateClause (query : Statement ε → Statement ε) (st : Statement ε) : Statement ε :=
  if st.sql.isEmpty && !st.unscoped then query st else st

def deletedUpdateClause (f : Field) : Statement ε → Statement ε :=
  updateClause (deletedQueryClause g f)

def timestampUpdateClause (f : Field) : Statement ε → Statement ε :=
  updateClause (timestampQueryClause g f)

/-- There is no check here.  For an unscoped statement the assignment stays unused,
because no flag is set. -/
def deletedDeleteClause (f : Field) (st : Statement ε) : Statement ε :=
  deletedQueryClause g f (st.addSet (f.dbName, .bool true))

def timestampDeleteClause (now : Int) (f : Field) (st : Statement ε) : Statement ε :=
  if st.unscoped || !st.sql.isEmpty then st
  else timestampQueryClause g f (st.addSet (f.dbName, .int now))

/-- `QueryClauses` of the type of a field, and so on below. -/
def Field.queryClause (f : Field) : Statement ε → Statement ε :=
  match f.kind with
  | .deleted => deletedQueryClause g f
  | .timestamp => timestampQueryClause g f

def Field.updateClause (f : Field) : Statement ε → Statement ε :=
  match f.kind with
  | .deleted => deletedUpdateClause g f
  | .timestamp => timestampUpdateClause g f

def Field.deleteClause (now : Int) (f : Field) : Statement ε → Statement ε :=
  match f.kind with
  | .deleted => deletedDeleteClause g f
  | .timestamp => timestampDeleteClause g now f

/-! ## Building a statement -/

variable (schema : Schema)

/-- The conditions of primary keys, one `AddClause` for each. -/
def Scope.addKeys (keys : List g.Key) (s : Scope ε) : Scope ε :=
  keys.foldl (fun s k => s.addWhere [k.1]) s

/-- `callbacks.BuildQuerySQL` of gorm. -/
def buildQuerySQL (keys : List g.Key) (st : Statement ε) : Statement ε :=
  let st := schema.fields.foldl (fun st f => f.queryClause g st) st
  if st.sql.isEmpty then
    let s := st.toScope.addKeys g keys
    { st with toScope := s, sql := .select s.conditions }
  else st

/-- `assignments` and `keys` are what `callbacks.ConvertToAssignments` of gorm returns, and
the conditions it adds. -/
def buildUpdateSQL (assignments : List Assignment) (keys : List g.Key) (st : Statement ε) :
    Statement ε :=
  let st := schema.fields.foldl (fun st f => f.updateClause g st) st
  if st.sql.isEmpty then
    match st.set with
    | some set => { st with sql := .update set st.conditions }
    | none =>
      let s := st.toScope.addKeys g keys
      if assignments ≠ [] then
        { st with toScope := s, set := some assignments, sql := .update assignments s.conditions }
      else { st with toScope := s }
  else st

/-- `keys` are those of the value to delete and of the model. -/
def buildDeleteSQL (now : Int) (keys : List g.Key) (st : Statement ε) : Statement ε :=
  let st := schema.fields.foldl (fun st f => f.deleteClause g now st) st
  if st.sql.isEmpty then
    let s := st.toScope.addKeys g keys
    if isClausesWithSoftDelete s then
      { st with toScope := s, sql := .update (st.set.getD []) s.conditions }
    else { st with toScope := s, sql := .delete s.conditions }
  else st

/-! ## The callbacks -/

inductive Err
  | missingWhereClause
  | other (text : Text)
deriving DecidableEq, Repr

/-- What the callbacks read of `gorm.DB`. -/
structure Session where
  allowGlobalUpdate : Bool
  dryRun : Bool
  error : Option Err
deriving DecidableEq, Repr

/-- The error behind a callback, and the text that it has sent to the database. -/
structure Outcome (ε : Type) where
  error : Option Err
  executed : Option (Sql ε)
deriving Repr

/-- Whether a statement passes for one with a condition. -/
def Scope.withCondition (s : Scope ε) : Bool :=
  match s.conditions with
  | some es => if isClausesWithSoftDelete s then 1 < es.length else true
  | none => false

def checkMissingWhereConditions (db : Session) (s : Scope ε) : Option Err :=
  if db.allowGlobalUpdate = false ∧ db.error = none ∧ s.withCondition = false then
    some .missingWhereClause
  else db.error

/-- The callbacks that replace `gorm:update` and `gorm:delete`, up to the kind of
statement they build. -/
def writeCallback (build : Statement ε → Statement ε) (db : Session) (st : Statement ε) :
    Outcome ε :=
  if db.error ≠ none then ⟨db.error, none⟩
  else
    let st := build st
    let error := checkMissingWhereConditions db st.toScope
    ⟨error, if db.dryRun = false ∧ error = none then some st.sql else none⟩

def updateCallback (assignments : List Assignment) (keys : List g.Key) :
    Session → Statement ε → Outcome ε :=
  writeCallback (buildUpdateSQL g schema assignments keys)

def deleteCallback (now : Int) (keys : List g.Key) : Session → Statement ε → Outcome ε :=
  writeCallback (buildDeleteSQL g schema now keys)

/-- `gorm:query`. -/
def queryCallback (keys : List g.Key) (db : Session) (st : Statement ε) : Outcome ε :=
  ⟨db.error, if db.dryRun = false ∧ db.error = none then
    some (buildQuerySQL g schema keys st).sql else none⟩

end

/-! ## What the clauses of all fields add -/

def Field.flag (f : Field) : Flag :=
  match f.kind with
  | .deleted => .status
  | .timestamp => .timestamp

/-- The fields that add a condition: the first of each kind, where `flags` are set
already. -/
def filtering (flags : List Flag) : List Field → List Field
  | [] => []
  | f :: fs => if f.flag ∈ flags then filtering flags fs else f :: filtering (flags ++ [f.flag]) fs

section

variable {ε : Type} (g : Gorm ε)

def Field.condition (f : Field) : ε := g.eq f.dbName f.zero

/-- What a query clause does to the scope of a statement. -/
def Scope.filter (s : Scope ε) (f : Field) : Scope ε :=
  if f.flag ∈ s.flags then s else (s.group g |>.addWhere [f.condition g]).addFlag f.flag

variable {g} {s : Scope ε} {st : Statement ε} {f : Field} {now : Int}

/-- What a field adds to a query. -/
theorem Field.queryClause_eq (hscoped : st.unscoped = false) :
    f.queryClause g st = { st with toScope := st.toScope.filter g f } := by
  have hquery (flag : Flag) (zeroValue : Cell) :
      Softdelete.queryClause g flag zeroValue f st = { st with
        toScope := if flag ∈ st.flags then st.toScope
          else (st.toScope.group g |>.addWhere [g.eq f.dbName zeroValue]).addFlag flag } := by
    by_cases hflag : flag ∈ st.flags
    · rw [Softdelete.queryClause, if_pos (.inl hflag), if_pos hflag]
    · rw [Softdelete.queryClause, if_neg (by simp [hflag, hscoped]), if_neg hflag]
  cases hkind : f.kind <;>
    simp [queryClause, deletedQueryClause, timestampQueryClause, hquery, Scope.filter,
      condition, zero, Field.flag, hkind]

/-- An update gets the clauses of a query before it has a text. -/
theorem Field.updateClause_eq (hscoped : st.unscoped = false) :
    f.updateClause g st = if st.sql.isEmpty then f.queryClause g st else st := by
  cases hkind : f.kind <;>
    simp [updateClause, queryClause, deletedUpdateClause, timestampUpdateClause,
      Softdelete.updateClause, hkind, hscoped]

/-- The clause of a `Deleted` also works on a statement that has a text already. -/
theorem Field.deleteClause_eq (hscoped : st.unscoped = false) :
    f.deleteClause g now st =
      if st.sql.isEmpty || f.kind = .deleted then
        f.queryClause g (st.addSet (f.dbName, f.mark now))
      else st := by
  cases hkind : f.kind <;> cases hsql : st.sql.isEmpty <;>
    simp [deleteClause, queryClause, deletedDeleteClause, timestampDeleteClause,
      mark, hkind, hscoped, hsql]

/-! ### One kind of statement -/

/-- What the clauses of a kind of statement have in common.  Those that act add their
condition, and none changes the scope in another way. -/
structure Limits (g : Gorm ε) (clause : Field → Statement ε → Statement ε)
    (acts : Sql ε → Field → Bool) : Prop where
  scope : ∀ f st, st.unscoped = false →
    (clause f st).toScope = if acts st.sql f then st.toScope.filter g f else st.toScope
  sql : ∀ f st, st.unscoped = false → (clause f st).sql = st.sql
  unscoped : ∀ f st, st.unscoped = false → (clause f st).unscoped = false

theorem queryClause_limits : Limits g (Field.queryClause g) fun _ _ => true where
  scope f st h := by simp [Field.queryClause_eq h]
  sql f st h := by rw [Field.queryClause_eq h]
  unscoped f st h := by rw [Field.queryClause_eq h]; exact h

theorem updateClause_limits : Limits g (Field.updateClause g) fun sql _ => sql.isEmpty where
  scope f st h := by rw [Field.updateClause_eq h, Field.queryClause_eq h]; split <;> rfl
  sql f st h := by rw [Field.updateClause_eq h, Field.queryClause_eq h]; split <;> rfl
  unscoped f st h := by rw [Field.updateClause_eq h, Field.queryClause_eq h]; split <;> exact h

theorem deleteClause_limits :
    Limits g (Field.deleteClause g now) fun sql f => sql.isEmpty || f.kind = .deleted where
  scope f st h := by
    have hset : (st.addSet (f.dbName, f.mark now)).unscoped = false := h
    rw [Field.deleteClause_eq h, Field.queryClause_eq hset]; split <;> rfl
  sql f st h := by
    have hset : (st.addSet (f.dbName, f.mark now)).unscoped = false := h
    rw [Field.deleteClause_eq h, Field.queryClause_eq hset]; split <;> rfl
  unscoped f st h := by
    have hset : (st.addSet (f.dbName, f.mark now)).unscoped = false := h
    rw [Field.deleteClause_eq h, Field.queryClause_eq hset]; split <;> exact h

/-- The clauses of all fields add the conditions of those that act. -/
theorem Limits.foldl
    (hlim : Limits g clause acts) (fs : List Field) (hscoped : st.unscoped = false) :
    (fs.foldl (fun st f => clause f st) st).toScope =
        (fs.filter (acts st.sql)).foldl (Scope.filter g) st.toScope ∧
      (fs.foldl (fun st f => clause f st) st).sql = st.sql ∧
      (fs.foldl (fun st f => clause f st) st).unscoped = false := by
  induction fs generalizing st with
  | nil => exact ⟨rfl, rfl, hscoped⟩
  | cons f fs ih =>
    obtain ⟨hscope, hsql, hunscoped⟩ := ih (hlim.unscoped f st hscoped)
    rw [hlim.sql f st hscoped] at hscope hsql
    refine ⟨?_, hsql, hunscoped⟩
    rw [List.foldl_cons, hscope, hlim.scope f st hscoped, List.filter_cons]
    split <;> rfl

/-! ### Filtering fields -/

/-- A scope without an OR outside of groups. -/
def Scope.Grouped (g : Gorm ε) (s : Scope ε) : Prop := (s.conditions.getD []).any g.isOr = false

theorem Scope.Grouped.group_eq (h : s.Grouped g) : s.group g = s := by
  obtain ⟨_ | es, flags⟩ := s
  · rfl
  · rw [Scope.Grouped, Option.getD_some] at h
    simp [Scope.group, h]

theorem Scope.grouped_group : (s.group g).Grouped g := by
  obtain ⟨_ | es, flags⟩ := s
  · rfl
  · by_cases hes : es.any g.isOr
    · have hand := g.isOr_and es hes
      simp only [group, hes, ↓reduceIte]
      simp [Scope.Grouped, hand]
    · simp [group, hes, Scope.Grouped]

@[simp] theorem Scope.group_flags : (s.group g).flags = s.flags := by
  rw [group]
  split
  · split <;> rfl
  · rfl

theorem Scope.Grouped.addWhere {es : List ε} (h : s.Grouped g) (hes : es.any g.isOr = false) :
    (s.addWhere es).Grouped g := by
  rw [Scope.Grouped] at h
  rw [Scope.Grouped, Scope.addWhere, Option.getD_some, List.any_append, h, hes, Bool.or_false]

/-- Behind the clauses of all fields stand the grouped conditions of the caller and, for
each field that filters, its condition. -/
theorem foldl_filter_eq (fs : List Field) :
    fs.foldl (Scope.filter g) s =
      if filtering s.flags fs = [] then s
      else ⟨some ((s.group g).conditions.getD [] ++ (filtering s.flags fs).map (Field.condition g)),
        s.flags ++ (filtering s.flags fs).map Field.flag⟩ := by
  induction fs generalizing s with
  | nil => rfl
  | cons f fs ih =>
    rw [List.foldl_cons, Scope.filter, filtering]
    split
    · exact ih
    · have hcond : [f.condition g].any g.isOr = false := by simp [Field.condition, g.isOr_eq]
      have hgrouped : ((s.group g |>.addWhere [f.condition g]).addFlag f.flag).Grouped g :=
        Scope.grouped_group.addWhere hcond
      rw [ih, hgrouped.group_eq]
      simp only [Scope.addFlag, Scope.addWhere, Scope.group_flags]
      split <;> simp [*]

/-! ### Flags and keys -/

theorem Field.flag_eq_status {f : Field} : f.flag = .status ↔ f.kind = .deleted := by
  cases hkind : f.kind <;> simp [flag, hkind]

theorem Field.flag_eq_timestamp {f : Field} : f.flag = .timestamp ↔ f.kind = .timestamp := by
  cases hkind : f.kind <;> simp [flag, hkind]

theorem Field.flag_cases (f : Field) : f.flag = .status ∨ f.flag = .timestamp := by
  rw [flag]
  cases f.kind
  · exact .inl rfl
  · exact .inr rfl

theorem mem_map_flag_filtering {fs : List Field} :
    flag ∈ (filtering flags fs).map Field.flag ↔ flag ∈ fs.map Field.flag ∧ flag ∉ flags := by
  induction fs generalizing flags with
  | nil => simp [filtering]
  | cons f fs ih =>
    rw [filtering]
    split
    · rw [ih, List.map_cons, List.mem_cons]
      grind
    · rw [List.map_cons, List.mem_cons, ih, List.map_cons, List.mem_cons]
      grind

theorem nodup_map_flag_filtering (flags : List Flag) (fs : List Field) :
    ((filtering flags fs).map Field.flag).Nodup := by
  induction fs generalizing flags with
  | nil => exact .nil
  | cons f fs ih =>
    rw [filtering]
    split
    · exact ih flags
    · rw [List.map_cons, List.nodup_cons, mem_map_flag_filtering]
      exact ⟨by simp, ih _⟩

theorem isClausesWithSoftDelete_map_flag {fs : List Field}
    (hfs : fs ≠ []) : isClausesWithSoftDelete ⟨conditions, fs.map Field.flag⟩ = true := by
  obtain ⟨f, rest, rfl⟩ := List.exists_cons_of_ne_nil hfs
  rcases f.flag_cases with h | h <;> simp [isClausesWithSoftDelete, h]

theorem Scope.addKeys_eq (keys : List g.Key) (s : Scope ε) :
    s.addKeys g keys = if keys = [] then s else s.addWhere (keys.map Subtype.val) := by
  induction keys generalizing s with
  | nil => rfl
  | cons k keys ih =>
    have hstep : s.addKeys g (k :: keys) = (s.addWhere [k.1]).addKeys g keys := rfl
    rw [hstep, ih]
    split <;> simp [addWhere, *]

theorem Scope.addKeys_conditions (keys : List g.Key)
    (hs : s.conditions = some es) :
    (s.addKeys g keys).conditions = some (es ++ keys.map Subtype.val) := by
  rw [addKeys_eq]
  split <;> simp [addWhere, *]

@[simp] theorem Scope.addKeys_flags (keys : List g.Key) (s : Scope ε) :
    (s.addKeys g keys).flags = s.flags := by
  rw [addKeys_eq]
  split <;> rfl

end

end Gofusion.Db.Softdelete
