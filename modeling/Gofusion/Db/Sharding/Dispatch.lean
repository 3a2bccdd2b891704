import Gofusion.Db.Sharding.Config
import Gofusion.Sqlparser.Walk

/-!
# Routing by the text of a statement

`dispatchTableBySQL` parses the statement, reads the values of the sharding keys from it, renames
the table and prints the statement again.  A text that is not parsed, a statement on another table
and a `SELECT` with the hint `nosharding` are left alone.

Nodes are changed in place in the source, here a changed copy is returned.
-/

namespace Gofusion.Db

open Gofusion.Sqlparser

/-! ## Reading the keys of a condition -/

/-- The left operand of an equality is taken for the key.  Operands that are no
column are taken for every key, and `table.*` has no column to look at. -/
def matchesKey (key tableName : Text) : Expr → Except Fault Bool
  | .ident i => .ok (i.name = key)
  | .qualifiedRef tbl column =>
    if tbl.name ≠ tableName then .ok false
    else match column with
      | none => .error .panic
      | some c => .ok (c.name = key)
  | _ => .ok true

/-- The value of the right operand of an equality. -/
def operandValue (args : List Value) : Expr → Except Fault Value
  | .bindExpr _ pos =>
    match args[pos]? with
    | some v => .ok v
    | none => .error .panic
  | .stringLit v => .ok (.string v)
  | .numberLit v => .ok (.string v)
  | _ => .error (.error .notImplemented)

/-- The visitor of `nonInsertValue`.  The state is the value found last. -/
def readKey (key tableName : Text) (args : List Value) (found : Option Value) (b : Binary) :
    Except Fault (Option Value) := do
  if b.op ≠ .EQ then .ok found
  else
    let hit ← matchesKey key tableName b.x
    if hit then
      let v ← operandValue args b.y
      .ok (some v)
    else .ok found

/-- `nonInsertValue`: the value of a key in a condition. -/
def nonInsertValue (condition : Node (.opt .expr)) (key tableName : Text) (args : List Value) :
    Except Fault Value := do
  let found ← condition.walk (visitBinary (readKey key tableName args)) none
  match found with
  | some v => .ok v
  | none => .error (.error .missingShardingKey)

def keyValues (condition : Node (.opt .expr)) (tableName : Text) (args : List Value) :
    List Text → Except Fault (List Value)
  | [] => .ok []
  | key :: keys => do
    let v ← nonInsertValue condition key tableName args
    let vs ← keyValues condition tableName args keys
    .ok (v :: vs)

/-- An error of the sharding function is recorded. -/
def TableSharding.suffixOf (t : TableSharding) (values : List Value) : Except Fault Text :=
  match t.shardingFunc values with
  | .ok suffix => .ok suffix
  | .error e => .error (.error e)

def TableSharding.getSuffix (t : TableSharding) (condition : Node (.opt .expr)) (tableName : Text)
    (args : List Value) : Except Fault Text := do
  let values ← keyValues condition tableName args t.shardingKeys
  t.suffixOf values

/-! ## Renaming -/

def renameIdent (old new : Text) (i : Ident) : Ident :=
  if i.name = old then ⟨new, i.quote⟩ else i

/-- Rename the table of a reference that is the node itself. -/
def renameRef (old new : Text) : {k : Kind} → Node k → Node k
  | _, .qualifiedRef tbl column => .qualifiedRef (renameIdent old new tbl) column
  | _, .present x => .present (renameRef old new x)
  | _, x => x

/-- `replaceCondition`: the walk renames the references that are the left operand
of a binary expression. -/
def replaceCondition (old new : Text) : {k : Kind} → Node k → Node k
  | _, .present x => .present (replaceCondition old new x)
  | _, .cons x xs => .cons (replaceCondition old new x) (replaceCondition old new xs)
  | _, .unaryExpr op x => .unaryExpr op (replaceCondition old new x)
  | _, .binaryExpr x op y =>
    .binaryExpr (renameRef old new (replaceCondition old new x)) op (replaceCondition old new y)
  | _, .parenExpr x => .parenExpr (replaceCondition old new x)
  | _, .caseExpr operand blocks elseExpr =>
    .caseExpr (replaceCondition old new operand) (replaceCondition old new blocks)
      (replaceCondition old new elseExpr)
  | _, .existsExpr not select => .existsExpr not (replaceCondition old new select)
  | _, .exprs xs => .exprs (replaceCondition old new xs)
  | _, .range x y => .range (replaceCondition old new x) (replaceCondition old new y)
  | _, .call name star distinct args filter =>
    .call name star distinct (replaceCondition old new args) (replaceCondition old new filter)
  | _, .caseBlock condition body =>
    .caseBlock (replaceCondition old new condition) (replaceCondition old new body)
  | _, .resultColumn star x columnAlias =>
    .resultColumn star (replaceCondition old new x) columnAlias
  | _, .orderingTerm x asc desc nullsFirst nullsLast =>
    .orderingTerm (replaceCondition old new x) asc desc nullsFirst nullsLast
  | _, .parenSource x tableAlias => .parenSource (replaceCondition old new x) tableAlias
  | _, .joinClause x operator y constraint =>
    .joinClause (replaceCondition old new x) operator (replaceCondition old new y)
      (replaceCondition old new constraint)
  | _, .selectSource s => .selectSource (replaceCondition old new s)
  | _, .onConstraint x => .onConstraint (replaceCondition old new x)
  | _, .selectStatement hint all distinct columns fromItems condition groupingElements
    havingCondition op compound orderBy limit fetch offset =>
    .selectStatement hint all distinct columns (replaceCondition old new fromItems)
      (replaceCondition old new condition) (replaceCondition old new groupingElements)
      (replaceCondition old new havingCondition) op (replaceCondition old new compound)
      (replaceCondition old new orderBy) (replaceCondition old new limit) fetch
      (replaceCondition old new offset)
  | _, x => x

/-- `replaceConstraint`: the walk renames every reference. -/
def replaceConstraint (old new : Text) : {k : Kind} → Node k → Node k
  | _, .present x => .present (replaceConstraint old new x)
  | _, .cons x xs => .cons (replaceConstraint old new x) (replaceConstraint old new xs)
  | _, .unaryExpr op x => .unaryExpr op (replaceConstraint old new x)
  | _, .binaryExpr x op y =>
    .binaryExpr (replaceConstraint old new x) op (replaceConstraint old new y)
  | _, .parenExpr x => .parenExpr (replaceConstraint old new x)
  | _, .caseExpr operand blocks elseExpr =>
    .caseExpr (replaceConstraint old new operand) (replaceConstraint old new blocks)
      (replaceConstraint old new elseExpr)
  | _, .existsExpr not select => .existsExpr not (replaceConstraint old new select)
  | _, .exprs xs => .exprs (replaceConstraint old new xs)
  | _, .range x y => .range (replaceConstraint old new x) (replaceConstraint old new y)
  | _, .qualifiedRef tbl column => .qualifiedRef (renameIdent old new tbl) column
  | _, .call name star distinct args filter =>
    .call name star distinct (replaceConstraint old new args) (replaceConstraint old new filter)
  | _, .caseBlock condition body =>
    .caseBlock (replaceConstraint old new condition) (replaceConstraint old new body)
  | _, .resultColumn star x columnAlias =>
    .resultColumn star (replaceConstraint old new x) columnAlias
  | _, .orderingTerm x asc desc nullsFirst nullsLast =>
    .orderingTerm (replaceConstraint old new x) asc desc nullsFirst nullsLast
  | _, .parenSource x tableAlias => .parenSource (replaceConstraint old new x) tableAlias
  | _, .joinClause x operator y constraint =>
    .joinClause (replaceConstraint old new x) operator (replaceConstraint old new y)
      (replaceConstraint old new constraint)
  | _, .selectSource s => .selectSource (replaceConstraint old new s)
  | _, .onConstraint x => .onConstraint (replaceConstraint old new x)
  | _, .selectStatement hint all distinct columns fromItems condition groupingElements
    havingCondition op compound orderBy limit fetch offset =>
    .selectStatement hint all distinct columns (replaceConstraint old new fromItems)
      (replaceConstraint old new condition) (replaceConstraint old new groupingElements)
      (replaceConstraint old new havingCondition) op (replaceConstraint old new compound)
      (replaceConstraint old new orderBy) (replaceConstraint old new limit) fetch
      (replaceConstraint old new offset)
  | _, x => x

def mapElems (f : {k : Kind} → Node k → Node k) : {k : Kind} → Node k → Node k
  | _, .cons x xs => .cons (f x) (mapElems f xs)
  | _, x => x

/-- Rename the table of a term or column that is just a reference. -/
def renameTop (old new : Text) : {k : Kind} → Node k → Node k
  | _, .orderingTerm x asc desc nullsFirst nullsLast =>
    .orderingTerm (renameRef old new x) asc desc nullsFirst nullsLast
  | _, .resultColumn star x columnAlias => .resultColumn star (renameRef old new x) columnAlias
  | _, x => x

def replaceOrderByTableName (old new : Text) (orderBy : Node (.list .term)) : Node (.list .term) :=
  mapElems (renameTop old new) orderBy

/-- The references among the columns of a `SELECT` with a join. -/
def replaceColumns (old new : Text) (columns : OutputNames) : OutputNames :=
  mapElems (renameTop old new) columns

/-! ## `SELECT` -/

/-- Why a statement is not rewritten. -/
inductive Stop
  | unchanged
  | error (e : DbError)
  | panic
deriving DecidableEq, Repr

def Fault.stop : Fault → Stop
  | .error e => .error e
  | .panic => .panic

/-- A failure of `getSuffix` is recorded and stops the dispatch. -/
def TableSharding.suffixOrStop (t : TableSharding) (condition : Node (.opt .expr))
    (tableName : Text) (args : List Value) : Except Stop Text :=
  match t.getSuffix condition tableName args with
  | .ok suffix => .ok suffix
  | .error f => .error f.stop

/-- A source is the table of this name or alias. -/
def isSharding (table : Text) : Source → Bool
  | .table tbl => tbl.tableName = table
  | _ => false

/-- What the type switch on the `FROM` of a `SELECT` sees. -/
inductive FromView
  | table (tbl : TableName)
  | join (x : Source) (operator : JoinOperator) (y : Source) (constraint : Node (.opt .constraint))
  | other

def fromView : {k : Kind} → Node k → FromView
  | _, .present x => fromView x
  | _, .table tbl => .table tbl
  | _, .joinClause x operator y constraint => .join x operator y constraint
  | _, _ => .other

/-- Give a table another name and keep its quotes and its alias. -/
def renameSource (new : Text) : Source → Source
  | .table tbl => .table ⟨⟨new, tbl.name.quote⟩, tbl.tableAlias⟩
  | x => x

/-- `"nosharding"`. -/
def nosharding : Text := ['n', 'o', 's', 'h', 'a', 'r', 'd', 'i', 'n', 'g']

/-- `parseSelectStatementFunc` for every `SELECT` of a compound.  A `SELECT` from
something else than a table or a join is taken as it is. -/
def TableSharding.dispatchSelect (t : TableSharding) (args : List Value) :
    {k : Kind} → Node k → Except Stop (Node k)
  | _, .present x => do
    let x ← t.dispatchSelect args x
    .ok (.present x)
  | _, .selectStatement hint all distinct columns fromItems condition groupingElements
    havingCondition op compound orderBy limit fetch offset => do
    if hint = some nosharding then .error .unchanged
    else match fromView fromItems with
      | .table tbl =>
        if tbl.tableName ≠ t.table then .error .unchanged
        else
          let suffix ← t.suffixOrStop condition t.table args
          let rest ← t.dispatchSelect args compound
          .ok (.selectStatement hint all distinct columns
            (.present (.table ⟨.plain (t.table ++ suffix), none⟩))
            (replaceCondition t.table (t.table ++ suffix) condition) groupingElements
            havingCondition op rest
            (replaceOrderByTableName t.table (t.table ++ suffix) orderBy) limit fetch offset)
      | .join x operator y constraint =>
        if !isSharding t.table x && !isSharding t.table y then .error .unchanged
        else
          let suffix ← t.suffixOrStop condition t.table args
          let rest ← t.dispatchSelect args compound
          .ok (.selectStatement hint all distinct
            (replaceColumns t.table (t.table ++ suffix) columns)
            (.present (.joinClause
              (if isSharding t.table x then renameSource (t.table ++ suffix) x else x) operator
              (if isSharding t.table x then y else renameSource (t.table ++ suffix) y)
              (replaceConstraint t.table (t.table ++ suffix) constraint)))
            (replaceCondition t.table (t.table ++ suffix) condition) groupingElements
            havingCondition op rest
            (replaceOrderByTableName t.table (t.table ++ suffix) orderBy) limit fetch offset)
      | .other =>
        let rest ← t.dispatchSelect args compound
        .ok (.selectStatement hint all distinct columns fromItems condition groupingElements
          havingCondition op rest orderBy limit fetch offset)
  | _, x => .ok x

/-! ## `INSERT` -/

/-- `strconv.ParseUint(s, 10, 64)`. -/
def parseUint (s : Text) : Option Nat :=
  if s ≠ [] ∧ s.all isDigit then
    let n := s.foldl (fun n c => n * 10 + (c.toNat - '0'.toNat)) 0
    if n < 2 ^ 64 then some n else none
  else none

/-- The digits of a number in base ten, `strconv.FormatUint(n, 10)`. -/
def decimal (n : Nat) : Text := Nat.toDigits 10 n

def columnExpr (key : Text) : List Ident → List Expr → Option Expr
  | i :: is, x :: xs => if i.name = key then some x else columnExpr key is xs
  | _, _ => none

/-- The value of a column, with the number a primary key stands for. -/
def insertOperand (env : Env) (args : List Value) (isPrimaryKey : Bool) (x : Expr) :
    Except Fault (Value × Nat) :=
  match operandValue args x with
  | .error f => .error f
  | .ok v =>
    if !isPrimaryKey then .ok (v, 0)
    else match x with
      | .numberLit w =>
        match parseUint w with
        | some id => .ok (v, id)
        | none => .error (.error (.parseID w))
      | _ =>
        match env.toUint64E v with
        | .ok id => .ok (v, id)
        | .error e => .error (.error e)

/-- One key of `insertValue`.  A primary key of zero has no value yet. -/
def TableSharding.insertKey (t : TableSharding) (env : Env) (names : List Ident)
    (exprs : List Expr) (args : List Value) (state : List Value × Nat) (key : Text) :
    Except Fault (List Value × Nat) :=
  match columnExpr key names exprs with
  | none =>
    if key = t.shardingPrimaryKey then .ok state
    else .error (.error .missingShardingKey)
  | some x => do
    let (v, id) ← insertOperand env args (key = t.shardingPrimaryKey) x
    if key ≠ t.shardingPrimaryKey then .ok (state.1 ++ [v], state.2)
    else if id ≠ 0 then .ok (state.1 ++ [v], id)
    else .ok (state.1, id)

/-- `insertValue`: the values of the keys in a row, and the primary key. -/
def TableSharding.insertValue (t : TableSharding) (env : Env) (names : List Ident)
    (exprs : List Expr) (args : List Value) : Except Fault (List Value × Nat) :=
  if names.length ≠ exprs.length then .error (.error .columnAndExprMismatch)
  else t.shardingKeys.foldlM (t.insertKey env names exprs args) ([], 0)

def rowExprs : {k : Kind} → Node k → List Expr
  | _, @Node.cons .expr x xs => x :: rowExprs xs
  | _, _ => []

/-- The state of the loop over the rows of an `INSERT`. -/
structure InsertState where
  columnNames : List Ident
  rows : List (Node (.list .expr))
  suffix : Text
  /-- The number of generated keys. -/
  calls : Nat

def idColumn : Ident := .plain ['i', 'd']

/-- One row of an `INSERT`.  A missing primary key is generated, and its column is
added to the statement for every row that misses it. -/
def TableSharding.insertRow (t : TableSharding) (env : Env) (args : List Value) (s : InsertState)
    (row : Node (.list .expr)) : Except Fault InsertState := do
  let (values, id) ← t.insertValue env s.columnNames (rowExprs row) args
  let (values, s, row) ←
    if t.isShardingPrimaryKey && id = 0 then
      match env.next with
      | none => .error (.error .idGeneratorNotFound)
      | some next =>
        match next s.calls with
        | .error e => .error (.error e)
        | .ok id =>
          let names := s.columnNames ++ [idColumn]
          let exprs := rowExprs row ++ [.numberLit (decimal id)]
          let values := match t.insertValue env names exprs args with
            | .ok r => r.1
            | .error _ => []
          .ok (values, { s with columnNames := names, calls := s.calls + 1 },
            Node.ofList exprs)
    else .ok (values, s, row)
  let suffix ← t.suffixOf values
  if s.suffix ≠ [] ∧ s.suffix ≠ suffix then .error (.error .diffSuffixDML)
  else .ok { s with rows := s.rows ++ [row], suffix := suffix }

/-- The `INSERT` case.  The table of a statement without rows gets no suffix. -/
def TableSharding.dispatchInsert (t : TableSharding) (env : Env) (args : List Value)
    (stmt : InsertStatement) : Except Stop InsertStatement :=
  if stmt.tableName.tableName ≠ t.table then .error .unchanged
  else match stmt.expressions.foldlM (t.insertRow env args) ⟨stmt.columnNames, [], [], 0⟩ with
    | .error f => .error f.stop
    | .ok s =>
      match env.createTable s.suffix with
      | .error e => .error (.error e)
      | .ok _ =>
        .ok { stmt with
          tableName := ⟨.plain (t.table ++ s.suffix), none⟩
          columnNames := s.columnNames
          expressions := s.rows }

/-! ## All statements -/

/-- A condition of an `UPDATE` or `DELETE` as a node. -/
def conditionNode : Option Expr → Node (.opt .expr)
  | none => .absent
  | some x => .present x

/-- The type switch of `dispatchTableBySQL`. -/
def TableSharding.dispatchStatement (t : TableSharding) (env : Env) (args : List Value) :
    Statement → Except Stop Statement
  | .select s => do
    let s ← t.dispatchSelect args s
    .ok (.select s)
  | .insert s => do
    let s ← t.dispatchInsert env args s
    .ok (.insert s)
  | .update s =>
    if s.tableName.tableName ≠ t.table then .error .unchanged
    else do
      let suffix ← t.suffixOrStop (conditionNode s.condition) t.table args
      .ok (.update { s with
        tableName := ⟨.plain (t.table ++ suffix), none⟩
        condition := s.condition.map (replaceCondition t.table (t.table ++ suffix)) })
  | .delete s =>
    if s.tableName.tableName ≠ t.table then .error .unchanged
    else do
      let suffix ← t.suffixOrStop (conditionNode s.condition) t.table args
      .ok (.delete { s with
        tableName := ⟨.plain (t.table ++ suffix), none⟩
        condition := s.condition.map (replaceCondition t.table (t.table ++ suffix)) })

/-- The effect of a dispatch on the `gorm.DB`. -/
inductive Dispatched
  /-- The text and the error are as before. -/
  | unchanged
  | failed (e : DbError)
  | panicked
  | rewritten (sql : Text)
deriving DecidableEq, Repr

def Stop.dispatched : Stop → Dispatched
  | .unchanged => .unchanged
  | .error e => .failed e
  | .panic => .panicked

/-- `dispatchTableBySQL`, and `wrapDispatchTableBySQL`, which drops its results. -/
def TableSharding.dispatchTableBySQL (t : TableSharding) (env : Env) (sql : Text)
    (args : List Value) : Dispatched :=
  match parseStatement sql with
  | .error e => if e = .panic then .panicked else .unchanged
  | .ok stmt =>
    match t.dispatchStatement env args stmt with
    | .error s => s.dispatched
    | .ok stmt =>
      match stmt.string with
      | some text => .rewritten text
      | none => .panicked

theorem TableSharding.dispatchTableBySQL_of_parse {t : TableSharding}
    (h : parseStatement sql = .ok stmt) :
    t.dispatchTableBySQL env sql args =
      match t.dispatchStatement env args stmt with
      | .error s => s.dispatched
      | .ok stmt' =>
        match stmt'.string with
        | some text => .rewritten text
        | none => .panicked := by
  rw [dispatchTableBySQL, h]

end Gofusion.Db
