import Gofusion.Sqlparser.Token

/-!
# The syntax tree

`common/utils/sqlparser/ast.go`.  The interfaces `Expr`, `Source` and `JoinConstraint` and the
statement types that refer to each other are one family `Node`, indexed by the kind of node.  A
slice of nodes and a node that may be `nil` are kinds of the family too, so that one recursion
visits a whole tree.

Two pairs of Go fields that always go together are merged: `Quoted` and
`QuoteChar` of an identifier, and `Star` and the `nil` `Column` of a
`QualifiedRef`.  The four flags of a compound `SELECT` are one `CompoundOp`.
-/

namespace Gofusion.Sqlparser

/-! ## Identifiers and table names -/

/-- An identifier.  `quote` is `none` for an unquoted one. -/
structure Ident where
  /-- The name, without quotes. -/
  name : Text
  /-- The quote character, `"` or `` ` ``. -/
  quote : Option Char
deriving DecidableEq, Repr

/-- An unquoted identifier, `&Ident{Name: name}`. -/
def Ident.plain (name : Text) : Ident := ⟨name, none⟩

def identName : Option Ident → Text
  | none => []
  | some i => i.name

/-- `TableName`: a name and an optional alias. -/
structure TableName where
  name : Ident
  tableAlias : Option Ident := none
deriving DecidableEq, Repr

/-- The name that identifies the table: the alias when it is not blank, the name
otherwise. -/
def TableName.tableName (n : TableName) : Text :=
  if identName n.tableAlias ≠ [] then identName n.tableAlias else n.name.name

structure JoinOperator where
  comma : Bool := false
  natural : Bool := false
  left : Bool := false
  outer : Bool := false
  inner : Bool := false
  cross : Bool := false
deriving DecidableEq, Repr

/-- The operator in front of the compounded `SELECT`. -/
inductive CompoundOp
  | none | union | unionAll | intersect | except
deriving DecidableEq, Repr

/-! ## Nodes -/

/-- What a node stands for. -/
inductive Kind
  | expr | block | column | term | source | constraint | select
  | opt (k : Kind) | list (k : Kind)
deriving DecidableEq, Repr

inductive Node : Kind → Type
  /-- A `nil` node. -/
  | absent {k : Kind} : Node (.opt k)
  | present {k : Kind} (x : Node k) : Node (.opt k)
  | nil {k : Kind} : Node (.list k)
  | cons {k : Kind} (x : Node k) (xs : Node (.list k)) : Node (.list k)
  | ident (i : Ident) : Node .expr
  | stringLit (value : Text) : Node .expr
  | blobLit (value : Text) : Node .expr
  | numberLit (value : Text) : Node .expr
  | nullLit : Node .expr
  | boolLit (value : Bool) : Node .expr
  | bindExpr (name : Text) (pos : Nat) : Node .expr
  | unaryExpr (op : Token) (x : Node .expr) : Node .expr
  | binaryExpr (x : Node .expr) (op : Token) (y : Node .expr) : Node .expr
  | parenExpr (x : Node .expr) : Node .expr
  | caseExpr (operand : Node (.opt .expr)) (blocks : Node (.list .block))
    (elseExpr : Node (.opt .expr)) : Node .expr
  | existsExpr (not : Bool) (select : Node .select) : Node .expr
  | exprs (xs : Node (.list .expr)) : Node .expr
  | range (x y : Node .expr) : Node .expr
  /-- `table.column`, or `table.*` without a column. -/
  | qualifiedRef (table : Ident) (column : Option Ident) : Node .expr
  | call (name : Ident) (star distinct : Bool) (args : Node (.list .expr))
    (filter : Node (.opt .expr)) : Node .expr
  | caseBlock (condition body : Node .expr) : Node .block
  /-- A `ResultColumn`.  The expression is `nil` for a star. -/
  | resultColumn (star : Bool) (x : Node (.opt .expr)) (columnAlias : Option Ident) :
    Node .column
  | orderingTerm (x : Node .expr) (asc desc nullsFirst nullsLast : Bool) : Node .term
  | table (t : TableName) : Node .source
  | parenSource (x : Node .source) (tableAlias : Option Ident) : Node .source
  | joinClause (x : Node .source) (operator : JoinOperator) (y : Node .source)
    (constraint : Node (.opt .constraint)) : Node .source
  /-- A `SELECT` used as a source. -/
  | selectSource (s : Node .select) : Node .source
  | onConstraint (x : Node .expr) : Node .constraint
  | usingConstraint (columns : List Ident) : Node .constraint
  | selectStatement (hint : Option Text) (all distinct : Bool) (columns : Node (.list .column))
    (fromItems : Node (.opt .source)) (condition : Node (.opt .expr))
    (groupingElements : Node (.list .expr)) (havingCondition : Node (.opt .expr))
    (op : CompoundOp) (compound : Node (.opt .select)) (orderBy : Node (.list .term))
    (limit fetch offset : Node (.opt .expr)) : Node .select
deriving DecidableEq

abbrev Expr := Node .expr
abbrev Source := Node .source
abbrev SelectStatement := Node .select
abbrev OutputNames := Node (.list .column)

/-! ## Statements -/

structure IndexedColumn where
  x : Expr
  asc : Bool := false
  desc : Bool := false
deriving DecidableEq

/-- `Assignment`: a column list and the assigned expression. -/
structure Assignment where
  columns : List Ident
  expr : Expr
deriving DecidableEq

structure UpsertClause where
  columns : List IndexedColumn := []
  whereExpr : Option Expr := none
  doNothing : Bool := false
  doUpdate : Bool := false
  assignments : List Assignment := []
  updateWhereExpr : Option Expr := none
deriving DecidableEq

/-- `InsertStatement`.  `Overriding` is left out: `parseInsertStatement` fails on
every text with `OVERRIDING`. -/
structure InsertStatement where
  tableName : TableName
  columnNames : List Ident := []
  defaultValues : Bool := false
  expressions : List (Node (.list .expr)) := []
  query : Option SelectStatement := none
  upsertClause : Option UpsertClause := none
  outputExpressions : Option OutputNames := none
deriving DecidableEq

structure UpdateStatement where
  only : Bool := false
  tableName : TableName
  tableStar : Bool := false
  tableAlias : Option Ident := none
  assignments : List Assignment
  fromList : List TableName := []
  condition : Option Expr := none
  cursorName : Option Ident := none
  outputExpressions : Option OutputNames := none
deriving DecidableEq

structure DeleteStatement where
  only : Bool := false
  tableName : TableName
  tableStar : Bool := false
  tableAlias : Option Ident := none
  usingList : List TableName := []
  condition : Option Expr := none
  cursorName : Option Ident := none
  outputExpressions : Option OutputNames := none
deriving DecidableEq

inductive Statement
  | select (s : SelectStatement)
  | insert (s : InsertStatement)
  | update (s : UpdateStatement)
  | delete (s : DeleteStatement)
deriving DecidableEq

end Gofusion.Sqlparser
