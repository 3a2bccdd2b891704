import Gofusion.Sqlparser.Printer

/-!
# Legible statements

Not every text is lexed as the tokens it was printed for, and not every stream of tokens is parsed
back to the statement.  `Statement.legible` collects what can go wrong.

`Node.unquoteCalls` is the node with the quotes of its function names dropped.
They are the only quotes a printer loses.
-/

namespace Gofusion.Sqlparser

/-! ## Tokens -/

def Ident.tok (i : Ident) : Tok :=
  match i.quote with
  | none => ⟨.IDENT, i.name⟩
  | some q => ⟨.QIDENT, q :: i.name ++ [q]⟩

/-- Tokens that are only written under a condition. -/
def toksIf (b : Bool) (ts : List Tok) : List Tok := if b then ts else []

def JoinOperator.toks (op : JoinOperator) : List Tok :=
  if op.comma then [.kw .COMMA]
  else
    toksIf op.natural [.kw .NATURAL] ++
    (if op.left then .kw .LEFT :: toksIf op.outer [.kw .OUTER]
      else if op.inner then [.kw .INNER]
      else if op.cross then [.kw .CROSS]
      else []) ++
    [.kw .JOIN]

def opToks (op : Token) : List Tok := ((binaryOpWords op).getD []).map Tok.kw

/-- A number that is all digits is an `INTEGER`, every other one is a `FLOAT`. -/
def numberTok (v : Text) : Tok := ⟨if v.all isDigit then .INTEGER else .FLOAT, v⟩

/-! ## Legible nodes -/

/-- A back quoted identifier has no back quote in it. -/
def Ident.legible (i : Ident) : Bool :=
  match i.quote with
  | none => true
  | some q => q = '"' || decide (q ∉ i.name)

def legibleAlias : Option Ident → Bool
  | none => true
  | some i => i.legible

def TableName.legible (n : TableName) : Bool := n.name.legible && legibleAlias n.tableAlias

/-- A word: what the lexer reads as an unquoted identifier. -/
def isWord : Text → Bool
  | [] => false
  | c :: cs => (isAlpha c || c = '_') && cs.all isUnquotedIdent && lookup (c :: cs) = .IDENT

/-- The first letter of an exponent. -/
def startsExponent : Text → Bool
  | [] => false
  | c :: _ => c = 'e' || c = 'E'

/-- A column behind a dot is quoted or starts with another letter than `e`. -/
def Ident.legibleColumn (i : Ident) : Bool :=
  i.legible && (i.quote.isSome || !startsExponent i.name)

def Node.isJoin : Source → Bool
  | .joinClause .. => true
  | _ => false

def Node.legible : {k : Kind} → Node k → Bool
  | _, .absent => true
  | _, .present x => x.legible
  | _, .nil => true
  | _, .cons x xs => x.legible && xs.legible
  | _, .ident i => i.legible
  | _, .stringLit _ => true
  | _, .blobLit _ => true
  | _, .numberLit _ => true
  | _, .nullLit => true
  | _, .boolLit _ => true
  | _, .bindExpr _ _ => true
  | _, .unaryExpr _ x => x.legible
  | _, .binaryExpr x op y => x.legible && (binaryOpWords op).isSome && y.legible
  | _, .parenExpr x => x.legible
  | _, .caseExpr operand blocks elseExpr => operand.legible && blocks.legible && elseExpr.legible
  | _, .existsExpr _ select => select.legible
  | _, .exprs xs => xs.legible
  | _, .range x y => x.legible && y.legible
  | _, .qualifiedRef tbl column =>
    tbl.legible && (match column with
      | none => true
      | some c => c.legibleColumn)
  | _, .call name _ _ args filter => isWord name.name && args.legible && filter.legible
  | _, .caseBlock condition body => condition.legible && body.legible
  | _, .resultColumn _ x columnAlias => x.legible && legibleAlias columnAlias
  | _, .orderingTerm x _ _ _ _ => x.legible
  | _, .table t => t.legible
  | _, .parenSource x tableAlias => x.legible && legibleAlias tableAlias
  | _, .joinClause x _ y constraint =>
    x.legible && y.legible && constraint.legible && (constraint.isAbsent || !y.isJoin)
  | _, .selectSource s => s.legible
  | _, .onConstraint x => x.legible
  | _, .usingConstraint columns => columns.all Ident.legible
  | _, .selectStatement _ _ _ columns fromItems condition groupingElements havingCondition _
    compound orderBy limit fetch offset =>
    columns.legible && fromItems.legible && condition.legible && groupingElements.legible &&
    havingCondition.legible && compound.legible && orderBy.legible && limit.legible &&
    fetch.legible && offset.legible

/-! ## Quotes -/

/-- The node with the identifiers changed, by `f` for the names of functions and
by `g` for all others. -/
def Node.mapIdents (f g : Ident → Ident) : {k : Kind} → Node k → Node k
  | _, .absent => .absent
  | _, .present x => .present (x.mapIdents f g)
  | _, .nil => .nil
  | _, .cons x xs => .cons (x.mapIdents f g) (xs.mapIdents f g)
  | _, .ident i => .ident (g i)
  | _, .stringLit v => .stringLit v
  | _, .blobLit v => .blobLit v
  | _, .numberLit v => .numberLit v
  | _, .nullLit => .nullLit
  | _, .boolLit b => .boolLit b
  | _, .bindExpr name pos => .bindExpr name pos
  | _, .unaryExpr op x => .unaryExpr op (x.mapIdents f g)
  | _, .binaryExpr x op y => .binaryExpr (x.mapIdents f g) op (y.mapIdents f g)
  | _, .parenExpr x => .parenExpr (x.mapIdents f g)
  | _, .caseExpr operand blocks elseExpr =>
    .caseExpr (operand.mapIdents f g) (blocks.mapIdents f g) (elseExpr.mapIdents f g)
  | _, .existsExpr not select => .existsExpr not (select.mapIdents f g)
  | _, .exprs xs => .exprs (xs.mapIdents f g)
  | _, .range x y => .range (x.mapIdents f g) (y.mapIdents f g)
  | _, .qualifiedRef tbl column => .qualifiedRef (g tbl) (column.map g)
  | _, .call name star distinct args filter =>
    .call (f name) star distinct (args.mapIdents f g) (filter.mapIdents f g)
  | _, .caseBlock condition body => .caseBlock (condition.mapIdents f g) (body.mapIdents f g)
  | _, .resultColumn star x columnAlias =>
    .resultColumn star (x.mapIdents f g) (columnAlias.map g)
  | _, .orderingTerm x asc desc nullsFirst nullsLast =>
    .orderingTerm (x.mapIdents f g) asc desc nullsFirst nullsLast
  | _, .table t => .table ⟨g t.name, t.tableAlias.map g⟩
  | _, .parenSource x tableAlias => .parenSource (x.mapIdents f g) (tableAlias.map g)
  | _, .joinClause x operator y constraint =>
    .joinClause (x.mapIdents f g) operator (y.mapIdents f g) (constraint.mapIdents f g)
  | _, .selectSource s => .selectSource (s.mapIdents f g)
  | _, .onConstraint x => .onConstraint (x.mapIdents f g)
  | _, .usingConstraint columns => .usingConstraint (columns.map g)
  | _, .selectStatement hint all distinct columns fromItems condition groupingElements
    havingCondition op compound orderBy limit fetch offset =>
    .selectStatement hint all distinct (columns.mapIdents f g) (fromItems.mapIdents f g)
      (condition.mapIdents f g) (groupingElements.mapIdents f g)
      (havingCondition.mapIdents f g) op (compound.mapIdents f g) (orderBy.mapIdents f g)
      (limit.mapIdents f g) (fetch.mapIdents f g) (offset.mapIdents f g)

def Ident.unquote (i : Ident) : Ident := ⟨i.name, none⟩

/-- The node with the quotes of function names dropped. -/
def Node.unquoteCalls {k : Kind} (x : Node k) : Node k := x.mapIdents Ident.unquote id

/-! ## Statements -/

def legibleOpt {k : Kind} : Option (Node k) → Bool
  | none => true
  | some x => x.legible

def Assignment.legible (a : Assignment) : Bool := a.columns.all Ident.legible && a.expr.legible

def Assignment.unquoteCalls (a : Assignment) : Assignment := ⟨a.columns, a.expr.unquoteCalls⟩

def IndexedColumn.legible (c : IndexedColumn) : Bool := c.x.legible

def IndexedColumn.unquoteCalls (c : IndexedColumn) : IndexedColumn :=
  { c with x := c.x.unquoteCalls }

def UpsertClause.legible (c : UpsertClause) : Bool :=
  c.columns.all IndexedColumn.legible && legibleOpt c.whereExpr &&
  c.assignments.all Assignment.legible && legibleOpt c.updateWhereExpr

def UpsertClause.unquoteCalls (c : UpsertClause) : UpsertClause :=
  { c with
    columns := c.columns.map IndexedColumn.unquoteCalls
    whereExpr := c.whereExpr.map Node.unquoteCalls
    assignments := c.assignments.map Assignment.unquoteCalls
    updateWhereExpr := c.updateWhereExpr.map Node.unquoteCalls }

def legibleUpsert : Option UpsertClause → Bool
  | none => true
  | some c => c.legible

def InsertStatement.legible (s : InsertStatement) : Bool :=
  s.tableName.legible && s.columnNames.all Ident.legible && s.expressions.all Node.legible &&
  legibleOpt s.query && legibleUpsert s.upsertClause && legibleOpt s.outputExpressions

def InsertStatement.unquoteCalls (s : InsertStatement) : InsertStatement :=
  { s with
    expressions := s.expressions.map Node.unquoteCalls
    query := s.query.map Node.unquoteCalls
    upsertClause := s.upsertClause.map UpsertClause.unquoteCalls
    outputExpressions := s.outputExpressions.map Node.unquoteCalls }

def UpdateStatement.legible (s : UpdateStatement) : Bool :=
  s.tableName.legible && legibleAlias s.tableAlias && s.assignments.all Assignment.legible &&
  s.fromList.all TableName.legible && legibleOpt s.condition && legibleAlias s.cursorName &&
  legibleOpt s.outputExpressions

def UpdateStatement.unquoteCalls (s : UpdateStatement) : UpdateStatement :=
  { s with
    assignments := s.assignments.map Assignment.unquoteCalls
    condition := s.condition.map Node.unquoteCalls
    outputExpressions := s.outputExpressions.map Node.unquoteCalls }

def DeleteStatement.legible (s : DeleteStatement) : Bool :=
  s.tableName.legible && legibleAlias s.tableAlias && s.usingList.all TableName.legible &&
  legibleOpt s.condition && legibleAlias s.cursorName && legibleOpt s.outputExpressions

def DeleteStatement.unquoteCalls (s : DeleteStatement) : DeleteStatement :=
  { s with
    condition := s.condition.map Node.unquoteCalls
    outputExpressions := s.outputExpressions.map Node.unquoteCalls }

namespace Statement

/-- The printed statement is read back. -/
def legible : Statement → Bool
  | .select s => s.legible
  | .insert s => s.legible
  | .update s => s.legible
  | .delete s => s.legible

/-- The statement with the quotes of function names dropped. -/
def unquoteCalls : Statement → Statement
  | .select s => .select s.unquoteCalls
  | .insert s => .insert s.unquoteCalls
  | .update s => .update s.unquoteCalls
  | .delete s => .delete s.unquoteCalls

end Statement

end Gofusion.Sqlparser
