import Gofusion.Sqlparser.Parser

/-!
# Printing

The `String` methods of `common/utils/sqlparser/ast.go`.  `BinaryExpr.String` and
`UnaryExpr.String` panic on an operator they do not know, so a printer returns an
option, and a panic is `none`.
-/

namespace Gofusion.Sqlparser

/-! ## Pieces of text -/

def Token.spaced (t : Token) : Text := ' ' :: t.string

def Token.padded (t : Token) : Text := ' ' :: t.string ++ [' ']

/-- `", "`. -/
def commaText : Text := [',', ' ']

def joinText (sep : Text) : List Text → Text
  | [] => []
  | [x] => x
  | x :: y :: ys => x ++ sep ++ joinText sep (y :: ys)

/-- A text that is only written under a condition. -/
def textIf (b : Bool) (s : Text) : Text := if b then s else []

/-- A text that is only computed under a condition. -/
def stringIf (b : Bool) (s : Option Text) : Option Text := if b then s else some []

/-- `strings.ReplaceAll(s, q, q+q)` for a quote. -/
def doubleQuotes (q : Char) (s : Text) : Text :=
  s.flatMap fun c => if c = q then [q, q] else [c]

def Ident.string (i : Ident) : Text :=
  match i.quote with
  | none => i.name
  | some q => if q = '"' then q :: doubleQuotes q i.name ++ [q] else q :: i.name ++ [q]

/-- `" AS alias"`, or nothing. -/
def aliasText : Option Ident → Text
  | none => []
  | some i => Token.AS.padded ++ i.string

def identsText (is : List Ident) : Text := joinText commaText (is.map Ident.string)

def TableName.string (n : TableName) : Text := n.name.string ++ aliasText n.tableAlias

def JoinOperator.string (op : JoinOperator) : Text :=
  if op.comma then commaText
  else
    textIf op.natural Token.NATURAL.spaced ++
    (if op.left then Token.LEFT.spaced ++ textIf op.outer Token.OUTER.spaced
      else if op.inner then Token.INNER.spaced
      else if op.cross then Token.CROSS.spaced
      else []) ++
    Token.JOIN.padded

/-- The words of a binary operator that can be printed. -/
def binaryOpWords : Token → Option (List Token)
  | .PLUS => some [.PLUS]
  | .MINUS => some [.MINUS]
  | .STAR => some [.STAR]
  | .SLASH => some [.SLASH]
  | .REM => some [.REM]
  | .CONCAT => some [.CONCAT]
  | .BETWEEN => some [.BETWEEN]
  | .NOTBETWEEN => some [.NOT, .BETWEEN]
  | .LSHIFT => some [.LSHIFT]
  | .RSHIFT => some [.RSHIFT]
  | .BITAND => some [.BITAND]
  | .BITOR => some [.BITOR]
  | .LT => some [.LT]
  | .LG => some [.LG]
  | .LE => some [.LE]
  | .GT => some [.GT]
  | .GE => some [.GE]
  | .EQ => some [.EQ]
  | .NE => some [.NE]
  | .IS => some [.IS]
  | .ISNOT => some [.IS, .NOT]
  | .IN => some [.IN]
  | .NOTIN => some [.NOT, .IN]
  | .LIKE => some [.LIKE]
  | .NOTLIKE => some [.NOT, .LIKE]
  | .GLOB => some [.GLOB]
  | .NOTGLOB => some [.NOT, .GLOB]
  | .MATCH => some [.MATCH]
  | .NOTMATCH => some [.NOT, .MATCH]
  | .REGEXP => some [.REGEXP]
  | .NOTREGEXP => some [.NOT, .REGEXP]
  | .AND => some [.AND]
  | .OR => some [.OR]
  | _ => none

/-- A binary operator between its operands: every word behind a space, and a
space at the end. -/
def opText (words : List Token) : Text := words.flatMap Token.spaced ++ [' ']

def CompoundOp.words : CompoundOp → List Token
  | .none => []
  | .union => [.UNION]
  | .unionAll => [.UNION, .ALL]
  | .intersect => [.INTERSECT]
  | .except => [.EXCEPT]

/-- What stands between the parentheses of a call, from the text of its arguments. -/
def argsString (star distinct noArgs : Bool) (args : Option Text) : Option Text :=
  if star then some ['*']
  else do
    let s ← args
    some (textIf distinct (Token.DISTINCT.string ++ textIf (!noArgs) [' ']) ++ s)

/-- `"/* hint */ "`, or nothing. -/
def hintText : Option Text → Text
  | none => []
  | some v => '/' :: '*' :: ' ' :: v ++ [' ', '*', '/', ' ']

/-! ## Nodes -/

/-- The separator of a list of nodes. -/
def sepText : Kind → Text
  | .block => [' ']
  | _ => commaText

namespace Node

def isAbsent {k : Kind} : Node (.opt k) → Bool
  | .absent => true
  | .present _ => false

def isNil {k : Kind} : Node (.list k) → Bool
  | .nil => true
  | .cons _ _ => false

/-- `String`, with `none` for a panic. -/
def string : {k : Kind} → Node k → Option Text
  | _, .absent => some []
  | _, .present x => x.string
  | _, .nil => some []
  | _, @Node.cons k x xs => do
    let s ← x.string
    let r ← xs.string
    some (if xs.isNil then s else s ++ sepText k ++ r)
  | _, .ident i => some i.string
  | _, .stringLit v => some ('\'' :: doubleQuotes '\'' v ++ ['\''])
  | _, .blobLit v => some ('x' :: '\'' :: v ++ ['\''])
  | _, .numberLit v => some v
  | _, .nullLit => some Token.NULL.string
  | _, .boolLit b => some (if b then Token.TRUE.string else Token.FALSE.string)
  | _, .bindExpr name _ => some name
  | _, .unaryExpr op x => do
    let s ← x.string
    if op = .PLUS ∨ op = .MINUS then some (op.string ++ s) else none
  | _, .binaryExpr x op y => do
    let words ← binaryOpWords op
    let s ← x.string
    let r ← y.string
    some (s ++ opText words ++ r)
  | _, .parenExpr x => do
    let s ← x.string
    some ('(' :: s ++ [')'])
  | _, .caseExpr operand blocks elseExpr => do
    let o ← operand.string
    let b ← blocks.string
    let e ← elseExpr.string
    some (Token.CASE.string ++ textIf (!operand.isAbsent) (' ' :: o) ++
      textIf (!blocks.isNil) (' ' :: b) ++
      textIf (!elseExpr.isAbsent) (Token.ELSE.padded ++ e) ++ Token.END.spaced)
  | _, .existsExpr not select => do
    let s ← select.string
    some (textIf not (Token.NOT.string ++ [' ']) ++ Token.EXISTS.string ++
      ' ' :: '(' :: s ++ [')'])
  | _, .exprs xs => do
    let s ← xs.string
    some ('(' :: s ++ [')'])
  | _, .range x y => do
    let s ← x.string
    let r ← y.string
    some (s ++ Token.AND.padded ++ r)
  | _, .qualifiedRef tbl column =>
    match column with
    | none => some (tbl.string ++ ['.', '*'])
    | some c => some (tbl.string ++ '.' :: c.string)
  | _, .call name star distinct args filter => do
    let a ← argsString star distinct args.isNil args.string
    let f ← filter.string
    some (name.name ++ '(' :: a ++ [')'] ++
      textIf (!filter.isAbsent)
        (Token.FILTER.padded ++ '(' :: Token.WHERE.string ++ ' ' :: f ++ [')']))
  | _, .caseBlock condition body => do
    let c ← condition.string
    let b ← body.string
    some (Token.WHEN.string ++ ' ' :: c ++ Token.THEN.padded ++ b)
  | _, .resultColumn star x columnAlias => do
    if star then some ['*']
    else if x.isAbsent then none
    else
      let s ← x.string
      some (s ++ aliasText columnAlias)
  | _, .orderingTerm x asc desc nullsFirst nullsLast => do
    let s ← x.string
    some (s ++ (if asc then Token.ASC.spaced else textIf desc Token.DESC.spaced) ++
      (if nullsFirst then Token.NULLS.spaced ++ Token.FIRST.spaced
        else textIf nullsLast (Token.NULLS.spaced ++ Token.LAST.spaced)))
  | _, .table t => some t.string
  | _, .parenSource x tableAlias => do
    let s ← x.string
    some ('(' :: s ++ [')'] ++ aliasText tableAlias)
  | _, .joinClause x operator y constraint => do
    let s ← x.string
    let r ← y.string
    let c ← constraint.string
    some (s ++ operator.string ++ r ++ textIf (!constraint.isAbsent) (' ' :: c))
  | _, .selectSource s => s.string
  | _, .onConstraint x => do
    let s ← x.string
    some (Token.ON.string ++ ' ' :: s)
  | _, .usingConstraint columns =>
    some (Token.USING.string ++ ' ' :: '(' :: identsText columns ++ [')'])
  | _, .selectStatement hint all distinct columns fromItems condition groupingElements
    havingCondition op compound orderBy limit fetch offset => do
    let cols ← columns.string
    let src ← fromItems.string
    let cond ← condition.string
    let grp ← groupingElements.string
    let hav ← stringIf (!groupingElements.isNil) havingCondition.string
    let cmp ← compound.string
    let ord ← orderBy.string
    let lim ← limit.string
    let off ← offset.string
    let fet ← stringIf (limit.isAbsent && !offset.isAbsent) fetch.string
    some (Token.SELECT.string ++ ' ' ::
      hintText hint ++
      (if all then Token.ALL.string ++ [' '] else textIf distinct (Token.DISTINCT.string ++ [' '])) ++
      cols ++
      textIf (!fromItems.isAbsent) (Token.FROM.padded ++ src) ++
      textIf (!condition.isAbsent) (Token.WHERE.padded ++ cond) ++
      textIf (!groupingElements.isNil) (Token.GROUP.spaced ++ Token.BY.padded ++ grp ++
        textIf (!havingCondition.isAbsent) (Token.HAVING.padded ++ hav)) ++
      textIf (!compound.isAbsent) (op.words.flatMap Token.spaced ++ ' ' :: cmp) ++
      textIf (!orderBy.isNil) (Token.ORDER.spaced ++ Token.BY.padded ++ ord) ++
      textIf (!limit.isAbsent) (Token.LIMIT.padded ++ lim ++
        textIf (!offset.isAbsent) (Token.OFFSET.padded ++ off)) ++
      textIf (limit.isAbsent && !offset.isAbsent) (Token.OFFSET.padded ++ off ++
        Token.ROWS.spaced ++
        textIf (!fetch.isAbsent) (Token.FETCH.spaced ++ Token.NEXT.padded ++ fet ++
          Token.ROWS.spaced ++ Token.ONLY.spaced)))

end Node

/-! ## Statements -/

/-- Every text of a list, or a panic. -/
def stringList {α : Type} (f : α → Option Text) : List α → Option (List Text)
  | [] => some []
  | x :: xs => do
    let s ← f x
    let r ← stringList f xs
    some (s :: r)

/-- The text of an optional node behind some words. -/
def optString {k : Kind} (words : Text) : Option (Node k) → Option Text
  | none => some []
  | some x => do
    let s ← x.string
    some (words ++ s)

def columnsText : List Ident → Text
  | [] => []
  | [c] => c.string
  | cs => '(' :: identsText cs ++ [')']

def Assignment.string (a : Assignment) : Option Text := do
  let s ← a.expr.string
  some (columnsText a.columns ++ Token.EQ.padded ++ s)

def IndexedColumn.string (c : IndexedColumn) : Option Text := do
  let s ← c.x.string
  some (s ++ (if c.asc then Token.ASC.spaced else textIf c.desc Token.DESC.spaced))

/-- The text of what an upsert does on a conflict. -/
def actionString (doNothing : Bool) (assignments : List Assignment) (updateWhereExpr : Option Expr) :
    Option Text :=
  if doNothing then some Token.NOTHING.spaced
  else do
    let as ← stringList Assignment.string assignments
    let upd ← optString Token.WHERE.padded updateWhereExpr
    some (Token.UPDATE.spaced ++ Token.SET.padded ++ joinText commaText as ++ upd)

def UpsertClause.string (c : UpsertClause) : Option Text := do
  let cols ← stringList IndexedColumn.string c.columns
  let whr ← stringIf (!c.columns.isEmpty) (optString Token.WHERE.padded c.whereExpr)
  let act ← actionString c.doNothing c.assignments c.updateWhereExpr
  some (Token.ON.string ++ Token.CONFLICT.spaced ++
    textIf (!c.columns.isEmpty) (' ' :: '(' :: joinText commaText cols ++ [')'] ++ whr) ++
    Token.DO.spaced ++ act)

def rowString (row : Node (.list .expr)) : Option Text := do
  let s ← row.string
  some (' ' :: '(' :: s ++ [')'])

/-- The text of an upsert clause behind a space. -/
def upsertString : Option UpsertClause → Option Text
  | none => some []
  | some c => do
    let s ← c.string
    some (' ' :: s)

/-- The text of what is inserted: default values, rows or a query. -/
def bodyString (defaultValues : Bool) (rows : List (Node (.list .expr)))
    (query : Option SelectStatement) : Option Text :=
  if defaultValues then some (Token.DEFAULT.spaced ++ Token.VALUES.spaced)
  else match query with
    | some q => do
      let t ← q.string
      some (' ' :: t)
    | none => do
      let rows ← stringList rowString rows
      some (Token.VALUES.spaced ++ joinText [','] rows)

def InsertStatement.string (s : InsertStatement) : Option Text := do
  let body ← bodyString s.defaultValues s.expressions s.query
  let ups ← upsertString s.upsertClause
  let out ← optString Token.RETURNING.padded s.outputExpressions
  some (Token.INSERT.string ++ Token.INTO.padded ++ s.tableName.string ++
    textIf (!s.columnNames.isEmpty) (' ' :: '(' :: identsText s.columnNames ++ [')']) ++
    body ++ ups ++ out)

def whereString (condition : Option Expr) (cursorName : Option Ident) : Option Text :=
  match condition with
  | some x => optString Token.WHERE.padded (some x)
  | none =>
    match cursorName with
    | some c => some (Token.WHERE.spaced ++ Token.CURRENT.spaced ++ Token.OF.padded ++ c.string)
    | none => some []

/-- `"From "` of `UpdateStatement.String`, which is not a keyword text of the table. -/
def fromText : Text := [' ', 'F', 'r', 'o', 'm', ' ']

def UpdateStatement.string (s : UpdateStatement) : Option Text := do
  let as ← stringList Assignment.string s.assignments
  let cond ← whereString s.condition s.cursorName
  let out ← optString Token.RETURNING.padded s.outputExpressions
  some (Token.UPDATE.string ++ ' ' :: textIf s.only (Token.ONLY.string ++ [' ']) ++
    s.tableName.string ++ textIf s.tableStar [' ', '*'] ++ aliasText s.tableAlias ++
    Token.SET.padded ++ joinText commaText as ++
    textIf (!s.fromList.isEmpty) (fromText ++ joinText commaText (s.fromList.map TableName.string)) ++
    cond ++ out)

def DeleteStatement.string (s : DeleteStatement) : Option Text := do
  let cond ← whereString s.condition s.cursorName
  let out ← optString Token.RETURNING.padded s.outputExpressions
  some (Token.DELETE.string ++ Token.FROM.padded ++ textIf s.only (Token.ONLY.string ++ [' ']) ++
    s.tableName.string ++ textIf s.tableStar [' ', '*'] ++ aliasText s.tableAlias ++
    textIf (!s.usingList.isEmpty)
      (Token.USING.padded ++ joinText commaText (s.usingList.map TableName.string)) ++
    cond ++ out)

def Statement.string : Statement → Option Text
  | .select s => s.string
  | .insert s => s.string
  | .update s => s.string
  | .delete s => s.string

end Gofusion.Sqlparser
