import Gofusion.Sqlparser.Ast
import Gofusion.Sqlparser.Lexer

/-!
# The parser

`common/utils/sqlparser/parser.go`.  A parser runs on the tokens not yet read and
on the number of bind parameters seen so far, with one token of lookahead.  A token that is read and
put back with `unlex` is only peeked at here.

The recursion of the source is cut open.  `Procs` holds the four procedures that
call themselves through others, every parser takes the procedures it may call as
an argument, and `procs n` closes the knot `n` times.  A procedure is only called
after a token was read, so `procs (n + 2)` is the source's parser on every stream
of `n` tokens.
-/

namespace Gofusion.Sqlparser

/-! ## Parsers -/

/-- Why a parse fails.  `panic` is a failed `assert`, and `fuel` is no outcome of
the source. -/
inductive ParseError
  | eof
  | expected (what : String) (found : Tok)
  | notImplemented
  | panic
  | fuel
deriving DecidableEq

/-- The state of a parser: the tokens to be read and the bind count. -/
structure PState where
  toks : List Tok
  binds : Nat
deriving DecidableEq

/-- The current token, `EOF` at the end of the stream. -/
def PState.cur (s : PState) : Tok := s.toks.headD ⟨.EOF, []⟩

/-- The state behind the current token.  The end of the stream is read again and
again. -/
def PState.next (s : PState) : PState := ⟨s.toks.tail, s.binds⟩

structure Parser (α : Type) where
  run : PState → Except ParseError (α × PState)

namespace Parser

protected def pure {α : Type} (a : α) : Parser α := ⟨fun s => .ok (a, s)⟩

protected def bind {α β : Type} (p : Parser α) (f : α → Parser β) : Parser β := ⟨fun s =>
  match p.run s with
  | .error e => .error e
  | .ok (a, s') => (f a).run s'⟩

instance : Monad Parser where
  pure := Parser.pure
  bind := Parser.bind

end Parser

def fail {α : Type} (e : ParseError) : Parser α := ⟨fun _ => .error e⟩

def peek : Parser Token := ⟨fun s => .ok (s.cur.tok, s)⟩

/-- `lex`. -/
def lexTok : Parser Tok := ⟨fun s => .ok (s.cur, s.next)⟩

/-- `errorExpected` at the current token. -/
def errorExpected {α : Type} (what : String) : Parser α :=
  ⟨fun s => .error (.expected what s.cur)⟩

/-- Read a token of the given kind. -/
def expect (t : Token) (what : String) : Parser Unit := do
  if (← peek) = t then
    let _ ← lexTok
    pure ()
  else errorExpected what

/-- Read a token of the given kind if it is next. -/
def accept (t : Token) : Parser Bool := do
  if (← peek) = t then
    let _ ← lexTok
    pure true
  else pure false

/-- `assert(p.peek() == t)`, followed by `p.lex()`. -/
def assertTok (t : Token) : Parser Unit := do
  if (← peek) = t then
    let _ ← lexTok
    pure ()
  else fail .panic

/-! ## Loops -/

/-- One or more elements, separated by commas. -/
def sepList {α : Type} (elem : Parser α) : Nat → Parser (List α)
  | 0 => fail .fuel
  | n + 1 => do
    let x ← elem
    if ← accept .COMMA then
      let xs ← sepList elem n
      pure (x :: xs)
    else pure [x]

/-- One or more elements and a closing parenthesis, behind an opening one. -/
def parenList {α : Type} (elem : Parser α) : Nat → Parser (List α)
  | 0 => fail .fuel
  | n + 1 => do
    let x ← elem
    if ← accept .RP then pure [x]
    else
      expect .COMMA "comma or right paren"
      let xs ← parenList elem n
      pure (x :: xs)

/-- Elements up to a closing parenthesis, which is not read.  A trailing comma is
accepted. -/
def argList {α : Type} (elem : Parser α) : Nat → Parser (List α)
  | 0 => fail .fuel
  | n + 1 => do
    if (← peek) = .RP then pure []
    else
      let x ← elem
      if (← peek) = .RP then pure [x]
      else
        expect .COMMA "comma or right paren"
        let xs ← argList elem n
        pure (x :: xs)

def Node.ofList {k : Kind} : List (Node k) → Node (.list k)
  | [] => .nil
  | x :: xs => .cons x (Node.ofList xs)

/-- An optional keyword with its operand. -/
def parseAfter {k : Kind} (t : Token) (elem : Parser (Node k)) : Parser (Node (.opt k)) := do
  if ← accept t then
    let x ← elem
    pure (.present x)
  else pure .absent

/-! ## Identifiers and table names -/

/-- `identByNameAndTok`: a quoted literal loses its two quotes. -/
def identByNameAndTok (t : Tok) : Ident :=
  if t.tok = .QIDENT then ⟨t.lit.tail.dropLast, t.lit.head?⟩ else ⟨t.lit, none⟩

def parseIdent (desc : String) : Parser Ident := do
  if (← peek).isIdent then
    let t ← lexTok
    pure (identByNameAndTok t)
  else errorExpected desc

def parseAlias (desc : String) : Parser (Option Ident) := do
  if ← accept .AS then
    let i ← parseIdent desc
    pure (some i)
  else if (← peek).isIdent then
    let i ← parseIdent desc
    pure (some i)
  else pure none

def parseTableName : Parser TableName := do
  let name ← parseIdent "table name"
  let tableAlias ← parseAlias "table alias"
  pure ⟨name, tableAlias⟩

/-! ## Expressions -/

/-- The procedures that call each other, and a bound on the loops. -/
structure Procs where
  fuel : Nat
  /-- `parseOperand` -/
  operand : Parser Expr
  /-- `parseBinaryExpr` -/
  binaryExpr : Nat → Parser Expr
  /-- `parseSelectStatement` -/
  selectStatement : Bool → Parser SelectStatement
  /-- `parseSource` -/
  source : Parser Source

/-- `ParseExpr`. -/
def Procs.expr (p : Procs) : Parser Expr := p.binaryExpr (lowestPrec + 1)

def parseQualifiedRef (table : Ident) : Parser Expr := do
  assertTok .DOT
  if ← accept .STAR then pure (.qualifiedRef table none)
  else
    let c ← parseIdent "column name"
    pure (.qualifiedRef table (some c))

def parseFilterClause (p : Procs) : Parser Expr := do
  assertTok .FILTER
  expect .LP "left paren"
  expect .WHERE "WHERE"
  let x ← p.expr
  expect .RP "right paren"
  pure x

def parseFilter (p : Procs) : Parser (Node (.opt .expr)) := do
  if (← peek) = .FILTER then
    let x ← parseFilterClause p
    pure (.present x)
  else pure .absent

def parseCall (p : Procs) (name : Ident) : Parser Expr := do
  assertTok .LP
  if ← accept .STAR then
    expect .RP "right paren"
    let filter ← parseFilter p
    pure (.call name true false .nil filter)
  else
    let distinct ← accept .DISTINCT
    let args ← argList p.expr p.fuel
    expect .RP "right paren"
    let filter ← parseFilter p
    pure (.call name false distinct (Node.ofList args) filter)

/-- `parseExprs`: the list behind `IN`. -/
def parseExprs (p : Procs) : Parser Expr := do
  expect .LP "left paren"
  let xs ← argList p.expr p.fuel
  expect .RP "right paren"
  pure (.exprs (Node.ofList xs))

/-- The token behind the expression is read whatever it is. -/
def parseParenExpr (p : Procs) : Parser Expr := do
  let _ ← lexTok
  let x ← p.expr
  let _ ← lexTok
  pure (.parenExpr x)

def parseCaseBlock (p : Procs) : Parser (Node .block) := do
  expect .WHEN "WHEN"
  let condition ← p.expr
  expect .THEN "THEN"
  let body ← p.expr
  pure (.caseBlock condition body)

/-- The `WHEN`/`THEN` pairs, up to `ELSE` or `END`. -/
def parseCaseBlocks (p : Procs) : Nat → Parser (List (Node .block))
  | 0 => fail .fuel
  | n + 1 => do
    let b ← parseCaseBlock p
    let t ← peek
    if t = .ELSE ∨ t = .END then pure [b]
    else if t = .WHEN then
      let bs ← parseCaseBlocks p n
      pure (b :: bs)
    else errorExpected "WHEN, ELSE or END"

def parseCaseOperand (p : Procs) : Parser (Node (.opt .expr)) := do
  if (← peek) = .WHEN then pure .absent
  else
    let x ← p.expr
    pure (.present x)

def parseCaseExpr (p : Procs) : Parser Expr := do
  assertTok .CASE
  let operand ← parseCaseOperand p
  let blocks ← parseCaseBlocks p p.fuel
  let elseExpr ← parseAfter .ELSE p.expr
  expect .END "END"
  pure (.caseExpr operand (Node.ofList blocks) elseExpr)

def parseExists (p : Procs) : Parser Expr := do
  let not ← accept .NOT
  expect .EXISTS "EXISTS"
  expect .LP "left paren"
  let select ← p.selectStatement false
  expect .RP "right paren"
  pure (.existsExpr not select)

/-- A literal or a bind parameter.  A bind parameter takes the next position. -/
def parseLiteral (t : Tok) : Parser Expr :=
  match t.tok with
  | .STRING => pure (.stringLit t.lit)
  | .BLOB => pure (.blobLit t.lit)
  | .FLOAT | .INTEGER => pure (.numberLit t.lit)
  | .NULL => pure .nullLit
  | .TRUE => pure (.boolLit true)
  | .FALSE => pure (.boolLit false)
  | .BIND => ⟨fun s => .ok (.bindExpr t.lit s.binds, ⟨s.toks, s.binds + 1⟩)⟩
  | _ => fail (.expected "expression" t)

def parseOperand (p : Procs) : Parser Expr := do
  let tok ← peek
  if tok.isIdent then
    let t ← lexTok
    let next ← peek
    if next = .DOT then parseQualifiedRef (identByNameAndTok t)
    else if next = .LP then parseCall p (identByNameAndTok t)
    else pure (.ident (identByNameAndTok t))
  else if tok = .PLUS ∨ tok = .MINUS then
    let t ← lexTok
    let x ← p.operand
    pure (.unaryExpr t.tok x)
  else if tok = .LP then parseParenExpr p
  else if tok = .CASE then parseCaseExpr p
  else if tok = .NOT ∨ tok = .EXISTS then parseExists p
  else
    let t ← lexTok
    parseLiteral t

/-- The operator `NOT` builds with the next token. -/
def notOp : Token → Option Token
  | .IN => some .NOTIN
  | .LIKE => some .NOTLIKE
  | .GLOB => some .NOTGLOB
  | .REGEXP => some .NOTREGEXP
  | .MATCH => some .NOTMATCH
  | .BETWEEN => some .NOTBETWEEN
  | _ => none

/-- `lexBinaryOp`: operators of two words are one token. -/
def lexBinaryOp : Parser Token := do
  let t ← lexTok
  if t.tok = .IS then
    if ← accept .NOT then pure .ISNOT else pure .IS
  else if t.tok = .NOT then
    match notOp (← peek) with
    | some op =>
      let _ ← lexTok
      pure op
    | none => errorExpected "IN, LIKE, GLOB, REGEXP, MATCH, or BETWEEN"
  else pure t.tok

/-- The two sides of a conjunction, which is what a range is parsed as. -/
def Node.conjuncts? : Expr → Option (Expr × Expr)
  | .binaryExpr x op y => if op = .AND then some (x, y) else none
  | _ => none

/-- The right operand of a binary operator.  The range of `BETWEEN` is parsed as a
conjunction of the lowest precedence. -/
def parseRightOperand (p : Procs) (op : Token) : Parser Expr := do
  if op = .IN ∨ op = .NOTIN then parseExprs p
  else if op = .BETWEEN ∨ op = .NOTBETWEEN then
    let rng ← p.binaryExpr (lowestPrec + 1)
    match rng.conjuncts? with
    | some (x, y) => pure (.range x y)
    | none => errorExpected "range expression"
  else p.binaryExpr (op.precedence + 1)

/-- The loop of `parseBinaryExpr`: operators of at least the given precedence. -/
def binaryLoop (p : Procs) (prec1 : Nat) : Nat → Expr → Parser Expr
  | 0, _ => fail .fuel
  | n + 1, x => do
    if (← peek).precedence < prec1 then pure x
    else
      let op ← lexBinaryOp
      let y ← parseRightOperand p op
      binaryLoop p prec1 n (.binaryExpr x op y)

def parseBinaryExpr (p : Procs) (prec1 : Nat) : Parser Expr := do
  let x ← parseOperand p
  binaryLoop p prec1 p.fuel x

/-! ## Sources -/

def parseJoinOperator : Parser JoinOperator := do
  if ← accept .COMMA then pure { comma := true }
  else
    let natural ← accept .NATURAL
    if ← accept .LEFT then
      let outer ← accept .OUTER
      expect .JOIN "JOIN"
      pure { natural := natural, left := true, outer := outer }
    else if ← accept .INNER then
      expect .JOIN "JOIN"
      pure { natural := natural, inner := true }
    else if ← accept .CROSS then
      expect .JOIN "JOIN"
      pure { natural := natural, cross := true }
    else
      expect .JOIN "JOIN"
      pure { natural := natural }

/-- `parseJoinConstraint`, with `parseOnConstraint` and `parseUsingConstraint`. -/
def parseJoinConstraint (p : Procs) : Parser (Node (.opt .constraint)) := do
  if ← accept .ON then
    let x ← p.expr
    pure (.present (.onConstraint x))
  else if ← accept .USING then
    expect .LP "left paren"
    let columns ← parenList (parseIdent "column name") p.fuel
    pure (.present (.usingConstraint columns))
  else pure .absent

def parseParenSource (p : Procs) : Parser Source := do
  assertTok .LP
  if (← peek) = .SELECT then
    let s ← p.selectStatement false
    expect .RP "right paren"
    let tableAlias ← parseAlias "table alias"
    pure (.parenSource (.selectSource s) tableAlias)
  else
    let x ← p.source
    expect .RP "right paren"
    pure (.parenSource x none)

def parseUnarySource (p : Procs) : Parser Source := do
  let t ← peek
  if t = .LP then parseParenSource p
  else if t.isIdent then
    let t ← parseTableName
    pure (.table t)
  else errorExpected "table name or left paren"

def joinTokens : List Token := [.COMMA, .NATURAL, .LEFT, .INNER, .CROSS, .JOIN]

/-- Append a join.  The new join is nested on the right side of the first one,
whose constraint stays outside. -/
def addJoin (source : Source) (operator : JoinOperator) (y : Source)
    (constraint : Node (.opt .constraint)) : Source :=
  match source with
  | .joinClause lx lop ly lc => .joinClause lx lop (.joinClause ly operator y constraint) lc
  | s => .joinClause s operator y constraint

def sourceLoop (p : Procs) : Nat → Source → Parser Source
  | 0, _ => fail .fuel
  | n + 1, source => do
    if (← peek) ∈ joinTokens then
      let operator ← parseJoinOperator
      let y ← parseUnarySource p
      let constraint ← parseJoinConstraint p
      sourceLoop p n (addJoin source operator y constraint)
    else pure source

def parseSource (p : Procs) : Parser Source := do
  let x ← parseUnarySource p
  sourceLoop p p.fuel x

/-! ## `SELECT` -/

/-- A reference to all columns of a table, which takes no alias. -/
def Node.isStarRef : Expr → Bool
  | .qualifiedRef _ none => true
  | _ => false

def parseResultColumn (p : Procs) : Parser (Node .column) := do
  if ← accept .STAR then pure (.resultColumn true .absent none)
  else
    let x ← p.expr
    if x.isStarRef then pure (.resultColumn false (.present x) none)
    else
      let columnAlias ← parseAlias "column alias"
      pure (.resultColumn false (.present x) columnAlias)

def parseOutputNames (p : Procs) : Parser OutputNames := do
  let names ← sepList (parseResultColumn p) p.fuel
  pure (Node.ofList names)

/-- The direction of a sort: ascending, descending or neither. -/
def parseDirection : Parser (Bool × Bool) := do
  if ← accept .ASC then pure (true, false)
  else if ← accept .DESC then pure (false, true)
  else pure (false, false)

/-- The place of null values: first, last or neither. -/
def parseNulls : Parser (Bool × Bool) := do
  if ← accept .NULLS then
    if ← accept .FIRST then pure (true, false)
    else
      expect .LAST "FIRST or LAST"
      pure (false, true)
  else pure (false, false)

def parseOrderingTerm (p : Procs) : Parser (Node .term) := do
  let x ← p.expr
  let dir ← parseDirection
  let nulls ← parseNulls
  pure (.orderingTerm x dir.1 dir.2 nulls.1 nulls.2)

def parseHint : Parser (Option Text) := do
  if (← peek) = .MLCOMMENT then
    let t ← lexTok
    pure (some t.lit)
  else pure none

def parseQuantifier : Parser (Bool × Bool) := do
  if ← accept .ALL then pure (true, false)
  else if ← accept .DISTINCT then pure (false, true)
  else pure (false, false)

def parseGroupBy (p : Procs) : Parser (Node (.list .expr) × Node (.opt .expr)) := do
  if ← accept .GROUP then
    expect .BY "BY"
    let xs ← sepList p.expr p.fuel
    let having ← parseAfter .HAVING p.expr
    pure (Node.ofList xs, having)
  else pure (.nil, .absent)

def parseCompound (p : Procs) : Parser (CompoundOp × Node (.opt .select)) := do
  if ← accept .UNION then
    let all ← accept .ALL
    let s ← p.selectStatement true
    pure (if all then .unionAll else .union, .present s)
  else if ← accept .INTERSECT then
    let s ← p.selectStatement true
    pure (.intersect, .present s)
  else if ← accept .EXCEPT then
    let s ← p.selectStatement true
    pure (.except, .present s)
  else pure (.none, .absent)

def parseOrderBy (p : Procs) : Parser (Node (.list .term)) := do
  if ← accept .ORDER then
    expect .BY "BY"
    let terms ← sepList (parseOrderingTerm p) p.fuel
    pure (Node.ofList terms)
  else pure .nil

/-- `ROW` or `ROWS`. -/
def expectRows : Parser Unit := do
  if (← peek) = .ROW then
    let _ ← lexTok
    pure ()
  else expect .ROWS "ROW/ROWS"

/-- `NEXT` or `FIRST`. -/
def expectNext : Parser Unit := do
  if (← peek) = .NEXT then
    let _ ← lexTok
    pure ()
  else expect .FIRST "NEXT/FIRST"

def parseFetch (p : Procs) : Parser (Node (.opt .expr)) := do
  if ← accept .FETCH then
    expectNext
    let x ← p.expr
    expectRows
    expect .ONLY "ONLY"
    pure (.present x)
  else pure .absent

/-- `LIMIT`, `FETCH` and `OFFSET`, in this order in the result. -/
def parseLimit (p : Procs) :
    Parser (Node (.opt .expr) × Node (.opt .expr) × Node (.opt .expr)) := do
  if ← accept .LIMIT then
    let limit ← p.expr
    let t ← peek
    if t = .OFFSET ∨ t = .COMMA then
      let _ ← lexTok
      let offset ← p.expr
      pure (.present limit, .absent, .present offset)
    else pure (.present limit, .absent, .absent)
  else if ← accept .OFFSET then
    let offset ← p.expr
    expectRows
    let fetch ← parseFetch p
    pure (.absent, fetch, .present offset)
  else pure (.absent, .absent, .absent)

/-- `ORDER BY` and `LIMIT`/`OFFSET`, which a compounded `SELECT` leaves to the
statement in front of it. -/
def parseSelectTail (p : Procs) (compounded : Bool) :
    Parser (Node (.list .term) × Node (.opt .expr) × Node (.opt .expr) × Node (.opt .expr)) := do
  if compounded then pure (.nil, .absent, .absent, .absent)
  else
    let orderBy ← parseOrderBy p
    let limits ← parseLimit p
    pure (orderBy, limits)

def parseSelectStatement (p : Procs) (compounded : Bool) : Parser SelectStatement := do
  expect .SELECT "SELECT"
  let hint ← parseHint
  let quantifier ← parseQuantifier
  let columns ← parseOutputNames p
  let fromItems ← parseAfter .FROM p.source
  let condition ← parseAfter .WHERE p.expr
  let grouping ← parseGroupBy p
  let compound ← parseCompound p
  let tail ← parseSelectTail p compounded
  pure (.selectStatement hint quantifier.1 quantifier.2 columns fromItems condition
    grouping.1 grouping.2 compound.1 compound.2 tail.1 tail.2.1 tail.2.2.1 tail.2.2.2)

/-! ## The knot -/

/-- The procedures with the recursion unfolded `n` times. -/
def procs : Nat → Procs
  | 0 => ⟨0, fail .fuel, fun _ => fail .fuel, fun _ => fail .fuel, fail .fuel⟩
  | n + 1 =>
    ⟨n, parseOperand (procs n), parseBinaryExpr (procs n), parseSelectStatement (procs n),
      parseSource (procs n)⟩

/-! ## The other statements -/

def Node.toOption {k : Kind} : Node (.opt k) → Option (Node k)
  | .absent => none
  | .present x => some x

def parseReturning (p : Procs) : Parser (Option OutputNames) := do
  if ← accept .RETURNING then
    let names ← parseOutputNames p
    pure (some names)
  else pure none

/-- The left side of an assignment: a column or a list of columns. -/
def parseAssigned (p : Procs) : Parser (List Ident) := do
  if (← peek).isIdent then
    let c ← parseIdent "column name"
    pure [c]
  else
    expect .LP "column name or column list"
    parenList (parseIdent "column name") p.fuel

def parseAssignment (p : Procs) : Parser Assignment := do
  let columns ← parseAssigned p
  expect .EQ "="
  let x ← p.expr
  pure ⟨columns, x⟩

def parseIndexedColumn (p : Procs) : Parser IndexedColumn := do
  let x ← p.expr
  let dir ← parseDirection
  pure ⟨x, dir.1, dir.2⟩

/-- The conflict target: the indexed columns and their condition. -/
def parseConflictTarget (p : Procs) : Parser (List IndexedColumn × Option Expr) := do
  if ← accept .LP then
    let columns ← parenList (parseIndexedColumn p) p.fuel
    let whereExpr ← parseAfter .WHERE p.expr
    pure (columns, whereExpr.toOption)
  else pure ([], none)

def parseUpsertClause (p : Procs) : Parser UpsertClause := do
  assertTok .ON
  expect .CONFLICT "CONFLICT"
  let target ← parseConflictTarget p
  expect .DO "DO"
  if ← accept .NOTHING then
    pure { columns := target.1, whereExpr := target.2, doNothing := true }
  else
    expect .UPDATE "NOTHING or UPDATE SET"
    expect .SET "SET"
    let assignments ← sepList (parseAssignment p) p.fuel
    let updateWhereExpr ← parseAfter .WHERE p.expr
    pure { columns := target.1, whereExpr := target.2, doUpdate := true,
           assignments := assignments, updateWhereExpr := updateWhereExpr.toOption }

def parseRow (p : Procs) : Parser (Node (.list .expr)) := do
  expect .LP "left paren"
  let xs ← parenList p.expr p.fuel
  pure (Node.ofList xs)

/-- What an `INSERT` inserts: default values, rows or a query. -/
def parseInsertBody (p : Procs) :
    Parser (Bool × List (Node (.list .expr)) × Option SelectStatement) := do
  if ← accept .DEFAULT then
    expect .VALUES "VALUES"
    pure (true, [], none)
  else if ← accept .VALUES then
    let rows ← sepList (parseRow p) p.fuel
    pure (false, rows, none)
  else if (← peek) = .SELECT then
    let query ← p.selectStatement false
    pure (false, [], some query)
  else errorExpected "DEFAULT VALUES, VALUES or SELECT"

def parseColumnNames (p : Procs) : Parser (List Ident) := do
  if ← accept .LP then parenList (parseIdent "column name") p.fuel else pure []

/-- `OVERRIDING`.  The token behind it is peeked at and not read, so it can not be
`VALUE` as well. -/
def parseOverriding : Parser Unit := do
  if ← accept .OVERRIDING then
    let t ← peek
    if t = .SYSTEM ∨ t = .USER then expect .VALUE "VALUE"
    else errorExpected "SYSTEM or USER"
  else pure ()

def parseUpsert (p : Procs) : Parser (Option UpsertClause) := do
  if (← peek) = .ON then
    let c ← parseUpsertClause p
    pure (some c)
  else pure none

def parseInsertStatement (p : Procs) : Parser InsertStatement := do
  assertTok .INSERT
  expect .INTO "INTO"
  let tableName ← parseTableName
  let columnNames ← parseColumnNames p
  parseOverriding
  let body ← parseInsertBody p
  let upsertClause ← parseUpsert p
  let outputExpressions ← parseReturning p
  pure { tableName := tableName, columnNames := columnNames, defaultValues := body.1,
         expressions := body.2.1, query := body.2.2, upsertClause := upsertClause,
         outputExpressions := outputExpressions }

/-- The `WHERE` of an `UPDATE` or `DELETE`: a condition or a cursor. -/
def parseWhereOrCursor (p : Procs) : Parser (Option Expr × Option Ident) := do
  if ← accept .WHERE then
    if ← accept .CURRENT then
      expect .OF "OF"
      let c ← parseIdent "cursor name"
      pure (none, some c)
    else
      let x ← p.expr
      pure (some x, none)
  else pure (none, none)

def parseUpdateStatement (p : Procs) : Parser UpdateStatement := do
  assertTok .UPDATE
  let tableName ← parseTableName
  expect .SET "SET"
  let assignments ← sepList (parseAssignment p) p.fuel
  let cond ← parseWhereOrCursor p
  let outputExpressions ← parseReturning p
  pure { tableName := tableName, assignments := assignments, condition := cond.1,
         cursorName := cond.2, outputExpressions := outputExpressions }

/-- The alias of a `DELETE`.  An `AS` without a name behind it is dropped. -/
def parseDeleteAlias : Parser (Option Ident) := do
  let _ ← accept .AS
  if (← peek).isIdent then
    let i ← parseIdent "alias"
    pure (some i)
  else pure none

def parseDeleteStatement (p : Procs) : Parser DeleteStatement := do
  assertTok .DELETE
  assertTok .FROM
  let only ← accept .ONLY
  let tableName ← parseTableName
  let tableStar ← accept .STAR
  let tableAlias ← parseDeleteAlias
  if (← peek) = .USING then fail .notImplemented
  else
    let cond ← parseWhereOrCursor p
    let outputExpressions ← parseReturning p
    pure { only := only, tableName := tableName, tableStar := tableStar, tableAlias := tableAlias,
           condition := cond.1, cursorName := cond.2, outputExpressions := outputExpressions }

/-- `parseStatement`: all statement types. -/
def parseStmt (p : Procs) : Parser Statement := do
  let t ← peek
  if t = .SELECT then
    let s ← p.selectStatement false
    pure (.select s)
  else if t = .INSERT then
    let s ← parseInsertStatement p
    pure (.insert s)
  else if t = .UPDATE then
    let s ← parseUpdateStatement p
    pure (.update s)
  else if t = .DELETE then
    let s ← parseDeleteStatement p
    pure (.delete s)
  else errorExpected "statement"

/-- `ParseStatement` on a stream of tokens.  The statement ends at a semicolon or
at the end of the stream, and what stands behind the semicolon is not read. -/
def parseTokens (ts : List Tok) : Except ParseError Statement :=
  match ts with
  | [] => .error .eof
  | _ =>
    match (parseStmt (procs (ts.length + 2))).run ⟨ts, 0⟩ with
    | .error e => .error e
    | .ok (stmt, s) =>
      if s.cur.tok = .EOF ∨ s.cur.tok = .SEMI then .ok stmt
      else .error (.expected "semicolon or EOF" s.cur)

/-- `NewParser(...).ParseStatement()`. -/
def parseStatement (sql : Text) : Except ParseError Statement := parseTokens (lexAll sql)

end Gofusion.Sqlparser
