import Gofusion.Sqlparser.Leaves
import Gofusion.Sqlparser.Run

/-!
# The parts of a statement

The text of a statement is a row of parts: words, signs, names and literals, and the spaces
between them.  A part says what it is printed as, which tokens its text stands for, what can be
read in its place, and whether its text is read back.

The parser is more liberal than the printer.  It takes `ROW` for `ROWS` and any token for a
closing parenthesis, so a word only says that one token is read.

Two parts have no text and no token.  `check` is what the parser makes sure of where a field is
not printed.  `joined` says that a join is printed in the order it was read.
-/

namespace Gofusion.Sqlparser

/-! ## Tokens that are read -/

def headTok (ts : List Tok) : Tok := ts.headD ⟨.EOF, []⟩

def ReadsIdent (i : Ident) (ts rest : List Tok) : Prop :=
  (nextTok ts).isIdent = true ∧ identByNameAndTok (headTok ts) = i ∧ ts.tail = rest

/-- A binary operator, of one word or two. -/
def ReadsOp (op : Token) (ts rest : List Tok) : Prop :=
  nextTok ts = .IS ∧ nextTok ts.tail = .NOT ∧ op = .ISNOT ∧ ts.tail.tail = rest ∨
  nextTok ts = .NOT ∧ notOp (nextTok ts.tail) = some op ∧ ts.tail.tail = rest ∨
  nextTok ts = op ∧ op ≠ .NOT ∧ ts.tail = rest

/-- Every token of a stream is well formed. -/
def AllWf (ts : List Tok) : Prop := ∀ t ∈ ts, t.Wf

/-! ## Parts -/

inductive Part
  | word (t : Token)
  /-- The word that starts the constraint of a join. -/
  | mark (t : Token)
  /-- A sign that anything may follow. -/
  | sign (t : Token)
  | unary (op : Token)
  | space
  /-- A binary operator and the spaces around it. -/
  | op (t : Token)
  | name (i : Ident)
  /-- `" AS name"`. -/
  | called (i : Ident)
  /-- `".*"`. -/
  | star
  /-- A dot and the name of a column. -/
  | column (i : Ident)
  /-- The name of a function and the parenthesis behind it. -/
  | func (i : Ident)
  /-- The only column of an assignment. -/
  | assigned (i : Ident)
  /-- A literal.  Every number is an `INTEGER` here. -/
  | lit (t : Token) (v : Text)
  | joinOp (op : JoinOperator)
  | joined (ok : Bool)
  | trailing (t : Token)
  | check (b : Bool)

/-- The signs that anything may follow. -/
def looseSigns : List Token := [.LP, .RP, .COMMA, .STAR]

def litTokens : List Token := [.STRING, .BLOB, .INTEGER, .BIND, .MLCOMMENT]

namespace Part

def text : Part → Text
  | word t | mark t | sign t | unary t => t.string
  | space => [' ']
  | op t => opText ((binaryOpWords t).getD [])
  | name i | assigned i => i.string
  | called i => Token.AS.padded ++ i.string
  | star => ['.', '*']
  | column i => '.' :: i.string
  | func i => i.name ++ ['(']
  | lit .STRING v => '\'' :: doubleQuotes '\'' v ++ ['\'']
  | lit .BLOB v => 'x' :: '\'' :: v ++ ['\'']
  | lit .MLCOMMENT v => hintText (some v)
  | lit _ v => v
  | joinOp o => o.string
  | joined _ | trailing _ | check _ => []

/-- The printer does not panic. -/
def printable : Part → Bool
  | unary t => t = .PLUS ∨ t = .MINUS
  | op t => (binaryOpWords t).isSome
  | _ => true

def toks : Part → List Tok
  | word t | mark t | sign t | unary t => [.kw t]
  | op t => opToks t
  | name i | assigned i => [i.tok]
  | called i => [.kw .AS, i.tok]
  | star => [.kw .DOT, .kw .STAR]
  | column i => [.kw .DOT, i.tok]
  | func i => [⟨.IDENT, i.name⟩, .kw .LP]
  | lit t v => [if t = .INTEGER then numberTok v else ⟨t, v⟩]
  | joinOp o => o.toks
  | space | joined _ | trailing _ | check _ => []

def legible : Part → Bool
  | op t => (binaryOpWords t).isSome
  | name i | assigned i | called i => i.legible
  | column i => i.legibleColumn
  | func i => isWord i.name
  | joined ok => ok
  | _ => true

/-- The part is one the lexer can return. -/
def Wf : Part → Prop
  | unary t => t = .PLUS ∨ t = .MINUS
  | name i | assigned i | called i | column i => i.Wf
  | lit t v => Tok.Wf ⟨t, v⟩
  | _ => True

/-- What the parser guarantees of a part. -/
def Sound : Part → Prop
  | check b => b = true
  | p => p.Wf

/-- The stream can be read as the part. -/
def Reads : Part → List Tok → List Tok → Prop
  | word _, ts, rest | sign _, ts, rest => ts.tail = rest
  | mark t, ts, rest => nextTok ts = t ∧ ts.tail = rest
  | unary t, ts, rest => (t = .PLUS ∨ t = .MINUS) ∧ ts.tail = rest
  | space, ts, rest => ts = rest
  | op t, ts, rest => ReadsOp t ts rest
  | name i, ts, rest => ReadsIdent i ts rest
  | called i, ts, rest => nextTok ts = .AS ∧ ReadsIdent i ts.tail rest ∨ ReadsIdent i ts rest
  | star, ts, rest => ts.tail.tail = rest
  | column i, ts, rest => nextTok ts = .DOT ∧ ReadsIdent i ts.tail rest
  | func i, ts, rest => ∃ m, ReadsIdent i ts m ∧ m.tail = rest
  | assigned i, ts, rest => ReadsIdent i ts rest ∨
    nextTok ts = .LP ∧ ∃ m, ReadsIdent i ts.tail m ∧ m.tail = rest
  | lit t v, ts, rest => (nextTok ts = t ∨ t = .INTEGER ∧ nextTok ts = .FLOAT) ∧
    (headTok ts).lit = v ∧ ts.tail = rest
  | joinOp o, ts, rest => ts.drop o.toks.length = rest
  | joined ok, ts, rest => ok = true ∧ ts = rest
  | trailing t, ts, rest => ts = rest ∨ nextTok ts = t ∧ ts.tail = rest
  | check b, ts, rest => b = true ∧ ts = rest

def isJoinOp : Part → Bool
  | joinOp _ => true
  | _ => false

/-- What the text behind a part must be like. -/
def Needs : Part → Text → Prop
  | word t, r | mark t, r => t ∈ printedWords ∧ NoWord r
  | sign t, _ => t ∈ looseSigns
  | name _, r | called _, r | column _, r | assigned _, r => NoWord r
  | lit t _, r => t ∈ litTokens ∧ (t = .MLCOMMENT ∨ Stop r)
  | trailing t, r => nextTok (lexAll r) ≠ t
  | _, _ => True

/-- The part with the identifiers changed, by `f` for the names of functions and by `g` for all
others. -/
def mapIdents (f g : Ident → Ident) : Part → Part
  | name i => name (g i)
  | called i => called (g i)
  | column i => column (g i)
  | func i => func (f i)
  | assigned i => assigned (g i)
  | p => p

def unquote : Part → Part := mapIdents Ident.unquote Ident.unquote

end Part

/-! ## Rows of parts -/

def render : List Part → Option Text
  | [] => some []
  | p :: ps => if p.printable then (render ps).map (p.text ++ ·) else none

def textOf (ps : List Part) : Text := ps.flatMap Part.text

/-- Every part is followed by a text that does not run into it. -/
def Fits : List Part → Text → Prop
  | [], _ => True
  | p :: ps, r => p.Needs (textOf ps ++ r) ∧ Fits ps r

/-- The stream can be read as the parts, up to a constraint where an operator is expected. -/
def Reads : List Part → List Tok → List Tok → Prop
  | [], ts, rest => ts = rest
  | p :: ps, ts, rest => (∃ m, p.Reads ts m ∧ Reads ps m rest) ∨
    p.isJoinOp = true ∧ nextTok ts ∈ [Token.ON, .USING] ∧ rest <:+ ts ∧
      (AllWf ts → ∀ q ∈ ps, q.Sound)

section

variable {p : Part} {ps qs : List Part} {ts m rest : List Tok} {t : Token}

theorem ReadsIdent.suffix {i : Ident} (h : ReadsIdent i ts rest) : rest <:+ ts := by
  obtain ⟨-, -, rfl⟩ := h
  exact List.tail_suffix ts

theorem Part.Reads.suffix (h : p.Reads ts rest) : rest <:+ ts := by
  have htail (ts : List Tok) : ts.tail <:+ ts := List.tail_suffix ts
  cases p with
  | word | sign => exact h ▸ htail ts
  | mark | unary => exact h.2 ▸ htail ts
  | space => exact h ▸ List.suffix_rfl
  | op => rcases h with ⟨-, -, -, rfl⟩ | ⟨-, -, rfl⟩ | ⟨-, -, rfl⟩ <;>
    first | exact htail ts | exact (htail _).trans (htail ts)
  | name => exact ReadsIdent.suffix h
  | called => exact h.elim (fun h => h.2.suffix.trans (htail ts)) ReadsIdent.suffix
  | star => exact h ▸ (htail _).trans (htail ts)
  | column => exact h.2.suffix.trans (htail ts)
  | func =>
    obtain ⟨m, h, rfl⟩ := h
    exact (htail m).trans h.suffix
  | assigned =>
    rcases h with h | ⟨-, m, h, rfl⟩
    · exact h.suffix
    · exact (htail m).trans (h.suffix.trans (htail ts))
  | lit => exact h.2.2 ▸ htail ts
  | joinOp => exact h ▸ List.drop_suffix _ ts
  | joined | check => exact h.2 ▸ List.suffix_rfl
  | trailing =>
    rcases h with rfl | ⟨-, rfl⟩
    · exact List.suffix_rfl
    · exact htail ts

theorem AllWf.suffix (h : AllWf ts) (hs : rest <:+ ts) : AllWf rest := fun t ht => h t (hs.subset ht)

theorem headTok_tok (ts : List Tok) : (headTok ts).tok = nextTok ts := rfl

theorem AllWf.head (h : AllWf ts) : (headTok ts).Wf := by
  cases ts with
  | nil => trivial
  | cons t ts => exact h t List.mem_cons_self

theorem ReadsIdent.wf {i : Ident} (h : ReadsIdent i ts rest) (hts : AllWf ts) : i.Wf := by
  obtain ⟨hi, rfl, rfl⟩ := h
  have hw := hts.head
  rw [← headTok_tok] at hi
  generalize headTok ts = t at hi hw
  obtain ⟨k, lit⟩ := t
  simp only [Token.isIdent, Bool.or_eq_true, decide_eq_true_eq] at hi
  rcases hi with rfl | rfl
  · exact hw
  · obtain ⟨q, body, hq, hlit⟩ := hw
    cases hlit
    exact hq

theorem Part.Reads.sound (h : p.Reads ts rest) (hts : AllWf ts) : p.Sound := by
  have htail : AllWf ts.tail := hts.suffix (List.tail_suffix ts)
  cases p with
  | unary => exact h.1
  | name => exact ReadsIdent.wf h hts
  | called => exact h.elim (fun h => h.2.wf htail) fun h => h.wf hts
  | column => exact h.2.wf htail
  | assigned => exact h.elim (fun h => h.wf hts) fun ⟨_, _, h, _⟩ => h.wf htail
  | lit t v =>
    obtain ⟨ht, rfl, -⟩ := h
    have hw := hts.head
    rw [← headTok_tok] at ht
    generalize headTok ts = u at ht hw
    obtain ⟨k, lit⟩ := u
    rcases ht with rfl | ⟨rfl, rfl⟩ <;> exact hw
  | check => exact h.1
  | _ => trivial

theorem Reads.suffix (h : Reads ps ts rest) : rest <:+ ts := by
  induction ps generalizing ts with
  | nil => exact h ▸ List.suffix_rfl
  | cons p ps ih =>
    rcases h with ⟨m, hp, h⟩ | ⟨-, -, h, -⟩
    · exact (ih h).trans hp.suffix
    · exact h

/-- What is read from lexed tokens is sound. -/
theorem Reads.sound (h : Reads ps ts rest) (hts : AllWf ts) : ∀ p ∈ ps, p.Sound := by
  induction ps generalizing ts with
  | nil => nofun
  | cons p ps ih =>
    rcases h with ⟨m, hp, h⟩ | ⟨hj, -, -, h⟩
    · exact List.forall_mem_cons.mpr ⟨hp.sound hts, ih h (hts.suffix hp.suffix)⟩
    · refine List.forall_mem_cons.mpr ⟨?_, h hts⟩
      cases p with
      | joinOp => trivial
      | _ => cases hj

/-- The rest of a row may be read as other parts. -/
theorem Reads.replace {rs : List Part} {rest' : List Tok} (h : Reads (ps ++ qs) ts rest)
    (hrest : rest' <:+ rest) (hsound : AllWf rest → (∀ q ∈ qs, q.Sound) → ∀ r ∈ rs, r.Sound)
    (hqs : ∀ m, Reads qs m rest → Reads rs m rest') : Reads (ps ++ rs) ts rest' := by
  induction ps generalizing ts with
  | nil => exact hqs ts h
  | cons p ps ih =>
    rcases h with ⟨m, hp, h⟩ | ⟨hj, hon, hs, h⟩
    · exact .inl ⟨m, hp, ih h⟩
    · refine .inr ⟨hj, hon, hrest.trans hs, fun hts => ?_⟩
      obtain ⟨hps, hq⟩ := List.forall_mem_append.mp (h hts)
      exact List.forall_mem_append.mpr ⟨hps, hsound (hts.suffix hs) hq⟩

theorem Reads.append (h : Reads ps ts m) (h' : Reads qs m rest) : Reads (ps ++ qs) ts rest := by
  rw [← List.append_nil ps] at h
  refine h.replace h'.suffix (fun hm _ => h'.sound hm) ?_
  rintro _ rfl
  exact h'

theorem Reads.cons (hp : p.Reads ts m) (h : Reads ps m rest) : Reads (p :: ps) ts rest :=
  .inl ⟨m, hp, h⟩

theorem Reads.one (hp : p.Reads ts rest) : Reads [p] ts rest := .cons hp rfl

theorem Reads.word (h : Reads ps ts.tail rest) : Reads (.word t :: ps) ts rest := .cons rfl h

theorem Reads.sign (h : Reads ps ts.tail rest) : Reads (.sign t :: ps) ts rest := .cons rfl h

theorem Reads.space (h : Reads ps ts rest) : Reads (.space :: ps) ts rest := .cons rfl h

theorem Reads.func {i : Ident} (hi : ReadsIdent i ts m) (h : Reads ps m.tail rest) :
    Reads (.func i :: ps) ts rest := .cons ⟨m, hi, rfl⟩ h

end

/-- Parts that are only printed under a condition. -/
def partsIf (b : Bool) (ps : List Part) : List Part := if b then ps else []

def joinParts (sep : List Part) : List (List Part) → List Part
  | [] => []
  | [x] => x
  | x :: y :: ys => x ++ sep ++ joinParts sep (y :: ys)

def commaParts : List Part := [.sign .COMMA, .space]

def namesParts (is : List Ident) : List Part := joinParts commaParts (is.map fun i => [.name i])

def calledParts (o : Option Ident) : List Part := (o.map Part.called).toList

def TableName.parts (n : TableName) : List Part := .name n.name :: calledParts n.tableAlias

/-- Words, each behind a space. -/
def spacedParts (ws : List Token) : List Part := ws.flatMap fun t => [.space, .word t]

/-- Words, and a space behind the last one. -/
def paddedParts (ws : List Token) : List Part := spacedParts ws ++ [.space]

/-- The stream behind some words. -/
def behindWords : List Token → List Tok → List Tok
  | [], ts => ts
  | _ :: ws, ts => behindWords ws ts.tail

theorem Reads.spaced : ∀ {ws : List Token} {ts : List Tok},
    Reads (spacedParts ws) ts (behindWords ws ts)
  | [], _ => rfl
  | _ :: _, _ => .space (.word .spaced)

theorem Reads.padded {ws : List Token} {ts : List Tok} :
    Reads (paddedParts ws) ts (behindWords ws ts) :=
  spaced.append (.space rfl)

def directionParts (asc desc : Bool) : List Part :=
  if asc then spacedParts [.ASC] else partsIf desc (spacedParts [.DESC])

/-! ## Nodes -/

def sepParts : Kind → List Part
  | .block => [.space]
  | _ => commaParts

def groupParts (noGroup noHaving : Bool) (group having : List Part) : List Part :=
  if noGroup then [.check noHaving]
  else paddedParts [.GROUP, .BY] ++ group ++ partsIf (!noHaving) (paddedParts [.HAVING] ++ having)

def limitParts (noLimit noFetch noOffset : Bool) (limit fetch offset : List Part) : List Part :=
  if noLimit then
    if noOffset then [.check noFetch]
    else paddedParts [.OFFSET] ++ offset ++ spacedParts [.ROWS] ++
      partsIf (!noFetch) (paddedParts [.FETCH, .NEXT] ++ fetch ++ spacedParts [.ROWS, .ONLY])
  else paddedParts [.LIMIT] ++ limit ++ partsIf (!noOffset) (paddedParts [.OFFSET] ++ offset) ++
    [.check noFetch]

namespace Node

def parts : {k : Kind} → Node k → List Part
  | _, .absent => []
  | _, .present x => x.parts
  | _, .nil => []
  | _, @Node.cons k x xs => if xs.isNil then x.parts else x.parts ++ sepParts k ++ xs.parts
  | _, .ident i => [.name i]
  | _, .stringLit v => [.lit .STRING v]
  | _, .blobLit v => [.lit .BLOB v]
  | _, .numberLit v => [.lit .INTEGER v]
  | _, .nullLit => [.word .NULL]
  | _, .boolLit b => [.word (if b then .TRUE else .FALSE)]
  | _, .bindExpr name _ => [.lit .BIND name]
  | _, .unaryExpr op x => .unary op :: x.parts
  | _, .binaryExpr x op y => x.parts ++ .op op :: y.parts
  | _, .parenExpr x => .sign .LP :: x.parts ++ [.sign .RP]
  | _, .caseExpr operand blocks elseExpr =>
    .word .CASE :: partsIf (!operand.isAbsent) (.space :: operand.parts) ++
      partsIf (!blocks.isNil) (.space :: blocks.parts) ++
      partsIf (!elseExpr.isAbsent) (paddedParts [.ELSE] ++ elseExpr.parts) ++ spacedParts [.END]
  | _, .existsExpr not select =>
    partsIf not [.word .NOT, .space] ++ .word .EXISTS :: .space :: .sign .LP :: select.parts ++
      [.sign .RP]
  | _, .exprs xs => .sign .LP :: xs.parts ++ [.trailing .COMMA, .sign .RP]
  | _, .range x y => x.parts ++ paddedParts [.AND] ++ y.parts
  | _, .qualifiedRef tbl column => .name tbl ::
    match column with
    | none => [.star]
    | some c => [.column c]
  | _, .call name star distinct args filter =>
    .func name ::
      (if star then [.sign .STAR, .check args.isNil]
        else partsIf distinct (.word .DISTINCT :: partsIf (!args.isNil) [.space]) ++ args.parts ++
          [.trailing .COMMA]) ++
      .sign .RP :: partsIf (!filter.isAbsent)
        (paddedParts [.FILTER] ++ .sign .LP :: .word .WHERE :: .space :: filter.parts ++
          [.sign .RP])
  | _, .caseBlock condition body =>
    .word .WHEN :: .space :: condition.parts ++ paddedParts [.THEN] ++ body.parts
  | _, .resultColumn star x columnAlias =>
    if star then [.sign .STAR, .check (x.isAbsent && columnAlias.isNone)]
    else partsIf x.isAbsent [.unary .EOF] ++ x.parts ++ calledParts columnAlias
  | _, .orderingTerm x asc desc nullsFirst nullsLast =>
    x.parts ++ directionParts asc desc ++ (if nullsFirst then spacedParts [.NULLS, .FIRST]
      else partsIf nullsLast (spacedParts [.NULLS, .LAST]))
  | _, .table t => t.parts
  | _, .parenSource x tableAlias => .sign .LP :: x.parts ++ .sign .RP :: calledParts tableAlias
  | _, .joinClause x operator y constraint =>
    x.parts ++ .joinOp operator :: y.parts ++ .joined (constraint.isAbsent || !y.isJoin) ::
      partsIf (!constraint.isAbsent) (.space :: constraint.parts)
  | _, .selectSource s => s.parts
  | _, .onConstraint x => .mark .ON :: .space :: x.parts
  | _, .usingConstraint columns =>
    .mark .USING :: .space :: .sign .LP :: namesParts columns ++ [.sign .RP]
  | _, .selectStatement hint all distinct columns fromItems condition groupingElements
    havingCondition op compound orderBy limit fetch offset =>
    .word .SELECT :: .space :: (hint.map (Part.lit .MLCOMMENT)).toList ++
    (if all then [.word .ALL, .space] else partsIf distinct [.word .DISTINCT, .space]) ++
    columns.parts ++
    partsIf (!fromItems.isAbsent) (paddedParts [.FROM] ++ fromItems.parts) ++
    partsIf (!condition.isAbsent) (paddedParts [.WHERE] ++ condition.parts) ++
    groupParts groupingElements.isNil havingCondition.isAbsent groupingElements.parts
      havingCondition.parts ++
    partsIf (!compound.isAbsent) (paddedParts op.words ++ compound.parts) ++
    partsIf (!orderBy.isNil) (paddedParts [.ORDER, .BY] ++ orderBy.parts) ++
    limitParts limit.isAbsent fetch.isAbsent offset.isAbsent limit.parts fetch.parts offset.parts

variable {k : Kind}

theorem parts_of_isAbsent {o : Node (.opt k)} (h : o.isAbsent = true) : o.parts = [] := by
  cases o with
  | absent => rfl
  | present x => cases h

theorem parts_of_isNil {xs : Node (.list k)} (h : xs.isNil = true) : xs.parts = [] := by
  cases xs with
  | nil => rfl
  | cons y ys => cases h

end Node

/-! ## Statements -/

def optParts {k : Kind} (t : Token) : Option (Node k) → List Part
  | none => []
  | some x => paddedParts [t] ++ x.parts

def columnsParts : List Ident → List Part
  | [] => []
  | [c] => [.assigned c]
  | cs => .sign .LP :: namesParts cs ++ [.sign .RP]

def Assignment.parts (a : Assignment) : List Part := columnsParts a.columns ++ .op .EQ :: a.expr.parts

def IndexedColumn.parts (c : IndexedColumn) : List Part := c.x.parts ++ directionParts c.asc c.desc

def UpsertClause.parts (c : UpsertClause) : List Part :=
  .word .ON :: spacedParts [.CONFLICT] ++
  (if c.columns.isEmpty then [.check c.whereExpr.isNone]
    else .space :: .sign .LP :: joinParts commaParts (c.columns.map IndexedColumn.parts) ++
      .sign .RP :: optParts .WHERE c.whereExpr) ++
  spacedParts [.DO] ++
  (if c.doNothing then
    spacedParts [.NOTHING] ++ [.check (c.assignments.isEmpty && c.updateWhereExpr.isNone)]
    else paddedParts [.UPDATE, .SET] ++ joinParts commaParts (c.assignments.map Assignment.parts) ++
      optParts .WHERE c.updateWhereExpr)

def rowParts (row : Node (.list .expr)) : List Part :=
  .space :: .sign .LP :: row.parts ++ [.sign .RP]

/-- What is inserted: default values, rows or a query. -/
def bodyParts (defaultValues : Bool) (rows : List (Node (.list .expr)))
    (query : Option SelectStatement) : List Part :=
  if defaultValues then
    spacedParts [.DEFAULT, .VALUES] ++ [.check (rows.isEmpty && query.isNone)]
  else match query with
    | some q => .space :: q.parts ++ [.check rows.isEmpty]
    | none => spacedParts [.VALUES] ++ joinParts [.sign .COMMA] (rows.map rowParts)

def upsertParts : Option UpsertClause → List Part
  | none => []
  | some c => .space :: c.parts

def InsertStatement.parts (s : InsertStatement) : List Part :=
  .word .INSERT :: paddedParts [.INTO] ++ s.tableName.parts ++
  partsIf (!s.columnNames.isEmpty)
    (.space :: .sign .LP :: namesParts s.columnNames ++ [.sign .RP]) ++
  bodyParts s.defaultValues s.expressions s.query ++ upsertParts s.upsertClause ++
  optParts .RETURNING s.outputExpressions

def whereParts (condition : Option Expr) (cursorName : Option Ident) : List Part :=
  match condition with
  | some x => paddedParts [.WHERE] ++ x.parts ++ [.check cursorName.isNone]
  | none =>
    match cursorName with
    | some c => paddedParts [.WHERE, .CURRENT, .OF] ++ [.name c]
    | none => []

def UpdateStatement.parts (s : UpdateStatement) : List Part :=
  .word .UPDATE :: .space :: partsIf s.only [.word .ONLY, .space] ++ s.tableName.parts ++
  partsIf s.tableStar [.space, .sign .STAR] ++ calledParts s.tableAlias ++ paddedParts [.SET] ++
  joinParts commaParts (s.assignments.map Assignment.parts) ++ .check s.fromList.isEmpty ::
  whereParts s.condition s.cursorName ++ optParts .RETURNING s.outputExpressions

/-- The alias of a `DELETE`, where an `AS` may stand alone. -/
def deleteAliasParts : Option Ident → List Part
  | none => [.trailing .AS]
  | some i => [.called i]

def DeleteStatement.parts (s : DeleteStatement) : List Part :=
  .word .DELETE :: paddedParts [.FROM] ++ partsIf s.only [.word .ONLY, .space] ++
  s.tableName.parts ++ partsIf s.tableStar [.space, .sign .STAR] ++
  deleteAliasParts s.tableAlias ++ .check s.usingList.isEmpty ::
  whereParts s.condition s.cursorName ++ optParts .RETURNING s.outputExpressions

def Statement.parts : Statement → List Part
  | .select s => s.parts
  | .insert s => s.parts
  | .update s => s.parts
  | .delete s => s.parts

end Gofusion.Sqlparser
