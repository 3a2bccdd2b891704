import Gofusion.Sqlparser.Ast

/-!
# Walking the syntax tree

`common/utils/sqlparser/walk.go`, for visitors of type `VisitFunc`: they see a node
before its children and stop the walk with an error.  The state they keep in
captured variables is passed along.

A `JoinOperator` and a `FilterClause` are no nodes here.  No visitor of the
repository looks at one.
-/

namespace Gofusion.Sqlparser

/-- A `VisitFunc` with its state. -/
abbrev VisitFunc (σ ε : Type) := {k : Kind} → Node k → σ → Except ε σ

section

variable {σ ε : Type}

/-- `walkIdent` and `walkIdentList`. -/
def walkIdents (v : VisitFunc σ ε) : List Ident → σ → Except ε σ
  | [], s => .ok s
  | i :: is, s => do
    let s ← v (.ident i) s
    walkIdents v is s

def Node.walk (v : VisitFunc σ ε) : {k : Kind} → Node k → σ → Except ε σ
  | _, .absent, s => .ok s
  | _, .present x, s => x.walk v s
  | _, .nil, s => .ok s
  | _, .cons x xs, s => do
    let s ← x.walk v s
    xs.walk v s
  | _, .ident i, s => v (.ident i) s
  | _, .stringLit w, s => v (.stringLit w) s
  | _, .blobLit w, s => v (.blobLit w) s
  | _, .numberLit w, s => v (.numberLit w) s
  | _, .nullLit, s => v .nullLit s
  | _, .boolLit b, s => v (.boolLit b) s
  | _, .bindExpr name pos, s => v (.bindExpr name pos) s
  | _, .unaryExpr op x, s => do
    let s ← v (.unaryExpr op x) s
    x.walk v s
  | _, .binaryExpr x op y, s => do
    let s ← v (.binaryExpr x op y) s
    let s ← x.walk v s
    y.walk v s
  | _, .parenExpr x, s => do
    let s ← v (.parenExpr x) s
    x.walk v s
  | _, .caseExpr operand blocks elseExpr, s => do
    let s ← v (.caseExpr operand blocks elseExpr) s
    let s ← operand.walk v s
    let s ← blocks.walk v s
    elseExpr.walk v s
  | _, .existsExpr not select, s => do
    let s ← v (.existsExpr not select) s
    select.walk v s
  | _, .exprs xs, s => do
    let s ← v (.exprs xs) s
    xs.walk v s
  | _, .range x y, s => do
    let s ← v (.range x y) s
    let s ← x.walk v s
    y.walk v s
  | _, .qualifiedRef tbl column, s => do
    let s ← v (.qualifiedRef tbl column) s
    walkIdents v (tbl :: column.toList) s
  | _, .call name star distinct args filter, s => do
    let s ← v (.call name star distinct args filter) s
    let s ← walkIdents v [name] s
    let s ← args.walk v s
    filter.walk v s
  | _, .caseBlock condition body, s => do
    let s ← v (.caseBlock condition body) s
    let s ← condition.walk v s
    body.walk v s
  | _, .resultColumn star x columnAlias, s => do
    let s ← v (.resultColumn star x columnAlias) s
    let s ← x.walk v s
    walkIdents v columnAlias.toList s
  | _, .orderingTerm x asc desc nullsFirst nullsLast, s => do
    let s ← v (.orderingTerm x asc desc nullsFirst nullsLast) s
    x.walk v s
  | _, .table t, s => do
    let s ← v (.table t) s
    walkIdents v (t.name :: t.tableAlias.toList) s
  | _, .parenSource x tableAlias, s => do
    let s ← v (.parenSource x tableAlias) s
    let s ← x.walk v s
    walkIdents v tableAlias.toList s
  | _, .joinClause x operator y constraint, s => do
    let s ← v (.joinClause x operator y constraint) s
    let s ← x.walk v s
    let s ← y.walk v s
    constraint.walk v s
  | _, .selectSource x, s => x.walk v s
  | _, .onConstraint x, s => do
    let s ← v (.onConstraint x) s
    x.walk v s
  | _, .usingConstraint columns, s => do
    let s ← v (.usingConstraint columns) s
    walkIdents v columns s
  | _, .selectStatement hint all distinct columns fromItems condition groupingElements
    havingCondition op compound orderBy limit fetch offset, s => do
    let s ← v (.selectStatement hint all distinct columns fromItems condition groupingElements
      havingCondition op compound orderBy limit fetch offset) s
    let s ← v columns s
    let s ← fromItems.walk v s
    let s ← condition.walk v s
    let s ← groupingElements.walk v s
    let s ← havingCondition.walk v s
    let s ← compound.walk v s
    let s ← orderBy.walk v s
    let s ← limit.walk v s
    offset.walk v s

end

/-! ## Visitors of binary expressions -/

/-- A binary expression: its operands and its operator. -/
structure Binary where
  x : Expr
  op : Token
  y : Expr
deriving DecidableEq

/-- The node, if it is a `BinaryExpr`. -/
def Node.asBinary? : {k : Kind} → Node k → Option Binary
  | _, .binaryExpr x op y => some ⟨x, op, y⟩
  | _, _ => none

/-- The binary expressions the walk visits, in its order. -/
def Node.binaries : {k : Kind} → Node k → List Binary
  | _, .absent => []
  | _, .present x => x.binaries
  | _, .nil => []
  | _, .cons x xs => x.binaries ++ xs.binaries
  | _, .unaryExpr _ x => x.binaries
  | _, .binaryExpr x op y => ⟨x, op, y⟩ :: (x.binaries ++ y.binaries)
  | _, .parenExpr x => x.binaries
  | _, .caseExpr operand blocks elseExpr =>
    operand.binaries ++ (blocks.binaries ++ elseExpr.binaries)
  | _, .existsExpr _ select => select.binaries
  | _, .exprs xs => xs.binaries
  | _, .range x y => x.binaries ++ y.binaries
  | _, .call _ _ _ args filter => args.binaries ++ filter.binaries
  | _, .caseBlock condition body => condition.binaries ++ body.binaries
  | _, .resultColumn _ x _ => x.binaries
  | _, .orderingTerm x _ _ _ _ => x.binaries
  | _, .parenSource x _ => x.binaries
  | _, .joinClause x _ y constraint => x.binaries ++ (y.binaries ++ constraint.binaries)
  | _, .selectSource x => x.binaries
  | _, .onConstraint x => x.binaries
  | _, .selectStatement _ _ _ _ fromItems condition groupingElements havingCondition _ compound
    orderBy limit _ offset =>
    fromItems.binaries ++ (condition.binaries ++ (groupingElements.binaries ++
      (havingCondition.binaries ++ (compound.binaries ++ (orderBy.binaries ++
        (limit.binaries ++ offset.binaries))))))
  | _, _ => []

/-- A visitor that only looks at binary expressions. -/
def visitBinary {σ ε : Type} (f : σ → Binary → Except ε σ) : VisitFunc σ ε := fun x s =>
  match x.asBinary? with
  | some b => f s b
  | none => .ok s

section

variable {σ ε : Type} (f : σ → Binary → Except ε σ)

theorem walkIdents_visitBinary : ∀ (is : List Ident) (s : σ),
    walkIdents (visitBinary f) is s = .ok s
  | [], _ => rfl
  | _ :: is, s => walkIdents_visitBinary is s

/-- The walk of a visitor of binary expressions steps through them. -/
theorem Node.walk_visitBinary : ∀ {k : Kind} (x : Node k) (s : σ),
    x.walk (visitBinary f) s = x.binaries.foldlM f s := by
  have hok : ∀ (s : σ) (g : σ → Except ε σ), (Except.ok s >>= g) = g s := fun _ _ => rfl
  have hpure : ∀ s : σ, (pure s : Except ε σ) = .ok s := fun _ => rfl
  have hend : ∀ r : Except ε σ, (r >>= fun s => .ok s) = r := fun r => bind_pure r
  intro k x
  induction x with
  | binaryExpr x op y ihx ihy =>
    intro s
    simp only [walk, binaries, List.foldlM_cons, List.foldlM_append, ihx, ihy]
    rfl
  | _ =>
    -- Every other node is skipped by the visitor, and its children are walked in order.
    intro s
    simp only [walk, binaries, visitBinary, asBinary?, walkIdents_visitBinary,
      List.foldlM_append, List.foldlM_nil, *]

end

end Gofusion.Sqlparser
