import Gofusion.Sqlparser.Shape
import Mathlib.Data.Option.Defs

/-!
# Statements with a renamed table

`a.Renamed table names b` says that `b` is `a` with some of the names of one table
replaced: a source that goes by the name `table`, and a qualifier `table` of a column,
may have become one of `names`.
-/

namespace Gofusion.Sqlparser

/-! ## The relation -/

/-- A source has got another name. -/
def TableName.Renamed (table : Text) (names : List Text) (n n' : TableName) : Prop :=
  n'.tableAlias = n.tableAlias ∧
    (n'.name = n.name ∨ n.tableName = table ∧ n'.name.name ∈ names ∧
      (n'.name.quote = n.name.quote ∨ n'.name.quote = none))

/-- A qualifier of a column has got another name. -/
def Ident.Renamed (table : Text) (names : List Text) (i i' : Ident) : Prop :=
  i' = i ∨ i.name = table ∧ i'.name ∈ names ∧ i'.quote = i.quote

inductive Node.Renamed (table : Text) (names : List Text) : {k : Kind} → Node k → Node k → Prop
  | refl {k : Kind} (x : Node k) : x.Renamed table names x
  | present {k : Kind} {x x' : Node k} : x.Renamed table names x' →
    (Node.present x).Renamed table names (.present x')
  | cons {k : Kind} {x x' : Node k} {xs xs' : Node (.list k)} : x.Renamed table names x' →
    xs.Renamed table names xs' → (Node.cons x xs).Renamed table names (.cons x' xs')
  | unaryExpr {op : Token} {x x' : Expr} : x.Renamed table names x' →
    (Node.unaryExpr op x).Renamed table names (.unaryExpr op x')
  | binaryExpr {x x' y y' : Expr} {op : Token} : x.Renamed table names x' →
    y.Renamed table names y' →
    (Node.binaryExpr x op y).Renamed table names (.binaryExpr x' op y')
  | parenExpr {x x' : Expr} : x.Renamed table names x' →
    (Node.parenExpr x).Renamed table names (.parenExpr x')
  | caseExpr {operand operand' elseExpr elseExpr' : Node (.opt .expr)}
    {blocks blocks' : Node (.list .block)} : operand.Renamed table names operand' →
    blocks.Renamed table names blocks' → elseExpr.Renamed table names elseExpr' →
    (Node.caseExpr operand blocks elseExpr).Renamed table names
      (.caseExpr operand' blocks' elseExpr')
  | existsExpr {not : Bool} {s s' : SelectStatement} : s.Renamed table names s' →
    (Node.existsExpr not s).Renamed table names (.existsExpr not s')
  | exprs {xs xs' : Node (.list .expr)} : xs.Renamed table names xs' →
    (Node.exprs xs).Renamed table names (.exprs xs')
  | range {x x' y y' : Expr} : x.Renamed table names x' → y.Renamed table names y' →
    (Node.range x y).Renamed table names (.range x' y')
  | qualifiedRef {tbl tbl' : Ident} {column : Option Ident} : tbl.Renamed table names tbl' →
    (Node.qualifiedRef tbl column).Renamed table names (.qualifiedRef tbl' column)
  | call {name : Ident} {star distinct : Bool} {args args' : Node (.list .expr)}
    {filter filter' : Node (.opt .expr)} : args.Renamed table names args' →
    filter.Renamed table names filter' →
    (Node.call name star distinct args filter).Renamed table names
      (.call name star distinct args' filter')
  | caseBlock {x x' y y' : Expr} : x.Renamed table names x' → y.Renamed table names y' →
    (Node.caseBlock x y).Renamed table names (.caseBlock x' y')
  | resultColumn {star : Bool} {x x' : Node (.opt .expr)} {columnAlias : Option Ident} :
    x.Renamed table names x' →
    (Node.resultColumn star x columnAlias).Renamed table names (.resultColumn star x' columnAlias)
  | orderingTerm {x x' : Expr} {asc desc nullsFirst nullsLast : Bool} : x.Renamed table names x' →
    (Node.orderingTerm x asc desc nullsFirst nullsLast).Renamed table names
      (.orderingTerm x' asc desc nullsFirst nullsLast)
  | table {n n' : TableName} : n.Renamed table names n' →
    (Node.table n).Renamed table names (.table n')
  | parenSource {x x' : Source} {tableAlias : Option Ident} : x.Renamed table names x' →
    (Node.parenSource x tableAlias).Renamed table names (.parenSource x' tableAlias)
  | joinClause {x x' y y' : Source} {operator : JoinOperator}
    {constraint constraint' : Node (.opt .constraint)} : x.Renamed table names x' →
    y.Renamed table names y' → constraint.Renamed table names constraint' →
    (Node.joinClause x operator y constraint).Renamed table names
      (.joinClause x' operator y' constraint')
  | selectSource {s s' : SelectStatement} : s.Renamed table names s' →
    (Node.selectSource s).Renamed table names (.selectSource s')
  | onConstraint {x x' : Expr} : x.Renamed table names x' →
    (Node.onConstraint x).Renamed table names (.onConstraint x')
  | selectStatement {hint : Option Text} {all distinct : Bool} {columns columns' : OutputNames}
    {fromItems fromItems' : Node (.opt .source)} {condition condition' : Node (.opt .expr)}
    {groupingElements groupingElements' : Node (.list .expr)}
    {havingCondition havingCondition' : Node (.opt .expr)} {op : CompoundOp}
    {compound compound' : Node (.opt .select)} {orderBy orderBy' : Node (.list .term)}
    {limit limit' fetch fetch' offset offset' : Node (.opt .expr)} :
    columns.Renamed table names columns' → fromItems.Renamed table names fromItems' →
    condition.Renamed table names condition' →
    groupingElements.Renamed table names groupingElements' →
    havingCondition.Renamed table names havingCondition' →
    compound.Renamed table names compound' → orderBy.Renamed table names orderBy' →
    limit.Renamed table names limit' → fetch.Renamed table names fetch' →
    offset.Renamed table names offset' →
    (Node.selectStatement hint all distinct columns fromItems condition groupingElements
      havingCondition op compound orderBy limit fetch offset).Renamed table names
      (.selectStatement hint all distinct columns' fromItems' condition' groupingElements'
        havingCondition' op compound' orderBy' limit' fetch' offset')

/-- The statement has got another name for its table.  Only the parts a condition reads
can change besides the target. -/
def Statement.Renamed (table : Text) (names : List Text) : Statement → Statement → Prop
  | .select a, .select b => Node.Renamed table names a b
  | .insert a, .insert b =>
    a.tableName.Renamed table names b.tableName ∧ b = { a with tableName := b.tableName }
  | .update a, .update b =>
    a.tableName.Renamed table names b.tableName ∧
    Option.Rel (Node.Renamed table names) a.condition b.condition ∧
    b = { a with tableName := b.tableName, condition := b.condition }
  | .delete a, .delete b =>
    a.tableName.Renamed table names b.tableName ∧
    Option.Rel (Node.Renamed table names) a.condition b.condition ∧
    b = { a with tableName := b.tableName, condition := b.condition }
  | _, _ => False

section

variable {table : Text} {names : List Text}

/-! ## Inversion -/

theorem Node.Renamed.present_inv {k : Kind} {x x' : Node k}
    (h : (Node.present x).Renamed table names (.present x')) : x.Renamed table names x' := by
  cases h with
  | refl => exact .refl _
  | present h => exact h

theorem Node.Renamed.table_inv {n n' : TableName}
    (h : (Node.table n).Renamed table names (.table n')) : n.Renamed table names n' := by
  cases h with
  | refl => exact ⟨rfl, .inl rfl⟩
  | table h => exact h

theorem Node.Renamed.selectStatement_inv {hint hint' : Option Text}
    {all all' distinct distinct' : Bool} {columns columns' : OutputNames}
    {fromItems fromItems' : Node (.opt .source)} {condition condition' : Node (.opt .expr)}
    {groupingElements groupingElements' : Node (.list .expr)}
    {havingCondition havingCondition' : Node (.opt .expr)} {op op' : CompoundOp}
    {compound compound' : Node (.opt .select)} {orderBy orderBy' : Node (.list .term)}
    {limit limit' fetch fetch' offset offset' : Node (.opt .expr)}
    (h : (Node.selectStatement hint all distinct columns fromItems condition groupingElements
      havingCondition op compound orderBy limit fetch offset).Renamed table names
      (.selectStatement hint' all' distinct' columns' fromItems' condition' groupingElements'
        havingCondition' op' compound' orderBy' limit' fetch' offset')) :
    fromItems.Renamed table names fromItems' ∧ compound.Renamed table names compound' := by
  cases h with
  | refl => exact ⟨.refl _, .refl _⟩
  | selectStatement _ hfrom _ _ _ hcompound => exact ⟨hfrom, hcompound⟩

/-! ## Shape -/

theorem TableName.Renamed.alike {n n' : TableName} (h : n.Renamed table names n') :
    n.mapIdents Ident.blank = n'.mapIdents Ident.blank := by
  rw [TableName.mapIdents, TableName.mapIdents, h.1]
  rfl

/-- Renaming keeps the shape. -/
theorem Node.Renamed.alike {k : Kind} {x x' : Node k} (h : x.Renamed table names x') :
    x.Alike x' := by
  induction h with
  | refl x => rfl
  | table h => exact congrArg Node.table h.alike
  | selectStatement _ _ _ _ _ _ _ _ _ _ h₁ h₂ h₃ h₄ h₅ h₆ h₇ h₈ h₉ h₁₀ =>
    unfold Node.Alike Node.shape at *
    simp only [Node.mapIdents, h₁, h₂, h₃, h₄, h₅, h₆, h₇, h₈, h₉, h₁₀]
  | qualifiedRef h => rfl
  | _ =>
    unfold Node.Alike Node.shape at *
    simp only [Node.mapIdents, *]

theorem Statement.Renamed.alike {a b : Statement} (h : a.Renamed table names b) : a.Alike b := by
  have hopt {o o' : Option Expr} (h : Option.Rel (Node.Renamed table names) o o') :
      o.map (Node.mapIdents Ident.blank Ident.blank) =
        o'.map (Node.mapIdents Ident.blank Ident.blank) := by
    cases h with
    | none => rfl
    | some h => exact congrArg some h.alike
  cases a <;> cases b
  case select.select => exact congrArg Statement.select (Node.Renamed.alike h)
  case insert.insert a b =>
    obtain ⟨hn, hb⟩ := h
    rw [hb]
    simp [Statement.Alike, Statement.shape, Statement.mapIdents, InsertStatement.mapIdents, hn.alike]
  case update.update a b =>
    obtain ⟨hn, hc, hb⟩ := h
    rw [hb]
    simp [Statement.Alike, Statement.shape, Statement.mapIdents, UpdateStatement.mapIdents,
      hn.alike, hopt hc]
  case delete.delete a b =>
    obtain ⟨hn, hc, hb⟩ := h
    rw [hb]
    simp [Statement.Alike, Statement.shape, Statement.mapIdents, DeleteStatement.mapIdents,
      hn.alike, hopt hc]
  all_goals exact h.elim

end

end Gofusion.Sqlparser
