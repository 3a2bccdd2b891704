import Gofusion.Sqlparser.Parts

/-!
# Statements up to their identifiers

The parser asks of an identifier only that it is one, and never for its name or its quotes.  Two
statements are alike when they differ in nothing else.  Then they have the same parts up to the
names, and the names decide which of them it is.
-/

namespace Gofusion.Sqlparser

/-! ## Other identifiers -/

section

variable (f g : Ident → Ident)

def TableName.mapIdents (n : TableName) : TableName := ⟨g n.name, n.tableAlias.map g⟩

def Assignment.mapIdents (a : Assignment) : Assignment := ⟨a.columns.map g, a.expr.mapIdents f g⟩

def IndexedColumn.mapIdents (c : IndexedColumn) : IndexedColumn :=
  { c with x := c.x.mapIdents f g }

def UpsertClause.mapIdents (c : UpsertClause) : UpsertClause :=
  { c with
    columns := c.columns.map (IndexedColumn.mapIdents f g)
    whereExpr := c.whereExpr.map (Node.mapIdents f g)
    assignments := c.assignments.map (Assignment.mapIdents f g)
    updateWhereExpr := c.updateWhereExpr.map (Node.mapIdents f g) }

def InsertStatement.mapIdents (s : InsertStatement) : InsertStatement :=
  { s with
    tableName := s.tableName.mapIdents g
    columnNames := s.columnNames.map g
    expressions := s.expressions.map (Node.mapIdents f g)
    query := s.query.map (Node.mapIdents f g)
    upsertClause := s.upsertClause.map (UpsertClause.mapIdents f g)
    outputExpressions := s.outputExpressions.map (Node.mapIdents f g) }

def UpdateStatement.mapIdents (s : UpdateStatement) : UpdateStatement :=
  { s with
    tableName := s.tableName.mapIdents g
    tableAlias := s.tableAlias.map g
    assignments := s.assignments.map (Assignment.mapIdents f g)
    fromList := s.fromList.map (TableName.mapIdents g)
    condition := s.condition.map (Node.mapIdents f g)
    cursorName := s.cursorName.map g
    outputExpressions := s.outputExpressions.map (Node.mapIdents f g) }

def DeleteStatement.mapIdents (s : DeleteStatement) : DeleteStatement :=
  { s with
    tableName := s.tableName.mapIdents g
    tableAlias := s.tableAlias.map g
    usingList := s.usingList.map (TableName.mapIdents g)
    condition := s.condition.map (Node.mapIdents f g)
    cursorName := s.cursorName.map g
    outputExpressions := s.outputExpressions.map (Node.mapIdents f g) }

/-- The statement with the identifiers changed, by `f` for the names of functions and by `g` for all
others. -/
def Statement.mapIdents : Statement → Statement
  | .select s => .select (s.mapIdents f g)
  | .insert s => .insert (s.mapIdents f g)
  | .update s => .update (s.mapIdents f g)
  | .delete s => .delete (s.mapIdents f g)

end

/-! ## Parts -/

section

variable {k : Kind} {f g : Ident → Ident} {ps : List Part} {b : Bool}

@[simp]
theorem Node.isAbsent_mapIdents (o : Node (.opt k)) : (o.mapIdents f g).isAbsent = o.isAbsent := by
  cases o <;> rfl

@[simp]
theorem Node.isNil_mapIdents (xs : Node (.list k)) : (xs.mapIdents f g).isNil = xs.isNil := by
  cases xs <;> rfl

@[simp]
theorem Node.isJoin_mapIdents (x : Source) : (x.mapIdents f g).isJoin = x.isJoin := by
  cases x <;> rfl

@[simp]
theorem map_partsIf {h : Part → Part} : (partsIf b ps).map h = partsIf b (ps.map h) := by
  cases b <;> rfl

@[simp]
theorem mapIdents_words (ws : List Token) :
    (spacedParts ws).map (Part.mapIdents f g) = spacedParts ws := by
  induction ws with
  | nil => rfl
  | cons t ws ih => exact congrArg (Part.space :: Part.word t :: ·) ih

@[simp]
theorem mapIdents_padded (ws : List Token) :
    (paddedParts ws).map (Part.mapIdents f g) = paddedParts ws := by
  simp [paddedParts, Part.mapIdents]

@[simp]
theorem mapIdents_called (o : Option Ident) :
    (calledParts o).map (Part.mapIdents f g) = calledParts (o.map g) := by
  cases o <;> rfl

theorem map_joinParts {h : Part → Part} {sep : List Part} (hsep : sep.map h = sep) :
    ∀ xs : List (List Part), (joinParts sep xs).map h = joinParts sep (xs.map (List.map h))
  | [] => rfl
  | [x] => rfl
  | x :: y :: ys => by
    have ih := map_joinParts hsep (y :: ys)
    simp_all [joinParts]

@[simp]
theorem mapIdents_names (is : List Ident) :
    (namesParts is).map (Part.mapIdents f g) = namesParts (is.map g) := by
  rw [namesParts, map_joinParts rfl, namesParts, List.map_map, List.map_map]
  rfl

theorem map_ite {c : Prop} [Decidable c] {qs : List Part} {h : Part → Part} :
    (if c then ps else qs).map h = if c then ps.map h else qs.map h := by
  split <;> rfl

theorem Node.parts_mapIdents (x : Node k) :
    (x.mapIdents f g).parts = x.parts.map (Part.mapIdents f g) := by
  induction x with
  | cons x xs ihx ihxs =>
    have hsep (k : Kind) : (sepParts k).map (Part.mapIdents f g) = sepParts k := by cases k <;> rfl
    simp_all [mapIdents, parts, map_ite]
  | qualifiedRef tbl column => cases column <;> rfl
  | selectStatement hint =>
    have hhint : (hint.map (Part.lit .MLCOMMENT)).toList.map (Part.mapIdents f g) =
        (hint.map (Part.lit .MLCOMMENT)).toList := by
      cases hint <;> rfl
    simp_all [mapIdents, parts, Part.mapIdents, groupParts, limitParts, map_ite]
  | _ =>
    simp_all [mapIdents, parts, Part.mapIdents, directionParts, map_ite, TableName.parts]

theorem Assignment.parts_mapIdents (a : Assignment) :
    (a.mapIdents f g).parts = a.parts.map (Part.mapIdents f g) := by
  have hcolumns (cs : List Ident) :
      (columnsParts cs).map (Part.mapIdents f g) = columnsParts (cs.map g) := by
    match cs with
    | [] => rfl
    | [c] => rfl
    | c :: d :: ds =>
      simp only [columnsParts, List.map_cons, List.cons_append, List.map_append, mapIdents_names]
      rfl
  simp [parts, mapIdents, hcolumns, Node.parts_mapIdents, Part.mapIdents]

theorem mapIdents_optParts (t : Token) (o : Option (Node k)) :
    (optParts t o).map (Part.mapIdents f g) = optParts t (o.map (Node.mapIdents f g)) := by
  cases o <;> simp [optParts, Node.parts_mapIdents]

theorem mapIdents_joinParts {α : Type} {p : α → List Part} {u : α → α} {sep : List Part}
    (hsep : sep.map (Part.mapIdents f g) = sep)
    (hu : ∀ x, p (u x) = (p x).map (Part.mapIdents f g)) (xs : List α) :
    (joinParts sep (xs.map p)).map (Part.mapIdents f g) = joinParts sep ((xs.map u).map p) := by
  simp [map_joinParts hsep, Function.comp_def, hu]

theorem UpsertClause.parts_mapIdents (c : UpsertClause) :
    (c.mapIdents f g).parts = c.parts.map (Part.mapIdents f g) := by
  have hcolumn (c : IndexedColumn) :
      (c.mapIdents f g).parts = c.parts.map (Part.mapIdents f g) := by
    cases ha : c.asc <;>
      simp [IndexedColumn.parts, IndexedColumn.mapIdents, directionParts, ha, Node.parts_mapIdents]
  have hcomma : commaParts.map (Part.mapIdents f g) = commaParts := rfl
  have hcolumns := mapIdents_joinParts hcomma hcolumn c.columns
  have hsets := mapIdents_joinParts hcomma Assignment.parts_mapIdents c.assignments
  cases hn : c.columns.isEmpty <;> cases hd : c.doNothing <;>
    simp_all [parts, mapIdents, Part.mapIdents, mapIdents_optParts]

theorem Statement.parts_mapIdents (a : Statement) :
    (a.mapIdents f g).parts = a.parts.map (Part.mapIdents f g) := by
  have hwhere (x : Option Expr) (c : Option Ident) : (whereParts x c).map (Part.mapIdents f g) =
      whereParts (x.map (Node.mapIdents f g)) (c.map g) := by
    cases x <;> cases c <;> simp [whereParts, Part.mapIdents, Node.parts_mapIdents]
  cases a with
  | select s => exact s.parts_mapIdents
  | insert s =>
    have hrow (row : Node (.list .expr)) :
        rowParts (row.mapIdents f g) = (rowParts row).map (Part.mapIdents f g) := by
      simp [rowParts, Part.mapIdents, Node.parts_mapIdents]
    have hcomma : [Part.sign .COMMA].map (Part.mapIdents f g) = [.sign .COMMA] := rfl
    have hrows := mapIdents_joinParts hcomma hrow s.expressions
    have hbody : (bodyParts s.defaultValues s.expressions s.query).map (Part.mapIdents f g) =
        bodyParts s.defaultValues (s.expressions.map (Node.mapIdents f g))
          (s.query.map (Node.mapIdents f g)) := by
      cases s.query <;> cases s.defaultValues <;>
        simp_all [bodyParts, Part.mapIdents, Node.parts_mapIdents]
    have hupsert (o : Option UpsertClause) : (upsertParts o).map (Part.mapIdents f g) =
        upsertParts (o.map (UpsertClause.mapIdents f g)) := by
      cases o <;> simp [upsertParts, Part.mapIdents, UpsertClause.parts_mapIdents]
    simp [parts, mapIdents, InsertStatement.parts, InsertStatement.mapIdents,
      TableName.parts, TableName.mapIdents, Part.mapIdents, hbody, hupsert, mapIdents_optParts]
  | update s =>
    have hcomma : commaParts.map (Part.mapIdents f g) = commaParts := rfl
    have hsets := mapIdents_joinParts hcomma Assignment.parts_mapIdents s.assignments
    simp_all [parts, mapIdents, UpdateStatement.parts,
      UpdateStatement.mapIdents, TableName.parts, TableName.mapIdents, Part.mapIdents,
      mapIdents_optParts]
  | delete s =>
    have halias (o : Option Ident) : (deleteAliasParts o).map (Part.mapIdents f g) =
        deleteAliasParts (o.map g) := by
      cases o <;> rfl
    simp [parts, mapIdents, DeleteStatement.parts, DeleteStatement.mapIdents,
      TableName.parts, TableName.mapIdents, Part.mapIdents, hwhere, halias, mapIdents_optParts]

end

theorem Node.mapIdents_mapIdents {k : Kind} (f g f' g' : Ident → Ident) (x : Node k) :
    (x.mapIdents f g).mapIdents f' g' = x.mapIdents (f' ∘ f) (g' ∘ g) := by
  induction x with
  | _ => simp_all [mapIdents]

theorem Statement.mapIdents_mapIdents (f g f' g' : Ident → Ident) (a : Statement) :
    (a.mapIdents f g).mapIdents f' g' = a.mapIdents (f' ∘ f) (g' ∘ g) := by
  have hnode {k : Kind} : (Node.mapIdents f' g' ∘ Node.mapIdents f g : Node k → Node k) =
      Node.mapIdents (f' ∘ f) (g' ∘ g) := funext (Node.mapIdents_mapIdents f g f' g')
  have hname : TableName.mapIdents g' ∘ TableName.mapIdents g = TableName.mapIdents (g' ∘ g) := by
    funext n
    simp [TableName.mapIdents]
  have hassign : Assignment.mapIdents f' g' ∘ Assignment.mapIdents f g =
      Assignment.mapIdents (f' ∘ f) (g' ∘ g) := by
    funext a
    simp [Assignment.mapIdents, Node.mapIdents_mapIdents]
  have hcolumn : IndexedColumn.mapIdents f' g' ∘ IndexedColumn.mapIdents f g =
      IndexedColumn.mapIdents (f' ∘ f) (g' ∘ g) := by
    funext c
    simp [IndexedColumn.mapIdents, Node.mapIdents_mapIdents]
  have hupsert : UpsertClause.mapIdents f' g' ∘ UpsertClause.mapIdents f g =
      UpsertClause.mapIdents (f' ∘ f) (g' ∘ g) := by
    funext c
    simp [UpsertClause.mapIdents, hnode, hassign, hcolumn]
  cases a with
  | select s => exact congrArg Statement.select (s.mapIdents_mapIdents f g f' g')
  | insert s =>
    simp [mapIdents, InsertStatement.mapIdents, TableName.mapIdents, hnode, hupsert]
  | update s =>
    simp [mapIdents, UpdateStatement.mapIdents, TableName.mapIdents, hnode, hassign, hname]
  | delete s =>
    simp [mapIdents, DeleteStatement.mapIdents, TableName.mapIdents, hnode, hname]

/-! ## Shapes -/

/-- An identifier without its name and quotes. -/
def Ident.blank (_ : Ident) : Ident := ⟨[], none⟩

/-- The node without the names and quotes of its identifiers. -/
def Node.shape {k : Kind} (x : Node k) : Node k := x.mapIdents Ident.blank Ident.blank

/-- The nodes differ in their identifiers only. -/
def Node.Alike {k : Kind} (x y : Node k) : Prop := x.shape = y.shape

def Statement.shape (a : Statement) : Statement := a.mapIdents Ident.blank Ident.blank

/-- The statements differ in their identifiers only. -/
def Statement.Alike (a b : Statement) : Prop := a.shape = b.shape

end Gofusion.Sqlparser
