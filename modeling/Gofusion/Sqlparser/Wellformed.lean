import Gofusion.Sqlparser.Simulation.Statement
import Mathlib.Tactic.SplitIfs

/-!
# Well-formed statements

The leaves of a parsed statement are literals of tokens, so they have the form the
lexer gives them.  What the parser reads from well-formed tokens has sound parts, and the
statement is well formed when they are.
-/

namespace Gofusion.Sqlparser

/-- A node as the parser makes it: every leaf is one the lexer can return, a unary
operator is a sign and a column is a star or has an expression. -/
def Node.Wf : {k : Kind} → Node k → Prop
  | _, .absent => True
  | _, .present x => x.Wf
  | _, .nil => True
  | _, .cons x xs => x.Wf ∧ xs.Wf
  | _, .ident i => i.Wf
  | _, .stringLit _ => True
  | _, .blobLit v => v.all isHex = true
  | _, .numberLit v => Numeral v
  | _, .nullLit => True
  | _, .boolLit _ => True
  | _, .bindExpr name _ => BindWf name
  | _, .unaryExpr op x => (op = .PLUS ∨ op = .MINUS) ∧ x.Wf
  | _, .binaryExpr x _ y => x.Wf ∧ y.Wf
  | _, .parenExpr x => x.Wf
  | _, .caseExpr operand blocks elseExpr => operand.Wf ∧ blocks.Wf ∧ elseExpr.Wf
  | _, .existsExpr _ select => select.Wf
  | _, .exprs xs => xs.Wf
  | _, .range x y => x.Wf ∧ y.Wf
  | _, .qualifiedRef tbl column => tbl.Wf ∧ ∀ c ∈ column, c.Wf
  | _, .call _ _ _ args filter => args.Wf ∧ filter.Wf
  | _, .caseBlock condition body => condition.Wf ∧ body.Wf
  | _, .resultColumn star x columnAlias =>
    (star = true ∨ x.isAbsent = false) ∧ x.Wf ∧ ∀ c ∈ columnAlias, c.Wf
  | _, .orderingTerm x _ _ _ _ => x.Wf
  | _, .table t => t.name.Wf ∧ ∀ c ∈ t.tableAlias, c.Wf
  | _, .parenSource x tableAlias => x.Wf ∧ ∀ c ∈ tableAlias, c.Wf
  | _, .joinClause x _ y constraint => x.Wf ∧ y.Wf ∧ constraint.Wf
  | _, .selectSource s => s.Wf
  | _, .onConstraint x => x.Wf
  | _, .usingConstraint columns => ∀ c ∈ columns, c.Wf
  | _, .selectStatement hint _ _ columns fromItems condition groupingElements havingCondition _
    compound orderBy limit fetch offset =>
    (∀ v ∈ hint, HintWf v) ∧ columns.Wf ∧ fromItems.Wf ∧ condition.Wf ∧ groupingElements.Wf ∧
    havingCondition.Wf ∧ compound.Wf ∧ orderBy.Wf ∧ limit.Wf ∧ fetch.Wf ∧ offset.Wf

def TableName.Wf (n : TableName) : Prop := n.name.Wf ∧ ∀ c ∈ n.tableAlias, c.Wf

def Assignment.Wf (a : Assignment) : Prop := (∀ c ∈ a.columns, c.Wf) ∧ a.expr.Wf

def UpsertClause.Wf (c : UpsertClause) : Prop :=
  (∀ x ∈ c.columns, x.x.Wf) ∧ (∀ x ∈ c.whereExpr, x.Wf) ∧ (∀ a ∈ c.assignments, a.Wf) ∧
  ∀ x ∈ c.updateWhereExpr, x.Wf

def InsertStatement.Wf (s : InsertStatement) : Prop :=
  s.tableName.Wf ∧ (∀ c ∈ s.columnNames, c.Wf) ∧ (∀ row ∈ s.expressions, row.Wf) ∧
  (∀ q ∈ s.query, q.Wf) ∧ (∀ c ∈ s.upsertClause, c.Wf) ∧ ∀ o ∈ s.outputExpressions, o.Wf

def UpdateStatement.Wf (s : UpdateStatement) : Prop :=
  s.tableName.Wf ∧ (∀ c ∈ s.tableAlias, c.Wf) ∧ (∀ a ∈ s.assignments, a.Wf) ∧
  (∀ n ∈ s.fromList, n.Wf) ∧ (∀ x ∈ s.condition, x.Wf) ∧ (∀ c ∈ s.cursorName, c.Wf) ∧
  ∀ o ∈ s.outputExpressions, o.Wf

def DeleteStatement.Wf (s : DeleteStatement) : Prop :=
  s.tableName.Wf ∧ (∀ c ∈ s.tableAlias, c.Wf) ∧ (∀ n ∈ s.usingList, n.Wf) ∧
  (∀ x ∈ s.condition, x.Wf) ∧ (∀ c ∈ s.cursorName, c.Wf) ∧ ∀ o ∈ s.outputExpressions, o.Wf

/-- Every leaf of a statement is one the lexer can return. -/
def Statement.Wf : Statement → Prop
  | .select s => s.Wf
  | .insert s => s.Wf
  | .update s => s.Wf
  | .delete s => s.Wf

/-! ## Properties of all parts -/

/-- Every part of a row has the property. -/
def All (P : Part → Prop) (ps : List Part) : Prop := ∀ p ∈ ps, P p

/-- A property that words, signs and spaces have, and names wherever they stand. -/
class Plain (P : Part → Prop) : Prop where
  word : ∀ t, P (.word t)
  sign : ∀ t, P (.sign t)
  space : P .space
  called : ∀ i, P (.called i) ↔ P (.name i)
  assigned : ∀ i, P (.assigned i) ↔ P (.name i)

/-- A property that only checks that hold have. -/
class Strict (P : Part → Prop) : Prop extends Plain P where
  check : ∀ b, P (.check b) ↔ b = true

/-- A property that every check has. -/
class Loose (P : Part → Prop) : Prop extends Plain P where
  check : ∀ b, P (.check b)
  assign : P (.op .EQ)
  trailing : ∀ t, P (.trailing t)

section

variable {P : Part → Prop} {b : Bool} {p : Part} {ps qs sep : List Part}

@[simp]
theorem all_nil : All P [] := nofun

@[simp]
theorem all_cons : All P (p :: ps) ↔ P p ∧ All P ps := List.forall_mem_cons

@[simp]
theorem all_append : All P (ps ++ qs) ↔ All P ps ∧ All P qs := List.forall_mem_append

@[simp]
theorem all_option {α : Type} {f : α → Part} (o : Option α) :
    All P (o.map f).toList ↔ ∀ x ∈ o, P (f x) := by
  cases o <;> simp

@[simp]
theorem all_partsIf : All P (partsIf b ps) ↔ (b = true → All P ps) := by
  cases b <;> simp [partsIf]

theorem all_ite {c : Prop} [Decidable c] :
    All P (if c then ps else qs) ↔ if c then All P ps else All P qs := by
  split <;> rfl

variable {k : Kind} {xs : Node (.list k)}

theorem all_of_isAbsent {o : Node (.opt k)} (h : o.isAbsent = true) : All P o.parts := by
  rw [Node.parts_of_isAbsent h]
  exact all_nil

theorem all_of_isNil (h : xs.isNil = true) : All P xs.parts := by
  rw [Node.parts_of_isNil h]
  exact all_nil

@[simp]
theorem all_isAbsent (o : Node (.opt k)) :
    (o.isAbsent = false → All P o.parts) ↔ All P o.parts := by
  cases o <;> simp [Node.isAbsent, Node.parts]

@[simp]
theorem all_isNil (xs : Node (.list k)) :
    (xs.isNil = false → All P xs.parts) ↔ All P xs.parts := by
  cases xs <;> simp [Node.isNil, Node.parts]

theorem all_joinParts (hsep : All P sep) : ∀ xs : List (List Part),
    All P (joinParts sep xs) ↔ ∀ x ∈ xs, All P x
  | [] => by simp [joinParts]
  | [x] => by simp [joinParts]
  | x :: y :: ys => by simp [joinParts, hsep, all_joinParts hsep (y :: ys)]

variable [Plain P]

@[simp]
theorem all_spaced (ws : List Token) : All P (spacedParts ws) := by
  induction ws with
  | nil => exact all_nil
  | cons t ws ih => exact all_cons.mpr ⟨Plain.space, all_cons.mpr ⟨Plain.word t, ih⟩⟩

@[simp]
theorem all_padded (ws : List Token) : All P (paddedParts ws) :=
  all_append.mpr ⟨all_spaced ws, all_cons.mpr ⟨Plain.space, all_nil⟩⟩

@[simp]
theorem all_commaParts : All P commaParts :=
  all_cons.mpr ⟨Plain.sign _, all_cons.mpr ⟨Plain.space, all_nil⟩⟩

@[simp]
theorem all_nodes {x : Node k} :
    All P (Node.cons x xs).parts ↔ All P x.parts ∧ All P xs.parts := by
  have hsep : All P (sepParts k) := by
    unfold sepParts
    split
    · exact all_cons.mpr ⟨Plain.space, all_nil⟩
    · exact all_commaParts
  rw [Node.parts]
  split
  · cases xs with
    | nil => simp [Node.parts]
    | cons y ys => cases ‹(Node.cons y ys).isNil = true›
  · simp [hsep]

@[simp]
theorem all_names (is : List Ident) : All P (namesParts is) ↔ ∀ i ∈ is, P (.name i) := by
  simp [namesParts, all_joinParts]

@[simp]
theorem all_called (o : Option Ident) : All P (calledParts o) ↔ ∀ i ∈ o, P (.name i) := by
  cases o <;> simp [calledParts, Plain.called]

@[simp]
theorem all_columns (cs : List Ident) : All P (columnsParts cs) ↔ ∀ c ∈ cs, P (.name c) := by
  match cs with
  | [] => simp [columnsParts]
  | [c] => simp [columnsParts, Plain.assigned]
  | c :: d :: ds => simp [columnsParts, Plain.sign]

@[simp]
theorem all_optParts (t : Token) (o : Option (Node k)) :
    All P (optParts t o) ↔ ∀ x ∈ o, All P x.parts := by
  cases o <;> simp [optParts]

@[simp]
theorem all_direction (asc desc : Bool) : All P (directionParts asc desc) := by
  cases asc <;> cases desc <;> simp [directionParts]

end

section

variable {P : Part → Prop} [Strict P]

/-! What has only checked parts has nothing else. -/

variable {distinct star : Bool}

theorem all_of_call {name : Ident} {args : Node (.list .expr)} {filter : Node (.opt .expr)}
    (h : All P (Node.call name star distinct args filter).parts) :
    P (.func name) ∧ All P args.parts ∧ All P filter.parts := by
  cases star with
  | true =>
    simp [Node.parts, Plain.word, Plain.sign, Plain.space, Strict.check] at h
    exact ⟨h.1, all_of_isNil h.2.1, h.2.2⟩
  | false =>
    simp [Node.parts, Plain.word, Plain.sign, Plain.space] at h
    exact ⟨h.1, h.2.1, h.2.2.2⟩

theorem all_of_column {x : Node (.opt .expr)} {columnAlias : Option Ident}
    (h : All P (Node.resultColumn star x columnAlias).parts) :
    (star = true ∨ (x.isAbsent = true → P (.unary .EOF))) ∧ All P x.parts ∧
      ∀ c ∈ columnAlias, P (.name c) := by
  cases star with
  | true =>
    simp [Node.parts, Plain.sign, Strict.check] at h
    simp [h.2, all_of_isAbsent h.1]
  | false => simpa [Node.parts] using h

theorem all_of_select {hint : Option Text} {all : Bool} {columns : Node (.list .column)}
    {fromItems : Node (.opt .source)} {condition having limit fetch offset : Node (.opt .expr)}
    {group : Node (.list .expr)} {op : CompoundOp} {compound : Node (.opt .select)}
    {orderBy : Node (.list .term)}
    (h : All P (Node.selectStatement hint all distinct columns fromItems
      condition group having op compound orderBy limit fetch offset).parts) :
    (∀ v ∈ hint, P (.lit .MLCOMMENT v)) ∧ All P columns.parts ∧ All P fromItems.parts ∧
      All P condition.parts ∧ All P group.parts ∧ All P having.parts ∧ All P compound.parts ∧
      All P orderBy.parts ∧ All P limit.parts ∧ All P fetch.parts ∧ All P offset.parts := by
  simp [Node.parts, groupParts, limitParts, all_ite, Plain.word, Plain.space, Strict.check] at h
  obtain ⟨h₁, h₂, h₃, h₄, h₅, h₆, h₇, h₈⟩ := h
  have hgroup : All P group.parts ∧ All P having.parts := by
    split at h₅
    · exact ⟨all_of_isNil ‹_›, all_of_isAbsent h₅⟩
    · exact h₅
  have hlimit : All P limit.parts ∧ All P fetch.parts ∧ All P offset.parts := by
    split at h₈
    · split at h₈
      · exact ⟨all_of_isAbsent ‹_›, all_of_isAbsent h₈, all_of_isAbsent ‹_›⟩
      · exact ⟨all_of_isAbsent ‹_›, h₈.2, h₈.1⟩
    · exact ⟨h₈.1, all_of_isAbsent h₈.2.2, h₈.2.1⟩
  exact ⟨h₁, h₂, h₃, h₄, hgroup.1, hgroup.2, h₆, h₇, hlimit⟩

end

instance : Strict Part.Sound where
  word _ := trivial
  sign _ := trivial
  space := trivial
  called _ := .rfl
  assigned _ := .rfl
  check _ := .rfl

instance : Loose Part.Wf where
  word _ := trivial
  sign _ := trivial
  space := trivial
  called _ := .rfl
  assigned _ := .rfl
  check _ := trivial
  assign := trivial
  trailing _ := trivial

/-- A node with sound parts is well formed. -/
theorem Node.wf_of_sound {k : Kind} {x : Node k} (h : All Part.Sound x.parts) : x.Wf := by
  induction x with
  | cons x xs ihx ihxs => exact ⟨ihx (all_nodes.mp h).1, ihxs (all_nodes.mp h).2⟩
  | qualifiedRef tbl column => cases column <;> simp_all [parts, Part.Sound, Part.Wf, Node.Wf]
  | call _ _ _ _ _ ihargs ihfilter =>
    obtain ⟨-, ha, hf⟩ := all_of_call h
    exact ⟨ihargs ha, ihfilter hf⟩
  | resultColumn _ _ _ ih =>
    obtain ⟨hs, hx, ha⟩ := all_of_column h
    refine ⟨hs.imp_right fun hs => ?_, ih hx, ha⟩
    simpa [Part.Sound, Part.Wf] using hs
  | selectStatement _ _ _ _ _ _ _ _ _ _ _ _ _ _ ih₁ ih₂ ih₃ ih₄ ih₅ ih₆ ih₇ ih₈ ih₉ ih₁₀ =>
    obtain ⟨hhint, h₁, h₂, h₃, h₄, h₅, h₆, h₇, h₈, h₉, h₁₀⟩ := all_of_select h
    exact ⟨hhint, ih₁ h₁, ih₂ h₂, ih₃ h₃, ih₄ h₄, ih₅ h₅, ih₆ h₆, ih₇ h₇, ih₈ h₈, ih₉ h₉, ih₁₀ h₁₀⟩
  | _ => simp_all [parts, Part.Sound, Part.Wf, Tok.Wf, Node.Wf, TableName.parts]

theorem Node.parts_wf {k : Kind} {x : Node k} (h : x.Wf) : All Part.Wf x.parts := by
  induction x with
  | cons x xs ihx ihxs => exact all_nodes.mpr ⟨ihx h.1, ihxs h.2⟩
  | qualifiedRef tbl column => cases column <;> simp_all [parts, Part.Wf, Node.Wf]
  | resultColumn star x columnAlias ih =>
    obtain ⟨hstar, hx, ha⟩ := h
    cases star <;> simp_all [parts, Part.Wf]
  | _ =>
    simp_all [parts, groupParts, limitParts, all_ite, Part.Wf, Tok.Wf, Node.Wf,
      TableName.parts]

/-! ## Statements -/

variable {a : Statement}

section

variable (Q : {k : Kind} → Node k → Prop) (R : Ident → Prop)

def TableName.Each (n : TableName) : Prop := R n.name ∧ ∀ c ∈ n.tableAlias, R c

def Assignment.Each (a : Assignment) : Prop := (∀ c ∈ a.columns, R c) ∧ Q a.expr

def UpsertClause.Each (c : UpsertClause) : Prop :=
  (∀ x ∈ c.columns, Q x.x) ∧ (∀ x ∈ c.whereExpr, Q x) ∧ (∀ a ∈ c.assignments, a.Each Q R) ∧
  ∀ x ∈ c.updateWhereExpr, Q x

def InsertStatement.Each (s : InsertStatement) : Prop :=
  s.tableName.Each R ∧ (∀ c ∈ s.columnNames, R c) ∧ (∀ row ∈ s.expressions, Q row) ∧
  (∀ q ∈ s.query, Q q) ∧ (∀ c ∈ s.upsertClause, c.Each Q R) ∧ ∀ o ∈ s.outputExpressions, Q o

def UpdateStatement.Each (s : UpdateStatement) : Prop :=
  s.tableName.Each R ∧ (∀ c ∈ s.tableAlias, R c) ∧ (∀ a ∈ s.assignments, a.Each Q R) ∧
  (∀ n ∈ s.fromList, n.Each R) ∧ (∀ x ∈ s.condition, Q x) ∧ (∀ c ∈ s.cursorName, R c) ∧
  ∀ o ∈ s.outputExpressions, Q o

def DeleteStatement.Each (s : DeleteStatement) : Prop :=
  s.tableName.Each R ∧ (∀ c ∈ s.tableAlias, R c) ∧ (∀ n ∈ s.usingList, n.Each R) ∧
  (∀ x ∈ s.condition, Q x) ∧ (∀ c ∈ s.cursorName, R c) ∧ ∀ o ∈ s.outputExpressions, Q o

/-- Every node and every name of a statement has the property. -/
def Statement.Each : Statement → Prop
  | .select s => Q s
  | .insert s => s.Each Q R
  | .update s => s.Each Q R
  | .delete s => s.Each Q R

variable {Q R} {Q' : {k : Kind} → Node k → Prop}

theorem UpsertClause.Each.mono {c : UpsertClause} (h : c.Each Q R)
    (hQ : ∀ {k} (x : Node k), Q x → Q' x) : c.Each Q' R :=
  ⟨fun x hx => hQ _ (h.1 x hx), fun x hx => hQ _ (h.2.1 x hx),
    fun a ha => ⟨(h.2.2.1 a ha).1, hQ _ (h.2.2.1 a ha).2⟩, fun x hx => hQ _ (h.2.2.2 x hx)⟩

theorem Statement.Each.mono (h : a.Each Q R) (hQ : ∀ {k} (x : Node k), Q x → Q' x) :
    a.Each Q' R := by
  cases a with
  | select s => exact hQ s h
  | insert s =>
    obtain ⟨h₁, h₂, h₃, h₄, h₅, h₆⟩ := h
    exact ⟨h₁, h₂, fun x hx => hQ _ (h₃ x hx), fun x hx => hQ _ (h₄ x hx),
      fun c hc => (h₅ c hc).mono hQ, fun x hx => hQ _ (h₆ x hx)⟩
  | update s =>
    obtain ⟨h₁, h₂, h₃, h₄, h₅, h₆, h₇⟩ := h
    exact ⟨h₁, h₂, fun a ha => ⟨(h₃ a ha).1, hQ _ (h₃ a ha).2⟩, h₄, fun x hx => hQ _ (h₅ x hx), h₆,
      fun x hx => hQ _ (h₇ x hx)⟩
  | delete s =>
    obtain ⟨h₁, h₂, h₃, h₄, h₅, h₆⟩ := h
    exact ⟨h₁, h₂, h₃, fun x hx => hQ _ (h₄ x hx), h₅, fun x hx => hQ _ (h₆ x hx)⟩

end

section

variable {P : Part → Prop}

theorem Statement.each_of_parts [Strict P] (h : All P a.parts) :
    a.Each (fun x => All P x.parts) fun i => P (.name i) := by
  have hassign (a : Assignment) (h : All P a.parts) :
      a.Each (fun x => All P x.parts) fun i => P (.name i) := by
    simp [Assignment.parts] at h
    exact ⟨h.1, h.2.2⟩
  have hupsert (c : UpsertClause) (h : All P c.parts) :
      c.Each (fun x => All P x.parts) fun i => P (.name i) := by
    simp [UpsertClause.parts, all_ite, all_joinParts, IndexedColumn.parts,
      Strict.check, Plain.word, Plain.sign, Plain.space] at h
    split_ifs at h <;> simp_all [UpsertClause.Each]
  have hwhere {x : Option Expr} {c : Option Ident} (h : All P (whereParts x c)) :
      (∀ y ∈ x, All P y.parts) ∧ ∀ i ∈ c, P (.name i) := by
    cases x <;> cases c <;> simp_all [whereParts, Strict.check]
  have hbody {d : Bool} {rows : List (Node (.list .expr))} {q : Option SelectStatement}
      (h : All P (bodyParts d rows q)) :
      (∀ row ∈ rows, All P row.parts) ∧ ∀ x ∈ q, All P x.parts := by
    cases d <;> cases q <;> simp_all [bodyParts, rowParts, all_joinParts, Strict.check, Plain.sign]
  cases a with
  | select s => exact h
  | insert s =>
    simp [parts, InsertStatement.parts, TableName.parts,
      Plain.word, Plain.sign, Plain.space] at h
    obtain ⟨h₁, h₂, h₃, h₄, h₅, h₆⟩ := h
    refine ⟨⟨h₁, h₂⟩, fun c hc => h₃ (List.ne_nil_of_mem hc) c hc, (hbody h₄).1, (hbody h₄).2,
      fun c hc => ?_, h₆⟩
    rw [Option.mem_def.mp hc] at h₅
    exact hupsert c (all_cons.mp h₅).2
  | update s =>
    simp [parts, UpdateStatement.parts, TableName.parts, all_joinParts, Strict.check,
      Plain.word, Plain.sign, Plain.space] at h
    obtain ⟨h₁, h₂, h₃, h₄, h₅, h₆, h₇⟩ := h
    exact ⟨⟨h₁, h₂⟩, h₃, fun a ha => hassign a (h₄ a ha), by simp [h₅], (hwhere h₆).1, (hwhere h₆).2,
      h₇⟩
  | delete s =>
    simp [parts, DeleteStatement.parts, TableName.parts, Strict.check,
      Plain.word, Plain.sign, Plain.space] at h
    obtain ⟨h₁, h₂, h₃, h₄, h₅, h₆⟩ := h
    refine ⟨⟨h₁, h₂⟩, fun i hi => ?_, by simp [h₄], (hwhere h₅).1, (hwhere h₅).2, h₆⟩
    rw [Option.mem_def.mp hi] at h₃
    exact (Plain.called i).mp (all_cons.mp h₃).1

theorem Statement.parts_of_each [Loose P] (h : a.Each (fun x => All P x.parts) fun i => P (.name i)) :
    All P a.parts := by
  have hassign (a : Assignment) (h : a.Each (fun x => All P x.parts) fun i => P (.name i)) :
      All P a.parts := by
    simpa [Assignment.parts, Loose.assign, Assignment.Each] using h
  have hupsert (c : UpsertClause) (h : c.Each (fun x => All P x.parts) fun i => P (.name i)) :
      All P c.parts := by
    obtain ⟨h₁, h₂, h₃, h₄⟩ := h
    simp_all [UpsertClause.parts, all_ite, all_joinParts, IndexedColumn.parts, Loose.check, Plain.word,
      Plain.sign, Plain.space]
  have hwhere {x : Option Expr} {c : Option Ident} (hx : ∀ y ∈ x, All P y.parts)
      (hc : ∀ i ∈ c, P (.name i)) : All P (whereParts x c) := by
    cases x <;> cases c <;> simp_all [whereParts, Loose.check]
  cases a with
  | select s => exact h
  | insert s =>
    obtain ⟨⟨h₁, h₂⟩, h₃, h₄, h₅, h₆, h₇⟩ := h
    have hbody : All P (bodyParts s.defaultValues s.expressions s.query) := by
      cases hd : s.defaultValues <;> cases hq : s.query <;>
        simp_all [bodyParts, rowParts, all_joinParts, Loose.check, Plain.sign, Plain.space]
    cases hu : s.upsertClause <;>
    simp_all [parts, InsertStatement.parts, TableName.parts, upsertParts,
      Plain.word, Plain.sign, Plain.space]
  | update s =>
    obtain ⟨⟨h₁, h₂⟩, h₃, h₄, h₅, h₆, h₇, h₈⟩ := h
    simp_all [parts, UpdateStatement.parts, TableName.parts, all_joinParts, Loose.check,
      Plain.word, Plain.sign, Plain.space]
  | delete s =>
    obtain ⟨⟨h₁, h₂⟩, h₃, h₄, h₅, h₆, h₇⟩ := h
    cases ha : s.tableAlias <;>
    simp_all [parts, DeleteStatement.parts, TableName.parts, deleteAliasParts, Loose.check,
      Loose.trailing, Plain.called, Plain.word, Plain.sign, Plain.space]

end

/-- A statement with sound parts is well formed. -/
theorem Statement.wf_of_sound (h : All Part.Sound a.parts) : a.Wf := by
  have heach : a.Each Node.Wf Ident.Wf := (each_of_parts h).mono fun _ => Node.wf_of_sound
  cases a <;> exact heach

theorem Statement.parts_wf (h : a.Wf) : All Part.Wf a.parts := by
  have heach : a.Each Node.Wf Ident.Wf := by cases a <;> exact h
  exact parts_of_each (heach.mono fun _ => Node.parts_wf)

/-- What is parsed is well formed. -/
theorem parseStatement_wf {s : Text} (h : parseStatement s = .ok a) : a.Wf := by
  obtain ⟨rest, h⟩ := parseTokens_reads h
  exact Statement.wf_of_sound (h.sound (lexAll_wf s))

end Gofusion.Sqlparser
