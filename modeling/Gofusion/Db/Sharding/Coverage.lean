import Gofusion.Db.Sharding.Routing
import Gofusion.Lib.Pipeline

/-!
# Statements that reach the base table

Which statements on the sharded table leave `dispatchTableBySQL` with every source renamed.  A
table is compared by its alias if it has one.  Sources inside parentheses, subqueries and nested
joins are never renamed, and of the two sides of a join only one is.

A panic does not reach the database and is not counted against the dispatcher.
-/

namespace Gofusion.Sqlparser

/-! ## Sources -/

/-- The names of the tables that a tree reads from. -/
def Node.sources : {k : Kind} → Node k → List Text
  | _, .present x => x.sources
  | _, .cons x xs => x.sources ++ xs.sources
  | _, .unaryExpr _ x => x.sources
  | _, .binaryExpr x _ y => x.sources ++ y.sources
  | _, .parenExpr x => x.sources
  | _, .caseExpr operand blocks elseExpr => operand.sources ++ (blocks.sources ++ elseExpr.sources)
  | _, .existsExpr _ select => select.sources
  | _, .exprs xs => xs.sources
  | _, .range x y => x.sources ++ y.sources
  | _, .call _ _ _ args filter => args.sources ++ filter.sources
  | _, .caseBlock condition body => condition.sources ++ body.sources
  | _, .resultColumn _ x _ => x.sources
  | _, .orderingTerm x _ _ _ _ => x.sources
  | _, .table t => [t.name.name]
  | _, .parenSource x _ => x.sources
  | _, .joinClause x _ y constraint => x.sources ++ (y.sources ++ constraint.sources)
  | _, .selectSource s => s.sources
  | _, .onConstraint x => x.sources
  | _, .selectStatement _ _ _ columns fromItems condition groupingElements havingCondition _ compound
    orderBy limit fetch offset =>
    columns.sources ++ (fromItems.sources ++ (condition.sources ++ (groupingElements.sources ++
      (havingCondition.sources ++ (compound.sources ++ (orderBy.sources ++ (limit.sources ++
        (fetch.sources ++ offset.sources))))))))
  | _, _ => []

def optSources {k : Kind} : Option (Node k) → List Text
  | none => []
  | some x => x.sources

def Assignment.sources (a : Assignment) : List Text := a.expr.sources

def UpsertClause.sources (c : UpsertClause) : List Text :=
  c.columns.flatMap (·.x.sources) ++ optSources c.whereExpr ++
    c.assignments.flatMap Assignment.sources ++ optSources c.updateWhereExpr

def rowSources (rows : List (Node (.list .expr))) : List Text := rows.flatMap Node.sources

/-- The sources of an `INSERT` besides its target and its rows. -/
def InsertStatement.otherSources (s : InsertStatement) : List Text :=
  optSources s.query ++ s.upsertClause.toList.flatMap UpsertClause.sources ++
    optSources s.outputExpressions

/-- The sources of an `UPDATE` besides its target and its condition. -/
def UpdateStatement.otherSources (s : UpdateStatement) : List Text :=
  s.assignments.flatMap Assignment.sources ++ s.fromList.map (·.name.name) ++
    optSources s.outputExpressions

/-- The sources of a `DELETE` besides its target and its condition. -/
def DeleteStatement.otherSources (s : DeleteStatement) : List Text :=
  s.usingList.map (·.name.name) ++ optSources s.outputExpressions

def Statement.sources : Statement → List Text
  | .select s => s.sources
  | .insert s => s.tableName.name.name :: (rowSources s.expressions ++ s.otherSources)
  | .update s => s.tableName.name.name :: (optSources s.condition ++ s.otherSources)
  | .delete s => s.tableName.name.name :: (optSources s.condition ++ s.otherSources)

end Gofusion.Sqlparser

namespace Gofusion.Db

open Gofusion.Sqlparser
open Gofusion.Lib (bind_eq_ok)

/-! ## Renaming keeps the sources -/

theorem sources_renameRef (old new : Text) : ∀ {k : Kind} (x : Node k),
    (renameRef old new x).sources = x.sources := by
  intro k x
  induction x with
  | present x ih => exact ih
  | _ => rfl

theorem sources_replaceCondition (old new : Text) : ∀ {k : Kind} (x : Node k),
    (replaceCondition old new x).sources = x.sources := by
  intro k x
  induction x with
  | binaryExpr x op y ihx ihy => exact congrArg₂ (· ++ ·) ((sources_renameRef ..).trans ihx) ihy
  | _ => repeat' first | assumption | rfl | apply congrArg₂ (· ++ ·)

theorem sources_replaceConstraint (old new : Text) : ∀ {k : Kind} (x : Node k),
    (replaceConstraint old new x).sources = x.sources := by
  intro k x
  induction x with
  | _ => repeat' first | assumption | rfl | apply congrArg₂ (· ++ ·)

theorem sources_renameTop (old new : Text) (x : Node k) :
    (renameTop old new x).sources = x.sources := by
  cases x with
  | orderingTerm x | resultColumn star x => exact sources_renameRef old new x
  | _ => rfl

theorem sources_mapElems
    (hf : ∀ {k : Kind} (x : Node k), (f x).sources = x.sources) : ∀ {k : Kind} (x : Node k),
    (mapElems f x).sources = x.sources := by
  intro k x
  induction x with
  | cons x xs _ ih => exact congrArg₂ (· ++ ·) (hf x) ih
  | _ => rfl

/-! ## Coverage -/

/-- Every source with the name of the table became the table with a suffix. -/
def Replaced (table : Text) : List Text → List Text → Prop :=
  List.Forall₂ fun a b => a = table → ∃ suffix, suffix ≠ [] ∧ b = table ++ suffix

/-- What the database makes of a text: whether it names the table as a source.  The
texts that the parser accepts are understood in the same way. -/
structure Dialect (table : Text) where
  names : Text → Prop
  names_iff : ∀ {sql : Text} {stmt : Statement}, parseStatement sql = .ok stmt →
    (names sql ↔ table ∈ stmt.sources)

/-- The outcome of a dispatch leaves no source with the name of the table. -/
def OutcomeCovered (table : Text) (stmt : Statement) : Except Stop Statement → Prop
  | .ok stmt' => Replaced table stmt.sources stmt'.sources
  | .error .unchanged => Replaced table stmt.sources stmt.sources
  | .error _ => True

/-- The dispatch of a text records an error, panics or replaces every source that is
the table. -/
def Covered (t : TableSharding) (d : Dialect t.table) (env : Env) (sql : Text) (args : List Value) :
    Prop :=
  match parseStatement sql with
  | .error e => e = .panic ∨ ¬d.names sql
  | .ok stmt => OutcomeCovered t.table stmt (t.dispatchStatement env args stmt)

/-- The error of a computation that fails. -/
def failure {ε α : Type} : Except ε α → Option ε
  | .ok _ => none
  | .error e => some e

/-- Why a part of a compound ends the dispatch. -/
def TableSharding.stopOf (t : TableSharding) (args : List Value) (a : Arm) : Option Stop :=
  if a.hint = some nosharding then some .unchanged
  else match fromView a.fromItems with
    | .table tbl =>
      if tbl.tableName ≠ t.table then some .unchanged
      else failure (t.suffixOrStop a.condition t.table args)
    | .join x _ y _ =>
      if !isSharding t.table x && !isSharding t.table y then some .unchanged
      else failure (t.suffixOrStop a.condition t.table args)
    | .other => none

/-- The table is named in a `FROM` at most where it is renamed. -/
def fromExposed (table : Text) (fromItems : Node (.opt .source)) : Prop :=
  match fromView fromItems with
  | .table _ => True
  | .join x _ y constraint =>
    table ∉ (if isSharding table x then y else x).sources ∧ table ∉ constraint.sources
  | .other => table ∉ fromItems.sources

/-- The table is named in the `SELECT`s of a compound at most where it is renamed. -/
def Exposed (table : Text) : {k : Kind} → Node k → Prop
  | _, .present x => Exposed table x
  | _, .selectStatement _ _ _ columns fromItems condition groupingElements havingCondition _ compound
    orderBy limit fetch offset =>
    table ∉ columns.sources ∧ fromExposed table fromItems ∧ table ∉ condition.sources ∧
      table ∉ groupingElements.sources ∧ table ∉ havingCondition.sources ∧
      Exposed table compound ∧ table ∉ orderBy.sources ∧ table ∉ limit.sources ∧
      table ∉ fetch.sources ∧ table ∉ offset.sources
  | _, x => table ∉ x.sources

/-- The first part of a compound that ends the dispatch does so with an error, or
there is none and the table is named only where it is renamed. -/
def SelectCoverable (t : TableSharding) (args : List Value) (s : SelectStatement) : Prop :=
  match (selectArms s).findSome? (t.stopOf args) with
  | some .unchanged => False
  | some _ => True
  | none => Exposed t.table s

/-- The statements whose dispatch leaves no source with the name of the table. -/
def Coverable (t : TableSharding) (env : Env) (args : List Value) : Statement → Prop
  | .select s => SelectCoverable t args s
  | .insert s => s.tableName.tableName = t.table ∧
    match s.expressions.foldlM (t.insertRow env args) ⟨s.columnNames, [], [], 0⟩ with
    | .error _ => True
    | .ok state =>
      env.createTable state.suffix = .ok () →
        (s.tableName.name.name = t.table → s.expressions ≠ []) ∧
        t.table ∉ rowSources s.expressions ++ s.otherSources
  | .update s => s.tableName.tableName = t.table ∧
    ∀ suffix, t.suffixOrStop (conditionNode s.condition) t.table args = .ok suffix →
      t.table ∉ optSources s.condition ++ s.otherSources
  | .delete s => s.tableName.tableName = t.table ∧
    ∀ suffix, t.suffixOrStop (conditionNode s.condition) t.table args = .ok suffix →
      t.table ∉ optSources s.condition ++ s.otherSources

section

variable {t : TableSharding} {args : List Value} {env : Env}

variable {table suffix name : Text} {ε β α : Type} {values : List Value}
  {condition : Node (.opt .expr)} {xs : List Text} {fromItems : Node (.opt .source)} {x y : Source}
  {row : Node (.list .expr)} {st' st : InsertState} {stmt : Statement}

theorem replaced_self : ∀ {xs : List Text}, Replaced table xs xs ↔ table ∉ xs
  | [] => by simp [Replaced]
  | x :: xs => by
    have ih : Replaced table xs xs ↔ table ∉ xs := replaced_self
    unfold Replaced at ih ⊢
    rw [List.forall₂_cons, ih, List.mem_cons, not_or]
    refine and_congr_left fun _ => ⟨?_, fun hne heq => absurd heq.symm hne⟩
    rintro h rfl
    obtain ⟨suffix, hne, heq⟩ := h rfl
    exact hne (List.self_eq_append_right.mp heq)

theorem replaced_append : ∀ {xs xs' : List Text} (ys ys' : List Text),
    xs.length = xs'.length → (Replaced table (xs ++ ys) (xs' ++ ys') ↔
      Replaced table xs xs' ∧ Replaced table ys ys')
  | [], [], _, _, _ => by simp [Replaced]
  | x :: xs, x' :: xs', ys, ys', h => by
    have ih : Replaced table (xs ++ ys) (xs' ++ ys') ↔ Replaced table xs xs' ∧ Replaced table ys ys' :=
      replaced_append ys ys' (Nat.succ.inj h)
    unfold Replaced at ih ⊢
    rw [List.cons_append, List.cons_append, List.forall₂_cons, List.forall₂_cons, ih, and_assoc]

theorem replaced_same_append (xs ys ys' : List Text) :
    Replaced table (xs ++ ys) (xs ++ ys') ↔ table ∉ xs ∧ Replaced table ys ys' := by
  rw [replaced_append ys ys' rfl, replaced_self]

theorem failure_bind (x : Except ε α) (f : α → β) :
    failure (x >>= fun a => .ok (f a)) = failure x := by
  cases x <;> rfl

theorem failure_bind₂ {γ : Type} (x : Except ε α) (y : Except ε β) (f : α → β → γ) :
    failure (x >>= fun a => y >>= fun b => .ok (f a b)) = (failure x).or (failure y) := by
  cases x <;> cases y <;> rfl

theorem dispatchSelect_failure : ∀ {k : Kind} (x : Node k),
    failure (t.dispatchSelect args x) = (selectArms x).findSome? (t.stopOf args) := by
  intro k x
  induction x with
  | present x ih => rw [TableSharding.dispatchSelect, failure_bind, ih, selectArms]
  | selectStatement _ _ _ _ fromItems condition _ _ _ _ _ _ _ _ _ _ _ _ _ ih =>
    rw [TableSharding.dispatchSelect, selectArms, List.findSome?_cons, ← ih]
    unfold TableSharding.stopOf
    split
    · rfl
    · cases fromView fromItems with
      | table tbl =>
        by_cases htbl : tbl.tableName = t.table
        · simp only [htbl, ne_eq, not_true_eq_false, if_false, failure_bind₂]
          cases failure (t.suffixOrStop condition t.table args) <;> rfl
        · simp [htbl, failure]
      | join x _ y _ =>
        dsimp only
        cases (!isSharding t.table x && !isSharding t.table y) with
        | true => rfl
        | false =>
          simp only [Bool.false_eq_true, if_false, failure_bind₂]
          cases failure (t.suffixOrStop condition t.table args) <;> rfl
      | other => simp only [failure_bind]
  | _ => rfl

/-- The suffixes of a sharding function are not empty. -/
def Suffixing (t : TableSharding) : Prop := ∀ values, t.shardingFunc values ≠ .ok []

theorem suffixOf_ne_nil (ht : Suffixing t) (h : t.suffixOf values = .ok suffix) : suffix ≠ [] := by
  rintro rfl
  unfold TableSharding.suffixOf at h
  split at h
  · rename_i hs
    cases h
    exact ht values hs
  · cases h

theorem Suffixing.ne_nil (ht : Suffixing t) (h : t.suffixOrStop condition t.table args = .ok suffix) :
    suffix ≠ [] := by
  unfold TableSharding.suffixOrStop TableSharding.getSuffix at h
  split at h
  · rename_i hs
    cases h
    obtain ⟨values, -, hs⟩ := bind_eq_ok.mp hs
    exact suffixOf_ne_nil ht hs
  · cases h

theorem replaced_first (h : suffix ≠ []) :
    Replaced table (a :: xs) ((table ++ suffix) :: ys) ↔ Replaced table xs ys := by
  unfold Replaced
  rw [List.forall₂_cons]
  exact and_iff_right fun _ => ⟨suffix, h, rfl⟩

theorem replaced_groups (table : Text) (as cs es : List Text) {bs bs' ds ds' : List Text}
    (hb : bs'.length = bs.length) (hd : ds'.length = ds.length) :
    Replaced table (as ++ (bs ++ (cs ++ (ds ++ es)))) (as ++ (bs' ++ (cs ++ (ds' ++ es)))) ↔
      table ∉ as ∧ Replaced table bs bs' ∧ table ∉ cs ∧ Replaced table ds ds' ∧ table ∉ es := by
  rw [replaced_same_append, replaced_append _ _ hb.symm, replaced_same_append,
    replaced_append _ _ hd.symm, replaced_self]

theorem fromView_table (h : fromView fromItems = .table tbl) :
    fromItems = .present (.table tbl) := by
  cases fromItems with
  | absent => cases h
  | present x =>
    cases x with
    | table t => cases h; rfl
    | parenSource | joinClause | selectSource => cases h

theorem fromView_join
    (h : fromView fromItems = .join x operator y constraint) :
    fromItems = .present (.joinClause x operator y constraint) := by
  cases fromItems with
  | absent => cases h
  | present x =>
    cases x with
    | joinClause => cases h; rfl
    | table | parenSource | selectSource => cases h

theorem isSharding_sources (new : Text) (h : isSharding table x = true) :
    ∃ a, x.sources = [a] ∧ (renameSource new x).sources = [new] := by
  cases x with
  | table t => exact ⟨_, rfl, rfl⟩
  | parenSource | joinClause | selectSource => cases h

theorem replaced_join (hs : suffix ≠ [])
    (hxy : isSharding table x = true ∨ isSharding table y = true) (rest : List Text) :
    ((if isSharding table x then renameSource (table ++ suffix) x else x).sources ++
        ((if isSharding table x then y else renameSource (table ++ suffix) y).sources ++
          rest)).length = (x.sources ++ (y.sources ++ rest)).length ∧
    (Replaced table (x.sources ++ (y.sources ++ rest))
      ((if isSharding table x then renameSource (table ++ suffix) x else x).sources ++
        ((if isSharding table x then y else renameSource (table ++ suffix) y).sources ++ rest)) ↔
      table ∉ (if isSharding table x then y else x).sources ∧ table ∉ rest) := by
  by_cases hx : isSharding table x = true
  · obtain ⟨a, ha, hnew⟩ := isSharding_sources (table ++ suffix) hx
    simp only [hx, if_true, ha, hnew, List.singleton_append, List.length_cons, true_and]
    rw [replaced_first hs, replaced_self, List.mem_append, not_or]
  · obtain ⟨a, ha, hnew⟩ := isSharding_sources (table ++ suffix) (hxy.resolve_left hx)
    simp only [hx, Bool.false_eq_true, if_false, ha, hnew, List.singleton_append,
      List.length_append, List.length_cons, true_and]
    rw [replaced_same_append, replaced_first hs, replaced_self]

/-- A changed `SELECT` in which only the sources of the `FROM` and of the compound are
others. -/
theorem replaced_select {hint : Option Text} {all distinct : Bool}
    {columns columns' : Node (.list .column)} {fromItems' : Node (.opt .source)}
    {condition' : Node (.opt .expr)} {groupingElements : Node (.list .expr)}
    {havingCondition : Node (.opt .expr)} {op : CompoundOp}
    {compound compound' : Node (.opt .select)} {orderBy orderBy' : Node (.list .term)}
    {limit fetch offset : Node (.opt .expr)} (hcolumns : columns'.sources = columns.sources)
    (hfrom : fromItems'.sources.length = fromItems.sources.length ∧
      (Replaced table fromItems.sources fromItems'.sources ↔ fromExposed table fromItems))
    (hcondition : condition'.sources = condition.sources)
    (hcompound : compound'.sources.length = compound.sources.length ∧
      (Replaced table compound.sources compound'.sources ↔ Exposed table compound))
    (horderBy : orderBy'.sources = orderBy.sources) :
    let x := Node.selectStatement hint all distinct columns fromItems condition groupingElements
      havingCondition op compound orderBy limit fetch offset
    let x' := Node.selectStatement hint all distinct columns' fromItems' condition' groupingElements
      havingCondition op compound' orderBy' limit fetch offset
    x'.sources.length = x.sources.length ∧
      (Replaced table x.sources x'.sources ↔ Exposed table x) := by
  have h := replaced_groups table columns.sources
    (condition.sources ++ (groupingElements.sources ++ havingCondition.sources))
    (orderBy.sources ++ (limit.sources ++ (fetch.sources ++ offset.sources)))
    hfrom.1 hcompound.1
  simp only [Node.sources, Exposed, hcolumns, hcondition, horderBy, List.append_assoc] at h ⊢
  constructor
  · simp only [List.length_append, hfrom.1, hcompound.1]
  · rw [h, hfrom.2, hcompound.2]
    simp only [List.mem_append, not_or, and_assoc]

/-- A dispatch that goes through replaces the table exactly where it is exposed. -/
theorem dispatchSelect_replaced (ht : Suffixing t) : ∀ {k : Kind} (x x' : Node k),
    t.dispatchSelect args x = .ok x' → x'.sources.length = x.sources.length ∧
      (Replaced t.table x.sources x'.sources ↔ Exposed t.table x) := by
  intro k x
  induction x with
  | present x ih =>
    intro x' h
    rw [TableSharding.dispatchSelect] at h
    obtain ⟨y, hy, hx'⟩ := bind_eq_ok.mp h
    cases hx'
    exact ih y hy
  | selectStatement hint all distinct columns fromItems condition groupingElements havingCondition
    op compound orderBy limit fetch offset _ _ _ _ _ ih =>
    intro x' h
    rw [TableSharding.dispatchSelect] at h
    split at h
    · cases h
    cases hview : fromView fromItems with
    | table tbl =>
      simp only [hview] at h
      split at h
      · cases h
      obtain ⟨suffix, hsuffix, h⟩ := bind_eq_ok.mp h
      obtain ⟨rest, hrest, h⟩ := bind_eq_ok.mp h
      cases h
      refine replaced_select rfl ?_ (sources_replaceCondition ..) (ih rest hrest)
        (sources_mapElems (sources_renameTop _ _) _)
      obtain rfl := fromView_table hview
      rw [fromExposed, hview]
      exact ⟨rfl, iff_true_intro ((replaced_first (ht.ne_nil hsuffix)).mpr .nil)⟩
    | join x operator y constraint =>
      simp only [hview] at h
      split at h
      · cases h
      rename_i hxy
      obtain ⟨suffix, hsuffix, h⟩ := bind_eq_ok.mp h
      obtain ⟨rest, hrest, h⟩ := bind_eq_ok.mp h
      cases h
      refine replaced_select (sources_mapElems (sources_renameTop _ _) _) ?_
        (sources_replaceCondition ..) (ih rest hrest) (sources_mapElems (sources_renameTop _ _) _)
      obtain rfl := fromView_join hview
      rw [fromExposed, hview]
      simp only [Node.sources, sources_replaceConstraint]
      exact replaced_join (ht.ne_nil hsuffix) (by simpa [Decidable.or_iff_not_imp_left] using hxy) _
    | other =>
      simp only [hview] at h
      obtain ⟨rest, hrest, h⟩ := bind_eq_ok.mp h
      cases h
      refine replaced_select rfl ⟨rfl, ?_⟩ rfl (ih rest hrest) rfl
      rw [fromExposed, hview, replaced_self]
  | _ =>
    intro x' h
    cases h
    exact ⟨rfl, replaced_self⟩

/-! ### Rows of an `INSERT` -/

theorem sources_ofList : ∀ xs : List Expr, (Node.ofList xs).sources = xs.flatMap Node.sources
  | [] => rfl
  | x :: xs => congrArg (x.sources ++ ·) (sources_ofList xs)

theorem rowExprs_sources : ∀ row : Node (.list .expr),
    (rowExprs row).flatMap Node.sources = row.sources
  | .nil => rfl
  | .cons x xs => congrArg (x.sources ++ ·) (rowExprs_sources xs)

theorem insertRow_end {s : InsertState} (h : (t.suffixOf values >>= fun suffix =>
      if s.suffix ≠ [] ∧ s.suffix ≠ suffix then Except.error (Fault.error DbError.diffSuffixDML)
      else Except.ok ({ s with rows := s.rows ++ [row], suffix := suffix } : InsertState)) = .ok st') :
    ∃ suffix, t.suffixOf values = .ok suffix ∧
      st' = { s with rows := s.rows ++ [row], suffix := suffix } := by
  obtain ⟨suffix, hsuffix, h⟩ := bind_eq_ok.mp h
  split at h
  · cases h
  · cases h
    exact ⟨suffix, hsuffix, rfl⟩

/-- What a round does: it appends the row, or the row with a generated key and its column. -/
theorem insertRow_ok (h : t.insertRow env args st row = .ok st') :
    (∃ values, t.suffixOf values = .ok st'.suffix) ∧
    ((st'.rows = st.rows ++ [row] ∧ st'.columnNames = st.columnNames ∧ st'.calls = st.calls) ∨
      ∃ id, st'.rows = st.rows ++ [Node.ofList (rowExprs row ++ [.numberLit (decimal id)])] ∧
        st'.columnNames = st.columnNames ++ [idColumn] ∧ st'.calls = st.calls + 1) := by
  unfold TableSharding.insertRow at h
  obtain ⟨⟨values, id⟩, -, h⟩ := bind_eq_ok.mp h
  dsimp only at h
  split at h
  · split at h
    · cases h
    · split at h
      · cases h
      · obtain ⟨suffix, hsuffix, rfl⟩ := insertRow_end h
        exact ⟨⟨_, hsuffix⟩, .inr ⟨_, rfl, rfl, rfl⟩⟩
  · obtain ⟨suffix, hsuffix, rfl⟩ := insertRow_end h
    exact ⟨⟨_, hsuffix⟩, .inl ⟨rfl, rfl, rfl⟩⟩

theorem insertRow_sources (ht : Suffixing t) (h : t.insertRow env args st row = .ok st') :
    rowSources st'.rows = rowSources st.rows ++ row.sources ∧ st'.suffix ≠ [] := by
  obtain ⟨⟨values, hsuffix⟩, hrows⟩ := insertRow_ok h
  refine ⟨?_, suffixOf_ne_nil ht hsuffix⟩
  rcases hrows with ⟨hrows, -⟩ | ⟨id, hrows, -⟩
  · rw [hrows, rowSources, List.flatMap_append, List.flatMap_singleton]
    rfl
  · rw [hrows, rowSources, List.flatMap_append, List.flatMap_singleton, sources_ofList,
      List.flatMap_append, rowExprs_sources]
    exact congrArg (_ ++ ·) (List.append_nil _)

/-- The loop over the rows keeps their sources, and leaves a suffix if there are any. -/
theorem insertRows_ok (ht : Suffixing t) : ∀ {rows : List (Node (.list .expr))}
    {st st' : InsertState}, rows.foldlM (t.insertRow env args) st = .ok st' →
    rowSources st'.rows = rowSources st.rows ++ rowSources rows ∧
      (rows ≠ [] → st'.suffix ≠ []) ∧ (rows = [] → st' = st)
  | [], st, st', h => by
    cases h
    exact ⟨(List.append_nil _).symm, fun hne => absurd rfl hne, fun _ => rfl⟩
  | row :: rows, st, st', h => by
    rw [List.foldlM_cons] at h
    obtain ⟨st₁, hrow, hrest⟩ := bind_eq_ok.mp h
    obtain ⟨hsources, hne⟩ := insertRow_sources ht hrow
    obtain ⟨hrests, hrest_ne, hrest_nil⟩ := insertRows_ok ht hrest
    refine ⟨?_, fun _ => ?_, fun hnil => absurd hnil nofun⟩
    · rw [hrests, hsources, List.append_assoc]
      rfl
    · by_cases hnil : rows = []
      · rw [hrest_nil hnil]
        exact hne
      · exact hrest_ne hnil

/-! ### All statements -/

/-- A `SELECT` is covered exactly if it is coverable. -/
theorem select_covered (ht : Suffixing t)
    (hnames : t.table ∈ (Statement.select s).sources) :
    OutcomeCovered t.table (.select s) (t.dispatchStatement env args (.select s)) ↔
      SelectCoverable t args s := by
  unfold SelectCoverable
  rw [TableSharding.dispatchStatement, ← dispatchSelect_failure]
  cases hs : t.dispatchSelect args s with
  | error e =>
    cases e with
    | unchanged => exact iff_of_false (fun h => replaced_self.mp h hnames) not_false
    | error e => exact Iff.rfl
    | panic => exact Iff.rfl
  | ok s' => exact (dispatchSelect_replaced ht s s' hs).2

theorem replaced_target (h : suffix ≠ [] ∨ name ≠ table) :
    Replaced table (name :: xs) ((table ++ suffix) :: xs) ↔ table ∉ xs := by
  unfold Replaced
  rw [List.forall₂_cons]
  refine (and_iff_right fun hname => ?_).trans replaced_self
  exact ⟨suffix, h.resolve_right fun hne => hne hname, rfl⟩

theorem insert_covered (ht : Suffixing t)
    (hnames : t.table ∈ (Statement.insert s).sources) :
    OutcomeCovered t.table (.insert s) (t.dispatchStatement env args (.insert s)) ↔
      Coverable t env args (.insert s) := by
  unfold Coverable
  rw [TableSharding.dispatchStatement, TableSharding.dispatchInsert]
  by_cases htable : s.tableName.tableName = t.table
  · simp only [htable, ne_eq, not_true_eq_false, if_false, true_and]
    cases hrows : s.expressions.foldlM (t.insertRow env args) ⟨s.columnNames, [], [], 0⟩ with
    | error f => cases f <;> exact Iff.rfl
    | ok st =>
      cases hcreate : env.createTable st.suffix with
      | error e => simp [bind, Except.bind, OutcomeCovered, hcreate]
      | ok u =>
        obtain ⟨hsources, hne, hnil⟩ := insertRows_ok ht hrows
        have hrow : rowSources st.rows = rowSources s.expressions := hsources
        simp only [bind, Except.bind, OutcomeCovered, Statement.sources, hrow, hcreate,
          forall_true_left]
        by_cases hempty : s.expressions = []
        · by_cases hname : s.tableName.name.name = t.table
          · refine iff_of_false (fun h => ?_) fun h => h.1 hname hempty
            obtain ⟨suffix, hsuffix, heq⟩ := (List.forall₂_cons.mp h).1 hname
            have hkept : t.table ++ st.suffix = t.table ++ suffix := heq
            rw [hnil hempty] at hkept
            exact hsuffix (List.append_cancel_left hkept).symm
          · exact (replaced_target (.inr hname)).trans
              (and_iff_right fun h => absurd h hname).symm
        · exact (replaced_target (.inl (hne hempty))).trans (and_iff_right fun _ => hempty).symm
  · simp only [htable, ne_eq, not_false_eq_true, if_true, false_and]
    exact iff_of_false (fun h => replaced_self.mp h hnames) not_false

/-- An `UPDATE` or `DELETE` is covered when its target is the table and its suffix
cannot be read, or when the table is not named elsewhere. -/
theorem target_covered (ht : Suffixing t) {f : Text → Statement}
    (hsources : stmt.sources = name :: rest)
    (hf : ∀ suffix, (f suffix).sources = (t.table ++ suffix) :: rest) :
    OutcomeCovered t.table stmt
        (t.suffixOrStop condition t.table args >>= fun suffix => .ok (f suffix)) ↔
      ∀ suffix, t.suffixOrStop condition t.table args = .ok suffix → t.table ∉ rest := by
  cases hs : t.suffixOrStop condition t.table args with
  | error e =>
    have hstop : e ≠ .unchanged := by
      unfold TableSharding.suffixOrStop at hs
      split at hs
      · cases hs
      · rename_i f' _
        cases hs
        cases f' <;> nofun
    cases e with
    | unchanged => exact absurd rfl hstop
    | error e | panic => exact iff_of_true trivial nofun
  | ok suffix =>
    simp only [bind, Except.bind, OutcomeCovered, hsources, hf, Except.ok.injEq, forall_eq']
    exact replaced_target (.inl (ht.ne_nil hs))

theorem optSources_replaceCondition (old new : Text) (condition : Option Expr) :
    optSources (condition.map (replaceCondition old new)) = optSources condition := by
  cases condition with
  | none => rfl
  | some x => exact sources_replaceCondition old new x

/-- So is every statement. -/
theorem dispatchStatement_covered (ht : Suffixing t) (hnames : t.table ∈ stmt.sources) :
    OutcomeCovered t.table stmt (t.dispatchStatement env args stmt) ↔
      Coverable t env args stmt := by
  have hkept : ¬OutcomeCovered t.table stmt (.error .unchanged) :=
    fun h => replaced_self.mp h hnames
  cases stmt with
  | select s => exact select_covered ht hnames
  | insert s => exact insert_covered ht hnames
  | update s | delete s =>
    rw [TableSharding.dispatchStatement, Coverable]
    split
    · rename_i htable
      exact iff_of_false hkept fun h => htable h.1
    · rename_i htable
      rw [and_iff_right (not_not.mp htable)]
      exact target_covered ht rfl fun suffix => by
        simp only [Statement.sources, optSources_replaceCondition, Ident.plain]
        rfl

/-- A text that names the table is covered exactly when the parser accepts it, or
panics, and its statement is one of the coverable ones. -/
theorem covered_iff (ht : Suffixing t) (d : Dialect t.table) {sql : Text}
    (hnames : d.names sql) :
    Covered t d env sql args ↔
      match parseStatement sql with
      | .error e => e = .panic
      | .ok stmt => Coverable t env args stmt := by
  unfold Covered
  cases hparse : parseStatement sql with
  | error e => exact or_iff_left (not_not_intro hnames)
  | ok stmt => exact dispatchStatement_covered ht ((d.names_iff hparse).mp hnames)

end

/-! ## Orders of users -/

/-- The texts that name a table are those the parser understands so. -/
def parsedDialect (table : Text) : Dialect table where
  names sql := ∃ stmt, parseStatement sql = .ok stmt ∧ table ∈ stmt.sources
  names_iff {_ stmt} h := by
    constructor
    · rintro ⟨stmt', h', hmem⟩
      obtain rfl := Except.ok.inj (h.symm.trans h')
      exact hmem
    · exact fun hmem => ⟨stmt, h, hmem⟩

/-- The raw values of `user_id`. -/
def usersByRawValue : TableSharding :=
  rawSharding "orders".toList ["user_id".toList] fun v =>
    match v with
    | .string s => .ok s
    | _ => .error .notImplemented

theorem rawSharding_suffixing (table : Text) (keys : List Text)
    (toStringE : Value → Except DbError Text) : Suffixing (rawSharding table keys toStringE) := by
  intro values h
  obtain ⟨data, -, hdata⟩ := bind_eq_ok.mp h
  cases hdata

/-- The plain query of the orders of user 1 is covered. -/
theorem plain_query_covered :
    Covered usersByRawValue (parsedDialect "orders".toList) noEnv
      "SELECT * FROM orders WHERE user_id = 1".toList [] := by
  have hparse : parseStatement "SELECT * FROM orders WHERE user_id = 1".toList =
      .ok (selectAll "orders".toList (.present userCondition)) := by decide
  have hnames : (parsedDialect "orders".toList).names
      "SELECT * FROM orders WHERE user_id = 1".toList := ⟨_, hparse, by decide⟩
  refine (covered_iff (t := usersByRawValue) (rawSharding_suffixing _ _ _)
    (parsedDialect "orders".toList) hnames).mpr ?_
  rw [hparse]
  exact ⟨nofun, trivial, nofun, nofun, nofun, nofun, nofun, nofun, nofun, nofun⟩

/-- `SELECT * FROM orders AS o WHERE user_id = 1`. -/
def aliasedQuery : Statement :=
  .select (.selectStatement none false false (.cons (.resultColumn true .absent none) .nil)
    (.present (.table ⟨.plain "orders".toList, some (.plain ['o'])⟩)) (.present userCondition) .nil
    .absent .none .absent .nil .absent .absent .absent)

/-- The alias hides the table, and the text goes to the database as it is. -/
theorem aliased_query_not_covered :
    parseStatement "SELECT * FROM orders AS o WHERE user_id = 1".toList = .ok aliasedQuery ∧
    "orders".toList ∈ aliasedQuery.sources ∧
    usersByRawValue.dispatchTableBySQL noEnv
      "SELECT * FROM orders AS o WHERE user_id = 1".toList [] = .unchanged ∧
    ¬Covered usersByRawValue (parsedDialect "orders".toList) noEnv
      "SELECT * FROM orders AS o WHERE user_id = 1".toList [] := by
  have hparse : parseStatement "SELECT * FROM orders AS o WHERE user_id = 1".toList =
      .ok aliasedQuery := by decide
  refine ⟨hparse, by decide, ?_, fun h => ?_⟩
  · rw [TableSharding.dispatchTableBySQL_of_parse hparse]
    rfl
  · unfold Covered at h
    rw [hparse] at h
    exact replaced_self.mp h (by decide)

end Gofusion.Db
