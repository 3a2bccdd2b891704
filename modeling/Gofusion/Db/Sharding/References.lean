import Gofusion.Db.Sharding.Emitted

/-!
# Qualified references

After the table of a statement is renamed, the references that are qualified by it have to be
renamed with it.  `dispatchTableBySQL` leaves this to four visitors, and none of them sees all of
the statement.  `missed` lists the qualifiers at the places that are left out.
-/

namespace Gofusion.Sqlparser

/-! ## References -/

/-- The qualifiers of the references in a tree. -/
def Node.refs : {k : Kind} → Node k → List Text
  | _, .present x => x.refs
  | _, .cons x xs => x.refs ++ xs.refs
  | _, .unaryExpr _ x => x.refs
  | _, .binaryExpr x _ y => x.refs ++ y.refs
  | _, .parenExpr x => x.refs
  | _, .caseExpr operand blocks elseExpr => operand.refs ++ (blocks.refs ++ elseExpr.refs)
  | _, .existsExpr _ select => select.refs
  | _, .exprs xs => xs.refs
  | _, .range x y => x.refs ++ y.refs
  | _, .qualifiedRef tbl _ => [tbl.name]
  | _, .call _ _ _ args filter => args.refs ++ filter.refs
  | _, .caseBlock condition body => condition.refs ++ body.refs
  | _, .resultColumn _ x _ => x.refs
  | _, .orderingTerm x _ _ _ _ => x.refs
  | _, .parenSource x _ => x.refs
  | _, .joinClause x _ y constraint => x.refs ++ (y.refs ++ constraint.refs)
  | _, .selectSource s => s.refs
  | _, .onConstraint x => x.refs
  | _, .selectStatement _ _ _ columns fromItems condition groupingElements havingCondition _ compound
    orderBy limit fetch offset =>
    columns.refs ++ (fromItems.refs ++ (condition.refs ++ (groupingElements.refs ++
      (havingCondition.refs ++ (compound.refs ++ (orderBy.refs ++ (limit.refs ++
        (fetch.refs ++ offset.refs))))))))
  | _, _ => []

def Node.isRef : {k : Kind} → Node k → Bool
  | _, .present x => x.isRef
  | _, .qualifiedRef _ _ => true
  | _, _ => false

def optRefs {k : Kind} : Option (Node k) → List Text
  | none => []
  | some x => x.refs

def UpsertClause.refs (c : UpsertClause) : List Text :=
  c.columns.flatMap (·.x.refs) ++ optRefs c.whereExpr ++ c.assignments.flatMap (·.expr.refs) ++
    optRefs c.updateWhereExpr

/-- The qualifiers of the references in a statement. -/
def Statement.refs : Statement → List Text
  | .select s => s.refs
  | .insert s => s.expressions.flatMap Node.refs ++ optRefs s.query ++
    s.upsertClause.toList.flatMap UpsertClause.refs ++ optRefs s.outputExpressions
  | .update s =>
    s.assignments.flatMap (·.expr.refs) ++ (optRefs s.condition ++ optRefs s.outputExpressions)
  | .delete s => optRefs s.condition ++ optRefs s.outputExpressions

section

variable {table : Text} {names : List Text}

/-- In a tree with a renamed table, only references to the table are different. -/
theorem Node.Renamed.refs {x x' : Node k} (h : x.Renamed table names x') :
    List.Forall₂ (fun n n' => n = table ∨ n' = n) x.refs x'.refs := by
  have hrefl : ∀ xs : List Text, List.Forall₂ (fun n n' => n = table ∨ n' = n) xs xs := fun xs =>
    List.forall₂_same.mpr fun _ _ => .inr rfl
  induction h with
  | refl x => exact hrefl _
  | table _ => exact hrefl _
  | qualifiedRef h =>
    refine .cons ?_ .nil
    obtain rfl | ⟨htable, -⟩ := h
    · exact .inr rfl
    · exact .inl htable
  | _ => repeat' first | assumption | apply List.rel_append

end

end Gofusion.Sqlparser

namespace Gofusion.Db

open Gofusion.Sqlparser
open Gofusion.Lib (bind_eq_ok)

/-! ## What the visitors miss -/

/-- The qualifiers that a walk leaves out.  With `all` it renames every reference that it visits,
otherwise only the left operands. -/
def missed (all : Bool) : {k : Kind} → Node k → List Text
  | _, .present x => missed all x
  | _, .cons x xs => missed all x ++ missed all xs
  | _, .unaryExpr _ x => missed all x
  | _, .binaryExpr x _ y => (if x.isRef then [] else missed all x) ++ missed all y
  | _, .parenExpr x => missed all x
  | _, .caseExpr operand blocks elseExpr =>
    missed all operand ++ (missed all blocks ++ missed all elseExpr)
  | _, .existsExpr _ select => missed all select
  | _, .exprs xs => missed all xs
  | _, .range x y => missed all x ++ missed all y
  | _, .qualifiedRef tbl _ => if all then [] else [tbl.name]
  | _, .call _ _ _ args filter => missed all args ++ missed all filter
  | _, .caseBlock condition body => missed all condition ++ missed all body
  | _, .resultColumn _ x _ => missed all x
  | _, .orderingTerm x _ _ _ _ => missed all x
  | _, .parenSource x _ => missed all x
  | _, .joinClause x _ y constraint => missed all x ++ (missed all y ++ missed all constraint)
  | _, .selectSource s => missed all s
  | _, .onConstraint x => missed all x
  -- the walk does not visit the columns, nor the `FETCH`
  | _, .selectStatement _ _ _ columns fromItems condition groupingElements havingCondition _ compound
    orderBy limit fetch offset =>
    columns.refs ++ (missed all fromItems ++ (missed all condition ++ (missed all groupingElements ++
      (missed all havingCondition ++ (missed all compound ++ (missed all orderBy ++
        (missed all limit ++ (fetch.refs ++ missed all offset))))))))
  | _, _ => []

/-- The qualifiers in a term or column that is not just a reference. -/
def elemMissed : {k : Kind} → Node k → List Text
  | _, .orderingTerm x _ _ _ _ => if x.isRef then [] else x.refs
  | _, .resultColumn _ x _ => if x.isRef then [] else x.refs
  | _, x => x.refs

/-- The qualifiers that `replaceOrderByTableName` and `replaceColumns` leave out. -/
def elemsMissed : {k : Kind} → Node k → List Text
  | _, .cons x xs => elemMissed x ++ elemsMissed xs
  | _, x => x.refs

/-- The qualifiers of a compound `SELECT` that are left out. -/
def selectMissed : {k : Kind} → Node k → List Text
  | _, .present x => selectMissed x
  | _, .selectStatement _ _ _ columns fromItems condition groupingElements havingCondition _ compound
    orderBy limit fetch offset =>
    match fromView fromItems with
    | .table _ =>
      columns.refs ++ (missed false condition ++ (groupingElements.refs ++
        (havingCondition.refs ++ (selectMissed compound ++ (elemsMissed orderBy ++ (limit.refs ++
          (fetch.refs ++ offset.refs)))))))
    | .join x _ y constraint =>
      elemsMissed columns ++ ((x.refs ++ (y.refs ++ missed true constraint)) ++
        (missed false condition ++ (groupingElements.refs ++ (havingCondition.refs ++
          (selectMissed compound ++ (elemsMissed orderBy ++ (limit.refs ++ (fetch.refs ++
            offset.refs))))))))
    | .other =>
      columns.refs ++ (fromItems.refs ++ (condition.refs ++ (groupingElements.refs ++
        (havingCondition.refs ++ (selectMissed compound ++ (orderBy.refs ++ (limit.refs ++
          (fetch.refs ++ offset.refs))))))))
  | _, x => x.refs

/-- The qualifiers of a statement that are left out. -/
def missedRefs : Statement → List Text
  | .select s => selectMissed s
  | .insert s => (Statement.insert s).refs
  | .update s =>
    s.assignments.flatMap (·.expr.refs) ++
      (missed false (conditionNode s.condition) ++ optRefs s.outputExpressions)
  | .delete s => missed false (conditionNode s.condition) ++ optRefs s.outputExpressions

/-- A `SELECT`, `UPDATE` or `DELETE` that gives the table it names no alias. -/
def plainTable : Statement → Bool
  | .select s => unaliased s
  | .insert _ => false
  | .update s => s.tableName.tableAlias.isNone
  | .delete s => s.tableName.tableAlias.isNone

/-- No reference is qualified by the table any more, and all others are as they were. -/
structure RenamedRefs (table : Text) (a b : Statement) : Prop where
  gone : table ∉ b.refs
  untouched : List.Forall₂ (fun n n' => n = table ∨ n' = n) a.refs b.refs

/-! ## The visitors -/

section

variable {old new : Text} (hne : old ≠ new)

include hne

theorem ne_renameIdent (i : Ident) : old ≠ (renameIdent old new i).name := by
  rw [renameIdent]
  split
  · exact hne
  · next h => exact Ne.symm h

variable {k : Kind}

omit hne in
theorem mem_append_congr {xs xs' ys ys' : List Text} (h : old ∈ xs ↔ old ∈ xs')
    (h' : old ∈ ys ↔ old ∈ ys') : old ∈ xs ++ ys ↔ old ∈ xs' ++ ys' := by
  simp only [List.mem_append, h, h']

theorem mem_refs_renameRef (x : Node k) :
    old ∈ (renameRef old new x).refs ↔ old ∈ if x.isRef then [] else x.refs := by
  induction x with
  | present x ih => exact ih
  | qualifiedRef tbl column =>
    exact iff_of_false (fun h => ne_renameIdent hne tbl (List.mem_singleton.mp h)) List.not_mem_nil
  | _ => exact Iff.rfl

omit hne in
theorem isRef_replaceCondition (x : Node k) : (replaceCondition old new x).isRef = x.isRef := by
  induction x with
  | present x ih => exact ih
  | _ => rfl

theorem mem_refs_replaceCondition (x : Node k) :
    old ∈ (replaceCondition old new x).refs ↔ old ∈ missed false x := by
  induction x with
  | binaryExpr x op y ih₁ ih₂ =>
    refine mem_append_congr ((mem_refs_renameRef hne _).trans ?_) ih₂
    rw [isRef_replaceCondition]
    split
    · rfl
    · exact ih₁
  | _ => repeat' first | assumption | exact Iff.rfl | apply mem_append_congr

omit hne in
theorem missed_true_of_isRef (x : Node k) (h : x.isRef = true) : missed true x = [] := by
  induction x with
  | present x ih => exact ih h
  | qualifiedRef => rfl
  | _ => cases h

theorem mem_refs_replaceConstraint (x : Node k) :
    old ∈ (replaceConstraint old new x).refs ↔ old ∈ missed true x := by
  induction x with
  | qualifiedRef tbl column =>
    exact iff_of_false (fun h => ne_renameIdent hne tbl (List.mem_singleton.mp h)) List.not_mem_nil
  | binaryExpr x op y ih₁ ih₂ =>
    refine mem_append_congr ?_ ih₂
    split
    · next h => rwa [missed_true_of_isRef x h] at ih₁
    · exact ih₁
  | _ => repeat' first | assumption | exact Iff.rfl | apply mem_append_congr

theorem mem_refs_renameTop (x : Node k) :
    old ∈ (renameTop old new x).refs ↔ old ∈ elemMissed x := by
  cases x with
  | orderingTerm x | resultColumn star x => exact mem_refs_renameRef hne x
  | _ => exact Iff.rfl

theorem mem_refs_mapElems (x : Node k) :
    old ∈ (mapElems (renameTop old new) x).refs ↔ old ∈ elemsMissed x := by
  induction x with
  | cons x xs _ ih => exact mem_append_congr (mem_refs_renameTop hne x) ih
  | _ => exact Iff.rfl

omit hne in
theorem refs_renameSource (x : Source) : (renameSource new x).refs = x.refs := by
  cases x <;> rfl

end

/-! ## Statements -/

section

variable {t : TableSharding} {env : Env} {args : List Value}

/-- The table stays in a `SELECT` exactly at the places that are left out. -/
theorem mem_refs_dispatchSelect (ht : Suffixing t) : ∀ {k : Kind} (x x' : Node k),
    t.dispatchSelect args x = .ok x' → (t.table ∈ x'.refs ↔ t.table ∈ selectMissed x) := by
  intro k x
  induction x with
  | present x ih =>
    intro x' h
    rw [TableSharding.dispatchSelect] at h
    obtain ⟨y, hy, hx'⟩ := bind_eq_ok.mp h
    cases hx'
    exact ih y hy
  | selectStatement _ _ _ _ fromItems _ _ _ _ _ _ _ _ _ _ _ _ _ _ ih =>
    intro x' h
    rw [TableSharding.dispatchSelect] at h
    split at h
    · cases h
    rw [selectMissed]
    cases hview : fromView fromItems with
    | table tbl =>
      simp only [hview] at h ⊢
      split at h
      · cases h
      obtain ⟨suffix, hsuffix, h⟩ := bind_eq_ok.mp h
      obtain ⟨rest, hrest, h⟩ := bind_eq_ok.mp h
      cases h
      have hne : t.table ≠ t.table ++ suffix := by simpa using ht.ne_nil hsuffix
      simp only [Node.refs, replaceOrderByTableName, List.mem_append, mem_refs_replaceCondition hne,
        mem_refs_mapElems hne, ih rest hrest, List.not_mem_nil, false_or]
    | join x _ y _ =>
      simp only [hview] at h ⊢
      split at h
      · cases h
      obtain ⟨suffix, hsuffix, h⟩ := bind_eq_ok.mp h
      obtain ⟨rest, hrest, h⟩ := bind_eq_ok.mp h
      cases h
      have hne : t.table ≠ t.table ++ suffix := by simpa using ht.ne_nil hsuffix
      have hx : (if isSharding t.table x then renameSource (t.table ++ suffix) x else x).refs =
          x.refs := by split <;> simp [refs_renameSource]
      have hy : (if isSharding t.table x then y else renameSource (t.table ++ suffix) y).refs =
          y.refs := by split <;> simp [refs_renameSource]
      simp only [Node.refs, replaceOrderByTableName, replaceColumns, List.mem_append,
        mem_refs_replaceCondition hne, mem_refs_replaceConstraint hne, mem_refs_mapElems hne, hx, hy,
        ih rest hrest]
    | other =>
      simp only [hview] at h ⊢
      obtain ⟨rest, hrest, h⟩ := bind_eq_ok.mp h
      cases h
      simp only [Node.refs, List.mem_append, ih rest hrest]
  | _ =>
    intro x' h
    cases h
    rfl

theorem mem_optRefs_map (hs : suffix ≠ []) (condition : Option Expr) :
    t.table ∈ optRefs (condition.map (replaceCondition t.table (t.table ++ suffix))) ↔
      t.table ∈ missed false (conditionNode condition) := by
  have hne : t.table ≠ t.table ++ suffix := by simpa using hs
  cases condition with
  | none => exact Iff.rfl
  | some x => exact mem_refs_replaceCondition hne x

variable {b a : Statement}

/-- The same for every statement. -/
theorem mem_refs_dispatchStatement (ht : Suffixing t) (ha : plainTable a = true)
    (h : t.dispatchStatement env args a = .ok b) : t.table ∈ b.refs ↔ t.table ∈ missedRefs a := by
  cases a with
  | select s =>
    obtain ⟨s', hs, hb⟩ := bind_eq_ok.mp h
    cases hb
    exact mem_refs_dispatchSelect ht s s' hs
  | insert s => cases ha
  | update s | delete s =>
    rw [TableSharding.dispatchStatement] at h
    split at h
    · cases h
    obtain ⟨suffix, hsuffix, hb⟩ := bind_eq_ok.mp h
    cases hb
    simp only [Statement.refs, missedRefs, List.mem_append, mem_optRefs_map (ht.ne_nil hsuffix)]

theorem optRefs_rel
    (h : Option.Rel (Node.Renamed table names) x y) :
    List.Forall₂ (fun n n' => n = table ∨ n' = n) (optRefs x) (optRefs y) := by
  cases h with
  | none => exact .nil
  | some h => exact h.refs

/-- Other qualifiers stay as they are. -/
theorem untouched_of_dispatch (ha : plainTable a = true)
    (h : t.dispatchStatement env args a = .ok b) :
    List.Forall₂ (fun n n' => n = t.table ∨ n' = n) a.refs b.refs := by
  have hrefl : ∀ xs : List Text, List.Forall₂ (fun n n' => n = t.table ∨ n' = n) xs xs :=
    fun xs => List.forall₂_same.mpr fun _ _ => .inr rfl
  have hrenamed := dispatchStatement_renamed h
  cases a with
  | insert s => cases ha
  | select s =>
    cases b with
    | select s' => exact (hrenamed.mpr ha).refs
    | _ => exact (hrenamed.mpr ha).elim
  | update s =>
    cases b with
    | update s' =>
      obtain ⟨-, hcondition, hs'⟩ := hrenamed.mpr (Option.isNone_iff_eq_none.mp ha)
      rw [hs']
      exact List.rel_append (hrefl _) (List.rel_append (optRefs_rel hcondition) (hrefl _))
    | _ => exact (hrenamed.mpr (Option.isNone_iff_eq_none.mp ha)).elim
  | delete s =>
    cases b with
    | delete s' =>
      obtain ⟨-, hcondition, hs'⟩ := hrenamed.mpr (Option.isNone_iff_eq_none.mp ha)
      rw [hs']
      exact List.rel_append (optRefs_rel hcondition) (hrefl _)
    | _ => exact (hrenamed.mpr (Option.isNone_iff_eq_none.mp ha)).elim

end

/-- In a statement that is rewritten, all references to the table are renamed and the others are
untouched if and only if there is no reference to the table at a place that is left out. -/
theorem renaming_complete_iff {t : TableSharding} (ht : Suffixing t) {env : Env}
    {args : List Value} {sql text : Text} {a : Statement} (hparse : parseStatement sql = .ok a)
    (ha : plainTable a = true) (h : t.dispatchTableBySQL env sql args = .rewritten text) :
    (∃ b, t.dispatchStatement env args a = .ok b ∧ b.string = some text ∧
        RenamedRefs t.table a b) ↔ t.table ∉ missedRefs a := by
  obtain ⟨a', b, hparse', hb, htext⟩ := dispatchTableBySQL_eq_rewritten.mp h
  cases hparse.symm.trans hparse'
  have hmissed := mem_refs_dispatchStatement ht ha hb
  constructor
  · rintro ⟨b', hb', -, hrefs⟩
    cases hb.symm.trans hb'
    exact fun hmem => hrefs.gone (hmissed.mpr hmem)
  · intro hnone
    exact ⟨b, hb, htext, fun hmem => hnone (hmissed.mp hmem), untouched_of_dispatch ha hb⟩

/-! ## Orders of a user -/

/-- `orders.column`. -/
def orderRef (column : Text) : Expr :=
  .qualifiedRef (.plain "orders".toList) (some (.plain column))

/-- `SELECT column FROM table WHERE table.user_id = 1`. -/
def ordersQuery (column : Expr) (table : Text) : Statement :=
  .select (.selectStatement none false false
    (.cons (.resultColumn false (.present column) none) .nil)
    (.present (.table ⟨.plain table, none⟩))
    (.present (.binaryExpr (.qualifiedRef (.plain table) (some (.plain "user_id".toList))) .EQ
      (.numberLit ['1']))) .nil .absent .none .absent .nil .absent .absent .absent)

/-- The left operand is renamed. -/
theorem condition_renamed :
    usersByRawValue.table ∉ missedRefs (ordersQuery (.ident (.plain "id".toList)) "orders".toList) ∧
    ∃ b, usersByRawValue.dispatchStatement noEnv []
        (ordersQuery (.ident (.plain "id".toList)) "orders".toList) = .ok b ∧
      b.string = some "SELECT id FROM orders_1 WHERE orders_1.user_id = 1".toList ∧
      RenamedRefs usersByRawValue.table
        (ordersQuery (.ident (.plain "id".toList)) "orders".toList) b := by
  have hparse : parseStatement "SELECT id FROM orders WHERE orders.user_id = 1".toList =
      .ok (ordersQuery (.ident (.plain "id".toList)) "orders".toList) := by decide
  have hmissed : usersByRawValue.table ∉
      missedRefs (ordersQuery (.ident (.plain "id".toList)) "orders".toList) := by decide
  have hrewritten : usersByRawValue.dispatchTableBySQL noEnv
      "SELECT id FROM orders WHERE orders.user_id = 1".toList [] =
        .rewritten "SELECT id FROM orders_1 WHERE orders_1.user_id = 1".toList :=
    dispatchTableBySQL_eq_rewritten.mpr
      ⟨_, ordersQuery (.ident (.plain "id".toList)) "orders_1".toList, hparse, rfl,
        by decide⟩
  exact ⟨hmissed, (renaming_complete_iff (rawSharding_suffixing _ _ _) hparse rfl
    hrewritten).mpr hmissed⟩

/-- A column of the result keeps the old table. -/
theorem column_not_renamed :
    parseStatement "SELECT orders.id FROM orders WHERE orders.user_id = 1".toList =
      .ok (ordersQuery (orderRef "id".toList) "orders".toList) ∧
    plainTable (ordersQuery (orderRef "id".toList) "orders".toList) = true ∧
    usersByRawValue.dispatchTableBySQL noEnv
        "SELECT orders.id FROM orders WHERE orders.user_id = 1".toList [] =
      .rewritten "SELECT orders.id FROM orders_1 WHERE orders_1.user_id = 1".toList := by
  have hparse : parseStatement "SELECT orders.id FROM orders WHERE orders.user_id = 1".toList =
      .ok (ordersQuery (orderRef "id".toList) "orders".toList) := by decide
  exact ⟨hparse, rfl, dispatchTableBySQL_eq_rewritten.mpr
    ⟨_, ordersQuery (orderRef "id".toList) "orders_1".toList, hparse, rfl, by decide⟩⟩

end Gofusion.Db
