import Gofusion.Db.Sharding.Coverage
import Gofusion.Sqlparser.RoundTrip
import Gofusion.Sqlparser.Renamed

/-!
# The text that is sent to the database

A table that is sharded by raw values gets the value of a key into its name, and
`dispatchTableBySQL` prints the name as it is.  Mostly the name loses its quotes, so it has to be a
word that is no keyword.  On a side of a join it keeps the quotes of the table, and then a back
quote is all that must not be in it.

The rest of the text has to be legible, as in every round trip.
-/

namespace Gofusion.Db

open Gofusion.Sqlparser
open Gofusion.Lib (bind_eq_ok)

section

variable {t : TableSharding} {env : Env} {args : List Value}

/-! ## Shards -/

def TableSharding.shardOf (t : TableSharding) (args : List Value)
    (condition : Node (.opt .expr)) : List Text :=
  match t.suffixOrStop condition t.table args with
  | .ok suffix => [t.table ++ suffix]
  | .error _ => []

/-- The shards of the parts of a compound `SELECT`. -/
def TableSharding.selectShards (t : TableSharding) (args : List Value) :
    {k : Kind} → Node k → List Text
  | _, .present x => t.selectShards args x
  | _, .selectStatement _ _ _ _ fromItems condition _ _ _ compound _ _ _ _ =>
    (match fromView fromItems with
      | .other => []
      | _ => t.shardOf args condition) ++ t.selectShards args compound
  | _, _ => []

/-- The loop over the rows of an `INSERT`. -/
def TableSharding.insertRows (t : TableSharding) (env : Env) (args : List Value)
    (s : InsertStatement) : Except Fault InsertState :=
  s.expressions.foldlM (t.insertRow env args) ⟨s.columnNames, [], [], 0⟩

/-- The names the table of a statement is replaced by. -/
def TableSharding.shards (t : TableSharding) (env : Env) (args : List Value) :
    Statement → List Text
  | .select s => t.selectShards args s
  | .insert s =>
    match t.insertRows env args s with
    | .ok st => [t.table ++ st.suffix]
    | .error _ => []
  | .update s => t.shardOf args (conditionNode s.condition)
  | .delete s => t.shardOf args (conditionNode s.condition)

/-! ## Statements that are kept -/

/-- No table in the `FROM` of a compound `SELECT` has an alias.  The tables of a join
may have one. -/
def unaliased : {k : Kind} → Node k → Bool
  | _, .present x => unaliased x
  | _, .selectStatement _ _ _ _ fromItems _ _ _ _ compound _ _ _ _ =>
    (match fromView fromItems with
      | .table tbl => tbl.tableAlias.isNone
      | _ => true) && unaliased compound
  | _, _ => true

/-- The number of keys that are generated for an `INSERT`. -/
def TableSharding.generatedKeys (t : TableSharding) (env : Env) (args : List Value)
    (s : InsertStatement) : Nat :=
  match t.insertRows env args s with
  | .ok st => st.calls
  | .error _ => 0

/-- The dispatcher has nothing to change but the name of the table. -/
def Direct (t : TableSharding) (env : Env) (args : List Value) : Statement → Prop
  | .select s => unaliased s = true
  | .insert s => s.tableName.tableAlias = none ∧ t.generatedKeys env args s = 0
  | .update s => s.tableName.tableAlias = none
  | .delete s => s.tableName.tableAlias = none

/-- The text that is emitted, if there is one, is parsed as the original statement with
the table replaced by its shard, up to the quotes of function names. -/
def KeepsStatement (t : TableSharding) (env : Env) (sql : Text) (args : List Value) : Prop :=
  ∀ text, t.dispatchTableBySQL env sql args = .rewritten text →
    ∃ a b, parseStatement sql = .ok a ∧ t.dispatchStatement env args a = .ok b ∧
      a.Renamed t.table (t.shards env args a) b ∧ parseStatement text = .ok b.unquoteCalls

end

/-! ## Renaming -/

section

variable {old new : Text} {names : List Text} (hnew : new ∈ names)

include hnew

theorem renameIdent_renamed (i : Ident) : i.Renamed old names (renameIdent old new i) := by
  unfold renameIdent
  split
  · exact .inr ⟨‹_›, hnew, rfl⟩
  · exact .inl rfl

variable {k : Kind}

theorem renameRef_renamed (x : Node k) : x.Renamed old names (renameRef old new x) := by
  induction x with
  | qualifiedRef tbl column => exact .qualifiedRef (renameIdent_renamed hnew tbl)
  | present x ih => exact .present ih
  | _ => exact .refl _

theorem renameRef_replaceCondition {x : Expr}
    (h : x.Renamed old names (replaceCondition old new x)) :
    x.Renamed old names (renameRef old new (replaceCondition old new x)) := by
  cases x with
  | qualifiedRef _ _ => exact renameRef_renamed hnew _
  | _ => exact h

theorem replaceCondition_renamed (x : Node k) :
    x.Renamed old names (replaceCondition old new x) := by
  induction x with
  | binaryExpr x op y ihx ihy => exact .binaryExpr (renameRef_replaceCondition hnew ihx) ihy
  | selectStatement _ _ _ _ _ _ _ _ _ _ _ _ _ _ _ ih₂ ih₃ ih₄ ih₅ ih₆ ih₇ ih₈ _ ih₁₀ =>
    exact .selectStatement (.refl _) ih₂ ih₃ ih₄ ih₅ ih₆ ih₇ ih₈ (.refl _) ih₁₀
  | present | cons | unaryExpr | parenExpr | caseExpr | existsExpr | exprs | range | call | caseBlock
  | resultColumn | orderingTerm | parenSource | joinClause | selectSource | onConstraint =>
    constructor <;> assumption
  | _ => exact .refl _

theorem replaceConstraint_renamed (x : Node k) :
    x.Renamed old names (replaceConstraint old new x) := by
  induction x with
  | qualifiedRef tbl column => exact .qualifiedRef (renameIdent_renamed hnew tbl)
  | selectStatement _ _ _ _ _ _ _ _ _ _ _ _ _ _ _ ih₂ ih₃ ih₄ ih₅ ih₆ ih₇ ih₈ _ ih₁₀ =>
    exact .selectStatement (.refl _) ih₂ ih₃ ih₄ ih₅ ih₆ ih₇ ih₈ (.refl _) ih₁₀
  | present | cons | unaryExpr | binaryExpr | parenExpr | caseExpr | existsExpr | exprs | range | call
  | caseBlock | resultColumn | orderingTerm | parenSource | joinClause | selectSource
  | onConstraint => constructor <;> assumption
  | _ => exact .refl _

theorem renameTop_renamed (x : Node k) : x.Renamed old names (renameTop old new x) := by
  cases x with
  | orderingTerm x => exact .orderingTerm (renameRef_renamed hnew x)
  | resultColumn _ x => exact .resultColumn (renameRef_renamed hnew x)
  | _ => exact .refl _

theorem mapElems_renamed (x : Node k) : x.Renamed old names (mapElems (renameTop old new) x) := by
  induction x with
  | cons x xs _ ih => exact .cons (renameTop_renamed hnew x) ih
  | _ => exact .refl _

theorem renameSource_renamed {x : Source} (hx : isSharding old x = true) :
    x.Renamed old names (renameSource new x) := by
  cases x with
  | table tbl => exact .table ⟨rfl, .inr ⟨of_decide_eq_true hx, hnew, .inl rfl⟩⟩
  | _ => cases hx

/-- A table that is replaced as a whole is renamed if it has no alias to lose. -/
theorem target_renamed {n : TableName} (hn : n.tableName = old) :
    n.Renamed old names ⟨.plain new, none⟩ ↔ n.tableAlias = none := by
  constructor
  · exact fun h => h.1.symm
  · exact fun h => ⟨h.symm, .inr ⟨hn, hnew, .inr rfl⟩⟩

end

section

variable {t : TableSharding} {env : Env} {args : List Value}

/-! ## `SELECT` -/

theorem mem_shardOf
    (h : t.suffixOrStop condition t.table args = .ok suffix) :
    t.table ++ suffix ∈ t.shardOf args condition := by
  rw [TableSharding.shardOf, h]
  exact List.mem_singleton_self _

variable {names : List Text} {s : InsertStatement}

/-- A dispatch that goes through renames the table, unless it drops an alias. -/
theorem dispatchSelect_renamed : ∀ {k : Kind} (x x' : Node k),
    t.dispatchSelect args x = .ok x' → t.selectShards args x ⊆ names →
      (x.Renamed t.table names x' ↔ unaliased x = true) := by
  intro k x
  induction x with
  | present x ih =>
    intro x' h hnames
    rw [TableSharding.dispatchSelect] at h
    obtain ⟨y, hy, hx'⟩ := bind_eq_ok.mp h
    cases hx'
    exact ⟨fun h => (ih y hy hnames).mp h.present_inv,
      fun h => .present ((ih y hy hnames).mpr h)⟩
  | selectStatement hint all distinct columns fromItems condition groupingElements havingCondition
    op compound orderBy limit fetch offset _ _ _ _ _ ih =>
    intro x' h hnames
    rw [TableSharding.dispatchSelect] at h
    rw [TableSharding.selectShards, List.append_subset] at hnames
    obtain ⟨hshard, hrests⟩ := hnames
    split at h
    · cases h
    rw [unaliased, Bool.and_eq_true]
    cases hview : fromView fromItems with
    | table tbl =>
      simp only [hview] at h hshard ⊢
      split at h
      · cases h
      rename_i htable
      obtain ⟨suffix, hsuffix, h⟩ := bind_eq_ok.mp h
      obtain ⟨rest, hrest, h⟩ := bind_eq_ok.mp h
      cases h
      have hnew := hshard (mem_shardOf hsuffix)
      have htarget := target_renamed hnew (not_not.mp htable)
      obtain rfl := fromView_table hview
      rw [Option.isNone_iff_eq_none]
      constructor
      · intro h
        obtain ⟨hfrom, hcompound⟩ := h.selectStatement_inv
        exact ⟨htarget.mp hfrom.present_inv.table_inv, (ih rest hrest hrests).mp hcompound⟩
      · rintro ⟨hfrom, hcompound⟩
        exact .selectStatement (.refl _) (.present (.table (htarget.mpr hfrom)))
          (replaceCondition_renamed hnew _) (.refl _) (.refl _)
          ((ih rest hrest hrests).mpr hcompound) (mapElems_renamed hnew _) (.refl _) (.refl _)
          (.refl _)
    | join x operator y constraint =>
      simp only [hview, true_and] at h hshard ⊢
      split at h
      · cases h
      rename_i hxy
      obtain ⟨suffix, hsuffix, h⟩ := bind_eq_ok.mp h
      obtain ⟨rest, hrest, h⟩ := bind_eq_ok.mp h
      cases h
      have hnew := hshard (mem_shardOf hsuffix)
      obtain rfl := fromView_join hview
      constructor
      · exact fun h => (ih rest hrest hrests).mp h.selectStatement_inv.2
      · intro hcompound
        have hjoin : (Node.joinClause x operator y constraint).Renamed t.table names
            (.joinClause (if isSharding t.table x then renameSource (t.table ++ suffix) x else x)
              operator (if isSharding t.table x then y else renameSource (t.table ++ suffix) y)
              (replaceConstraint t.table (t.table ++ suffix) constraint)) := by
          by_cases hx : isSharding t.table x = true
          · rw [if_pos hx, if_pos hx]
            exact .joinClause (renameSource_renamed hnew hx) (.refl _)
              (replaceConstraint_renamed hnew _)
          · rw [if_neg hx, if_neg hx]
            have hy : isSharding t.table y = true := by simpa [hx] using hxy
            exact .joinClause (.refl _) (renameSource_renamed hnew hy)
              (replaceConstraint_renamed hnew _)
        exact .selectStatement (mapElems_renamed hnew _) (.present hjoin)
          (replaceCondition_renamed hnew _) (.refl _) (.refl _)
          ((ih rest hrest hrests).mpr hcompound) (mapElems_renamed hnew _) (.refl _) (.refl _)
          (.refl _)
    | other =>
      simp only [hview, true_and] at h ⊢
      obtain ⟨rest, hrest, h⟩ := bind_eq_ok.mp h
      cases h
      exact ⟨fun h => (ih rest hrest hrests).mp h.selectStatement_inv.2,
        fun h => .selectStatement (.refl _) (.refl _) (.refl _) (.refl _) (.refl _)
          ((ih rest hrest hrests).mpr h) (.refl _) (.refl _) (.refl _) (.refl _)⟩
  | _ =>
    intro x' h _
    cases h
    exact iff_of_true (.refl _) rfl

/-! ## `INSERT` -/

/-- Every generated key adds a column, and without one the rows are kept. -/
theorem insertRows_keys : ∀ {rows : List (Node (.list .expr))} {st st' : InsertState},
    rows.foldlM (t.insertRow env args) st = .ok st' →
    ∃ n, st'.calls = st.calls + n ∧
      st'.columnNames = st.columnNames ++ List.replicate n idColumn ∧
      (n = 0 → st'.rows = st.rows ++ rows)
  | [], st, st', h => by
    cases h
    exact ⟨0, rfl, (List.append_nil _).symm, fun _ => (List.append_nil _).symm⟩
  | row :: rows, st, st', h => by
    rw [List.foldlM_cons] at h
    obtain ⟨st₁, hrow, hrest⟩ := bind_eq_ok.mp h
    obtain ⟨n, hcalls, hcolumns, hrows⟩ := insertRows_keys hrest
    obtain ⟨-, ⟨hrow₁, hcol₁, hcall₁⟩ | ⟨id, -, hcol₁, hcall₁⟩⟩ := insertRow_ok hrow
    · refine ⟨n, hcalls.trans (by rw [hcall₁]), hcolumns.trans (by rw [hcol₁]), fun hn => ?_⟩
      rw [hrows hn, hrow₁, List.append_assoc]
      rfl
    · refine ⟨n + 1, by omega, ?_, nofun⟩
      rw [hcolumns, hcol₁, List.append_assoc, List.replicate_succ]
      rfl

/-- Without a generated key the columns and rows of an `INSERT` stay as they are. -/
theorem insertRows_kept {st : InsertState} (h : t.insertRows env args s = .ok st) :
    (st.columnNames = s.columnNames ∧ st.rows = s.expressions) ↔
      t.generatedKeys env args s = 0 := by
  obtain ⟨n, hcalls, hcolumns, hrows⟩ := insertRows_keys h
  rw [Nat.zero_add] at hcalls
  have hkeys : t.generatedKeys env args s = n := by
    rw [TableSharding.generatedKeys, h]
    exact hcalls
  rw [hkeys]
  constructor
  · rintro ⟨hsame, -⟩
    rw [hcolumns] at hsame
    simpa using hsame
  · rintro rfl
    exact ⟨hcolumns.trans (List.append_nil _), hrows rfl⟩

/-- An `INSERT` is only renamed exactly if it is direct. -/
theorem dispatchInsert_renamed (h : t.dispatchInsert env args s = .ok s') :
    (Statement.insert s).Renamed t.table (t.shards env args (.insert s)) (.insert s') ↔
      Direct t env args (.insert s) := by
  unfold TableSharding.dispatchInsert at h
  split at h
  · cases h
  rename_i htable
  split at h
  · cases h
  rename_i st hrows
  split at h
  · cases h
  cases h
  have hst : t.insertRows env args s = .ok st := hrows
  have hshards : t.shards env args (.insert s) = [t.table ++ st.suffix] := by
    rw [TableSharding.shards, hst]
  have htarget := target_renamed (List.mem_singleton_self (t.table ++ st.suffix)) (not_not.mp htable)
  rw [hshards, Direct, ← insertRows_kept hst, ← htarget]
  constructor
  · rintro ⟨hn, hs⟩
    exact ⟨hn, congrArg InsertStatement.columnNames hs, congrArg InsertStatement.expressions hs⟩
  · rintro ⟨hn, hcolumns, hrows⟩
    exact ⟨hn, by rw [hcolumns, hrows]⟩

/-! ## All statements -/

theorem rel_map_renamed (hnew : new ∈ names) (condition : Option Expr) :
    Option.Rel (Node.Renamed t.table names) condition
      (condition.map (replaceCondition t.table new)) := by
  cases condition with
  | none => exact .none
  | some x => exact .some (replaceCondition_renamed hnew x)

/-- The dispatcher renames the table and does nothing else, for the statements that are
direct. -/
theorem dispatchStatement_renamed {a b : Statement} (h : t.dispatchStatement env args a = .ok b) :
    a.Renamed t.table (t.shards env args a) b ↔ Direct t env args a := by
  cases a with
  | select s =>
    obtain ⟨s', hs, hb⟩ := bind_eq_ok.mp h
    cases hb
    exact dispatchSelect_renamed s s' hs (List.Subset.refl _)
  | insert s =>
    obtain ⟨s', hs, hb⟩ := bind_eq_ok.mp h
    cases hb
    exact dispatchInsert_renamed hs
  | update s | delete s =>
    rw [TableSharding.dispatchStatement] at h
    split at h
    · cases h
    rename_i htable
    obtain ⟨suffix, hsuffix, hb⟩ := bind_eq_ok.mp h
    cases hb
    have hnew := mem_shardOf hsuffix
    rw [Direct, ← target_renamed hnew (not_not.mp htable)]
    exact ⟨fun h => h.1, fun h => ⟨h, rel_map_renamed hnew _, rfl⟩⟩

theorem dispatchTableBySQL_eq_rewritten :
    t.dispatchTableBySQL env sql args = .rewritten text ↔
      ∃ a b, parseStatement sql = .ok a ∧ t.dispatchStatement env args a = .ok b ∧
        b.string = some text := by
  constructor
  · intro h
    cases hparse : parseStatement sql with
    | error e =>
      rw [TableSharding.dispatchTableBySQL, hparse] at h
      dsimp only at h
      split at h <;> cases h
    | ok a =>
      rw [TableSharding.dispatchTableBySQL_of_parse hparse] at h
      cases hb : t.dispatchStatement env args a with
      | error s =>
        rw [hb] at h
        cases s <;> cases h
      | ok b =>
        rw [hb] at h
        cases hs : b.string with
        | none =>
          simp only [hs] at h
          cases h
        | some s =>
          simp only [hs] at h
          cases h
          exact ⟨a, b, rfl, hb, hs⟩
  · rintro ⟨a, b, hparse, hb, hs⟩
    rw [TableSharding.dispatchTableBySQL_of_parse hparse, hb]
    simp only [hs]

end

/-- What is emitted for a table that is sharded by raw values is the original statement
with the table renamed if and only if the dispatcher has nothing else to change and the
renamed statement is well formed and legible. -/
theorem keepsStatement_iff (table : Text) (keys : List Text)
    (toStringE : Value → Except DbError Text) (env : Env) (sql : Text) (args : List Value) :
    KeepsStatement (rawSharding table keys toStringE) env sql args ↔
      ∀ a b, parseStatement sql = .ok a →
        (rawSharding table keys toStringE).dispatchStatement env args a = .ok b →
        b.string ≠ none →
          Direct (rawSharding table keys toStringE) env args a ∧ b.Wf ∧ b.legible = true := by
  constructor
  · intro hkeeps a b hparse hb hstring
    obtain ⟨text, htext⟩ := Option.ne_none_iff_exists'.mp hstring
    obtain ⟨a', b', hparse', hb', hrenamed, hread⟩ :=
      hkeeps text (dispatchTableBySQL_eq_rewritten.mpr ⟨a, b, hparse, hb, htext⟩)
    cases hparse.symm.trans hparse'
    cases hb.symm.trans hb'
    exact ⟨(dispatchStatement_renamed hb).mp hrenamed,
      (parseStatement_string_iff hparse hrenamed.alike htext).mp hread⟩
  · intro hdirect text hemitted
    obtain ⟨a, b, hparse, hb, htext⟩ := dispatchTableBySQL_eq_rewritten.mp hemitted
    obtain ⟨hdir, hread⟩ := hdirect a b hparse hb (by rw [htext]; nofun)
    have hrenamed := (dispatchStatement_renamed hb).mpr hdir
    exact ⟨a, b, hparse, hb, hrenamed,
      (parseStatement_string_iff hparse hrenamed.alike htext).mpr hread⟩

/-! ## Orders of users -/

/-- `user_id = ?`. -/
def boundCondition : Expr :=
  .binaryExpr (.ident (.plain "user_id".toList)) .EQ (.bindExpr ['?'] 0)

theorem parse_boundQuery :
    parseStatement "SELECT * FROM orders WHERE user_id = ?".toList =
      .ok (selectAll "orders".toList (.present boundCondition)) := by decide

/-- A comma in the value adds a table to the query. -/
theorem comma_value_not_kept :
    usersByRawValue.dispatchTableBySQL noEnv "SELECT * FROM orders WHERE user_id = ?".toList
      [.string "1, users".toList] =
        .rewritten "SELECT * FROM orders_1, users WHERE user_id = ?".toList ∧
    ¬KeepsStatement usersByRawValue noEnv "SELECT * FROM orders WHERE user_id = ?".toList
      [.string "1, users".toList] := by
  have hdispatch : usersByRawValue.dispatchStatement noEnv [.string "1, users".toList]
      (selectAll "orders".toList (.present boundCondition)) =
        .ok (selectAll "orders_1, users".toList (.present boundCondition)) := by rfl
  have hemitted := dispatchTableBySQL_eq_rewritten.mpr
    ⟨_, _, parse_boundQuery, hdispatch, (by decide :
      (selectAll "orders_1, users".toList (.present boundCondition)).string =
        some "SELECT * FROM orders_1, users WHERE user_id = ?".toList)⟩
  refine ⟨hemitted, fun hkeeps => ?_⟩
  obtain ⟨a, b, hparse, hb, -, hread⟩ := hkeeps _ hemitted
  cases parse_boundQuery.symm.trans hparse
  cases hdispatch.symm.trans hb
  -- the name of a shard that was read is a word
  obtain ⟨-, -, hfrom, -⟩ := (Statement.wf_unquoteCalls _).mp (parseStatement_wf hread)
  have hword : isWord "orders_1, users".toList = true := hfrom.1
  exact absurd hword (by decide)

end Gofusion.Db
