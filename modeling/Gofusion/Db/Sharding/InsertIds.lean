import Gofusion.Db.Sharding.InsertRows

/-!
# The keys of inserted rows

The `INSERT` case of `dispatchTableBySQL` for a table that is sharded by its primary key.  A row
whose key is missing or zero gets a generated one, in a new column `id` behind the others.  The
columns belong to the statement and not to the row, so a key that is generated for one row changes
how the others are read.
-/

namespace Gofusion.Db

open Gofusion.Sqlparser Gofusion.Lib

/-! ## What an `INSERT` should do -/

/-- The key a row comes with, unless it is zero. -/
def givenKey (id : Option (Value × Nat)) : Option Value :=
  match id with
  | none => none
  | some (v, n) => if n = 0 then none else some v

/-- The rows, each with the key it comes with or else the next generated one, belong to one shard. -/
def TableSharding.OneShard (t : TableSharding) (env : Env) (args : List Value) (ids : Nat → Nat)
    (suffix : Text) (names : List Ident) : Nat → List (Node (.list .expr)) → Prop
  | _, [] => True
  | calls, row :: rows =>
    ∃ id, rowID env args names (rowExprs row) = .ok id ∧
      match givenKey id with
      | some v =>
        t.HashesTo args suffix names (rowExprs row) [v] ∧
          t.OneShard env args ids suffix names calls rows
      | none =>
        t.HashesTo args suffix names (rowExprs row) [.string (decimal (ids calls))] ∧
          t.OneShard env args ids suffix names (calls + 1) rows

/-- An `INSERT` into a table that is sharded by its primary key, with rows for one shard. -/
structure TableSharding.Inserts (t : TableSharding) (env : Env) (args : List Value)
    (ids : Nat → Nat) (suffix : Text) (stmt : InsertStatement) : Prop where
  primary : t.isShardingPrimaryKey = true
  onlyKey : ∀ key ∈ t.shardingKeys, isIdKey key = true → key = t.shardingPrimaryKey
  table : stmt.tableName.tableName = t.table
  rows : stmt.expressions ≠ []
  lengths : ∀ row ∈ stmt.expressions, (rowExprs row).length = stmt.columnNames.length
  idColumns : (stmt.columnNames.filter isIdColumn).length ≤ 1
  generator : env.next = some fun n => .ok (ids n)
  generated : ∀ n, ids n ≠ 0 ∧ ids n < 2 ^ 64
  oneShard : t.OneShard env args ids suffix stmt.columnNames 0 stmt.expressions
  created : env.createTable suffix = .ok ()

/-- Every row of the emitted statement has one key, and its shard is the one of all its values. -/
structure TableSharding.IdPerRow (t : TableSharding) (env : Env) (args : List Value)
    (stmt out : InsertStatement) (suffix : Text) : Prop where
  table : out.tableName = ⟨.plain (t.table ++ suffix), none⟩
  idColumn : (out.columnNames.filter isIdColumn).length = 1
  rows : out.expressions.length = stmt.expressions.length
  lengths : ∀ row ∈ out.expressions, (rowExprs row).length = out.columnNames.length
  ids : ∀ row ∈ out.expressions, ∃ v id,
    rowID env args out.columnNames (rowExprs row) = .ok (some (v, id)) ∧ id ≠ 0 ∧
      t.HashesTo args suffix out.columnNames (rowExprs row) [v]

/-- The rows have their keys, or there is one row without and the shard does not depend on how the
key is spelled. -/
def TableSharding.Keyed (t : TableSharding) (env : Env) (args : List Value) (suffix : Text)
    (stmt : InsertStatement) : Prop :=
  (∃ i ∈ stmt.columnNames, i.name = t.shardingPrimaryKey) ∧
      (∀ row ∈ stmt.expressions, ∀ v,
        rowID env args stmt.columnNames (rowExprs row) ≠ .ok (some (v, 0))) ∨
    (∀ i ∈ stmt.columnNames, isIdColumn i = false) ∧ ∃ row, stmt.expressions = [row] ∧
      (t.shardingPrimaryKey = ['i', 'd'] ∨
        t.HashesTo args suffix stmt.columnNames (rowExprs row) [])

/-! ## The whole statement -/

section

variable {t : TableSharding} {env : Env} {args : List Value} {ids : Nat → Nat} {suffix : Text}
  {stmt : InsertStatement}

theorem TableSharding.OneShard.of_mem :
    ∀ {rows : List (Node (.list .expr))} {calls : Nat},
    t.OneShard env args ids suffix names calls rows → ∀ row ∈ rows,
      ∃ id own, rowID env args names (rowExprs row) = .ok id ∧
        t.HashesTo args suffix names (rowExprs row) [own] ∧
        ∀ v n, id = some (v, n) → n ≠ 0 → own = v
  | [], _, _ => nofun
  | row :: rows, calls, h => by
    obtain ⟨id, hid, h⟩ := h
    rw [List.forall_mem_cons]
    cases hgiven : givenKey id with
    | none =>
      rw [hgiven] at h
      refine ⟨⟨id, _, hid, h.1, fun v n heq hn => ?_⟩, h.2.of_mem⟩
      simp [heq, givenKey, hn] at hgiven
    | some v =>
      rw [hgiven] at h
      refine ⟨⟨id, _, hid, h.1, fun v' n heq hn => ?_⟩, h.2.of_mem⟩
      simp only [heq, givenKey, if_neg hn] at hgiven
      exact (Option.some.inj hgiven).symm

namespace TableSharding.Inserts

variable (h : t.Inserts env args ids suffix stmt)

include h

variable {i : Ident} {st : InsertState} {out : InsertStatement} {suffix' : Text}

theorem isIdColumn_of_name (hname : i.name = t.shardingPrimaryKey) : isIdColumn i = true := by
  rw [isIdColumn, hname, isIdKey_shardingPrimaryKey h.primary]

section

variable (hi : ∃ i ∈ stmt.columnNames, i.name = t.shardingPrimaryKey)

include hi

/-- The column of the key is the `id` column, if it is there. -/
theorem firstExpr_eq (exprs : List Expr) :
    firstExpr isIdColumn stmt.columnNames exprs =
      columnExpr t.shardingPrimaryKey stmt.columnNames exprs := by
  obtain ⟨i, hi, hname⟩ := hi
  rw [columnExpr_eq]
  refine firstExpr_congr fun j hj => Bool.eq_iff_iff.mpr ?_
  rw [decide_eq_true_eq]
  constructor
  · intro hid
    rw [eq_of_filter_le_one h.idColumns hj hid hi (h.isIdColumn_of_name hname), hname]
  · exact h.isIdColumn_of_name

variable {row : Node (.list .expr)} (hrow : row ∈ stmt.expressions)

include hrow

variable {v : Value} {id : Nat}

theorem insertValue_found
    (hid : rowID env args stmt.columnNames (rowExprs row) = .ok (some (v, id))) :
    ∃ values, t.valuesOf args stmt.columnNames (rowExprs row) (if id = 0 then [] else [v])
        t.shardingKeys = .ok values ∧
      t.insertValue env stmt.columnNames (rowExprs row) args = .ok (values, id) := by
  obtain ⟨-, own, -, ⟨values, hvalues, -⟩, -⟩ := h.oneShard.of_mem row hrow
  obtain ⟨values', hvalues'⟩ := valuesOf_ok (if id = 0 then [] else [v]) hvalues
  rw [rowID, h.firstExpr_eq hi] at hid
  cases hx : columnExpr t.shardingPrimaryKey stmt.columnNames (rowExprs row) with
  | none => simp [hx] at hid
  | some x =>
    simp only [hx] at hid
    obtain ⟨r, hr, hsome⟩ := map_eq_ok hid
    cases hsome
    exact ⟨values', hvalues', insertValue_eq h.primary (h.lengths row hrow).symm
      (fun vs n _ => insertKey_found hx hr vs n) hvalues'⟩

theorem insertValue_given (hne : id ≠ 0)
    (hid : rowID env args stmt.columnNames (rowExprs row) = .ok (some (v, id))) :
    ∃ values, t.insertValue env stmt.columnNames (rowExprs row) args = .ok (values, id) ∧
      t.shardingFunc values = .ok suffix ∧
      t.HashesTo args suffix stmt.columnNames (rowExprs row) [v] := by
  obtain ⟨values, hvalues, hread⟩ := h.insertValue_found hi hrow hid
  obtain ⟨id', own, hid', ⟨values', hvalues', hsuffix⟩, hown⟩ := h.oneShard.of_mem row hrow
  cases hid.symm.trans hid'
  obtain rfl := hown v id rfl hne
  rw [if_neg hne] at hvalues
  cases hvalues.symm.trans hvalues'
  exact ⟨values, hread, hsuffix, values, hvalues, hsuffix⟩

/-- Where there is a column for the key, every row has one. -/
theorem exists_rowID :
    ∃ v id, rowID env args stmt.columnNames (rowExprs row) = .ok (some (v, id)) := by
  obtain ⟨id, -, hid, -⟩ := h.oneShard.of_mem row hrow
  cases id with
  | some e => exact ⟨e.1, e.2, hid⟩
  | none =>
    rw [rowID] at hid
    cases hx : firstExpr isIdColumn stmt.columnNames (rowExprs row) with
    | some x =>
      simp only [hx] at hid
      obtain ⟨_, -, hnone⟩ := map_eq_ok hid
      cases hnone
    | none =>
      obtain ⟨i, hmem, hname⟩ := hi
      exact absurd hx (firstExpr_ne_none (h.lengths row hrow).symm hmem
        (h.isIdColumn_of_name hname))

end

theorem insertValue_none (hnone : ∀ i ∈ stmt.columnNames, i.name ≠ t.shardingPrimaryKey)
    (hrow : row ∈ stmt.expressions) :
    ∃ values, t.insertValue env stmt.columnNames (rowExprs row) args = .ok (values, 0) := by
  obtain ⟨-, own, -, ⟨values, hvalues, -⟩, -⟩ := h.oneShard.of_mem row hrow
  have hx : columnExpr t.shardingPrimaryKey stmt.columnNames (rowExprs row) = none := by
    rw [columnExpr_eq]
    exact firstExpr_eq_none fun i hi => decide_eq_false (hnone i hi)
  obtain ⟨values', -, hread⟩ := insertValue_missing h.primary (h.lengths row hrow).symm hx hvalues
  exact ⟨values', hread⟩

/-- With an `id` column and no second one, all rows have come with their keys. -/
theorem keyed_of_column (hst : t.insertRows env args stmt = .ok st)
    (hone : (st.columnNames.filter isIdColumn).length = 1) (hi : i ∈ stmt.columnNames)
    (hid : isIdColumn i = true) : t.Keyed env args suffix stmt := by
  have hpos : 0 < (stmt.columnNames.filter isIdColumn).length :=
    List.length_pos_of_mem (List.mem_filter.mpr ⟨hi, hid⟩)
  have hle : (st.columnNames.filter isIdColumn).length ≤
      (stmt.columnNames.filter isIdColumn).length := by omega
  have hgiven := insertRows_given h.primary h.generator hst hle
  by_cases hcolumn : ∃ j ∈ stmt.columnNames, j.name = t.shardingPrimaryKey
  · refine .inl ⟨hcolumn, fun row hrow v hzero => ?_⟩
    obtain ⟨values, -, hread⟩ := h.insertValue_found hcolumn hrow hzero
    exact hgiven row hrow values hread
  · obtain ⟨row, hrow⟩ := List.exists_mem_of_ne_nil _ h.rows
    obtain ⟨values, hread⟩ := h.insertValue_none (fun j hj hname => hcolumn ⟨j, hj, hname⟩) hrow
    exact absurd hread (hgiven row hrow values)

omit h in
theorem mem_single (hrows : stmt.expressions = [row]) :
    row ∈ stmt.expressions := by
  rw [hrows]
  exact List.mem_singleton_self row

theorem length_single (hrows : stmt.expressions = [row]) :
    stmt.columnNames.length = (rowExprs row).length :=
  (h.lengths row (mem_single hrows)).symm

section

variable (hnone : ∀ i ∈ stmt.columnNames, isIdColumn i = false)

include hnone

theorem name_ne : ∀ i ∈ stmt.columnNames, i.name ≠ t.shardingPrimaryKey := by
  intro i hi heq
  exact Bool.false_ne_true ((hnone i hi).symm.trans (h.isIdColumn_of_name heq))

variable {row : Node (.list .expr)} (hrows : stmt.expressions = [row])

include hrows

/-- A single row without a key gets one. -/
theorem insertRows_single :
    t.insertRows env args stmt = .ok st ↔
      ∃ suffix, t.shardingFunc (t.reread env args stmt.columnNames row (ids 0)) = .ok suffix ∧
        st = ⟨stmt.columnNames ++ [idColumn], [Node.ofList (keyedRow row (ids 0))], suffix, 1⟩ := by
  obtain ⟨values, hread⟩ := h.insertValue_none (h.name_ne hnone) (mem_single hrows)
  have hstep := fun st => @insertRow_generated t env args ids ⟨stmt.columnNames, [], [], 0⟩ st row
    values h.primary h.generator hread
  rw [TableSharding.insertRows, hrows, List.foldlM_cons]
  constructor
  · intro hst
    obtain ⟨st₁, hst₁, hst⟩ := bind_eq_ok.mp hst
    cases hst
    obtain ⟨suffix, hsuffix, -, rfl⟩ := (hstep _).mp hst₁
    exact ⟨suffix, hsuffix, rfl⟩
  · rintro ⟨suffix, hsuffix, rfl⟩
    exact bind_eq_ok.mpr ⟨_, (hstep _).mpr ⟨suffix, hsuffix, .inl rfl, rfl⟩, rfl⟩

theorem hashesTo_generated :
    t.HashesTo args suffix stmt.columnNames (rowExprs row) [.string (decimal (ids 0))] := by
  have hone := h.oneShard
  rw [hrows] at hone
  obtain ⟨id, hid, hone⟩ := hone
  rw [rowID, firstExpr_eq_none hnone] at hid
  cases hid
  exact hone.1

/-- The shard of a row with a generated key: with a key spelled `id` the right one, and otherwise
the one of the values without the key. -/
theorem reread_iff :
    t.shardingFunc (t.reread env args stmt.columnNames row (ids 0)) = .ok suffix ↔
      t.shardingPrimaryKey = ['i', 'd'] ∨
        t.HashesTo args suffix stmt.columnNames (rowExprs row) [] := by
  have hlen := h.length_single hrows
  have hlen' : (stmt.columnNames ++ [idColumn]).length = (keyedRow row (ids 0)).length := by
    rw [keyedRow, List.length_append, List.length_append, hlen]
    rfl
  have hcolumn : columnExpr t.shardingPrimaryKey stmt.columnNames (rowExprs row) = none := by
    rw [columnExpr_eq]
    exact firstExpr_eq_none fun i hi => decide_eq_false (h.name_ne hnone i hi)
  have hcolumn' : columnExpr t.shardingPrimaryKey (stmt.columnNames ++ [idColumn])
      (keyedRow row (ids 0)) =
        if ['i', 'd'] = t.shardingPrimaryKey then some (.numberLit (decimal (ids 0))) else none := by
    rw [columnExpr_eq, keyedRow, firstExpr_append hlen, ← columnExpr_eq, hcolumn, Option.none_or]
    exact if_congr decide_eq_true_iff rfl rfl
  have hgenerated := h.hashesTo_generated hnone hrows
  rw [← hashesTo_keyedRow h.onlyKey hlen] at hgenerated
  obtain ⟨values, hvalues, hsuffix⟩ := hgenerated
  by_cases hkey : t.shardingPrimaryKey = ['i', 'd']
  · rw [if_pos hkey.symm] at hcolumn'
    have hown : ∀ vs n, n = 0 ∨ n = ids 0 →
        t.insertKey env (stmt.columnNames ++ [idColumn]) (keyedRow row (ids 0)) args (vs, n)
          t.shardingPrimaryKey = .ok (vs ++ [.string (decimal (ids 0))], ids 0) := by
      intro vs n _
      rw [insertKey_found hcolumn' (insertOperand_decimal (h.generated 0).2),
        if_neg (h.generated 0).1]
    rw [TableSharding.reread, insertValue_eq h.primary hlen' hown hvalues]
    simp [hkey, hsuffix]
  · rw [if_neg (Ne.symm hkey)] at hcolumn'
    obtain ⟨values', hvalues', hread⟩ :=
      @insertValue_missing t env args _ _ _ h.primary hlen' hcolumn' _ hvalues
    rw [TableSharding.reread, hread, ← hashesTo_keyedRow h.onlyKey hlen, TableSharding.HashesTo,
      hvalues']
    simp [hkey]

theorem idPerRow_single :
    t.IdPerRow env args stmt
      { stmt with
        tableName := ⟨.plain (t.table ++ suffix), none⟩
        columnNames := stmt.columnNames ++ [idColumn]
        expressions := [Node.ofList (keyedRow row (ids 0))] } suffix := by
  have hlen := h.length_single hrows
  constructor
  case table => rfl
  case idColumn =>
    have hfilter : stmt.columnNames.filter isIdColumn = [] :=
      List.filter_eq_nil_iff.mpr fun i hi => by simp [hnone i hi]
    rw [List.filter_append, hfilter]
    rfl
  case rows => rw [hrows]; rfl
  case lengths =>
    intro r hr
    rw [List.mem_singleton.mp hr, rowExprs_ofList, keyedRow, List.length_append,
      List.length_append, hlen]
    rfl
  case ids =>
    intro r hr
    rw [List.mem_singleton.mp hr, rowExprs_ofList]
    refine ⟨_, _, rowID_keyedRow hlen hnone (h.generated 0).2, (h.generated 0).1, ?_⟩
    rw [hashesTo_keyedRow h.onlyKey hlen]
    exact h.hashesTo_generated hnone hrows

end

/-- Without an `id` column there is one row, and its shard is known without the key or the key is
spelled `id`. -/
theorem keyed_of_no_column (hnone : ∀ i ∈ stmt.columnNames, isIdColumn i = false)
    (hout : t.dispatchInsert env args stmt = .ok out) (hids : t.IdPerRow env args stmt out suffix') :
    t.Keyed env args suffix stmt := by
  obtain ⟨-, st, hst, -, rfl⟩ := dispatchInsert_eq_ok.mp hout
  cases hrows : stmt.expressions with
  | nil => exact absurd hrows h.rows
  | cons row rest =>
    cases rest with
    | nil =>
      obtain ⟨routed, hrouted, rfl⟩ := (h.insertRows_single hnone hrows).mp hst
      have htable : t.table ++ routed = t.table ++ suffix' :=
        congrArg (fun n : TableName => n.name.name) hids.table
      obtain rfl := List.append_cancel_left htable
      have hlen := h.length_single hrows
      obtain ⟨v, id, hid, -, hhash⟩ := hids.ids _ (List.mem_singleton_self _)
      rw [rowExprs_ofList] at hid hhash
      rw [rowID_keyedRow hlen hnone (h.generated 0).2] at hid
      cases hid
      rw [hashesTo_keyedRow h.onlyKey hlen] at hhash
      obtain rfl := hhash.unique (h.hashesTo_generated hnone hrows)
      exact .inr ⟨hnone, row, hrows, (h.reread_iff hnone hrows).mp hrouted⟩
    | cons row₂ rest =>
      -- the second row has an expression less than there are columns now
      have hmem : ∀ r ∈ [row, row₂], r ∈ stmt.expressions := by
        rw [hrows]
        exact fun r hr => List.mem_append_left rest hr
      have hlen := h.lengths row (hmem row (by simp))
      have hlen₂ := h.lengths row₂ (hmem row₂ (by simp))
      obtain ⟨values, hread⟩ := h.insertValue_none (h.name_ne hnone) (hmem row (by simp))
      rw [TableSharding.insertRows, hrows, List.foldlM_cons] at hst
      obtain ⟨st₁, hrow, hst⟩ := bind_eq_ok.mp hst
      obtain ⟨_, -, -, rfl⟩ := (insertRow_generated h.primary h.generator hread).mp hrow
      rw [List.foldlM_cons] at hst
      obtain ⟨st₂, hrow₂, -⟩ := bind_eq_ok.mp hst
      have hshort : (stmt.columnNames ++ [idColumn]).length = (rowExprs row₂).length :=
        insertRow_length hrow₂
      rw [List.length_append, List.length_singleton] at hshort
      omega

section

variable (hi : ∃ i ∈ stmt.columnNames, i.name = t.shardingPrimaryKey)
  (hids : ∀ row ∈ stmt.expressions, ∃ v id,
    rowID env args stmt.columnNames (rowExprs row) = .ok (some (v, id)) ∧ id ≠ 0)

include hi hids

/-- Rows with keys are left as they are. -/
theorem insertRows_keyed :
    t.insertRows env args stmt = .ok ⟨stmt.columnNames, stmt.expressions, suffix, 0⟩ := by
  have hrun : ∀ (rows : List (Node (.list .expr))) (st : InsertState),
      (∀ row ∈ rows, row ∈ stmt.expressions) → st.columnNames = stmt.columnNames →
      st.suffix = [] ∨ st.suffix = suffix →
      rows.foldlM (t.insertRow env args) st =
        .ok { st with
          rows := st.rows ++ rows
          suffix := if rows = [] then st.suffix else suffix } := by
    intro rows
    induction rows with
    | nil =>
      intro st _ _ _
      simp [pure, Except.pure]
    | cons row rows ih =>
      intro st hmem hnames hst
      obtain ⟨hrow, hrest⟩ := List.forall_mem_cons.mp hmem
      obtain ⟨v, id, hid, hne⟩ := hids row hrow
      obtain ⟨values, hread, hsuffix, -⟩ := h.insertValue_given hi hrow hne hid
      rw [← hnames] at hread
      rw [List.foldlM_cons, insertRow_given hread hne hsuffix hst]
      refine (ih { st with rows := st.rows ++ [row], suffix := suffix } hrest hnames
        (.inr rfl)).trans ?_
      simp
  have := hrun stmt.expressions ⟨stmt.columnNames, [], [], 0⟩ (fun _ hr => hr) rfl (.inl rfl)
  rw [TableSharding.insertRows, this, if_neg h.rows]
  rfl

theorem idPerRow_keyed :
    t.IdPerRow env args stmt
      { stmt with tableName := ⟨.plain (t.table ++ suffix), none⟩ } suffix where
  table := rfl
  idColumn := by
    obtain ⟨i, hmem, hname⟩ := hi
    exact le_antisymm h.idColumns
      (List.length_pos_of_mem (List.mem_filter.mpr ⟨hmem, h.isIdColumn_of_name hname⟩))
  rows := rfl
  lengths := h.lengths
  ids row hrow := by
    obtain ⟨v, id, hid, hne⟩ := hids row hrow
    obtain ⟨-, -, -, hhash⟩ := h.insertValue_given hi hrow hne hid
    exact ⟨v, id, hid, hne, hhash⟩

end

/-- What is emitted for a keyed statement, and that it can be printed if the statement can. -/
theorem emitted (hkeyed : t.Keyed env args suffix stmt) :
    ∃ out, t.dispatchInsert env args stmt = .ok out ∧ t.IdPerRow env args stmt out suffix ∧
      out.string.isSome = stmt.string.isSome := by
  obtain ⟨hi, hids⟩ | ⟨hnone, row, hrows, hkey⟩ := hkeyed
  · have hids' : ∀ row ∈ stmt.expressions, ∃ v id,
        rowID env args stmt.columnNames (rowExprs row) = .ok (some (v, id)) ∧ id ≠ 0 := by
      intro row hrow
      obtain ⟨v, id, hid⟩ := h.exists_rowID hi hrow
      refine ⟨v, id, hid, ?_⟩
      rintro rfl
      exact hids row hrow v hid
    exact ⟨_, dispatchInsert_eq_ok.mpr ⟨h.table, _, h.insertRows_keyed hi hids', h.created, rfl⟩,
      h.idPerRow_keyed hi hids', insert_string_isSome rfl rfl rfl rfl rfl⟩
  · have hst := (h.insertRows_single hnone hrows).mpr
      ⟨suffix, (h.reread_iff hnone hrows).mpr hkey, rfl⟩
    refine ⟨_, dispatchInsert_eq_ok.mpr ⟨h.table, _, hst, h.created, rfl⟩,
      h.idPerRow_single hnone hrows, insert_string_isSome rfl rfl rfl rfl ?_⟩
    rw [hrows, stringList_singleton, stringList_singleton, keyedRow_string_isSome]

/-- Only such statements are emitted with one key for each row. -/
theorem keyed_of_emitted (hout : t.dispatchInsert env args stmt = .ok out)
    (hids : t.IdPerRow env args stmt out suffix') : t.Keyed env args suffix stmt := by
  by_cases hcolumn : ∃ i ∈ stmt.columnNames, isIdColumn i = true
  · obtain ⟨i, hi, hid⟩ := hcolumn
    obtain ⟨-, st, hst, -, rfl⟩ := dispatchInsert_eq_ok.mp hout
    exact h.keyed_of_column hst hids.idColumn hi hid
  · have hnone : ∀ i ∈ stmt.columnNames, isIdColumn i = false := by
      intro i hi
      exact Bool.eq_false_iff.mpr fun hid => hcolumn ⟨i, hi, hid⟩
    exact h.keyed_of_no_column hnone hout hids

end TableSharding.Inserts

end

/-- Every row of an `INSERT` for one shard is emitted with one key, and the shard is that of all
its values, if and only if the statement can be printed and either all rows come with their keys
under the name that is configured, or there is a single row without and its shard is found. -/
theorem insert_ids_iff {t : TableSharding} {env : Env} {args : List Value} {ids : Nat → Nat}
    {suffix sql : Text} {stmt : InsertStatement} (hparse : parseStatement sql = .ok (.insert stmt))
    (h : t.Inserts env args ids suffix stmt) :
    (∃ out text suffix', t.dispatchStatement env args (.insert stmt) = .ok (.insert out) ∧
        out.string = some text ∧ t.dispatchTableBySQL env sql args = .rewritten text ∧
        t.IdPerRow env args stmt out suffix') ↔
      stmt.string ≠ none ∧ t.Keyed env args suffix stmt := by
  have hstmt : ∀ {out}, t.dispatchStatement env args (.insert stmt) = .ok (.insert out) ↔
      t.dispatchInsert env args stmt = .ok out := by
    intro out
    rw [TableSharding.dispatchStatement]
    cases t.dispatchInsert env args stmt <;> simp [bind, Except.bind]
  constructor
  · rintro ⟨out, text, suffix', hout, htext, -, hids⟩
    rw [hstmt] at hout
    have hkeyed := h.keyed_of_emitted hout hids
    obtain ⟨out', hout', -, hsome⟩ := h.emitted hkeyed
    cases hout.symm.trans hout'
    rw [htext] at hsome
    exact ⟨Option.isSome_iff_ne_none.mp hsome.symm, hkeyed⟩
  · rintro ⟨hsome, hkeyed⟩
    obtain ⟨out, hout, hids, hstring⟩ := h.emitted hkeyed
    rw [Option.isSome_iff_ne_none.mpr hsome] at hstring
    obtain ⟨text, htext⟩ := Option.isSome_iff_exists.mp hstring
    exact ⟨out, text, suffix, hstmt.mpr hout, htext,
      dispatchTableBySQL_eq_rewritten.mpr ⟨_, _, hparse, hstmt.mpr hout, htext⟩, hids⟩

/-! ## Orders in one shard -/

/-- Orders that are sharded by their primary key, with one shard. -/
def ordersByID : TableSharding where
  table := "orders".toList
  shardingKeys := [['i', 'd']]
  shardingFunc _ := .ok "_id_0".toList

/-- A generator of keys from one on, and tables that can be created. -/
def numbering (n : Nat) : Nat := n % 1000 + 1

def numberingEnv : Env := ⟨fun _ => .ok 0, some fun n => .ok (numbering n), fun _ => .ok ()⟩

theorem numbering_generated (n : Nat) : numbering n ≠ 0 ∧ numbering n < 2 ^ 64 := by
  rw [numbering]
  omega

theorem ordersByID_inserts {stmt : InsertStatement}
    (htable : stmt.tableName.tableName = "orders".toList) (hrows : stmt.expressions ≠ [])
    (hlengths : ∀ row ∈ stmt.expressions, (rowExprs row).length = stmt.columnNames.length)
    (hids : (stmt.columnNames.filter isIdColumn).length ≤ 1)
    (hshard : ordersByID.OneShard numberingEnv [] numbering "_id_0".toList stmt.columnNames 0
      stmt.expressions) :
    ordersByID.Inserts numberingEnv [] numbering "_id_0".toList stmt where
  primary := rfl
  onlyKey _ hkey _ := List.mem_singleton.mp hkey
  table := htable
  rows := hrows
  lengths := hlengths
  idColumns := hids
  generator := rfl
  generated := numbering_generated
  oneShard := hshard
  created := rfl

/-- `INSERT INTO orders (id, name) VALUES (7, 'a'), (8, 'b')`. -/
def keyedInsert : InsertStatement where
  tableName := ⟨.plain "orders".toList, none⟩
  columnNames := [.plain "id".toList, .plain "name".toList]
  expressions := [Node.ofList [.numberLit ['7'], .stringLit ['a']],
    Node.ofList [.numberLit ['8'], .stringLit ['b']]]

/-- Two rows with their keys are written to the shard. -/
theorem keyed_rows_inserted :
    (keyedInsert.string ≠ none ∧
      ordersByID.Keyed numberingEnv [] "_id_0".toList keyedInsert) ∧
    ∃ out text suffix, ordersByID.dispatchStatement numberingEnv [] (.insert keyedInsert) =
        .ok (.insert out) ∧ out.string = some text ∧
      ordersByID.dispatchTableBySQL numberingEnv
        "INSERT INTO orders (id, name) VALUES (7, 'a'), (8, 'b')".toList [] = .rewritten text ∧
      ordersByID.IdPerRow numberingEnv [] keyedInsert out suffix := by
  have hkeyed : keyedInsert.string ≠ none ∧
      ordersByID.Keyed numberingEnv [] "_id_0".toList keyedInsert := by
    refine ⟨by decide, .inl ⟨⟨.plain "id".toList, .head _, rfl⟩, ?_⟩⟩
    intro row hrow v hzero
    obtain rfl | hrow := List.mem_cons.mp hrow
    · have hid : some (Value.string ['7'], 7) = some (v, 0) := Except.ok.inj hzero
      simp at hid
    · obtain rfl := List.mem_singleton.mp hrow
      have hid : some (Value.string ['8'], 8) = some (v, 0) := Except.ok.inj hzero
      simp at hid
  have hinserts := @ordersByID_inserts keyedInsert rfl nofun (by decide) (by decide)
    ⟨_, rfl, ⟨_, rfl, rfl⟩, _, rfl, ⟨_, rfl, rfl⟩, trivial⟩
  exact ⟨hkeyed, (insert_ids_iff (by decide) hinserts).mpr hkeyed⟩

/-- `INSERT INTO orders (name) VALUES ('a'), ('b')`. -/
def keylessInsert : InsertStatement where
  tableName := ⟨.plain "orders".toList, none⟩
  columnNames := [.plain "name".toList]
  expressions := [Node.ofList [.stringLit ['a']], Node.ofList [.stringLit ['b']]]

/-- The second of two rows without keys does not match the columns any more. -/
theorem keyless_rows_refused :
    parseStatement "INSERT INTO orders (name) VALUES ('a'), ('b')".toList =
        .ok (.insert keylessInsert) ∧
      ordersByID.Inserts numberingEnv [] numbering "_id_0".toList keylessInsert ∧
      ordersByID.dispatchTableBySQL numberingEnv
        "INSERT INTO orders (name) VALUES ('a'), ('b')".toList [] =
          .failed .columnAndExprMismatch := by
  have hparse : parseStatement "INSERT INTO orders (name) VALUES ('a'), ('b')".toList =
      .ok (.insert keylessInsert) := by decide
  refine ⟨hparse, ordersByID_inserts rfl nofun (by decide) (by decide)
    ⟨_, rfl, ⟨_, rfl, rfl⟩, _, rfl, ⟨_, rfl, rfl⟩, trivial⟩, ?_⟩
  rw [TableSharding.dispatchTableBySQL_of_parse hparse]
  rfl

end Gofusion.Db
