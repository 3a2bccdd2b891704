import Gofusion.Db.Sharding.Emitted

/-!
# The rows of an `INSERT`

How `insertValue` and the loop over the rows of an `INSERT` read the keys of a row, for a table that
is sharded by its primary key.
-/

namespace Gofusion.Db

open Gofusion.Sqlparser Gofusion.Lib

/-! ## The keys of a row -/

/-- A column that is the primary key.  Column names do not depend on the case. -/
def isIdColumn (i : Ident) : Bool := isIdKey i.name

/-- The expression of the first column with a property. -/
def firstExpr (p : Ident → Bool) (names : List Ident) (exprs : List Expr) : Option Expr :=
  ((names.zip exprs).find? fun e => p e.1).map (·.2)

/-- The primary key of a row and its number. -/
def rowID (env : Env) (args : List Value) (names : List Ident) (exprs : List Expr) :
    Except Fault (Option (Value × Nat)) :=
  match firstExpr isIdColumn names exprs with
  | none => .ok none
  | some x => (insertOperand env args true x).map some

def columnValue (args : List Value) (names : List Ident) (exprs : List Expr) (key : Text) :
    Except Fault Value :=
  match columnExpr key names exprs with
  | none => .error (.error .missingShardingKey)
  | some x => operandValue args x

/-- The value of a key in a row, with `own` in the place of the primary key. -/
def TableSharding.valueOf (t : TableSharding) (args : List Value) (names : List Ident)
    (exprs : List Expr) (own : List Value) (key : Text) : Except Fault (List Value) :=
  if key = t.shardingPrimaryKey then .ok own
  else (columnValue args names exprs key).map ([·])

/-- The values of several keys in a row, in their order. -/
def TableSharding.valuesOf (t : TableSharding) (args : List Value) (names : List Ident)
    (exprs : List Expr) (own : List Value) : List Text → Except Fault (List Value)
  | [] => .ok []
  | key :: keys => do
    let v ← t.valueOf args names exprs own key
    let vs ← t.valuesOf args names exprs own keys
    .ok (v ++ vs)

/-- The sharding function gives the suffix for the values of all keys of a row. -/
def TableSharding.HashesTo (t : TableSharding) (args : List Value) (suffix : Text)
    (names : List Ident) (exprs : List Expr) (own : List Value) : Prop :=
  ∃ values, t.valuesOf args names exprs own t.shardingKeys = .ok values ∧
    t.shardingFunc values = .ok suffix

/-! ## Columns -/

section

variable {names : List Ident} {exprs : List Expr} {p : Ident → Bool}

/-- The expression of a column is the one at its first position. -/
theorem columnExpr_eq (key : Text) : ∀ (names : List Ident) (exprs : List Expr),
    columnExpr key names exprs = firstExpr (·.name = key) names exprs
  | [], _ => rfl
  | _ :: _, [] => rfl
  | i :: is, x :: xs => by
    rw [columnExpr, columnExpr_eq key is xs]
    by_cases h : i.name = key <;> simp [firstExpr, h]

theorem firstExpr_eq_none (h : ∀ i ∈ names, p i = false) : firstExpr p names exprs = none := by
  rw [firstExpr, Option.map_eq_none_iff, List.find?_eq_none]
  rintro ⟨i, x⟩ hmem
  simp [h i (List.of_mem_zip hmem).1]

theorem firstExpr_ne_none (hlen : names.length = exprs.length) (hi : i ∈ names)
    (hp : p i = true) : firstExpr p names exprs ≠ none := by
  rw [firstExpr, Ne, Option.map_eq_none_iff, List.find?_eq_none]
  intro h
  rw [← List.map_fst_zip hlen.le] at hi
  obtain ⟨e, he, rfl⟩ := List.mem_map.mp hi
  exact h e he hp

theorem firstExpr_append (hlen : names.length = exprs.length) (i : Ident) (x : Expr) :
    firstExpr p (names ++ [i]) (exprs ++ [x]) =
      (firstExpr p names exprs).or (if p i then some x else none) := by
  rw [firstExpr, List.zip_append hlen, List.find?_append, Option.map_or]
  by_cases h : p i <;> simp [firstExpr, h]

theorem firstExpr_congr : ∀ {names : List Ident} {exprs : List Expr},
    (∀ i ∈ names, p i = q i) → firstExpr p names exprs = firstExpr q names exprs
  | [], _, _ => rfl
  | _ :: _, [], _ => rfl
  | i :: is, x :: xs, h => by
    obtain ⟨hi, his⟩ := List.forall_mem_cons.mp h
    have ih : firstExpr p is xs = firstExpr q is xs := firstExpr_congr his
    simp only [firstExpr, List.zip_cons_cons, List.find?_cons, hi] at ih ⊢
    cases q i with
    | true => rfl
    | false => exact ih

theorem eq_of_filter_le_one (hle : (names.filter p).length ≤ 1) (hi : i ∈ names)
    (hpi : p i = true) (hj : j ∈ names) (hpj : p j = true) : i = j := by
  have hi' : i ∈ names.filter p := List.mem_filter.mpr ⟨hi, hpi⟩
  have hj' : j ∈ names.filter p := List.mem_filter.mpr ⟨hj, hpj⟩
  obtain ⟨a, ha⟩ : ∃ a, names.filter p = [a] :=
    List.length_eq_one_iff.mp (le_antisymm hle (List.length_pos_of_mem hi'))
  rw [ha, List.mem_singleton] at hi' hj'
  rw [hi', hj']

end

/-! ## The values of a row -/

section

variable {t : TableSharding} {env : Env} {args : List Value} {names : List Ident}
  {exprs : List Expr} {own : List Value}

theorem isIdKey_shardingPrimaryKey (h : t.isShardingPrimaryKey = true) :
    isIdKey t.shardingPrimaryKey = true := by
  obtain ⟨key, hmem, hkey⟩ := List.any_eq_true.mp h
  obtain ⟨key', hfind⟩ := Option.isSome_iff_exists.mp (List.find?_isSome.mpr ⟨key, hmem, hkey⟩)
  rw [TableSharding.shardingPrimaryKey, hfind]
  exact List.find?_some hfind

theorem shardingPrimaryKey_mem (h : t.isShardingPrimaryKey = true) :
    t.shardingPrimaryKey ∈ t.shardingKeys := by
  obtain ⟨key, hmem, hkey⟩ := List.any_eq_true.mp h
  obtain ⟨key', hfind⟩ := Option.isSome_iff_exists.mp (List.find?_isSome.mpr ⟨key, hmem, hkey⟩)
  rw [TableSharding.shardingPrimaryKey, hfind]
  exact List.mem_of_find?_eq_some hfind

/-- Whether the values of a row can be read does not depend on the primary key. -/
theorem valuesOf_ok (own' : List Value) : ∀ {keys : List Text} {values : List Value},
    t.valuesOf args names exprs own keys = .ok values →
      ∃ values', t.valuesOf args names exprs own' keys = .ok values'
  | [], _, _ => ⟨[], rfl⟩
  | key :: keys, values, h => by
    rw [TableSharding.valuesOf] at h ⊢
    obtain ⟨v, hv, h⟩ := bind_eq_ok.mp h
    obtain ⟨vs, hvs, -⟩ := bind_eq_ok.mp h
    obtain ⟨vs', hvs'⟩ := valuesOf_ok own' hvs
    obtain ⟨v', hv'⟩ : ∃ v', t.valueOf args names exprs own' key = .ok v' := by
      rw [TableSharding.valueOf] at hv ⊢
      split at hv
      case isTrue hkey => exact ⟨own', if_pos hkey⟩
      case isFalse hkey => exact ⟨v, (if_neg hkey).trans hv⟩
    exact ⟨v' ++ vs', bind_eq_ok.mpr ⟨v', hv', bind_eq_ok.mpr ⟨vs', hvs', rfl⟩⟩⟩

/-- A new column that is no sharding key besides the primary key changes no value. -/
theorem valuesOf_append (hlen : names.length = exprs.length) {i : Ident} (x : Expr) :
    ∀ {keys : List Text}, (∀ key ∈ keys, i.name = key → key = t.shardingPrimaryKey) →
      t.valuesOf args (names ++ [i]) (exprs ++ [x]) own keys = t.valuesOf args names exprs own keys
  | [], _ => rfl
  | key :: keys, h => by
    obtain ⟨hkey, hkeys⟩ := List.forall_mem_cons.mp h
    rw [TableSharding.valuesOf, TableSharding.valuesOf, valuesOf_append hlen x hkeys,
      TableSharding.valueOf, TableSharding.valueOf]
    by_cases hp : key = t.shardingPrimaryKey
    · rw [if_pos hp, if_pos hp]
    · have hne : ¬decide (i.name = key) = true := fun heq => hp (hkey (of_decide_eq_true heq))
      rw [columnValue, columnValue, columnExpr_eq, columnExpr_eq, firstExpr_append hlen,
        if_neg hne, Option.or_none]

theorem map_eq_ok {ε α β : Type} {f : α → β} {x : Except ε α} {b : β} (h : x.map f = .ok b) :
    ∃ a, x = .ok a ∧ f a = b := by
  cases x with
  | error e => cases h
  | ok a => exact ⟨a, rfl, Except.ok.inj h⟩

theorem insertKey_other (hkey : key ≠ t.shardingPrimaryKey)
    (hw : columnValue args names exprs key = .ok w) (state : List Value × Nat) :
    t.insertKey env names exprs args state key = .ok (state.1 ++ [w], state.2) := by
  rw [TableSharding.insertKey]
  rw [columnValue] at hw
  cases hx : columnExpr key names exprs with
  | none =>
    simp only [hx] at hw
    cases hw
  | some x =>
    simp only [hx] at hw
    simp [insertOperand, hw, hkey, bind, Except.bind]

/-- The loop of `insertValue` where the primary key adds `own` to the values. -/
theorem foldlM_insertKey {id : Nat}
    (hown : ∀ vs n, n = 0 ∨ n = id →
      t.insertKey env names exprs args (vs, n) t.shardingPrimaryKey = .ok (vs ++ own, id)) :
    ∀ {keys : List Text} {vs values : List Value} {n : Nat}, n = 0 ∨ n = id →
      t.valuesOf args names exprs own keys = .ok values →
        keys.foldlM (t.insertKey env names exprs args) (vs, n) =
          .ok (vs ++ values, if t.shardingPrimaryKey ∈ keys then id else n)
  | [], vs, _, n, _, h => by
    cases h
    simp [pure, Except.pure]
  | key :: keys, vs, values, n, hn, h => by
    rw [TableSharding.valuesOf] at h
    obtain ⟨v, hv, h⟩ := bind_eq_ok.mp h
    obtain ⟨ws, hws, h⟩ := bind_eq_ok.mp h
    cases h
    rw [List.foldlM_cons]
    rw [TableSharding.valueOf] at hv
    split at hv
    case isTrue hkey =>
      cases hv
      rw [hkey, hown vs n hn]
      refine (foldlM_insertKey hown (.inr rfl) hws).trans ?_
      simp
    case isFalse hkey =>
      have hstep : t.insertKey env names exprs args (vs, n) key = .ok (vs ++ v, n) := by
        obtain ⟨w, hw, rfl⟩ := map_eq_ok hv
        exact insertKey_other hkey hw (vs, n)
      rw [hstep]
      refine (foldlM_insertKey hown hn hws).trans ?_
      simp [Ne.symm hkey]

/-- `insertValue` on a row whose other values can be read. -/
theorem insertValue_eq (ht : t.isShardingPrimaryKey = true) (hlen : names.length = exprs.length)
    {id : Nat} {values : List Value}
    (hown : ∀ vs n, n = 0 ∨ n = id →
      t.insertKey env names exprs args (vs, n) t.shardingPrimaryKey = .ok (vs ++ own, id))
    (hvalues : t.valuesOf args names exprs own t.shardingKeys = .ok values) :
    t.insertValue env names exprs args = .ok (values, id) := by
  rw [TableSharding.insertValue, if_neg (not_not.mpr hlen),
    foldlM_insertKey hown (.inl rfl) hvalues, if_pos (shardingPrimaryKey_mem ht)]
  rfl

theorem insertKey_found {id : Nat}
    (hx : columnExpr t.shardingPrimaryKey names exprs = some x)
    (hv : insertOperand env args true x = .ok (v, id)) (vs : List Value) (n : Nat) :
    t.insertKey env names exprs args (vs, n) t.shardingPrimaryKey =
      .ok (vs ++ if id = 0 then [] else [v], id) := by
  rw [TableSharding.insertKey, hx]
  simp only [decide_true, hv, bind, Except.bind, ne_eq, not_true_eq_false, if_false]
  by_cases hid : id = 0 <;> simp [hid]

theorem insertKey_missing (hx : columnExpr t.shardingPrimaryKey names exprs = none)
    (vs : List Value) (n : Nat) (hn : n = 0 ∨ n = 0) :
    t.insertKey env names exprs args (vs, n) t.shardingPrimaryKey = .ok (vs ++ [], 0) := by
  rw [TableSharding.insertKey, hx, if_pos rfl, List.append_nil, or_self_iff.mp hn]

theorem insertValue_missing (ht : t.isShardingPrimaryKey = true)
    (hlen : names.length = exprs.length)
    (hx : columnExpr t.shardingPrimaryKey names exprs = none) {values : List Value}
    (hread : t.valuesOf args names exprs own t.shardingKeys = .ok values) :
    ∃ values', t.valuesOf args names exprs [] t.shardingKeys = .ok values' ∧
      t.insertValue env names exprs args = .ok (values', 0) := by
  obtain ⟨values', hvalues'⟩ := valuesOf_ok [] hread
  exact ⟨values', hvalues', insertValue_eq ht hlen (insertKey_missing hx) hvalues'⟩

/-- A row hashes to one suffix. -/
theorem TableSharding.HashesTo.unique
    (h : t.HashesTo args s names exprs own)
    (h' : t.HashesTo args s' names exprs own) : s = s' := by
  obtain ⟨values, hvalues, hs⟩ := h
  obtain ⟨values', hvalues', hs'⟩ := h'
  cases hvalues.symm.trans hvalues'
  exact Except.ok.inj (hs.symm.trans hs')

end

/-! ## One row -/

section

variable {t : TableSharding} {env : Env} {args : List Value} {ids : Nat → Nat} {suffix : Text}
  {st st' : InsertState} {row : Node (.list .expr)} {values : List Value} {id : Nat}

/-- The row and the columns after a key was generated. -/
def keyedRow (row : Node (.list .expr)) (id : Nat) : List Expr :=
  rowExprs row ++ [.numberLit (decimal id)]

/-- The values that `insertRow` reads after it generated a key. -/
def TableSharding.reread (t : TableSharding) (env : Env) (args : List Value) (names : List Ident)
    (row : Node (.list .expr)) (id : Nat) : List Value :=
  match t.insertValue env (names ++ [idColumn]) (keyedRow row id) args with
  | .ok r => r.1
  | .error _ => []

theorem suffixOf_eq_ok : t.suffixOf values = .ok suffix ↔
    t.shardingFunc values = .ok suffix := by
  rw [TableSharding.suffixOf]
  cases t.shardingFunc values <;> simp

/-- A row that comes with its key. -/
theorem insertRow_given (hv : t.insertValue env st.columnNames (rowExprs row) args = .ok (values, id))
    (hid : id ≠ 0) (hs : t.shardingFunc values = .ok suffix)
    (hst : st.suffix = [] ∨ st.suffix = suffix) :
    t.insertRow env args st row = .ok { st with rows := st.rows ++ [row], suffix := suffix } := by
  have hagree : ¬(st.suffix ≠ [] ∧ st.suffix ≠ suffix) := by tauto
  rw [TableSharding.insertRow, hv]
  simp [hid, suffixOf_eq_ok.mpr hs, bind, Except.bind, hagree]

/-- A row whose key is generated. -/
theorem insertRow_generated (ht : t.isShardingPrimaryKey = true)
    (hnext : env.next = some fun n => .ok (ids n))
    (hv : t.insertValue env st.columnNames (rowExprs row) args = .ok (values, 0)) :
    t.insertRow env args st row = .ok st' ↔
      ∃ suffix,
        t.shardingFunc (t.reread env args st.columnNames row (ids st.calls)) = .ok suffix ∧
        (st.suffix = [] ∨ st.suffix = suffix) ∧
        st' = ⟨st.columnNames ++ [idColumn],
          st.rows ++ [Node.ofList (keyedRow row (ids st.calls))], suffix, st.calls + 1⟩ := by
  have hrow : t.insertRow env args st row =
      (t.suffixOf (t.reread env args st.columnNames row (ids st.calls)) >>= fun suffix =>
        if st.suffix ≠ [] ∧ st.suffix ≠ suffix then .error (.error .diffSuffixDML)
        else .ok ⟨st.columnNames ++ [idColumn],
          st.rows ++ [Node.ofList (keyedRow row (ids st.calls))], suffix, st.calls + 1⟩) := by
    rw [TableSharding.insertRow, hv]
    simp only [bind, Except.bind, ht, hnext]
    rfl
  rw [hrow, bind_eq_ok]
  refine exists_congr fun suffix => ?_
  rw [suffixOf_eq_ok]
  refine and_congr_right fun _ => ?_
  split
  case isTrue h => exact iff_of_false nofun (by tauto)
  case isFalse h =>
    constructor
    · intro heq
      cases heq
      exact ⟨by tauto, rfl⟩
    · rintro ⟨-, rfl⟩
      rfl

theorem insertRow_length (h : t.insertRow env args st row = .ok st') :
    st.columnNames.length = (rowExprs row).length := by
  rw [TableSharding.insertRow] at h
  obtain ⟨_, hv, -⟩ := bind_eq_ok.mp h
  rw [TableSharding.insertValue] at hv
  by_contra hne
  rw [if_pos hne] at hv
  cases hv

end

/-! ## All rows -/

section

variable {t : TableSharding} {env : Env} {args : List Value} {ids : Nat → Nat} {suffix : Text}

/-- If the loop ends with one column `id` and started with one, it has generated no key. -/
theorem insertRows_given (ht : t.isShardingPrimaryKey = true)
    (hnext : env.next = some fun n => .ok (ids n)) : ∀ {rows : List (Node (.list .expr))}
    {st st' : InsertState}, rows.foldlM (t.insertRow env args) st = .ok st' →
      (st'.columnNames.filter isIdColumn).length ≤ (st.columnNames.filter isIdColumn).length →
      ∀ row ∈ rows, ∀ values,
        t.insertValue env st.columnNames (rowExprs row) args ≠ .ok (values, 0)
  | [], _, _, _, _ => nofun
  | row :: rows, st, st', h, hle => by
    rw [List.foldlM_cons] at h
    obtain ⟨st₁, hrow, hrest⟩ := bind_eq_ok.mp h
    have hlength : ∀ (xs : List Ident) (m : Nat),
        ((xs ++ List.replicate m idColumn).filter isIdColumn).length =
          (xs.filter isIdColumn).length + m := by
      intro xs m
      rw [List.filter_append, List.length_append, List.filter_replicate_of_pos rfl,
        List.length_replicate]
    obtain ⟨n, -, hn, -⟩ := insertRows_keys hrest
    have hsame : st₁.columnNames = st.columnNames := by
      obtain ⟨-, ⟨-, hcolumns, -⟩ | ⟨id, -, hcolumns, -⟩⟩ := insertRow_ok hrow
      · exact hcolumns
      · rw [hn, hlength, hcolumns, ← List.replicate_one, hlength] at hle
        omega
    rw [List.forall_mem_cons]
    constructor
    · intro values hv
      obtain ⟨_, -, -, rfl⟩ := (insertRow_generated ht hnext hv).mp hrow
      simp at hsame
    · rw [← hsame]
      rw [← hsame] at hle
      exact insertRows_given ht hnext hrest hle

theorem dispatchInsert_eq_ok {s out : InsertStatement} :
    t.dispatchInsert env args s = .ok out ↔ s.tableName.tableName = t.table ∧
      ∃ st, t.insertRows env args s = .ok st ∧ env.createTable st.suffix = .ok () ∧
        out = { s with
          tableName := ⟨.plain (t.table ++ st.suffix), none⟩
          columnNames := st.columnNames
          expressions := st.rows } := by
  rw [TableSharding.dispatchInsert, TableSharding.insertRows]
  by_cases htable : s.tableName.tableName = t.table
  · rw [if_neg (not_not.mpr htable)]
    cases s.expressions.foldlM (t.insertRow env args) ⟨s.columnNames, [], [], 0⟩ with
    | error f => simp
    | ok st =>
      cases hc : env.createTable st.suffix with
      | error e => simp [hc]
      | ok _ => simp [hc, htable, eq_comm]
  · simp [htable]

end

/-! ## Printing -/

theorem rowExprs_ofList : ∀ xs : List Expr, rowExprs (Node.ofList xs) = xs
  | [] => rfl
  | x :: xs => by rw [Node.ofList, rowExprs, rowExprs_ofList xs]

theorem row_string_isSome : ∀ row : Node (.list .expr),
    row.string.isSome = (rowExprs row).all (·.string.isSome)
  | .nil => rfl
  | .cons x xs => by
    rw [rowExprs, List.all_cons, ← row_string_isSome xs, Node.string]
    cases x.string <;> cases xs.string <;> rfl

theorem keyedRow_string_isSome (row : Node (.list .expr)) (id : Nat) :
    (rowString (Node.ofList (keyedRow row id))).isSome = (rowString row).isSome := by
  have hrow : ∀ r : Node (.list .expr), (rowString r).isSome = r.string.isSome := by
    intro r
    rw [rowString]
    cases r.string <;> rfl
  rw [hrow, hrow, row_string_isSome, row_string_isSome, rowExprs_ofList, keyedRow]
  simp [Node.string]

theorem stringList_singleton {α : Type} (f : α → Option Text) (x : α) :
    (stringList f [x]).isSome = (f x).isSome := by
  rw [stringList, stringList]
  cases f x <;> rfl

/-- Whether an `INSERT` can be printed does not depend on its table and columns. -/
theorem insert_string_isSome {s s' : InsertStatement} (hd : s'.defaultValues = s.defaultValues)
    (hq : s'.query = s.query) (hu : s'.upsertClause = s.upsertClause)
    (ho : s'.outputExpressions = s.outputExpressions)
    (hrows : (stringList rowString s'.expressions).isSome =
      (stringList rowString s.expressions).isSome) :
    s'.string.isSome = s.string.isSome := by
  have hbody : (bodyString s'.defaultValues s'.expressions s'.query).isSome =
      (bodyString s.defaultValues s.expressions s.query).isSome := by
    rw [hd, hq]
    unfold bodyString
    cases s.defaultValues with
    | true => rfl
    | false =>
      cases s.query with
      | some q => rfl
      | none =>
        revert hrows
        cases stringList rowString s'.expressions <;> cases stringList rowString s.expressions <;>
          simp
  rw [InsertStatement.string, InsertStatement.string, hu, ho]
  revert hbody
  cases bodyString s'.defaultValues s'.expressions s'.query <;>
    cases bodyString s.defaultValues s.expressions s.query <;>
    cases upsertString s.upsertClause <;>
    cases optString Token.RETURNING.padded s.outputExpressions <;> simp

/-! ## Generated keys -/

theorem isDigit_of_mem_decimal (h : c ∈ decimal n) : isDigit c = true := by
  have hc := Nat.isDigit_of_mem_toDigits (by decide) (by decide) h
  rw [Char.isDigit, Bool.and_eq_true, decide_eq_true_eq, decide_eq_true_eq] at hc
  rw [isDigit, Bool.and_eq_true, decide_eq_true_eq, decide_eq_true_eq]
  exact hc

theorem parseUint_decimal (h : n < 2 ^ 64) : parseUint (decimal n) = some n := by
  have hfold : (decimal n).foldl (fun n c => n * 10 + (c.toNat - '0'.toNat)) 0 = n := by
    simp only [Nat.mul_comm _ 10]
    exact Nat.ofDigitChars_ten_toDigits
  rw [parseUint, if_pos ⟨Nat.toDigits_ne_nil, List.all_eq_true.mpr fun c => isDigit_of_mem_decimal⟩]
  simp only [hfold, if_pos h]

section

variable {t : TableSharding} {env : Env} {args : List Value} {names : List Ident}
  {row : Node (.list .expr)} {id : Nat}

theorem insertOperand_decimal (h : id < 2 ^ 64) :
    insertOperand env args true (.numberLit (decimal id)) = .ok (.string (decimal id), id) := by
  simp [insertOperand, operandValue, parseUint_decimal h]

theorem rowID_keyedRow (hlen : names.length = (rowExprs row).length)
    (hnone : ∀ i ∈ names, isIdColumn i = false) (h : id < 2 ^ 64) :
    rowID env args (names ++ [idColumn]) (keyedRow row id) =
      .ok (some (.string (decimal id), id)) := by
  have hfirst : firstExpr isIdColumn (names ++ [idColumn]) (keyedRow row id) =
      some (.numberLit (decimal id)) := by
    rw [keyedRow, firstExpr_append hlen, firstExpr_eq_none hnone]
    rfl
  rw [rowID, hfirst]
  simp [insertOperand_decimal h, Except.map]

theorem hashesTo_keyedRow (honly : ∀ key ∈ t.shardingKeys, isIdKey key = true →
      key = t.shardingPrimaryKey) (hlen : names.length = (rowExprs row).length) :
    t.HashesTo args suffix (names ++ [idColumn]) (keyedRow row id) own ↔
      t.HashesTo args suffix names (rowExprs row) own := by
  rw [TableSharding.HashesTo, TableSharding.HashesTo, keyedRow, valuesOf_append hlen]
  rintro key hkey rfl
  exact honly _ hkey (by decide)

end

end Gofusion.Db
