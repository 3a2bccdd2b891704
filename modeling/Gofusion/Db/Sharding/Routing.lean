import Gofusion.Db.Sharding.Dispatch
import Mathlib.Data.List.Forall2
import Mathlib.Tactic.Tauto

/-!
# Soundness of routing by a condition

A statement may be sent to one shard if every row its condition matches lives there.
`nonInsertValue` takes the value of a key from the last equality it accepts, wherever this stands
in the condition.

* `truth` is the three-valued meaning of a condition for a row.
* `clauses` is its disjunctive normal form, of which only the equalities are kept.
* The condition is `Pinned` when every clause that can hold has the equality whose value was taken.
-/

namespace Gofusion.Db

open Gofusion.Sqlparser

/-! ## The meaning of a condition -/

/-- Three-valued conjunction, `none` is unknown. -/
def and3 : Option Bool → Option Bool → Option Bool
  | some true, b => b
  | some false, _ => some false
  | none, some false => some false
  | none, _ => none

def or3 : Option Bool → Option Bool → Option Bool
  | some false, b => b
  | some true, _ => some true
  | none, some true => some true
  | none, _ => none

/-- Three-valued equality.  A comparison with `NULL` is unknown. -/
def eq3 (v w : Value) : Option Bool := if v = .null ∨ w = .null then none else some (v = w)

/-- A row of the sharded table, and the truth of the parts of a condition that
depend on other things. -/
structure Interp where
  row : Text → Value
  atom : Expr → Option Bool

/-- The column of the sharded table an operand stands for. -/
def columnOf (tableName : Text) : Expr → Option Text
  | .ident i => some i.name
  | .qualifiedRef tbl (some c) => if tbl.name = tableName then some c.name else none
  | _ => none

def columnEq (tableName : Text) (args : List Value) (b : Binary) : Option (Text × Value) :=
  if b.op = .EQ then
    match columnOf tableName b.x, operandValue args b.y with
    | some c, .ok v => some (c, v)
    | _, _ => none
  else none

/-- The truth of a condition for a row.  Every row satisfies a missing one. -/
def truth (tableName : Text) (args : List Value) (I : Interp) : {k : Kind} → Node k → Option Bool
  | _, .absent => some true
  | _, .present x => truth tableName args I x
  | _, .parenExpr x => truth tableName args I x
  | _, .binaryExpr x op y =>
    if op = .AND then and3 (truth tableName args I x) (truth tableName args I y)
    else if op = .OR then or3 (truth tableName args I x) (truth tableName args I y)
    else match columnEq tableName args ⟨x, op, y⟩ with
      | some (c, v) => eq3 (I.row c) v
      | none => I.atom (.binaryExpr x op y)
  | .expr, x => I.atom x
  | _, _ => none

variable {b a : Option Bool} {v : Value} {stmt : Statement}

theorem and3_eq_true : and3 a b = some true ↔ a = some true ∧ b = some true := by
  rcases a with _ | _ | _ <;> rcases b with _ | _ | _ <;> decide

theorem or3_eq_true : or3 a b = some true ↔ a = some true ∨ b = some true := by
  rcases a with _ | _ | _ <;> rcases b with _ | _ | _ <;> decide

theorem eq3_eq_true : eq3 v w = some true ↔ v ≠ .null ∧ v = w := by
  unfold eq3
  split
  · rename_i h
    constructor
    · exact nofun
    · rintro ⟨hv, rfl⟩
      tauto
  · rename_i h
    simp only [Option.some.injEq, decide_eq_true_eq]
    tauto

/-! ## Clauses -/

/-- The equalities of the disjunctive normal form of an expression.  An equality
with `NULL` never holds. -/
def clauses (tableName : Text) (args : List Value) : {k : Kind} → Node k → List (List (Text × Value))
  | _, .present x => clauses tableName args x
  | _, .parenExpr x => clauses tableName args x
  | _, .binaryExpr x op y =>
    if op = .AND then
      (clauses tableName args x).flatMap fun c => (clauses tableName args y).map fun d => c ++ d
    else if op = .OR then clauses tableName args x ++ clauses tableName args y
    else match columnEq tableName args ⟨x, op, y⟩ with
      | some (c, v) => if v = .null then [] else [[(c, v)]]
      | none => [[]]
  | _, _ => [[]]

/-- The equalities of a clause hold for the row. -/
def Holds (I : Interp) (clause : List (Text × Value)) : Prop := ∀ e ∈ clause, I.row e.1 = e.2

/-- A clause does not ask for two values of one column. -/
def Consistent (clause : List (Text × Value)) : Prop :=
  ∀ e ∈ clause, ∀ e' ∈ clause, e.1 = e'.1 → e.2 = e'.2

instance (clause : List (Text × Value)) : Decidable (Consistent clause) :=
  inferInstanceAs (Decidable (∀ e ∈ clause, ∀ e' ∈ clause, e.1 = e'.1 → e.2 = e'.2))

variable {α β : Type} {g : α → Except Fault β} {clause : List (Text × Value)}
  {c : Node (.opt .expr)} {I : Interp}

section

variable {tableName : Text} {args : List Value}

theorem Holds.consistent (h : Holds I clause) : Consistent clause := by
  intro e he e' he' heq
  rw [← h e he, ← h e' he', heq]

/-- A condition that is true has a clause that holds. -/
theorem exists_clause : ∀ {k : Kind} {x : Node k},
    truth tableName args I x = some true → ∃ c ∈ clauses tableName args x, Holds I c := by
  intro k x
  induction x with
  | present x ih => exact ih
  | parenExpr x ih => exact ih
  | binaryExpr x op y ihx ihy =>
    intro h
    unfold truth at h
    unfold clauses
    split at h
    · rename_i hop
      obtain ⟨hx, hy⟩ := and3_eq_true.mp h
      obtain ⟨c, hc, hcI⟩ := ihx hx
      obtain ⟨d, hd, hdI⟩ := ihy hy
      refine ⟨c ++ d, ?_, fun e he => (List.mem_append.mp he).elim (hcI e) (hdI e)⟩
      rw [if_pos hop]
      exact List.mem_flatMap.mpr ⟨c, hc, List.mem_map.mpr ⟨d, hd, rfl⟩⟩
    · rename_i hand
      rw [if_neg hand]
      split at h
      · rename_i hop
        rw [if_pos hop]
        rcases or3_eq_true.mp h with hx | hy
        · obtain ⟨c, hc, hcI⟩ := ihx hx
          exact ⟨c, List.mem_append_left _ hc, hcI⟩
        · obtain ⟨d, hd, hdI⟩ := ihy hy
          exact ⟨d, List.mem_append_right _ hd, hdI⟩
      · rename_i hor
        rw [if_neg hor]
        split at h
        · rename_i c v hcv
          obtain ⟨hne, heq⟩ := eq3_eq_true.mp h
          rw [if_neg (heq ▸ hne)]
          exact ⟨_, List.mem_singleton_self _, by simpa [Holds] using heq⟩
        · exact ⟨[], List.mem_singleton_self _, nofun⟩
  | _ =>
    -- An atom has the empty clause.
    intro _
    exact ⟨[], List.mem_singleton_self _, nofun⟩

def Kind.IsCondition (k : Kind) : Prop := k = .expr ∨ k = .opt .expr

/-- A condition is true where one of its clauses holds. -/
theorem truth_of_clause (hI : ∀ x, I.atom x = some true) :
    ∀ {k : Kind} {x : Node k} {c : List (Text × Value)}, Kind.IsCondition k →
      c ∈ clauses tableName args x → Holds I c → truth tableName args I x = some true := by
  have hexpr : Kind.IsCondition .expr := Or.inl rfl
  intro k x
  induction x with
  | absent => exact fun _ _ _ => rfl
  | present x ih =>
    intro c hk
    refine ih (Or.inl ?_)
    rcases hk with hk | hk
    · cases hk
    · cases hk
      rfl
  | parenExpr x ih => exact ih
  | binaryExpr x op y ihx ihy =>
    intro c _ hc hcI
    unfold clauses at hc
    unfold truth
    split at hc
    · rename_i hop
      obtain ⟨d, hd, hc⟩ := List.mem_flatMap.mp hc
      obtain ⟨e, he, rfl⟩ := List.mem_map.mp hc
      rw [if_pos hop, ihx hexpr hd fun p hp => hcI p (List.mem_append_left _ hp),
        ihy hexpr he fun p hp => hcI p (List.mem_append_right _ hp)]
      rfl
    · rename_i hand
      rw [if_neg hand]
      split at hc
      · rename_i hop
        rw [if_pos hop]
        rcases List.mem_append.mp hc with hc | hc
        · exact or3_eq_true.mpr (Or.inl (ihx hexpr hc hcI))
        · exact or3_eq_true.mpr (Or.inr (ihy hexpr hc hcI))
      · rename_i hor
        rw [if_neg hor]
        split at hc
        · rename_i col v hcv
          split at hc
          · cases hc
          · rename_i hv
            obtain rfl := List.mem_singleton.mp hc
            have hrow : I.row col = v := hcI (col, v) List.mem_cons_self
            exact eq3_eq_true.mpr ⟨hrow ▸ hv, hrow⟩
        · exact hI _
  | nil | cons | caseBlock | resultColumn | orderingTerm | table | parenSource | joinClause
  | selectSource | onConstraint | usingConstraint | selectStatement => rintro c (h | h) <;> cases h
  | _ => exact fun _ _ _ => hI _

end

/-! ## The value that is taken -/

/-- What the visitor of `nonInsertValue` reads from a binary expression. -/
def reading (key tableName : Text) (args : List Value) (b : Binary) :
    Except Fault (Option Value) := do
  if b.op ≠ .EQ then .ok none
  else
    let hit ← matchesKey key tableName b.x
    if hit then
      let v ← operandValue args b.y
      .ok (some v)
    else .ok none

/-- The first failure of a list of computations. -/
def firstFault {α : Type} : List (Except Fault α) → Option Fault
  | [] => none
  | .ok _ :: rs => firstFault rs
  | .error f :: _ => some f

def lastValue : List (Except Fault (Option Value)) → Option Value
  | [] => none
  | .ok (some v) :: rs => (lastValue rs).or (some v)
  | _ :: rs => lastValue rs

/-- The value of a key: that of the last equality that is taken for the key, unless
an equality before it cannot be read. -/
def picked (tableName : Text) (args : List Value) (condition : Node (.opt .expr)) (key : Text) :
    Except Fault Value :=
  match firstFault (condition.binaries.map (reading key tableName args)) with
  | some f => .error f
  | none =>
    match lastValue (condition.binaries.map (reading key tableName args)) with
    | some v => .ok v
    | none => .error (.error .missingShardingKey)

section

variable {key tableName : Text} {args : List Value}

/-- A later equality replaces what was found before it. -/
theorem readKey_eq (found : Option Value) (b : Binary) :
    readKey key tableName args found b =
      match reading key tableName args b with
      | .ok (some v) => .ok (some v)
      | .ok none => .ok found
      | .error f => .error f := by
  unfold readKey reading
  split
  · rfl
  · cases matchesKey key tableName b.x with
    | error f => rfl
    | ok hit =>
      cases hit with
      | false => rfl
      | true =>
        cases operandValue args b.y with
        | error f | ok v => simp [bind, Except.bind]

/-- The last equality that is accepted gives the value. -/
theorem foldlM_readKey : ∀ (bs : List Binary) (found : Option Value),
    bs.foldlM (readKey key tableName args) found =
      match firstFault (bs.map (reading key tableName args)) with
      | some f => .error f
      | none => .ok ((lastValue (bs.map (reading key tableName args))).or found)
  | [], found => rfl
  | b :: bs, found => by
    rw [List.foldlM_cons, readKey_eq, List.map_cons]
    rcases h : reading key tableName args b with f | _ | v
    · rfl
    · exact foldlM_readKey bs found
    · refine (foldlM_readKey bs (some v)).trans ?_
      simp only [firstFault, lastValue]
      cases firstFault (bs.map (reading key tableName args)) with
      | some f => rfl
      | none =>
        cases lastValue (bs.map (reading key tableName args)) <;> rfl

theorem nonInsertValue_eq (condition : Node (.opt .expr)) :
    nonInsertValue condition key tableName args = picked tableName args condition key := by
  unfold nonInsertValue picked
  rw [Node.walk_visitBinary, foldlM_readKey]
  cases firstFault (condition.binaries.map (reading key tableName args)) with
  | some f => rfl
  | none =>
    cases h : lastValue (condition.binaries.map (reading key tableName args)) with
    | none => rfl
    | some v => rfl

/-- The values of the keys are picked one by one. -/
theorem keyValues_eq (condition : Node (.opt .expr)) : ∀ keys : List Text,
    keyValues condition tableName args keys = keys.mapM (picked tableName args condition)
  | [] => rfl
  | key :: keys => by
    rw [keyValues, nonInsertValue_eq, keyValues_eq condition keys, List.mapM_cons]
    rfl

end

/-! ## The parts of a statement -/

/-- A part of a statement with a source and a condition of its own: a `SELECT` of a
compound, an `UPDATE` or a `DELETE`. -/
structure Arm where
  hint : Option Text
  fromItems : Node (.opt .source)
  condition : Node (.opt .expr)

def selectArms : {k : Kind} → Node k → List Arm
  | _, .present x => selectArms x
  | _, .selectStatement hint _ _ _ fromItems condition _ _ _ compound _ _ _ _ =>
    ⟨hint, fromItems, condition⟩ :: selectArms compound
  | _, _ => []

/-- The parts of a statement.  An `INSERT` is not routed by a condition. -/
def arms : Statement → List Arm
  | .select s => selectArms s
  | .insert _ => []
  | .update s => [⟨none, .present (.table s.tableName), conditionNode s.condition⟩]
  | .delete s => [⟨none, .present (.table s.tableName), conditionNode s.condition⟩]

/-- The part reads from the sharded table, alone or on a side of its first join, and
has no `nosharding` hint. -/
def Arm.isRouted (table : Text) (a : Arm) : Bool :=
  a.hint ≠ some nosharding &&
  match fromView a.fromItems with
  | .table tbl => tbl.tableName = table
  | .join x _ y _ => isSharding table x || isSharding table y
  | .other => false

/-- A `SELECT`, `UPDATE` or `DELETE` all parts of which are on the sharded table. -/
def onTable (table : Text) : Statement → Bool
  | .insert _ => false
  | stmt => (arms stmt).all (Arm.isRouted table)

def sourceName : Source → Text
  | .table tbl => tbl.name.name
  | _ => []

/-- The name of the sharded table of a part, in the rewritten part `a'`. -/
def Arm.target (table : Text) (a a' : Arm) : Text :=
  match fromView a.fromItems, fromView a'.fromItems with
  | .table _, .table tbl => tbl.name.name
  | .join x _ _ _, .join x' _ y' _ => if isSharding table x then sourceName x' else sourceName y'
  | _, _ => []

/-- The conditions of a statement, each with the table it is sent to. -/
def sites (table : Text) (as as' : List Arm) : List (Node (.opt .expr) × Text) :=
  List.zipWith (fun a a' => (a.condition, a.target table a')) as as'

section

variable {t : TableSharding} {args : List Value}

/-- A part is sent to the table with the suffix of its condition. -/
def TableSharding.route (t : TableSharding) (args : List Value) (a : Arm) :
    Except Stop (Node (.opt .expr) × Text) := do
  let suffix ← t.suffixOrStop a.condition t.table args
  .ok (a.condition, t.table ++ suffix)

theorem sourceName_renameSource (h : isSharding t.table x = true) :
    sourceName (renameSource new x) = new := by
  cases x <;> simp_all [isSharding, renameSource, sourceName]

/-- Each `SELECT` of a compound is routed by its own condition. -/
theorem dispatchSelect_sites (args : List Value) : ∀ {k : Kind} (x : Node k),
    (selectArms x).all (Arm.isRouted t.table) = true →
    (t.dispatchSelect args x).map (fun x' => sites t.table (selectArms x) (selectArms x')) =
      (selectArms x).mapM (t.route args) := by
  intro k x
  induction x with
  | present x ih =>
    intro h
    rw [TableSharding.dispatchSelect]
    have := ih h
    cases hx : t.dispatchSelect args x with
    | error e | ok x' =>
      rw [hx] at this
      exact this
  | selectStatement _ _ _ _ fromItems condition _ _ _ compound _ _ _ _ _ _ _ _ _ ih =>
    intro h
    simp only [selectArms, List.all_cons, Arm.isRouted, Bool.and_eq_true, decide_eq_true_eq] at h
    obtain ⟨⟨hhint, hrouted⟩, hrest⟩ := h
    have ih := ih hrest
    simp only [TableSharding.dispatchSelect, if_neg hhint, selectArms, List.mapM_cons,
      TableSharding.route, ← ih]
    cases hview : fromView fromItems with
    | other => simp [hview] at hrouted
    | table tbl =>
      have htbl : tbl.tableName = t.table := by simpa [hview] using hrouted
      simp only [htbl, ne_eq, not_true_eq_false, if_false]
      cases t.suffixOrStop condition t.table args with
      | error e => rfl
      | ok suffix =>
        cases t.dispatchSelect args compound with
        | error e => rfl
        | ok rest =>
          simp [bind, Except.bind, Except.map, sites, selectArms, Arm.target, hview, fromView,
            Ident.plain, pure, Except.pure]
    | join x _ y _ =>
      simp only [hview, Bool.or_eq_true] at hrouted
      have hxy : (!isSharding t.table x && !isSharding t.table y) = false := by
        rcases hrouted with h | h <;> simp [h]
      simp only [hxy, Bool.false_eq_true, if_false]
      cases t.suffixOrStop condition t.table args with
      | error e => rfl
      | ok suffix =>
        cases t.dispatchSelect args compound with
        | error e => rfl
        | ok rest =>
          simp [bind, Except.bind, Except.map, sites, selectArms, Arm.target, hview, fromView,
            pure, Except.pure]
          by_cases hx : isSharding t.table x = true
          · simp [hx, sourceName_renameSource hx]
          · simp [hx, sourceName_renameSource (hrouted.resolve_left hx)]
  | _ => exact fun _ => rfl

/-- What a dispatch sends where, part by part. -/
theorem dispatchStatement_sites (env : Env) (h : onTable t.table stmt = true) :
    (t.dispatchStatement env args stmt).map (fun stmt' => sites t.table (arms stmt) (arms stmt')) =
      (arms stmt).mapM (t.route args) := by
  cases stmt with
  | insert s => cases h
  | select s =>
    have := dispatchSelect_sites args s h
    rw [TableSharding.dispatchStatement]
    cases hs : t.dispatchSelect args s with
    | error e | ok s' =>
      rw [hs] at this
      exact this
  | update s | delete s =>
    have htbl : s.tableName.tableName = t.table := by
      simpa [onTable, arms, Arm.isRouted, fromView] using h
    simp only [TableSharding.dispatchStatement, htbl, ne_eq, not_true_eq_false, if_false, arms,
      List.mapM_cons, List.mapM_nil, TableSharding.route]
    cases t.suffixOrStop (conditionNode s.condition) t.table args with
    | error e => rfl
    | ok suffix => rfl
end

/-! ## Soundness -/

/-- Every clause of the condition that can hold fixes every key to the value that is
taken for it. -/
def Pinned (tableName : Text) (keys : List Text) (args : List Value)
    (condition : Node (.opt .expr)) : Prop :=
  ∀ c ∈ clauses tableName args condition, Consistent c →
    ∀ key ∈ keys, ∃ v, picked tableName args condition key = .ok v ∧ (key, v) ∈ c

/-- The conditions can be routed: the first key whose value cannot be read gives an
error and no panic, or all values can be read and all conditions are pinned. -/
def Safe (tableName : Text) (keys : List Text) (args : List Value)
    (conditions : List (Node (.opt .expr))) : Prop :=
  match firstFault (conditions.flatMap fun c => keys.map (picked tableName args c)) with
  | some .panic => False
  | some (.error _) => True
  | none => ∀ c ∈ conditions, Pinned tableName keys args c

/-- Every row that satisfies a condition has the suffix its statement is sent to. -/
def SitesSound (t : TableSharding) (args : List Value) (ss : List (Node (.opt .expr) × Text)) :
    Prop :=
  ∀ s ∈ ss, ∀ I : Interp, truth t.table args I s.1 = some true →
    ∃ suffix, t.shardingFunc (t.shardingKeys.map I.row) = .ok suffix ∧ s.2 = t.table ++ suffix

/-- A statement is rewritten so that no matching row lives in another shard, or an
error is recorded. -/
def RoutedSoundly (t : TableSharding) (env : Env) (args : List Value) (stmt : Statement) : Prop :=
  match t.dispatchStatement env args stmt with
  | .ok stmt' => SitesSound t args (sites t.table (arms stmt) (arms stmt'))
  | .error (.error _) => True
  | .error _ => False

section

theorem firstFault_append {α : Type} : ∀ (rs rs' : List (Except Fault α)),
    firstFault (rs ++ rs') = (firstFault rs).or (firstFault rs')
  | [], _ => rfl
  | .ok _ :: rs, rs' => firstFault_append rs rs'
  | .error _ :: _, _ => rfl

theorem ok_of_firstFault {α : Type} : ∀ {rs : List (Except Fault α)}, firstFault rs = none →
    ∀ r ∈ rs, ∃ y, r = .ok y
  | [], _ => nofun
  | .ok y :: _, h => List.forall_mem_cons.mpr ⟨⟨y, rfl⟩, ok_of_firstFault h⟩

theorem exists_of_forall₂
    (h : List.Forall₂ R as bs) : ∀ b ∈ bs, ∃ a ∈ as, R a b := by
  induction h with
  | nil => exact nofun
  | cons hab _ ih =>
    refine List.forall_mem_cons.mpr ⟨⟨_, List.mem_cons_self, hab⟩, fun b hb => ?_⟩
    obtain ⟨a, ha, hr⟩ := ih b hb
    exact ⟨a, List.mem_cons_of_mem _ ha, hr⟩

variable {f : Fault} {vs : List Value} {keys : List Text} {as : List Arm}

theorem mapM_eq_error : ∀ {xs : List α},
    firstFault (xs.map g) = some f → xs.mapM g = .error f
  | x :: xs, h => by
    rw [List.mapM_cons]
    cases hx : g x with
    | error f' =>
      rw [List.map_cons, hx] at h
      cases h
      rfl
    | ok y =>
      rw [List.map_cons, hx] at h
      rw [mapM_eq_error h]
      rfl

theorem mapM_of_ok : ∀ {xs : List α},
    (∀ x ∈ xs, ∃ y, g x = .ok y) → ∃ ys, xs.mapM g = .ok ys
  | [], _ => ⟨[], rfl⟩
  | x :: xs, h => by
    obtain ⟨⟨y, hy⟩, hxs⟩ := List.forall_mem_cons.mp h
    obtain ⟨ys, hys⟩ := mapM_of_ok hxs
    exact ⟨y :: ys, by rw [List.mapM_cons, hy, hys]; rfl⟩

theorem mapM_eq_ok {xs : List α} (h : firstFault (xs.map g) = none) : ∃ ys, xs.mapM g = .ok ys :=
  mapM_of_ok fun _ hx => ok_of_firstFault h _ (List.mem_map_of_mem hx)

theorem mapM_eq_ok_map : ∀ {xs : List α},
    xs.mapM g = .ok (xs.map r) ↔ ∀ x ∈ xs, g x = .ok (r x)
  | [] => iff_of_true rfl nofun
  | x :: xs => by
    rw [List.mapM_cons, List.forall_mem_cons, ← mapM_eq_ok_map]
    cases g x <;> cases xs.mapM g <;> simp [bind, Except.bind, pure, Except.pure]

variable {t : TableSharding} {args : List Value}

theorem suffixOrStop_of_fault (h : firstFault (t.shardingKeys.map (picked t.table args c)) = some f) :
    t.suffixOrStop c t.table args = .error f.stop := by
  rw [TableSharding.suffixOrStop, TableSharding.getSuffix, keyValues_eq, mapM_eq_error h]
  rfl

theorem suffixOrStop_of_values (h : t.shardingKeys.mapM (picked t.table args c) = .ok vs) :
    t.suffixOrStop c t.table args =
      match t.shardingFunc vs with
      | .ok suffix => .ok suffix
      | .error e => .error (.error e) := by
  rw [TableSharding.suffixOrStop, TableSharding.getSuffix, keyValues_eq, h]
  simp only [bind, Except.bind, TableSharding.suffixOf]
  cases t.shardingFunc vs <;> rfl

/-- What becomes of the parts of a statement: the sharding function fails on one of them, a
value cannot be read, or each is sent to its shard. -/
theorem routes (t : TableSharding) (args : List Value) : ∀ as : List Arm,
    (∃ vs e, t.shardingFunc vs = .error e ∧ as.mapM (t.route args) = .error (.error e)) ∨
    match firstFault ((as.map Arm.condition).flatMap fun c =>
      t.shardingKeys.map (picked t.table args c)) with
    | some f => as.mapM (t.route args) = .error f.stop
    | none => ∃ ss, as.mapM (t.route args) = .ok ss ∧ List.Forall₂ (fun a s => s.1 = a.condition ∧
      ∃ vs suffix, t.shardingKeys.mapM (picked t.table args a.condition) = .ok vs ∧
        t.shardingFunc vs = .ok suffix ∧ s.2 = t.table ++ suffix) as ss
  | [] => .inr ⟨[], rfl, .nil⟩
  | a :: as => by
    rw [List.map_cons, List.flatMap_cons, firstFault_append, List.mapM_cons, TableSharding.route]
    cases ha : firstFault (t.shardingKeys.map (picked t.table args a.condition)) with
    | some f =>
      rw [suffixOrStop_of_fault ha]
      exact .inr rfl
    | none =>
      obtain ⟨vs, hvs⟩ := mapM_eq_ok ha
      rw [suffixOrStop_of_values hvs, Option.none_or]
      cases hs : t.shardingFunc vs with
      | error e => exact .inl ⟨vs, e, hs, rfl⟩
      | ok suffix =>
        rcases routes t args as with ⟨vs', e, he, hm⟩ | hrest
        · exact .inl ⟨vs', e, he, by rw [hm]; rfl⟩
        · refine .inr ?_
          split at hrest
          · rw [hrest]
            rfl
          · obtain ⟨ss, hm, hall⟩ := hrest
            exact ⟨(a.condition, t.table ++ suffix) :: ss, by rw [hm]; rfl,
              .cons ⟨rfl, vs, suffix, hvs, hs, rfl⟩ hall⟩

/-- A row that satisfies a pinned condition has the values that are taken. -/
theorem Pinned.row_eq (hp : Pinned tableName keys args c)
    (hvs : keys.mapM (picked tableName args c) = .ok vs) (hI : truth tableName args I c = some true) :
    keys.map I.row = vs := by
  obtain ⟨clause, hc, hclause⟩ := exists_clause hI
  have hrow : ∀ key ∈ keys, picked tableName args c key = .ok (I.row key) := by
    intro key hkey
    obtain ⟨v, hv, hmem⟩ := hp clause hc hclause.consistent key hkey
    rw [hv, hclause _ hmem]
  exact Except.ok.inj ((mapM_eq_ok_map.mpr hrow).symm.trans hvs)

def otherValue (v : Value) : Value := if v = .string ['a'] then .string ['b'] else .string ['a']

theorem otherValue_ne (v : Value) : otherValue v ≠ v := by
  unfold otherValue
  split
  · rename_i h
    rw [h]
    decide
  · exact fun h' => absurd h'.symm (by assumption)

/-- The row with the values of a clause, and one value for all other columns. -/
def clauseRow (clause : List (Text × Value)) (default : Value) (column : Text) : Value :=
  ((clause.find? fun e => e.1 = column).map Prod.snd).getD default

theorem clauseRow_of_mem (hc : Consistent clause) {e : Text × Value} (he : e ∈ clause)
    (default : Value) : clauseRow clause default e.1 = e.2 := by
  unfold clauseRow
  cases hf : clause.find? fun e' => e'.1 = e.1 with
  | none => exact absurd (List.find?_eq_none.mp hf e he) (by simp)
  | some e' =>
    have h₁ := List.mem_of_find?_eq_some hf
    have h₂ : e'.1 = e.1 := by simpa using List.find?_some hf
    exact hc e' h₁ e he h₂

theorem clauseRow_of_not_mem (h : (column, v) ∉ clause) :
    clauseRow clause (otherValue v) column ≠ v := by
  unfold clauseRow
  cases hf : clause.find? fun e => e.1 = column with
  | none => exact otherValue_ne v
  | some e =>
    have h₁ := List.mem_of_find?_eq_some hf
    have h₂ : e.1 = column := by simpa using List.find?_some hf
    intro hv
    have hv : e.2 = v := hv
    exact h (by rw [← h₂, ← hv]; exact h₁)

/-- The result of routing the parts of a statement is sound. -/
def RoutesSound (t : TableSharding) (args : List Value) :
    Except Stop (List (Node (.opt .expr) × Text)) → Prop
  | .ok ss => SitesSound t args ss
  | .error (.error _) => True
  | .error _ => False

/-- Soundness of a statement is that of the routes of its arms. -/
theorem routedSoundly_iff_routes (h : onTable t.table stmt = true) :
    RoutedSoundly t env args stmt ↔ RoutesSound t args ((arms stmt).mapM (t.route args)) := by
  rw [← dispatchStatement_sites env h]
  unfold RoutedSoundly
  cases t.dispatchStatement env args stmt with
  | ok stmt' => exact Iff.rfl
  | error e => cases e <;> exact Iff.rfl

/-- Pinned conditions are routed soundly. -/
theorem Safe.routesSound (h : Safe t.table t.shardingKeys args (as.map Arm.condition)) :
    RoutesSound t args (as.mapM (t.route args)) := by
  rcases routes t args as with ⟨-, e, -, hm⟩ | hroutes
  · rw [hm]
    trivial
  unfold Safe at h
  split at h
  · exact h.elim
  · rename_i e he
    rw [he] at hroutes
    rw [hroutes]
    trivial
  · rename_i hnone
    rw [hnone] at hroutes
    obtain ⟨ss, hm, hall⟩ := hroutes
    rw [hm]
    intro s hs I hI
    obtain ⟨a, ha, hcond, vs, suffix, hvs, hf, hname⟩ := exists_of_forall₂ hall s hs
    rw [hcond] at hI
    have hrow := (h _ (List.mem_map_of_mem ha)).row_eq hvs hI
    exact ⟨suffix, by rw [hrow, hf], hname⟩

/-- A condition that is not pinned is satisfied by a row of another shard, for some
sharding function. -/
theorem pinned_of_routesSound
    (hnone : firstFault ((as.map Arm.condition).flatMap fun c =>
      keys.map (picked table args c)) = none)
    (h : ∀ f, RoutesSound ⟨table, keys, f⟩ args (as.mapM (TableSharding.route ⟨table, keys, f⟩ args)))
    {a : Arm} (ha : a ∈ as) : Pinned table keys args a.condition := by
  intro clause hc hcons key hkey
  have hok := ok_of_firstFault hnone
  have hread : ∀ k ∈ keys, ∃ v, picked table args a.condition k = .ok v := fun k hk =>
    hok _ (List.mem_flatMap.mpr ⟨_, List.mem_map_of_mem ha, List.mem_map_of_mem hk⟩)
  obtain ⟨v, hv⟩ := hread key hkey
  refine ⟨v, hv, ?_⟩
  by_contra hmem
  -- The row of the clause has another value of the key, and satisfies the condition.
  let I : Interp := ⟨clauseRow clause (otherValue v), fun _ => some true⟩
  have hI : truth table args I a.condition = some true :=
    truth_of_clause (fun _ => rfl) (Or.inr rfl) hc fun e he => clauseRow_of_mem hcons he _
  obtain ⟨vs, hvs⟩ : ∃ vs, keys.mapM (picked table args a.condition) = .ok vs :=
    mapM_of_ok hread
  -- The sharding function tells the values that are taken from all others.
  let f : List Value → Except DbError Text := fun ws => .ok (if ws = vs then ['a'] else ['b'])
  rcases routes ⟨table, keys, f⟩ args as with ⟨_, e, he, _⟩ | hroutes
  · cases he
  · rw [hnone] at hroutes
    obtain ⟨ss, hm, hall⟩ := hroutes
    have hsound := h f
    rw [hm] at hsound
    obtain ⟨s, hs, hcond, ws, suffix, hws, hf, hname⟩ := exists_of_forall₂ hall.flip a ha
    rw [show ws = vs from Except.ok.inj (hws.symm.trans hvs)] at hf
    obtain ⟨suffix', hf', hname'⟩ := hsound s hs I (hcond ▸ hI)
    have hsuffix : suffix' = suffix := List.append_cancel_left (hname'.symm.trans hname)
    have hrow : keys.map I.row = vs := by
      by_contra hne
      simp only [f, if_pos, if_neg hne, Except.ok.injEq] at hf hf'
      rw [← hf, ← hf'] at hsuffix
      cases hsuffix
    have hkeys := mapM_eq_ok_map.mp (hvs.trans (by rw [hrow]))
    exact clauseRow_of_not_mem hmem (Except.ok.inj ((hkeys key hkey).symm.trans hv))

/-- A statement on the sharded table is routed soundly by every sharding function
exactly when its conditions are safe. -/
theorem routedSoundly_iff_safe (table : Text) (keys : List Text) (env : Env) (args : List Value)
    (stmt : Statement) (hon : onTable table stmt = true) :
    (∀ f, RoutedSoundly ⟨table, keys, f⟩ env args stmt) ↔
      Safe table keys args ((arms stmt).map Arm.condition) := by
  constructor
  · intro h
    have h' := fun f => (routedSoundly_iff_routes (t := ⟨table, keys, f⟩) hon).mp (h f)
    unfold Safe
    split
    · rename_i hpanic
      have hsound := h' fun _ => .ok []
      rcases routes ⟨table, keys, fun _ => .ok []⟩ args (arms stmt) with ⟨_, e, he, _⟩ | hroutes
      · cases he
      · rw [hpanic] at hroutes
        rwa [hroutes] at hsound
    · trivial
    · rename_i hnone
      intro c hc
      obtain ⟨a, ha, rfl⟩ := List.mem_map.mp hc
      exact pinned_of_routesSound hnone h' ha
  · intro h f
    exact (routedSoundly_iff_routes (t := ⟨table, keys, f⟩) hon).mpr
      (Safe.routesSound (t := ⟨table, keys, f⟩) h)

end

/-! ## Orders of users -/

/-- A table `orders` with the value of `user_id` as its suffix. -/
def ordersByUser : TableSharding :=
  ⟨"orders".toList, ["user_id".toList], fun vs =>
    match vs with
    | [.string s] => .ok ('_' :: s)
    | _ => .ok []⟩

def noEnv : Env := ⟨fun _ => .ok 0, none, fun _ => .ok ()⟩

/-- `SELECT * FROM table` with a condition. -/
def selectAll (table : Text) (condition : Node (.opt .expr)) : Statement :=
  .select (.selectStatement none false false (.cons (.resultColumn true .absent none) .nil)
    (.present (.table ⟨.plain table, none⟩)) condition .nil .absent .none .absent .nil .absent
    .absent .absent)

/-- `user_id = 1`. -/
def userCondition : Expr := .binaryExpr (.ident (.plain "user_id".toList)) .EQ (.numberLit ['1'])

theorem user_condition_routedSoundly :
    RoutedSoundly ordersByUser noEnv [] (selectAll "orders".toList (.present userCondition)) := by
  refine (routedSoundly_iff_safe "orders".toList ["user_id".toList] noEnv []
    (selectAll "orders".toList (.present userCondition)) rfl).mpr ?_ ordersByUser.shardingFunc
  intro c hc clause hclause _ key hkey
  obtain rfl := List.mem_singleton.mp hc
  obtain rfl := List.mem_singleton.mp hclause
  obtain rfl := List.mem_singleton.mp hkey
  exact ⟨.string ['1'], rfl, List.mem_cons_self⟩

/-- `user_id = 1 OR amount = 2`. -/
def orCondition : Expr :=
  .binaryExpr userCondition .OR
    (.binaryExpr (.ident (.plain "amount".toList)) .EQ (.numberLit ['2']))

/-- An order of user 3 with amount 2. -/
def orderOfUser3 : Interp :=
  ⟨fun column => if column = "amount".toList then .string ['2'] else .string ['3'], fun _ => none⟩

/-- The order of user 3 satisfies the condition and is not in the shard of user 1,
where the statement is sent. -/
theorem or_condition_not_routedSoundly :
    parseStatement "SELECT * FROM orders WHERE user_id = 1 OR amount = 2".toList =
      .ok (selectAll "orders".toList (.present orCondition)) ∧
    ordersByUser.dispatchTableBySQL noEnv
      "SELECT * FROM orders WHERE user_id = 1 OR amount = 2".toList [] =
      .rewritten "SELECT * FROM orders_1 WHERE user_id = 1 OR amount = 2".toList ∧
    truth "orders".toList [] orderOfUser3 orCondition = some true ∧
    ordersByUser.shardingFunc (ordersByUser.shardingKeys.map orderOfUser3.row) = .ok "_3".toList ∧
    ¬RoutedSoundly ordersByUser noEnv [] (selectAll "orders".toList (.present orCondition)) := by
  have hparse : parseStatement "SELECT * FROM orders WHERE user_id = 1 OR amount = 2".toList =
      .ok (selectAll "orders".toList (.present orCondition)) := by decide
  refine ⟨hparse, ?_, rfl, rfl, fun h => ?_⟩
  · rw [TableSharding.dispatchTableBySQL_of_parse hparse]
    rfl
  · have hsites : SitesSound ordersByUser [] [(.present orCondition, "orders_1".toList)] := h
    obtain ⟨suffix, hs, hname⟩ := hsites _ List.mem_cons_self orderOfUser3 rfl
    have hsuffix : suffix = ['_', '3'] := (Except.ok.inj hs).symm
    rw [hsuffix] at hname
    exact absurd hname (by decide)

end Gofusion.Db
