import Gofusion.Db.Softdelete.Clause
import Gofusion.Lib.Runs
import Mathlib.Logic.Function.Basic
import Mathlib.Tactic.Tauto

/-!
# Deleted rows

A delete of a model with soft-delete fields is an update that marks rows, and every scoped
statement asks for rows whose columns hold their zero values.  A marked row is hidden if one of the
columns that are asked for has a mark that is not its zero value.
-/

namespace Gofusion.Db.Softdelete

open Gofusion.Lib

variable {ε : Type} (g : Gorm ε)

/-! ## Tables -/

/-- The rows of a table, under some numbers. -/
abbrev Table := Nat → Option Row

def Gorm.selects (conditions : Option (List ε)) (row : Row) : Bool :=
  conditions.elim true (joined g.isOr (g.holds row))

def Row.assign (set : List Assignment) (row : Row) : Row :=
  set.foldl (fun row a => Function.update row a.1 a.2) row

/-- The rows that the database finds for a statement. -/
def Sql.finds (row : Row) : Sql ε → Bool
  | .raw _ => false
  | .select conditions | .update _ conditions | .delete conditions => g.selects conditions row

/-- What the database makes of a row that it finds. -/
def Sql.write (row : Row) : Sql ε → Option Row
  | .raw _ | .select _ => some row
  | .update set _ => some (row.assign set)
  | .delete _ => none

def Sql.exec (sql : Sql ε) (t : Table) : Table := fun i =>
  (t i).bind fun row => if sql.finds g row then sql.write row else some row

/-! ## Calls -/

inductive Action
  | query
  | update (assignments : List Assignment)
  | delete (now : Int)
deriving Repr

/-- A scoped call: what the caller wants, the conditions and the primary keys they give,
and their session. -/
structure Call where
  action : Action
  conditions : Option (List ε)
  keys : List g.Key
  db : Session

variable {g} (schema : Schema)

def Call.outcome (c : Call g) : Outcome ε :=
  let st := ⟨⟨c.conditions, []⟩, none, false, .raw []⟩
  match c.action with
  | .query => queryCallback g schema c.keys c.db st
  | .update assignments => updateCallback g schema assignments c.keys c.db st
  | .delete now => deleteCallback g schema now c.keys c.db st

def Call.asks (c : Call g) (row : Row) : Bool :=
  g.selects c.conditions row && c.keys.all fun k => g.holds row k.1

/-- The rows that a call reaches. -/
def Call.finds (c : Call g) (row : Row) : Bool := (c.outcome schema).executed.any (Sql.finds g row)

/-- The table behind a call, and whether the call has no error. -/
def callStep (t : Table) (c : Call g) : Table × Bool :=
  (((c.outcome schema).executed.elim t fun sql => sql.exec g t),
    (c.outcome schema).error.isNone)

/-! ## What a model promises -/

/-- Every soft-delete column holds its zero value. -/
def Visible (row : Row) : Prop := ∀ f ∈ schema.fields, row f.dbName = f.zero

/-- The condition of a statement that is sent: the rows that the caller asks for and that
are not deleted. -/
def FiltersDeleted (g : Gorm ε) : Prop :=
  ∀ (c : Call g) (sql : Sql ε) (row : Row), (c.outcome schema).executed = some sql →
    sql.isEmpty = false → (sql.finds g row = true ↔ c.asks row = true ∧ Visible schema row)

/-- The time of a delete is not a zero value. -/
def TimeDiffers (now : Int) : Prop :=
  ∀ f ∈ schema.fields, f.kind = .timestamp → f.zero ≠ .int now

/-- Behind a delete, no call of a run finds a row that the delete has asked for, and the
delete has not changed the other rows. -/
def HidesDeleted (g : Gorm ε) : Prop :=
  ∀ (c : Call g) (now : Int) (t : Table) (i : Nat) (row : Row),
    c.action = .delete now → TimeDiffers schema now → (c.outcome schema).executed.isSome →
    t i = some row →
      (c.asks row = true → ∀ (later : List (Call g)) (c' : Call g) (row' : Row),
        runFrom (callStep schema) (callStep schema t c).1 later i = some row' →
          c'.finds schema row' = false) ∧
      (c.asks row = false → (callStep schema t c).1 i = some row)

/-- One field of a type at most, and one whose mark differs from its zero value. -/
def CanHide : Prop :=
  (schema.fields.map Field.kind).Nodup ∧
    ∃ f ∈ schema.fields, f.kind = .timestamp ∨ parseStatusZeroValueTag f = false

/-! ## Joined expressions -/

section

variable {isOr holds : ε → Bool}

variable {es : List ε}

theorem joinedFrom_eq_all (h : es.any isOr = false) :
    joinedFrom isOr holds acc es = (acc && es.all holds) := by
  induction es generalizing acc with
  | nil => simp [joinedFrom]
  | cons e es ih =>
    rw [List.any_cons, Bool.or_eq_false_iff] at h
    rw [joinedFrom, if_neg (by simp [h.1]), ih h.2, List.all_cons, Bool.and_assoc]

theorem joined_eq_all (h : es.any isOr = false) : joined isOr holds es = es.all holds := by
  cases es with
  | nil => rfl
  | cons e es =>
    rw [List.any_cons, Bool.or_eq_false_iff] at h
    exact joinedFrom_eq_all h.2

end

variable {schema} {s : Scope ε} {row : Row} {fs : List Field}

theorem Scope.group_all (s : Scope ε) :
    ((s.group g).conditions.getD []).all (g.holds row) = g.selects s.conditions row := by
  obtain ⟨_ | es, flags⟩ := s
  · rfl
  · by_cases hes : es.any g.isOr
    · have hand := g.holds_and row es hes
      simp only [group, hes, ↓reduceIte]
      simp [Gorm.selects, hand]
    · rw [Bool.not_eq_true] at hes
      have hjoined : joined g.isOr (g.holds row) es = es.all (g.holds row) := joined_eq_all hes
      simp [group, hes, Gorm.selects, hjoined]

theorem selects_filtered (conditions : Option (List ε)) (keys : List g.Key)
    (hfs : filtering [] fs ≠ []) :
    g.selects ((fs.foldl (Scope.filter g) ⟨conditions, []⟩).addKeys g keys).conditions row =
      (g.selects conditions row && (filtering [] fs).all (fun f => row f.dbName = f.zero) &&
        keys.all fun k => g.holds row k.1) := by
  rw [foldl_filter_eq, if_neg hfs, Scope.addKeys_conditions keys rfl]
  have hgrouped : ((Scope.group g ⟨conditions, []⟩).conditions.getD []).any g.isOr = false :=
    Scope.grouped_group
  have hnone : (((Scope.group g ⟨conditions, []⟩).conditions.getD [] ++
      (filtering [] fs).map (Field.condition g)) ++ keys.map Subtype.val).any g.isOr = false := by
    simp only [List.any_append, hgrouped, Bool.false_or, Bool.or_eq_false_iff, List.any_map]
    constructor
    · simp [Field.condition, g.isOr_eq]
    · exact List.any_eq_false.mpr fun k _ => by simp [k.2]
  rw [Gorm.selects, Option.elim_some, joined_eq_all hnone, List.all_append, List.all_append,
    Scope.group_all, List.all_map, List.all_map]
  simp only [Function.comp_def, Field.condition, g.holds_eq]

theorem filtering_ne_nil (hfs : fs ≠ []) : filtering [] fs ≠ [] := by
  obtain ⟨f, rest, rfl⟩ := List.exists_cons_of_ne_nil hfs
  simp [filtering]

/-! ## The statement of a call -/

def Schema.marks (schema : Schema) (now : Int) : List Assignment :=
  (schema.fields.map fun f => (f.dbName, f.mark now)).reverse

section

variable {now : Int} {st : Statement ε} (hscoped : st.unscoped = false) (hsql : st.sql.isEmpty)
include hscoped

/-- The fields filter one after the other. -/
theorem foldl_queryClause (fs : List Field) :
    fs.foldl (fun st f => f.queryClause g st) st =
      { st with toScope := fs.foldl (Scope.filter g) st.toScope } := by
  induction fs generalizing st with
  | nil => rfl
  | cons f fs ih =>
    rw [List.foldl_cons, ih (queryClause_limits.unscoped f st hscoped),
      Field.queryClause_eq hscoped]
    rfl

include hsql

theorem foldl_updateClause (fs : List Field) :
    fs.foldl (fun st f => f.updateClause g st) st =
      { st with toScope := fs.foldl (Scope.filter g) st.toScope } := by
  induction fs generalizing st with
  | nil => rfl
  | cons f fs ih =>
    have hsql' : (f.updateClause g st).sql.isEmpty := by
      rwa [updateClause_limits.sql f st hscoped]
    rw [List.foldl_cons, ih (updateClause_limits.unscoped f st hscoped) hsql',
      Field.updateClause_eq hscoped, if_pos hsql, Field.queryClause_eq hscoped]
    rfl

theorem foldl_deleteClause (fs : List Field) :
    (fs.foldl (fun st f => f.deleteClause g now st) st).toScope =
        fs.foldl (Scope.filter g) st.toScope ∧
      (fs.foldl (fun st f => f.deleteClause g now st) st).set.getD [] =
        (fs.map fun f => (f.dbName, f.mark now)).reverse ++ st.set.getD [] := by
  induction fs generalizing st with
  | nil => exact ⟨rfl, rfl⟩
  | cons f fs ih =>
    have hsql' : (f.deleteClause g now st).sql.isEmpty := by
      rwa [deleteClause_limits.sql f st hscoped]
    have hscope : (f.deleteClause g now st).toScope = st.toScope.filter g f := by
      rw [deleteClause_limits.scope f st hscoped, hsql, Bool.true_or, if_pos rfl]
    have hset : (f.deleteClause g now st).set =
        some ((f.dbName, f.mark now) :: st.set.getD []) := by
      have hmarked : (st.addSet (f.dbName, f.mark now)).unscoped = false := hscoped
      rw [Field.deleteClause_eq hscoped, hsql, Bool.true_or, if_pos rfl,
        Field.queryClause_eq hmarked]
      rfl
    obtain ⟨ihscope, ihset⟩ := ih (deleteClause_limits.unscoped f st hscoped) hsql'
    rw [List.foldl_cons, ihscope, ihset, hscope, hset]
    simp

end

variable (schema) in
/-- The scope of a call: what the caller asks for and the conditions of the fields. -/
def Call.scope (c : Call g) : Scope ε :=
  (schema.fields.foldl (Scope.filter g) ⟨c.conditions, []⟩).addKeys g c.keys

variable (schema) in
/-- What a call sends to the database, if it does.  An update without an assignment
sends an empty text. -/
inductive Call.Sends (c : Call g) : Sql ε → Prop
  | query : c.action = .query → Call.Sends c (.select (c.scope schema).conditions)
  | update {assignments : List Assignment} : c.action = .update assignments →
    Call.Sends c (.update assignments (c.scope schema).conditions)
  | empty {assignments : List Assignment} : c.action = .update assignments →
    Call.Sends c (.raw [])
  | delete {now : Int} : c.action = .delete now →
    Call.Sends c (.update (schema.marks now) (c.scope schema).conditions)

variable {sql : Sql ε} {c : Call g} {t : Table} {i : Nat} {f f' : Field} {flags : List Flag}

theorem writeCallback_executed
    (h : (writeCallback build db st).executed = some sql) : sql = (build st).sql := by
  rw [writeCallback] at h
  split at h
  · cases h
  · exact (Option.ite_none_right_eq_some.mp h).2 |> Option.some.inj |>.symm

theorem Call.scope_withSoftDelete (hne : schema.fields ≠ []) (c : Call g) :
    isClausesWithSoftDelete (c.scope schema) = true := by
  have hflags : (c.scope schema).flags = (filtering [] schema.fields).map Field.flag := by
    rw [scope, Scope.addKeys_flags, foldl_filter_eq, if_neg (filtering_ne_nil hne)]
    rfl
  have hsoft : isClausesWithSoftDelete
      ⟨(c.scope schema).conditions, (filtering [] schema.fields).map Field.flag⟩ = true :=
    isClausesWithSoftDelete_map_flag (filtering_ne_nil hne)
  rwa [← hflags] at hsoft

/-- What a call sends has the conditions of the fields. -/
theorem Call.sends (hne : schema.fields ≠ []) (h : (c.outcome schema).executed = some sql) :
    c.Sends schema sql := by
  obtain ⟨action, conditions, keys, db⟩ := c
  cases action with
  | query =>
    simp only [outcome, queryCallback, Option.ite_none_right_eq_some, Option.some.injEq,
      buildQuerySQL] at h
    rw [foldl_queryClause rfl] at h
    obtain ⟨-, rfl⟩ := h
    exact .query rfl
  | update assignments =>
    obtain rfl := writeCallback_executed h
    rw [buildUpdateSQL, foldl_updateClause rfl rfl]
    by_cases has : assignments = []
    · subst has
      exact .empty rfl
    · simp only [Sql.isEmpty, List.isEmpty_nil, ↓reduceIte, ne_eq, has, not_false_eq_true]
      exact .update rfl
  | delete now =>
    obtain rfl := writeCallback_executed h
    have hlim : Limits g (Field.deleteClause g now) _ := deleteClause_limits
    have hstart : (⟨⟨conditions, []⟩, none, false, .raw []⟩ : Statement ε).unscoped = false := rfl
    have hsql := (hlim.foldl schema.fields hstart).2.1
    obtain ⟨hscope, hset⟩ : (schema.fields.foldl (fun st (f : Field) => f.deleteClause g now st)
        (⟨⟨conditions, []⟩, none, false, .raw []⟩ : Statement ε)).toScope = _ ∧ _ :=
      foldl_deleteClause hstart rfl schema.fields
    have hsoft := scope_withSoftDelete hne ⟨.delete now, conditions, keys, db⟩
    rw [scope] at hsoft
    simp only [buildDeleteSQL, hsql, hscope, hset, hsoft, ↓reduceIte, Sql.isEmpty,
      List.isEmpty_nil, Option.getD_none, List.append_nil]
    exact .delete rfl

/-- Which rows a statement that is sent finds. -/
theorem Call.Sends.finds_iff (hne : schema.fields ≠ []) (h : c.Sends schema sql)
    (hsql : sql.isEmpty = false) :
    sql.finds g row = true ↔
      c.asks row = true ∧ ∀ f ∈ filtering [] schema.fields, row f.dbName = f.zero := by
  have hselects : g.selects (c.scope schema).conditions row = true ↔
      c.asks row = true ∧ ∀ f ∈ filtering [] schema.fields, row f.dbName = f.zero := by
    rw [Call.scope, selects_filtered c.conditions c.keys (filtering_ne_nil hne), Call.asks]
    simp only [Bool.and_eq_true, List.all_eq_true, decide_eq_true_eq]
    tauto
  cases h with
  | query | update | delete => exact hselects
  | empty => cases hsql

/-! ## Hidden rows stay as they are -/

variable (schema) in
/-- A row that the condition of some field leaves out. -/
def Hidden (row : Row) : Prop := ∃ f ∈ filtering [] schema.fields, row f.dbName ≠ f.zero

/-- A call finds the rows it asks for that are not hidden. -/
theorem Call.finds_iff (hne : schema.fields ≠ []) (h : (c.outcome schema).executed = some sql)
    (hsql : sql.isEmpty = false) :
    c.finds schema row = true ↔ c.asks row = true ∧ ¬Hidden schema row := by
  have hfinds : c.finds schema row = sql.finds g row := by rw [finds, h, Option.any_some]
  rw [hfinds, (sends hne h).finds_iff hne hsql]
  simp [Hidden]

/-- A delete that is sent is an update of the rows that the caller asks for. -/
theorem Call.finds_of_delete (hne : schema.fields ≠ []) (hact : c.action = .delete now)
    (h : (c.outcome schema).executed.isSome) :
    c.finds schema row = true ↔ c.asks row = true ∧ ¬Hidden schema row := by
  obtain ⟨sql, hexec⟩ := Option.isSome_iff_exists.mp h
  refine finds_iff hne hexec ?_
  cases sends hne hexec with
  | query | update | delete => rfl
  | empty hc => cases hc.symm.trans hact

theorem Call.not_finds_of_not (hne : schema.fields ≠ []) (c : Call g)
    (h : ¬(c.asks row = true ∧ ¬Hidden schema row)) : c.finds schema row = false := by
  cases hexec : (c.outcome schema).executed with
  | none => rw [finds, hexec, Option.any_none]
  | some sql =>
    cases hsql : sql.isEmpty with
    | false => rwa [← finds_iff hne hexec hsql, Bool.not_eq_true] at h
    | true =>
      rw [finds, hexec, Option.any_some]
      cases sql with
      | raw text => rfl
      | select | update | delete => cases hsql

/-- A call leaves the rows that it does not find. -/
theorem callStep_of_not_finds (hrow : t i = some row) (h : c.finds schema row = false) :
    (callStep schema t c).1 i = some row := by
  rw [Call.finds] at h
  cases hexec : (c.outcome schema).executed with
  | none => simpa [callStep, hexec] using hrow
  | some sql =>
    rw [hexec, Option.any_some] at h
    simp [callStep, hexec, Sql.exec, hrow, h]

/-- A hidden row is found by no call of a run, and changed by none. -/
theorem Hidden.run (hne : schema.fields ≠ []) (hrow : t i = some row) (h : Hidden schema row)
    (later : List (Call g)) : runFrom (callStep schema) t later i = some row := by
  let Kept (t : Table) : Prop := t i = some row
  have hstep (t : Table) (c : Call g) (hkept : Kept t) : Kept (callStep schema t c).1 :=
    callStep_of_not_finds hkept (c.not_finds_of_not hne fun ⟨_, hn⟩ => hn h)
  have hkept : Kept (runFrom (callStep schema) t later) := runFrom_invariant hstep later hrow
  exact hkept

/-! ## Marks -/

theorem Row.assign_of_not_mem (set : List Assignment) (row : Row)
    (h : column ∉ set.map Prod.fst) : row.assign set column = row column := by
  induction set generalizing row with
  | nil => rfl
  | cons a set ih =>
    rw [List.map_cons, List.mem_cons, not_or] at h
    have hstep : row.assign (a :: set) = assign set (Function.update row a.1 a.2) := rfl
    rw [hstep, ih _ h.2, Function.update_of_ne h.1]

theorem Row.assign_of_mem {a : Assignment} {set : List Assignment} (row : Row)
    (hset : (set.map Prod.fst).Nodup) (ha : a ∈ set) : row.assign set a.1 = a.2 := by
  induction set generalizing row with
  | nil => cases ha
  | cons b set ih =>
    have hstep : row.assign (b :: set) = assign set (Function.update row b.1 b.2) := rfl
    rw [List.map_cons, List.nodup_cons] at hset
    rw [hstep]
    cases ha with
    | head => rw [assign_of_not_mem set _ hset.1, Function.update_self]
    | tail _ ha => exact ih _ hset.2 ha

theorem Schema.assign_marks (row : Row) (hf : f ∈ schema.fields) :
    row.assign (schema.marks now) f.dbName = f.mark now := by
  have hnodup : ((schema.marks now).map Prod.fst).Nodup := by
    simpa [marks, List.map_reverse, Function.comp_def] using schema.nodup
  have hmem : (f.dbName, f.mark now) ∈ schema.marks now := by
    rw [marks, List.mem_reverse]
    exact List.mem_map_of_mem hf
  exact Row.assign_of_mem row hnodup hmem

/-- A delete marks the rows that it finds. -/
theorem callStep_delete (hne : schema.fields ≠ []) (hact : c.action = .delete now)
    (hrow : t i = some row) (h : c.finds schema row = true) :
    (callStep schema t c).1 i = some (row.assign (schema.marks now)) := by
  rw [Call.finds] at h
  cases hexec : (c.outcome schema).executed with
  | none => rw [hexec] at h; cases h
  | some sql =>
    rw [hexec, Option.any_some] at h
    cases Call.sends hne hexec with
    | query hc | update hc | empty hc => cases hc.symm.trans hact
    | delete hc =>
      cases hc.symm.trans hact
      simp [callStep, hexec, Sql.exec, Sql.write, hrow, h]

/-! ## Models that can hide -/

theorem filtering_subset (h : f ∈ filtering flags fs) : f ∈ fs := by
  induction fs generalizing flags with
  | nil => exact h
  | cons f' fs ih =>
    rw [filtering] at h
    split at h
    · exact List.mem_cons_of_mem _ (ih h)
    · rcases List.mem_cons.mp h with rfl | h
      · exact List.mem_cons_self
      · exact List.mem_cons_of_mem _ (ih h)

theorem Field.flag_inj : f.flag = f'.flag ↔ f.kind = f'.kind := by
  cases hkind : f.kind <;> cases hkind' : f'.kind <;> simp [flag, hkind, hkind']

/-- Every field filters iff each is the only one of its kind. -/
theorem filtering_eq_self {fs : List Field} (hfs : (fs.map Field.kind).Nodup)
    (hflags : ∀ f ∈ fs, f.flag ∉ flags) : filtering flags fs = fs := by
  induction fs generalizing flags with
  | nil => rfl
  | cons f fs ih =>
    rw [List.map_cons, List.nodup_cons] at hfs
    rw [filtering, if_neg (hflags f List.mem_cons_self)]
    congr 1
    refine ih hfs.2 fun f' hf' hmem => ?_
    rcases List.mem_append.mp hmem with hmem | hmem
    · exact hflags f' (List.mem_cons_of_mem _ hf') hmem
    · have hkind := Field.flag_inj.mp (List.mem_singleton.mp hmem)
      exact hfs.1 (hkind ▸ List.mem_map_of_mem hf')

theorem CanHide.filtering_eq (h : CanHide schema) : filtering [] schema.fields = schema.fields :=
  filtering_eq_self h.1 fun _ _ => List.not_mem_nil

theorem CanHide.hidden_marks (h : CanHide schema) (htime : TimeDiffers schema now)
    (row : Row) : Hidden schema (row.assign (schema.marks now)) := by
  obtain ⟨f, hf, hmark⟩ := h.2
  refine ⟨f, by rwa [h.filtering_eq], ?_⟩
  rw [schema.assign_marks row hf]
  cases hkind : f.kind with
  | timestamp =>
    have hzero := htime f hf hkind
    simpa [Field.mark, hkind] using hzero.symm
  | deleted =>
    have hfalse : parseStatusZeroValueTag f = false :=
      hmark.resolve_left (by simp [hkind])
    simp [Field.mark, Field.zero, hkind, hfalse]

/-- Such a model leaves out the deleted rows. -/
theorem CanHide.filtersDeleted (hne : schema.fields ≠ []) (h : CanHide schema) :
    FiltersDeleted schema g := by
  intro c sql row hexec hsql
  rw [(Call.sends hne hexec).finds_iff hne hsql, h.filtering_eq]
  rfl

/-- Its deleted rows stay hidden. -/
theorem CanHide.hidesDeleted (hne : schema.fields ≠ []) (h : CanHide schema) :
    HidesDeleted schema g := by
  intro c now t i row hact htime hexec hrow
  constructor
  · intro hasks later c' row' hrow'
    -- the row behind the delete is hidden, whether the delete has marked it or not
    obtain ⟨row₁, hrow₁, hhidden⟩ : ∃ row₁, (callStep schema t c).1 i = some row₁ ∧
        Hidden schema row₁ := by
      by_cases hfound : c.finds schema row = true
      · exact ⟨_, callStep_delete hne hact hrow hfound, h.hidden_marks htime row⟩
      · refine ⟨row, callStep_of_not_finds hrow (Bool.not_eq_true _ ▸ hfound), ?_⟩
        by_contra hn
        exact hfound ((Call.finds_of_delete hne hact hexec).mpr ⟨hasks, hn⟩)
    obtain rfl : row₁ = row' :=
      Option.some.inj ((hhidden.run hne hrow₁ later).symm.trans hrow')
    exact c'.not_finds_of_not hne fun ⟨_, hn⟩ => hn hhidden
  · intro hasks
    exact callStep_of_not_finds hrow (c.not_finds_of_not hne (by simp [hasks]))

/-! ## Models that cannot -/

/-- A row that no field hides. -/
def Schema.zeroRow (schema : Schema) : Row := fun column =>
  (schema.fields.find? (·.dbName = column)).elim .null Field.zero

theorem Schema.eq_of_dbName (hf : f ∈ schema.fields) (hf' : f' ∈ schema.fields)
    (h : f.dbName = f'.dbName) : f = f' :=
  List.inj_on_of_nodup_map schema.nodup hf hf' h

theorem Schema.zeroRow_dbName (hf : f ∈ schema.fields) : schema.zeroRow f.dbName = f.zero := by
  rw [zeroRow]
  cases hfind : schema.fields.find? (·.dbName = f.dbName) with
  | none => simpa using List.find?_eq_none.mp hfind f hf
  | some f' =>
    have hname : f'.dbName = f.dbName := by simpa using List.find?_some hfind
    rw [schema.eq_of_dbName (List.mem_of_find?_eq_some hfind) hf hname, Option.elim_some]

theorem Field.zero_ne_text (f : Field) (s : Text) : f.zero ≠ .text s := by
  rw [zero]
  cases f.kind with
  | deleted => simp
  | timestamp => cases parseTimestampZeroValueTag f <;> simp

def queryAll : Call g := ⟨.query, none, [], ⟨false, false, none⟩⟩

theorem queryAll_sends : ∃ sql, ((queryAll : Call g).outcome schema).executed = some sql ∧
    sql.isEmpty = false := by
  refine ⟨_, rfl, ?_⟩
  rw [buildQuerySQL, foldl_queryClause rfl]
  rfl

/-- A query of all rows finds those that are not hidden. -/
theorem queryAll_finds_iff (hne : schema.fields ≠ []) :
    (queryAll : Call g).finds schema row = true ↔ ¬Hidden schema row := by
  obtain ⟨sql, hexec, hsql⟩ : ∃ sql, ((queryAll : Call g).outcome schema).executed = some sql ∧
    sql.isEmpty = false := queryAll_sends
  rw [Call.finds_iff hne hexec hsql]
  exact and_iff_right rfl

/-- The conditions of a model with two fields of one type leave one of them out. -/
theorem FiltersDeleted.nodup (hne : schema.fields ≠ []) (h : FiltersDeleted schema g) :
    (schema.fields.map Field.kind).Nodup := by
  have hall : ∀ f ∈ schema.fields, f ∈ filtering [] schema.fields := by
    intro f hf
    by_contra hout
    obtain ⟨sql, hexec, hsql⟩ : ∃ sql, ((queryAll : Call g).outcome schema).executed = some sql ∧
      sql.isEmpty = false := queryAll_sends
    have hfinds := (h queryAll sql (Function.update schema.zeroRow f.dbName (.text [])) hexec hsql)
    rw [(Call.sends hne hexec).finds_iff hne hsql] at hfinds
    have hvisible := (hfinds.mp ⟨rfl, fun f' hf' => ?_⟩).2 f hf
    · rw [Function.update_self] at hvisible
      exact f.zero_ne_text [] hvisible.symm
    · have hname : f'.dbName ≠ f.dbName := fun hname =>
        hout (schema.eq_of_dbName (filtering_subset hf') hf hname ▸ hf')
      rw [Function.update_of_ne hname, schema.zeroRow_dbName (filtering_subset hf')]
  refine List.Nodup.map_on (fun f hf f' hf' hkind => ?_) (List.Nodup.of_map _ schema.nodup)
  exact List.inj_on_of_nodup_map (nodup_map_flag_filtering [] schema.fields) (hall f hf)
    (hall f' hf') (Field.flag_inj.mpr hkind)

/-- The marks of a model whose fields are all marked with their zero value hide nothing. -/
theorem HidesDeleted.exists_mark (hne : schema.fields ≠ []) (h : HidesDeleted schema g) :
    ∃ f ∈ schema.fields, f.kind = .timestamp ∨ parseStatusZeroValueTag f = false := by
  by_contra hn
  simp only [not_exists, not_and, not_or, Bool.not_eq_false] at hn
  have hkind (f : Field) (hf : f ∈ schema.fields) : f.kind = .deleted := by
    cases hkind : f.kind with
    | deleted => rfl
    | timestamp => exact absurd hkind (hn f hf).1
  let c : Call g := ⟨.delete 0, none, [], ⟨true, false, none⟩⟩
  have hexec : (c.outcome schema).executed.isSome := rfl
  have hfresh : ¬Hidden schema schema.zeroRow := by
    rintro ⟨f, hf, hzero⟩
    exact hzero (schema.zeroRow_dbName (filtering_subset hf))
  have hfound : c.finds schema schema.zeroRow = true :=
    (Call.finds_of_delete hne rfl hexec).mpr ⟨rfl, hfresh⟩
  have htime : TimeDiffers schema 0 := fun f hf hts => absurd hts (hn f hf).1
  have hlater := (h c 0 (fun _ => some schema.zeroRow) 0 schema.zeroRow rfl htime hexec rfl).1 rfl
    [] queryAll _ (callStep_delete hne rfl rfl hfound)
  refine absurd ((queryAll_finds_iff hne).mpr ?_) (by rw [hlater]; nofun)
  rintro ⟨f, hf, hzero⟩
  refine hzero ?_
  rw [schema.assign_marks _ (filtering_subset hf)]
  simp [Field.mark, Field.zero, hkind f (filtering_subset hf), (hn f (filtering_subset hf)).2]

/-- The scoped statements of a model leave out exactly the deleted rows, and the rows that a
delete asks for stay hidden in every run, iff the model has one field of a type at most and one
of them is a `Timestamp` or a `Deleted` with the zero value `false`. -/
theorem softDelete_hides_iff (g : Gorm ε) (schema : Schema) (hne : schema.fields ≠ []) :
    HidesDeleted schema g ∧ FiltersDeleted schema g ↔ CanHide schema := by
  constructor
  · rintro ⟨hhides, hfilters⟩
    exact ⟨hfilters.nodup hne, hhides.exists_mark hne⟩
  · intro h
    exact ⟨h.hidesDeleted hne, h.filtersDeleted hne⟩

theorem dataSoftDeleted_hides :
    dataSoftDeleted.fields ≠ [] ∧ HidesDeleted dataSoftDeleted Gorm.plain :=
  ⟨by decide, ((softDelete_hides_iff Gorm.plain dataSoftDeleted (by decide)).mpr
    ⟨by decide, ⟨.timestamp, "delete_time".toList, none⟩, by decide, .inl rfl⟩).1⟩

/-- A model with `ZEROVALUE:true` at its `Deleted`. -/
def deletedByTrue : Schema where
  fields := [⟨.deleted, "deleted".toList, some "true".toList⟩]
  nodup := by decide

/-- A row that is not deleted, and a delete of it by its name. -/
def aliceRow : Row := fun column => if column = "name".toList then .text "alice".toList else .bool true

def deleteAlice : Call Gorm.plain where
  action := .delete 1700000000000
  conditions := some [(false, fun row => decide (row "name".toList = .text "alice".toList))]
  keys := []
  db := ⟨false, false, none⟩

/-- The delete is sent and finds the row, and a query still finds it behind the delete. -/
theorem deletedByTrue_still_found :
    (deleteAlice.outcome deletedByTrue).executed.isSome ∧ deleteAlice.asks aliceRow = true ∧
      ((callStep deletedByTrue (fun _ => some aliceRow) deleteAlice).1 0).any
        (Call.finds deletedByTrue (queryAll : Call Gorm.plain)) = true := by
  refine ⟨rfl, ?_, ?_⟩ <;> decide

end Gofusion.Db.Softdelete
