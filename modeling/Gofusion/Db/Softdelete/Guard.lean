import Gofusion.Db.Softdelete.Clause
import Mathlib.Data.Finset.Card

/-!
# Writes without a condition

`checkMissingWhereConditions` refuses an update or a delete of all rows.  The conditions of the
soft-delete fields stand in the same `WHERE` as those of the caller.  The check takes one
expression for the condition of a field, and more than one for a condition of the caller.
-/

namespace Gofusion.Db.Softdelete

variable {ε : Type} {g : Gorm ε}

/-! ## The number of conditions of the fields -/

def BothKinds (fs : List Field) : Prop :=
  (∃ f ∈ fs, f.kind = .deleted) ∧ ∃ f ∈ fs, f.kind = .timestamp

theorem one_lt_length_filtering :
    1 < (filtering [] fs).length ↔ BothKinds fs := by
  have hcard : (filtering [] fs).length = ((filtering [] fs).map Field.flag).toFinset.card := by
    rw [List.toFinset_card_of_nodup (nodup_map_flag_filtering [] fs), List.length_map]
  have hmem (flag : Flag) :
      flag ∈ ((filtering [] fs).map Field.flag).toFinset ↔ ∃ f ∈ fs, f.flag = flag := by
    rw [List.mem_toFinset, mem_map_flag_filtering]
    simp
  rw [hcard, Finset.one_lt_card]
  simp only [hmem, BothKinds, ← Field.flag_eq_status, ← Field.flag_eq_timestamp]
  constructor
  · rintro ⟨_, ⟨f, hf, rfl⟩, _, ⟨f', hf', rfl⟩, hne⟩
    rcases f.flag_cases with h | h <;> rcases f'.flag_cases with h' | h'
    · exact absurd (h.trans h'.symm) hne
    · exact ⟨⟨f, hf, h⟩, f', hf', h'⟩
    · exact ⟨⟨f', hf', h'⟩, f, hf, h⟩
    · exact absurd (h.trans h'.symm) hne
  · rintro ⟨hstatus, htimestamp⟩
    exact ⟨_, hstatus, _, htimestamp, nofun⟩

/-! ## The check -/

/-- Without a condition the check passes for fields of both types. -/
theorem withCondition_filter_none (fs : List Field) :
    (fs.foldl (Scope.filter g) ⟨none, []⟩).withCondition = true ↔ BothKinds fs := by
  rw [← one_lt_length_filtering, foldl_filter_eq]
  split
  · simp [Scope.withCondition, *]
  · rename_i hne
    rw [List.nil_append, Scope.withCondition, isClausesWithSoftDelete_map_flag hne]
    simp [Scope.group]

/-- A statement with two expressions passes, and so does one that no field has touched. -/
theorem withCondition_of_length {s : Scope ε} {es : List ε} (hs : s.conditions = some es)
    (hes : 1 < es.length ∨ s.flags = []) : s.withCondition = true := by
  rw [Scope.withCondition, hs]
  rcases hes with hlen | hflags
  · simp [hlen]
  · simp [isClausesWithSoftDelete, hflags]

theorem Scope.group_ne_nil (e : ε) (es : List ε) (flags : List Flag) :
    ∃ e' es', (Scope.group g ⟨some (e :: es), flags⟩).conditions = some (e' :: es') := by
  rw [group]
  dsimp only
  split
  · exact ⟨_, [], rfl⟩
  · exact ⟨e, es, rfl⟩

/-- With a condition it always passes. -/
theorem withCondition_filter_cons (fs : List Field) (keys : List g.Key) (e : ε) (es : List ε) :
    ((fs.foldl (Scope.filter g) ⟨some (e :: es), []⟩).addKeys g keys).withCondition = true := by
  rw [foldl_filter_eq]
  split
  · exact withCondition_of_length (Scope.addKeys_conditions keys rfl) (.inr (by simp))
  · rename_i hne
    obtain ⟨e', es', hgroup⟩ := Scope.group_ne_nil (g := g) e es []
    have hpos : 0 < (filtering [] fs).length := List.length_pos_iff.mpr hne
    refine withCondition_of_length (Scope.addKeys_conditions keys rfl) (.inl ?_)
    rw [hgroup]
    simp only [Option.getD_some, List.length_append, List.length_map, List.length_cons]
    omega

/-! ## Updates and deletes -/

/-- The two kinds of statements that write. -/
inductive Write
  | update (assignments : List Assignment)
  | delete (now : Int)
deriving Repr

section

variable (g) (schema : Schema) (keys : List g.Key)

def Write.build : Write → Statement ε → Statement ε
  | .update assignments => buildUpdateSQL g schema assignments keys
  | .delete now => buildDeleteSQL g schema now keys

def Write.callback : Write → Session → Statement ε → Outcome ε
  | .update assignments => updateCallback g schema assignments keys
  | .delete now => deleteCallback g schema now keys

end

/-- The fields whose clause acts on a statement with this text. -/
def Write.acts (sql : Sql ε) : Write → Field → Bool
  | .update _, _ => sql.isEmpty
  | .delete _, f => sql.isEmpty || f.kind = .deleted

/-- A statement of a caller who has not left out the soft-delete fields. -/
def Statement.start (conditions : Option (List ε)) (set : Option (List Assignment)) (sql : Sql ε) :
    Statement ε :=
  ⟨⟨conditions, []⟩, set, false, sql⟩

section

variable {schema : Schema} {keys : List g.Key} {st : Statement ε}

theorem Write.callback_eq (w : Write) :
    w.callback g schema keys = writeCallback (w.build g schema keys) := by
  cases w <;> rfl

/-- The scope of a statement that is built: the conditions of the fields, and those of
the keys where they are added. -/
theorem Write.build_toScope (w : Write) (hscoped : st.unscoped = false) :
    ∃ ks, (ks = keys ∨ ks = []) ∧ (w.build g schema keys st).toScope =
      ((schema.fields.filter (w.acts st.sql)).foldl (Scope.filter g) st.toScope).addKeys g ks := by
  cases w with
  | update _ =>
    have hscope := (updateClause_limits.foldl (g := g) schema.fields hscoped).1
    simp only [build, buildUpdateSQL]
    split
    · split
      · exact ⟨[], .inr rfl, hscope⟩
      · split <;> exact ⟨keys, .inl rfl, congrArg (Scope.addKeys g keys) hscope⟩
    · exact ⟨[], .inr rfl, hscope⟩
  | delete now =>
    have hlim : Limits g (Field.deleteClause g now) _ := deleteClause_limits
    have hscope := (hlim.foldl schema.fields hscoped).1
    simp only [build, buildDeleteSQL]
    split
    · split <;> exact ⟨keys, .inl rfl, congrArg (Scope.addKeys g keys) hscope⟩
    · exact ⟨[], .inr rfl, hscope⟩

theorem Write.bothKinds_acts (w : Write) {sql : Sql ε} {fs : List Field} :
    BothKinds (fs.filter (w.acts sql)) ↔ sql.isEmpty ∧ BothKinds fs := by
  cases w <;> cases hsql : sql.isEmpty <;> simp [BothKinds, acts, hsql]
  -- the clauses of `Deleted` fields that are left have no other type
  intro f hf hdeleted f' hf' hdeleted'
  simp [hdeleted']

section

variable (w : Write) {db : Session}
    (hallow : db.allowGlobalUpdate = false) (herr : db.error = none)
include hallow herr

/-- The check refuses exactly what it takes to be without a condition. -/
theorem Write.error_iff :
    (w.callback g schema keys db st).error = some .missingWhereClause ↔
      (w.build g schema keys st).withCondition = false := by
  simp [w.callback_eq, writeCallback, checkMissingWhereConditions, hallow, herr]

/-- A write that is refused is not executed. -/
theorem Write.refused_iff :
    w.callback g schema keys db st = ⟨some .missingWhereClause, none⟩ ↔
      (w.build g schema keys st).withCondition = false := by
  rw [← w.error_iff hallow herr]
  refine ⟨fun h => by rw [h], fun h => ?_⟩
  have hcond := (w.error_iff hallow herr).mp h
  simp [w.callback_eq, writeCallback, checkMissingWhereConditions, hallow, herr, hcond]

end

end

/-- A write without a condition and without a key is refused, and one with a condition is
not, unless the model has fields of both types and the statement has no text of its own. -/
theorem globalWrite_refused_iff (schema : Schema) (w : Write) (keys : List g.Key) (db : Session)
    (conditions : Option (List ε)) (set : Option (List Assignment)) (sql : Sql ε)
    (hallow : db.allowGlobalUpdate = false) (herr : db.error = none) :
    let out := w.callback g schema keys db (.start conditions set sql)
    ((conditions = none → keys = [] → out = ⟨some .missingWhereClause, none⟩) ∧
        (∀ e es, conditions = some (e :: es) → out.error ≠ some .missingWhereClause)) ↔
      ¬(conditions = none ∧ keys = [] ∧ sql.isEmpty ∧ BothKinds schema.fields) := by
  intro out
  obtain ⟨ks, hks, hscope⟩ : ∃ ks, (ks = keys ∨ ks = []) ∧
    (w.build g schema keys (.start conditions set sql)).toScope = _ := w.build_toScope rfl
  have hcond : (conditions = none → keys = [] →
      ((w.build g schema keys (.start conditions set sql)).withCondition = true ↔
        sql.isEmpty ∧ BothKinds schema.fields)) := by
    rintro rfl rfl
    obtain rfl : ks = [] := hks.elim id id
    rw [hscope, ← w.bothKinds_acts]
    exact withCondition_filter_none _
  simp only [out, ne_eq, w.refused_iff hallow herr, w.error_iff hallow herr]
  constructor
  · rintro ⟨hnone, -⟩ ⟨hc, hk, hboth⟩
    have hw := (hcond hc hk).mpr hboth
    rw [hnone hc hk] at hw
    cases hw
  · intro h
    refine ⟨fun hc hk => ?_, ?_⟩
    · exact Bool.eq_false_iff.mpr fun hw => h ⟨hc, hk, (hcond hc hk).mp hw⟩
    · rintro e es rfl hw
      rw [hscope] at hw
      exact absurd (withCondition_filter_cons _ ks e es) (by rw [Bool.not_eq_true]; exact hw)

/-- A delete of all rows of a `DataSoftDeleted` is sent to the database. -/
theorem dataSoftDeleted_delete_all_passes :
    let out := deleteCallback Gorm.plain dataSoftDeleted 1700000000000 [] ⟨false, false, none⟩
      (.start none none (.raw []))
    out.error = none ∧ out.executed.isSome := by
  exact ⟨rfl, rfl⟩

/-- A model with the second of the two fields only. -/
def deletedOnly : Schema where
  fields := [⟨.deleted, "deleted".toList, none⟩]
  nodup := by decide

theorem deletedOnly_delete_all_refused :
    (Write.delete 1700000000000).callback Gorm.plain deletedOnly [] ⟨false, false, none⟩
      (.start none none (.raw [])) = ⟨some .missingWhereClause, none⟩ :=
  ((globalWrite_refused_iff (g := Gorm.plain) deletedOnly (.delete 1700000000000) []
    ⟨false, false, none⟩ none none (.raw []) rfl rfl).mpr
      (by simp [BothKinds, deletedOnly])).1 rfl rfl

end Gofusion.Db.Softdelete
