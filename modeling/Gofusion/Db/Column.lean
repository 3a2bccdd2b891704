import Gofusion.Utils.Text

/-!
# The field of a column

How the code finds the field of a model for the name of a column.  It asks `FieldByNameFunc` of
package `reflect` for a field with that name up to case, and then `GetGormColumnValue` of
`common/utils/reflect.go` for a field whose `gorm` tag names the column.  Neither knows the naming
strategy of gorm.

A model is a finite tree of structs.  Case is the one of ASCII letters, all fields are exported,
and an embedded pointer is not nil.
-/

namespace Gofusion.Db

/-! ## Models -/

/-- `reflect.StructField` of a model. -/
structure ModelField where
  name : Text
  /-- An embedded field. -/
  anonymous : Bool
  /-- `schema.ParseTagSetting` of the `gorm` tag, with the keys in capital letters. -/
  settings : List (Text × Text)
deriving DecidableEq, Repr

/-- A field of a model, or the model.  The value is what `Interface` gives. -/
inductive Reflected (V : Type)
  /-- Anything that is no struct, also behind pointers. -/
  | value (v : V)
  /-- A nil pointer. -/
  | nil (v : V)
  | struct (v : V) (fields : List (ModelField × Reflected V))
deriving Repr

variable {V : Type}

def Reflected.interface : Reflected V → V
  | .value v | .nil v | .struct v _ => v

def Reflected.fields : Reflected V → List (ModelField × Reflected V)
  | .struct _ fs => fs
  | _ => []

mutual

def Reflected.depth : Reflected V → Nat
  | .value _ | .nil _ => 0
  | .struct _ fs => Reflected.depths fs + 1

def Reflected.depths : List (ModelField × Reflected V) → Nat
  | [] => 0
  | (_, r) :: fs => max r.depth (Reflected.depths fs)

end

/-- The fields of the structs in a row of fields, one level deeper. -/
def below (into : ModelField → Bool) (level : List (ModelField × Reflected V)) :
    List (ModelField × Reflected V) :=
  level.flatMap fun f => if into f.1 then f.2.fields else []

/-! ## By name -/

/-- `strings.EqualFold`. -/
def equalFold (a b : Text) : Bool := a.map Char.toLower = b.map Char.toLower

/-- `FieldByNameFunc`, level by level.  Two fields on the first level that has one are no field. -/
def fieldByNameFunc (named : Text → Bool) :
    Nat → List (ModelField × Reflected V) → Option (Reflected V)
  | 0, _ => none
  | n + 1, level =>
    match level.filter fun f => named f.1.name with
    | [] => fieldByNameFunc named n (below ModelField.anonymous level)
    | [f] => some f.2
    | _ => none

/-! ## By tag -/

/-- Whether the tag of a field names the column. -/
def ModelField.hasColumn (f : ModelField) (column : Text) : Bool :=
  (f.settings.lookup (column.map Char.toUpper)).isSome ||
    (f.settings.lookup "COLUMN".toList).getD [] = column

/-- The handler of `GetGormColumnValue`: nil pointers are passed over, structs are entered. -/
def takesColumn (column : Text) : ModelField × Reflected V → Bool
  | (f, .value _) => f.hasColumn column
  | _ => false

/-- `GetGormColumnValue`.  The queue of `TraverseValue` holds the structs of one level behind those
of the level above, so the fields are seen level by level. -/
def getGormColumnValue (column : Text) :
    Nat → List (ModelField × Reflected V) → Option (Reflected V)
  | 0, _ => none
  | n + 1, level =>
    match level.find? (takesColumn column) with
    | some f => some f.2
    | none => getGormColumnValue column n (below (fun _ => true) level)

/-- The value of a column in a model, `none` when no field is found. -/
def Reflected.column (r : Reflected V) (column : Text) : Option V :=
  ((fieldByNameFunc (fun name => equalFold name column) r.depth r.fields).or
    (getGormColumnValue column r.depth r.fields)).map Reflected.interface

/-! ## The column and its flag -/

/-- The fields of the structs in `level`, level by level. -/
def fieldsBelow : Nat → List (ModelField × Reflected V) → List (ModelField × Reflected V)
  | 0, _ => []
  | n + 1, level => level ++ fieldsBelow n (below (fun _ => true) level)

def Reflected.allFields (r : Reflected V) : List (ModelField × Reflected V) :=
  fieldsBelow r.depth r.fields

/-- Both results of `GetGormColumnValue`.  The handler sets an `ok` of its own. -/
def Reflected.gormColumnValue (r : Reflected V) (column : Text) : Option (Reflected V) × Bool :=
  (getGormColumnValue column r.depth r.fields, false)

/-- The column tag of a field is `column`. -/
def ModelField.Tagged (f : ModelField) (column : Text) : Prop :=
  f.settings.lookup "COLUMN".toList = some column

/-- A field with the column tag is found, and `ok` tells whether there is one. -/
def Reflected.FindsColumn (r : Reflected V) (column : Text) : Prop :=
  ((r.gormColumnValue column).2 = true ↔ ∃ f ∈ r.allFields, f.1.Tagged column) ∧
  ((r.gormColumnValue column).2 = true →
    ∃ f ∈ r.allFields, f.1.Tagged column ∧ (r.gormColumnValue column).1 = some f.2)

/-- The first field that takes the column, level by level. -/
theorem getGormColumnValue_eq (column : Text) (n : Nat) (level : List (ModelField × Reflected V)) :
    getGormColumnValue column n level =
      ((fieldsBelow n level).find? (takesColumn column)).map Prod.snd := by
  induction n generalizing level with
  | zero => rfl
  | succ n ih =>
    simp only [getGormColumnValue, fieldsBelow, List.find?_append, ih]
    cases level.find? (takesColumn column) <;> rfl

/-- `ok` is never set, so only a column that no field has is answered rightly.  The value is the
one of the first field that is no struct and has the column or a setting of that name. -/
theorem findsColumn_iff (r : Reflected V) (column : Text) :
    (r.FindsColumn column ↔ ∀ f ∈ r.allFields, ¬f.1.Tagged column) ∧
    (r.gormColumnValue column).1 = (r.allFields.find? (takesColumn column)).map Prod.snd := by
  refine ⟨?_, getGormColumnValue_eq column r.depth r.fields⟩
  simp [Reflected.FindsColumn, Reflected.gormColumnValue]

/-- A model with a column `size` behind a field of size 10. -/
def sized : Reflected Nat :=
  .struct 0 [(⟨"Name".toList, false, [("SIZE".toList, "10".toList)]⟩, .value 1),
    (⟨"Width".toList, false, [("COLUMN".toList, "size".toList)]⟩, .value 2)]

theorem sized_not_findsColumn :
    sized.gormColumnValue "size".toList = (some (.value 1), false) ∧
    ¬sized.FindsColumn "size".toList := by
  refine ⟨rfl, fun h => ?_⟩
  have hok := h.1.mpr ⟨_, List.mem_cons_of_mem _ List.mem_cons_self, rfl⟩
  exact nomatch hok

end Gofusion.Db
