import Gofusion.Utils.Text
import Mathlib.Algebra.Order.Ring.Int
import Mathlib.Data.List.Infix
import Mathlib.Tactic.Ring

/-!
# Ids of created rows

`CreateAutoIncr` of `db/callbacks/auto_incr.go` writes the ids that the database generated back
into the models.  The database reports the first generated id, and the callback counts up from
it, or the last one in the dialects with `RETURNING`, and the callback counts down.

The counter is an `int64` and wraps.  The field of a schema is a parameter with the laws of
`PrimaryField.Lawful`, what gorm does before the `INSERT` and with the rows of a `RETURNING` clause
is in the fields of `Creation`.
-/

namespace Gofusion.Db

variable {α ε : Type}

/-! ## The dialect -/

/-- The part of `mysql.Dialector` that the callback reads. -/
structure Dialector where
  skipInitializeWithVersion : Bool
  serverVersion : Text
  disableWithReturning : Bool

/-- Whether the database reports the last generated id.  `checkVersion` is the one of gorm. -/
def Dialector.lastInsertIDReversed (checkVersion : Text → Text → Bool) (d : Dialector) : Bool :=
  let withReturning := !d.skipInitializeWithVersion &&
    decide ("MariaDB".toList <:+: d.serverVersion) && checkVersion d.serverVersion "10.5".toList
  !d.disableWithReturning && withReturning

/-! ## Models -/

/-- `Schema.PrioritizedPrimaryField`. -/
structure PrimaryField (α ε : Type) where
  hasDefaultValue : Bool
  /-- The value and whether it is zero. -/
  valueOf : α → Int × Bool
  set : α → Int → α × Option ε

/-- An id that a field with room up to `max` can hold. -/
def IsId (max n : Int) : Prop := 0 < n ∧ n ≤ max

/-- A field of an integer type, signed or not, with room up to `max`: an id that is set is read, and
zero is zero. -/
structure PrimaryField.Lawful (f : PrimaryField α ε) (max : Int) : Prop where
  max_lt : max < 2 ^ 63
  isZero_iff : ∀ m, (f.valueOf m).2 = true ↔ (f.valueOf m).1 = 0
  set_valueOf : ∀ m id, IsId max id → (f.valueOf (f.set m id).1).1 = id
  set_error : ∀ m id, IsId max id → (f.set m id).2 = none

/-- `Statement.ReflectValue`.  An element that is no struct, or a nil pointer, is `none`. -/
inductive Created (α : Type)
  | slice (elems : List (Option α))
  | array (elems : List (Option α))
  | struct (m : α)
  | other
deriving Repr

/-! ## The callback -/

/-- An `int64` after wrapping around. -/
def wrapInt64 (n : Int) : Int := n.bmod (2 ^ 64)

/-- The loop over the elements, with the step that is added to the id after each assignment.
The errors are the ones given to `AddError`. -/
def PrimaryField.backfill (f : PrimaryField α ε) (step : Int) :
    List (Option α) → Int → List (Option α) × List ε
  | [], _ => ([], [])
  | none :: elems, _ => (none :: elems, [])
  | some m :: elems, insertID =>
    if (f.valueOf m).2 then
      let rest := f.backfill step elems (wrapInt64 (insertID + step))
      (some (f.set m insertID).1 :: rest.1, (f.set m insertID).2.toList ++ rest.2)
    else
      let rest := f.backfill step elems insertID
      (some m :: rest.1, rest.2)

/-- The loop from the first element on, or from the last one back. -/
def PrimaryField.backfillFrom (f : PrimaryField α ε) (reversed : Bool) (autoIncrIncr : Int)
    (elems : List (Option α)) (insertID : Int) : List (Option α) × List ε :=
  if reversed then
    let r := f.backfill (-autoIncrIncr) elems.reverse insertID
    (r.1.reverse, r.2)
  else f.backfill autoIncrIncr elems insertID

/-- The assignment of the ids to what was created. -/
def PrimaryField.assign (f : PrimaryField α ε) (reversed : Bool) (autoIncrIncr : Int)
    (insertID : Int) : Created α → Created α × List ε
  | .slice elems =>
    let r := f.backfillFrom reversed autoIncrIncr elems insertID
    (.slice r.1, r.2)
  | .array elems =>
    let r := f.backfillFrom reversed autoIncrIncr elems insertID
    (.array r.1, r.2)
  | .struct m =>
    if (f.valueOf m).2 then (.struct (f.set m insertID).1, (f.set m insertID).2.toList)
    else (.struct m, [])
  | .other => (.other, [])

/-- What `ExecContext` gives back. -/
structure ExecResult (ε : Type) where
  rowsAffected : Int
  lastInsertId : Except ε Int

/-- A create call up to the callback, and what gorm and the database answer in it. -/
structure Creation (α ε : Type) where
  /-- `db.Error`, at the start or after the text is built. -/
  error : Option ε
  dryRun : Bool
  hasReturning : Bool
  /-- The rows of the `RETURNING` clause, scanned into the models. -/
  scan : Created α → Created α × List ε
  /-- The primary field, `none` without a schema or without a primary field. -/
  field : Option (PrimaryField α ε)
  value : Created α
  exec : Except ε (ExecResult ε)

/-- What the callback does after the `INSERT`.  `err` of `LastInsertId` is added even when it is
nil and only the id is not positive. -/
def Creation.afterExec (c : Creation α ε) (reversed : Bool) (autoIncrIncr : Int)
    (result : ExecResult ε) : Created α × List ε :=
  match c.field with
  | none => (c.value, [])
  | some f =>
    if result.rowsAffected ≠ 0 ∧ f.hasDefaultValue = true then
      match result.lastInsertId with
      | .error e => (c.value, [e])
      | .ok insertID =>
        if 0 < insertID then f.assign reversed autoIncrIncr insertID c.value
        else (c.value, [])
    else (c.value, [])

/-- The callback that `CreateAutoIncr` puts in the place of `gorm:create`. -/
def createAutoIncr (checkVersion : Text → Text → Bool) (d : Dialector) (autoIncrIncr : Int)
    (c : Creation α ε) : Created α × List ε :=
  match c.error with
  | some e => (c.value, [e])
  | none =>
    if c.dryRun then (c.value, [])
    else if c.hasReturning then c.scan c.value
    else match c.exec with
      | .error e => (c.value, [e])
      | .ok result => c.afterExec (d.lastInsertIDReversed checkVersion) autoIncrIncr result

/-! ## The ids in the database -/

/-- The ids of the rows of the models, from the `i`-th generated one on.  A model without an id
gets the next one. -/
def PrimaryField.stored (f : PrimaryField α ε) (a s : Int) : Nat → List α → List Int
  | _, [] => []
  | i, m :: ms =>
    if (f.valueOf m).2 then (a + i * s) :: f.stored a s (i + 1) ms
    else (f.valueOf m).1 :: f.stored a s i ms

/-- The number of ids that the database generates. -/
def PrimaryField.generated (f : PrimaryField α ε) (ms : List α) : Nat :=
  ms.countP fun m => (f.valueOf m).2

/-- The id that the database reports, if it generated one. -/
def PrimaryField.Reports (f : PrimaryField α ε) (reversed : Bool) (a s : Int) (ms : List α)
    (insertID : Int) : Prop :=
  0 < f.generated ms →
    insertID = if reversed then a + ((f.generated ms - 1 : Nat) : Int) * s else a

/-- A create call that inserts the rows of the models, of which the database reports an id. -/
structure Creation.Inserts (c : Creation α ε) (f : PrimaryField α ε) (ms : List α)
    (reversed : Bool) (a s : Int) : Prop where
  error : c.error = none
  dryRun : c.dryRun = false
  hasReturning : c.hasReturning = false
  field : c.field = some f
  hasDefaultValue : f.hasDefaultValue = true
  value : c.value = .slice (ms.map some)
  exec : ∃ insertID, c.exec = .ok ⟨ms.length, .ok insertID⟩ ∧ f.Reports reversed a s ms insertID

/-- The models with the generated ids, from the `i`-th one on. -/
def PrimaryField.filled (f : PrimaryField α ε) (a s : Int) : Nat → List α → List α
  | _, [] => []
  | i, m :: ms =>
    if (f.valueOf m).2 then (f.set m (a + i * s)).1 :: f.filled a s (i + 1) ms
    else m :: f.filled a s i ms

section

variable {f : PrimaryField α ε} {a s max : Int}

theorem wrapInt64_of_isId (hmax : max < 2 ^ 63) (h : IsId max n) : wrapInt64 n = n := by
  obtain ⟨hlow, hhigh⟩ := h
  rw [wrapInt64, Int.bmod_eq_of_le (by omega) (by omega)]

variable {m : α} {insertID step : Int} {elems' elems : List (Option α)} {ms : List α}

theorem generated_cons_zero (h : (f.valueOf m).2 = true) (ms : List α) :
    f.generated (m :: ms) = f.generated ms + 1 :=
  List.countP_cons_of_pos h

theorem generated_cons_explicit (h : (f.valueOf m).2 = false) (ms : List α) :
    f.generated (m :: ms) = f.generated ms :=
  List.countP_cons_of_neg (by simp [h])

theorem generated_append (ms ns : List α) :
    f.generated (ms ++ ns) = f.generated ms + f.generated ns :=
  List.countP_append

theorem filled_cons_zero (h : (f.valueOf m).2 = true) (i : Nat) (ms : List α) :
    f.filled a s i (m :: ms) = (f.set m (a + i * s)).1 :: f.filled a s (i + 1) ms :=
  if_pos h

theorem filled_cons_explicit (h : (f.valueOf m).2 = false) (i : Nat) (ms : List α) :
    f.filled a s i (m :: ms) = m :: f.filled a s i ms :=
  if_neg (by simp [h])

theorem filled_append (i : Nat) (ms ns : List α) :
    f.filled a s i (ms ++ ns) = f.filled a s i ms ++ f.filled a s (i + f.generated ms) ns := by
  induction ms generalizing i with
  | nil => rfl
  | cons m ms ih =>
    rw [List.cons_append]
    cases h : (f.valueOf m).2 with
    | true =>
      rw [filled_cons_zero h, filled_cons_zero h, generated_cons_zero h, ih, List.cons_append,
        Nat.add_right_comm, Nat.add_assoc]
    | false =>
      rw [filled_cons_explicit h, filled_cons_explicit h, generated_cons_explicit h, ih,
        List.cons_append]

/-- The filled models have the stored ids. -/
theorem filled_valueOf (hf : f.Lawful max) (i : Nat) (ms : List α)
    (hfit : ∀ j < i + f.generated ms, IsId max (a + j * s)) :
    (f.filled a s i ms).map (fun m => (f.valueOf m).1) = f.stored a s i ms := by
  induction ms generalizing i with
  | nil => rfl
  | cons m ms ih =>
    rw [PrimaryField.stored]
    cases h : (f.valueOf m).2 with
    | true =>
      rw [generated_cons_zero h] at hfit
      rw [filled_cons_zero h, List.map_cons, hf.set_valueOf m _ (hfit i (by omega)),
        ih (i + 1) fun j hj => hfit j (by omega)]
      rfl
    | false =>
      rw [generated_cons_explicit h] at hfit
      rw [filled_cons_explicit h, List.map_cons, ih i hfit]
      rfl

/-- A model with an id is left as it is. -/
theorem filled_explicit (i : Nat) (ms : List α) :
    List.Forall₂ (fun m m' => (f.valueOf m).2 = false → m' = m) ms (f.filled a s i ms) := by
  induction ms generalizing i with
  | nil => exact .nil
  | cons m ms ih =>
    cases h : (f.valueOf m).2 with
    | true =>
      rw [filled_cons_zero h]
      exact .cons (fun h' => absurd h (by simp [h'])) (ih (i + 1))
    | false =>
      rw [filled_cons_explicit h]
      exact .cons (fun _ => rfl) (ih i)

/-! ## The loops -/

theorem backfill_cons_zero (hf : f.Lawful max) (h : (f.valueOf m).2 = true) (hid : IsId max insertID)
    (hrest : f.backfill step elems (wrapInt64 (insertID + step)) = (elems', [])) :
    f.backfill step (some m :: elems) insertID = (some (f.set m insertID).1 :: elems', []) := by
  rw [PrimaryField.backfill, if_pos h, hrest, hf.set_error m _ hid]
  rfl

theorem backfill_cons_explicit (h : (f.valueOf m).2 = false)
    (hrest : f.backfill step elems insertID = (elems', [])) :
    f.backfill step (some m :: elems) insertID = (some m :: elems', []) := by
  rw [PrimaryField.backfill, if_neg (by simp [h]), hrest]

/-- Counting up, the id before a model is the next one that the database generated. -/
theorem backfill_forward (hf : f.Lawful max) (i : Nat) (ms : List α)
    (hid : 0 < f.generated ms → insertID = a + i * s)
    (hfit : ∀ j < i + f.generated ms, IsId max (a + j * s)) :
    f.backfill s (ms.map some) insertID = ((f.filled a s i ms).map some, []) := by
  induction ms generalizing i insertID with
  | nil => rfl
  | cons m ms ih =>
    cases h : (f.valueOf m).2 with
    | true =>
      rw [generated_cons_zero h] at hid hfit
      have hnow : insertID = a + i * s := hid (by omega)
      have hnext : 0 < f.generated ms → wrapInt64 (insertID + s) = a + (i + 1 : Nat) * s := by
        intro hpos
        have hadd : insertID + s = a + (i + 1 : Nat) * s := by
          rw [hnow]
          push_cast
          ring
        rw [hadd, wrapInt64_of_isId hf.max_lt (hfit (i + 1) (by omega))]
      rw [filled_cons_zero h, List.map_cons,
        backfill_cons_zero hf h (hnow ▸ hfit i (by omega)) (ih (i + 1) hnext fun j hj => hfit j (by omega)), hnow]
      rfl
    | false =>
      rw [generated_cons_explicit h] at hid hfit
      rw [filled_cons_explicit h, List.map_cons, backfill_cons_explicit h (ih i hid hfit)]
      rfl

/-- Counting down, the id before a model is the last one of the models up to it. -/
theorem backfill_backward (hf : f.Lawful max) (ms : List α)
    (hid : 0 < f.generated ms → insertID = a + ((f.generated ms - 1 : Nat) : Int) * s)
    (hfit : ∀ j < f.generated ms, IsId max (a + j * s)) :
    f.backfill (-s) (ms.map some).reverse insertID =
      (((f.filled a s 0 ms).map some).reverse, []) := by
  induction ms using List.reverseRecOn generalizing insertID with
  | nil => rfl
  | append_singleton ms m ih =>
    rw [generated_append] at hid hfit
    rw [List.map_append, List.reverse_append, filled_append, Nat.zero_add, List.map_append,
      List.reverse_append]
    cases h : (f.valueOf m).2 with
    | true =>
      rw [generated_cons_zero h] at hid hfit
      have hnow : insertID = a + (f.generated ms : Int) * s := hid (by omega)
      have hnext : 0 < f.generated ms →
          wrapInt64 (insertID + -s) = a + ((f.generated ms - 1 : Nat) : Int) * s := by
        intro hpos
        have hsub : insertID + -s = a + ((f.generated ms - 1 : Nat) : Int) * s := by
          rw [hnow, Nat.cast_sub hpos]
          push_cast
          ring
        rw [hsub, wrapInt64_of_isId hf.max_lt (hfit _ (by omega))]
      rw [filled_cons_zero h, ← hnow]
      exact backfill_cons_zero hf h (hnow ▸ hfit _ (by omega)) (ih hnext fun j hj => hfit j (by omega))
    | false =>
      rw [generated_cons_explicit h] at hid hfit
      rw [filled_cons_explicit h]
      exact backfill_cons_explicit h (ih hid hfit)

/-- Both loops fill the models without an id from the first id on. -/
theorem backfillFrom_eq (hf : f.Lawful max) (reversed : Bool) (ms : List α)
    (hid : f.Reports reversed a s ms insertID) (hfit : ∀ j < f.generated ms, IsId max (a + j * s)) :
    f.backfillFrom reversed s (ms.map some) insertID = ((f.filled a s 0 ms).map some, []) := by
  cases reversed with
  | false =>
    have hid' : 0 < f.generated ms → insertID = a + ((0 : Nat) : Int) * s := fun h => by
      simpa using hid h
    exact backfill_forward hf 0 ms hid' (by simpa using hfit)
  | true =>
    rw [PrimaryField.backfillFrom, if_pos rfl, backfill_backward hf ms hid hfit]
    simp

theorem filled_of_generated_eq_zero (h : f.generated ms = 0) (i : Nat) :
    f.filled a s i ms = ms := by
  induction ms with
  | nil => rfl
  | cons m ms ih =>
    cases hz : (f.valueOf m).2 with
    | true => rw [generated_cons_zero hz] at h; cases h
    | false => rw [filled_cons_explicit hz, ih (generated_cons_explicit hz ms ▸ h)]

theorem insertID_pos (h : f.Reports reversed a s ms insertID) (hs : 1 ≤ s)
    (ha : 0 < a) (hpos : 0 < f.generated ms) : 0 < insertID := by
  rw [h hpos]
  split
  · have hmul : 0 ≤ ((f.generated ms - 1 : Nat) : Int) * s :=
      Int.mul_nonneg (Int.natCast_nonneg _) (by omega)
    omega
  · exact ha

/-! ## The callback -/

/-- The callback leaves the filled models and no error. -/
theorem createAutoIncr_eq (hf : f.Lawful max) (hs : 1 ≤ s) (ha : 0 < a)
    (hfit : ∀ i < f.generated ms, IsId max (a + i * s))
    {d : Dialector} {c : Creation α ε}
    (hc : c.Inserts f ms (d.lastInsertIDReversed checkVersion) a s) :
    createAutoIncr checkVersion d s c = (.slice ((f.filled a s 0 ms).map some), []) := by
  obtain ⟨insertID, hexec, hid⟩ := hc.exec
  rw [createAutoIncr, hc.error, hc.dryRun, hc.hasReturning, hexec]
  simp only [Bool.false_eq_true, if_false, Creation.afterExec, hc.field, hc.value,
    hc.hasDefaultValue, and_true, PrimaryField.assign, backfillFrom_eq hf _ ms hid hfit]
  split
  · split
    · rfl
    · next h =>
      -- a report that is not positive: no id was generated
      have hzero : f.generated ms = 0 :=
        Nat.eq_zero_of_not_pos fun hpos => h (insertID_pos hid hs ha hpos)
      rw [filled_of_generated_eq_zero hzero]
  · next h =>
    have hnil : ms = [] := List.eq_nil_of_length_eq_zero (by simpa using h)
    rw [hnil]
    rfl

/-- After the callback every model has the id of its row, those that came with an id are
unchanged, and counting down gives the same models as counting up. -/
theorem backfill_assigns_stored (hf : f.Lawful max) (ms : List α) (hs : 1 ≤ s) (ha : 0 < a)
    (hfit : ∀ i < f.generated ms, a + i * s ≤ max) (checkVersion : Text → Text → Bool)
    {up down : Dialector} (hup : up.lastInsertIDReversed checkVersion = false)
    (hdown : down.lastInsertIDReversed checkVersion = true) {c c' : Creation α ε}
    (hc : c.Inserts f ms false a s) (hc' : c'.Inserts f ms true a s) :
    ∃ ms', createAutoIncr checkVersion up s c = (.slice (ms'.map some), []) ∧
      createAutoIncr checkVersion down s c' = (.slice (ms'.map some), []) ∧
      ms'.map (fun m => (f.valueOf m).1) = f.stored a s 0 ms ∧
      List.Forall₂ (fun m m' => (f.valueOf m).2 = false → m' = m) ms ms' := by
  have hids : ∀ i < f.generated ms, IsId max (a + i * s) := by
    intro i hi
    have hmul : 0 ≤ (i : Int) * s := Int.mul_nonneg (Int.natCast_nonneg _) (by omega)
    exact ⟨by omega, hfit i hi⟩
  exact ⟨f.filled a s 0 ms, createAutoIncr_eq hf hs ha hids (hup ▸ hc),
    createAutoIncr_eq hf hs ha hids (hdown ▸ hc'), filled_valueOf hf 0 ms (by simpa using hids),
    filled_explicit 0 ms⟩

end

/-- Models that are nothing but their id, a `uint64`. -/
def idField : PrimaryField UInt64 Empty where
  hasDefaultValue := true
  valueOf m := (m.toNat, m = 0)
  set _ id := (UInt64.ofNat id.toNat, none)

theorem idField_lawful : idField.Lawful (2 ^ 63 - 1) where
  max_lt := by decide
  isZero_iff m := by
    rw [idField, decide_eq_true_iff, Int.natCast_eq_zero, ← UInt64.toNat_inj]
    rfl
  set_valueOf m id hid := by
    obtain ⟨hlow, hhigh⟩ := hid
    have hlt : id.toNat < 2 ^ 64 := by omega
    simp only [idField, UInt64.toNat_ofNat_of_lt' hlt]
    omega
  set_error _ _ _ := rfl

/-- The creation of rows for two models without an id, and one with the id 7 between them. -/
def threeRows (insertID : Int) : Creation UInt64 Empty where
  error := none
  dryRun := false
  hasReturning := false
  scan v := (v, [])
  field := some idField
  value := .slice [some 0, some 7, some 0]
  exec := .ok ⟨3, .ok insertID⟩

def mariaDB : Dialector := ⟨false, "10.6-MariaDB".toList, false⟩

/-- The ids 5 and 15 of two rows around an explicit one, with the step 10. -/
theorem three_rows_backfilled :
    ∃ ms' : List UInt64,
      createAutoIncr (fun _ _ => true) ⟨true, [], false⟩ 10 (threeRows 5) =
        (.slice (ms'.map some), []) ∧
      createAutoIncr (fun _ _ => true) mariaDB 10 (threeRows 15) = (.slice (ms'.map some), []) ∧
      ms'.map (fun m => (m.toNat : Int)) = [5, 7, 15] := by
  have hfit : ∀ i < idField.generated [0, 7, 0], 5 + (i : Int) * 10 ≤ 2 ^ 63 - 1 := by
    intro i hi
    have hi : i < 2 := hi
    omega
  have hup : Dialector.lastInsertIDReversed (fun _ _ => true) ⟨true, [], false⟩ = false := rfl
  have hdown : Dialector.lastInsertIDReversed (fun _ _ => true) mariaDB = true := by
    have hin : "MariaDB".toList <:+: mariaDB.serverVersion := ⟨"10.6-".toList, [], rfl⟩
    rw [Dialector.lastInsertIDReversed, decide_eq_true hin]
    rfl
  have hfirst : (threeRows 5).Inserts idField [0, 7, 0] false 5 10 :=
    ⟨rfl, rfl, rfl, rfl, rfl, rfl, 5, rfl, fun _ => rfl⟩
  have hlast : (threeRows 15).Inserts idField [0, 7, 0] true 5 10 :=
    ⟨rfl, rfl, rfl, rfl, rfl, rfl, 15, rfl, fun _ => rfl⟩
  obtain ⟨ms', h, h', hids, -⟩ := backfill_assigns_stored idField_lawful [0, 7, 0] (by decide) (by decide)
    hfit (fun _ _ => true) hup hdown hfirst hlast
  exact ⟨ms', h, h', hids⟩

end Gofusion.Db
