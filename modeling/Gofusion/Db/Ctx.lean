import Gofusion.Utils.Context

/-!
# The database of a context

`db/ctx.go` and the choice of a database in `db/dal.go`.  A call inside a transaction finds it in
its context, under the name of the database.

`GetCtxGormDBByName` overwrites its result at every node it visits.  The result is the innermost
database of the chain, if it has the name, and else the innermost one of the chain without its
first node, whatever its name is.
-/

namespace Gofusion.Db

open Gofusion.Utils

/-! ## Definitions -/

/-- A `*DB` that is not `nil`: a connection or a transaction and the name it has. -/
structure DB where
  conn : Nat
  name : Text
deriving DecidableEq, Repr

/-- `mysqlDALOption`. -/
structure DalOption where
  useWriteDB : Bool
deriving DecidableEq, Repr

/-- The keys of `context/consts.go` that the database packages read, and all others. -/
inductive CtxKey
  | gormDB
  | dalOption
  | other (key : Text)
deriving DecidableEq, Repr

/-- The values stored under a key.  Both pointers can be `nil`. -/
abbrev CtxKey.val : CtxKey → Type
  | .gormDB => Option DB
  | .dalOption => Option DalOption
  | .other _ => Unit

abbrev Context := Ctx CtxKey.val

def getCtxGormDB (c : Context) : Option DB := getCtxAny c CtxKey.gormDB none

def setCtxGormDB (c : Context) (db : Option DB) : Context := setCtxAny c CtxKey.gormDB db

/-- The function that both lookups hand to `TravelCtx`. -/
def visitGormDB (p : Text → Bool) (c : Context) (_ : Option DB) : Option DB × Bool :=
  (getCtxGormDB c, (getCtxGormDB c).any (p ·.name))

def getCtxGormDBWith (p : Text → Bool) (c : Context) : Option DB :=
  travelCtx (visitGormDB p) c none

def getCtxGormDBByName (c : Context) (name : Text) : Option DB :=
  getCtxGormDBWith (· == name) c

def getCtxGormDBByNameList (c : Context) (nameList : List Text) : Option DB :=
  getCtxGormDBWith (nameList.contains ·) c

/-- `Use`: a configured instance under its name, and a panic (`none`) for any other
name.  `instances` are those of the app. -/
def use (instances : Text → Option Nat) (name : Text) : Option DB :=
  (instances name).map fun conn => ⟨conn, name⟩

structure Dal where
  readDBName : Text
  writeDBName : Text

def Dal.dbName (d : Dal) (c : Context) : Text :=
  match getCtxAny c CtxKey.dalOption none with
  | some ⟨true⟩ => d.writeDBName
  | _ => d.readDBName

/-- The database of a context, or else the instance of that name. -/
def dbOrUse (instances : Text → Option Nat) (c : Context) (name : Text) : Option DB :=
  (getCtxGormDBByName c name).or (use instances name)

/-- `ReadDB`: the database that its statements run on. -/
def Dal.readDB (d : Dal) (instances : Text → Option Nat) (c : Context) : Option DB :=
  dbOrUse instances c (d.dbName c)

def Dal.writeDB (d : Dal) (instances : Text → Option Nat) (c : Context) : Option DB :=
  dbOrUse instances c d.writeDBName

/-! ## Selection by name -/

/-- The pointers stored in a chain, from the innermost. -/
def stored (c : Context) : List (Option DB) := Ctx.values CtxKey.gormDB c

/-- The innermost pointer of a chain, `none` also for a stored `nil`. -/
def innermost (c : Context) : Option DB := (stored c).head?.join

/-- What selection by name is meant to return: the innermost database of the chain
whose name is accepted. -/
def innermostWith (p : Text → Bool) (c : Context) : Option DB :=
  ((stored c).filterMap id).find? (p ·.name)

/-- The innermost database of the chain is accepted. -/
def Found (p : Text → Bool) (c : Context) : Prop := ∃ db, innermost c = some db ∧ p db.name = true

/-- No database of the chain is accepted, and its innermost pointer is `nil`. -/
def Absent (p : Text → Bool) (c : Context) : Prop :=
  innermost c = none ∧ ∀ db, some db ∈ stored c → p db.name = false

/-- The lookup at one node climbs the whole chain. -/
theorem getCtxGormDB_eq (c : Context) : getCtxGormDB c = innermost c := by
  unfold getCtxGormDB getCtxAny innermost stored
  rw [Ctx.value_eq_head?]
  cases (Ctx.values CtxKey.gormDB c).head? <;> rfl

variable {instances : Text → Option Nat} {p : Text → Bool} {c : Context}

theorem Found.innermostWith_eq (h : Found p c) : innermostWith p c = innermost c := by
  obtain ⟨db, hdb, hp⟩ := h
  unfold innermost at hdb
  unfold innermostWith innermost
  cases hs : stored c with
  | nil => simp [hs] at hdb
  | cons d ds =>
    rw [hs] at hdb
    obtain rfl : d = some db := by simpa using hdb
    simp [hp]

theorem innermostWith_some {db : DB} (h : innermostWith p c = some db) : p db.name = true := by
  simpa using List.find?_some (p := fun d : DB => p d.name) h

theorem innermostWith_none :
    innermostWith p c = none ↔ ∀ db, some db ∈ stored c → p db.name = false := by
  unfold innermostWith
  rw [List.find?_eq_none]
  simp

/-- The innermost pointer is the right answer exactly when it is accepted, or when it
is `nil` and there is nothing to find. -/
theorem innermost_eq_innermostWith (p : Text → Bool) (c : Context) :
    innermost c = innermostWith p c ↔ Found p c ∨ Absent p c := by
  constructor
  · intro h
    cases hdb : innermost c with
    | none => exact .inr ⟨hdb, innermostWith_none.mp (h ▸ hdb)⟩
    | some db => exact .inl ⟨db, hdb, innermostWith_some (h ▸ hdb)⟩
  · rintro (h | ⟨h, hall⟩)
    · exact h.innermostWith_eq.symm
    · rw [h, innermostWith_none.mpr hall]

/-- A first node that is not accepted does not change the answer. -/
theorem innermostWith_tail (h : ¬Found p (e :: c)) :
    innermostWith p (e :: c) = innermostWith p c := by
  cases e with
  | cancel => rfl
  | value k v =>
    cases k with
    | dalOption => rfl
    | other _ => rfl
    | gormDB =>
      cases v with
      | none => rfl
      | some db =>
        have hp : p db.name = false := by
          simpa using mt (fun hp => (⟨db, rfl, hp⟩ : Found p _)) h
        simp [innermostWith, stored, Ctx.values, hp]

/-- What the traversal returns in the two cases. -/
theorem getCtxGormDBWith_eq (p : Text → Bool) (c : Context) :
    (Found p c → getCtxGormDBWith p c = innermost c) ∧
      (¬Found p c → getCtxGormDBWith p c = innermost c.tail) := by
  have hany : (innermost c).any (p ·.name) = true ↔ Found p c := by
    simp [Option.any_eq_true, Found]
  constructor
  · intro h
    simp [getCtxGormDBWith, travelCtx, visitGormDB, getCtxGormDB_eq, hany.mpr h]
  · intro h
    have hf : (innermost c).any (p ·.name) = false := by simpa using mt hany.mp h
    cases c with
    | nil => simp [getCtxGormDBWith, travelCtx, visitGormDB, getCtxGormDB_eq, hf]
    | cons e c =>
      simp [getCtxGormDBWith, travelCtx, travelField, visitGormDB, getCtxGormDB_eq, hf]

theorem getCtxGormDBWith_correct (p : Text → Bool) (c : Context) :
    getCtxGormDBWith p c = innermostWith p c ↔ Found p c ∨ Found p c.tail ∨ Absent p c.tail := by
  by_cases h : Found p c
  · rw [(getCtxGormDBWith_eq p c).1 h, h.innermostWith_eq]
    exact iff_of_true rfl (.inl h)
  · have htail : innermostWith p c = innermostWith p c.tail := by
      cases c with
      | nil => rfl
      | cons e c => exact innermostWith_tail h
    rw [(getCtxGormDBWith_eq p c).2 h, htail, innermost_eq_innermostWith]
    exact (or_iff_right h).symm

theorem use_name {db : DB} (h : use instances name = some db) : db.name = name := by
  obtain ⟨conn, -, rfl⟩ := Option.map_eq_some_iff.mp h
  rfl

/-- The condition under which no database of another name is used. -/
def NameSafe (name : Text) (c : Context) : Prop :=
  Found (· == name) c ∨ Found (· == name) c.tail ∨ innermost c.tail = none

/-- The database has the name exactly if the chain is safe for it. -/
theorem dbOrUse_name_iff (instances : Text → Option Nat) (c : Context) (name : Text) :
    (∀ db, dbOrUse instances c name = some db → db.name = name) ↔ NameSafe name c := by
  unfold dbOrUse getCtxGormDBByName NameSafe
  by_cases h : Found (· == name) c
  · refine iff_of_true ?_ (.inl h)
    rw [(getCtxGormDBWith_eq _ c).1 h]
    obtain ⟨db, hdb, hn⟩ := h
    simpa [hdb] using hn
  · rw [(getCtxGormDBWith_eq _ c).2 h, or_iff_right h]
    cases hdb : innermost c.tail with
    | none =>
      simp only [Option.none_or, or_true, iff_true]
      exact fun db => use_name
    | some db => simp [Found, hdb]

/-! ## Results -/

/-- Both lookups return what they are meant to, and a `dal` uses no database of
another name, exactly on these chains. -/
theorem selection_by_name_iff (d : Dal) (instances : Text → Option Nat) (c : Context) :
    (∀ name, getCtxGormDBByName c name = innermostWith (· == name) c ↔
      Found (· == name) c ∨ Found (· == name) c.tail ∨ Absent (· == name) c.tail) ∧
    (∀ names : List Text, getCtxGormDBByNameList c names = innermostWith (names.contains ·) c ↔
      Found (names.contains ·) c ∨ Found (names.contains ·) c.tail ∨
        Absent (names.contains ·) c.tail) ∧
    ((∀ db, d.readDB instances c = some db → db.name = d.dbName c) ↔ NameSafe (d.dbName c) c) ∧
    ((∀ db, d.writeDB instances c = some db → db.name = d.writeDBName) ↔
      NameSafe d.writeDBName c) :=
  ⟨fun _ => getCtxGormDBWith_correct _ c, fun _ => getCtxGormDBWith_correct _ c,
    dbOrUse_name_iff instances c _, dbOrUse_name_iff instances c _⟩

/-- Behind two databases `b` and `a` in a chain, `c` is looked up and `a` is found, so
a `dal` of `c` runs on `a`. -/
theorem other_name_selected :
    let c := setCtxGormDB (setCtxGormDB [] (some ⟨1, ['a']⟩)) (some ⟨2, ['b']⟩)
    getCtxGormDBByName c ['c'] = some ⟨1, ['a']⟩ ∧
      innermostWith (· == ['c']) c = none ∧
      getCtxGormDBByNameList c [['c']] = some ⟨1, ['a']⟩ ∧
      Dal.writeDB ⟨['c'], ['c']⟩ (fun _ => some 3) c = some ⟨1, ['a']⟩ := by
  decide

end Gofusion.Db
