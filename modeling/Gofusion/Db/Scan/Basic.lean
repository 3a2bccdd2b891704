import Gofusion.Db.Column
import Gofusion.Lib.Loops

/-!
# Scan

`Scan` of `db/candy.go` reads a table in batches.  Each round asks for the rows behind the cursors,
gives them to the callback, and reads the next cursors from the columns of the last row.  The
cursors are written into the slice that `ScanCursor` was called with, so `leaveCursors` says what
the options are after a run.

The database is a parameter, it answers a `Query`.  Logging is left out.
-/

namespace Gofusion.Db

open Gofusion.Lib

variable {V C D ε : Type}

/-! ## Options -/

/-- A condition or an order, as gorm takes it: a text, or something else. -/
inductive Clause (C : Type)
  | text (t : Text)
  | other (c : C)
deriving DecidableEq, Repr

/-- The options of `Scan`.  A slice or a condition that is nil is `none`. -/
inductive ScanOpt (V C D : Type)
  | dal (dal : Option D)
  | use (dbName : Text)
  | appName (name : Text)
  | condition (condition : Option (Clause C)) (sqlAndArguments : List V)
  | cursor (cursorWhere : Option (Clause C)) (cursorColumns : List Text)
    (cursors : Option (List V))
  | order (order : Option (Clause C))
  | batch (batch : Int)
  | limit (limit : Int)
  /-- `ScanLog`, or an option of another function. -/
  | other

/-- `scanOption`, with the fields of `scanOptionGeneric` and `useOption`. -/
structure ScanOption (V C D : Type) where
  dal : Option D := none
  dbName : Text := []
  appName : Text := []
  cursors : Option (List V) := none
  cursorWhere : Option (Clause C) := none
  cursorColumns : List Text := []
  condition : Option (Clause C) := none
  sqlAndArguments : List V := []
  order : Option (Clause C) := none
  batch : Int := 0
  limit : Int := 0

def ScanOption.apply (o : ScanOption V C D) : ScanOpt V C D → ScanOption V C D
  | .dal dal => { o with dal }
  | .use dbName => { o with dbName }
  | .appName appName => { o with appName }
  | .condition condition sqlAndArguments => { o with condition, sqlAndArguments }
  | .cursor cursorWhere cursorColumns cursors =>
    { o with cursors, cursorWhere, cursorColumns }
  | .order order => { o with order }
  | .batch batch => { o with batch }
  | .limit limit => { o with limit }
  | .other => o

def applyOptions (opts : List (ScanOpt V C D)) : ScanOption V C D :=
  opts.foldl ScanOption.apply {}

/-- Where the rows come from. -/
inductive Handle (D : Type)
  | dal (dal : D)
  | use (dbName appName : Text)

/-- The database instance, `none` for the panic `unknown which table to scan`. -/
def ScanOption.handle (o : ScanOption V C D) : Option (Handle D) :=
  match o.dal with
  | some dal => some (.dal dal)
  | none => if o.dbName ≠ [] then some (.use o.dbName o.appName) else none

/-! ## Settings -/

/-- `math.MaxInt`. -/
def maxInt : Int := 2 ^ 63 - 1

/-- The options with the default values filled in. -/
structure ScanSettings (V C : Type) where
  cursors : List V
  cursorWhere : Clause C
  cursorColumns : List Text
  condition : Option (Clause C)
  sqlAndArguments : List V
  order : Clause C
  batch : Int
  limit : Int

/-- The default values. -/
def ScanOption.settings [Zero V] (o : ScanOption V C D) : ScanSettings V C :=
  let cursorColumns := if o.cursorColumns = [] then ["id".toList] else o.cursorColumns
  { cursors := o.cursors.getD [0]
    cursorWhere := o.cursorWhere.getD (.text "id > ?".toList)
    cursorColumns
    condition := o.condition
    sqlAndArguments := o.sqlAndArguments
    order := o.order.getD (.text (List.intercalate [','] cursorColumns ++ " ASC".toList))
    batch := if o.batch = 0 then 100 else o.batch
    limit := if o.limit = 0 then maxInt else o.limit }

structure Query (V C : Type) where
  cursorWhere : Clause C
  cursors : List V
  /-- The filter with its arguments. -/
  condition : Option (Clause C × List V)
  order : Clause C
  limit : Int

def ScanSettings.query (o : ScanSettings V C) (cursors : List V) : Query V C where
  cursorWhere := o.cursorWhere
  cursors := cursors
  condition := o.condition.map (·, o.sqlAndArguments)
  order := o.order
  limit := o.batch

/-! ## The loop -/

inductive ScanEnd (ε : Type)
  | finished
  /-- The error of a query. -/
  | failed (e : ε)
  /-- `scan cursor column value is not found`. -/
  | columnNotFound (col : Text)
  | panic
deriving DecidableEq, Repr

structure ScanState (V : Type) where
  cursors : List V
  count : Int
  /-- The batches that the callback has been given. -/
  batches : List (List (Reflected V))

structure ScanRun (V ε : Type) where
  outcome : ScanEnd ε
  batches : List (List (Reflected V))
  /-- What is in the slice of the cursors at the end. -/
  cursors : List V

/-- The next cursors, column by column, and how the scan ends if that fails. -/
def nextCursors (row : Reflected V) : List Text → Nat → List V → List V × Option (ScanEnd ε)
  | [], _, cursors => (cursors, none)
  | col :: cols, idx, cursors =>
    match row.column col with
    | none => (cursors, some (.columnNotFound col))
    | some v =>
      if idx < cursors.length then nextCursors row cols (idx + 1) (cursors.set idx v)
      else (cursors, some .panic)

/-- The callback: whether it wants to go on, after the batches before. -/
abbrev ScanCallback (V : Type) := List (List (Reflected V)) → List (Reflected V) → Bool

/-- The part of a round for the rows of a batch. -/
def ScanSettings.deliver (o : ScanSettings V C) (cb : ScanCallback V) (s : ScanState V)
    (mList : List (Reflected V)) : Round (ScanState V) (ScanRun V ε) :=
  match mList.getLast? with
  | none => .next s
  | some row =>
    let batches := s.batches ++ [mList]
    if cb s.batches mList then
      match nextCursors row o.cursorColumns 0 s.cursors with
      | (cursors, none) => .next { s with cursors, batches }
      | (cursors, some outcome) => .done ⟨outcome, batches, cursors⟩
    else .done ⟨.finished, batches, s.cursors⟩

/-- The end of a round: the limit, and whether there is more. -/
def ScanSettings.proceed (o : ScanSettings V C) (s : ScanState V) (delivered : Nat) :
    Round (ScanState V) (ScanRun V ε) :=
  if s.count + delivered ≥ o.limit then .done ⟨.finished, s.batches, s.cursors⟩
  else if delivered ≥ o.batch then .next { s with count := s.count + delivered }
  else .done ⟨.finished, s.batches, s.cursors⟩

/-- A round of the loop.  `make` panics on a negative capacity. -/
def ScanSettings.round (o : ScanSettings V C) (find : Query V C → Except ε (List (Reflected V)))
    (cb : ScanCallback V) (s : ScanState V) : Round (ScanState V) (ScanRun V ε) :=
  if o.batch < 0 then .done ⟨.panic, s.batches, s.cursors⟩
  else match find (o.query s.cursors) with
    | .error e => .done ⟨.failed e, s.batches, s.cursors⟩
    | .ok mList =>
      match o.deliver cb s mList with
      | .done run => .done run
      | .next s' => o.proceed s' mList.length

def ScanSettings.start (o : ScanSettings V C) : ScanState V := ⟨o.cursors, 0, []⟩

/-- `Scan` ends with a run. -/
def Scans [Zero V] (db : Handle D → Query V C → Except ε (List (Reflected V)))
    (cb : ScanCallback V) (opts : List (ScanOpt V C D)) (run : ScanRun V ε) : Prop :=
  let o := applyOptions opts
  match o.handle with
  | none => run = ⟨.panic, [], o.settings.cursors⟩
  | some h => Ends (o.settings.round (db h) cb) o.settings.start run

/-! ## The options after a run -/

def ScanOpt.isCursor : ScanOpt V C D → Bool
  | .cursor .. => true
  | _ => false

/-- The option with other values in its slice of cursors. -/
def ScanOpt.leave (cursors : List V) : ScanOpt V C D → ScanOpt V C D
  | .cursor cursorWhere cursorColumns (some _) => .cursor cursorWhere cursorColumns (some cursors)
  | opt => opt

/-- The options with what a run has left in the slice of the last `ScanCursor`. -/
def leaveCursors (cursors : List V) : List (ScanOpt V C D) → List (ScanOpt V C D)
  | [] => []
  | opt :: opts =>
    if opts.any ScanOpt.isCursor then opt :: leaveCursors cursors opts
    else opt.leave cursors :: opts

end Gofusion.Db
