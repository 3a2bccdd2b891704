import Gofusion.Db.Scan.Pages
import Mathlib.Algebra.Order.Ring.Int

/-!
# What a scan enumerates

A scan without a limit, with a callback that always wants to go on, delivers all rows of the filter
in the order of the cursor column exactly if it can read the cursors back: the value found in the
last row of each batch is behind that row and before the next one.
-/

namespace Gofusion.Db

open Gofusion.Lib

variable {V C D ε : Type}

variable {row : Reflected V}

theorem read_length {o : ScanSettings V C} {cursors : List V} (h : o.read row = some cursors) :
    cursors.length = o.cursorColumns.length := by
  have : ∀ {cols : List Text} {vs : List V}, cols.mapM row.column = some vs →
      vs.length = cols.length := by
    intro cols
    induction cols with
    | nil => intro vs h; rw [List.mapM_nil] at h; cases h; rfl
    | cons col cols ih =>
      intro vs h
      obtain ⟨v, vs', -, hvs, rfl⟩ := mapM_column_cons.mp h
      rw [List.length_cons, List.length_cons, ih hvs]
  exact this h

/-- The scan from a state on delivers these rows and ends without an error. -/
def Delivers (find : Query V C → Except ε (List (Reflected V))) (cb : ScanCallback V)
    (o : ScanSettings V C) (s : ScanState V) (rows : List (Reflected V)) : Prop :=
  ∃ run, Ends (o.round find cb) s run ∧ run.outcome = .finished ∧
    run.batches.flatten = s.batches.flatten ++ rows

section

variable {find : Query V C → Except ε (List (Reflected V))} {cb : ScanCallback V}
  {o : ScanSettings V C} {K : Keyset (List V) (Reflected V)} {b : Nat}
  (ha : Answers find o K) (hbatch : o.batch = b) (hb : 0 < b)
  (hwide : o.cursors.length = o.cursorColumns.length) (hcb : ∀ bs batch, cb bs batch = true)
include ha hbatch hb hwide hcb

variable {s : ScanState V} {p : Nat}

omit hwide hcb in
/-- A scan can only go on at the right place if it is to deliver what comes next. -/
theorem after_of_delivers (hlen : s.cursors.length = o.cursors.length)
    (h : Delivers find cb o s (K.rows.drop p)) : K.after s.cursors = K.rows.drop p := by
  obtain ⟨run, hend, -, hrun⟩ := h
  rcases batches_of_ends ha hbatch hlen rfl hb hend with ⟨hnil, hbatches⟩ | ⟨hne, rest, hrest⟩
  · rw [hbatches] at hrun
    rw [hnil, List.self_eq_append_right.mp hrun]
  · obtain ⟨r, l, hcons⟩ := List.exists_cons_of_ne_nil hne
    have hhead : (K.rows.drop p).head? = some r := by
      rw [← hrest, List.flatten_append, List.flatten_append, List.append_assoc] at hrun
      rw [← List.append_cancel_left hrun, hcons]
      obtain ⟨n, rfl⟩ : ∃ n, b = n + 1 := ⟨b - 1, by omega⟩
      rfl
    exact K.after_eq_of_head (K.suffix_drop p) (by rw [hcons]; rfl) hhead

omit hb in
theorem not_delivers_of_unread (hlen : s.cursors.length = o.cursors.length)
    (hs : K.after s.cursors = K.rows.drop p) (hrow : ((K.rows.drop p).take b).getLast? = some row)
    (hread : o.read row = none) : ¬Delivers find cb o s (K.rows.drop p) := by
  obtain ⟨col, cursors, hround⟩ := round_unread ha hbatch hlen hs (hcb _ _) hrow hread hwide
  rintro ⟨run, hend, hout, -⟩
  rw [(ends_done_iff hround).mp hend] at hout
  cases hout

/-- From the start of a page on: the rest of the rows is delivered if and only if the cursors can
be read back where the pages end. -/
theorem delivers_iff (hp : b ∣ p) (hlen : s.cursors.length = o.cursors.length)
    (hs : K.after s.cursors = K.rows.drop p)
    (hlimit : s.count + (K.rows.length - p : Nat) < o.limit) :
    Delivers find cb o s (K.rows.drop p) ↔ K.SeparatesFrom o.read b p := by
  induction hn : K.rows.length - p using Nat.strongRecOn generalizing p s with
  | ind n ih =>
  by_cases hnil : K.rows.length ≤ p
  · have hdrop : K.rows.drop p = [] := List.drop_of_length_le hnil
    refine iff_of_true ⟨_, .done (round_empty ha hbatch hlen hs hdrop hb), rfl, ?_⟩
      (Keyset.separatesFrom_of_length_le hnil)
    rw [hdrop, List.append_nil]
  · have hlt : p < K.rows.length := by omega
    have hne : K.rows.drop p ≠ [] := by simpa using hlt
    obtain ⟨row, hrow⟩ := getLast?_take_ne_none hb hne
    by_cases hfull : p + b ≤ K.rows.length
    · rw [Keyset.separatesFrom_full hp hb hfull hrow]
      cases hread : o.read row with
      | none =>
        exact iff_of_false (not_delivers_of_unread ha hbatch hwide hcb hlen hs hrow hread) (by simp)
      | some cursors =>
        have hround := round_next ha hbatch hlen hs (hcb _ _) hrow hread hwide
          (by rw [List.length_drop]; omega) (by omega)
        have hsplit : s.batches.flatten ++ K.rows.drop p =
            (s.batches ++ [(K.rows.drop p).take b]).flatten ++ K.rows.drop (p + b) := by
          rw [List.flatten_append, List.flatten_singleton, List.append_assoc, ← List.drop_drop,
            List.take_append_drop]
        have hnext : Delivers find cb o s (K.rows.drop p) ↔
            Delivers find cb o ⟨cursors, s.count + b, s.batches ++ [(K.rows.drop p).take b]⟩
              (K.rows.drop (p + b)) := by
          simp only [Delivers, ends_next_iff hround, hsplit]
        have hlen' : cursors.length = o.cursors.length := (read_length hread).trans hwide.symm
        have hp' : b ∣ p + b := (Nat.dvd_add_right hp).mpr (Nat.dvd_refl b)
        rw [hnext]
        constructor
        · intro h
          have hafter := after_of_delivers ha hbatch hb hlen' h
          exact ⟨⟨cursors, rfl, hafter⟩, (ih _ (by omega) hp' hlen' hafter
            (by simp only; omega) rfl).mp h⟩
        · rintro ⟨⟨k, hk, hafter⟩, h⟩
          cases hk
          exact (ih _ (by omega) hp' hlen' hafter (by simp only; omega) rfl).mpr h
    · rw [Keyset.separatesFrom_short hp hlt (by omega) hrow]
      cases hread : o.read row with
      | none =>
        exact iff_of_false (not_delivers_of_unread ha hbatch hwide hcb hlen hs hrow hread) (by simp)
      | some cursors =>
        have hshort : (K.rows.drop p).length < b := by rw [List.length_drop]; omega
        have hround := round_last ha hbatch hlen hs (hcb _ _) hrow hread hwide (.inl hshort)
        refine iff_of_true ⟨_, .done hround, rfl, ?_⟩ ⟨cursors, rfl⟩
        rw [List.flatten_append, List.flatten_singleton, List.take_of_length_le (Nat.le_of_lt hshort)]

end

/-! ## Tables -/

structure Table (V C : Type) where
  rows : List (Reflected V)
  /-- The value of a column. -/
  column : Text → Reflected V → V
  /-- The rows of a filter. -/
  selects : Option (Clause C × List V) → Reflected V → Bool

/-- The rows of a filter in the order of a column. -/
def Table.select [LinearOrder V] (t : Table V C) (col : Text)
    (condition : Option (Clause C × List V)) : List (Reflected V) :=
  ordered (t.column col) (t.rows.filter (t.selects condition))

/-- The answers to queries with a cursor condition `col > ?` and the order `col ASC`. -/
def Table.Serves [LinearOrder V] (t : Table V C)
    (find : Query V C → Except ε (List (Reflected V))) : Prop :=
  ∀ col v q, q.cursorWhere = .text (col ++ " > ?".toList) → q.cursors = [v] →
    q.order = .text (col ++ " ASC".toList) →
    find q = .ok (((t.select col q.condition).filter fun r => v < t.column col r).take q.limit.toNat)

/-- A scan of all rows of a table by a column, from a start on. -/
structure ScansColumn [LinearOrder V] [Zero V] (t : Table V C)
    (db : Handle D → Query V C → Except ε (List (Reflected V))) (opts : List (ScanOpt V C D))
    (col : Text) (start : V) : Prop where
  served : ∃ h, (applyOptions opts).handle = some h ∧ t.Serves (db h)
  columns : (applyOptions opts).settings.cursorColumns = [col]
  condition : (applyOptions opts).settings.cursorWhere = .text (col ++ " > ?".toList)
  order : (applyOptions opts).settings.order = .text (col ++ " ASC".toList)
  cursors : (applyOptions opts).settings.cursors = [start]
  batch : 1 ≤ (applyOptions opts).settings.batch
  distinct : t.rows.Pairwise fun r r' => t.column col r ≠ t.column col r'
  greater : ∀ r ∈ t.rows, start < t.column col r

def filterOf [Zero V] (opts : List (ScanOpt V C D)) : Option (Clause C × List V) :=
  ((applyOptions opts).settings.query []).condition

def batchOf [Zero V] (opts : List (ScanOpt V C D)) : Nat :=
  (applyOptions opts).settings.batch.toNat

/-- The last row of every batch has a value for the column.  When the batch is full, the value is
in the same place among the rows as the value in the database. -/
def ReadsBack [LinearOrder V] (rows : List (Reflected V)) (col : Text) (key : Reflected V → V)
    (b : Nat) : Prop :=
  ∀ i r, rows[i]? = some r → b ∣ i + 1 ∨ i + 1 = rows.length →
    ∃ v, r.column col = some v ∧ (b ∣ i + 1 → ∀ r' ∈ rows, v < key r' ↔ key r < key r')

theorem readsBack_of_column [LinearOrder V] {rows : List (Reflected V)} {col : Text}
    {key : Reflected V → V} {b : Nat} (h : ∀ r ∈ rows, r.column col = some (key r)) :
    ReadsBack rows col key b := fun _ r hr _ =>
  ⟨key r, h r (List.mem_of_getElem? hr), fun _ _ _ => Iff.rfl⟩

section

variable [LinearOrder V] [Zero V] {t : Table V C}
  {db : Handle D → Query V C → Except ε (List (Reflected V))} {opts : List (ScanOpt V C D)}
  {col : Text} {start : V} (h : ScansColumn t db opts col start)

def ScansColumn.keyset : Keyset (List V) (Reflected V) :=
  .ofOrder (t.column col) (t.rows.filter (t.selects (filterOf opts))) (h.distinct.filter _)

include h

theorem ScansColumn.batch_eq : (applyOptions opts).settings.batch = batchOf opts := by
  have := h.batch
  rw [batchOf]
  omega

theorem ScansColumn.answers (hserve : t.Serves (db hd)) :
    Answers (db hd) (applyOptions opts).settings h.keyset := by
  intro cursors hlen
  rw [h.cursors] at hlen
  obtain ⟨v, rfl⟩ := List.length_eq_one_iff.mp hlen
  exact hserve col v _ h.condition rfl h.order

theorem ScansColumn.read_eq (r : Reflected V) :
    (applyOptions opts).settings.read r = (r.column col).map ([·]) := by
  rw [ScanSettings.read, h.columns, List.mapM_cons, List.mapM_nil]
  cases r.column col with
  | none => rfl
  | some v => rfl

theorem ScansColumn.after_start : h.keyset.after [start] = h.keyset.rows := by
  refine List.filter_eq_self.mpr fun r hr => ?_
  have hmem : r ∈ t.rows.filter (t.selects (filterOf opts)) := (ordered_perm _ _).mem_iff.mp hr
  exact decide_eq_true (h.greater r (List.mem_of_mem_filter hmem))

/-- The cursors lead on exactly if the column is read back. -/
theorem ScansColumn.separates_iff :
    h.keyset.SeparatesFrom (applyOptions opts).settings.read b 0 ↔
      ReadsBack (t.select col (filterOf opts)) col (t.column col) b := by
  have hiff : ∀ {i : Nat} {r : Reflected V} {v : V}, h.keyset.rows[i]? = some r →
      (h.keyset.after [v] = h.keyset.rows.drop (i + 1) ↔
        ∀ r' ∈ h.keyset.rows, v < t.column col r' ↔ t.column col r < t.column col r') :=
    fun hr => filter_eq_drop_iff (ordered_pairwise (h.distinct.filter _)) hr
  constructor
  · intro hsep i r hr hend
    obtain ⟨k, hk, hafter⟩ := hsep i r (Nat.zero_le i) hr hend
    rw [h.read_eq] at hk
    obtain ⟨v, hv, rfl⟩ := Option.map_eq_some_iff.mp hk
    exact ⟨v, hv, fun hdvd => (hiff hr).mp (hafter hdvd)⟩
  · intro hread i r _ hr hend
    obtain ⟨v, hv, hplace⟩ := hread i r hr hend
    exact ⟨[v], by rw [h.read_eq, hv]; rfl, fun hdvd => (hiff hr).mpr (hplace hdvd)⟩

/-- A scan without a limit and with a willing callback ends without an error and delivers the rows
of its filter in the order of the column, if and only if the column can be read back from the
rows where a batch ends. -/
theorem scan_enumerates_iff (hlimit : (applyOptions opts).settings.limit = maxInt)
    (hint : (t.rows.length : Int) < maxInt) {cb : ScanCallback V}
    (hcb : ∀ bs batch, cb bs batch = true) :
    (∃ run, Scans db cb opts run ∧ run.outcome = .finished ∧
        run.batches.flatten = t.select col (filterOf opts)) ↔
      ReadsBack (t.select col (filterOf opts)) col (t.column col) (batchOf opts) := by
  obtain ⟨hd, hhandle, hserve⟩ := h.served
  have hlen : h.keyset.rows.length ≤ t.rows.length := by
    rw [ScansColumn.keyset, Keyset.ofOrder, (ordered_perm _ _).length_eq]
    exact List.length_filter_le _ _
  have hstart : h.keyset.after (applyOptions opts).settings.start.cursors =
      h.keyset.rows.drop 0 := by
    rw [ScanSettings.start, h.cursors]
    exact h.after_start
  have hdeliver := delivers_iff (h.answers hserve) h.batch_eq
    (by have := h.batch; rw [batchOf]; omega) (by rw [h.cursors, h.columns]; rfl) hcb
    (Nat.dvd_zero _) rfl hstart
    (by rw [hlimit]; simp only [ScanSettings.start, Nat.sub_zero]; omega)
  rw [← h.separates_iff, ← hdeliver]
  simp only [Scans, hhandle]
  rfl

end

/-! ## Two models -/

def oneField (name : String) (v : Int) : Reflected Int :=
  .struct 0 [(⟨name.toList, false, []⟩, .value v)]

def onlyValue (r : Reflected Int) : Int := (r.fields.map fun f => f.2.interface).sum

/-- The table of rows with one field, whatever its name. -/
def oneFieldTable (rows : List (Reflected Int)) : Table Int Empty where
  rows := rows
  column _ := onlyValue
  selects _ _ := true

def oneFieldDb (rows : List (Reflected Int)) :
    Handle Empty → Query Int Empty → Except Empty (List (Reflected Int)) := fun _ q =>
  match q.cursors with
  | [v] => .ok ((((oneFieldTable rows).select [] q.condition).filter
    fun r => v < onlyValue r).take q.limit.toNat)
  | _ => .ok []

theorem oneFieldTable_serves (rows : List (Reflected Int)) (h : Handle Empty) :
    (oneFieldTable rows).Serves (oneFieldDb rows h) := by
  intro col v q _ hcursors _
  simp only [oneFieldDb, hcursors]
  rfl

theorem oneRow_select (r : Reflected Int) (col : Text) (c : Option (Clause Empty × List Int)) :
    (oneFieldTable [r]).select col c = [r] :=
  List.mergeSort_singleton r

/-- Rows with an `ID` are found by the default column `id`. -/
theorem scan_by_id_enumerates :
    ∃ run, Scans (oneFieldDb [oneField "ID" 2, oneField "ID" 1]) (fun _ _ => true)
        [.use "main".toList, .batch 1] run ∧ run.outcome = .finished ∧
      run.batches.flatten =
        (oneFieldTable [oneField "ID" 2, oneField "ID" 1]).select "id".toList none := by
  have h : ScansColumn (oneFieldTable [oneField "ID" 2, oneField "ID" 1])
      (oneFieldDb [oneField "ID" 2, oneField "ID" 1]) [.use "main".toList, .batch 1] "id".toList 0 :=
    ⟨⟨_, rfl, oneFieldTable_serves _ _⟩, rfl, rfl, rfl, rfl, by decide, by decide, by decide⟩
  refine (scan_enumerates_iff h rfl (by decide) (fun _ _ => rfl)).mpr
    (readsBack_of_column fun r hr => ?_)
  have hmem : r ∈ [oneField "ID" 2, oneField "ID" 1] :=
    List.mem_of_mem_filter ((ordered_perm _ _).mem_iff.mp hr)
  simp only [List.mem_cons, List.not_mem_nil, or_false] at hmem
  rcases hmem with rfl | rfl
  · rfl
  · rfl

/-- A scan by the column `user_id`. -/
def byUserID : List (ScanOpt Int Empty Empty) :=
  [.use "main".toList, .cursor (some (.text "user_id > ?".toList)) ["user_id".toList] (some [0])]

/-- A row with a `UserID`, scanned by its column `user_id`.  The scan ends with an error. -/
theorem scan_by_user_id_fails :
    ScansColumn (oneFieldTable [oneField "UserID" 7]) (oneFieldDb [oneField "UserID" 7]) byUserID
        "user_id".toList 0 ∧
      ∀ run, Scans (oneFieldDb [oneField "UserID" 7]) (fun _ _ => true) byUserID run →
        run.outcome = .columnNotFound "user_id".toList := by
  constructor
  · exact ⟨⟨_, rfl, oneFieldTable_serves _ _⟩, rfl, rfl, rfl, rfl, by decide, by decide, by decide⟩
  · intro run hrun
    have hround : ((applyOptions byUserID).settings.round
        (oneFieldDb [oneField "UserID" 7] (.use "main".toList [])) (fun _ _ => true)
        (applyOptions byUserID).settings.start) =
          .done ⟨.columnNotFound "user_id".toList, [[oneField "UserID" 7]], [0]⟩ := by
      simp only [ScanSettings.round, oneFieldDb, oneRow_select]
      rfl
    rw [(ends_done_iff hround).mp hrun]

end Gofusion.Db
