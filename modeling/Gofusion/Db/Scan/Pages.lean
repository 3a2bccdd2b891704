import Gofusion.Db.Scan.Basic
import Gofusion.Lib.Keyset

/-!
# The pages of a scan

What a scan of a table delivers.  The table does not change, and the database answers a query with
the first rows behind the cursors (`Answers`).
-/

namespace Gofusion.Db

open Gofusion.Lib

variable {V C D ε : Type}

/-- The database answers the queries of a scan with rows of a keyset. -/
def Answers (find : Query V C → Except ε (List (Reflected V))) (o : ScanSettings V C)
    (K : Keyset (List V) (Reflected V)) : Prop :=
  ∀ cursors, cursors.length = o.cursors.length →
    find (o.query cursors) = .ok ((K.after cursors).take o.batch.toNat)

/-- The cursors in a row, `none` when a column is not found. -/
def ScanSettings.read (o : ScanSettings V C) (row : Reflected V) : Option (List V) :=
  o.cursorColumns.mapM row.column

/-! ## Cursors -/

theorem mapM_column_cons {row : Reflected V} {cols : List Text} :
    (col :: cols).mapM row.column = some vs ↔
      ∃ v vs', row.column col = some v ∧ cols.mapM row.column = some vs' ∧ vs = v :: vs' := by
  rw [List.mapM_cons]
  constructor
  · intro h
    obtain ⟨v, hv, h⟩ := Option.bind_eq_some_iff.mp h
    obtain ⟨vs', hvs, h⟩ := Option.bind_eq_some_iff.mp h
    exact ⟨v, vs', hv, hvs, (Option.some.inj h).symm⟩
  · rintro ⟨v, vs', hv, hvs, rfl⟩
    rw [hv, hvs]
    rfl

theorem nextCursors_of_some {row : Reflected V} : ∀ {cols : List Text} {idx : Nat}
    {cursors vs : List V}, cols.mapM row.column = some vs → cursors.length = idx + cols.length →
    (nextCursors row cols idx cursors : List V × Option (ScanEnd ε)) =
      (cursors.take idx ++ vs, none)
  | [], idx, cursors, vs, h, hlen => by
    rw [List.mapM_nil] at h
    cases h
    rw [nextCursors, List.take_of_length_le (by simp [hlen]), List.append_nil]
  | col :: cols, idx, cursors, vs, h, hlen => by
    obtain ⟨v, vs', hv, hvs, rfl⟩ := mapM_column_cons.mp h
    rw [List.length_cons] at hlen
    have hidx : idx < cursors.length := by omega
    simp only [nextCursors, hv, if_pos hidx]
    rw [nextCursors_of_some hvs (by rw [List.length_set]; omega),
      List.take_succ_eq_append_getElem (by rwa [List.length_set]), List.getElem_set_self,
      List.take_set_of_le (Nat.le_refl idx), List.append_assoc]
    rfl

theorem nextCursors_of_none {row : Reflected V} : ∀ {cols : List Text} {idx : Nat}
    {cursors : List V}, cols.mapM row.column = none → cursors.length = idx + cols.length →
    ∃ cursors' col, (nextCursors row cols idx cursors : List V × Option (ScanEnd ε)) =
      (cursors', some (.columnNotFound col))
  | col :: cols, idx, cursors, h, hlen => by
    rw [List.length_cons] at hlen
    have hidx : idx < cursors.length := by omega
    cases hv : row.column col with
    | none => exact ⟨cursors, col, by rw [nextCursors, hv]⟩
    | some v =>
      have hcols : cols.mapM row.column = none := by
        cases hvs : cols.mapM row.column with
        | none => rfl
        | some vs' => rw [mapM_column_cons.mpr ⟨v, vs', hv, hvs, rfl⟩] at h; cases h
      simp only [nextCursors, hv, if_pos hidx]
      exact nextCursors_of_none hcols (by rw [List.length_set]; omega)

/-! ## Rounds -/

section

variable {find : Query V C → Except ε (List (Reflected V))} {cb : ScanCallback V}
  {o : ScanSettings V C} {K : Keyset (List V) (Reflected V)} {b : Nat} {s : ScanState V}
  {rest : List (Reflected V)} {row : Reflected V}

/-- The batches delivered up to the end of a round. -/
def delivered : Round (ScanState V) (ScanRun V ε) → List (List (Reflected V))
  | .next s => s.batches
  | .done run => run.batches

def cursorsOf : Round (ScanState V) (ScanRun V ε) → List V
  | .next s => s.cursors
  | .done run => run.cursors

/-- What a round can do: nothing, deliver a batch, or deliver a batch and move the cursors. -/
inductive Moves (ε : Type) (o : ScanSettings V C) (s : ScanState V) :
    List (List (Reflected V)) → List V → Prop
  | stayed : Moves ε o s s.batches s.cursors
  | refused (mList : List (Reflected V)) : Moves ε o s (s.batches ++ [mList]) s.cursors
  | moved (mList : List (Reflected V)) (row : Reflected V) :
    Moves ε o s (s.batches ++ [mList])
      (nextCursors row o.cursorColumns 0 s.cursors : List V × Option (ScanEnd ε)).1

theorem moves_deliver (mList : List (Reflected V)) :
    Moves ε o s (delivered (o.deliver cb s mList : Round (ScanState V) (ScanRun V ε)))
      (cursorsOf (o.deliver cb s mList : Round (ScanState V) (ScanRun V ε))) := by
  unfold ScanSettings.deliver
  split
  · exact .stayed
  · next row _ =>
    split
    · have h : Moves ε o s _ _ := .moved mList row
      split
      · next hnext => rwa [hnext] at h
      · next hnext => rwa [hnext] at h
    · exact .refused mList

/-- Going on or stopping keeps what is delivered and the cursors. -/
theorem proceed_keeps (n : Nat) :
    delivered (o.proceed s n : Round (ScanState V) (ScanRun V ε)) = s.batches ∧
      cursorsOf (o.proceed s n : Round (ScanState V) (ScanRun V ε)) = s.cursors := by
  unfold ScanSettings.proceed
  split
  · exact ⟨rfl, rfl⟩
  · split
    · exact ⟨rfl, rfl⟩
    · exact ⟨rfl, rfl⟩

theorem moves_round (s : ScanState V) :
    Moves ε o s (delivered (o.round find cb s)) (cursorsOf (o.round find cb s)) := by
  unfold ScanSettings.round
  split
  · exact .stayed
  · split
    · exact .stayed
    · next mList _ =>
      have h := @moves_deliver V C ε cb o s mList
      split
      · next hd => rwa [hd] at h
      · next s' hd =>
        obtain ⟨hbatches, hcursors⟩ := @proceed_keeps V C ε o s' mList.length
        rw [hd] at h
        rwa [hbatches, hcursors]

/-- No round takes a batch back. -/
theorem prefix_of_ends {run : ScanRun V ε} (h : Ends (o.round find cb) s run) :
    s.batches <+: run.batches := by
  have hmoves : ∀ {s' : ScanState V} {batches : List (List (Reflected V))} {cursors : List V},
      s.batches <+: s'.batches → Moves ε o s' batches cursors → s.batches <+: batches := by
    intro s' batches cursors hs hm
    cases hm with
    | stayed => exact hs
    | refused mList | moved mList row => exact hs.trans (List.prefix_append _ _)
  refine h.invariant (fun s' => s.batches <+: s'.batches) (fun run => s.batches <+: run.batches)
    ?_ ?_ List.prefix_rfl
  · intro s₁ s₂ hs hround
    have h := @moves_round V C ε find cb o s₁
    rw [hround] at h
    exact hmoves hs h
  · intro s₁ run hs hround
    have h := @moves_round V C ε find cb o s₁
    rw [hround] at h
    exact hmoves hs h

/-! ### Answered rounds -/

theorem getLast?_take_ne_none (hb : 0 < b) (hrest : rest ≠ []) :
    ∃ row, (rest.take b).getLast? = some row := by
  have hne : rest.take b ≠ [] := by
    simp [List.take_eq_nil_iff, hrest]
    omega
  exact ⟨_, List.getLast?_eq_some_getLast hne⟩

theorem deliver_accepted {mList : List (Reflected V)}
    (hrow : mList.getLast? = some row) (hcb : cb s.batches mList = true)
    (hread : o.read row = some cursors) (hwide : s.cursors.length = o.cursorColumns.length) :
    (o.deliver cb s mList : Round (ScanState V) (ScanRun V ε)) =
      .next { s with cursors, batches := s.batches ++ [mList] } := by
  have hnext : (nextCursors row o.cursorColumns 0 s.cursors : List V × Option (ScanEnd ε)) =
      (cursors, none) :=
    nextCursors_of_some hread (by rw [hwide, Nat.zero_add])
  simp only [ScanSettings.deliver, hrow, hcb, if_true, hnext]

variable (ha : Answers find o K) (hbatch : o.batch = b) (hlen : s.cursors.length = o.cursors.length)
  (hrest : K.after s.cursors = rest)
include ha hbatch hlen hrest

theorem round_of_answers : o.round find cb s =
    match (o.deliver cb s (rest.take b) : Round (ScanState V) (ScanRun V ε)) with
    | .done run => .done run
    | .next s' => o.proceed s' (rest.take b).length := by
  have hbatch' : ¬o.batch < 0 := by omega
  have hfind := ha s.cursors hlen
  rw [hrest, hbatch, Int.toNat_natCast] at hfind
  cases hdeliver : (o.deliver cb s (rest.take b) : Round (ScanState V) (ScanRun V ε)) <;>
    simp only [ScanSettings.round, if_neg hbatch', hfind, hdeliver]

/-- No row is left. -/
theorem round_empty (hnil : rest = []) (hb : 0 < b) :
    o.round find cb s = .done ⟨.finished, s.batches, s.cursors⟩ := by
  rw [round_of_answers ha hbatch hlen hrest, hnil, List.take_nil]
  simp only [ScanSettings.deliver, List.getLast?_nil, ScanSettings.proceed, List.length_nil]
  split
  · rfl
  · rw [if_neg (by omega)]

/-- The callback refuses the batch. -/
theorem round_refused (hb : 0 < b) (hne : rest ≠ []) (hcb : cb s.batches (rest.take b) = false) :
    o.round find cb s = .done ⟨.finished, s.batches ++ [rest.take b], s.cursors⟩ := by
  obtain ⟨row, hrow⟩ := getLast?_take_ne_none hb hne
  rw [round_of_answers ha hbatch hlen hrest]
  simp only [ScanSettings.deliver, hrow, hcb, Bool.false_eq_true, if_false]

/-- The cursors cannot be read from the last row. -/
theorem round_unread (hcb : cb s.batches (rest.take b) = true)
    (hrow : (rest.take b).getLast? = some row) (hread : o.read row = none)
    (hwide : o.cursors.length = o.cursorColumns.length) :
    ∃ col cursors, o.round find cb s =
      .done ⟨.columnNotFound col, s.batches ++ [rest.take b], cursors⟩ := by
  obtain ⟨cursors, col, hnext⟩ : ∃ cursors col,
      (nextCursors row o.cursorColumns 0 s.cursors : List V × Option (ScanEnd ε)) =
        (cursors, some (.columnNotFound col)) :=
    nextCursors_of_none hread (by rw [hlen, hwide, Nat.zero_add])
  refine ⟨col, cursors, ?_⟩
  rw [round_of_answers ha hbatch hlen hrest]
  simp only [ScanSettings.deliver, hrow, hcb, if_true, hnext]

/-- The batch is not full, or the limit is reached. -/
theorem round_last (hcb : cb s.batches (rest.take b) = true)
    (hrow : (rest.take b).getLast? = some row) (hread : o.read row = some cursors)
    (hwide : o.cursors.length = o.cursorColumns.length)
    (hlast : rest.length < b ∨ o.limit ≤ s.count + (rest.take b).length) :
    o.round find cb s = .done ⟨.finished, s.batches ++ [rest.take b], cursors⟩ := by
  rw [round_of_answers ha hbatch hlen hrest, deliver_accepted hrow hcb hread (hlen.trans hwide)]
  simp only [ScanSettings.proceed]
  split
  · rfl
  · next hlimit =>
    rcases hlast with hlast | hlast
    · rw [if_neg (by rw [List.length_take]; omega)]
    · exact absurd hlast hlimit

/-- The scan goes on from the cursors of the last row. -/
theorem round_next (hcb : cb s.batches (rest.take b) = true)
    (hrow : (rest.take b).getLast? = some row) (hread : o.read row = some cursors)
    (hwide : o.cursors.length = o.cursorColumns.length)
    (hfull : b ≤ rest.length) (hlimit : s.count + b < o.limit) :
    o.round find cb s = .next ⟨cursors, s.count + b, s.batches ++ [rest.take b]⟩ := by
  have htake : (rest.take b).length = b := by rw [List.length_take]; omega
  rw [round_of_answers ha hbatch hlen hrest, deliver_accepted hrow hcb hread (hlen.trans hwide)]
  simp only [ScanSettings.proceed, htake]
  rw [if_neg (by omega), if_pos (by omega)]

theorem prefix_round_page (hb : 0 < b) (hne : rest ≠ []) :
    s.batches ++ [rest.take b] <+: delivered (o.round find cb s) := by
  obtain ⟨row, hrow⟩ := getLast?_take_ne_none hb hne
  have hdeliver : delivered (o.deliver cb s (rest.take b) : Round (ScanState V) (ScanRun V ε)) =
      s.batches ++ [rest.take b] := by
    simp only [ScanSettings.deliver, hrow]
    split
    · split
      · rfl
      · rfl
    · rfl
  rw [round_of_answers ha hbatch hlen hrest, ← hdeliver]
  split
  · next hd => simp only [hd, List.prefix_refl]
  · next hd => rw [hd, (proceed_keeps _).1]; exact List.prefix_rfl

theorem batches_of_ends (hb : 0 < b) {run : ScanRun V ε} (h : Ends (o.round find cb) s run) :
    (rest = [] ∧ run.batches = s.batches) ∨
      (rest ≠ [] ∧ s.batches ++ [rest.take b] <+: run.batches) := by
  by_cases hnil : rest = []
  · left
    have hend := (ends_done_iff (round_empty ha hbatch hlen hrest hnil hb)).mp h
    exact ⟨hnil, by rw [hend]⟩
  · right
    refine ⟨hnil, ?_⟩
    have hpage := @prefix_round_page V C ε find cb o K b s rest ha hbatch hlen hrest hb hnil
    cases h with
    | done hround => rwa [hround] at hpage
    | next hround hend =>
      rw [hround] at hpage
      exact hpage.trans (prefix_of_ends hend)

end

end Gofusion.Db
