import Gofusion.Db.Scan.Enumeration

/-!
# Options used twice

The cursors of a scan are in the slice that `ScanCursor` keeps, so a second scan with the same
option value starts where the first one stopped.  Without start cursors every scan makes its own
slice.
-/

namespace Gofusion.Db

open Gofusion.Lib

variable {V C D ε : Type}

/-! ## Options -/

/-- Options that set no cursors keep them. -/
theorem foldl_apply_cursors {opts : List (ScanOpt V C D)} (h : opts.any ScanOpt.isCursor = false)
    (o : ScanOption V C D) (cursors : Option (List V)) :
    opts.foldl ScanOption.apply { o with cursors } =
      { opts.foldl ScanOption.apply o with cursors } := by
  induction opts generalizing o with
  | nil => rfl
  | cons opt opts ih =>
    rw [List.any_cons, Bool.or_eq_false_iff] at h
    have hopt : ScanOption.apply { o with cursors } opt = { o.apply opt with cursors } := by
      cases opt with
      | cursor _ _ _ => exact absurd h.1 (by simp [ScanOpt.isCursor])
      | _ => rfl
    rw [List.foldl_cons, List.foldl_cons, hopt, ih h.2]

/-- The cursors that a scan leaves replace those of the options. -/
theorem foldl_leaveCursors (cursors : List V) : ∀ (opts : List (ScanOpt V C D))
    (o : ScanOption V C D), opts.any ScanOpt.isCursor = true →
    (leaveCursors cursors opts).foldl ScanOption.apply o =
      { opts.foldl ScanOption.apply o with
        cursors := (opts.foldl ScanOption.apply o).cursors.map fun _ => cursors }
  | opt :: opts, o, h => by
    rw [leaveCursors]
    split
    · next hany => exact foldl_leaveCursors cursors opts _ hany
    · next hany =>
      rw [Bool.not_eq_true] at hany
      rw [List.any_cons, hany, Bool.or_false] at h
      -- the last `ScanCursor`
      cases opt with
      | cursor cursorWhere cursorColumns cursors₀ =>
        have hset : ∀ x : Option (List V),
            opts.foldl ScanOption.apply (o.apply (.cursor cursorWhere cursorColumns x)) =
              { opts.foldl ScanOption.apply (o.apply (.cursor cursorWhere cursorColumns none)) with
                cursors := x } := fun x =>
          foldl_apply_cursors hany (o.apply (.cursor cursorWhere cursorColumns none)) x
        cases cursors₀ with
        | none =>
          rw [ScanOpt.leave, List.foldl_cons, hset none]
          · rfl
          · nofun
        | some vs =>
          rw [ScanOpt.leave, List.foldl_cons, List.foldl_cons, hset (some cursors), hset (some vs)]
          rfl
      | _ => exact absurd h (by simp [ScanOpt.isCursor])

theorem leaveCursors_of_none (cursors : List V) {opts : List (ScanOpt V C D)}
    (h : opts.any ScanOpt.isCursor = false) : leaveCursors cursors opts = opts := by
  cases opts with
  | nil => rfl
  | cons opt opts =>
    rw [List.any_cons, Bool.or_eq_false_iff] at h
    rw [leaveCursors, if_neg (by simp [h.2])]
    cases opt with
    | cursor _ _ _ => exact absurd h.1 (by simp [ScanOpt.isCursor])
    | _ => rfl

/-- A run changes nothing but the start cursors, and only if there are some. -/
theorem applyOptions_leaveCursors (cursors : List V) (opts : List (ScanOpt V C D)) :
    applyOptions (leaveCursors cursors opts) =
      { applyOptions opts with cursors := (applyOptions opts).cursors.map fun _ => cursors } := by
  cases hany : opts.any ScanOpt.isCursor with
  | true => exact foldl_leaveCursors cursors opts {} hany
  | false =>
    have hnone : (applyOptions opts).cursors = none :=
      congrArg ScanOption.cursors (foldl_apply_cursors hany {} none)
    rw [leaveCursors_of_none cursors hany, hnone]
    exact foldl_apply_cursors hany {} none

/-! ## Cursors -/

/-- Cursors that differ in the places of the columns only. -/
structure SameRest (idx n : Nat) (cursors cursors' : List V) : Prop where
  length : cursors'.length = cursors.length
  getElem? : ∀ i, i < idx ∨ idx + n ≤ i → cursors'[i]? = cursors[i]?

theorem SameRest.refl (idx n : Nat) (cursors : List V) : SameRest idx n cursors cursors :=
  ⟨rfl, fun _ _ => rfl⟩

variable {idx n : Nat} {cursors cursors' : List V}

theorem SameRest.trans (h : SameRest idx n c₁ c₂) (h' : SameRest idx n c₂ c₃) :
    SameRest idx n c₁ c₃ :=
  ⟨h'.length.trans h.length, fun i hi => (h'.getElem? i hi).trans (h.getElem? i hi)⟩

theorem SameRest.eq (h : SameRest idx 0 cursors cursors') : cursors' = cursors :=
  List.ext_getElem? fun i => h.getElem? i (by omega)

theorem SameRest.set (h : SameRest idx (n + 1) cursors cursors') (hidx : idx < cursors.length)
    (v : V) : SameRest (idx + 1) n (cursors.set idx v) (cursors'.set idx v) := by
  refine ⟨by rw [List.length_set, List.length_set, h.length], fun i hi => ?_⟩
  by_cases heq : idx = i
  · subst heq
    rw [List.getElem?_set_self hidx, List.getElem?_set_self (h.length ▸ hidx)]
  · rw [List.getElem?_set_ne heq, List.getElem?_set_ne heq]
    exact h.getElem? i (by omega)

theorem sameRest_set (h : SameRest (idx + 1) n (cursors.set idx v) cursors') :
    SameRest idx (n + 1) cursors cursors' := by
  refine ⟨by rw [h.length, List.length_set], fun i hi => ?_⟩
  rw [h.getElem? i (by omega), List.getElem?_set_ne (by omega)]

/-- The next cursors keep what is in no place of a column. -/
theorem sameRest_nextCursors (row : Reflected V) : ∀ (cols : List Text) (idx : Nat)
    (cursors : List V), SameRest idx cols.length cursors
      (nextCursors row cols idx cursors : List V × Option (ScanEnd ε)).1
  | [], idx, cursors => SameRest.refl idx 0 cursors
  | col :: cols, idx, cursors => by
    rw [nextCursors]
    split
    · exact SameRest.refl _ _ _
    · split
      · exact sameRest_set (sameRest_nextCursors row cols (idx + 1) _)
      · exact SameRest.refl _ _ _

/-- The next cursors do not depend on what was in the places of the columns. -/
theorem nextCursors_congr (row : Reflected V) : ∀ {cols : List Text} {idx : Nat}
    {cursors cursors' : List V}, SameRest idx cols.length cursors cursors' →
      (∃ outcome : ScanEnd ε, (nextCursors row cols idx cursors).2 = some outcome ∧
        (nextCursors row cols idx cursors').2 = some outcome) ∨
      (∃ next : List V, (nextCursors row cols idx cursors : List V × Option (ScanEnd ε)) =
          (next, none) ∧
        (nextCursors row cols idx cursors' : List V × Option (ScanEnd ε)) = (next, none))
  | [], idx, cursors, cursors', h => .inr ⟨cursors, rfl, by rw [h.eq]; rfl⟩
  | col :: cols, idx, cursors, cursors', h => by
    rw [nextCursors, nextCursors]
    cases hcol : row.column col with
    | none => exact .inl ⟨_, rfl, rfl⟩
    | some v =>
      simp only
      by_cases hidx : idx < cursors.length
      · rw [if_pos hidx, if_pos (h.length ▸ hidx)]
        exact nextCursors_congr row (h.set hidx v)
      · rw [if_neg hidx, if_neg (h.length ▸ hidx)]
        exact .inl ⟨_, rfl, rfl⟩

/-! ## Runs -/

section

variable {find : Query V C → Except ε (List (Reflected V))} {cb : ScanCallback V}
  {o : ScanSettings V C} {s s' : ScanState V} {run : ScanRun V ε}

theorem Moves.sameRest (h : Moves ε o s batches cursors) :
    SameRest 0 o.cursorColumns.length s.cursors cursors := by
  cases h with
  | stayed | refused mList => exact SameRest.refl _ _ _
  | moved mList row => exact sameRest_nextCursors row _ _ _

/-- A scan writes only the cursors of its columns. -/
theorem sameRest_of_ends (h : Ends (o.round find cb) s run) :
    SameRest 0 o.cursorColumns.length s.cursors run.cursors := by
  refine h.invariant (fun s' => SameRest 0 o.cursorColumns.length s.cursors s'.cursors)
    (fun run => SameRest 0 o.cursorColumns.length s.cursors run.cursors) ?_ ?_
    (SameRest.refl _ _ _)
  · intro s₁ s₂ hs hround
    have h := @moves_round V C ε find cb o s₁
    rw [hround] at h
    exact hs.trans h.sameRest
  · intro s₁ run hs hround
    have h := @moves_round V C ε find cb o s₁
    rw [hround] at h
    exact hs.trans h.sameRest

variable {K : Keyset (List V) (Reflected V)}

/-- Two states that differ in the cursors only, with the same rows behind them: a round ends both
scans after the same batches, or it leads to the same state. -/
theorem round_congr (ha : Answers find o K) (hbatch : o.batch ≠ 0)
    (hlen : s.cursors.length = o.cursors.length)
    (hrest : SameRest 0 o.cursorColumns.length s.cursors s'.cursors)
    (hafter : K.after s'.cursors = K.after s.cursors) (hcount : s'.count = s.count)
    (hbatches : s'.batches = s.batches) :
    (∃ r r', o.round find cb s = .done r ∧ o.round find cb s' = .done r' ∧
      r'.batches = r.batches) ∨ o.round find cb s' = o.round find cb s := by
  obtain ⟨cursors, count, batches⟩ := s
  obtain ⟨cursors', count', batches'⟩ := s'
  simp only at hlen hrest hafter hcount hbatches
  subst hcount hbatches
  by_cases hneg : o.batch < 0
  · exact .inl ⟨_, _, if_pos hneg, if_pos hneg, rfl⟩
  · simp only [ScanSettings.round, if_neg hneg, ha cursors hlen,
      ha cursors' (hrest.length.trans hlen), hafter]
    generalize (K.after cursors).take o.batch.toNat = mList
    cases hrow : mList.getLast? with
    | none =>
      have hzero : ¬((mList.length : Int) ≥ o.batch) := by
        rw [List.getLast?_eq_none_iff.mp hrow, List.length_nil]
        omega
      simp only [ScanSettings.deliver, hrow, ScanSettings.proceed, if_neg hzero]
      split
      · exact .inl ⟨_, _, rfl, rfl, rfl⟩
      · exact .inl ⟨_, _, rfl, rfl, rfl⟩
    | some row =>
      cases hcb : cb batches' mList with
      | false =>
        simp only [ScanSettings.deliver, hrow, hcb, Bool.false_eq_true, if_false]
        exact .inl ⟨_, _, rfl, rfl, rfl⟩
      | true =>
        simp only [ScanSettings.deliver, hrow, hcb, if_true]
        rcases @nextCursors_congr V ε row _ _ _ _ hrest with ⟨outcome, h, h'⟩ | ⟨next, h, h'⟩
        · obtain ⟨c, hc⟩ : ∃ c, (nextCursors row o.cursorColumns 0 cursors :
              List V × Option (ScanEnd ε)) = (c, some outcome) := ⟨_, Prod.ext rfl h⟩
          obtain ⟨c', hc'⟩ : ∃ c', (nextCursors row o.cursorColumns 0 cursors' :
              List V × Option (ScanEnd ε)) = (c', some outcome) := ⟨_, Prod.ext rfl h'⟩
          rw [hc, hc']
          exact .inl ⟨_, _, rfl, rfl, rfl⟩
        · rw [h, h']
          exact .inr rfl

/-- Cursors with the same rows behind them give the same batches. -/
theorem batches_eq_of_after_eq (ha : Answers find o K) (hbatch : o.batch ≠ 0)
    (hlen : s.cursors.length = o.cursors.length)
    (hrest : SameRest 0 o.cursorColumns.length s.cursors s'.cursors)
    (hafter : K.after s'.cursors = K.after s.cursors) (hcount : s'.count = s.count)
    (hbatches : s'.batches = s.batches) (h : Ends (o.round find cb) s run) :
    ∃ run', Ends (o.round find cb) s' run' ∧ run'.batches = run.batches := by
  rcases @round_congr V C ε find cb o s s' K ha hbatch hlen hrest hafter hcount hbatches with
    ⟨r, r', hr, hr', heq⟩ | heq
  · exact ⟨r', .done hr', by rw [(ends_done_iff hr).mp h, heq]⟩
  · refine ⟨run, ?_, rfl⟩
    cases h with
    | done hround => exact .done (heq.trans hround)
    | next hround hend => exact .next (heq.trans hround) hend

/-- Scans from two places deliver the same batches if and only if the same rows are behind both. -/
theorem batches_eq_iff (ha : Answers find o K) (hbatch : o.batch ≠ 0)
    (hlen : cursors.length = o.cursors.length)
    (hrest : SameRest 0 o.cursorColumns.length cursors cursors')
    (h : Ends (o.round find cb) ⟨cursors, 0, []⟩ run) (hneg : o.batch < 0 → cursors' = cursors) :
    (∃ run', Ends (o.round find cb) ⟨cursors', 0, []⟩ run' ∧ run'.batches = run.batches) ↔
      K.after cursors' = K.after cursors := by
  constructor
  · rintro ⟨run', h', heq⟩
    by_cases hb : o.batch < 0
    · rw [hneg hb]
    · obtain ⟨b, hb'⟩ : ∃ b : Nat, o.batch = b := ⟨o.batch.toNat, by omega⟩
      have hpos : 0 < b := by omega
      have hfirst := batches_of_ends ha hb' hlen rfl hpos h
      have hsecond := batches_of_ends ha hb' (hrest.length.trans hlen) rfl hpos h'
      rw [heq] at hsecond
      rcases hfirst with ⟨hnil, hrun⟩ | ⟨hne, rest, hrun⟩ <;>
        rcases hsecond with ⟨hnil', hrun'⟩ | ⟨hne', rest', hrun'⟩
      · rw [hnil, hnil']
      · rw [hrun] at hrun'
        cases hrun'
      · rw [hrun'] at hrun
        cases hrun
      · -- the first batches begin with the same row
        have hpage : (K.after cursors').take b = (K.after cursors).take b := by
          rw [← hrun] at hrun'
          exact (List.cons.inj hrun').1
        obtain ⟨r, l, hcons⟩ := List.exists_cons_of_ne_nil hne
        obtain ⟨r', l', hcons'⟩ := List.exists_cons_of_ne_nil hne'
        obtain ⟨n, rfl⟩ : ∃ n, b = n + 1 := ⟨b - 1, by omega⟩
        have hr : r' = r := by
          rw [hcons, hcons'] at hpage
          exact (List.cons.inj hpage).1
        exact K.after_eq_of_head (K.suffix_rows cursors) (by rw [hcons']; rfl)
          (by rw [hcons, hr]; rfl)
  · intro hafter
    exact @batches_eq_of_after_eq _ _ _ _ _ _ ⟨cursors, 0, []⟩ ⟨cursors', 0, []⟩ _ _ ha hbatch hlen
      hrest hafter rfl rfl h

end

/-! ## Two scans -/

section

variable [Zero V] {db : Handle D → Query V C → Except ε (List (Reflected V))} {cb : ScanCallback V}
  {opts : List (ScanOpt V C D)} {run : ScanRun V ε}

theorem batch_ne_zero (o : ScanOption V C D) : o.settings.batch ≠ 0 := by
  simp only [ScanOption.settings]
  split
  · decide
  · assumption

/-- A second scan with the options that a first one has left delivers the same batches if and only
if no start cursors were given, or the first scan has left the cursors in front of the same rows. -/
theorem scan_repeats_iff {K : Keyset (List V) (Reflected V)}
    (ha : ∀ h, (applyOptions opts).handle = some h →
      Answers (db h) (applyOptions opts).settings K)
    (hrun : Scans db cb opts run) :
    (∃ run', Scans db cb (leaveCursors run.cursors opts) run' ∧ run'.batches = run.batches) ↔
      (applyOptions opts).cursors = none ∨
        K.after run.cursors = K.after (applyOptions opts).settings.cursors := by
  cases hcursors : (applyOptions opts).cursors with
  | none =>
    -- every scan makes its own slice
    have hsame : applyOptions (leaveCursors run.cursors opts) = applyOptions opts := by
      rw [applyOptions_leaveCursors, hcursors, Option.map_none, ← hcursors]
    refine iff_of_true ⟨run, ?_, rfl⟩ (.inl rfl)
    simp only [Scans, hsame]
    exact hrun
  | some cursors =>
    have hleft : applyOptions (leaveCursors run.cursors opts) =
        { applyOptions opts with cursors := some run.cursors } := by
      rw [applyOptions_leaveCursors, hcursors, Option.map_some]
    have hstart : (applyOptions opts).settings.cursors = cursors := by
      rw [ScanOption.settings, hcursors]
      rfl
    simp only [reduceCtorEq, false_or]
    cases hhandle : (applyOptions opts).handle with
    | none =>
      have hpanic : run = ⟨.panic, [], cursors⟩ := by
        simpa only [Scans, hhandle, hstart] using hrun
      have hhandle' : (applyOptions (leaveCursors run.cursors opts)).handle = none := by
        rw [hleft]
        exact hhandle
      refine iff_of_true ⟨⟨.panic, [],
        (applyOptions (leaveCursors run.cursors opts)).settings.cursors⟩, ?_, ?_⟩ ?_
      · simp only [Scans, hhandle']
      · rw [hpanic]
      · rw [hpanic, hstart]
    | some h =>
      have hend : Ends ((applyOptions opts).settings.round (db h) cb) ⟨cursors, 0, []⟩ run := by
        simpa only [Scans, hhandle, ScanSettings.start, hstart] using hrun
      have hscans : ∀ run', Scans db cb (leaveCursors run.cursors opts) run' ↔
          Ends ((applyOptions opts).settings.round (db h) cb) ⟨run.cursors, 0, []⟩ run' := by
        intro run'
        have hhandle' : (applyOptions (leaveCursors run.cursors opts)).handle = some h := by
          rw [hleft]
          exact hhandle
        simp only [Scans, hhandle']
        rw [hleft]
        exact Iff.rfl
      have hneg : (applyOptions opts).settings.batch < 0 → run.cursors = cursors := by
        intro hneg
        have hround : (applyOptions opts).settings.round (db h) cb ⟨cursors, 0, []⟩ =
            .done ⟨.panic, [], cursors⟩ := if_pos hneg
        rw [(ends_done_iff hround).mp hend]
      simp only [hscans]
      rw [hstart]
      exact batches_eq_iff (ha h hhandle) (batch_ne_zero _) (by rw [hstart]) (sameRest_of_ends hend)
        hend hneg

end

/-- One row, scanned from the default cursor. -/
theorem default_cursor_repeats :
    Scans (oneFieldDb [oneField "ID" 1]) (fun _ _ => true) [.use "main".toList]
        ⟨.finished, [[oneField "ID" 1]], [1]⟩ ∧
      ∃ run', Scans (oneFieldDb [oneField "ID" 1]) (fun _ _ => true)
        (leaveCursors [1] [.use "main".toList]) run' ∧ run'.batches = [[oneField "ID" 1]] := by
  have hcol : ScansColumn (oneFieldTable [oneField "ID" 1]) (oneFieldDb [oneField "ID" 1])
      [.use "main".toList] "id".toList 0 :=
    ⟨⟨_, rfl, oneFieldTable_serves _ _⟩, rfl, rfl, rfl, rfl, by decide, by decide, by decide⟩
  have hrun : Scans (oneFieldDb [oneField "ID" 1]) (fun _ _ => true) [.use "main".toList]
      ⟨.finished, [[oneField "ID" 1]], [1]⟩ := by
    refine .done ?_
    simp only [ScanSettings.round, oneFieldDb, oneRow_select]
    rfl
  exact ⟨hrun, (scan_repeats_iff (fun h _ => hcol.answers (oneFieldTable_serves _ h)) hrun).mpr
    (.inl rfl)⟩

/-- A scan by the `ID`, with a start cursor. -/
def fromZero : List (ScanOpt Int Empty Empty) :=
  [.use "main".toList, .cursor (some (.text "id > ?".toList)) ["id".toList] (some [0])]

/-- One row, scanned from an explicit start.  The second scan delivers nothing. -/
theorem start_cursor_moved :
    Scans (oneFieldDb [oneField "ID" 1]) (fun _ _ => true) fromZero
        ⟨.finished, [[oneField "ID" 1]], [1]⟩ ∧
      ∀ run', Scans (oneFieldDb [oneField "ID" 1]) (fun _ _ => true) (leaveCursors [1] fromZero)
        run' → run'.batches = [] := by
  constructor
  · refine .done ?_
    simp only [ScanSettings.round, oneFieldDb, oneRow_select]
    rfl
  · intro run' hrun'
    have hround : (applyOptions (leaveCursors [1] fromZero)).settings.round
        (oneFieldDb [oneField "ID" 1] (.use "main".toList [])) (fun _ _ => true)
        (applyOptions (leaveCursors [1] fromZero)).settings.start = .done ⟨.finished, [], [1]⟩ := by
      simp only [ScanSettings.round, oneFieldDb, oneRow_select]
      rfl
    rw [(ends_done_iff hround).mp hrun']

end Gofusion.Db
