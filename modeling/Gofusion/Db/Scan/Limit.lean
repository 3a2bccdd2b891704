import Gofusion.Db.Scan.Enumeration

/-!
# The limit of a scan

The limit is compared when a batch has been delivered.  So a scan delivers whole batches: it stops
at the first multiple of the batch size that is not below the limit.
-/

namespace Gofusion.Db

open Gofusion.Lib

variable {V C D ε : Type}

/-- The callback does not want to go on after a page. -/
def Refuses (cb : ScanCallback V) (b : Nat) (rows : List (Reflected V)) (j : Nat) : Prop :=
  cb (pages b rows j) (page b rows j) = false

/-- The scan from the `j`-th page on stops before the `n`-th one: no page before the last
delivered one is refused or reaches the limit, and then the rows are over, or the last page is
refused or reaches the limit. -/
structure StopsAt (cb : ScanCallback V) (b : Nat) (rows : List (Reflected V)) (l j n : Nat) :
    Prop where
  le : j ≤ n
  before : ∀ i, j ≤ i → i + 1 < n → ¬Refuses cb b rows i ∧ (i + 1) * b < l
  stop : rows.length ≤ n * b ∨ j < n ∧ (Refuses cb b rows (n - 1) ∨ l ≤ n * b)

/-! ## The run -/

section

variable {find : Query V C → Except ε (List (Reflected V))} {cb : ScanCallback V}
  {o : ScanSettings V C} {K : Keyset (List V) (Reflected V)} {b l : Nat}
  (ha : Answers find o K) (hbatch : o.batch = b) (hb : 0 < b)
  (hwide : o.cursors.length = o.cursorColumns.length) (hlimit : o.limit = l)
include ha hbatch hb hwide hlimit

/-- A scan from the place of a page ends, and it stops where `StopsAt` says. -/
theorem ends_with_pages {cursors : List V} (hlen : cursors.length = o.cursors.length)
    (hs : K.after cursors = K.rows.drop (j * b)) (hsep : K.SeparatesFrom o.read b (j * b)) :
    ∃ n cursors', StopsAt cb b K.rows l j n ∧
      Ends (o.round find cb) ⟨cursors, (j * b : Nat), pages b K.rows j⟩
        ⟨.finished, pages b K.rows n, cursors'⟩ := by
  induction hn : K.rows.length - j * b using Nat.strongRecOn generalizing j cursors with
  | ind m ih =>
  by_cases hnil : K.rows.length ≤ j * b
  · have hdrop : K.rows.drop (j * b) = [] := List.drop_of_length_le hnil
    exact ⟨j, cursors, ⟨Nat.le_refl j, by omega, .inl hnil⟩,
      .done (round_empty ha hbatch hlen hs hdrop hb)⟩
  · have hne : K.rows.drop (j * b) ≠ [] := by simpa using hnil
    have hsucc : (j + 1) * b = j * b + b := Nat.succ_mul j b
    obtain ⟨row, hrow⟩ := getLast?_take_ne_none hb hne
    have hpages : pages b K.rows j ++ [(K.rows.drop (j * b)).take b] = pages b K.rows (j + 1) :=
      (pages_succ b K.rows j).symm
    cases hcb : cb (pages b K.rows j) ((K.rows.drop (j * b)).take b) with
    | false =>
      have hround := round_refused (s := ⟨cursors, (j * b : Nat), pages b K.rows j⟩) ha hbatch
        hlen hs hb hne hcb
      rw [hpages] at hround
      exact ⟨j + 1, cursors, ⟨by omega, by omega, .inr ⟨by omega, .inl hcb⟩⟩, .done hround⟩
    | true =>
      by_cases hfull : j * b + b ≤ K.rows.length
      · obtain ⟨⟨cursors', hread, hafter⟩, hsep'⟩ :=
          (Keyset.separatesFrom_full (Nat.dvd_mul_left b j) hb hfull hrow).mp hsep
        have htake : ((K.rows.drop (j * b)).take b).length = b := by
          rw [List.length_take, List.length_drop]
          omega
        by_cases hl : l ≤ (j + 1) * b
        · have hround := round_last (s := ⟨cursors, (j * b : Nat), pages b K.rows j⟩) ha hbatch
            hlen hs hcb hrow hread hwide (.inr (by rw [hlimit, htake]; simp only; omega))
          rw [hpages] at hround
          exact ⟨j + 1, cursors', ⟨by omega, by omega, .inr ⟨by omega, .inr hl⟩⟩, .done hround⟩
        · have hround := round_next (s := ⟨cursors, (j * b : Nat), pages b K.rows j⟩) ha hbatch
            hlen hs hcb hrow hread hwide (by rw [List.length_drop]; omega)
            (by rw [hlimit]; simp only; omega)
          have hcount : ((j * b : Nat) : Int) + b = ((j + 1) * b : Nat) := by rw [hsucc]; omega
          rw [hpages, hcount] at hround
          rw [← hsucc] at hafter hsep'
          obtain ⟨n, cursors'', hstop, hend⟩ := ih _ (by omega)
            ((read_length hread).trans hwide.symm) hafter hsep' rfl
          refine ⟨n, cursors'', ⟨by have := hstop.le; omega, fun i hi hin => ?_, ?_⟩,
            .next hround hend⟩
          · rcases Nat.eq_or_lt_of_le hi with rfl | hi
            · exact ⟨by rw [Refuses, page, hcb]; simp, by omega⟩
            · exact hstop.before i hi hin
          · rcases hstop.stop with hrows | ⟨hn, hstop⟩
            · exact .inl hrows
            · exact .inr ⟨by omega, hstop⟩
      · obtain ⟨cursors', hread⟩ :=
          (Keyset.separatesFrom_short (Nat.dvd_mul_left b j) (by omega) (by omega) hrow).mp hsep
        have hround := round_last (s := ⟨cursors, (j * b : Nat), pages b K.rows j⟩) ha hbatch
          hlen hs hcb hrow hread hwide (.inl (by rw [List.length_drop]; omega))
        rw [hpages] at hround
        exact ⟨j + 1, cursors', ⟨by omega, by omega, .inl (by omega)⟩, .done hround⟩

end

/-! ## The number of rows -/

theorem pages_length (b : Nat) (rows : List (Reflected V)) (n : Nat) :
    (pages b rows n).flatten.length = min (n * b) rows.length := by
  rw [pages_flatten, List.length_take]

/-- The limit is kept if and only if it is a multiple of the batch size, there are not more rows,
or the callback stops the scan below it. -/
theorem delivered_le_iff {rows : List (Reflected V)}
    (h : StopsAt cb b rows l 0 n) (hl : 1 ≤ l) :
    (min (n * b) rows.length ≤ l ∧
        ((∀ bs batch, cb bs batch = true) → min (n * b) rows.length = min l rows.length)) ↔
      b ∣ l ∨ rows.length ≤ l ∨ ∃ j, (j + 1) * b ≤ l ∧ Refuses cb b rows j := by
  have hbefore : ∀ m, n = m + 2 → (m + 1) * b < l := fun m hm =>
    (h.before m (Nat.zero_le m) (by omega)).2
  constructor
  · rintro ⟨hle, -⟩
    by_contra hno
    simp only [not_or, not_exists, not_and] at hno
    obtain ⟨hdvd, hrows, hrefuse⟩ := hno
    rcases h.stop with hstop | ⟨hn, hstop | hstop⟩
    · omega
    · have := mt (hrefuse (n - 1)) (not_not_intro hstop)
      rw [Nat.sub_add_cancel hn] at this
      omega
    · have hne : l ≠ n * b := fun heq => hdvd (heq ▸ Nat.dvd_mul_left b n)
      omega
  · rintro (⟨q, rfl⟩ | hrows | ⟨j, hj, hrefuse⟩)
    · have hle : n * b ≤ b * q := by
        rw [Nat.mul_comm b q]
        refine Nat.mul_le_mul_right b ?_
        rcases n with _ | _ | m
        · exact Nat.zero_le q
        · exact Nat.pos_of_mul_pos_left hl
        · have := hbefore m rfl
          rw [Nat.mul_comm b q] at this
          have := Nat.lt_of_mul_lt_mul_right this
          omega
      refine ⟨by omega, fun hcb => ?_⟩
      rcases h.stop with hstop | ⟨hn, hstop | hstop⟩
      · omega
      · rw [Refuses, hcb] at hstop
        cases hstop
      · omega
    · refine ⟨by omega, fun hcb => ?_⟩
      rcases h.stop with hstop | ⟨hn, hstop | hstop⟩
      · omega
      · rw [Refuses, hcb] at hstop
        cases hstop
      · omega
    · have hn : n ≤ j + 1 := by
        by_contra hlt
        exact (h.before j (Nat.zero_le j) (by omega)).1 hrefuse
      have hle : n * b ≤ (j + 1) * b := Nat.mul_le_mul_right b hn
      refine ⟨by omega, fun hcb => ?_⟩
      rw [Refuses, hcb] at hrefuse
      cases hrefuse

/-! ## Scans with a limit -/

section

variable [LinearOrder V] [Zero V] {t : Table V C}
  {db : Handle D → Query V C → Except ε (List (Reflected V))} {opts : List (ScanOpt V C D)}
  {col : Text} {start : V} {l : Nat}

/-- The number of rows that the callback has been given. -/
def ScanRun.rowCount (run : ScanRun V ε) : Nat := run.batches.flatten.length

/-- A scan by a column that can be read back delivers whole pages. -/
theorem scans_pages (h : ScansColumn t db opts col start)
    (hread : ReadsBack (t.select col (filterOf opts)) col (t.column col) (batchOf opts))
    (hlimit : (applyOptions opts).settings.limit = l) (cb : ScanCallback V) :
    ∃ n run, StopsAt cb (batchOf opts) (t.select col (filterOf opts)) l 0 n ∧
      run.rowCount = min (n * batchOf opts) (t.select col (filterOf opts)).length ∧
      ∀ run', Scans db cb opts run' ↔ run' = run := by
  obtain ⟨hd, hhandle, hserve⟩ := h.served
  have hstart : h.keyset.after [start] = h.keyset.rows.drop (0 * batchOf opts) := by
    rw [Nat.zero_mul]
    exact h.after_start
  have hsep : h.keyset.SeparatesFrom (applyOptions opts).settings.read (batchOf opts)
      (0 * batchOf opts) := by
    rw [Nat.zero_mul]
    exact h.separates_iff.mpr hread
  have hb : 0 < batchOf opts := by
    have := h.batch
    rw [batchOf]
    omega
  obtain ⟨n, cursors', hstop, hend⟩ := @ends_with_pages _ _ _ _ cb _ _ _ _ (h.answers hserve)
    h.batch_eq hb (by rw [h.cursors, h.columns]; rfl) hlimit 0 _ (by rw [h.cursors]) hstart hsep
  have hstate : (applyOptions opts).settings.start =
      ⟨[start], (0 * batchOf opts : Nat), pages (batchOf opts) h.keyset.rows 0⟩ := by
    rw [ScanSettings.start, h.cursors, Nat.zero_mul]
    rfl
  refine ⟨n, ⟨.finished, pages (batchOf opts) h.keyset.rows n, cursors'⟩, hstop,
    pages_length _ _ n, fun run' => ?_⟩
  simp only [Scans, hhandle, hstate]
  exact ⟨fun hrun => hrun.unique hend, fun hrun => hrun ▸ hend⟩

/-- A scan delivers at most as many rows as its limit says, and just as many or all of them if the
callback is willing, if and only if the limit is a multiple of the batch size, there are not
more rows, or the callback stops the scan below the limit. -/
theorem scan_keeps_limit_iff (h : ScansColumn t db opts col start)
    (hread : ReadsBack (t.select col (filterOf opts)) col (t.column col) (batchOf opts))
    (hl : 1 ≤ l) (hlimit : (applyOptions opts).settings.limit = l) (cb : ScanCallback V) :
    (∃ run, Scans db cb opts run ∧ run.rowCount ≤ l ∧ ((∀ bs batch, cb bs batch = true) →
        run.rowCount = min l (t.select col (filterOf opts)).length)) ↔
      batchOf opts ∣ l ∨ (t.select col (filterOf opts)).length ≤ l ∨
        ∃ j, (j + 1) * batchOf opts ≤ l ∧
          Refuses cb (batchOf opts) (t.select col (filterOf opts)) j := by
  obtain ⟨n, run, hstop, hcount, hrun⟩ := scans_pages h hread hlimit cb
  rw [← delivered_le_iff hstop hl, ← hcount]
  constructor
  · rintro ⟨run', hscan, hle, heq⟩
    rw [(hrun run').mp hscan] at hle heq
    exact ⟨hle, heq⟩
  · rintro ⟨hle, heq⟩
    exact ⟨run, (hrun run).mpr rfl, hle, heq⟩

end

def scanTwo (batch limit : Int) : List (ScanOpt Int Empty Empty) :=
  [.use "main".toList, .batch batch, .limit limit]

theorem scanTwo_scansColumn (hbatch : 1 ≤ batch) (limit : Int) :
    ScansColumn (oneFieldTable [oneField "ID" 1, oneField "ID" 2])
      (oneFieldDb [oneField "ID" 1, oneField "ID" 2]) (scanTwo batch limit) "id".toList 0 := by
  have hset : (applyOptions (scanTwo batch limit)).settings.batch = batch := if_neg (by
    simp only [scanTwo, applyOptions, List.foldl, ScanOption.apply]
    omega)
  exact ⟨⟨_, rfl, oneFieldTable_serves _ _⟩, rfl, rfl, rfl, rfl, by rw [hset]; exact hbatch,
    by decide, by decide⟩

theorem twoRows_select (c : Option (Clause Empty × List Int)) (col : Text) :
    (oneFieldTable [oneField "ID" 1, oneField "ID" 2]).select col c =
      [oneField "ID" 1, oneField "ID" 2] := by
  have hpair : [oneField "ID" 1, oneField "ID" 2].Pairwise fun r r' =>
      decide (onlyValue r ≤ onlyValue r') = true := by decide
  exact List.mergeSort_of_pairwise hpair

/-- Batches of one and the limit one: one row. -/
theorem one_of_two_rows :
    ∃ run, Scans (oneFieldDb [oneField "ID" 1, oneField "ID" 2]) (fun _ _ => true) (scanTwo 1 1)
      run ∧ run.rowCount = 1 := by
  have h := scanTwo_scansColumn (show (1 : Int) ≤ 1 by decide) 1
  obtain ⟨run, hrun, -, hcount⟩ := (scan_keeps_limit_iff h
    (readsBack_of_column fun r hr => by
      rw [twoRows_select] at hr
      simp only [List.mem_cons, List.not_mem_nil, or_false] at hr
      rcases hr with rfl | rfl
      · rfl
      · rfl)
    (by decide : 1 ≤ 1) rfl (fun _ _ => true)).mpr (.inl (Nat.dvd_refl 1))
  exact ⟨run, hrun, by rw [hcount fun _ _ => rfl, twoRows_select]; rfl⟩

/-- Batches of two and the limit one: the callback gets two rows. -/
theorem two_rows_for_limit_one :
    ScansColumn (oneFieldTable [oneField "ID" 1, oneField "ID" 2])
        (oneFieldDb [oneField "ID" 1, oneField "ID" 2]) (scanTwo 2 1) "id".toList 0 ∧
      (applyOptions (scanTwo 2 1)).settings.limit = 1 ∧
      ∀ run, Scans (oneFieldDb [oneField "ID" 1, oneField "ID" 2]) (fun _ _ => true) (scanTwo 2 1)
        run → run.rowCount = 2 := by
  refine ⟨scanTwo_scansColumn (by decide) 1, rfl, fun run hrun => ?_⟩
  have hround : (applyOptions (scanTwo 2 1)).settings.round
      (oneFieldDb [oneField "ID" 1, oneField "ID" 2] (.use "main".toList [])) (fun _ _ => true)
      (applyOptions (scanTwo 2 1)).settings.start =
        .done ⟨.finished, [[oneField "ID" 1, oneField "ID" 2]], [2]⟩ := by
    simp only [ScanSettings.round, oneFieldDb, twoRows_select]
    rfl
  rw [(ends_done_iff hround).mp hrun]
  rfl

end Gofusion.Db
