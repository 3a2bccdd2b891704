import Mathlib.Data.List.Basic
import Mathlib.Data.List.Nodup
import Mathlib.Order.Lattice

/-!
# Keysets

Rows in a fixed order, and for every key the rows behind it.  What is behind a key is an end of
the rows, so that a reader can go on from the last row it has seen if it knows a key of that row.
The rows are read in pages of one size.
-/

namespace Gofusion.Lib

variable {κ ρ : Type}

/-! ## Pages -/

def page (size : Nat) (rows : List ρ) (j : Nat) : List ρ := (rows.drop (j * size)).take size

def pages (size : Nat) (rows : List ρ) (j : Nat) : List (List ρ) := (List.range j).map (page size rows)

theorem pages_succ (size : Nat) (rows : List ρ) (j : Nat) :
    pages size rows (j + 1) = pages size rows j ++ [page size rows j] := by
  rw [pages, List.range_succ, List.map_append]
  rfl

theorem pages_flatten (size : Nat) (rows : List ρ) (j : Nat) :
    (pages size rows j).flatten = rows.take (j * size) := by
  induction j with
  | zero => rw [Nat.zero_mul, List.take_zero]; rfl
  | succ j ih =>
    rw [pages_succ, List.flatten_append, ih, List.flatten_singleton, Nat.succ_mul, List.take_add]
    rfl

/-! ## Keys -/

/-- Rows in an order, and the rows behind a key. -/
structure Keyset (κ ρ : Type) where
  rows : List ρ
  after : κ → List ρ
  suffix_rows : ∀ k, after k <:+ rows
  nodup : rows.Nodup

namespace Keyset

variable (K : Keyset κ ρ)

/-- A list without repetitions has no shorter end with the same first row. -/
theorem suffix_eq_of_nodup {l l' : List ρ} (hnodup : l'.Nodup) (h : l <:+ l')
    (hr : l.head? = some r) (hr' : l'.head? = some r) : l = l' := by
  obtain ⟨zs, rfl⟩ := h
  cases zs with
  | nil => rfl
  | cons z zs =>
    have hz : z = r := Option.some.inj hr'
    have hmem : z ∈ zs ++ l := List.mem_append_right zs (hz ▸ List.mem_of_head? hr)
    exact absurd hmem (List.nodup_cons.mp hnodup).1

theorem suffix_eq_of_head {rows l l' : List ρ} (hnodup : rows.Nodup) (h : l <:+ rows)
    (h' : l' <:+ rows) (hr : l.head? = some r) (hr' : l'.head? = some r) : l = l' := by
  rcases List.suffix_or_suffix_of_suffix h h' with hs | hs
  · exact suffix_eq_of_nodup (hnodup.sublist h'.sublist) hs hr hr'
  · exact (suffix_eq_of_nodup (hnodup.sublist h.sublist) hs hr' hr).symm

theorem after_eq_of_head {l : List ρ} (h : l <:+ K.rows)
    (hr : (K.after k).head? = some r) (hr' : l.head? = some r) : K.after k = l :=
  suffix_eq_of_head K.nodup (K.suffix_rows k) h hr hr'

theorem suffix_drop (n : Nat) : K.rows.drop n <:+ K.rows := List.drop_suffix n K.rows

/-- The keys that are read from the rows where a page ends lead to the next page.  The pages are
the ones from the `p`-th row on. -/
def SeparatesFrom (read : ρ → Option κ) (size p : Nat) : Prop :=
  ∀ i r, p ≤ i → K.rows[i]? = some r → size ∣ i + 1 ∨ i + 1 = K.rows.length →
    ∃ k, read r = some k ∧ (size ∣ i + 1 → K.after k = K.rows.drop (i + 1))

section

variable {K} {read : ρ → Option κ} {size p : Nat} {r : ρ}

theorem separatesFrom_of_length_le (h : K.rows.length ≤ p) : K.SeparatesFrom read size p := by
  intro i r hp hr
  rw [List.getElem?_eq_none (by omega)] at hr
  cases hr

theorem eq_of_dvd (hp : size ∣ p) (hn : size ∣ n) (hlt : p < n) (hle : n ≤ p + size) :
    n = p + size := by
  have hdvd : size ∣ n - p := Nat.dvd_sub hn hp
  have := Nat.le_of_dvd (by omega) hdvd
  omega

theorem getElem?_of_last (hp : p < K.rows.length) (hsize : 0 < size)
    (hr : ((K.rows.drop p).take size).getLast? = some r) :
    K.rows[min (p + size) K.rows.length - 1]? = some r := by
  rw [List.getLast?_eq_getElem?, List.length_take, List.length_drop, List.getElem?_take_of_lt
    (by omega), List.getElem?_drop] at hr
  rwa [show min (p + size) K.rows.length - 1 = p + (min size (K.rows.length - p) - 1) by omega]

/-- The last page is not full: a key has to be there. -/
theorem separatesFrom_short (hp : size ∣ p) (hlt : p < K.rows.length)
    (hshort : K.rows.length < p + size) (hr : ((K.rows.drop p).take size).getLast? = some r) :
    K.SeparatesFrom read size p ↔ ∃ k, read r = some k := by
  have hlast := getElem?_of_last hlt (by omega) hr
  rw [Nat.min_eq_right (by omega)] at hlast
  have hno : ∀ i, p ≤ i → i < K.rows.length → ¬size ∣ i + 1 := fun i hi hlen hdvd => by
    have := eq_of_dvd hp hdvd (by omega) (by omega)
    omega
  constructor
  · intro h
    obtain ⟨k, hk, -⟩ := h _ r (by omega) hlast (.inr (by omega))
    exact ⟨k, hk⟩
  · rintro ⟨k, hk⟩ i r' hi hr' hend
    obtain ⟨hlen, -⟩ := List.getElem?_eq_some_iff.mp hr'
    rcases hend with hend | hend
    · exact absurd hend (hno i hi hlen)
    · rw [show i = K.rows.length - 1 by omega, hlast] at hr'
      cases hr'
      exact ⟨k, hk, fun hdvd => absurd hdvd (hno i hi hlen)⟩

/-- A full page: its last row has a key that leads to the next page. -/
theorem separatesFrom_full (hp : size ∣ p) (hsize : 0 < size) (hfull : p + size ≤ K.rows.length)
    (hr : ((K.rows.drop p).take size).getLast? = some r) :
    K.SeparatesFrom read size p ↔
      (∃ k, read r = some k ∧ K.after k = K.rows.drop (p + size)) ∧
        K.SeparatesFrom read size (p + size) := by
  have hlast := getElem?_of_last (by omega) hsize hr
  rw [Nat.min_eq_left hfull] at hlast
  have hdvd : size ∣ p + size := (Nat.dvd_add_right hp).mpr (Nat.dvd_refl size)
  have hsucc : p + size - 1 + 1 = p + size := by omega
  constructor
  · intro h
    obtain ⟨k, hk, hafter⟩ := h _ r (by omega) hlast (.inl (by rwa [hsucc]))
    rw [hsucc] at hafter
    exact ⟨⟨k, hk, hafter hdvd⟩, fun i r' hi => h i r' (by omega)⟩
  · rintro ⟨⟨k, hk, hafter⟩, h⟩ i r' hi hr' hend
    obtain ⟨hlen, -⟩ := List.getElem?_eq_some_iff.mp hr'
    by_cases hnext : p + size ≤ i
    · exact h i r' hnext hr' hend
    · -- the page ends at its last row only
      have hi' : i + 1 = p + size := by
        rcases hend with hend | hend
        · exact eq_of_dvd hp hend (by omega) (by omega)
        · omega
      rw [show i = p + size - 1 by omega, hlast] at hr'
      cases hr'
      exact ⟨k, hk, fun _ => by rw [hi', hafter]⟩

end

end Keyset

/-! ## The order of a column -/

section

variable [LinearOrder κ] {key : ρ → κ}

theorem filter_suffix : ∀ {rows : List ρ}, rows.Pairwise (fun r r' => key r < key r') →
    rows.filter (fun r => k < key r) <:+ rows
  | [], _ => List.suffix_refl []
  | r :: rows, h => by
    rw [List.pairwise_cons] at h
    rw [List.filter_cons]
    split
    · next hk =>
      have hall : rows.filter (fun r => k < key r) = rows := by
        refine List.filter_eq_self.mpr fun r' hr' => ?_
        exact decide_eq_true (lt_trans (of_decide_eq_true hk) (h.1 r' hr'))
      simp only [hall, List.suffix_refl]
    · exact (filter_suffix h.2).trans (List.suffix_cons r rows)

theorem drop_eq_filter : ∀ {rows : List ρ} {i : Nat},
    rows.Pairwise (fun r r' => key r < key r') → rows[i]? = some r →
    rows.drop (i + 1) = rows.filter fun r' => key r < key r'
  | r₀ :: rows, 0, h, hr => by
    cases hr
    rw [List.pairwise_cons] at h
    rw [List.filter_cons, if_neg (by simp)]
    refine (List.filter_eq_self.mpr fun r' hr' => ?_).symm
    exact decide_eq_true (h.1 r' hr')
  | r₀ :: rows, i + 1, h, hr => by
    rw [List.pairwise_cons] at h
    have hlt : key r₀ < key r := h.1 r (List.mem_of_getElem? hr)
    rw [List.filter_cons, if_neg (by simpa using le_of_lt hlt)]
    exact drop_eq_filter h.2 hr

/-- A key leads to what is behind a row if and only if it is in the same place as the row. -/
theorem filter_eq_drop_iff {rows : List ρ}
    (h : rows.Pairwise fun r r' => key r < key r') (hr : rows[i]? = some r) :
    rows.filter (fun r' => k < key r') = rows.drop (i + 1) ↔
      ∀ r' ∈ rows, k < key r' ↔ key r < key r' := by
  rw [drop_eq_filter h hr]
  constructor
  · intro heq r' hr'
    have hmem : r' ∈ rows.filter (fun r' => k < key r') ↔
        r' ∈ rows.filter fun r' => key r < key r' := by rw [heq]
    simpa [List.mem_filter, hr'] using hmem
  · intro hiff
    exact List.filter_congr fun r' hr' => decide_eq_decide.mpr (hiff r' hr')

/-- The rows of a table in the order of a column. -/
def ordered (key : ρ → κ) (table : List ρ) : List ρ :=
  table.mergeSort fun r r' => decide (key r ≤ key r')

/-- Sorting keeps the rows. -/
theorem ordered_perm (key : ρ → κ) (table : List ρ) : (ordered key table).Perm table :=
  List.mergeSort_perm table _

theorem ordered_pairwise {table : List ρ} (h : table.Pairwise fun r r' => key r ≠ key r') :
    (ordered key table).Pairwise fun r r' => key r < key r' := by
  have htrans : ∀ a b c, decide (key a ≤ key b) = true → decide (key b ≤ key c) = true →
      decide (key a ≤ key c) = true := fun a b c hab hbc =>
    decide_eq_true (le_trans (of_decide_eq_true hab) (of_decide_eq_true hbc))
  have htotal : ∀ a b, (decide (key a ≤ key b) || decide (key b ≤ key a)) = true := fun a b => by
    simpa using le_total (key a) (key b)
  have hle := List.pairwise_mergeSort htrans htotal table
  have hne : (ordered key table).Pairwise fun r r' => key r ≠ key r' :=
    ((ordered_perm key table).pairwise_iff fun {_ _} h => Ne.symm h).mpr h
  exact (hle.and hne).imp fun ⟨hle, hne⟩ => lt_of_le_of_ne (of_decide_eq_true hle) hne

/-- The rows of a table in the ascending order of a column.  A key is a list with the value of
the column. -/
def Keyset.ofOrder (key : ρ → κ) (table : List ρ)
    (h : table.Pairwise fun r r' => key r ≠ key r') : Keyset (List κ) ρ where
  rows := ordered key table
  after
    | [k] => (ordered key table).filter fun r => k < key r
    | _ => []
  suffix_rows ks := by
    split
    · exact filter_suffix (ordered_pairwise h)
    · exact List.nil_suffix
  nodup := (ordered_pairwise h).imp fun {r r'} (hlt : key r < key r') (heq : r = r') => by
    rw [heq] at hlt
    exact lt_irrefl _ hlt

end

end Gofusion.Lib
