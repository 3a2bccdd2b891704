import Gofusion.Kv.Basic

/-!
# etcd

The pagination of `kv/etcd.go`.  A page is a range of the keys in byte order.  It begins at the
successor of the last key, that is the key with a zero byte behind it.  With a cursor, `Paginate`
appends a zero byte to the cursor, which is a successor already.

The server keeps its keys in byte order and refuses a `Get` without a key, as it is sent for the
empty pattern.  Page sizes are positive.
-/

namespace Gofusion.Kv

open Gofusion.Lib

/-- The keys on a server, in byte order, with their values. -/
structure EtcdStore where
  keys : List (List UInt8)
  sorted : keys.Pairwise (· < ·)
  value : List UInt8 → List UInt8 := id

/-- `clientv3.GetPrefixRangeEnd`, `none` where there is no end. -/
def prefixRangeEnd : List UInt8 → Option (List UInt8)
  | [] => none
  | b :: bs =>
    match prefixRangeEnd bs with
    | some stop => some (b :: stop)
    | none => if b < 255 then some [b + 1] else none

def inRange (start : List UInt8) (stop : Option (List UInt8)) (key : List UInt8) : Bool :=
  !decide (key < start) && (stop.elim true fun stop => key < stop)

structure EtcdPagination where
  count : Nat
  opt : Options := {}
  more : Bool := true
  key : List UInt8
  stop : Option (List UInt8)

namespace EtcdPagination

/-- `Paginate`, with the cursor to start from if there is one. -/
def paginate (pattern : List UInt8) (pageSize : Nat) (opt : Options)
    (cursor : Option (List UInt8)) : EtcdPagination where
  count := pageSize
  opt
  key := if cursor.getD [] = [] then pattern else cursor.getD [] ++ [0]
  stop := prefixRangeEnd pattern

def setPageSize (s : EtcdPagination) (pageSize : Nat) : EtcdPagination := { s with count := pageSize }

variable (store : EtcdStore)

def pending (s : EtcdPagination) : List (List UInt8) := store.keys.filter (inRange s.key s.stop)

def next (s : EtcdPagination) (time : Nat) : Page (List UInt8) EtcdPagination :=
  if s.key = [] then
    { err := some (.transport "etcdserver: key is not provided".toList), state := s, time := time + 1 }
  else
    let found := store.keys.filter (inRange s.key s.stop)
    let keys := found.take s.count
    { kvs := keys.map fun key => ⟨key, if s.opt.withKeysOnly then none else some (store.value key)⟩
      state := { s with
        more := s.count < found.length
        key := match keys.getLast? with
          | some last => last ++ [0]
          | none => s.key }
      time := time + 1 }

/-- `SetPageSize`, and `Next` while there is more. -/
def pages (sizes : List Nat) (s : EtcdPagination) : List (List (List UInt8)) × EtcdPagination :=
  run more (fun size s time => (s.setPageSize size).next store time) sizes s 0

end EtcdPagination

/-! ## Byte order -/

/-- There is no key between a key and its successor. -/
theorem lt_snoc_zero (l k : List UInt8) : k < l ++ [0] ↔ ¬l < k := by
  induction l generalizing k with
  | nil => cases k <;> simp [List.cons_lt_cons_iff, -List.not_lt]
  | cons b l ih =>
    cases k with
    | nil => simp
    | cons c k =>
      simp only [List.cons_append, List.cons_lt_cons_iff, ih]
      grind

/-- The range of a pattern has the keys that begin with it. -/
theorem inRange_iff_starts (pattern k : List UInt8) :
    inRange pattern (prefixRangeEnd pattern) k = true ↔ pattern <+: k := by
  induction pattern generalizing k with
  | nil => simp [inRange, prefixRangeEnd]
  | cons b bs ih =>
    cases k with
    | nil => simp [inRange]
    | cons c k =>
      rw [List.cons_prefix_cons, ← ih k, prefixRangeEnd]
      cases prefixRangeEnd bs with
      | none =>
        have hc := c.toNat_lt
        by_cases hb : b < 255
        · have hnext : c < b + 1 ↔ c ≤ b := by
            rw [UInt8.lt_iff_toNat_lt] at hb ⊢
            rw [UInt8.le_iff_toNat_le, UInt8.toNat_add]
            simp at hb ⊢
            omega
          simp [inRange, hb, List.cons_lt_cons_iff, -List.not_lt, hnext]
          grind
        · have hle : c ≤ b := by
            rw [UInt8.lt_iff_toNat_lt] at hb
            rw [UInt8.le_iff_toNat_le]
            simp at hb
            omega
          simp [inRange, hb, List.cons_lt_cons_iff, -List.not_lt]
          grind
      | some stop =>
        simp [inRange, List.cons_lt_cons_iff, -List.not_lt]
        grind

namespace EtcdPagination

variable (store : EtcdStore)

/-- In a sorted list, what is behind the first keys is what is greater than the last of them. -/
theorem filter_lt_getLast {l : List (List UInt8)} (hl : l.Pairwise (· < ·))
    (h : (l.take n).getLast? = some last) :
    l.filter (fun k => decide (last < k)) = l.drop n := by
  obtain ⟨front, htake⟩ := List.getLast?_eq_some_iff.mp h
  rw [← List.take_append_drop n l, List.pairwise_append, htake, List.pairwise_append] at hl
  obtain ⟨⟨-, -, hfront⟩, -, hback⟩ := hl
  nth_rewrite 1 [← List.take_append_drop n l]
  rw [htake, List.filter_append, List.filter_append, List.filter_eq_nil_iff.mpr,
    List.filter_eq_nil_iff.mpr, List.filter_eq_self.mpr]
  · rfl
  · exact fun k hk => decide_eq_true (hback last (by simp) k hk)
  · simp
  · exact fun k hk hlt => List.lt_asymm (hfront k hk last (by simp)) (of_decide_eq_true hlt)

/-- A pagination of a pattern that is not empty, as `Next` keeps it: it is behind the pattern, and
what it has left is empty when there is no more. -/
structure Within (pattern : List UInt8) (s : EtcdPagination) : Prop where
  stop : s.stop = prefixRangeEnd pattern
  starts : pattern <+: s.key
  ne_nil : pattern ≠ []
  done : s.more = false → s.pending store = []

variable {store} {pattern : List UInt8} {s : EtcdPagination}

theorem Within.key_ne_nil (h : s.Within store pattern) : s.key ≠ [] := fun hnil =>
  h.ne_nil (List.prefix_nil.mp (hnil ▸ h.starts))

variable (store) in
/-- A page leaves what is behind its keys. -/
theorem pending_next (hs : s.key ≠ []) (size time : Nat) :
    ((s.setPageSize size).next store time).state.pending store = (s.pending store).drop size := by
  have hsorted : (s.pending store).Pairwise (· < ·) := store.sorted.filter _
  simp only [next, setPageSize, if_neg hs, ← pending.eq_1]
  cases hlast : ((s.pending store).take size).getLast? with
  | none =>
    have hnil := List.getLast?_eq_none_iff.mp hlast
    rcases List.take_eq_nil_iff.mp hnil with rfl | hnil
    · rfl
    · simp only [pending] at hnil
      simp [pending, hnil]
  | some last =>
    have hmem : last ∈ s.pending store := List.mem_of_mem_take (List.mem_of_getLast? hlast)
    obtain ⟨-, hrange⟩ := List.mem_filter.mp hmem
    rw [← filter_lt_getLast hsorted hlast, pending, pending, List.filter_filter]
    refine List.filter_congr fun k _ => ?_
    have hle : last < k → ¬k < s.key := fun h h' => by
      simp [inRange, List.lt_trans h h'] at hrange
    by_cases h : last < k
    · simp [inRange, lt_snoc_zero, h, hle h]
    · simp [inRange, lt_snoc_zero, h]

/-- The stored keys behind a pagination begin with the pattern. -/
theorem Within.starts_of_pending (h : s.Within store pattern) {k : List UInt8}
    (hk : k ∈ s.pending store) : pattern <+: k := by
  obtain ⟨-, hrange⟩ := List.mem_filter.mp hk
  rw [← inRange_iff_starts]
  rw [inRange, Bool.and_eq_true, h.stop] at hrange
  have hpattern := (inRange_iff_starts pattern s.key).mpr h.starts
  simp only [inRange, Bool.and_eq_true, Bool.not_eq_true', decide_eq_false_iff_not] at hpattern hrange ⊢
  exact ⟨fun hlt => hpattern.1 (List.lt_of_le_of_lt hrange.1 hlt), hrange.2⟩

variable (store) in
/-- Every page is the next part of what is pending. -/
theorem walks (pattern : List UInt8) :
    Walks more (fun size s time => (s.setPageSize size).next store time) (fun _ => [])
      (pending store) (Within store pattern) True where
  done s hs hmore := hs.done hmore
  next size s time hs := by
    have hne := hs.key_ne_nil
    have hpending := pending_next store hne size time
    have hmore : ((s.setPageSize size).next store time).state.more =
        decide (size < (s.pending store).length) := by
      rw [next, if_neg (show (s.setPageSize size).key ≠ [] from hne)]
      rfl
    refine ⟨⟨?_, ?_, hs.ne_nil, ?_⟩, ?_, size, Nat.le_refl _, ?_, ?_, fun _ => rfl⟩
    · simp [next, setPageSize, hne, hs.stop]
    · rw [next, if_neg (show (s.setPageSize size).key ≠ [] from hne)]
      dsimp only
      split
      · next last hlast =>
        have hmem := List.mem_of_mem_take (List.mem_of_getLast? hlast)
        exact (hs.starts_of_pending hmem).trans (List.prefix_append _ _)
      · exact hs.starts
    · rw [hpending, hmore, List.drop_eq_nil_iff]
      simp
    · rw [hpending, hmore, List.drop_eq_nil_iff]
      simp
    · simp [sweep_along, next, Page.keys, setPageSize, hne, pending, Function.comp_def]
    · rw [hpending, iterate_advance_along]

theorem pending_paginate (store : EtcdStore) (pattern : List UInt8) (pageSize : Nat) (opt : Options) :
    (paginate pattern pageSize opt none).pending store =
      store.keys.filter (pattern.isPrefixOf ·) :=
  List.filter_congr fun k _ => by
    rw [Bool.eq_iff_iff, List.isPrefixOf_iff_prefix]
    exact inRange_iff_starts pattern k

theorem within_paginate (hpattern : pattern ≠ []) (pageSize : Nat) (opt : Options) :
    (paginate pattern pageSize opt none).Within store pattern :=
  ⟨rfl, List.prefix_rfl, hpattern, by simp [paginate]⟩

theorem Within.resumed (h : s.Within store pattern) (pageSize : Nat) (opt : Options) :
    (paginate pattern pageSize opt (some s.key)).Within store pattern :=
  ⟨rfl, by simp [paginate, h.key_ne_nil, h.starts.trans (List.prefix_append _ _)], h.ne_nil,
    by simp [paginate]⟩

/-- A resumed pagination has left what the other one has left, without the cursor. -/
theorem Within.pending_resumed (h : s.Within store pattern) (pageSize : Nat) (opt : Options) :
    (paginate pattern pageSize opt (some s.key)).pending store =
      (s.pending store).filter (· ≠ s.key) := by
  rw [pending, pending, List.filter_filter]
  refine List.filter_congr fun k _ => ?_
  have hlt : s.key < k ↔ k ≠ s.key ∧ ¬k < s.key :=
    ⟨fun h => ⟨fun heq => List.lt_irrefl k (heq ▸ h), List.lt_asymm h⟩,
      fun h => by_contra fun h' => h.1 (List.le_antisymm h' h.2)⟩
  simp [paginate, h.key_ne_nil, h.stop, inRange, lt_snoc_zero, hlt, Bool.and_assoc]

/-- A cursor that is a stored key is not delivered yet. -/
theorem Within.key_mem_pending (h : s.Within store pattern) :
    s.key ∈ s.pending store ↔ s.key ∈ store.keys := by
  have hpattern := (inRange_iff_starts pattern s.key).mpr h.starts
  simp only [inRange, Bool.and_eq_true] at hpattern
  simp [pending, inRange, h.stop, hpattern.2]

/-- Without a key no call is answered, and there is always more. -/
theorem pages_refused (hs : s.key = []) (sizes : List Nat) : (pages store sizes s).2.key = [] ∧
    (s.more = true → (pages store sizes s).2.more = true) := by
  unfold pages
  generalize 0 = time
  induction sizes generalizing s time with
  | nil => exact ⟨hs, id⟩
  | cons size sizes ih =>
    rw [run]
    split
    · simpa [next, setPageSize, hs] using ih (s := { s with count := size }) hs (time + 1)
    · exact ⟨hs, id⟩

end EtcdPagination

/-- A pagination that is resumed ends and delivers what the other one has not delivered, in
ascending order, exactly if the pattern is not empty and the cursor is not a stored key. -/
theorem etcd_resumed_iff (store : EtcdStore) (pattern : List UInt8) (pageSize pageSize' : Nat)
    (opt opt' : Options) (sizes sizes' : List Nat) (hpos : ∀ size ∈ sizes', 0 < size)
    (hlong : store.keys.length < sizes'.length) :
    let r := EtcdPagination.pages store sizes (.paginate pattern pageSize opt none)
    let r' := EtcdPagination.pages store sizes' (.paginate pattern pageSize' opt' (some r.2.key))
    (r'.2.more = false ∧
        r.1.flatten ++ r'.1.flatten = store.keys.filter (pattern.isPrefixOf ·)) ↔
      pattern ≠ [] ∧ r.2.key ∉ store.keys := by
  intro r r'
  by_cases hpattern : pattern = []
  · -- both paginations ask without a key
    have hkey : r.2.key = [] := (EtcdPagination.pages_refused (by simp [EtcdPagination.paginate, hpattern]) _).1
    have hmore : r'.2.more = true :=
      (EtcdPagination.pages_refused (by simp [EtcdPagination.paginate, hpattern, hkey]) _).2 rfl
    simp [hpattern, hmore]
  · have h := EtcdPagination.walks store pattern
    obtain ⟨k, hwithin, hkeys, hpending, -, -⟩ := h.run sizes (.paginate pattern pageSize opt none) 0
      (EtcdPagination.within_paginate hpattern pageSize opt)
    have hresumed := hwithin.pending_resumed pageSize' opt'
    obtain ⟨hdone, hrest, -⟩ := h.complete trivial hpos 0 (hwithin.resumed pageSize' opt') (by
      rw [EtcdPagination.pending]
      exact Nat.lt_of_le_of_lt (List.length_filter_le _ _) hlong)
    rw [sweep_along, EtcdPagination.pending_paginate] at hkeys
    rw [iterate_advance_along, EtcdPagination.pending_paginate] at hpending
    have hall : r.1.flatten ++ r.2.pending store = store.keys.filter (pattern.isPrefixOf ·) :=
      (congrArg₂ (· ++ ·) hkeys hpending).trans (List.take_append_drop k _)
    have hsame : r'.1.flatten = (r.2.pending store).filter (· ≠ r.2.key) := hrest.trans hresumed
    have hmem : r.2.key ∈ r.2.pending store ↔ r.2.key ∈ store.keys := hwithin.key_mem_pending
    rw [← hall, hsame, List.append_cancel_left_eq, List.filter_eq_self, ← hmem]
    simp only [hpattern, ne_eq, not_false_eq_true, true_and, decide_eq_true_eq]
    exact ⟨fun h hcursor => h.2 _ hcursor rfl, fun h => ⟨hdone, fun a ha heq => h (heq ▸ ha)⟩⟩

/-- Three keys, one of them the successor of another. -/
def threeKeys : EtcdStore where
  keys := [[1], [1, 0], [1, 1]]
  sorted := by decide

theorem etcd_resumed_threeKeys :
    let r := EtcdPagination.pages threeKeys [2] (.paginate [1] 2 {} none)
    let r' := EtcdPagination.pages threeKeys [1, 1, 1, 1] (.paginate [1] 1 {} (some r.2.key))
    (r'.2.more = false ∧
        r.1.flatten ++ r'.1.flatten = threeKeys.keys.filter ([1].isPrefixOf ·)) ↔
      [(1 : UInt8)] ≠ [] ∧ r.2.key ∉ threeKeys.keys :=
  etcd_resumed_iff threeKeys [1] 2 1 {} {} [2] [1, 1, 1, 1] (by decide) (by decide)

/-- Resumed behind the first key, the pagination leaves out the second one, which is the cursor. -/
theorem etcd_resumed_skips_cursor :
    let r := EtcdPagination.pages threeKeys [1] (.paginate [1] 1 {} none)
    let r' := EtcdPagination.pages threeKeys [1, 1, 1, 1] (.paginate [1] 1 {} (some r.2.key))
    r.1.flatten = [[1]] ∧ r'.2.more = false ∧ r'.1.flatten = [[1, 1]] := by
  decide

/-- The pages of an undisturbed pagination fit, and together they are the keys with the prefix. -/
theorem etcd_pages_complete (store : EtcdStore) (pattern : List UInt8) (pageSize : Nat)
    (opt : Options) (sizes : List Nat) (hpattern : pattern ≠ []) (hpos : ∀ size ∈ sizes, 0 < size)
    (hlong : store.keys.length < sizes.length) :
    let r := EtcdPagination.pages store sizes (.paginate pattern pageSize opt none)
    r.2.more = false ∧ r.1.flatten = store.keys.filter (pattern.isPrefixOf ·) ∧
      ∀ p ∈ r.1.zip sizes, p.1.length ≤ p.2 := by
  rw [← EtcdPagination.pending_paginate store pattern pageSize opt]
  refine (EtcdPagination.walks store pattern).complete trivial hpos 0
    (EtcdPagination.within_paginate hpattern pageSize opt) ?_
  rw [EtcdPagination.pending_paginate]
  exact Nat.lt_of_le_of_lt (List.length_filter_le _ _) hlong

theorem etcd_pages_threeKeys :
    let r := EtcdPagination.pages threeKeys [1, 2, 1, 1] (.paginate [1] 1 {} none)
    r.2.more = false ∧ r.1.flatten = threeKeys.keys.filter ([1].isPrefixOf ·) ∧
      ∀ p ∈ r.1.zip [1, 2, 1, 1], p.1.length ≤ p.2 :=
  etcd_pages_complete threeKeys [1] 1 {} [1, 2, 1, 1] (by decide) (by decide) (by decide)

end Gofusion.Kv
