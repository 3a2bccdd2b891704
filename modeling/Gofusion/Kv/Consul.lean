import Gofusion.Kv.Zk

/-!
# Consul

The pagination of `kv/consul.go`.  `Paginate` asks for all keys with the prefix at once, and `Next`
gets the values one by one.

A page of Consul or ZooKeeper that fails can be asked for again, and the caller keeps what it got.
-/

namespace Gofusion.Kv

open Gofusion.Lib

/-- The client.  What `Get` returns depends on the time. -/
structure ConsulConn where
  keys : Text → Except Err (List Text)
  get : Nat → Text → Except Err (Option Text)

structure ConsulPagination where
  count : Nat
  opt : Options := {}
  err : Option Err := none
  keys : List Text := []
  cursor : Nat := 0

namespace ConsulPagination

variable (c : ConsulConn)

def paginate (pattern : Text) (pageSize : Nat) (opt : Options) (cursor : Option Nat) :
    ConsulPagination :=
  match c.keys pattern with
  | .error e => { count := pageSize, opt, err := some e, cursor := cursor.getD 0 }
  | .ok keys => { count := pageSize, opt, keys, cursor := cursor.getD 0 }

def setPageSize (s : ConsulPagination) (pageSize : Nat) : ConsulPagination :=
  { s with count := pageSize }

def more (s : ConsulPagination) : Bool := s.err.isNone && s.cursor < s.keys.length

/-- The loop of `Next`. -/
def turn : Nat → ConsulPagination → Nat → Page Text ConsulPagination
  | 0, s, time => { state := s, time }
  | cnt + 1, s, time =>
    match s.keys[s.cursor]? with
    | none => { state := s, time }
    | some key =>
      -- the cursor moves before the value is there
      let s := { s with cursor := s.cursor + 1 }
      if s.opt.withKeysOnly then (turn cnt s (time + 1)).cons ⟨key, none⟩
      else
        match c.get time key with
        | .error e => { err := some e, state := s, time := time + 1 }
        | .ok none => turn cnt s (time + 1)
        | .ok (some val) => (turn cnt s (time + 1)).cons ⟨key, some val⟩

def next (s : ConsulPagination) (time : Nat) : Page Text ConsulPagination :=
  match s.err with
  | some e => { err := some e, state := s, time }
  | none => turn c s.count s time

/-- `SetPageSize`, and `Next` while there is more. -/
def pages (sizes : List Nat) (s : ConsulPagination) (time : Nat) :
    List (List Text) × ConsulPagination :=
  run more (fun size s time => (s.setPageSize size).next c time) sizes s time

def pending (s : ConsulPagination) : List Text := s.keys.drop s.cursor

variable {c}

/-- A page takes the next keys. -/
theorem turn_spec (cnt : Nat) (s : ConsulPagination) (time : Nat)
    (hget : s.opt.withKeysOnly = true ∨ ∀ time, ∀ key ∈ s.keys, ∃ v, c.get time key = .ok (some v)) :
    (turn c cnt s time).keys = sweep (fun _ => []) cnt s.pending ∧
      (turn c cnt s time).state.pending = (advance fun _ => [])^[cnt] s.pending ∧
      ((turn c cnt s time).state.opt = s.opt ∧ (turn c cnt s time).state.keys = s.keys ∧
        (turn c cnt s time).state.err = s.err) := by
  induction cnt generalizing s time with
  | zero => exact ⟨rfl, rfl, rfl, rfl, rfl⟩
  | succ cnt ih =>
    cases hkey : s.keys[s.cursor]? with
    | none =>
      have hnil : s.pending = [] := List.drop_eq_nil_of_le (List.getElem?_eq_none_iff.mp hkey)
      simp [turn, hkey, hnil, Page.keys]
    | some key =>
      obtain ⟨hlt, hmem⟩ := List.getElem?_eq_some_iff.mp hkey
      have hcons : s.pending = key :: s.keys.drop (s.cursor + 1) :=
        hmem ▸ List.drop_eq_getElem_cons hlt
      obtain ⟨hkeys, hpending, hsame⟩ :=
        ih { s with cursor := s.cursor + 1 } (time + 1) hget
      have hstep : ∃ val, turn c (cnt + 1) s time =
          (turn c cnt { s with cursor := s.cursor + 1 } (time + 1)).cons ⟨key, val⟩ := by
        cases honly : s.opt.withKeysOnly with
        | true => exact ⟨none, by simp [turn, hkey, honly]⟩
        | false =>
          obtain ⟨v, hv⟩ := (hget.resolve_left (by simp [honly])) time key
            (hmem ▸ List.getElem_mem hlt)
          exact ⟨some v, by simp [turn, hkey, honly, hv]⟩
      obtain ⟨val, hstep⟩ := hstep
      rw [hstep, hcons]
      refine ⟨?_, ?_, hsame⟩
      · rw [Page.keys_cons, hkeys, sweep, List.append_nil]
        rfl
      · rw [Page.state_cons, hpending, Function.iterate_succ_apply, advance, List.append_nil]
        rfl

/-- Every page is the next part of the keys. -/
theorem walks (keys : List Text) (opt : Options)
    (hget : opt.withKeysOnly = true ∨ ∀ time, ∀ key ∈ keys, ∃ v, c.get time key = .ok (some v)) :
    Walks more (fun size s time => (s.setPageSize size).next c time) (fun _ => []) pending
      (fun s => s.opt = opt ∧ s.keys = keys ∧ s.err = none) True where
  done s hs hmore := by simpa [more, hs.2.2, pending] using hmore
  next size s time hs := by
    obtain ⟨rfl, rfl, herr⟩ := hs
    have hnext : (s.setPageSize size).next c time = turn c size (s.setPageSize size) time := by
      simp [next, setPageSize, herr]
    obtain ⟨hkeys, hpending, hopt, hsame, herr'⟩ := turn_spec size (s.setPageSize size) time hget
    simp only [hnext]
    exact ⟨⟨hopt, hsame, herr'.trans herr⟩, fun hnil => by
      simpa [more] using fun _ => List.drop_eq_nil_iff.mp hnil, size, Nat.le_refl _, hkeys, hpending, fun _ => rfl⟩

end ConsulPagination

/-- If ZooKeeper lists the children of every path that has some, and Consul lists the keys and gets
their values, pages that fail are made up for by the next ones. -/
theorem pages_retried (z : ZkConn) (N : Names) (t : Lib.Tree Text) (c : ConsulConn) (pattern : Text)
    (keys : List Text) (opt : Options) (pageSize : Nat) (sizes : List Nat)
    (ht : t.Unfolds N.kids) (hlists : ∀ p ∈ t.labels, z.Lists N p)
    (hkeys : c.keys pattern = .ok keys)
    (hget : opt.withKeysOnly = true ∨ ∀ time, ∀ key ∈ keys, ∃ v, c.get time key = .ok (some v)) :
    let zk := ZkPagination.pages z sizes (.paginate t.label pageSize opt none) 0
    let consul := ConsulPagination.pages c sizes (.paginate c pattern pageSize opt none) 0
    (zk.2.more = false → zk.1.flatten.Perm t.labels ∧ zk.1.flatten.Nodup) ∧
      (consul.2.more = false → consul.1.flatten = keys) := by
  constructor
  · intro hmore
    have hperm := ZkPagination.pages_perm ht hlists pageSize opt sizes 0 hmore
    exact ⟨hperm, hperm.nodup_iff.mpr (Names.nodup_labels ht)⟩
  · intro hmore
    obtain ⟨k, hpages, hnil⟩ := (ConsulPagination.walks keys opt hget).run_done sizes 0
      (by simp [ConsulPagination.paginate, hkeys]) hmore
    refine (hpages.trans (sweep_eq_of_advance_eq_nil hnil)).trans ?_
    simp [ConsulPagination.paginate, hkeys, ConsulPagination.pending]

/-- A Consul server with two keys, where some calls of `Get` fail. -/
def twoKeys (fails : Nat → Bool) : ConsulConn where
  keys _ := .ok ["a".toList, "b".toList]
  get time _ := if fails time then .error (.transport "down".toList) else .ok (some "v".toList)

/-- A server with one child, where some listings fail. -/
def oneChildFailing (fails : Nat → Bool) : ZkConn :=
  { oneChildConn with
    children := fun time p =>
      if fails time then .error (.transport "down".toList) else .ok (oneChild.names p) }

/-- A server with one child, where the first call of `Get` fails. -/
def oneChildRetried : ZkConn :=
  { oneChildConn with
    get := fun time _ => if time = 0 then .error (.transport "down".toList) else .ok "v".toList }

/-- The first page fails and is asked for again. -/
theorem pages_retried_oneChild :
    let zk := ZkPagination.pages oneChildRetried [1, 1, 1] (.paginate oneChildTree.label 1 {} none) 0
    let consul := ConsulPagination.pages (twoKeys fun _ => false) [1, 1, 1]
      (.paginate (twoKeys fun _ => false) [] 1 {} none) 0
    (zk.1.head? = some [] ∧ zk.2.more = false ∧ consul.2.more = false) ∧
      (zk.2.more = false → zk.1.flatten.Perm oneChildTree.labels ∧ zk.1.flatten.Nodup) ∧
      (consul.2.more = false → consul.1.flatten = ["a".toList, "b".toList]) :=
  ⟨by decide, pages_retried oneChildRetried oneChild oneChildTree (twoKeys fun _ => false) []
    ["a".toList, "b".toList] {} 1 [1, 1, 1] oneChildTree_unfolds (fun _ _ _ => .inl rfl) rfl
    (.inr fun _ _ _ => ⟨_, rfl⟩)⟩

/-- The first call of `Children` fails, and the child is not delivered.  The first call of `Get`
fails, and the first key is not delivered. -/
theorem failed_pages_lose_keys :
    let zk := ZkPagination.pages (oneChildFailing (· = 0)) [1, 1] (.paginate "/a".toList 1 {} none) 0
    let consul := ConsulPagination.pages (twoKeys (· = 0)) [1, 1]
      (.paginate (twoKeys (· = 0)) [] 1 {} none) 0
    (zk.2.more = false ∧ zk.1.flatten = ["/a".toList]) ∧
      (consul.2.more = false ∧ consul.1.flatten = ["b".toList]) := by
  decide

/-- The pages of an undisturbed pagination fit, and together they are the listed keys. -/
theorem consul_pages_complete (c : ConsulConn) (pattern : Text) (keys : List Text) (opt : Options)
    (pageSize : Nat) (sizes : List Nat) (hkeys : c.keys pattern = .ok keys)
    (hget : opt.withKeysOnly = true ∨ ∀ time, ∀ key ∈ keys, ∃ v, c.get time key = .ok (some v))
    (hpos : ∀ size ∈ sizes, 0 < size) (hlong : keys.length < sizes.length) :
    let r := ConsulPagination.pages c sizes (.paginate c pattern pageSize opt none) 0
    r.2.more = false ∧ r.1.flatten = keys ∧ ∀ p ∈ r.1.zip sizes, p.1.length ≤ p.2 := by
  have hpending : (ConsulPagination.paginate c pattern pageSize opt none).pending = keys := by
    simp [ConsulPagination.paginate, hkeys, ConsulPagination.pending]
  have h := (ConsulPagination.walks keys opt hget).complete trivial hpos 0
    (s := .paginate c pattern pageSize opt none) (by simp [ConsulPagination.paginate, hkeys]) (by rwa [hpending])
  rwa [hpending] at h

theorem consul_pages_twoKeys :
    let r := ConsulPagination.pages (twoKeys fun _ => false) [1, 1, 1]
      (.paginate (twoKeys fun _ => false) [] 1 {} none) 0
    r.2.more = false ∧ r.1.flatten = ["a".toList, "b".toList] ∧
      ∀ p ∈ r.1.zip [1, 1, 1], p.1.length ≤ p.2 :=
  consul_pages_complete (twoKeys fun _ => false) [] ["a".toList, "b".toList] {} 1 [1, 1, 1] rfl
    (.inr fun _ _ _ => ⟨_, rfl⟩) (by decide) (by decide)

end Gofusion.Kv
