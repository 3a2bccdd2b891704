import Gofusion.Kv.Basic

/-!
# ZooKeeper

`kv/zk.go`: the pages of a subtree, and its deletion.

Both read a queue of paths that grows while it is read.  `Next` reads the queue in pages and keeps
it between the calls, and with `FromCursor` it first builds the queue up to the cursor.  `Del`
reads the whole queue and asks for the deletion of the paths in the other direction.

The context is never done.  Page sizes are not negative.
-/

namespace Gofusion.Kv

open Gofusion.Lib

/-- `zk.DeleteRequest`. -/
structure DeleteRequest where
  path : Text
  version : Int
deriving DecidableEq, Repr

/-- The client.  What a call returns depends on the time. -/
structure ZkConn where
  sync : Nat → Text → Except Err Unit
  get : Nat → Text → Except Err Text
  children : Nat → Text → Except Err (List Text)
  delete : Text → Int → Option Err
  multi : List DeleteRequest → Except Err (List (Option Err))

def childPath (parent name : Text) : Text := parent ++ '/' :: name

/-! ## Pagination -/

structure ZkPagination where
  count : Nat
  opt : Options := {}
  first : Bool := true
  keys : List Text
  cursor : Nat := 0
deriving Repr

namespace ZkPagination

/-- `Paginate`, with the cursor to start from if there is one. -/
def paginate (pattern : Text) (pageSize : Nat) (opt : Options) (cursor : Option Nat) :
    ZkPagination :=
  { count := pageSize, opt, keys := [pattern], cursor := cursor.getD 0 }

def setPageSize (s : ZkPagination) (pageSize : Nat) : ZkPagination := { s with count := pageSize }

def more (s : ZkPagination) : Bool := s.first || s.cursor < s.keys.length

/-- The queue with the children of a path. -/
def found (s : ZkPagination) (parent : Text) (names : List Text) : ZkPagination :=
  { s with keys := s.keys ++ names.map (childPath parent) }

variable (z : ZkConn)

/-- `Sync`, if consistency is asked for. -/
def sync (s : ZkPagination) (time : Nat) (parent : Text) : Except Err Unit :=
  if s.opt.withConsistency then z.sync time parent else .ok ()

/-- The value of a path, if values are asked for. -/
def read (s : ZkPagination) (time : Nat) (parent : Text) : Except Err (Option Text) :=
  if s.opt.withKeysOnly then .ok none else (z.get time parent).map some

/-- The loop of `Next` that builds the queue up to the cursor.  It ends when it has read as many
paths as the cursor says, since then the queue is longer than that or read to its end. -/
def skip : Nat → Nat → ZkPagination → Nat → Page Text ZkPagination
  | 0, _, s, time => { state := s, time }
  | fuel + 1, i, s, time =>
    if s.cursor < s.keys.length then { state := s, time }
    else
      match s.keys[i]? with
      | none => { state := s, time }
      | some parent =>
        match s.sync z time parent with
        | .error e => { err := some e, state := s, time := time + 1 }
        | .ok _ =>
          match z.children time parent with
          | .error e => { err := some e, state := s, time := time + 1 }
          | .ok names => skip fuel (i + 1) (s.found parent names) (time + 1)

/-- The loop of `Next` that reads a page. -/
def turn : Nat → ZkPagination → Nat → Page Text ZkPagination
  | 0, s, time => { state := s, time }
  | cnt + 1, s, time =>
    match s.keys[s.cursor]? with
    | none => { state := s, time }
    | some parent =>
      match s.sync z time parent with
      | .error e => { err := some e, state := s, time := time + 1 }
      | .ok _ =>
        match s.read z time parent with
        | .error e => { err := some e, state := s, time := time + 1 }
        | .ok val =>
          -- the cursor moves before the children are known
          let s := { s with cursor := s.cursor + 1 }
          match z.children time parent with
          | .error e =>
            { kvs := [⟨parent, val⟩], err := some e, state := s, time := time + 1 }
          | .ok names => (turn cnt (s.found parent names) (time + 1)).cons ⟨parent, val⟩

def next (s : ZkPagination) (time : Nat) : Page Text ZkPagination :=
  let moved := if s.first then skip z s.cursor 0 s time else { state := s, time }
  match moved.err with
  | some _ => moved
  | none => turn z moved.state.count { moved.state with first := false } moved.time

/-- `SetPageSize`, and `Next` while there is more. -/
def pages (sizes : List Nat) (s : ZkPagination) (time : Nat) : List (List Text) × ZkPagination :=
  run more (fun size s time => (s.setPageSize size).next z time) sizes s time

/-- The keys that are queued and not delivered. -/
def pending (s : ZkPagination) : List Text := s.keys.drop s.cursor

end ZkPagination

/-! ## Trees on a server -/

/-- The names of the children of every path. -/
structure Names where
  names : Text → List Text
  nodup : ∀ p, (names p).Nodup
  plain : ∀ p, ∀ n ∈ names p, '/' ∉ n

namespace Names

variable (N : Names)

def kids (p : Text) : List Text := (N.names p).map (childPath p)

/-- The number of slashes. -/
def depth (p : Text) : Nat := p.count '/'

def parent (p : Text) : Text := (p.reverse.dropWhile (· ≠ '/')).tail.reverse

variable {N}

theorem depth_kids (p : Text) : ∀ c ∈ N.kids p, depth c = depth p + 1 := by
  intro c hc
  obtain ⟨n, hn, rfl⟩ := List.mem_map.mp hc
  simp [depth, childPath, List.count_eq_zero.mpr (N.plain p n hn)]

theorem parent_kids (p : Text) : ∀ c ∈ N.kids p, parent c = p := by
  intro c hc
  obtain ⟨n, hn, rfl⟩ := List.mem_map.mp hc
  have hplain : ∀ x ∈ n.reverse, decide (x ≠ '/') = true := fun x hx =>
    decide_eq_true fun h => N.plain p n hn (h ▸ List.mem_reverse.mp hx)
  rw [parent, childPath, List.reverse_append, List.reverse_cons, List.append_assoc,
    List.dropWhile_append_of_pos hplain]
  simp

theorem kids_nodup (p : Text) : (N.kids p).Nodup :=
  (N.nodup p).map fun _ _ h => (List.cons.inj (List.append_cancel_left h)).2

/-- The subtree below a path is a tree of different paths. -/
theorem nodup_labels {t : Lib.Tree Text} (ht : t.Unfolds N.kids) : t.labels.Nodup :=
  labels_nodup depth_kids parent_kids kids_nodup ht

/-- A breadth-first walk never comes to a path above one it has seen. -/
theorem sweep_sorted_depth (n : Nat) (p : Text) :
    (sweep N.kids n [p]).Pairwise (depth · ≤ depth ·) :=
  (sweep_sorted depth_kids n (List.pairwise_singleton _ p) (by simp)).1

end Names

/-- The listing of a path is right whenever it succeeds, and it does not fail where there are
children. -/
def ZkConn.Lists (z : ZkConn) (N : Names) (p : Text) : Prop :=
  ∀ time, z.children time p = .ok (N.names p) ∨
    N.names p = [] ∧ ∃ e, z.children time p = .error e

/-- All calls for a path succeed. -/
def ZkConn.Serves (z : ZkConn) (N : Names) (p : Text) : Prop :=
  ∀ time, z.sync time p = .ok () ∧ (∃ v, z.get time p = .ok v) ∧
    z.children time p = .ok (N.names p)

theorem ZkConn.Serves.lists {z : ZkConn} (h : z.Serves N p) : z.Lists N p :=
  fun time => .inl (h time).2.2

namespace ZkPagination

variable {z : ZkConn} {N : Names} {t : Lib.Tree Text}

variable {s : ZkPagination} {parent : Text}

theorem pending_eq_cons (h : s.keys[s.cursor]? = some parent) :
    s.pending = parent :: s.keys.drop (s.cursor + 1) := by
  obtain ⟨hlt, rfl⟩ := List.getElem?_eq_some_iff.mp h
  exact List.drop_eq_getElem_cons hlt

theorem pending_found (h : s.keys[s.cursor]? = some parent) (names : List Text) :
    ({ s with cursor := s.cursor + 1 }.found parent names).pending =
      s.keys.drop (s.cursor + 1) ++ names.map (childPath parent) :=
  List.drop_append_of_le_length (List.getElem?_eq_some_iff.mp h).1

/-- A page takes keys off the queue, each with its children.  It stops early only with an error. -/
theorem turn_spec (ht : t.Unfolds N.kids) (hlists : ∀ p ∈ t.labels, z.Lists N p) (cnt : Nat)
    (s : ZkPagination) (time : Nat) (hs : ∀ p ∈ s.pending, p ∈ t.labels) : ∃ k ≤ cnt,
      (turn z cnt s time).keys = sweep N.kids k s.pending ∧
      (turn z cnt s time).state.pending = (advance N.kids)^[k] s.pending ∧
      (turn z cnt s time).state.first = s.first ∧
      ((∀ p ∈ t.labels, z.Serves N p) → k = cnt) := by
  induction cnt generalizing s time with
  | zero => exact ⟨0, Nat.le_refl _, rfl, rfl, rfl, fun _ => rfl⟩
  | succ cnt ih =>
    cases hkey : s.keys[s.cursor]? with
    | none =>
      have hnil : s.pending = [] := List.drop_eq_nil_of_le (List.getElem?_eq_none_iff.mp hkey)
      simp only [turn, hkey, hnil, iterate_advance_nil, sweep_nil]
      exact ⟨cnt + 1, Nat.le_refl _, rfl, trivial, trivial, fun _ => rfl⟩
    | some parent =>
      have hcons := pending_eq_cons hkey
      have hparent : parent ∈ t.labels := hs parent (hcons ▸ List.mem_cons_self)
      have htail : ∀ p ∈ s.keys.drop (s.cursor + 1) ++ N.kids parent, p ∈ t.labels := by
        intro p hp
        rcases List.mem_append.mp hp with hp | hp
        · exact hs p (hcons ▸ List.mem_cons_of_mem _ hp)
        · exact ht.next_mem hparent hp
      cases hsync : s.sync z time parent with
      | error e =>
        simp only [turn, hkey, hsync]
        refine ⟨0, Nat.zero_le _, rfl, rfl, trivial, fun hall => ?_⟩
        simp [sync, (hall parent hparent time).1] at hsync
      | ok u =>
        cases hread : s.read z time parent with
        | error e =>
          simp only [turn, hkey, hsync, hread]
          refine ⟨0, Nat.zero_le _, rfl, rfl, trivial, fun hall => ?_⟩
          obtain ⟨v, hv⟩ := (hall parent hparent time).2.1
          rw [read, hv] at hread
          split at hread <;> cases hread
        | ok val =>
          have hfound := pending_found hkey (N.names parent)
          rcases hlists parent hparent time with hnames | ⟨hleaf, e, hfail⟩
          · simp only [turn, hkey, hsync, hread, hnames]
            obtain ⟨k, hk, hkeys, hpending, hfirst, hfull⟩ := ih _ (time + 1) (hfound ▸ htail)
            refine ⟨k + 1, Nat.succ_le_succ hk, ?_, ?_, hfirst, fun hall => by rw [hfull hall]⟩
            · rw [Page.keys_cons, hkeys, hfound, hcons]
              rfl
            · rw [Page.state_cons, hpending, hfound, hcons]
              rfl
          · simp only [turn, hkey, hsync, hread, hfail]
            have hkids : N.kids parent = [] := List.map_eq_nil_iff.mpr hleaf
            refine ⟨1, Nat.succ_le_succ (Nat.zero_le _), ?_, ?_, trivial, fun hall => ?_⟩
            · rw [hcons]
              rfl
            · rw [hcons, Function.iterate_one, advance, hkids, List.append_nil]
              rfl
            · rw [(hall parent hparent time).2.2] at hfail
              cases hfail

/-- While the cursor is within the queue, the first `Next` has nothing to build. -/
theorem skip_of_lt (h : s.cursor < s.keys.length) (fuel i time : Nat) :
    skip z fuel i s time = { state := s, time } := by
  cases fuel with
  | zero => rfl
  | succ fuel => rw [skip, if_pos h]

theorem pending_ne_nil : s.pending ≠ [] ↔ s.cursor < s.keys.length := by
  rw [pending, ne_eq, List.drop_eq_nil_iff, Nat.not_le]

/-- The queue holds paths of the tree, and it is built. -/
def Built (t : Lib.Tree Text) (s : ZkPagination) : Prop :=
  (∀ p ∈ s.pending, p ∈ t.labels) ∧ (s.first = true → s.pending ≠ [])

/-- There is more exactly if something is pending. -/
theorem more_iff (hs : Built t s) : s.more = true ↔ s.pending ≠ [] := by
  rw [more, Bool.or_eq_true, decide_eq_true_iff, ← pending_ne_nil]
  exact ⟨fun h => h.elim hs.2 id, .inr⟩

/-- Every page is the next part of the walk. -/
theorem walks (ht : t.Unfolds N.kids) (hlists : ∀ p ∈ t.labels, z.Lists N p) :
    Walks more (fun size s time => (s.setPageSize size).next z time) N.kids pending (Built t)
      (∀ p ∈ t.labels, z.Serves N p) where
  done s hs hmore := by
    by_contra hne
    exact Bool.false_ne_true (hmore.symm.trans (more_iff hs |>.mpr hne))
  next size s time hs := by
    have hnext : (s.setPageSize size).next z time =
        turn z size { s with count := size, first := false } time := by
      cases hfirst : s.first with
      | false => simp [next, setPageSize, hfirst]
      | true =>
        have hlt : (s.setPageSize size).cursor < (s.setPageSize size).keys.length :=
          pending_ne_nil.mp (hs.2 hfirst)
        rw [next, skip_of_lt hlt]
        simp [setPageSize, hfirst]
    simp only [hnext]
    obtain ⟨k, hk, hkeys, hpending, hfirst, hfull⟩ :=
      turn_spec ht hlists size { s with count := size, first := false } time hs.1
    have hbuilt : Built t (turn z size { s with count := size, first := false } time).state :=
      ⟨hpending ▸ mem_labels_of_iterate ht k hs.1, by simp [hfirst]⟩
    refine ⟨hbuilt, fun hnil => ?_, k, hk, hkeys, hpending, hfull⟩
    exact eq_false_of_ne_true fun hmore => (more_iff hbuilt).mp hmore hnil

theorem built_paginate (t : Lib.Tree Text) (pageSize : Nat) (opt : Options) :
    Built t (paginate t.label pageSize opt none) :=
  ⟨List.forall_mem_singleton.mpr t.label_mem_labels, fun _ => List.cons_ne_nil _ _⟩

/-- A pagination that is done has delivered the subtree. -/
theorem pages_perm (ht : t.Unfolds N.kids) (hlists : ∀ p ∈ t.labels, z.Lists N p) (pageSize : Nat)
    (opt : Options) (sizes : List Nat) (time : Nat)
    (hmore : (pages z sizes (paginate t.label pageSize opt none) time).2.more = false) :
    (pages z sizes (paginate t.label pageSize opt none) time).1.flatten.Perm t.labels := by
  obtain ⟨k, hkeys, hnil⟩ :=
    (walks ht hlists).run_done sizes time (built_paginate t pageSize opt) hmore
  rw [pages, hkeys]
  exact sweep_perm_labels ht hnil

/-- The pages of a subtree end, and together they have every path once, the parents before their
children.  No page is larger than asked for. -/
theorem zk_pages_complete (z : ZkConn) (N : Names) (t : Lib.Tree Text) (opt : Options)
    (pageSize : Nat) (sizes : List Nat) (ht : t.Unfolds N.kids)
    (hserves : ∀ p ∈ t.labels, z.Serves N p) (hsizes : ∀ size ∈ sizes, 0 < size)
    (hlong : t.labels.length ≤ sizes.length) :
    let (pages, s) := pages z sizes (paginate t.label pageSize opt none) 0
    s.more = false ∧ pages.flatten.Perm t.labels ∧ pages.flatten.Nodup ∧
      pages.flatten.Pairwise (fun a b => a ∉ N.kids b) ∧
      ∀ p ∈ pages.zip sizes, p.1.length ≤ p.2 := by
  have hlists : ∀ p ∈ t.labels, z.Lists N p := fun p hp => (hserves p hp).lists
  have h := walks ht hlists
  obtain ⟨k, -, hkeys, -, hpage, -⟩ := h.run sizes _ 0 (built_paginate t pageSize opt)
  have hne : sizes ≠ [] := by
    rintro rfl
    exact List.ne_nil_of_mem t.label_mem_labels (List.eq_nil_of_length_eq_zero (Nat.le_zero.mp hlong))
  have hmore := h.run_ends hserves hsizes 0 (built_paginate t pageSize opt) hne (advance_eq_nil ht hlong)
  have hperm := pages_perm ht hlists pageSize opt sizes 0 hmore
  refine ⟨hmore, hperm, hperm.nodup_iff.mpr (Names.nodup_labels ht), ?_, hpage⟩
  rw [hkeys]
  refine (Names.sweep_sorted_depth k t.label).imp fun {a b} hab hmem => ?_
  have := Names.depth_kids b a hmem
  omega

end ZkPagination

def oneChild : Names where
  names p := if p = "/a".toList then ["x".toList] else []
  nodup p := by split <;> simp
  plain p n hn := by
    split at hn
    · rw [List.mem_singleton.mp hn]
      decide
    · cases hn

def oneChildConn : ZkConn where
  sync _ _ := .ok ()
  get _ _ := .ok "v".toList
  children _ p := .ok (oneChild.names p)
  delete _ _ := none
  multi requests := .ok (requests.map fun _ => none)

def oneChildTree : Lib.Tree Text := .node "/a".toList [.node "/a/x".toList []]

theorem oneChildTree_unfolds : oneChildTree.Unfolds oneChild.kids := by
  refine .node (by decide) (List.forall_mem_singleton.mpr (.node (by decide) ?_))
  simp

theorem oneChildConn_serves : ∀ p ∈ oneChildTree.labels, oneChildConn.Serves oneChild p :=
  fun _ _ _ => ⟨rfl, ⟨_, rfl⟩, rfl⟩

theorem zk_pages_oneChild :
    let (pages, s) := ZkPagination.pages oneChildConn [1, 2]
      (.paginate oneChildTree.label 1 {} none) 0
    s.more = false ∧ pages.flatten.Perm oneChildTree.labels ∧ pages.flatten.Nodup ∧
      pages.flatten.Pairwise (fun a b => a ∉ oneChild.kids b) ∧
      ∀ p ∈ pages.zip [1, 2], p.1.length ≤ p.2 :=
  ZkPagination.zk_pages_complete oneChildConn oneChild oneChildTree {} 1 [1, 2]
    oneChildTree_unfolds oneChildConn_serves (by decide) (by simp [oneChildTree, Lib.Tree.labels])

/-! ## Deletion -/

/-- The loop of `Del` and `Get` that reads the children of every path in the queue, with the error
of the call that failed.  Without fuel it has no result. -/
def gather (z : ZkConn) : Nat → Nat → List Text → Option (List Text × Option Err)
  | 0, i, keys => if i < keys.length then none else some (keys, none)
  | fuel + 1, i, keys =>
    match keys[i]? with
    | none => some (keys, none)
    | some parent =>
      match z.children i parent with
      | .error e => some (keys, some e)
      | .ok names => gather z fuel (i + 1) (keys ++ names.map (childPath parent))

structure ZkDelValue where
  errs : List Err := []
  keys : List Text := []

/-- The errors of a list of requests, those of the last requests first. -/
def ZkConn.multiErrs (z : ZkConn) (requests : List DeleteRequest) : List Err :=
  match z.multi requests with
  | .error e => [e]
  | .ok rsp => rsp.reverse.reduceOption

def ZkConn.del (z : ZkConn) (fuel : Nat) (key : Text) (opt : Options) : Option ZkDelValue :=
  let version := if 0 < opt.version then opt.version else -1
  if !opt.withPrefix then
    match z.delete key version with
    | some e => some { errs := [e] }
    | none => some { keys := [key] }
  else
    match gather z fuel 0 [key] with
    | none => none
    | some (keys, some e) => some { errs := [e], keys }
    | some (keys, none) => some { errs := z.multiErrs (keys.reverse.map (⟨·, version⟩)), keys }

section

variable {z : ZkConn} {N : Names} {t : Lib.Tree Text}

/-- `gather` lists the subtree in the order of the walk. -/
theorem gather_eq (ht : t.Unfolds N.kids) (hserves : ∀ p ∈ t.labels, z.Serves N p) (fuel : Nat)
    (seen queue : List Text) (hqueue : ∀ p ∈ queue, p ∈ t.labels)
    (hfuel : (advance N.kids)^[fuel] queue = []) :
    gather z fuel seen.length (seen ++ queue) = some (seen ++ sweep N.kids fuel queue, none) := by
  induction fuel generalizing seen queue with
  | zero =>
    obtain rfl : queue = [] := hfuel
    simp [gather]
  | succ fuel ih =>
    cases queue with
    | nil => simp [gather]
    | cons p queue =>
      obtain ⟨hp, hqueue⟩ := List.forall_mem_cons.mp hqueue
      have hget : (seen ++ p :: queue)[seen.length]? = some p := by simp
      have ih := ih (seen ++ [p]) (queue ++ N.kids p)
        (fun q hq => (List.mem_append.mp hq).elim (hqueue q) (ht.next_mem hp)) hfuel
      simp only [gather, hget, (hserves p hp _).2.2]
      simpa [Names.kids, sweep] using ih

end

/-- `Del` with a prefix sends one list of requests and reports its errors.  The list has every path
of the subtree once, a path behind all those below it, and the paths are the ones reported. -/
theorem zk_del_ordered (z : ZkConn) (N : Names) (t : Lib.Tree Text) (opt : Options) (fuel : Nat)
    (ht : t.Unfolds N.kids) (hserves : ∀ p ∈ t.labels, z.Serves N p)
    (hopt : opt.withPrefix = true) (hfuel : t.labels.length ≤ fuel) :
    ∃ d requests, z.del fuel t.label opt = some d ∧ d.errs = z.multiErrs requests ∧
      (∀ rsp, z.multi requests = .ok rsp → (∀ e ∈ rsp, e = none) → d.errs = []) ∧
      (requests.map (·.path)).Perm t.labels ∧ (requests.map (·.path)).Nodup ∧
      (∀ before p after, requests.map (·.path) = before ++ p :: after →
        ∀ q ∈ t.labels, childPath p [] <+: q → q ∈ before) ∧
      d.keys.Perm t.labels := by
  have hnil := advance_eq_nil ht hfuel
  have hgather := gather_eq ht hserves fuel [] [t.label]
    (List.forall_mem_singleton.mpr t.label_mem_labels) hnil
  have hperm := sweep_perm_labels ht hnil
  have hperm' := (List.reverse_perm _).trans hperm
  have hdel : z.del fuel t.label opt = some
      { errs := z.multiErrs ((sweep N.kids fuel [t.label]).reverse.map
          (⟨·, if 0 < opt.version then opt.version else -1⟩))
        keys := sweep N.kids fuel [t.label] } := by
    simp only [List.nil_append, List.length_nil] at hgather
    simp [ZkConn.del, hopt, hgather]
  refine ⟨_, _, hdel, rfl, fun rsp hrsp hnone => ?_, ?_⟩
  · rw [ZkConn.multiErrs, hrsp]
    exact List.filterMap_eq_nil_iff.mpr fun e he => hnone e (List.mem_reverse.mp he)
  simp only [List.map_map, Function.comp_def, List.map_id']
  refine ⟨hperm', hperm'.nodup_iff.mpr (Names.nodup_labels ht),
    fun before p after hsplit q hq hbelow => ?_, hperm⟩
  obtain ⟨name, rfl⟩ := hbelow
  have hdepth : Names.depth p < Names.depth (childPath p [] ++ name) := by
    simp [Names.depth, childPath]
  have hsorted : (before ++ p :: after).Pairwise fun a b => Names.depth b ≤ Names.depth a := by
    rw [← hsplit, List.pairwise_reverse]
    exact Names.sweep_sorted_depth fuel t.label
  have hmem : childPath p [] ++ name ∈ before ++ p :: after := by
    rw [← hsplit]
    exact hperm'.mem_iff.mpr hq
  rcases List.mem_append.mp hmem with hmem | hmem
  · exact hmem
  · have hlater := (List.pairwise_cons.mp (List.pairwise_append.mp hsorted).2.1).1
    rcases List.mem_cons.mp hmem with heq | hmem
    · rw [heq] at hdepth
      omega
    · have := hlater _ hmem
      omega

theorem zk_del_oneChild : ∃ d requests,
    oneChildConn.del 2 oneChildTree.label { withPrefix := true } = some d ∧
    d.errs = oneChildConn.multiErrs requests ∧
    (∀ rsp, oneChildConn.multi requests = .ok rsp → (∀ e ∈ rsp, e = none) → d.errs = []) ∧
    (requests.map (·.path)).Perm oneChildTree.labels ∧ (requests.map (·.path)).Nodup ∧
    (∀ before p after, requests.map (·.path) = before ++ p :: after →
      ∀ q ∈ oneChildTree.labels, childPath p [] <+: q → q ∈ before) ∧
    d.keys.Perm oneChildTree.labels :=
  zk_del_ordered oneChildConn oneChild oneChildTree { withPrefix := true } 2 oneChildTree_unfolds
    oneChildConn_serves rfl (by simp [oneChildTree, Lib.Tree.labels])

end Gofusion.Kv
