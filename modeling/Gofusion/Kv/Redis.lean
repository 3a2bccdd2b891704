import Gofusion.Kv.Basic
import Mathlib.Data.List.Infix

/-!
# Redis

`kv/redis.go`.  The operations with a prefix ask the server for a glob pattern, the prefix with an
asterisk behind it.  The other special characters of a pattern stay in it.

`glob` is `stringmatchlen` of the server.  It matches bytes, so a key is the list of its bytes
here, each as the character with its number.  `SCAN` returns the keys in batches, each key at least
once.  The number of a batch is the cursor.
-/

namespace Gofusion.Kv

open Gofusion.Lib

/-! ## Patterns -/

/-- The part of a pattern behind `[`: whether a character is in the class, and what follows. -/
def charClass (c : Char) : Text → Bool → Bool × Text
  | '\\' :: x :: pattern, found => charClass c pattern (found || x = c)
  | ']' :: pattern, found => (found, pattern)
  | [], found => (found, [])
  | a :: '-' :: b :: pattern, found =>
    charClass c pattern (found || (a ≤ c && c ≤ b) || (b ≤ c && c ≤ a))
  | a :: pattern, found => charClass c pattern (found || a = c)

/-- `stringmatchlen`.  Every step takes a character off the pattern. -/
def globSteps : Nat → Text → Text → Bool
  | _, [], s => s.isEmpty
  | 0, _ :: _, _ => false
  | n + 1, '*' :: pattern, s => s.tails.any (globSteps n pattern)
  | n + 1, '?' :: pattern, s => !s.isEmpty && globSteps n pattern s.tail
  | _ + 1, '[' :: _, [] => false
  | n + 1, '[' :: '^' :: pattern, c :: s =>
    let (found, pattern) := charClass c pattern false
    !found && globSteps n pattern s
  | n + 1, '[' :: pattern, c :: s =>
    let (found, pattern) := charClass c pattern false
    found && globSteps n pattern s
  | n + 1, '\\' :: x :: pattern, s => s.head? = some x && globSteps n pattern s.tail
  | n + 1, x :: pattern, s => s.head? = some x && globSteps n pattern s.tail

def glob (pattern s : Text) : Bool := globSteps pattern.length pattern s

/-- The characters with a meaning in a pattern. -/
def globChars : Text := "*?[\\".toList

/-- A plain character stands for itself. -/
theorem globSteps_plain (hx : x ∉ globChars) (n : Nat) (pattern s : Text) :
    globSteps (n + 1) (x :: pattern) s = (s.head? = some x && globSteps n pattern s.tail) := by
  have hx : x ≠ '*' ∧ x ≠ '?' ∧ x ≠ '[' ∧ x ≠ '\\' := by simpa [globChars] using hx
  rw [globSteps] <;> simp [hx]

theorem glob_star {key : Text} (hkey : ∀ x ∈ key, x ∉ globChars) (s : Text) :
    glob (key ++ ['*']) s = key.isPrefixOf s := by
  rw [glob, List.length_append]
  induction key generalizing s with
  | nil =>
    simp [globSteps]
  | cons x key ih =>
    obtain ⟨hx, hkey⟩ := List.forall_mem_cons.mp hkey
    rw [List.cons_append, List.length_cons, Nat.add_right_comm, globSteps_plain hx, ih hkey]
    cases s with
    | nil => rfl
    | cons c s => simp [List.isPrefixOf, eq_comm, Bool.beq_eq_decide_eq]

/-! ### Patterns that are not literal -/

/-- The characters of a pattern other than asterisks. -/
def weight (pattern : Text) : Nat := pattern.countP (· ≠ '*')

theorem weight_cons (hx : x ≠ '*') (pattern : Text) : weight (x :: pattern) = weight pattern + 1 := by
  simp [weight, hx]

theorem weight_le_cons (x : Char) (pattern : Text) : weight pattern ≤ weight (x :: pattern) :=
  (List.sublist_cons_self x pattern).countP_le

/-- What follows a class is behind its first character. -/
theorem charClass_suffix (c : Char) (pattern : Text) (found : Bool) :
    (charClass c pattern found).2 <:+ pattern.tail := by
  fun_induction charClass c pattern found with
  | case1 x pattern found ih => exact ih.trans ((List.tail_suffix _).trans (List.suffix_cons _ _))
  | case2 found pattern => exact List.suffix_rfl
  | case3 found => exact List.suffix_rfl
  | case4 found a b pattern _ _ ih =>
    exact ih.trans ((List.tail_suffix _).trans
      ((List.suffix_cons _ _).trans (List.suffix_cons _ _)))
  | case5 found a pattern _ _ _ ih => exact ih.trans (List.tail_suffix _)

theorem weight_charClass (h : charClass c pattern false = (found, rest)) :
    weight rest ≤ weight pattern.tail := by
  have hsuffix := charClass_suffix c pattern false
  rw [h] at hsuffix
  exact hsuffix.sublist.countP_le

/-- A pattern that matches something matches a text no longer than its weight, since every step
takes at most one character off the text. -/
theorem globSteps_short (h : globSteps n pattern s = true) :
    ∃ t : Text, t.length ≤ weight pattern ∧ globSteps n pattern t = true := by
  induction n generalizing pattern s with
  | zero =>
    cases pattern with
    | nil => exact ⟨[], Nat.le_refl _, rfl⟩
    | cons x pattern => simp [globSteps] at h
  | succ n ih =>
    generalize hm : n + 1 = m at h ⊢
    revert h
    fun_cases globSteps m pattern s with
    | case1 => exact fun _ => ⟨[], Nat.le_refl _, by simp [globSteps]⟩
    | case2 => simp
    | case3 s n' pattern =>
      obtain rfl := Nat.succ.inj hm
      intro h
      obtain ⟨s', -, h⟩ := List.any_eq_true.mp h
      obtain ⟨t, ht, h⟩ := ih h
      refine ⟨t, Nat.le_trans ht (weight_le_cons _ _), ?_⟩
      rw [globSteps, List.any_eq_true]
      exact ⟨t, (List.mem_tails ..).mpr List.suffix_rfl, h⟩
    | case4 s n' pattern =>
      obtain rfl := Nat.succ.inj hm
      intro h
      obtain ⟨t, ht, h⟩ := ih (Bool.and_eq_true .. ▸ h).2
      refine ⟨'?' :: t, ?_, by simpa [globSteps] using h⟩
      rw [weight_cons (by decide)]
      exact Nat.succ_le_succ ht
    | case5 => simp
    | case6 n' pattern c s found rest hclass =>
      obtain rfl := Nat.succ.inj hm
      intro h
      obtain ⟨hfound, h⟩ := Bool.and_eq_true .. ▸ h
      obtain ⟨t, ht, h⟩ := ih h
      refine ⟨c :: t, ?_, by simp [globSteps, hclass, h, Bool.not_eq_true' .. ▸ hfound]⟩
      rw [weight_cons (by decide)]
      have hrest := Nat.le_trans (weight_charClass hclass) (List.tail_sublist pattern).countP_le
      exact Nat.succ_le_succ (Nat.le_trans (Nat.le_trans ht hrest) (weight_le_cons _ _))
    | case7 n' pattern c s hcaret found rest hclass =>
      obtain rfl := Nat.succ.inj hm
      intro h
      obtain ⟨hfound, h⟩ := Bool.and_eq_true .. ▸ h
      obtain ⟨t, ht, h⟩ := ih h
      refine ⟨c :: t, ?_, by rw [globSteps.eq_7 _ _ _ _ hcaret]; simp [hclass, h, hfound]⟩
      rw [weight_cons (by decide)]
      have hrest := Nat.le_trans (weight_charClass hclass) (List.tail_sublist pattern).countP_le
      exact Nat.succ_le_succ (Nat.le_trans ht hrest)
    | case8 s x pattern n' =>
      obtain rfl := Nat.succ.inj hm
      intro h
      obtain ⟨t, ht, h⟩ := ih (Bool.and_eq_true .. ▸ h).2
      refine ⟨x :: t, ?_, by simp [globSteps, h]⟩
      rw [weight_cons (by decide)]
      exact Nat.succ_le_succ (Nat.le_trans ht (weight_le_cons _ _))
    | case9 s x pattern n' hx₁ hx₂ _ _ hx₃ hx₄ =>
      obtain rfl := Nat.succ.inj hm
      intro h
      obtain ⟨hx, h⟩ := Bool.and_eq_true .. ▸ h
      obtain ⟨t, ht, hmatch⟩ := ih h
      cases s with
      | nil => simp at hx
      | cons c s =>
        refine ⟨x :: t, ?_, ?_⟩
        · rw [weight_cons hx₁]
          exact Nat.succ_le_succ ht
        · have hx₃ : x ≠ '[' := hx₃ c s rfl
          rw [globSteps] <;> first | exact hx₁ | exact hx₂ | exact hx₄ | simp [hx₃, hmatch]

/-- A class and an escaped character have at least two characters, and take one off the text. -/
theorem globSteps_short_special (hx : x = '[' ∨ x = '\\')
    (h : globSteps (n + 1) (x :: y :: pattern) s = true) :
    ∃ t : Text, t.length ≤ weight pattern + 1 ∧ globSteps (n + 1) (x :: y :: pattern) t = true := by
  rcases hx with rfl | rfl
  · cases s with
    | nil => simp [globSteps] at h
    | cons c s =>
      by_cases hy : y = '^'
      · subst hy
        simp only [globSteps, Bool.and_eq_true] at h
        obtain ⟨t, ht, hmatch⟩ := globSteps_short h.2
        have hrest := (charClass_suffix c pattern false).sublist.trans (List.tail_sublist _)
        refine ⟨c :: t, Nat.succ_le_succ (Nat.le_trans ht hrest.countP_le), ?_⟩
        simp only [globSteps, Bool.and_eq_true]
        exact ⟨h.1, hmatch⟩
      · have hcaret : ∀ p, y :: pattern ≠ '^' :: p := fun p hp => hy (List.cons.inj hp).1
        rw [globSteps.eq_7 _ _ _ _ hcaret, Bool.and_eq_true] at h
        obtain ⟨t, ht, hmatch⟩ := globSteps_short h.2
        have hrest := (charClass_suffix c (y :: pattern) false).sublist
        refine ⟨c :: t, Nat.succ_le_succ (Nat.le_trans ht hrest.countP_le), ?_⟩
        rw [globSteps.eq_7 _ _ _ _ hcaret, Bool.and_eq_true]
        exact ⟨h.1, hmatch⟩
  · simp only [globSteps, Bool.and_eq_true] at h
    obtain ⟨t, ht, hmatch⟩ := globSteps_short h.2
    exact ⟨y :: t, Nat.succ_le_succ ht, by simp [globSteps, hmatch]⟩

/-- If a key with an asterisk behind it stands for the texts that begin with the key, and the key
has no asterisk, no character of it has a meaning in a pattern. -/
theorem plain_of_glob_star {key : Text} (hstar : '*' ∉ key)
    (h : ∀ s, glob (key ++ ['*']) s = key.isPrefixOf s) : ∀ x ∈ key, x ∉ globChars := by
  induction key with
  | nil => simp
  | cons x key ih =>
    obtain ⟨hx, hstar⟩ := not_or.mp (List.mem_cons.not.mp hstar)
    have hself : glob (x :: key ++ ['*']) (x :: key) = true := by
      rw [h, List.isPrefixOf_iff_prefix]
    -- no text that the pattern matches is shorter than the key
    have hshort : ∀ t : Text, glob (x :: key ++ ['*']) t = true → key.length < t.length := by
      intro t ht
      rw [h, List.isPrefixOf_iff_prefix] at ht
      exact ht.length_le
    by_cases hplain : x ∈ globChars
    · have hspecial : x = '*' ∨ x = '?' ∨ x = '[' ∨ x = '\\' := by simpa [globChars] using hplain
      rcases hspecial with rfl | rfl | hspecial
      · exact absurd rfl hx
      · -- another character in place of the question mark
        have hother := h ('x' :: key)
        simp [glob, globSteps, List.isPrefixOf] at hself hother
        simp [hself] at hother
      · cases key with
        | nil => rcases hspecial with rfl | rfl <;> simp [glob, globSteps, charClass] at hself
        | cons y key =>
          obtain ⟨t, ht, hmatch⟩ := globSteps_short_special hspecial hself
          have hlong : key.length + 2 ≤ t.length := hshort t hmatch
          have hweight : weight (key ++ ['*']) ≤ key.length := by
            simpa [weight] using List.countP_le_length
          exact absurd (Nat.le_trans hlong (Nat.le_trans ht (Nat.succ_le_succ hweight))) (by omega)
    · refine List.forall_mem_cons.mpr ⟨hplain, ih hstar fun s => ?_⟩
      have hs := h (x :: s)
      rw [glob, List.cons_append, List.length_cons, globSteps_plain hplain] at hs
      simpa [List.isPrefixOf, glob] using hs

/-! ## Operations -/

/-- The client.  `get` of a key that is absent fails with `redis.Nil`. -/
structure RedisConn where
  get : Text → Except Err Text
  count : Text → Except Err Nat
  keys : Text → Except Err (List Text)
  mget : List Text → Except Err (List (Option Text))
  del : List Text → Except Err Nat
  scan : Nat → Text → Nat → Except Err (List Text × Nat)

def patternOf (key : Text) : Text := if '*' ∈ key then key else key ++ ['*']

def errOf {α : Type} : Except Err α → Option Err
  | .error e => some e
  | .ok _ => none

/-- `redisGetValue`: the error of its command, and the pairs for a prefix. -/
structure RedisGetValue where
  err : Option Err
  multi : List (Text × Option Text) := []

/-- `redisDelValue`: the error of its command and its number. -/
structure RedisDelValue where
  err : Option Err := none
  val : Nat := 0

/-- The value of a `DEL`. -/
def RedisDelValue.of : Except Err Nat → RedisDelValue
  | .error e => { err := some e }
  | .ok val => { val }

structure RedisPagination where
  count : Nat
  opt : Options := {}
  first : Bool := true
  pattern : Text
  cursor : Nat := 0

namespace RedisPagination

def more (s : RedisPagination) : Bool := s.first || 0 < s.cursor

def setPageSize (s : RedisPagination) (pageSize : Nat) : RedisPagination :=
  { s with count := pageSize }

def next (c : RedisConn) (s : RedisPagination) (time : Nat) : Page Text RedisPagination :=
  let s := { s with first := false }
  match c.scan s.cursor s.pattern s.count with
  | .error e => { err := some e, state := s, time := time + 1 }
  | .ok (keys, cursor) =>
    let s := { s with cursor }
    if s.opt.withKeysOnly then { kvs := keys.map (⟨·, none⟩), state := s, time := time + 1 }
    else if keys = [] then { state := s, time := time + 1 }
    else
      match c.mget keys with
      | .error e => { err := some e, state := s, time := time + 1 }
      | .ok vals => { kvs := keys.zipWith KeyValue.mk vals, state := s, time := time + 1 }

end RedisPagination

namespace RedisConn

variable (c : RedisConn)

/-- `Get`. -/
def getKV (key : Text) (opt : Options) : RedisGetValue :=
  if !opt.withPrefix then
    if !opt.withKeysOnly then { err := errOf (c.get key) } else { err := errOf (c.count key) }
  else
    match c.keys (patternOf key) with
    | .error e => { err := some e }
    | .ok [] => { err := some .rdsNil }
    | .ok keys =>
      if opt.withKeysOnly then { err := none, multi := keys.map (·, none) }
      else
        match c.mget keys with
        | .error e => { err := some e }
        | .ok vals => { err := none, multi := keys.zip vals }

/-- `Del`. -/
def delKV (key : Text) (opt : Options) : RedisDelValue :=
  if !opt.withPrefix then .of (c.del [key])
  else
    match c.keys (patternOf key) with
    | .error e => { err := some e }
    | .ok [] => {}
    | .ok keys => .of (c.del keys)

def paginate (pattern : Text) (pageSize : Nat) (opt : Options) (cursor : Option Nat) :
    RedisPagination :=
  { count := pageSize, opt, pattern := patternOf pattern, cursor := cursor.getD 0 }

/-- The loop of `Has` with a prefix: the error and the number of keys in the first page that has
some. -/
def hasLoop : Nat → RedisPagination → Option Err × Nat
  | 0, _ => (none, 0)
  | fuel + 1, s =>
    if s.more then
      let page := s.next c 0
      if page.err.isSome || page.kvs ≠ [] then (page.err, page.kvs.length)
      else hasLoop fuel page.state
    else (none, 0)

/-- `SetPageSize`, and `Next` while there is more. -/
def pages (sizes : List Nat) (s : RedisPagination) : List (List Text) × RedisPagination :=
  run RedisPagination.more (fun size s time => (s.setPageSize size).next c time) sizes s 0

/-- `Has` with a prefix. -/
def hasPrefix (fuel : Nat) (key : Text) : Option Err × Nat :=
  c.hasLoop fuel (paginate (patternOf key) 100 { withKeysOnly := true } none)

end RedisConn

/-! ## A server -/

/-- The keys of a server with their values, and the batches of a scan. -/
structure RedisStore where
  keys : List Text
  value : Text → Text := id
  batches : List (List Text)
  ne_nil : batches ≠ []
  covers : ∀ k, k ∈ batches.flatten ↔ k ∈ keys

namespace RedisStore

variable (s : RedisStore) (del : List Text → Except Err Nat)

/-- The client of a server whose reading calls do not fail, for any answer to `DEL`. -/
def conn : RedisConn where
  get k := if k ∈ s.keys then .ok (s.value k) else .error .rdsNil
  count k := .ok (if k ∈ s.keys then 1 else 0)
  keys pattern := .ok (s.keys.filter (glob pattern))
  mget ks := .ok (ks.map fun k => if k ∈ s.keys then some (s.value k) else none)
  del
  scan cursor pattern _ := .ok ((s.batches.getD cursor []).filter (glob pattern),
    if cursor + 1 < s.batches.length then cursor + 1 else 0)

/-- A page has the matching keys of a batch. -/
theorem next_conn (p : RedisPagination) (time : Nat) :
    (p.next (s.conn del) time).keys = (s.batches.getD p.cursor []).filter (glob p.pattern) ∧
      (p.next (s.conn del) time).state = { p with
        first := false
        cursor := if p.cursor + 1 < s.batches.length then p.cursor + 1 else 0 } ∧
      (p.next (s.conn del) time).err = none := by
  simp only [RedisPagination.next, conn]
  split_ifs with h₁ h₂
  all_goals simp_all [Page.keys, Function.comp_def, List.zipWith_map_right]

def left (p : RedisPagination) : List Text :=
  (s.batches.drop p.cursor).flatten.filter (glob p.pattern)

theorem left_next {p : RedisPagination} (hp : p.cursor < s.batches.length) (time : Nat) :
    let page := p.next (s.conn del) time
    s.left p = page.keys ++ (if page.state.more then s.left page.state else []) ∧
      (page.state.more = true → page.state.cursor = p.cursor + 1 ∧
        page.state.cursor < s.batches.length) := by
  obtain ⟨hkeys, hstate, -⟩ := s.next_conn del p time
  have hbatch : s.batches.getD p.cursor [] = s.batches[p.cursor] := by simp [hp]
  simp only [hkeys, hstate, hbatch, left, List.drop_eq_getElem_cons hp, RedisPagination.more,
    List.flatten_cons, List.filter_append]
  by_cases hlast : p.cursor + 1 < s.batches.length
  · simp [hlast]
  · have hnil : s.batches.drop (p.cursor + 1) = [] := List.drop_eq_nil_of_le (Nat.le_of_not_lt hlast)
    simp [hlast, hnil]

/-- All pages have all that is left. -/
theorem pages_conn (sizes : List Nat) (p : RedisPagination) (time : Nat) (hmore : p.more = true)
    (hp : p.cursor < s.batches.length) (hsizes : s.batches.length ≤ p.cursor + sizes.length) :
    let r := run RedisPagination.more (fun size p time => (p.setPageSize size).next (s.conn del) time)
      sizes p time
    r.1.flatten = s.left p ∧ r.2.more = false := by
  induction sizes generalizing p time with
  | nil => exact absurd hsizes (Nat.not_le.mpr hp)
  | cons size sizes ih =>
    obtain ⟨hleft, hnext⟩ := s.left_next del (p := p.setPageSize size) hp time
    simp only [run, hmore, if_true, List.flatten_cons]
    rw [show s.left p = s.left (p.setPageSize size) from rfl, hleft]
    cases hm : ((p.setPageSize size).next (s.conn del) time).state.more with
    | false => cases sizes <;> simp [run, hm]
    | true =>
      obtain ⟨hcursor, hlt⟩ := hnext hm
      obtain ⟨hflat, hdone⟩ := ih _ ((p.setPageSize size).next (s.conn del) time).time hm hlt (by
        rw [hcursor]
        simp only [RedisPagination.setPageSize, List.length_cons] at hsizes ⊢
        omega)
      simp [hflat, hdone]

/-- The loop of `Has` sees whether a key is left. -/
theorem hasLoop_conn (fuel : Nat) (p : RedisPagination) (hmore : p.more = true)
    (hp : p.cursor < s.batches.length) (hfuel : s.batches.length ≤ p.cursor + fuel) :
    ((s.conn del).hasLoop fuel p).1 = none ∧ (0 < ((s.conn del).hasLoop fuel p).2 ↔ s.left p ≠ []) := by
  induction fuel generalizing p with
  | zero => exact absurd hfuel (Nat.not_le.mpr hp)
  | succ fuel ih =>
    obtain ⟨hleft, hnext⟩ := s.left_next del hp 0
    have herr := (s.next_conn del p 0).2.2
    simp only [RedisConn.hasLoop, hmore, if_true, herr, Option.isSome_none, Bool.false_or]
    by_cases hkvs : (p.next (s.conn del) 0).kvs = []
    · simp only [hkvs, ne_eq, not_true_eq_false, decide_false, Bool.false_eq_true, if_false]
      rw [hleft, show (p.next (s.conn del) 0).keys = [] by simp [Page.keys, hkvs], List.nil_append]
      cases hm : (p.next (s.conn del) 0).state.more with
      | false => cases fuel <;> simp [RedisConn.hasLoop, hm]
      | true =>
        obtain ⟨hcursor, hlt⟩ := hnext hm
        exact ih _ hm hlt (by omega)
    · have hkeys : (p.next (s.conn del) 0).keys ≠ [] := by simpa [Page.keys] using hkvs
      simp [hkvs, hleft, hkeys, List.length_pos_iff]

theorem mem_left (pattern : Text) (pageSize : Nat) (opt : Options) (k : Text) :
    k ∈ s.left (RedisConn.paginate pattern pageSize opt none) ↔
      k ∈ s.keys ∧ glob (patternOf pattern) k = true := by
  rw [left, List.mem_filter, ← s.covers]
  rfl

/-- `Get` with a prefix reads the stored keys that the pattern matches. -/
theorem multi_getKV (key : Text) (hopt : opt.withPrefix = true) :
    ((s.conn del).getKV key opt).multi.map Prod.fst = s.keys.filter (glob (patternOf key)) := by
  simp only [RedisConn.getKV, hopt, conn]
  cases s.keys.filter (glob (patternOf key)) with
  | nil => rfl
  | cons k ks => cases opt.withKeysOnly <;> simp [Function.comp_def, List.map_fst_zip]

/-- The operations with a prefix are about the stored keys that begin with it: `Get` reads them,
`Del` hands them to `DEL`, `Has` finds one, and the pages end and have them. -/
structure Literal (key : Text) (opt : Options) (pageSize : Nat) (sizes : List Nat) : Prop where
  get : ((s.conn del).getKV key opt).multi.map Prod.fst = s.keys.filter (key.isPrefixOf ·)
  delete : (s.conn del).delKV key opt =
    if s.keys.filter (key.isPrefixOf ·) = [] then {} else .of (del (s.keys.filter (key.isPrefixOf ·)))
  has : 0 < ((s.conn del).hasPrefix s.batches.length key).2 ↔ ∃ k ∈ s.keys, key <+: k
  ends : ((s.conn del).pages sizes (RedisConn.paginate key pageSize opt none)).2.more = false
  pages : ∀ k, k ∈ ((s.conn del).pages sizes (RedisConn.paginate key pageSize opt none)).1.flatten ↔
    k ∈ s.keys ∧ key <+: k

variable {s del}

/-- A key without special characters is taken literally. -/
theorem literal_of_plain (hkey : ∀ x ∈ key, x ∉ globChars) (hopt : opt.withPrefix = true)
    (pageSize : Nat) (hsizes : s.batches.length ≤ sizes.length) :
    s.Literal del key opt pageSize sizes := by
  have hstar : '*' ∉ key := fun h => hkey _ h (by decide)
  have hpattern : patternOf key = key ++ ['*'] := if_neg hstar
  have hagain : patternOf (key ++ ['*']) = key ++ ['*'] := if_pos (by simp)
  have hglob : glob (key ++ ['*']) = (key.isPrefixOf ·) := funext (glob_star hkey)
  have hkeys : (s.conn del).keys (patternOf key) = .ok (s.keys.filter (key.isPrefixOf ·)) := by
    rw [hpattern, ← hglob]
    rfl
  have hlt : 0 < s.batches.length := List.length_pos_of_ne_nil s.ne_nil
  obtain ⟨hpages, hmore⟩ := s.pages_conn del sizes (RedisConn.paginate key pageSize opt none) 0 rfl
    hlt (by simpa [RedisConn.paginate] using hsizes)
  have hhas := (s.hasLoop_conn del s.batches.length (RedisConn.paginate (patternOf key) 100
    { withKeysOnly := true } none) rfl hlt (Nat.le_add_left _ _)).2
  refine ⟨?_, ?_, hhas.trans ?_, hmore, fun k => ?_⟩
  · rw [s.multi_getKV del key hopt, hpattern, hglob]
  · simp only [RedisConn.delKV, hopt, hkeys]
    cases s.keys.filter (key.isPrefixOf ·) <;> rfl
  · simp only [ne_eq, List.eq_nil_iff_forall_not_mem, s.mem_left, hpattern, hagain, hglob]
    simp
  · rw [RedisConn.pages, hpages, s.mem_left, hpattern, hglob, List.isPrefixOf_iff_prefix]

def single (k : Text) : RedisStore where
  keys := [k]
  batches := [[k]]
  ne_nil := by simp
  covers := by simp

/-- What `Get` reads on a server with one key says whether the pattern matches it. -/
theorem Literal.glob_single (hstar : '*' ∉ key) (hopt : opt.withPrefix = true)
    (h : (single k).Literal del key opt pageSize sizes) :
    glob (key ++ ['*']) k = key.isPrefixOf k := by
  have hget := h.get
  rw [multi_getKV _ _ _ hopt, patternOf, if_neg hstar] at hget
  cases hmatch : glob (key ++ ['*']) k <;> cases hprefix : key.isPrefixOf k <;>
    simp_all [single]

end RedisStore

/-- For a key without an asterisk, the operations with a prefix are about the stored keys that begin
with it, on every server, exactly if the key has no character with a meaning in a pattern. -/
theorem redis_prefix_literal_iff (key : Text) (hstar : '*' ∉ key) :
    (∀ (s : RedisStore) del opt pageSize sizes, opt.withPrefix = true →
      s.batches.length ≤ sizes.length → s.Literal del key opt pageSize sizes) ↔
      ∀ x ∈ key, x ∉ globChars := by
  refine ⟨fun h => plain_of_glob_star hstar fun k => ?_, fun hkey s del opt pageSize sizes hopt hsizes =>
    RedisStore.literal_of_plain hkey hopt pageSize hsizes⟩
  exact (h (.single k) (fun _ => .ok 0) { withPrefix := true } 1 [1] rfl (by simp [RedisStore.single])).glob_single
    hstar rfl

/-- A server with two keys. -/
def questionMark : RedisStore where
  keys := ["ab".toList, "a?".toList]
  batches := [["ab".toList], ["a?".toList]]
  ne_nil := by simp
  covers k := by simp

theorem redis_prefix_questionMark :
    (∀ (s : RedisStore) del opt pageSize sizes, opt.withPrefix = true →
      s.batches.length ≤ sizes.length → s.Literal del "a?".toList opt pageSize sizes) ↔
      ∀ x ∈ "a?".toList, x ∉ globChars :=
  redis_prefix_literal_iff "a?".toList (by decide)

/-- With a question mark in the prefix, `Del` also deletes a key that does not begin with it. -/
theorem redis_del_questionMark :
    (questionMark.conn fun keys => .ok keys.length).delKV "a?".toList { withPrefix := true } =
        { val := 2 } ∧
      questionMark.keys.filter ("a?".toList.isPrefixOf ·) = ["a?".toList] :=
  ⟨rfl, by decide⟩

end Gofusion.Kv
