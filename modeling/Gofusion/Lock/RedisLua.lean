import Gofusion.Lib.Runs
import Gofusion.Lock.Basic
import Mathlib.Tactic.ByContra

/-!
# The Redis lock with scripts

`redisLuaLocker` of `lock/redis.go`.  Each of its two scripts is one atomic step on the hash of the
key.  `Lock` by the holder raises the count and adds the lease to the time to live, `Unlock` by the
holder lowers the count and deletes the hash at zero.
-/

namespace Gofusion.Lock

open Gofusion.Lib

/-! ## Redis commands on one key -/

/-- The hash of a lock.  The time to live is in milliseconds. -/
structure Hash where
  holder : Text
  count : Int
  ttl : Option Nat
deriving DecidableEq, Repr

/-- What is stored under the key. -/
abbrev Store := Option Hash

def hget (s : Store) : Option Text := s.map Hash.holder

def pttl : Store → Int
  | none => -2
  | some ⟨_, _, none⟩ => -1
  | some ⟨_, _, some ms⟩ => ms

/-- `HMSET` of both fields, which keeps the time to live. -/
def hmset (count : Int) (holder : Text) (s : Store) : Store :=
  some ⟨holder, count, s.bind Hash.ttl⟩

def hincrby (n : Int) (s : Store) : Store := s.map fun h => { h with count := h.count + n }

/-- `PEXPIRE`.  A time that is not positive deletes the key. -/
def pexpire (ms : Int) (s : Store) : Store :=
  s.bind fun h => if ms ≤ 0 then none else some { h with ttl := some ms.toNat }

/-- Time passes, and a key whose time to live is over is gone. -/
def Store.elapse (ms : Nat) (s : Store) : Store :=
  s.bind fun h =>
    match h.ttl with
    | none => some h
    | some ttl => if ttl ≤ ms then none else some { h with ttl := some (ttl - ms) }

/-! ## The scripts -/

/-- `redisLuaLockCommand`. -/
def luaLock (holder : Text) (ms : Int) (s : Store) : Store × Bool :=
  if s = none ∨ hget s = some holder then
    let expired := pttl s
    if expired = -1 ∨ expired = -2 then (pexpire ms (hmset 1 holder s), true)
    else (pexpire (ms + expired) (hincrby 1 s), true)
  else (s, false)

/-- `redisLuaUnlockCommand`. -/
def luaUnlock (holder : Text) (s : Store) : Store × Bool :=
  if hget s = some holder then
    match hincrby (-1) s with
    | some h => if h.count ≤ 0 then (none, true) else (some h, true)
    | none => (none, true)
  else (s, false)

variable {C : Type} (key : C → Text)

/-- One event on the key of the lock. -/
def luaStep (s : Store) : Event C → Store × Bool
  | .lock c expired => luaLock (key c) (leaseMillis expired) s
  | .unlock c _ => luaUnlock (key c) s
  | .elapse ms => (s.elapse ms, true)

/-- The store behind a run that starts without the key. -/
def luaRun (es : List (Event C)) : Store := runFrom (luaStep key) none es

/-! ## What a script does -/

/-- The time to live of a stored hash is set and not over. -/
def Timed (s : Store) : Prop := ∀ h, s = some h → ∃ ttl, h.ttl = some ttl ∧ 0 < ttl

theorem leaseMillis_nonneg (expired : Int) : 0 ≤ leaseMillis expired := by
  unfold leaseMillis tolerance millisecond
  split <;> omega

theorem luaLock_none (holder : Text) (ms : Int) :
    luaLock holder ms none =
      (if ms ≤ 0 then none else some ⟨holder, 1, some ms.toNat⟩, true) := by
  simp [luaLock, pttl, hmset, pexpire]

variable {h : Hash} {ttl : Nat} {ms : Int} {holder : Text}

theorem luaLock_holder (httl : h.ttl = some ttl) (hpos : 0 < ttl) (hms : 0 ≤ ms) :
    luaLock h.holder ms (some h) =
      (some ⟨h.holder, h.count + 1, some (ms.toNat + ttl)⟩, true) := by
  obtain ⟨holder, count, _⟩ := h
  cases httl
  have hsum : ¬ms + (ttl : Int) ≤ 0 := by omega
  have hnat : (ms + (ttl : Int)).toNat = ms.toNat + ttl := by omega
  simp [luaLock, hget, pttl, hincrby, pexpire, hsum, hnat]

theorem luaLock_other (hne : h.holder ≠ holder) (ms : Int) :
    luaLock holder ms (some h) = (some h, false) := by
  simp [luaLock, hget, hne]

/-- A successful `Lock` for a millisecond or more leaves the hash to its client, for the
lease at least. -/
theorem luaLock_success (hs : Timed s) (hms : 1 ≤ ms)
    (hok : (luaLock holder ms s).2 = true) :
    ∃ h ttl, (luaLock holder ms s).1 = some h ∧ h.holder = holder ∧ h.ttl = some ttl ∧
      ms ≤ (ttl : Int) := by
  cases s with
  | none =>
    rw [luaLock_none, if_neg (by omega)]
    exact ⟨_, _, rfl, rfl, rfl, by omega⟩
  | some h =>
    by_cases hc : h.holder = holder
    · obtain ⟨ttl, httl, hpos⟩ := hs h rfl
      rw [← hc, luaLock_holder httl hpos (by omega)]
      exact ⟨_, _, rfl, rfl, rfl, by omega⟩
    · rw [luaLock_other hc] at hok
      cases hok

theorem luaUnlock_holder (h : Hash) :
    luaUnlock h.holder (some h) =
      (if h.count ≤ 1 then none else some { h with count := h.count - 1 }, true) := by
  have hcount : h.count + -1 ≤ 0 ↔ h.count ≤ 1 := by omega
  simp only [luaUnlock, hget, Option.map_some, if_true, hincrby, hcount]
  split <;> rfl

theorem luaUnlock_other (hne : h.holder ≠ holder) :
    luaUnlock holder (some h) = (some h, false) := by
  simp [luaUnlock, hget, hne]

theorem elapse_some (httl : h.ttl = some ttl) (ms : Nat) :
    Store.elapse ms (some h) = if ttl ≤ ms then none else some { h with ttl := some (ttl - ms) } := by
  simp [Store.elapse, httl]

section

variable {key}

/-- A step keeps the time to live. -/
theorem timed_step (s : Store) (e : Event C) (hs : Timed s) : Timed (luaStep key s e).1 := by
  cases s with
  | none =>
    cases e with
    | lock c expired =>
      rw [luaStep, luaLock_none]
      intro h hh
      dsimp only at hh
      split at hh
      · cases hh
      · cases hh
        exact ⟨_, rfl, by omega⟩
    | unlock c expired => exact hs
    | elapse ms => exact hs
  | some h =>
    obtain ⟨ttl, httl, hpos⟩ := hs h rfl
    cases e with
    | lock c expired =>
      by_cases hc : h.holder = key c
      · rw [luaStep, ← hc, luaLock_holder httl hpos (leaseMillis_nonneg expired)]
        rintro h' ⟨⟩
        exact ⟨_, rfl, by omega⟩
      · rw [luaStep, luaLock_other hc]
        exact hs
    | unlock c expired =>
      by_cases hc : h.holder = key c
      · rw [luaStep, ← hc, luaUnlock_holder]
        intro h' hh'
        dsimp only at hh'
        split at hh'
        · cases hh'
        · cases hh'
          exact ⟨ttl, httl, hpos⟩
      · rw [luaStep, luaUnlock_other hc]
        exact hs
    | elapse ms =>
      rw [luaStep, elapse_some httl]
      intro h' hh'
      dsimp only at hh'
      split at hh'
      · cases hh'
      · cases hh'
        exact ⟨_, rfl, by omega⟩

/-- Behind every run a hash has a time to live. -/
theorem timed_run (es : List (Event C)) : Timed (luaRun key es) :=
  runFrom_invariant timed_step es nofun

variable {h' : Hash}

/-- A step on a stored hash, seen from its holder: the hash goes away, or it keeps its
holder and the count follows the calls of the holder. -/
theorem luaStep_some [DecidableEq C] (hkey : Function.Injective key) (ht : Timed (some h))
    (hc : h.holder = key c) {e : Event C} (he : (luaStep key (some h) e).1 = some h') :
    h'.holder = key c ∧
      h'.count = h.count + (e.isLockOf c && (luaStep key (some h) e).2).toNat -
        (e.isUnlockOf c && (luaStep key (some h) e).2).toNat ∧
      (1 ≤ h.count → 1 ≤ h'.count) := by
  obtain ⟨ttl, httl, hpos⟩ := ht h rfl
  cases e with
  | lock c' expired =>
    by_cases hcc : c' = c
    · subst hcc
      rw [luaStep, ← hc, luaLock_holder httl hpos (leaseMillis_nonneg expired)] at he ⊢
      cases he
      simp only [Event.isLockOf, Event.isUnlockOf, decide_true, Bool.and_self, Bool.toNat_true]
      exact ⟨trivial, by simp, fun _ => by omega⟩
    · have hne : h.holder ≠ key c' := fun heq => hcc (hkey (heq.symm.trans hc))
      rw [luaStep, luaLock_other hne] at he ⊢
      cases he
      exact ⟨hc, by simp [Event.isLockOf, Event.isUnlockOf], id⟩
  | unlock c' expired =>
    by_cases hcc : c' = c
    · subst hcc
      rw [luaStep, ← hc, luaUnlock_holder] at he ⊢
      dsimp only at he ⊢
      split at he
      · cases he
      · cases he
        simp only [Event.isLockOf, Event.isUnlockOf, decide_true, Bool.and_self, Bool.toNat_true]
        exact ⟨trivial, by simp, fun _ => by omega⟩
    · have hne : h.holder ≠ key c' := fun heq => hcc (hkey (heq.symm.trans hc))
      rw [luaStep, luaUnlock_other hne] at he ⊢
      cases he
      exact ⟨hc, by simp [Event.isLockOf, Event.isUnlockOf], id⟩
  | elapse ms =>
    rw [luaStep, elapse_some httl] at he ⊢
    dsimp only at he ⊢
    split at he
    · cases he
    · cases he
      exact ⟨hc, by simp [Event.isLockOf, Event.isUnlockOf], id⟩

/-- The successful `Lock`s of a client in events that start without the key, and its
`Unlock`s. -/
def lockCount [DecidableEq C] (key : C → Text) (c : C) (es : List (Event C)) : Nat :=
  successes (luaStep key) (Event.isLockOf c) none es

def unlockCount [DecidableEq C] (key : C → Text) (c : C) (es : List (Event C)) : Nat :=
  successes (luaStep key) (Event.isUnlockOf c) none es

/-- What the events `since` say about the hash behind them: the `Lock` of the client `c`
created it, and it counts the calls of `c`. -/
structure HeldBy [DecidableEq C] (key : C → Text) (c : C) (since : List (Event C)) (h : Hash) :
    Prop where
  created : ∃ expired, since.head? = some (.lock c expired)
  holder : h.holder = key c
  count : h.count = lockCount key c since - unlockCount key c since
  pos : 1 ≤ h.count

theorem heldBy_created [DecidableEq C] (he : (luaStep key none e).1 = some h) :
    ∃ c, HeldBy key c [e] h := by
  cases e with
  | unlock c expired => cases he
  | elapse ms => cases he
  | lock c expired =>
    rw [luaStep, luaLock_none] at he
    dsimp only at he
    split at he
    · cases he
    · cases he
      refine ⟨c, ⟨expired, rfl⟩, rfl, ?_, Int.le_refl 1⟩
      simp [lockCount, unlockCount, successes, luaStep, luaLock_none, Event.isLockOf,
        Event.isUnlockOf]

/-- One more event while the hash is there. -/
theorem HeldBy.step [DecidableEq C] (hkey : Function.Injective key)
    (hheld : HeldBy key c since h) (ht : Timed (some h))
    (hsince : runFrom (luaStep key) none since = some h)
    (he : (luaStep key (some h) e).1 = some h') : HeldBy key c (since ++ [e]) h' := by
  obtain ⟨⟨expired, hhead⟩, hholder, hcount, hpos⟩ := hheld
  obtain ⟨hholder', hcount', hpos'⟩ := luaStep_some hkey ht hholder he
  refine ⟨⟨expired, ?_⟩, hholder', ?_, hpos' hpos⟩
  · rw [List.head?_append, hhead]
    rfl
  · rw [lockCount, unlockCount, successes_concat, successes_concat, hsince, ← lockCount,
      ← unlockCount]
    omega

/-- Behind every run, a stored hash is held by a client since the key was missing. -/
theorem heldBy_of_run [DecidableEq C] (hkey : Function.Injective key) (es : List (Event C))
    (hrun : luaRun key es = some h) :
    ∃ before since, es = before ++ since ∧
      Stretch (luaStep key) (· ≠ none) none before since ∧ ∃ c, HeldBy key c since h := by
  have hpresent : runFrom (luaStep key) none es ≠ none := by
    rw [← luaRun, hrun]
    nofun
  -- The events of the stretch also lead to the hash when they start from the empty store.
  obtain ⟨before, since, rfl, hstretch, hsince, hheld⟩ := exists_stretch (P := (· ≠ none))
    (Q := fun before since => luaRun key (before ++ since) = luaRun key since ∧
      ∀ h, luaRun key since = some h → ∃ c, HeldBy key c since h)
    (by simp)
    (fun before e hbefore _ => by
      have hnone : luaRun key before = none := not_not.mp hbefore
      refine ⟨by rw [luaRun, runFrom_append, ← luaRun, hnone, luaRun], fun h hh => ?_⟩
      exact heldBy_created hh)
    (fun before since e hpre _ ⟨hsince, hheld⟩ => by
      refine ⟨?_, fun h' hh' => ?_⟩
      · rw [luaRun, luaRun, ← List.append_assoc, runFrom_concat, runFrom_concat, ← luaRun, hsince,
          luaRun]
      · have hne : luaRun key since ≠ none := by rwa [← hsince]
        obtain ⟨h, hh⟩ := Option.ne_none_iff_exists'.mp hne
        obtain ⟨c, hheld⟩ := hheld h hh
        rw [luaRun, runFrom_concat, ← luaRun, hh] at hh'
        exact ⟨c, hheld.step hkey (hh ▸ timed_run since) hh hh'⟩)
    es hpresent
  exact ⟨before, since, rfl, hstretch, hheld h (hsince ▸ hrun)⟩

/-- Mutual exclusion and counting of the lock.  Behind every run of clients with
different keys, a stored hash

* belongs to the client whose `Lock` created it, and its count is the number of the
  successful `Lock`s of that client since then minus its `Unlock`s, at least one,
* is not changed by a `Lock` of another client, which fails, nor by its `Unlock`,
* is locked once more by a `Lock` of its client,
* is freed by the `Unlock` of its client that makes up for the last of its `Lock`s, and
  by no earlier one.

And a successful `Lock` for a millisecond or more leaves the hash to its client. -/
theorem luaLock_mutual_exclusion [DecidableEq C] (hkey : Function.Injective key)
    (es : List (Event C)) :
    (∀ h, luaRun key es = some h → ∃ before since c, es = before ++ since ∧
      Stretch (luaStep key) (· ≠ none) none before since ∧ HeldBy key c since h ∧
      (∀ c' expired, c' ≠ c → luaStep key (some h) (.lock c' expired) = (some h, false)) ∧
      (∀ c' expired, c' ≠ c → luaStep key (some h) (.unlock c' expired) = (some h, false)) ∧
      (∀ expired, ∃ h', luaStep key (some h) (.lock c expired) = (some h', true) ∧
        h'.holder = key c ∧ h'.count = h.count + 1) ∧
      (∀ expired, luaStep key (some h) (.unlock c expired) =
        (if lockCount key c since = unlockCount key c since + 1 then none
          else some { h with count := h.count - 1 }, true))) ∧
    (∀ c expired, 1 ≤ leaseMillis expired →
      (luaStep key (luaRun key es) (.lock c expired)).2 = true →
      ∃ h, luaRun key (es ++ [.lock c expired]) = some h ∧ h.holder = key c) := by
  constructor
  · intro h hrun
    obtain ⟨before, since, hes, hstretch, c, hheld⟩ := heldBy_of_run hkey es hrun
    have hholder := hheld.holder
    have hcount := hheld.count
    have hpos := hheld.pos
    have hother : ∀ c', c' ≠ c → h.holder ≠ key c' := fun c' hne heq =>
      hne (hkey (heq.symm.trans hholder))
    obtain ⟨ttl, httl, httlpos⟩ := timed_run es h hrun
    refine ⟨before, since, c, hes, hstretch, hheld, ?_, ?_, ?_, ?_⟩
    · exact fun c' expired hne => luaLock_other (hother c' hne) _
    · exact fun c' expired hne => luaUnlock_other (hother c' hne)
    · intro expired
      rw [luaStep, ← hholder, luaLock_holder httl httlpos (leaseMillis_nonneg expired)]
      exact ⟨_, rfl, rfl, rfl⟩
    · intro expired
      have hlast : h.count ≤ 1 ↔ lockCount key c since = unlockCount key c since + 1 := by omega
      rw [luaStep, ← hholder, luaUnlock_holder]
      simp only [hlast]
  · intro c expired hlease hok
    obtain ⟨h, ttl, hh, hholder, -⟩ := luaLock_success (timed_run es) hlease hok
    refine ⟨h, ?_, hholder⟩
    rw [luaRun, runFrom_concat, ← luaRun]
    exact hh

end

/-- The first client locks twice, the second one fails, the first one unlocks once. -/
def reentrantRun : List (Event Bool) :=
  [.lock true 0, .lock true 0, .lock false 0, .unlock true 0]

theorem reentrantRun_holds :
    ∃ h, luaRun ownKeys reentrantRun = some h ∧ h.holder = "a".toList ∧ h.count = 1 ∧
      ∃ before since c, reentrantRun = before ++ since ∧ HeldBy ownKeys c since h := by
  have hrun : luaRun ownKeys reentrantRun = some ⟨"a".toList, 1, some 4000⟩ := by decide
  obtain ⟨before, since, c, hes, -, hheld, -⟩ :=
    (luaLock_mutual_exclusion ownKeys_injective reentrantRun).1 _ hrun
  exact ⟨_, hrun, rfl, rfl, before, since, c, hes, hheld⟩

/-- Whatever the calls before, there is a time after which every `Lock` succeeds. -/
theorem lua_never_stuck (key : C → Text) (es : List (Event C)) :
    ∃ ms, ∀ c expired, (luaStep key (luaRun key (es ++ [.elapse ms])) (.lock c expired)).2 = true := by
  obtain ⟨ms, hms⟩ : ∃ ms, (luaRun key es).elapse ms = none := by
    cases hs : luaRun key es with
    | none => exact ⟨0, rfl⟩
    | some h =>
      obtain ⟨ttl, httl, -⟩ := timed_run es h hs
      exact ⟨ttl, by simp [elapse_some httl]⟩
  refine ⟨ms, fun c expired => ?_⟩
  have hrun : luaRun key (es ++ [.elapse ms]) = none := (runFrom_concat ..).trans hms
  simp [hrun, luaStep, luaLock_none]

end Gofusion.Lock
