import Gofusion.Lib.Runs
import Gofusion.Utils.Text
import Mathlib.Logic.Function.Basic
import Mathlib.Algebra.GroupWithZero.Nat

/-!
# The MySQL lock

`mysqlLocker` of `lock/mysql.go`, for one key.  A lock is in two places, the lock table of the
server (`GET_LOCK`) and the map `lockTimers` of the locker.  Every acquisition starts a watcher
loop that calls `Unlock` when its time is over.  The loop knows its acquisition by the key only.

`Unlock` builds its statement with `Raw`, which does not run without a finisher.

The clients are lockers in different processes, or the same one with other connections.  A session
of the server keeps its locks until it releases them or ends.
-/

namespace Gofusion.Lock

open Gofusion.Lib

/-! ## The server -/

/-- The lock of the key in the lock table: the session that holds it, and how often the
session has taken it. -/
abbrev ServerLock (S : Type) := Option (S × Nat)

/-- `mysqlLockSQL` with timeout zero, and `mysqlUnlockSQL`. -/
inductive MysqlSQL
  | getLock
  | releaseLock
deriving DecidableEq, Repr

variable {L S : Type} [DecidableEq L] [DecidableEq S]

/-- The server runs a statement of a session.  `GET_LOCK` answers 1 if the session has the
lock afterwards, and can be nested. -/
def runSQL (session : S) : MysqlSQL → ServerLock S → ServerLock S × Int
  | .getLock, none => (some (session, 1), 1)
  | .getLock, some (holder, n) =>
    if holder = session then (some (session, n + 1), 1) else (some (holder, n), 0)
  | .releaseLock, none => (none, 0)
  | .releaseLock, some (holder, n) =>
    if holder = session then (if n ≤ 1 then none else some (session, n - 1), 1)
    else (some (holder, n), 0)

/-- A statement that `Raw` has built. -/
structure Built where
  sql : MysqlSQL

/-- `Raw` builds the statement and does not run it. -/
def raw (sql : MysqlSQL) : Built := ⟨sql⟩

/-- `Error` of a statement that has only been built. -/
def Built.error (_ : Built) : Bool := false

/-- `Scan`, a finisher, runs the statement on a session. -/
def Built.scan (session : S) (stmt : Built) (server : ServerLock S) : ServerLock S × Int :=
  runSQL session stmt.sql server

/-! ## The locker -/

/-- Where a watcher loop is: before its first look at `lockTimers`, in its `select`, in the
call of `Unlock`, or over. -/
inductive Phase
  | starting
  | polling
  | unlocking
  | stopped
deriving DecidableEq, Repr

/-- A watcher loop with its timer and the context of its `Lock` call. -/
structure Watcher where
  phase : Phase
  fired : Bool
  cancelled : Bool
deriving DecidableEq, Repr

/-- A locker.  Its acquisitions are numbered, `next` is the number of the next one. -/
structure MysqlLocker where
  lockTimers : Option Nat
  closed : Bool
  next : Nat
  loops : Nat → Watcher

def newMysqlLocker : MysqlLocker := ⟨none, false, 0, fun _ => ⟨.stopped, false, false⟩⟩

namespace MysqlLocker

def isLocked (m : MysqlLocker) : Bool := m.lockTimers.isSome

def setLoop (m : MysqlLocker) (i : Nat) (w : Watcher) : MysqlLocker :=
  { m with loops := Function.update m.loops i w }

def setPhase (m : MysqlLocker) (i : Nat) (p : Phase) : MysqlLocker :=
  m.setLoop i { m.loops i with phase := p }

/-- The end of a successful `Lock`. -/
def record (m : MysqlLocker) : MysqlLocker :=
  { m.setLoop m.next ⟨.starting, false, false⟩ with lockTimers := some m.next, next := m.next + 1 }

/-- `mysqlLocker.Unlock`. -/
def unlock (m : MysqlLocker) : MysqlLocker × Bool :=
  if (raw .releaseLock).error then (m, false) else ({ m with lockTimers := none }, true)

/-- One turn of the loop of an acquisition. -/
def poll (m : MysqlLocker) (i : Nat) : MysqlLocker :=
  match (m.loops i).phase with
  | .starting => m.setPhase i (if m.isLocked then .polling else .stopped)
  | .polling =>
    if (m.loops i).cancelled || m.closed || (m.loops i).fired then m.setPhase i .unlocking
    else if m.isLocked then m
    else m.setPhase i .stopped
  | .unlocking => m.unlock.1.setPhase i .stopped
  | .stopped => m

end MysqlLocker

structure MysqlWorld (L S : Type) where
  server : ServerLock S
  lockers : L → MysqlLocker

def MysqlWorld.setLocker (w : MysqlWorld L S) (l : L) (m : MysqlLocker) : MysqlWorld L S :=
  { w with lockers := Function.update w.lockers l m }

/-- `len` of a string. -/
def byteLength (s : Text) : Nat := (s.map Char.utf8Size).sum

/-- `mysqlLocker.Lock` of a locker on a connection.  The answer of the server may be lost
on the way. -/
def mysqlLock (lockKey : Text) (l : L) (session : S) (lost : Bool) (w : MysqlWorld L S) :
    MysqlWorld L S × Bool :=
  if 64 < byteLength lockKey then (w, false)
  else if (w.lockers l).isLocked then (w, false)
  else if (raw .getLock).error then (w, false)
  else
    let (server, result) := (raw .getLock).scan session w.server
    if lost then ({ w with server := server }, false)
    else if result ≠ 1 then ({ w with server := server }, false)
    else ({ w with server := server }.setLocker l (w.lockers l).record, true)

/-! ## Runs -/

/-- An event: a call, a timer that fires, a context that is done (of a `Lock` call or of
the locker), a turn of a loop, or the end of a session. -/
inductive MysqlEvent (L S : Type)
  | lock (l : L) (session : S) (lost : Bool)
  | unlock (l : L)
  | fire (l : L) (i : Nat)
  | cancel (l : L) (i : Nat)
  | close (l : L)
  | poll (l : L) (i : Nat)
  | disconnect (session : S)
deriving DecidableEq, Repr

variable (lockKey : Text)

def mysqlStep (w : MysqlWorld L S) : MysqlEvent L S → MysqlWorld L S × Bool
  | .lock l session lost => mysqlLock lockKey l session lost w
  | .unlock l => (w.setLocker l (w.lockers l).unlock.1, (w.lockers l).unlock.2)
  | .fire l i =>
    let m := w.lockers l
    (w.setLocker l (m.setLoop i { m.loops i with fired := true }), true)
  | .cancel l i =>
    let m := w.lockers l
    (w.setLocker l (m.setLoop i { m.loops i with cancelled := true }), true)
  | .close l => (w.setLocker l { w.lockers l with closed := true }, true)
  | .poll l i => (w.setLocker l ((w.lockers l).poll i), true)
  | .disconnect session =>
    ({ w with server := w.server.filter fun held => held.1 ≠ session }, true)

/-- The world behind a run that starts with nothing locked. -/
def mysqlRun (es : List (MysqlEvent L S)) : MysqlWorld L S :=
  runFrom (mysqlStep lockKey) ⟨none, fun _ => newMysqlLocker⟩ es

/-! ## The watcher loops -/

/-- A loop is in its call of `Unlock` while a later acquisition is recorded. -/
def Misfires (m : MysqlLocker) : Prop :=
  ∃ i j, (m.loops i).phase = .unlocking ∧ m.lockTimers = some j ∧ i < j

/-- Whenever a `Lock` of the locker succeeds, all its loops are over. -/
def LocksWithoutLoops (l : L) (es : List (MysqlEvent L S)) : Prop :=
  ∀ before session lost after, es = before ++ .lock l session lost :: after →
    (mysqlStep lockKey (mysqlRun lockKey before) (.lock l session lost)).2 = true →
    ∀ i, (((mysqlRun lockKey before).lockers l).loops i).phase = .stopped

namespace MysqlLocker

variable {m : MysqlLocker}

/-- While an acquisition is recorded, only its own loop is not over. -/
def OnlyOwnLoop (m : MysqlLocker) : Prop :=
  ∀ i j, m.lockTimers = some j → (m.loops i).phase ≠ .stopped → i = j

@[simp] theorem setLoop_loops (i k : Nat) (w : Watcher) :
    (m.setLoop i w).loops k = if k = i then w else m.loops k :=
  Function.update_apply ..

@[simp] theorem setLoop_lockTimers (i : Nat) (w : Watcher) :
    (m.setLoop i w).lockTimers = m.lockTimers := rfl

/-- A loop may change as long as a stopped one stays so. -/
theorem OnlyOwnLoop.setLoop (h : m.OnlyOwnLoop) {w : Watcher}
    (hw : w.phase ≠ .stopped → (m.loops i).phase ≠ .stopped) : (m.setLoop i w).OnlyOwnLoop := by
  intro k j hj hk
  rw [setLoop_loops] at hk
  split at hk
  · subst k
    exact h i j hj (hw hk)
  · exact h k j hj hk

theorem OnlyOwnLoop.poll (h : m.OnlyOwnLoop) (i : Nat) : (m.poll i).OnlyOwnLoop := by
  unfold MysqlLocker.poll
  split
  next hp => exact h.setLoop fun _ => by simp [hp]
  next hp =>
    split
    · exact h.setLoop fun _ => by simp [hp]
    · split
      · exact h
      · exact h.setLoop fun _ => by simp [hp]
  next hp => exact fun _ _ hj => absurd hj nofun
  next hp => exact h

/-- A new acquisition where all loops are over. -/
theorem OnlyOwnLoop.record (h : ∀ i, (m.loops i).phase = .stopped) : m.record.OnlyOwnLoop := by
  intro i j hj hi
  cases hj
  by_contra hne
  exact hi (by simp [MysqlLocker.record, hne, h i])

theorem OnlyOwnLoop.not_misfires (h : m.OnlyOwnLoop) : ¬Misfires m := by
  rintro ⟨i, j, hphase, hj, hlt⟩
  have := h i j hj (by rw [hphase]; nofun)
  omega

end MysqlLocker

omit [DecidableEq S] in
@[simp] theorem setLocker_lockers (w : MysqlWorld L S) (l k : L) (m : MysqlLocker) :
    (w.setLocker l m).lockers k = if k = l then m else w.lockers k :=
  Function.update_apply ..

theorem mysqlLock_lockers (l k : L) (session : S) (lost : Bool) (w : MysqlWorld L S) :
    (mysqlLock lockKey l session lost w).1.lockers k =
      if (mysqlLock lockKey l session lost w).2 ∧ k = l then (w.lockers k).record
      else w.lockers k := by
  unfold mysqlLock
  split
  · simp
  split
  · simp
  split
  · simp
  dsimp only
  split
  · simp
  split
  · simp
  · by_cases hk : k = l <;> simp [hk]

variable {w : MysqlWorld L S}

/-- A step of the server and its lockers. -/
theorem onlyOwnLoop_step
    (hw : (w.lockers l).OnlyOwnLoop)
    (he : ∀ session lost, e = .lock l session lost → (mysqlStep lockKey w e).2 = true →
      ∀ i, ((w.lockers l).loops i).phase = .stopped) :
    ((mysqlStep lockKey w e).1.lockers l).OnlyOwnLoop := by
  -- An event of another locker leaves this one alone.
  have hset : ∀ l' m, (l = l' → m.OnlyOwnLoop) → ((w.setLocker l' m).lockers l).OnlyOwnLoop := by
    intro l' m hm
    rw [setLocker_lockers]
    split
    next heq => exact hm heq
    next => exact hw
  cases e with
  | lock l' session lost =>
    rw [mysqlStep, mysqlLock_lockers]
    split
    next h =>
      obtain ⟨hok, rfl⟩ := h
      exact .record (he session lost rfl hok)
    next => exact hw
  | unlock l' => exact hset l' _ fun _ _ _ hj => absurd hj nofun
  | fire l' i | cancel l' i => exact hset l' _ (by rintro rfl; exact hw.setLoop id)
  | close l' => exact hset l' _ (by rintro rfl; exact hw)
  | poll l' i => exact hset l' _ (by rintro rfl; exact hw.poll i)
  | disconnect session => exact hw

/-- A run in which every lock finds the loops stopped. -/
theorem onlyOwnLoop_run {es : List (MysqlEvent L S)} (hes : LocksWithoutLoops lockKey l es) :
    ((mysqlRun lockKey es).lockers l).OnlyOwnLoop := by
  induction es using List.reverseRecOn with
  | nil => exact fun _ _ hj => absurd hj nofun
  | append_singleton es e ih =>
    rw [mysqlRun, runFrom_concat, ← mysqlRun]
    refine onlyOwnLoop_step lockKey (ih ?_) ?_
    · rintro before session lost after rfl
      exact hes before session lost (after ++ [e]) (by simp)
    · rintro session lost rfl hok
      exact hes es session lost [] rfl hok

section

variable {l : L} {i : Nat}

theorem poll_from_starting (hp : ((w.lockers l).loops i).phase = .starting)
    (hlocked : (w.lockers l).isLocked) :
    let w' := (mysqlStep lockKey w (.poll l i)).1
    ((w'.lockers l).loops i).phase = .polling ∧
      (w'.lockers l).lockTimers = (w.lockers l).lockTimers := by
  simp [mysqlStep, MysqlLocker.poll, hp, hlocked, MysqlLocker.setPhase]

theorem fire_poll_from_polling (hp : ((w.lockers l).loops i).phase = .polling) :
    let w' := runFrom (mysqlStep lockKey) w [.fire l i, .poll l i]
    ((w'.lockers l).loops i).phase = .unlocking ∧
      (w'.lockers l).lockTimers = (w.lockers l).lockTimers := by
  simp [mysqlStep, MysqlLocker.poll, hp, MysqlLocker.setPhase]

end

/-- A loop that is not over while a later acquisition is recorded calls `Unlock` on that
one if its timer fires next. -/
theorem exists_misfire (hj : (w.lockers l).lockTimers = some j) (hlt : i < j)
    (halive : ((w.lockers l).loops i).phase ≠ .stopped) :
    ∃ turns : List (MysqlEvent L S), (∀ e ∈ turns, e = .fire l i ∨ e = .poll l i) ∧
      Misfires ((runFrom (mysqlStep lockKey) w turns).lockers l) := by
  have hpolling : ∀ {w : MysqlWorld L S}, (w.lockers l).lockTimers = some j →
      ((w.lockers l).loops i).phase = .polling →
      Misfires ((runFrom (mysqlStep lockKey) w [.fire l i, .poll l i]).lockers l) := by
    intro w hj hp
    obtain ⟨hp', hj'⟩ := fire_poll_from_polling lockKey hp
    exact ⟨i, j, hp', hj'.trans hj, hlt⟩
  cases hp : ((w.lockers l).loops i).phase with
  | starting =>
    have hlocked : (w.lockers l).isLocked := by simp [MysqlLocker.isLocked, hj]
    obtain ⟨hp', hj'⟩ := poll_from_starting lockKey hp hlocked
    exact ⟨[.poll l i, .fire l i, .poll l i], by simp, hpolling (hj'.trans hj) hp'⟩
  | polling => exact ⟨[.fire l i, .poll l i], by simp, hpolling hj hp⟩
  | unlocking => exact ⟨[], by simp, i, j, hp, hj, hlt⟩
  | stopped => exact absurd hp halive

/-- The loop of an acquisition does not call `Unlock` on a later one in runs where a `Lock`
only succeeds when all earlier loops are over.  Where an earlier loop is still there next
to the record of a later acquisition, it does as soon as its timer fires. -/
theorem watcher_unlocks_only_own (l : L) :
    (∀ es : List (MysqlEvent L S), LocksWithoutLoops lockKey l es → ∀ before, before <+: es →
      ¬Misfires ((mysqlRun lockKey before).lockers l)) ∧
    (∀ (es : List (MysqlEvent L S)) i j, ((mysqlRun lockKey es).lockers l).lockTimers = some j →
      i < j → (((mysqlRun lockKey es).lockers l).loops i).phase ≠ .stopped →
      ∃ turns : List (MysqlEvent L S), (∀ e ∈ turns, e = .fire l i ∨ e = .poll l i) ∧
        Misfires ((mysqlRun lockKey (es ++ turns)).lockers l)) := by
  constructor
  · rintro es hes before ⟨after, rfl⟩
    refine (onlyOwnLoop_run lockKey fun pre session lost post heq => ?_).not_misfires
    exact hes pre session lost (post ++ after) (by rw [heq, List.append_assoc, List.cons_append])
  · intro es i j hj hlt halive
    obtain ⟨turns, hturns, hmis⟩ := exists_misfire lockKey hj hlt halive
    exact ⟨turns, hturns, by rwa [mysqlRun, runFrom_append]⟩

/-- The first loop takes its turn only after the key is unlocked and locked again. -/
def lateLoopRun : List (MysqlEvent Unit Unit) :=
  [.lock () () false, .unlock (), .lock () () false, .poll () 0, .fire () 0, .poll () 0]

theorem lateLoopRun_misfires :
    Misfires ((mysqlRun "app:key".toList lateLoopRun).lockers ()) ∧
    ((mysqlRun "app:key".toList (lateLoopRun ++ [.poll () 0])).lockers ()).lockTimers = none :=
  ⟨⟨0, 1, by decide, by decide, by decide⟩, by decide⟩

/-- The first loop sees the `Unlock` before the key is locked again. -/
def endedLoopRun : List (MysqlEvent Unit Unit) :=
  [.lock () () false, .poll () 0, .unlock (), .poll () 0, .lock () () false, .poll () 1,
    .fire () 0, .fire () 1, .poll () 0, .poll () 1]

theorem endedLoopRun_fires_own :
    (((mysqlRun "app:key".toList endedLoopRun).lockers ()).loops 1).phase = .unlocking ∧
    ((mysqlRun "app:key".toList endedLoopRun).lockers ()).lockTimers = some 1 ∧
    ∀ before, before <+: endedLoopRun →
      ¬Misfires ((mysqlRun "app:key".toList before).lockers ()) := by
  refine ⟨by decide, by decide,
    (watcher_unlocks_only_own (S := Unit) "app:key".toList ()).1 endedLoopRun ?_⟩
  intro before session lost after heq _ i
  -- The two locks are the first event and the fifth.
  rcases before with _ | ⟨e₁, _ | ⟨e₂, _ | ⟨e₃, _ | ⟨e₄, _ | ⟨e₅, before⟩⟩⟩⟩⟩ <;>
    simp [endedLoopRun] at heq
  · rfl
  · obtain ⟨rfl, rfl, rfl, rfl, -, -⟩ := heq
    cases i with
    | zero => decide
    | succ i => rfl
  · have hmem : MysqlEvent.lock () () lost ∈
        [MysqlEvent.poll () 1, .fire () 0, .fire () 1, .poll () 0, .poll () 1] := by
      rw [heq.2.2.2.2.2]
      exact List.mem_append_right _ List.mem_cons_self
    simp at hmem

/-! ## The lock of the server -/

def Holds (w : MysqlWorld L S) (session : S) : Prop := ∃ n, w.server = some (session, n)

/-- A `Lock` of the locker gets as far as `GET_LOCK`. -/
def Reaches (w : MysqlWorld L S) (l : L) : Prop :=
  byteLength lockKey ≤ 64 ∧ (w.lockers l).lockTimers = none

/-- The event is a `Lock` on the session that gets as far as `GET_LOCK`, and no other
session holds the lock. -/
def Takes (w : MysqlWorld L S) (e : MysqlEvent L S) (session : S) : Prop :=
  ∃ l lost, e = .lock l session lost ∧ Reaches lockKey w l ∧
    ∀ holder, Holds w holder → holder = session

omit [DecidableEq L] in
theorem getLock_granted (hfree : ∀ holder, Holds w holder → holder = session) :
    ∃ n, runSQL session .getLock w.server = (some (session, n), 1) := by
  cases hs : w.server with
  | none => exact ⟨1, rfl⟩
  | some held =>
    obtain rfl := hfree held.1 ⟨held.2, hs⟩
    exact ⟨held.2 + 1, by simp [runSQL]⟩

omit [DecidableEq L] in
theorem getLock_refused (hheld : Holds w holder) (hne : holder ≠ session) :
    runSQL session .getLock w.server = (w.server, 0) := by
  obtain ⟨n, hs⟩ := hheld
  simp [hs, runSQL, hne]

theorem mysqlLock_not_reaches (h : ¬Reaches lockKey w l) (session : S) (lost : Bool) :
    mysqlLock lockKey l session lost w = (w, false) := by
  unfold mysqlLock
  split
  · rfl
  split
  · rfl
  next hlen hlocked =>
    exact absurd ⟨Nat.not_lt.mp hlen, by simpa [MysqlLocker.isLocked] using hlocked⟩ h

theorem mysqlLock_reaches (h : Reaches lockKey w l)
    (hsql : runSQL session .getLock w.server = (server, result)) (lost : Bool) :
    mysqlLock lockKey l session lost w =
      if lost = true ∨ result ≠ 1 then ({ w with server := server }, false)
      else ({ w with server := server }.setLocker l (w.lockers l).record, true) := by
  have hlen : ¬64 < byteLength lockKey := Nat.not_lt.mpr h.1
  have hlocked : (w.lockers l).isLocked = false := by rw [MysqlLocker.isLocked, h.2]; rfl
  simp only [mysqlLock, hlen, if_false, hlocked, Built.error, Built.scan, raw, hsql]
  cases lost <;> simp

/-- The lock of the server changes hands in two ways only: a session takes it, or the
session that holds it ends. -/
theorem holds_step (w : MysqlWorld L S) (e : MysqlEvent L S) (session : S) :
    Holds (mysqlStep lockKey w e).1 session ↔
      Takes lockKey w e session ∨ (Holds w session ∧ e ≠ .disconnect session) := by
  have hother : ∀ {e : MysqlEvent L S} {w' : MysqlWorld L S}, w'.server = w.server →
      (∀ l lost, e ≠ .lock l session lost) → e ≠ .disconnect session →
      (Holds w' session ↔ Takes lockKey w e session ∨ (Holds w session ∧ e ≠ .disconnect session)) := by
    intro e w' hserver hlock hend
    have hno : ¬Takes lockKey w e session := fun ⟨l, lost, he, _⟩ => hlock l lost he
    simp [Holds, hserver, hno, hend]
  cases e with
  | lock l session' lost =>
    by_cases hreach : Reaches lockKey w l
    · by_cases hfree : ∀ holder, Holds w holder → holder = session'
      · obtain ⟨n, hsql⟩ := getLock_granted hfree
        have hserver : (mysqlLock lockKey l session' lost w).1.server = some (session', n) := by
          rw [mysqlLock_reaches lockKey hreach hsql]
          split <;> rfl
        rw [mysqlStep, Holds, hserver]
        constructor
        · rintro ⟨n, ⟨⟩⟩
          exact .inl ⟨l, lost, rfl, hreach, hfree⟩
        · rintro (⟨l', lost', heq, -⟩ | ⟨hholds, -⟩)
          · cases heq
            exact ⟨n, rfl⟩
          · exact ⟨n, by rw [hfree session hholds]⟩
      · obtain ⟨holder, hholds, hne⟩ : ∃ holder, Holds w holder ∧ holder ≠ session' := by
          simpa using hfree
        have hserver : (mysqlLock lockKey l session' lost w).1.server = w.server := by
          rw [mysqlLock_reaches lockKey hreach (getLock_refused hholds hne)]
          split <;> rfl
        have hno : ¬Takes lockKey w (.lock l session' lost) session := by
          rintro ⟨l', lost', heq, -, hfree'⟩
          cases heq
          exact hfree hfree'
        simp [mysqlStep, Holds, hserver, hno]
    · have hno : ¬Takes lockKey w (.lock l session' lost) session := by
        rintro ⟨l', lost', heq, hreach', -⟩
        cases heq
        exact hreach hreach'
      simp [mysqlStep, mysqlLock_not_reaches lockKey hreach, hno]
  | unlock l | fire l i | cancel l i | close l | poll l i => exact hother rfl nofun nofun
  | disconnect session' =>
    have hno : ¬Takes lockKey w (.disconnect session') session := nofun
    have hfilter : ∀ held : S × Nat,
        (w.server.filter fun held => decide (held.1 ≠ session')) = some held ↔
          w.server = some held ∧ held.1 ≠ session' := by simp
    simp only [mysqlStep, Holds, hfilter, hno, false_or, ne_eq, MysqlEvent.disconnect.injEq]
    constructor
    · rintro ⟨n, hs, hne⟩
      exact ⟨⟨n, hs⟩, fun heq => hne heq.symm⟩
    · rintro ⟨⟨n, hs⟩, hne⟩
      exact ⟨n, hs, fun heq => hne heq.symm⟩

/-- A session holds the lock exactly when it has taken it and has not ended since. -/
theorem holds_run_iff (es : List (MysqlEvent L S)) (session : S) :
    Holds (mysqlRun lockKey es) session ↔ ∃ before e since, es = before ++ e :: since ∧
      Takes lockKey (mysqlRun lockKey before) e session ∧ .disconnect session ∉ since := by
  induction es using List.reverseRecOn with
  | nil =>
    constructor
    · rintro ⟨n, ⟨⟩⟩
    · rintro ⟨before, e, since, heq, -⟩
      simp at heq
  | append_singleton es e ih =>
    rw [mysqlRun, runFrom_concat, ← mysqlRun, holds_step, ih]
    constructor
    · rintro (htakes | ⟨⟨before, e', since, rfl, htakes, hno⟩, hend⟩)
      · exact ⟨es, e, [], rfl, htakes, List.not_mem_nil⟩
      · refine ⟨before, e', since ++ [e], by simp, htakes, ?_⟩
        simpa [hno] using Ne.symm hend
    · rintro ⟨before, e', since, heq, htakes, hno⟩
      rcases List.eq_nil_or_concat since with rfl | ⟨since, e'', rfl⟩
      · obtain ⟨rfl, he⟩ := List.append_inj' heq rfl
        cases he
        exact .inl htakes
      · rw [List.concat_eq_append] at heq hno
        have hsplit : es ++ [e] = (before ++ e' :: since) ++ [e''] := by simpa using heq
        obtain ⟨rfl, he⟩ := List.append_inj' hsplit rfl
        cases he
        rw [List.mem_append, not_or] at hno
        refine .inr ⟨⟨before, e', since, rfl, htakes, hno.1⟩, ?_⟩
        rintro rfl
        exact hno.2 List.mem_cons_self

/-- A successful `Lock` takes the lock of the server. -/
theorem takes_of_lock
    (hok : (mysqlStep lockKey w (.lock l session lost)).2 = true) :
    Takes lockKey w (.lock l session lost) session := by
  by_cases hreach : Reaches lockKey w l
  · refine ⟨l, lost, rfl, hreach, fun holder hholds => ?_⟩
    by_contra hne
    rw [mysqlStep, mysqlLock_reaches lockKey hreach (getLock_refused hholds hne)] at hok
    simp at hok
  · rw [mysqlStep, mysqlLock_not_reaches lockKey hreach] at hok
    cases hok

/-- A successful `Lock` takes the lock of the server.  `Unlock` returns no error and leaves
that lock to the session, unless the session has ended since it last took it.  As long as
a session holds the lock, `Lock` on another session fails.  When no session does, it
succeeds. -/
theorem mysqlUnlock_frees_iff (es : List (MysqlEvent L S)) (l : L) :
    let w := mysqlRun lockKey (es ++ [.unlock l])
    (∀ before session lost since, es = before ++ .lock l session lost :: since →
      (mysqlStep lockKey (mysqlRun lockKey before) (.lock l session lost)).2 = true →
      Takes lockKey (mysqlRun lockKey before) (.lock l session lost) session) ∧
    (mysqlStep lockKey (mysqlRun lockKey es) (.unlock l)).2 = true ∧
    (∀ session, ¬Holds w session ↔ ∀ before e since, es = before ++ e :: since →
      Takes lockKey (mysqlRun lockKey before) e session → .disconnect session ∈ since) ∧
    (∀ l' session session' lost, Holds w session → session' ≠ session →
      (mysqlStep lockKey w (.lock l' session' lost)).2 = false) ∧
    (∀ l' session', (∀ session, ¬Holds w session) → Reaches lockKey w l' →
      (mysqlStep lockKey w (.lock l' session' false)).2 = true) := by
  intro w
  refine ⟨fun _ _ _ _ _ => takes_of_lock lockKey, rfl, fun session => ?_, ?_, ?_⟩
  · have hserver : w.server = (mysqlRun lockKey es).server := by
      simp only [w, mysqlRun, runFrom_concat]
      rfl
    rw [Holds, hserver, ← Holds, holds_run_iff]
    simp only [not_exists, not_and, not_not]
  · intro l' session session' lost hholds hne
    by_cases hreach : Reaches lockKey w l'
    · rw [mysqlStep, mysqlLock_reaches lockKey hreach (getLock_refused hholds hne.symm)]
      simp
    · rw [mysqlStep, mysqlLock_not_reaches lockKey hreach]
  · intro l' session' hfree hreach
    obtain ⟨n, hsql⟩ := getLock_granted fun holder h => absurd h (hfree holder)
    rw [mysqlStep, mysqlLock_reaches lockKey hreach hsql]
    simp

/-- Two clients on sessions of their own.  The first has unlocked, and the second still
cannot lock. -/
theorem unlocked_still_held :
    let w := mysqlRun "app:key".toList [.lock true true false, .unlock true]
    (w.lockers true).lockTimers = none ∧ Holds w true ∧
    (mysqlStep "app:key".toList w (.lock false false false)).2 = false :=
  ⟨by decide, ⟨1, by decide⟩, by decide⟩

theorem ended_session_frees :
    ¬Holds (mysqlRun "app:key".toList ([.lock true true false, .disconnect true] ++ [.unlock true]))
      true := by
  refine ((mysqlUnlock_frees_iff "app:key".toList
    [.lock true true false, .disconnect true] true).2.2.1 true).mpr ?_
  intro before e since heq htakes
  rcases before with _ | ⟨e₁, _ | ⟨e₂, before⟩⟩ <;> simp at heq
  · simp [← heq.2]
  · obtain ⟨rfl, rfl, rfl⟩ := heq
    obtain ⟨l, lost, heq, -⟩ := htakes
    cases heq

end Gofusion.Lock
