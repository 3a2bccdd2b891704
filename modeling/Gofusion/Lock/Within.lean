import Gofusion.Lib.Runs
import Gofusion.Utils.Text
import Mathlib.Logic.Basic

/-!
# Running a callback under a lock

`Within` of `lock/candy.go`.  A goroutine calls the locker until a call succeeds, while the
caller waits for it, for the timeout or for its context.  The two meet in two channels of
capacity one: `done`, a deferred send of the goroutine, and `timeFault`, by which the caller has
given up.  The goroutine looks at it only between two calls.

`Goc` waits for its context or for the promise of the goroutine, but the promise is an operand of
the `select` and runs the goroutine to its end first.

The outcomes of the lock calls are given as a sequence, and the moves of the two sides, of
the timer and of the context interleave freely.
-/

namespace Gofusion.Lock

open Gofusion.Lib

structure LockOption where
  reentrantKey : Text
  expired : Int
deriving DecidableEq, Repr

/-- What a call of `Within` is given.  `ulid` is the identifier it draws if there is no
reentrant key. -/
structure WithinCall where
  reentrantKey : Text
  ulid : Text
  expired : Int
  forceSync : Bool
deriving DecidableEq, Repr

/-- `optionals`, which all calls of the locker get. -/
def WithinCall.optionals (w : WithinCall) : LockOption where
  reentrantKey := if w.reentrantKey = [] then w.ulid else w.reentrantKey
  expired := if 0 < w.expired then w.expired else 0

/-- How a call of `Lock` or `ReentrantLock` ends. -/
inductive Outcome
  | ok
  | error
  | panic
deriving DecidableEq, Repr

/-- Where the goroutine is: at its `select`, in a lock call, in the pause after a failed
one, before the deferred send, or over. -/
inductive Acquirer
  | checking
  | calling
  | sleeping
  | exiting
  | finished
deriving DecidableEq, Repr

inductive WithinResult
  | callback
  | errTimeout
  | errContextDone
deriving DecidableEq, Repr

/-- Where the caller is: in `Goc`, at its `select`, in the callback, or back. -/
inductive Caller
  | starting
  | waiting
  | running
  | returned (r : WithinResult)
deriving DecidableEq, Repr

/-- What the locker and the callback see. -/
inductive Action
  | lock (opt : LockOption) (outcome : Outcome)
  | callback
  | unlock (opt : LockOption)
deriving DecidableEq, Repr

/-- `calls` counts the lock calls that have ended, `log` is what happened so far. -/
structure WithinState where
  acquirer : Acquirer
  caller : Caller
  done : Bool
  timeFault : Bool
  timer : Bool
  ctxDone : Bool
  calls : Nat
  log : List Action
deriving DecidableEq, Repr

def WithinState.init : WithinState := ⟨.checking, .starting, false, false, false, false, 0, []⟩

/-- The moves of the goroutine, of the caller, and of the timer and the context. -/
inductive Move
  | check
  | answer
  | wake
  | send
  | enter
  | receive
  | timeout
  | contextDone
  | finish
  | fire
  | cancel
deriving DecidableEq, Repr

variable (w : WithinCall) (outcome : Nat → Outcome)

/-- One move, if it is enabled. -/
def withinStep (s : WithinState) : Move → Option WithinState
  | .check =>
    if s.acquirer = .checking then
      if s.timeFault then some { s with acquirer := .exiting, timeFault := false }
      else some { s with acquirer := .calling }
    else none
  | .answer =>
    if s.acquirer = .calling then
      some { s with
        acquirer := if outcome s.calls = .error then .sleeping else .exiting
        calls := s.calls + 1
        log := s.log ++ [.lock w.optionals (outcome s.calls)] }
    else none
  | .wake => if s.acquirer = .sleeping then some { s with acquirer := .checking } else none
  | .send =>
    if s.acquirer = .exiting then some { s with acquirer := .finished, done := true } else none
  | .enter =>
    if s.caller = .starting ∧ (w.forceSync → s.acquirer = .finished) then
      some { s with caller := .waiting }
    else none
  | .receive =>
    if s.caller = .waiting ∧ s.done then
      some { s with caller := .running, done := false, log := s.log ++ [.callback] }
    else none
  | .timeout =>
    if s.caller = .waiting ∧ s.timer then
      some { s with caller := .returned .errTimeout, timeFault := true }
    else none
  | .contextDone =>
    if s.caller = .waiting ∧ s.ctxDone then
      some { s with caller := .returned .errContextDone, timeFault := true }
    else none
  | .finish =>
    if s.caller = .running then
      some { s with caller := .returned .callback, log := s.log ++ [.unlock w.optionals] }
    else none
  | .fire => if s.caller = .starting then none else some { s with timer := true }
  | .cancel => some { s with ctxDone := true }

/-- A state some moves lead to. -/
def WithinReachable (s : WithinState) : Prop :=
  ∃ moves, exec (withinStep w outcome) .init moves = some s

/-! ## What holds in every reachable state -/

/-- The caller has returned without the callback. -/
def GaveUp (c : Caller) : Prop := c = .returned .errTimeout ∨ c = .returned .errContextDone

def callerLog : Caller → List Action
  | .running => [.callback]
  | .returned .callback => [.callback, .unlock w.optionals]
  | _ => []

def lockLog (n : Nat) : List Action :=
  (List.range n).map fun m => .lock w.optionals (outcome m)

/-- The first lock calls fail, and the next one does not. -/
def FirstAnswer (n : Nat) : Prop := outcome n ≠ .error ∧ ∀ m < n, outcome m = .error

structure WithinInv (s : WithinState) : Prop where
  log_eq : s.log = lockLog w outcome s.calls ++ callerLog w s.caller
  errors : s.acquirer ≠ .exiting → s.acquirer ≠ .finished → ∀ m < s.calls, outcome m = .error
  exited : s.acquirer = .exiting ∨ s.acquirer = .finished →
    (∃ n, s.calls = n + 1 ∧ FirstAnswer outcome n) ∨
      (GaveUp s.caller ∧ ∀ m < s.calls, outcome m = .error)
  done_finished : s.done = true → s.acquirer = .finished
  running_finished : callerLog w s.caller ≠ [] → s.acquirer = .finished
  timeFault_gaveUp : s.timeFault = true → GaveUp s.caller

variable {s s' : WithinState} {a : Move}

section

variable {w outcome}

theorem lockLog_succ (n : Nat) :
    lockLog w outcome (n + 1) = lockLog w outcome n ++ [.lock w.optionals (outcome n)] := by
  rw [lockLog, List.range_succ, List.map_append]
  rfl

theorem callerLog_gaveUp (h : GaveUp c) : callerLog w c = [] := by
  rcases h with rfl | rfl <;> rfl

theorem withinInv_init : WithinInv w outcome .init := by
  constructor <;> simp [WithinState.init, lockLog, callerLog]

/-- Before the goroutine is over, the caller has written nothing and there is nothing to
receive. -/
theorem WithinInv.before_finished (h : WithinInv w outcome s) (hpc : s.acquirer ≠ .finished) :
    s.done = false ∧ callerLog w s.caller = [] :=
  ⟨Bool.eq_false_iff.mpr fun hdone => hpc (h.done_finished hdone),
    not_not.mp fun hlog => hpc (h.running_finished hlog)⟩

/-- A move of the goroutine. -/
theorem withinInv_goroutine (h : WithinInv w outcome s)
    (ha : a = .check ∨ a = .answer ∨ a = .wake ∨ a = .send)
    (hstep : withinStep w outcome s a = some s') : WithinInv w outcome s' := by
  have hbefore := h.before_finished
  obtain ⟨hlog, herrors, hexited, hdone, hrunning, hfault⟩ := h
  rcases ha with rfl | rfl | rfl | rfl <;>
    simp only [withinStep, Option.ite_none_right_eq_some, Option.some.injEq] at hstep <;>
    obtain ⟨hpc, hstep⟩ := hstep <;> rw [hpc] at herrors hbefore
  · obtain ⟨hnone, hcaller⟩ := hbefore nofun
    split at hstep
    next htf =>
      obtain rfl := Option.some.inj hstep
      exact ⟨hlog, nofun, fun _ => .inr ⟨hfault htf, herrors nofun nofun⟩, by simp [hnone],
        by simp [hcaller], nofun⟩
    next =>
      obtain rfl := Option.some.inj hstep
      exact ⟨hlog, fun _ _ => herrors nofun nofun, nofun, by simp [hnone], by simp [hcaller], hfault⟩
  · obtain ⟨hnone, hcaller⟩ := hbefore nofun
    have hprev := herrors nofun nofun
    obtain rfl := hstep
    refine ⟨?_, ?_, ?_, by simp [hnone], by simp [hcaller], hfault⟩
    · rw [hlog, hcaller, lockLog_succ, List.append_nil, List.append_nil]
    · intro hexit _ m hm
      by_cases herr : outcome s.calls = .error
      · rcases Nat.lt_succ_iff_lt_or_eq.mp hm with hm | rfl
        · exact hprev m hm
        · exact herr
      · simp [herr] at hexit
    · intro hexit
      by_cases herr : outcome s.calls = .error
      · simp [herr] at hexit
      · exact .inl ⟨s.calls, rfl, herr, hprev⟩
  · obtain ⟨hnone, hcaller⟩ := hbefore nofun
    obtain rfl := hstep
    exact ⟨hlog, fun _ _ => herrors nofun nofun, nofun, by simp [hnone], by simp [hcaller], hfault⟩
  · obtain rfl := hstep
    exact ⟨hlog, fun _ h => absurd rfl h, fun _ => hexited (.inl hpc), fun _ => rfl, fun _ => rfl,
      hfault⟩

/-- A move of the caller. -/
theorem withinInv_caller (h : WithinInv w outcome s)
    (ha : a = .enter ∨ a = .receive ∨ a = .timeout ∨ a = .contextDone ∨ a = .finish)
    (hstep : withinStep w outcome s a = some s') : WithinInv w outcome s' := by
  obtain ⟨hlog, herrors, hexited, hdone, hrunning, hfault⟩ := h
  rcases ha with rfl | rfl | rfl | rfl | rfl <;>
    simp only [withinStep, Option.ite_none_right_eq_some, Option.some.injEq] at hstep <;>
    obtain ⟨hpc, rfl⟩ := hstep
  · rw [hpc.1] at hlog hexited hfault
    exact ⟨hlog, herrors, fun h => (hexited h).imp_right fun h => ⟨by simp [GaveUp] at h, h.2⟩,
      hdone, nofun, fun h => by simpa [GaveUp] using hfault h⟩
  · rw [hpc.1] at hlog hexited hfault
    refine ⟨?_, herrors, fun h => (hexited h).imp_right fun h => ⟨by simp [GaveUp] at h, h.2⟩,
      nofun, fun _ => hdone hpc.2, fun h => by simpa [GaveUp] using hfault h⟩
    rw [hlog]
    simp [callerLog]
  · rw [hpc.1] at hlog hexited
    exact ⟨hlog, herrors, fun h => (hexited h).imp_right fun h => ⟨.inl rfl, h.2⟩, hdone, nofun,
      fun _ => .inl rfl⟩
  · rw [hpc.1] at hlog hexited
    exact ⟨hlog, herrors, fun h => (hexited h).imp_right fun h => ⟨.inr rfl, h.2⟩, hdone, nofun,
      fun _ => .inr rfl⟩
  · rw [hpc] at hlog hexited hfault hrunning
    refine ⟨?_, herrors, fun h => (hexited h).imp_right fun h => ⟨by simp [GaveUp] at h, h.2⟩,
      hdone, fun _ => hrunning nofun, fun h => by simpa [GaveUp] using hfault h⟩
    rw [hlog]
    simp [callerLog]

/-- Every move keeps the invariant. -/
theorem withinInv_step (h : WithinInv w outcome s) (hstep : withinStep w outcome s a = some s') :
    WithinInv w outcome s' := by
  cases a with
  | check | answer | wake | send => exact withinInv_goroutine h (by simp) hstep
  | enter | receive | timeout | contextDone | finish => exact withinInv_caller h (by simp) hstep
  | fire =>
    simp only [withinStep, Option.ite_none_left_eq_some, Option.some.injEq] at hstep
    obtain ⟨-, rfl⟩ := hstep
    exact ⟨h.log_eq, h.errors, h.exited, h.done_finished, h.running_finished, h.timeFault_gaveUp⟩
  | cancel =>
    obtain rfl := Option.some.inj hstep
    exact ⟨h.log_eq, h.errors, h.exited, h.done_finished, h.running_finished, h.timeFault_gaveUp⟩

/-- It holds in every reachable state. -/
theorem withinInv_reachable (h : WithinReachable w outcome s) : WithinInv w outcome s := by
  obtain ⟨moves, hmoves⟩ := h
  exact exec_invariant withinInv_step withinInv_init hmoves

end

/-! ## The callback runs under the lock -/

def Action.isUnlock : Action → Bool
  | .unlock _ => true
  | _ => false

/-- The callback runs after a lock call has succeeded and at most once.  Then comes one
`Unlock`, with the options of the lock calls, and there is no other. -/
structure CallbackLocked (s : WithinState) : Prop where
  locked : .callback ∈ s.log → ∃ before after, s.log = before ++ .callback :: after ∧
    .lock w.optionals .ok ∈ before
  once : s.log.count .callback ≤ 1
  unlocks : s.log.filter Action.isUnlock =
    if s.caller = .returned .callback then [.unlock w.optionals] else []
  unlocks_next : s.caller = .running → ∃ s', withinStep w outcome s .finish = some s'
  unlocks_last : s.caller = .returned .callback →
    ∃ before, s.log = before ++ [.callback, .unlock w.optionals]
  options : ∀ opt o, .lock opt o ∈ s.log → opt = w.optionals

section

variable {w outcome}

theorem mem_lockLog {a : Action} {n : Nat} :
    a ∈ lockLog w outcome n ↔ ∃ m < n, a = .lock w.optionals (outcome m) := by
  simp [lockLog, eq_comm]

theorem count_callback_lockLog (n : Nat) : (lockLog w outcome n).count .callback = 0 :=
  List.count_eq_zero.mpr fun h => by simp [mem_lockLog] at h

theorem filter_isUnlock_lockLog (n : Nat) : (lockLog w outcome n).filter Action.isUnlock = [] := by
  rw [List.filter_eq_nil_iff]
  intro a ha
  obtain ⟨m, -, rfl⟩ := mem_lockLog.mp ha
  nofun

theorem callbackLocked_of_inv (h : WithinInv w outcome s)
    (hok : ∀ n, FirstAnswer outcome n → outcome n = .ok) : CallbackLocked w outcome s := by
  obtain ⟨hlog, herrors, hexited, hdone, hrunning, hfault⟩ := h
  refine ⟨fun hcb => ?_, ?_, ?_, fun hcaller => ?_, fun hcaller => ?_, fun opt o hmem => ?_⟩
  · -- The caller is past its `select`, so the goroutine is over, and not because of a timeout.
    have hnotLock : .callback ∉ lockLog w outcome s.calls := by simp [mem_lockLog]
    rw [hlog] at hcb
    have hmem : .callback ∈ callerLog w s.caller := (List.mem_append.mp hcb).resolve_left hnotLock
    have hne : callerLog w s.caller ≠ [] := List.ne_nil_of_mem hmem
    obtain ⟨n, hn, hfirst⟩ | ⟨hgave, -⟩ := hexited (.inr (hrunning hne))
    · have hlast : .lock w.optionals .ok ∈ lockLog w outcome s.calls :=
        mem_lockLog.mpr ⟨n, by omega, by rw [hok n hfirst]⟩
      obtain ⟨before, after, heq⟩ := List.append_of_mem hmem
      refine ⟨lockLog w outcome s.calls ++ before, after, ?_, List.mem_append_left _ hlast⟩
      rw [hlog, heq, List.append_assoc]
    · exact absurd (callerLog_gaveUp hgave) hne
  · rw [hlog, List.count_append, count_callback_lockLog]
    cases s.caller with
    | returned r => cases r <;> simp [callerLog]
    | _ => simp [callerLog]
  · rw [hlog, List.filter_append, filter_isUnlock_lockLog]
    cases s.caller with
    | returned r => cases r <;> simp [callerLog, Action.isUnlock]
    | _ => simp [callerLog, Action.isUnlock]
  · simp [withinStep, hcaller]
  · exact ⟨lockLog w outcome s.calls, by rw [hlog, hcaller]; rfl⟩
  · rw [hlog, List.mem_append] at hmem
    rcases hmem with hmem | hmem
    · obtain ⟨m, -, heq⟩ := mem_lockLog.mp hmem
      exact (Action.lock.inj heq).1
    · cases hc : s.caller with
      | returned r => cases r <;> simp [callerLog, hc] at hmem
      | _ => simp [callerLog, hc] at hmem

/-- The state behind failed calls only. -/
def failed (w : WithinCall) (outcome : Nat → Outcome) (n : Nat) : WithinState :=
  { WithinState.init with calls := n, log := lockLog w outcome n }

/-- Any number of failed calls is reached. -/
theorem exec_failed (h : ∀ m < n, outcome m = .error) :
    WithinReachable w outcome (failed w outcome n) := by
  induction n with
  | zero => exact ⟨[], rfl⟩
  | succ n ih =>
    obtain ⟨moves, hmoves⟩ := ih fun m hm => h m (by omega)
    refine ⟨moves ++ [.check, .answer, .wake], exec_append.mpr ⟨_, hmoves, ?_⟩⟩
    simp [exec, withinStep, failed, WithinState.init, h n (by omega), lockLog_succ]

/-- After a call that panics the callback runs without the lock. -/
theorem reachable_of_panic (hn : outcome n = .panic) (h : ∀ m < n, outcome m = .error) :
    ∃ s, WithinReachable w outcome s ∧ s.log = lockLog w outcome (n + 1) ++ [.callback] := by
  obtain ⟨moves, hmoves⟩ := exec_failed (w := w) h
  refine ⟨⟨.finished, .running, false, false, false, false, n + 1,
    lockLog w outcome (n + 1) ++ [.callback]⟩, ⟨moves ++ [.check, .answer, .send, .enter, .receive],
    exec_append.mpr ⟨_, hmoves, ?_⟩⟩, rfl⟩
  simp [exec, withinStep, failed, WithinState.init, hn, lockLog_succ]

end

/-- `Within` keeps to the lock, whatever the timing, exactly when the first lock call that
does not return an error succeeds, and does not panic. -/
theorem within_callback_locked_iff :
    (∀ s, WithinReachable w outcome s → CallbackLocked w outcome s) ↔
      ∀ n, FirstAnswer outcome n → outcome n = .ok := by
  constructor
  · rintro h n ⟨hne, hprev⟩
    cases hn : outcome n with
    | ok => rfl
    | error => exact absurd hn hne
    | panic =>
      obtain ⟨s, hs, hlog⟩ := reachable_of_panic (w := w) hn hprev
      obtain ⟨before, after, heq, hmem⟩ := (h s hs).locked (by simp [hlog])
      have hok : .lock w.optionals .ok ∈ s.log := heq ▸ List.mem_append_left _ hmem
      rw [hlog, List.mem_append, mem_lockLog] at hok
      obtain ⟨m, hm, heq⟩ | hok := hok
      · rcases Nat.lt_succ_iff_lt_or_eq.mp hm with hm | rfl
        · simp [hprev m hm] at heq
        · simp [hn] at heq
      · simp at hok
  · exact fun hok s hs => callbackLocked_of_inv (withinInv_reachable hs) hok

/-- The first lock call panics, and the callback runs. -/
theorem panic_runs_callback :
    ∃ s, WithinReachable ⟨[], "u".toList, 0, false⟩ (fun _ => .panic) s ∧
      s.log = [.lock ⟨"u".toList, 0⟩ .panic, .callback] := by
  refine ⟨⟨.finished, .running, false, false, false, false, 1, _⟩,
    ⟨[.check, .answer, .send, .enter, .receive], ?_⟩, rfl⟩
  decide

/-! ## The lock after the caller has given up -/

/-- A lock call has succeeded, and there was no `Unlock`. -/
def Holding (s : WithinState) : Prop :=
  .lock w.optionals .ok ∈ s.log ∧ .unlock w.optionals ∉ s.log

def Move.ofGoroutine : Move → Bool
  | .check | .answer | .wake | .send => true
  | _ => false

/-- How many moves the goroutine has left when the caller has given up. -/
def Acquirer.rank : Acquirer → Nat
  | .calling => 4
  | .sleeping => 3
  | .checking => 2
  | .exiting => 1
  | .finished => 0

/-- When the caller has given up, the goroutine is told or leaves. -/
def FaultSent (s : WithinState) : Prop :=
  GaveUp s.caller → s.timeFault = true ∨ s.acquirer = .exiting ∨ s.acquirer = .finished

section

variable {w outcome}

/-- A move keeps that the goroutine is told or leaves. -/
theorem faultSent_step (h : FaultSent s) (hstep : withinStep w outcome s a = some s') :
    FaultSent s' := by
  intro hgave
  cases a <;>
    simp only [withinStep, Option.ite_none_right_eq_some, Option.ite_none_left_eq_some,
      Option.some.injEq] at hstep
  case check =>
    obtain ⟨hpc, hstep⟩ := hstep
    split at hstep <;> obtain rfl := Option.some.inj hstep
    · exact .inr (.inl rfl)
    · have := h hgave
      simp_all
  case answer | wake =>
    obtain ⟨hpc, rfl⟩ := hstep
    have hfault := h hgave
    rw [hpc] at hfault
    exact .inl (hfault.resolve_right nofun)
  case send =>
    obtain ⟨-, rfl⟩ := hstep
    exact .inr (.inr rfl)
  case timeout | contextDone =>
    obtain ⟨-, rfl⟩ := hstep
    exact .inl rfl
  case enter | receive | finish =>
    obtain ⟨-, rfl⟩ := hstep
    simp [GaveUp] at hgave
  case fire =>
    obtain ⟨-, rfl⟩ := hstep
    exact h hgave
  case cancel =>
    subst hstep
    exact h hgave

theorem faultSent_reachable (h : WithinReachable w outcome s) : FaultSent s := by
  obtain ⟨moves, hmoves⟩ := h
  refine exec_invariant faultSent_step ?_ hmoves
  simp [FaultSent, GaveUp, WithinState.init]

/-- A move after the caller has given up: the caller stays where it is, a move of the
goroutine is one of the last, and only the answer of a call in flight adds to the log. -/
theorem gaveUp_step (hgave : GaveUp s.caller) (hfault : FaultSent s)
    (hstep : withinStep w outcome s a = some s') :
    s'.caller = s.caller ∧ a.ofGoroutine.toNat + s'.acquirer.rank ≤ s.acquirer.rank ∧
      ((s'.log = s.log ∧ s'.calls = s.calls ∧ s'.acquirer ≠ .calling ∨
        s'.log = s.log ∧ s'.calls = s.calls ∧ s'.acquirer = s.acquirer) ∨
      (s.acquirer = .calling ∧ s'.acquirer ≠ .calling ∧
        s'.log = s.log ++ [.lock w.optionals (outcome s.calls)])) := by
  have hfault := hfault hgave
  cases a <;>
    simp only [withinStep, Option.ite_none_right_eq_some, Option.ite_none_left_eq_some,
      Option.some.injEq] at hstep
  case check =>
    obtain ⟨hpc, hstep⟩ := hstep
    rw [hpc] at hfault
    rw [if_pos (hfault.resolve_right nofun)] at hstep
    obtain rfl := Option.some.inj hstep
    simp [hpc, Move.ofGoroutine, Acquirer.rank]
  case answer =>
    obtain ⟨hpc, rfl⟩ := hstep
    by_cases herr : outcome s.calls = .error <;> simp [hpc, herr, Move.ofGoroutine, Acquirer.rank]
  case wake | send =>
    obtain ⟨hpc, rfl⟩ := hstep
    simp [hpc, Move.ofGoroutine, Acquirer.rank]
  case enter | receive | timeout | contextDone =>
    obtain ⟨hpc, rfl⟩ := hstep
    simp [hpc.1, GaveUp] at hgave
  case finish =>
    obtain ⟨hpc, rfl⟩ := hstep
    simp [hpc, GaveUp] at hgave
  case fire =>
    obtain ⟨-, rfl⟩ := hstep
    simp [Move.ofGoroutine]
  case cancel =>
    subst hstep
    simp [Move.ofGoroutine]

/-- No lock call has succeeded, and the one in flight, if any, will not. -/
def NoSuccess (w : WithinCall) (outcome : Nat → Outcome) (s : WithinState) : Prop :=
  .lock w.optionals .ok ∉ s.log ∧ ¬(s.acquirer = .calling ∧ outcome s.calls = .ok)

/-- A lock that is not taken when the caller gives up is not taken later. -/
theorem NoSuccess.step (h : NoSuccess w outcome s) (hgave : GaveUp s.caller)
    (hfault : FaultSent s) (hstep : withinStep w outcome s a = some s') :
    NoSuccess w outcome s' := by
  obtain ⟨-, -, hlog⟩ := gaveUp_step hgave hfault hstep
  rcases hlog with (⟨hlog, -, hpc⟩ | ⟨hlog, hcalls, hpc⟩) | ⟨hcalling, hpc, hlog⟩
  · exact ⟨hlog ▸ h.1, fun h' => hpc h'.1⟩
  · rw [NoSuccess, hlog, hcalls, hpc]
    exact h
  · refine ⟨?_, fun h' => hpc h'.1⟩
    rw [hlog, List.mem_append, not_or]
    refine ⟨h.1, fun hmem => ?_⟩
    have heq := (Action.lock.inj (List.mem_singleton.mp hmem)).2
    exact h.2 ⟨hcalling, heq.symm⟩

/-- A lock that is not taken when the caller gives up is never taken. -/
theorem noSuccess_exec : ∀ {moves : List Move} {s s' : WithinState}, NoSuccess w outcome s →
    GaveUp s.caller → FaultSent s → exec (withinStep w outcome) s moves = some s' →
    NoSuccess w outcome s'
  | [], _, _, h, _, _, hexec => Option.some.inj hexec ▸ h
  | _ :: _, _, _, h, hgave, hfault, hexec => by
    obtain ⟨m, hm, hexec⟩ := exec_cons.mp hexec
    have hcaller := (gaveUp_step hgave hfault hm).1
    exact noSuccess_exec (h.step hgave hfault hm) (hcaller ▸ hgave) (faultSent_step hfault hm) hexec

/-- The goroutine has at most four moves left when the caller has given up. -/
theorem rank_exec : ∀ {moves : List Move} {s s' : WithinState}, GaveUp s.caller → FaultSent s →
    exec (withinStep w outcome) s moves = some s' →
    moves.countP Move.ofGoroutine + s'.acquirer.rank ≤ s.acquirer.rank
  | [], _, _, _, _, hexec => by simp [Option.some.inj hexec]
  | a :: _, _, _, hgave, hfault, hexec => by
    obtain ⟨m, hm, hexec⟩ := exec_cons.mp hexec
    obtain ⟨hcaller, hrank, -⟩ := gaveUp_step hgave hfault hm
    have := rank_exec (hcaller ▸ hgave) (faultSent_step hfault hm) hexec
    rw [List.countP_cons]
    cases ha : a.ofGoroutine <;> simp [ha] at hrank ⊢ <;> omega

end

/-- When `Within` returns without the callback, the goroutine has at most four moves left.
It ends without the lock in every continuation exactly when it does not have it yet and
there is no lock call in flight that succeeds. -/
theorem within_leaks_iff (s : WithinState) (hs : WithinReachable w outcome s)
    (hgave : GaveUp s.caller) :
    (∀ moves s', exec (withinStep w outcome) s moves = some s' →
      moves.countP Move.ofGoroutine + s'.acquirer.rank ≤ 4) ∧
    ((∀ moves s', exec (withinStep w outcome) s moves = some s' → ¬Holding w s') ↔
      ¬Holding w s ∧ ¬(s.acquirer = .calling ∧ outcome s.calls = .ok)) := by
  have hfault := faultSent_reachable hs
  have hlog := (withinInv_reachable hs).log_eq
  rw [callerLog_gaveUp hgave, List.append_nil] at hlog
  have hno : .unlock w.optionals ∉ s.log := by simp [hlog, mem_lockLog]
  refine ⟨fun moves s' hexec => ?_, fun h => ⟨h [] s rfl, ?_⟩, fun ⟨hnot, hflight⟩ => ?_⟩
  · have hrank := rank_exec hgave hfault hexec
    have hfour : s.acquirer.rank ≤ 4 := by cases s.acquirer <;> decide
    omega
  · rintro ⟨hpc, hok⟩
    refine h [.answer] _ (exec_cons.mpr ⟨_, if_pos hpc, rfl⟩) ⟨?_, ?_⟩
    · simp [hok]
    · simpa using hno
  · intro moves s' hexec hholds
    have hsuccess : NoSuccess w outcome s := ⟨fun hmem => hnot ⟨hmem, hno⟩, hflight⟩
    exact (noSuccess_exec hsuccess hgave hfault hexec).1 hholds.1

/-- The timeout comes while a lock call is in flight that succeeds. -/
theorem late_success_leaks :
    let w : WithinCall := ⟨[], "u".toList, 0, false⟩
    let moves : List Move := [.check, .enter, .fire, .timeout, .answer, .send]
    ∃ s, exec (withinStep w fun _ => .ok) .init moves = some s ∧
      s.caller = .returned .errTimeout ∧ s.acquirer = .finished ∧ Holding w s := by
  intro w moves
  refine ⟨⟨.finished, .returned .errTimeout, true, true, true, false, 1,
    [.lock w.optionals .ok]⟩, by decide, rfl, rfl, ?_⟩
  exact ⟨List.mem_singleton_self _, by decide⟩

/-- The timeout comes while a lock call is in flight that fails. -/
theorem late_error_does_not_leak :
    let w : WithinCall := ⟨[], "u".toList, 0, false⟩
    ∃ s, exec (withinStep w fun _ => .error) .init [.check, .enter, .fire, .timeout] = some s ∧
      ∀ moves s', exec (withinStep w fun _ => .error) s moves = some s' → ¬Holding w s' := by
  intro w
  have hexec : exec (withinStep w fun _ => .error) .init [.check, .enter, .fire, .timeout] =
      some ⟨.calling, .returned .errTimeout, false, true, true, false, 0, []⟩ := by decide
  refine ⟨_, hexec, (within_leaks_iff w _ _ ⟨_, hexec⟩ (.inl rfl)).2.mpr ⟨?_, ?_⟩⟩
  · exact fun h => absurd h.1 List.not_mem_nil
  · exact fun h => absurd h.2 nofun

end Gofusion.Lock
