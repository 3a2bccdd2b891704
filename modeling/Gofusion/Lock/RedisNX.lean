import Gofusion.Lib.Runs
import Gofusion.Lock.Basic
import Mathlib.Logic.Basic

/-!
# The Redis lock without scripts

`redisNXLocker` of `lock/redis.go`.  `Lock` is a `SET NX` of a fresh identifier, which no call ever
reads back, so it is kept here only as the client that set the key.  `Unlock` deletes the key
whoever set it.
-/

namespace Gofusion.Lock

open Gofusion.Lib

/-- The key, set by a client with a time to live in milliseconds. -/
structure NxKey (C : Type) where
  owner : C
  ttl : Nat
deriving DecidableEq, Repr

/-- The lease in milliseconds.  The driver raises a shorter one to a millisecond. -/
def nxMillis (expired : Int) : Nat := max 1 (leaseMillis expired).toNat

variable {C : Type}

/-- `redisNXLocker.Lock`. -/
def nxLock (c : C) (expired : Int) : Option (NxKey C) → Option (NxKey C) × Bool
  | none => (some ⟨c, nxMillis expired⟩, true)
  | some k => (some k, false)

/-- `redisNXLocker.Unlock`. -/
def nxUnlock (_ : Option (NxKey C)) : Option (NxKey C) × Bool := (none, true)

/-- Time passes, and a key whose time to live is over is gone. -/
def nxElapse (ms : Nat) (s : Option (NxKey C)) : Option (NxKey C) :=
  s.bind fun k => if k.ttl ≤ ms then none else some { k with ttl := k.ttl - ms }

def nxStep (s : Option (NxKey C)) : Event C → Option (NxKey C) × Bool
  | .lock c expired => nxLock c expired s
  | .unlock _ _ => nxUnlock s
  | .elapse ms => (nxElapse ms s, true)

/-- What is stored behind a run that starts without the key. -/
def nxRun (es : List (Event C)) : Option (NxKey C) := runFrom nxStep none es

/-- A `Lock` of the client succeeded in the run, and no `Lock` after it. -/
def LastLock (es : List (Event C)) (c : C) : Prop :=
  ∃ before expired since, es = before ++ .lock c expired :: since ∧
    (nxStep (nxRun before) (.lock c expired)).2 = true ∧
    ∀ mid c' expired' after, since = mid ++ .lock c' expired' :: after →
      (nxStep (nxRun (before ++ .lock c expired :: mid)) (.lock c' expired')).2 = false

/-- The lease of a successful `Lock` of the client is not over, and no event since then is
one of those that `ends` selects. -/
def Leased (ends : Event C → Prop) (es : List (Event C)) (c : C) : Prop :=
  ∃ before expired since, es = before ++ .lock c expired :: since ∧
    (nxStep (nxRun before) (.lock c expired)).2 = true ∧ (∀ e ∈ since, ¬ends e) ∧
    elapsed since < nxMillis expired

/-- The key is there, the client of the most recent successful `Lock` is another one, and
the `Unlock` removes it. -/
def RemovesOther (es : List (Event C)) (c : C) (expired : Int) : Prop :=
  ∃ k, nxRun es = some k ∧ k.owner ≠ c ∧ LastLock es k.owner ∧
    nxRun (es ++ [.unlock c expired]) = none

def Event.IsUnlock (e : Event C) : Prop := ∃ c expired, e = .unlock c expired

/-! ## Steps -/

theorem nxMillis_pos (expired : Int) : 0 < nxMillis expired := by
  unfold nxMillis
  omega

variable {k : NxKey C} {e : Event C} {c : C} {es : List (Event C)}

/-- A key is set by a `Lock`. -/
theorem nxStep_none (he : (nxStep none e).1 = some k) :
    ∃ c expired, e = .lock c expired ∧ k = ⟨c, nxMillis expired⟩ := by
  cases e with
  | lock c expired => exact ⟨c, expired, rfl, (Option.some.inj he).symm⟩
  | unlock c expired => cases he
  | elapse ms => cases he

/-- A key that stays keeps its owner and loses the time that goes by. -/
theorem nxStep_some {k' : NxKey C} (he : (nxStep (some k) e).1 = some k') :
    ¬e.IsUnlock ∧ k'.owner = k.owner ∧ k'.ttl + elapsed [e] = k.ttl ∧ (0 < k.ttl → 0 < k'.ttl) := by
  cases e with
  | lock c expired =>
    cases he
    exact ⟨nofun, rfl, rfl, id⟩
  | unlock c expired => cases he
  | elapse ms =>
    simp only [nxStep, nxElapse, Option.bind_some] at he
    split at he
    · cases he
    · cases he
      refine ⟨nofun, rfl, ?_, ?_⟩ <;> simp only [elapsed] <;> omega

theorem nxLock_success (hok : (nxLock c expired s).2 = true) :
    (nxLock c expired s).1 = some ⟨c, nxMillis expired⟩ := by
  cases s with
  | none => rfl
  | some k => cases hok

/-! ## Runs -/

/-- A stored key belongs to the last client that locked, whose lease is not over, and
nobody has called `Unlock` since. -/
theorem leased_of_run (hrun : nxRun es = some k) :
    Leased Event.IsUnlock es k.owner ∧ LastLock es k.owner := by
  have hpresent : runFrom nxStep none es ≠ none := by
    rw [← nxRun, hrun]
    nofun
  obtain ⟨before, since, rfl, hstretch, c, expired, rest, rfl, hno, hkey⟩ := exists_stretch
    (P := (· ≠ none))
    (Q := fun before since => ∃ c expired rest, since = .lock c expired :: rest ∧
      (∀ e ∈ rest, ¬e.IsUnlock) ∧ ∀ k, nxRun (before ++ since) = some k →
        k.owner = c ∧ k.ttl + elapsed rest = nxMillis expired ∧ 0 < k.ttl)
    (not_not.mpr rfl)
    (fun before e hbefore he => by
      have hnone : nxRun before = none := not_not.mp hbefore
      obtain ⟨k, hk⟩ := Option.ne_none_iff_exists'.mp he
      rw [← nxRun, hnone] at hk
      obtain ⟨c, expired, rfl, rfl⟩ := nxStep_none hk
      refine ⟨c, expired, [], rfl, nofun, fun k' hk' => ?_⟩
      rw [nxRun, runFrom_concat, ← nxRun, hnone, hk] at hk'
      cases hk'
      exact ⟨rfl, rfl, nxMillis_pos expired⟩)
    (fun before since e hpre he ⟨c, expired, rest, hsince, hno, hkey⟩ => by
      obtain ⟨k, hk⟩ := Option.ne_none_iff_exists'.mp hpre
      obtain ⟨k', hk'⟩ := Option.ne_none_iff_exists'.mp he
      obtain ⟨howner, httl, hpos⟩ := hkey k hk
      rw [hk] at hk'
      obtain ⟨hunlock, howner', httl', hpos'⟩ := nxStep_some hk'
      refine ⟨c, expired, rest ++ [e], by rw [hsince, List.cons_append], ?_, fun k'' hk'' => ?_⟩
      · rintro e' he'
        rcases List.mem_append.mp he' with h | h
        · exact hno e' h
        · rwa [List.mem_singleton.mp h]
      · rw [nxRun, ← List.append_assoc, runFrom_concat, hk, hk'] at hk''
        cases hk''
        refine ⟨howner'.trans howner, ?_, hpos' hpos⟩
        rw [elapsed_append]
        omega)
    es hpresent
  obtain ⟨rfl, httl, hpos⟩ := hkey k hrun
  have hnone : nxRun before = none := not_not.mp hstretch.missing
  have hok : (nxStep (nxRun before) (.lock k.owner expired)).2 = true := by rw [hnone]; rfl
  refine ⟨⟨before, expired, rest, rfl, hok, hno, by omega⟩, before, expired, rest, rfl, hok, ?_⟩
  rintro mid c' expired' after rfl
  -- Behind every event of the stretch the key is there, so a `Lock` fails.
  have hmid := hstretch.present (.lock k.owner expired :: mid) nofun (List.prefix_append _ _)
  obtain ⟨k', hk'⟩ := Option.ne_none_iff_exists'.mp hmid
  rw [nxRun, hk']
  rfl

/-- A key outlives events without an `Unlock` that take less time than it has to live. -/
theorem nxHeld_run : ∀ {es : List (Event C)} {k : NxKey C}, (∀ e ∈ es, ¬e.IsUnlock) →
    elapsed es < k.ttl → ∃ k', runFrom nxStep (some k) es = some k' ∧ k'.owner = k.owner
  | [], k, _, _ => ⟨k, rfl, rfl⟩
  | .lock c expired :: es, k, hno, htime => by
    rw [elapsed_lock] at htime
    rw [runFrom_cons]
    exact nxHeld_run (fun e he => hno e (List.mem_cons_of_mem _ he)) htime
  | .unlock c expired :: es, k, hno, _ => absurd ⟨c, expired, rfl⟩ (hno _ List.mem_cons_self)
  | .elapse ms :: es, k, hno, htime => by
    rw [elapsed_elapse] at htime
    have hlive : (nxStep (some k) (.elapse ms)).1 = some { k with ttl := k.ttl - ms } := by
      simp only [nxStep, nxElapse, Option.bind_some]
      rw [if_neg (by omega)]
    rw [runFrom_cons, hlive]
    exact nxHeld_run (fun e he => hno e (List.mem_cons_of_mem _ he)) (by dsimp only; omega)

/-- The key is there for a client exactly as long as the client is leased. -/
theorem leased_iff_run : Leased Event.IsUnlock es c ↔ ∃ k, nxRun es = some k ∧ k.owner = c := by
  constructor
  · rintro ⟨before, expired, since, rfl, hok, hno, htime⟩
    obtain ⟨k, hk, howner⟩ := nxHeld_run (k := ⟨c, nxMillis expired⟩) hno htime
    refine ⟨k, ?_, howner⟩
    rw [nxRun, runFrom_append, runFrom_cons, nxStep, ← nxRun, nxLock_success hok, hk]
  · rintro ⟨k, hk, rfl⟩
    exact (leased_of_run hk).1

/-- An `Unlock` removes the key of another client that is leased. -/
theorem removesOther_iff (es : List (Event C)) (c : C) (expired : Int) :
    RemovesOther es c expired ↔ ∃ c', c' ≠ c ∧ Leased Event.IsUnlock es c' := by
  constructor
  · rintro ⟨k, hk, hne, -, -⟩
    exact ⟨k.owner, hne, (leased_of_run hk).1⟩
  · rintro ⟨c', hne, hleased⟩
    obtain ⟨k, hk, rfl⟩ := leased_iff_run.mp hleased
    refine ⟨k, hk, hne, (leased_of_run hk).2, ?_⟩
    rw [nxRun, runFrom_concat]
    rfl

/-- Every `Unlock` of a run is within the lease of a `Lock` of its client that the client
has not unlocked yet. -/
def UnlocksInTime (es : List (Event C)) : Prop :=
  ∀ before c expired after, es = before ++ .unlock c expired :: after →
    Leased (fun e => ∃ expired, e = .unlock c expired) before c

theorem UnlocksInTime.left (h : UnlocksInTime (es ++ es')) :
    UnlocksInTime es := by
  rintro before c expired after rfl
  exact h before c expired (after ++ es') (by rw [List.append_assoc, List.cons_append])

/-- In such a run nobody calls `Unlock` between a `Lock` and the end of its lease but the
client itself.  By induction on the run: the client of a last `Unlock` would hold the key
together with the client that is leased. -/
theorem UnlocksInTime.no_unlock (htime : UnlocksInTime es) :
    ∀ {before c expired since}, es = before ++ .lock c expired :: since →
      (nxStep (nxRun before) (.lock c expired)).2 = true →
      (∀ e ∈ since, ¬∃ expired, e = .unlock c expired) → elapsed since < nxMillis expired →
      ∀ e ∈ since, ¬e.IsUnlock := by
  induction es using List.reverseRecOn with
  | nil => exact fun heq => absurd heq.symm (List.append_ne_nil_of_right_ne_nil _ nofun)
  | append_singleton es e ih =>
    intro before c expired since heq hok hno hlease
    rcases List.eq_nil_or_concat since with rfl | ⟨since, e', rfl⟩
    · nofun
    rw [List.concat_eq_append] at *
    have hsplit : es ++ [e] = (before ++ .lock c expired :: since) ++ [e'] := by simpa using heq
    obtain ⟨rfl, he⟩ := List.append_inj' hsplit rfl
    cases he
    rw [elapsed_append] at hlease
    have hbefore := ih htime.left rfl hok (fun e he => hno e (List.mem_append_left _ he)) (by omega)
    intro e' he'
    rcases List.mem_append.mp he' with h | h
    · exact hbefore e' h
    · obtain rfl := List.mem_singleton.mp h
      rintro ⟨c', expired', rfl⟩
      obtain ⟨before', d, since', heq', hok', hno', hlease'⟩ := htime _ c' expired' [] rfl
      have hleased : Leased Event.IsUnlock (before ++ .lock c expired :: since) c :=
        ⟨before, expired, since, rfl, hok, hbefore, by omega⟩
      have hleased' : Leased Event.IsUnlock (before ++ .lock c expired :: since) c' :=
        ⟨before', d, since', heq', hok', ih htime.left heq' hok' hno' hlease', hlease'⟩
      obtain ⟨k, hk, rfl⟩ := leased_iff_run.mp hleased
      obtain ⟨k', hk', rfl⟩ := leased_iff_run.mp hleased'
      cases hk.symm.trans hk'
      exact hno _ (List.mem_append_right _ List.mem_cons_self) ⟨expired', rfl⟩

/-- An `Unlock` removes the key of another client exactly when that client has locked, its
lease is not over, and nobody has called `Unlock` since.  In a run where every client
unlocks within the lease of its own `Lock`, no `Unlock` does. -/
theorem nxUnlock_removes_other_iff :
    (∀ (es : List (Event C)) c expired,
      RemovesOther es c expired ↔ ∃ c', c' ≠ c ∧ Leased Event.IsUnlock es c') ∧
    (∀ es : List (Event C), UnlocksInTime es →
      ∀ before c expired after, es = before ++ .unlock c expired :: after →
        ¬RemovesOther before c expired) := by
  refine ⟨removesOther_iff, ?_⟩
  rintro es htime before c expired after rfl hremoves
  obtain ⟨c', hne, hleased⟩ := (removesOther_iff before c expired).mp hremoves
  obtain ⟨before', d, since, heq, hok, hno, hlease⟩ := htime before c expired after rfl
  have hleased' : Leased Event.IsUnlock before c :=
    ⟨before', d, since, heq, hok, htime.left.no_unlock heq hok hno hlease, hlease⟩
  obtain ⟨k, hk, rfl⟩ := leased_iff_run.mp hleased
  obtain ⟨k', hk', rfl⟩ := leased_iff_run.mp hleased'
  exact hne (congrArg NxKey.owner (Option.some.inj (hk.symm.trans hk')))

/-- The lease of the first client is over when it unlocks, and the second has locked. -/
theorem late_unlock_removes_other :
    RemovesOther [.lock true 0, .elapse 2000, .lock false 0] true 0 := by
  have hrun : nxRun [.lock true 0, .elapse 2000, .lock false 0] = some ⟨false, 2000⟩ := rfl
  exact ⟨_, hrun, nofun, (leased_of_run hrun).2, rfl⟩

theorem unlock_in_time_keeps_other :
    UnlocksInTime [.lock true 0, .elapse 1000, .unlock true 0] ∧
    ¬RemovesOther [.lock true 0, .elapse 1000] true 0 := by
  have htime : UnlocksInTime [.lock true 0, .elapse 1000, .unlock true 0] := by
    intro before c expired after heq
    rcases before with _ | ⟨e₁, _ | ⟨e₂, _ | ⟨e₃, before⟩⟩⟩ <;> simp at heq
    obtain ⟨rfl, rfl, ⟨rfl, rfl⟩, rfl⟩ := heq
    exact ⟨[], 0, [.elapse 1000], rfl, rfl, by simp, by decide⟩
  exact ⟨htime, nxUnlock_removes_other_iff.2 _ htime [.lock true 0, .elapse 1000] true 0 [] rfl⟩

/-- Where all clients unlock within their leases, no two of them have the lock at a time.  A lease
ends with the `Unlock` of its own client. -/
theorem nx_exclusive {c' : C} (htime : UnlocksInTime es)
    (h : Leased (fun e => ∃ expired, e = .unlock c expired) es c)
    (h' : Leased (fun e => ∃ expired, e = .unlock c' expired) es c') : c = c' := by
  have howner : ∀ {c}, Leased (fun e => ∃ expired, e = .unlock c expired) es c →
      ∃ k, nxRun es = some k ∧ k.owner = c := by
    rintro c ⟨before, expired, since, heq, hok, hno, hlease⟩
    exact leased_iff_run.mp
      ⟨before, expired, since, heq, hok, htime.no_unlock heq hok hno hlease, hlease⟩
  obtain ⟨k, hk, rfl⟩ := howner h
  obtain ⟨k', hk', rfl⟩ := howner h'
  rw [Option.some.inj (hk.symm.trans hk')]

theorem nx_exclusive_handed_over :
    let es : List (Event Bool) := [.lock true 0, .elapse 1000, .unlock true 0, .lock false 0]
    Leased (fun e => ∃ expired, e = .unlock false expired) es false ∧
      ∀ c, Leased (fun e => ∃ expired, e = .unlock c expired) es c → c = false := by
  have hleased : Leased (fun e => ∃ expired, e = .unlock false expired)
      [.lock true 0, .elapse 1000, .unlock true 0, .lock false 0] false :=
    ⟨[.lock true 0, .elapse 1000, .unlock true 0], 0, [], rfl, rfl, by simp, by decide⟩
  refine ⟨hleased, fun c h => nx_exclusive ?_ h hleased⟩
  intro before c expired after heq
  rcases before with _ | ⟨e₁, _ | ⟨e₂, _ | ⟨e₃, _ | ⟨e₄, before⟩⟩⟩⟩ <;> simp at heq
  obtain ⟨rfl, rfl, ⟨rfl, rfl⟩, -⟩ := heq
  exact ⟨[], 0, [.elapse 1000], rfl, rfl, by simp, by decide⟩

end Gofusion.Lock
