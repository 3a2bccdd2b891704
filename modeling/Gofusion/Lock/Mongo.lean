import Gofusion.Lib.Runs
import Gofusion.Lock.Basic
import Mathlib.Logic.Basic

/-!
# The MongoDB lock

`mongoLocker` of `lock/mongo.go`.  A lock is the document of its key.  `Lock` is one
`FindOneAndUpdate` with upsert.  Its filter takes a document of the same holder, but also an
expired one of any holder, whose lock it then extends.

`Unlock` is a `FindOneAndUpdate` and, when the count came down to zero, a `DeleteOne`.  Other calls
may come between the two, so they are two events here.  `delete` stands for the second one.  It may
come at any time, which is more than the code does.
-/

namespace Gofusion.Lock

open Gofusion.Lib

/-! ## The collection -/

/-- `mongoLockDoc`, without the key.  Times are in milliseconds, the resolution of the
store. -/
structure LockDoc where
  holder : Text
  count : Int
  expiresAt : Int
deriving DecidableEq, Repr

/-- The document of one key and the clock. -/
structure Coll where
  now : Int
  doc : Option LockDoc
deriving DecidableEq, Repr

/-- `$inc` of the count and `$max` of the time. -/
def LockDoc.update (n t : Int) (d : LockDoc) : LockDoc :=
  { d with count := d.count + n, expiresAt := max d.expiresAt t }

/-- `FindOneAndUpdate` that returns the document after the update.  Without a match the
upsert inserts, if there is one.  It fails when the key is taken, because of the unique
index.  So does a call without an upsert, because there is no document to return. -/
def findOneAndUpdate (filter : LockDoc → Bool) (update : LockDoc → LockDoc)
    (upsert : Option LockDoc) : Option LockDoc → Option LockDoc × Option LockDoc
  | none => (upsert, upsert)
  | some d => if filter d then (some (update d), some (update d)) else (some d, none)

/-- `mongoLocker.Lock`. -/
def mongoLock (holder : Text) (expired : Int) (s : Coll) : Coll × Bool :=
  let filter (d : LockDoc) : Bool := d.expiresAt < s.now || d.holder = holder
  let expiresAt := s.now + leaseMillis expired
  match findOneAndUpdate filter (LockDoc.update 1 expiresAt) (some ⟨holder, 1, expiresAt⟩) s.doc with
  | (doc, some updatedDoc) => ({ s with doc := doc }, updatedDoc.holder = holder)
  | (doc, none) => ({ s with doc := doc }, false)

/-- `mongoLocker.Unlock` up to the `DeleteOne`. -/
def mongoUnlock (holder : Text) (expired : Int) (s : Coll) : Coll × Bool :=
  let filter (d : LockDoc) : Bool := d.holder = holder && 0 < d.count
  let expiresAt := s.now + expired.tdiv 2 / millisecond
  match findOneAndUpdate filter (LockDoc.update (-1) expiresAt) none s.doc with
  | (doc, some _) => ({ s with doc := doc }, true)
  | (doc, none) => ({ s with doc := doc }, false)

/-- The `DeleteOne` of `mongoLocker.Unlock`. -/
def deleteOne (holder : Text) (s : Coll) : Coll :=
  { s with doc := s.doc.filter fun d => !(d.holder = holder && d.count ≤ 0) }

/-- The server removes the document when its time is over. -/
def reap (s : Coll) : Coll :=
  { s with doc := s.doc.filter fun d => s.now < d.expiresAt }

/-! ## Runs -/

/-- The events of the shared clock and of the calls, the second part of an `Unlock`, and
the removal of expired documents. -/
inductive MongoEvent (C : Type)
  | call (e : Event C)
  | delete (c : C)
  | reap
deriving DecidableEq, Repr

variable {C : Type} (key : C → Text)

def mongoStep (s : Coll) : MongoEvent C → Coll × Bool
  | .call (.lock c expired) => mongoLock (key c) expired s
  | .call (.unlock c expired) => mongoUnlock (key c) expired s
  | .call (.elapse ms) => ({ s with now := s.now + ms }, true)
  | .delete c => (deleteOne (key c) s, true)
  | .reap => (reap s, true)

/-- The collection behind a run that starts without the document. -/
def mongoRun (start : Int) (es : List (MongoEvent C)) : Coll :=
  runFrom (mongoStep key) ⟨start, none⟩ es

def MongoEvent.isLockWith (holder : Text) : MongoEvent C → Bool
  | .call (.lock c _) => key c = holder
  | _ => false

def MongoEvent.isUnlockWith (holder : Text) : MongoEvent C → Bool
  | .call (.unlock c _) => key c = holder
  | _ => false

def MongoEvent.caller : MongoEvent C → Option Text
  | .call (.lock c _) | .call (.unlock c _) | .delete c => some (key c)
  | .call (.elapse _) | .reap => none

/-- An expired document of another holder that is not removed yet. -/
def Stale (s : Coll) (holder : Text) : Prop :=
  ∃ d, s.doc = some d ∧ d.expiresAt < s.now ∧ d.holder ≠ holder

/-! ## What a call does -/

variable {e : MongoEvent C} {d' : LockDoc}

section

variable {s : Coll} {d : LockDoc} {holder : Text}

theorem mongoLock_none (hs : s.doc = none) (expired : Int) :
    mongoLock holder expired s =
      ({ s with doc := some ⟨holder, 1, s.now + leaseMillis expired⟩ }, true) := by
  simp [mongoLock, findOneAndUpdate, hs]

theorem mongoLock_holder (hs : s.doc = some d) (hd : d.holder = holder) (expired : Int) :
    mongoLock holder expired s =
      ({ s with doc := some (d.update 1 (s.now + leaseMillis expired)) }, true) := by
  simp [mongoLock, findOneAndUpdate, hs, hd, LockDoc.update]

/-- The `Lock` on an expired document of another holder fails and extends it. -/
theorem mongoLock_stale (hs : s.doc = some d) (hd : d.holder ≠ holder)
    (hexp : d.expiresAt < s.now) (expired : Int) :
    mongoLock holder expired s =
      ({ s with doc := some (d.update 1 (s.now + leaseMillis expired)) }, false) := by
  simp [mongoLock, findOneAndUpdate, hs, hd, hexp, LockDoc.update]

theorem mongoLock_live (hs : s.doc = some d) (hd : d.holder ≠ holder)
    (hexp : ¬d.expiresAt < s.now) (expired : Int) : mongoLock holder expired s = (s, false) := by
  obtain ⟨now, _⟩ := s
  cases hs
  simp [mongoLock, findOneAndUpdate, hd, hexp]

theorem mongoUnlock_holder (hs : s.doc = some d) (hd : d.holder = holder) (hpos : 0 < d.count)
    (expired : Int) :
    mongoUnlock holder expired s =
      ({ s with doc := some (d.update (-1) (s.now + expired.tdiv 2 / millisecond)) }, true) := by
  simp [mongoUnlock, findOneAndUpdate, hs, hd, hpos]

theorem mongoUnlock_other (h : ∀ d, s.doc = some d → ¬(d.holder = holder ∧ 0 < d.count))
    (expired : Int) : mongoUnlock holder expired s = (s, false) := by
  obtain ⟨now, _ | d⟩ := s
  · rfl
  · have hd : ¬(d.holder = holder ∧ 0 < d.count) := h d rfl
    simp [mongoUnlock, findOneAndUpdate, hd]

theorem deleteOne_kept (hs : s.doc = some d) (hd : ¬(d.holder = holder ∧ d.count ≤ 0)) :
    deleteOne holder s = s := by
  obtain ⟨now, _⟩ := s
  cases hs
  have hkept : d.holder = holder → 0 < d.count := fun h => Int.not_le.mp fun hc => hd ⟨h, hc⟩
  simpa [deleteOne, ← imp_iff_not_or] using hkept

theorem deleteOne_doc (hs : s.doc = some d) :
    (deleteOne holder s).doc = if d.holder = holder ∧ d.count ≤ 0 then none else some d := by
  split
  · simp_all [deleteOne]
  · rw [deleteOne_kept hs ‹_›, hs]

theorem reap_kept (hs : s.doc = some d) (hd : s.now < d.expiresAt) : reap s = s := by
  obtain ⟨now, _⟩ := s
  cases hs
  simpa [reap] using hd

theorem reap_doc (hs : s.doc = some d) :
    (reap s).doc = if d.expiresAt ≤ s.now then none else some d := by
  split
  · simp_all [reap]
  · rw [reap_kept hs (by omega), hs]

variable {key}

/-- A document is inserted by a `Lock`. -/
theorem mongoStep_none (hs : s.doc = none) (he : (mongoStep key s e).1.doc = some d) :
    ∃ c expired, e = .call (.lock c expired) ∧ d = ⟨key c, 1, s.now + leaseMillis expired⟩ := by
  cases e with
  | call e =>
    cases e with
    | lock c expired =>
      rw [mongoStep, mongoLock_none hs] at he
      exact ⟨c, expired, rfl, (Option.some.inj he).symm⟩
    | unlock c expired =>
      rw [mongoStep, mongoUnlock_other (by simp [hs]), hs] at he
      cases he
    | elapse ms => exact absurd (hs.symm.trans he) nofun
  | delete c => simp [mongoStep, deleteOne, hs] at he
  | reap => simp [mongoStep, reap, hs] at he

/-- A step on a document that is not the `Lock` of a caller who finds an expired document
of another holder: the document goes away, or it keeps its holder, its count follows the
calls of the holder, and only the holder moves its time. -/
theorem mongoStep_some (hs : s.doc = some d)
    (hfresh : ∀ c expired, e = .call (.lock c expired) → ¬Stale s (key c))
    (he : (mongoStep key s e).1.doc = some d') :
    d'.holder = d.holder ∧
      d'.count = d.count + (e.isLockWith key d.holder && (mongoStep key s e).2).toNat -
        (e.isUnlockWith key d.holder && (mongoStep key s e).2).toNat ∧
      (d'.expiresAt ≠ d.expiresAt → e.caller key = some d.holder) := by
  cases e with
  | call e =>
    cases e with
    | lock c expired =>
      by_cases hc : d.holder = key c
      · rw [mongoStep, mongoLock_holder hs hc] at he ⊢
        cases he
        simp [LockDoc.update, MongoEvent.isLockWith, MongoEvent.isUnlockWith, MongoEvent.caller, hc]
      · have hexp : ¬d.expiresAt < s.now := fun h => hfresh c expired rfl ⟨d, hs, h, hc⟩
        rw [mongoStep, mongoLock_live hs hc hexp] at he ⊢
        cases hs.symm.trans he
        simp [MongoEvent.isUnlockWith]
    | unlock c expired =>
      by_cases hc : d.holder = key c ∧ 0 < d.count
      · rw [mongoStep, mongoUnlock_holder hs hc.1 hc.2] at he ⊢
        cases he
        simp [LockDoc.update, MongoEvent.isLockWith, MongoEvent.isUnlockWith, MongoEvent.caller,
          hc.1, Int.sub_eq_add_neg]
      · have hother : ∀ d, s.doc = some d → ¬(d.holder = key c ∧ 0 < d.count) := by
          intro d' hd'
          cases hs.symm.trans hd'
          exact hc
        rw [mongoStep, mongoUnlock_other hother] at he ⊢
        cases hs.symm.trans he
        simp [MongoEvent.isLockWith]
    | elapse ms =>
      cases hs.symm.trans he
      simp [MongoEvent.isLockWith, MongoEvent.isUnlockWith]
  | delete c =>
    rw [mongoStep, deleteOne_doc hs] at he
    split at he
    · cases he
    · cases he
      simp [MongoEvent.isLockWith, MongoEvent.isUnlockWith]
  | reap =>
    rw [mongoStep, reap_doc hs] at he
    split at he
    · cases he
    · cases he
      simp [MongoEvent.isLockWith, MongoEvent.isUnlockWith]

/-- Where the condition fails, the call fails and changes the document. -/
theorem mongoLock_unchanged_iff (s : Coll) (holder : Text) (expired : Int) :
    ((mongoLock holder expired s).2 = false → (mongoLock holder expired s).1 = s) ↔
      ¬Stale s holder := by
  constructor
  · rintro h ⟨d, hs, hexp, hd⟩
    rw [mongoLock_stale hs hd hexp] at h
    have hdoc := congrArg Coll.doc (h rfl)
    rw [hs] at hdoc
    have hcount := congrArg LockDoc.count (Option.some.inj hdoc)
    simp only [LockDoc.update] at hcount
    omega
  · intro h hfail
    cases hs : s.doc with
    | none =>
      rw [mongoLock_none hs] at hfail
      cases hfail
    | some d =>
      by_cases hd : d.holder = holder
      · rw [mongoLock_holder hs hd] at hfail
        cases hfail
      · rw [mongoLock_live hs hd fun hexp => h ⟨d, hs, hexp, hd⟩]

end

/-! ## Runs without a `Lock` on an expired document of another holder -/

/-- No `Lock` of a run finds an expired document of another holder. -/
def NoStaleLock (start : Int) (es : List (MongoEvent C)) : Prop :=
  ∀ before c expired after, es = before ++ .call (.lock c expired) :: after →
    ¬Stale (mongoRun key start before) (key c)

/-- The count of the document behind the events `since` that follow `before`: the
successful `Lock`s of the recorded holder minus its `Unlock`s. -/
def CountsCalls (start : Int) (before since : List (MongoEvent C)) (d : LockDoc) : Prop :=
  d.count =
    successes (mongoStep key) (MongoEvent.isLockWith key d.holder) (mongoRun key start before) since -
    successes (mongoStep key) (MongoEvent.isUnlockWith key d.holder) (mongoRun key start before) since

section

variable {key} {start : Int}

variable {es before : List (MongoEvent C)} {d : LockDoc}

theorem NoStaleLock.left (h : NoStaleLock key start (es ++ es')) :
    NoStaleLock key start es := by
  rintro before c expired after rfl
  exact h before c expired (after ++ es') (by rw [List.append_assoc, List.cons_append])

theorem NoStaleLock.fresh
    (h : NoStaleLock key start (before ++ e :: after))
    (he : e = .call (.lock c expired)) : ¬Stale (mongoRun key start before) (key c) :=
  h before c expired after (by rw [he])

theorem countsCalls_created (hnone : (mongoRun key start before).doc = none)
    (hd : (mongoStep key (mongoRun key start before) e).1.doc = some d) :
    CountsCalls key start before [e] d := by
  obtain ⟨c, expired, rfl, rfl⟩ := mongoStep_none hnone hd
  simp [CountsCalls, successes, MongoEvent.isLockWith, MongoEvent.isUnlockWith, mongoStep,
    mongoLock_none hnone]

/-- One more call. -/
theorem CountsCalls.step
    (hcount : CountsCalls key start before since d)
    (hd : (mongoRun key start (before ++ since)).doc = some d)
    (hfresh : ∀ c expired, e = .call (.lock c expired) →
      ¬Stale (mongoRun key start (before ++ since)) (key c))
    (hd' : (mongoStep key (mongoRun key start (before ++ since)) e).1.doc = some d') :
    CountsCalls key start before (since ++ [e]) d' := by
  obtain ⟨hholder, hstep, -⟩ := mongoStep_some hd hfresh hd'
  rw [mongoRun, runFrom_append, ← mongoRun] at hstep
  rw [CountsCalls] at hcount ⊢
  rw [successes_concat, successes_concat, hholder]
  omega

/-- The count of a document in a run without stale locks. -/
theorem countsCalls_of_run (hes : NoStaleLock key start es)
    (hrun : (mongoRun key start es).doc = some d) :
    ∃ before since, es = before ++ since ∧
      Stretch (mongoStep key) (·.doc ≠ none) ⟨start, none⟩ before since ∧
      CountsCalls key start before since d := by
  have hpresent : (mongoRun key start es).doc ≠ none := by
    rw [hrun]
    nofun
  obtain ⟨before, since, rfl, hstretch, hcount⟩ := exists_stretch
    (P := fun s : Coll => s.doc ≠ none)
    (Q := fun before since => NoStaleLock key start (before ++ since) →
      ∀ d, (mongoRun key start (before ++ since)).doc = some d → CountsCalls key start before since d)
    (not_not.mpr rfl)
    (fun before e hbefore _ _ d hd => by
      rw [mongoRun, runFrom_concat] at hd
      exact countsCalls_created (not_not.mp hbefore) hd)
    (fun before since e hpre _ ih hes d' hd' => by
      rw [← List.append_assoc] at hes hd'
      obtain ⟨d, hd⟩ := Option.ne_none_iff_exists'.mp hpre
      rw [mongoRun, runFrom_concat] at hd'
      exact (ih hes.left d hd).step hd (fun _ _ => hes.fresh) hd')
    es hpresent
  exact ⟨before, since, rfl, hstretch, hcount hes d hrun⟩

end

/-- A failed `Lock` leaves the collection as it is exactly when it does not find an
expired document of another holder.  In a run where no `Lock` does, the count of the
document is the number of successful `Lock`s of the recorded holder since the document
was missing minus its `Unlock`s, and a caller who moves the time of a document is its
holder. -/
theorem failed_mongoLock_unchanged_iff (key : C → Text) :
    (∀ s c expired, ((mongoStep key s (.call (.lock c expired))).2 = false →
      (mongoStep key s (.call (.lock c expired))).1 = s) ↔ ¬Stale s (key c)) ∧
    (∀ start es, NoStaleLock key start es →
      (∀ d, (mongoRun key start es).doc = some d → ∃ before since, es = before ++ since ∧
        Stretch (mongoStep key) (·.doc ≠ none) ⟨start, none⟩ before since ∧
        CountsCalls key start before since d) ∧
      (∀ before e after d d', es = before ++ e :: after →
        (mongoRun key start before).doc = some d →
        (mongoRun key start (before ++ [e])).doc = some d' → d'.expiresAt ≠ d.expiresAt →
        e.caller key = some d.holder)) := by
  refine ⟨fun s c expired => mongoLock_unchanged_iff s (key c) expired, fun start es hes => ⟨?_, ?_⟩⟩
  · exact fun d hd => countsCalls_of_run hes hd
  · intro before e after d d' heq hd hd'
    rw [mongoRun, runFrom_concat] at hd'
    exact (mongoStep_some hd (fun _ _ => (heq ▸ hes).fresh) hd').2.2

/-- The first client locks, and the second one after the lease of the first is over. -/
def staleRun : List (MongoEvent Bool) :=
  [.call (.lock true 0), .call (.elapse 3000), .call (.lock false 0)]

theorem staleRun_counts_and_extends :
    mongoRun ownKeys 0 (staleRun.take 2) = ⟨3000, some ⟨"a".toList, 1, 2000⟩⟩ ∧
    (mongoStep ownKeys (mongoRun ownKeys 0 (staleRun.take 2)) (.call (.lock false 0))).2 = false ∧
    mongoRun ownKeys 0 staleRun = ⟨3000, some ⟨"a".toList, 2, 5000⟩⟩ := by
  decide

/-- The first client locks twice, the second one in between. -/
def freshRun : List (MongoEvent Bool) :=
  [.call (.lock true 0), .call (.lock false 0), .call (.lock true 0)]

theorem freshRun_counts :
    mongoRun ownKeys 0 freshRun = ⟨0, some ⟨"a".toList, 2, 2000⟩⟩ ∧
    ∃ before since, freshRun = before ++ since ∧
      CountsCalls ownKeys 0 before since ⟨"a".toList, 2, 2000⟩ := by
  have hrun : mongoRun ownKeys 0 freshRun = ⟨0, some ⟨"a".toList, 2, 2000⟩⟩ := by decide
  -- Before the last event of the run the clock has not moved past any document.
  have hfresh : NoStaleLock ownKeys 0 freshRun := by
    rintro before c expired after heq ⟨d, hd, hexp, -⟩
    rcases before with _ | ⟨e₁, _ | ⟨e₂, _ | ⟨e₃, before⟩⟩⟩ <;> simp [freshRun] at heq
    · cases hd
    · obtain ⟨rfl, -⟩ := heq
      cases hd
      revert hexp
      decide
    · obtain ⟨rfl, rfl, -⟩ := heq
      cases hd
      revert hexp
      decide
  obtain ⟨before, since, hes, -, hcount⟩ :=
    ((failed_mongoLock_unchanged_iff ownKeys).2 0 freshRun hfresh).1 _ (congrArg Coll.doc hrun)
  exact ⟨hrun, before, since, hes, hcount⟩

end Gofusion.Lock
