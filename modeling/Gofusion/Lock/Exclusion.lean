import Gofusion.Lock.Mongo
import Gofusion.Lock.RedisLua

/-!
# Exclusion of other callers

Both lockers know their callers by the `ReentrantKey` option alone.  They exclude each
other exactly when these keys differ.  `Lock` without the option has the empty text for
every caller, so a second caller is taken for the first one and its `Lock` succeeds.
-/

namespace Gofusion.Lock

open Gofusion.Lib

variable {C : Type}

/-- Behind a successful `Lock` of a caller, the `Lock` of another one fails as long as the
first has not called `Unlock` and its lease is not over.  `call` selects the calls and the
clock among the events. -/
def Excludes {σ α : Type} (step : σ → α → σ × Bool) (call : α → Option (Event C)) (s : σ) : Prop :=
  ∀ before mid a b c expired c' expired', call a = some (.lock c expired) →
    call b = some (.lock c' expired') → c ≠ c' → (step (runFrom step s before) a).2 = true →
    (∀ e ∈ mid, ∀ expired, call e ≠ some (.unlock c expired)) →
    elapsed (mid.filterMap call) < leaseMillis expired →
    (step (runFrom step s (before ++ a :: mid)) b).2 = false

/-- The clock and the calls of the MongoDB lock. -/
def MongoEvent.call? : MongoEvent C → Option (Event C)
  | .call e => some e
  | _ => none

/-- The key of a caller without the `ReentrantKey` option. -/
def plainKey (_ : C) : Text := []

section

variable {key : C → Text}

/-! ## Redis -/

/-- The hash of a client outlives the events in which it does not call `Unlock` and that
take less time than the hash has to live. -/
theorem luaHeld_run (hkey : Function.Injective key) :
    ∀ {es : List (Event C)} {h : Hash} {ttl : Nat}, h.holder = key c → h.ttl = some ttl →
      elapsed es < ttl → (∀ e ∈ es, ∀ expired, e ≠ .unlock c expired) →
      ∃ h', runFrom (luaStep key) (some h) es = some h' ∧ h'.holder = key c := by
  intro es
  induction es with
  | nil => exact fun hc _ _ _ => ⟨_, rfl, hc⟩
  | cons e es ih =>
    intro h ttl hc httl htime hno
    have hno' : ∀ e ∈ es, ∀ expired, e ≠ .unlock c expired := fun e he =>
      hno e (List.mem_cons_of_mem _ he)
    rw [runFrom_cons]
    cases e with
    | lock c' expired =>
      rw [elapsed_lock] at htime
      by_cases hcc : h.holder = key c'
      · rw [luaStep, ← hcc, luaLock_holder httl (by omega) (leaseMillis_nonneg expired)]
        exact ih hc rfl (by omega) hno'
      · rw [luaStep, luaLock_other hcc]
        exact ih hc httl htime hno'
    | unlock c' expired =>
      have hne : c' ≠ c := fun heq => hno _ List.mem_cons_self expired (by rw [heq])
      have hother : h.holder ≠ key c' := fun heq => hne (hkey (heq.symm.trans hc))
      rw [luaStep, luaUnlock_other hother]
      exact ih hc httl htime hno'
    | elapse ms =>
      rw [elapsed_elapse] at htime
      rw [luaStep, elapse_some httl, if_neg (by omega)]
      exact ih hc rfl (by omega) hno'

theorem lua_excludes (hkey : Function.Injective key) : Excludes (luaStep key) some none := by
  rintro before mid _ _ c expired c' expired' ⟨⟩ ⟨⟩ hne hok hno htime
  rw [List.filterMap_some] at htime
  obtain ⟨h, ttl, hh, hc, httl, hlease⟩ := luaLock_success (timed_run before) (by omega) hok
  have hno' : ∀ e ∈ mid, ∀ expired, e ≠ .unlock c expired := fun e he expired heq =>
    hno e he expired (congrArg some heq)
  obtain ⟨h', hh', hc'⟩ := luaHeld_run hkey hc httl (by omega) hno'
  have hrun : runFrom (luaStep key) none (before ++ .lock c expired :: mid) = some h' := by
    rw [runFrom_append, runFrom_cons, luaStep, ← luaRun, hh, hh']
  have hother : h'.holder ≠ key c' := fun heq => hne (hkey (hc'.symm.trans heq))
  rw [hrun, luaStep, luaLock_other hother]

/-! ## MongoDB -/

/-- The count of a document is not negative. -/
def Counted (s : Coll) : Prop := ∀ d, s.doc = some d → 0 ≤ d.count

/-- A step keeps the count from being negative. -/
theorem counted_step (s : Coll) (e : MongoEvent C) (hs : Counted s) :
    Counted (mongoStep key s e).1 := by
  intro d' hd'
  cases hd : s.doc with
  | none =>
    obtain ⟨c, expired, -, rfl⟩ := mongoStep_none hd hd'
    exact Int.one_nonneg
  | some d =>
    have hpos := hs d hd
    cases e with
    | call e =>
      cases e with
      | lock c expired =>
        by_cases hc : d.holder = key c
        · rw [mongoStep, mongoLock_holder hd hc] at hd'
          cases hd'
          exact Int.add_nonneg hpos Int.one_nonneg
        · by_cases hexp : d.expiresAt < s.now
          · rw [mongoStep, mongoLock_stale hd hc hexp] at hd'
            cases hd'
            exact Int.add_nonneg hpos Int.one_nonneg
          · rw [mongoStep, mongoLock_live hd hc hexp] at hd'
            exact hs d' hd'
      | unlock c expired =>
        by_cases hc : d.holder = key c ∧ 0 < d.count
        · rw [mongoStep, mongoUnlock_holder hd hc.1 hc.2] at hd'
          cases hd'
          exact Int.sub_nonneg_of_le hc.2
        · rw [mongoStep, mongoUnlock_other (by simpa [hd] using hc)] at hd'
          exact hs d' hd'
      | elapse ms => exact hs d' hd'
    | delete c =>
      rw [mongoStep, deleteOne_doc hd] at hd'
      split at hd'
      · cases hd'
      · exact hs d' (hd.trans hd')
    | reap =>
      rw [mongoStep, reap_doc hd] at hd'
      split at hd'
      · cases hd'
      · exact hs d' (hd.trans hd')

theorem mongoLock_success {s : Coll} (hs : Counted s)
    (hok : (mongoLock holder expired s).2 = true) :
    ∃ d, (mongoLock holder expired s).1 = ⟨s.now, some d⟩ ∧ d.holder = holder ∧ 1 ≤ d.count ∧
      s.now + leaseMillis expired ≤ d.expiresAt := by
  cases hd : s.doc with
  | none =>
    rw [mongoLock_none hd]
    exact ⟨_, rfl, rfl, Int.le_refl 1, Int.le_refl _⟩
  | some d =>
    by_cases hc : d.holder = holder
    · have hpos := hs d hd
      rw [mongoLock_holder hd hc]
      exact ⟨_, rfl, hc, by simp only [LockDoc.update]; omega, Int.le_max_right ..⟩
    · by_cases hexp : d.expiresAt < s.now
      · rw [mongoLock_stale hd hc hexp] at hok
        cases hok
      · rw [mongoLock_live hd hc hexp] at hok
        cases hok

/-- The document of a client outlives the events in which it does not call `Unlock` and
that end before its time. -/
theorem mongoHeld_run (hkey : Function.Injective key) :
    ∀ {es : List (MongoEvent C)} {t : Int} {d : LockDoc}, d.holder = key c → 1 ≤ d.count →
      t + elapsed (es.filterMap MongoEvent.call?) < d.expiresAt →
      (∀ e ∈ es, ∀ expired, e.call? ≠ some (.unlock c expired)) →
      ∃ t' d', runFrom (mongoStep key) ⟨t, some d⟩ es = ⟨t', some d'⟩ ∧ d'.holder = key c ∧
        t' < d'.expiresAt := by
  intro es
  induction es with
  | nil => exact fun hc _ htime _ => ⟨_, _, rfl, hc, by simpa [elapsed] using htime⟩
  | cons e es ih =>
    intro t d hc hpos htime hno
    have hno' : ∀ e ∈ es, ∀ expired, e.call? ≠ some (.unlock c expired) := fun e he =>
      hno e (List.mem_cons_of_mem _ he)
    rw [runFrom_cons]
    cases e with
    | call e =>
      simp only [List.filterMap_cons, MongoEvent.call?] at htime
      cases e with
      | lock c' expired =>
        rw [elapsed_lock] at htime
        by_cases hcc : d.holder = key c'
        · rw [mongoStep, mongoLock_holder rfl hcc]
          refine ih hc ?_ ?_ hno' <;> simp only [LockDoc.update] <;> omega
        · rw [mongoStep, mongoLock_live rfl hcc (by dsimp only; omega)]
          exact ih hc hpos htime hno'
      | unlock c' expired =>
        have hne : c' ≠ c := fun heq => hno _ List.mem_cons_self expired (by rw [heq]; rfl)
        have hother : d.holder ≠ key c' := fun heq => hne (hkey (heq.symm.trans hc))
        rw [mongoStep, mongoUnlock_other (by rintro d ⟨⟩ h; exact hother h.1)]
        exact ih hc hpos htime hno'
      | elapse ms =>
        rw [elapsed_elapse] at htime
        exact ih hc hpos (by dsimp only; omega) hno'
    | delete c' =>
      rw [mongoStep, deleteOne_kept rfl fun h => by omega]
      exact ih hc hpos htime hno'
    | reap =>
      rw [mongoStep, reap_kept rfl (by dsimp only; omega)]
      exact ih hc hpos htime hno'

theorem mongo_excludes (hkey : Function.Injective key) (start : Int) :
    Excludes (mongoStep key) MongoEvent.call? ⟨start, none⟩ := by
  rintro before mid (_ | _ | _) (_ | _ | _) c expired c' expired' ⟨⟩ ⟨⟩ hne hok hno htime
  have hcounted : Counted (runFrom (mongoStep key) ⟨start, none⟩ before) :=
    runFrom_invariant counted_step before nofun
  obtain ⟨d, hd, hc, hpos, hlease⟩ := mongoLock_success hcounted hok
  generalize hnow : (runFrom (mongoStep key) ⟨start, none⟩ before).now = t at hd hlease
  obtain ⟨t', d', hd', hc', hlive⟩ := mongoHeld_run hkey (t := t) hc hpos (by omega) hno
  have hrun : runFrom (mongoStep key) ⟨start, none⟩ (before ++ .call (.lock c expired) :: mid) =
      ⟨t', some d'⟩ := by
    rw [runFrom_append, runFrom_cons, mongoStep, hd, hd']
  have hother : d'.holder ≠ key c' := fun heq => hne (hkey (hc'.symm.trans heq))
  rw [hrun, mongoStep, mongoLock_live rfl hother (by dsimp only; omega)]

/-! ## Both lockers -/

/-- A second caller with the key of the first is taken for it. -/
theorem key_injective_of_excludes {σ α : Type} {step : σ → α → σ × Bool}
    {call : α → Option (Event C)} {s : σ} (lockOf : C → α)
    (hcall : ∀ c, call (lockOf c) = some (.lock c 0))
    (hok : ∀ c, (step s (lockOf c)).2 = true)
    (hagain : ∀ c c', key c = key c' → (step (step s (lockOf c)).1 (lockOf c')).2 = true)
    (h : Excludes step call s) : Function.Injective key := by
  intro c c' heq
  by_contra hne
  have hfail := h [] [] (lockOf c) (lockOf c') c 0 c' 0 (hcall c) (hcall c') hne (hok c) nofun
    (show (0 : Int) < leaseMillis 0 by decide)
  rw [List.nil_append, runFrom_cons, runFrom_nil, hagain c c' heq] at hfail
  cases hfail

end

/-- Both lockers exclude other callers exactly when the callers have different keys. -/
theorem excludes_iff_keys_differ (key : C → Text) :
    (Excludes (luaStep key) some none ↔ Function.Injective key) ∧
    (∀ start, Excludes (mongoStep key) MongoEvent.call? ⟨start, none⟩ ↔ Function.Injective key) := by
  refine ⟨⟨fun h => ?_, lua_excludes⟩, fun start => ⟨fun h => ?_, fun hkey => mongo_excludes hkey start⟩⟩
  · refine key_injective_of_excludes (fun c => .lock c 0) (fun c => rfl) ?_ ?_ h
    · exact fun c => by rw [luaStep, luaLock_none]
    · intro c c' heq
      have hfirst : (luaStep key none (.lock c 0)).1 = some ⟨key c', 1, some 2000⟩ := by
        rw [luaStep, luaLock_none, heq]
        rfl
      rw [hfirst]
      exact congrArg Prod.snd (luaLock_holder rfl (by decide) (leaseMillis_nonneg 0))
  · refine key_injective_of_excludes (fun c => .call (.lock c 0)) (fun c => rfl) ?_ ?_ h
    · exact fun c => by rw [mongoStep, mongoLock_none rfl]
    · intro c c' heq
      have hfirst : (mongoStep key ⟨start, none⟩ (.call (.lock c 0))).1 =
          ⟨start, some ⟨key c, 1, start + leaseMillis 0⟩⟩ := by
        rw [mongoStep, mongoLock_none rfl]
      rw [hfirst, mongoStep, mongoLock_holder rfl heq]

/-- Two callers without a `ReentrantKey` both lock, on either backend. -/
theorem plain_callers_not_excluded :
    ¬Excludes (C := Bool) (luaStep plainKey) some none ∧
    ¬Excludes (C := Bool) (mongoStep plainKey) MongoEvent.call? ⟨0, none⟩ := by
  constructor
  · intro h
    exact absurd (h [] [] (.lock true 0) (.lock false 0) true 0 false 0 rfl rfl nofun rfl nofun
      (by decide)) (by decide)
  · intro h
    exact absurd (h [] [] (.call (.lock true 0)) (.call (.lock false 0)) true 0 false 0 rfl rfl
      nofun rfl nofun (by decide)) (by decide)

end Gofusion.Lock
