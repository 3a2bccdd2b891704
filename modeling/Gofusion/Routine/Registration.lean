import Gofusion.Routine.Future

/-!
# Registrations that race

`addCallback` of `routine/future.go` in its single steps.  A call loads the `futureVal`, appends
the callback to its copy of a slice and swaps the copy in, or starts again if another call was
faster.  `NewPromise` gives the slices room, so the append writes into the array that all copies
share, also if the swap fails.  The goroutine of `setResult` reads the arrays while it runs.

Calls with a callback of the wrong type panic and are left out, and so are pipes.
-/

namespace Gofusion.Routine

open Gofusion.Lib

structure Slice where
  array : Nat
  len : Nat
  cap : Nat
deriving DecidableEq, Repr

def Slice.longer (sl : Slice) : Slice := { sl with len := sl.len + 1 }

/-- Where a goroutine is in `addCallback`: at the head of the loop, behind the load, with the
slice it has loaded, or behind the append. -/
inductive Caller (C : Type)
  | idle
  | loop (k : Kind) (c : C)
  | loaded (k : Kind) (c : C) (version : Nat) (old : Slice)
  | written (k : Kind) (c : C) (version : Nat) (old new : Slice)

/-- A Future with the arrays of its slices and the goroutines that call it. -/
structure Shared (V E C τ : Type) where
  heap : Nat → Nat → Option C
  /-- The next array that `append` allocates. -/
  fresh : Nat
  /-- The pointer `val`.  Every swap changes it. -/
  version : Nat
  slices : Kind → Slice
  result : Option (Result V E)
  /-- The slots that `execCallback` still has to read. -/
  queue : List (Nat × Nat)
  ran : List (C × Result V E)
  callers : τ → Caller C
  /-- The registrations whose calls have returned. -/
  returned : List (Kind × C)

inductive RaceEvent (V E C τ : Type)
  | call (t : τ) (k : Kind) (c : C)
  | load (t : τ)
  | write (t : τ)
  | swap (t : τ)
  /-- `Resolve`, `Reject` or `Cancel`, at the swap that succeeds or the load that fails. -/
  | settle (r : Result V E)
  | notify
deriving DecidableEq, Repr

/-- The lists that `execCallback` runs, in its order. -/
def Result.kinds {V E : Type} : Result V E → List Kind
  | .success _ => [.done, .always]
  | .failure _ => [.fail, .always]
  | .cancelled => [.cancel]

variable {V E C τ : Type}

namespace Shared

/-- `NewPromise`. -/
def start : Shared V E C τ where
  heap _ _ := none
  fresh := 4
  version := 0
  slices
    | .done => ⟨0, 0, 8⟩
    | .fail => ⟨1, 0, 8⟩
    | .always => ⟨2, 0, 4⟩
    | .cancel => ⟨3, 0, 2⟩
  result := none
  queue := []
  ran := []
  callers _ := .idle
  returned := []

variable (s : Shared V E C τ)

def contents (sl : Slice) : List (Option C) := (List.range sl.len).map (s.heap sl.array)

def slots (sl : Slice) : List (Nat × Nat) := (List.range sl.len).map (sl.array, ·)

def setResult (r : Result V E) : Shared V E C τ × Bool :=
  match s.result with
  | some _ => (s, false)
  | none =>
    ({ s with
        result := some r
        version := s.version + 1
        queue := r.kinds.flatMap fun k => slots (s.slices k) }, true)

/-- A write into a slot of an array. -/
def put (a i : Nat) (c : C) : Shared V E C τ :=
  { s with heap := Function.update s.heap a (Function.update (s.heap a) i (some c)) }

/-- `append` of one callback.  A full slice is copied to a new array. -/
def append (grow : Nat → Nat) (sl : Slice) (c : C) : Shared V E C τ × Slice :=
  if sl.len < sl.cap then (s.put sl.array sl.len c, sl.longer)
  else
    ({ s with
        heap := Function.update s.heap s.fresh
          (Function.update (s.heap sl.array) sl.len (some c))
        fresh := s.fresh + 1 }, ⟨s.fresh, sl.len + 1, grow sl.cap⟩)

/-- The goroutine of `setResult` runs its next callback.  The panic of a nil callback is
recovered. -/
def notify : Shared V E C τ :=
  match s.result, s.queue with
  | some r, p :: ps =>
    { s with queue := ps, ran := s.ran ++ ((s.heap p.1 p.2).map (·, r)).toList }
  | _, _ => s

variable [DecidableEq τ]

def setCaller (t : τ) (x : Caller C) : Shared V E C τ :=
  { s with callers := Function.update s.callers t x }

/-- The call of a goroutine returns. -/
def finish (t : τ) (k : Kind) (c : C) : Shared V E C τ :=
  { s.setCaller t .idle with returned := s.returned ++ [(k, c)] }

/-- `addCallback` is called. -/
def call (t : τ) (k : Kind) (c : C) : Option (Shared V E C τ) :=
  match s.callers t with
  | .idle => some (s.setCaller t (.loop k c))
  | _ => none

/-- The load.  On a settled Future the callback runs in the call, if it matches. -/
def load (t : τ) : Option (Shared V E C τ) :=
  match s.callers t, s.result with
  | .loop k c, none => some (s.setCaller t (.loaded k c s.version (s.slices k)))
  | .loop k c, some r =>
    some { s.finish t k c with ran := if k.runsOn r then s.ran ++ [(c, r)] else s.ran }
  | _, _ => none

/-- The append to the copy. -/
def write (grow : Nat → Nat) (t : τ) : Option (Shared V E C τ) :=
  match s.callers t with
  | .loaded k c version old =>
    some ((s.append grow old c).1.setCaller t (.written k c version old (s.append grow old c).2))
  | _ => none

/-- The copy of a call is swapped in. -/
def commit (t : τ) (k : Kind) (c : C) (new : Slice) : Shared V E C τ :=
  { s.finish t k c with version := s.version + 1, slices := Function.update s.slices k new }

/-- The compare-and-swap.  If it fails, the loop starts again. -/
def swap (t : τ) : Option (Shared V E C τ) :=
  match s.callers t with
  | .written k c version _ new =>
    if version = s.version then some (s.commit t k c new) else some (s.setCaller t (.loop k c))
  | _ => none

def step (grow : Nat → Nat) (s : Shared V E C τ) : RaceEvent V E C τ → Option (Shared V E C τ)
  | .call t k c => s.call t k c
  | .load t => s.load t
  | .write t => s.write grow t
  | .swap t => s.swap t
  | .settle r => some (s.setResult r).1
  | .notify => some s.notify

/-- A goroutine may still write into the slot behind the slice of its kind, or has written there
and can still swap its copy in. -/
def Threatens (s : Shared V E C τ) (t : τ) (k : Kind) (c : C) : Prop :=
  (∃ version old, s.callers t = .loaded k c version old ∧ old.len < old.cap) ∨
  ∃ old new, s.callers t = .written k c s.version old new ∧ old.len < old.cap

/-- A goroutine loads while another one threatens the slot that it is about to write into. -/
def Races (s : Shared V E C τ) : RaceEvent V E C τ → Prop
  | .load u => s.result = none ∧ ∃ k d t c, s.callers u = .loop k d ∧ t ≠ u ∧ s.Threatens t k c
  | _ => False

end Shared

/-! ## The Future of single steps -/

def Future.callbacks (f : Future V E C) : Kind → List C
  | .done => f.dones
  | .fail => f.fails
  | .always => f.always
  | .cancel => f.cancels

/-- The lists that are run, in terms of the kinds. -/
theorem Future.execCallback_eq (f : Future V E C) (r : Result V E) :
    f.execCallback r = r.kinds.flatMap f.callbacks := by
  cases r <;> simp [execCallback, Result.kinds, callbacks]

/-- A registration on a pending Future changes the list of its kind. -/
theorem Future.addCallback_of_none {f : Future V E C} (h : f.result = none) (k : Kind) (c : C) :
    (f.addCallback k c).result = none ∧ (f.addCallback k c).queue = f.queue ∧
      (f.addCallback k c).ran = f.ran ∧ (f.addCallback k c).callbacks =
        Function.update f.callbacks k (f.callbacks k ++ [c]) := by
  refine ⟨?_, ?_, ?_, funext fun k' => ?_⟩
  · cases k <;> simp [addCallback, h]
  · cases k <;> simp [addCallback, h]
  · cases k <;> simp [addCallback, h]
  · cases k <;> cases k' <;> simp [addCallback, h, callbacks]

/-- The shared Future looks like one whose calls are single steps. -/
structure Refines (s : Shared V E C τ) (f : Future V E C) : Prop where
  result : s.result = f.result
  ran : s.ran = f.ran
  contents : s.result = none → ∀ k, s.contents (s.slices k) = (f.callbacks k).map some
  queue : s.queue.map (fun p => s.heap p.1 p.2) = f.queue.map some

/-- The shared Future looks like one with the given registrations. -/
def Mirrors (s : Shared V E C τ) (regs : List (Kind × C)) : Prop :=
  ∃ f, Refines s f ∧ Accounts f regs

section

variable {s : Shared V E C τ} {f : Future V E C} {regs : List (Kind × C)}

theorem Mirrors.ran_nil (h : Mirrors s regs) (hnone : s.result = none) : s.ran = [] := by
  obtain ⟨f, href, hacc⟩ := h
  exact href.ran.trans (hacc.idle (href.result.symm.trans hnone)).2

/-- Behind the last notification the matching callbacks have run, each once per registration. -/
theorem Mirrors.ran_perm (h : Mirrors s regs) (hr : s.result = some r) (hq : s.queue = []) :
    s.ran.Perm ((matching r regs).map (·, r)) := by
  obtain ⟨f, href, hacc⟩ := h
  have hperm := hacc.perm r (href.result.symm.trans hr)
  have hqueue := href.queue
  rw [hq, List.map_nil] at hqueue
  rw [List.map_eq_nil_iff.mp hqueue.symm, List.map_nil, List.append_nil] at hperm
  exact href.ran ▸ hperm

/-- Settling is the same on both sides. -/
theorem Mirrors.setResult (h : Mirrors s regs) (r : Result V E) :
    Mirrors (s.setResult r).1 regs := by
  obtain ⟨f, href, hacc⟩ := h
  refine ⟨(f.setResult r).1, ?_, hacc.setResult r⟩
  cases hres : s.result with
  | some r' =>
    rw [Future.setResult_of_some (href.result.symm.trans hres)]
    simpa only [Shared.setResult, hres] using href
  | none =>
    have hnone := href.result.symm.trans hres
    simp only [Shared.setResult, Future.setResult, hres, hnone]
    refine ⟨rfl, href.ran, fun hsome => absurd hsome (Option.some_ne_none r), ?_⟩
    rw [Future.execCallback_eq, List.map_flatMap, List.map_flatMap]
    congr 1
    funext k
    rw [← href.contents hres k, Shared.slots, List.map_map]
    rfl

/-- So is a notification. -/
theorem Mirrors.notify (h : Mirrors s regs) : Mirrors s.notify regs := by
  obtain ⟨f, href, hacc⟩ := h
  refine ⟨f.notify, ?_, hacc.notify⟩
  have hqueue := href.queue
  cases hq : s.queue with
  | nil =>
    rw [hq, List.map_nil] at hqueue
    rw [Future.notify_of_nil (List.map_eq_nil_iff.mp hqueue.symm)]
    cases hres : s.result <;> simpa only [Shared.notify, hq, hres] using href
  | cons p ps =>
    rw [hq, List.map_cons] at hqueue
    obtain ⟨c, cs, hf, hc, hcs⟩ := List.map_eq_cons_iff.mp hqueue.symm
    cases hres : s.result with
    | none =>
      rw [(hacc.idle (href.result.symm.trans hres)).1] at hf
      cases hf
    | some r =>
      rw [Future.notify_of_some (href.result.symm.trans hres) hf]
      simp only [Shared.notify, hq, hres, ← hc]
      exact ⟨hres.symm.trans href.result, congrArg (· ++ [(c, r)]) href.ran,
        fun hnone => Option.some_ne_none r hnone |>.elim, hcs.symm⟩

end

/-! ## Calls that do not race -/

/-- The copy of a call is the slice of its kind with the callback behind it. -/
structure Appended (s : Shared V E C τ) (k : Kind) (c : C) (old new : Slice) : Prop where
  slice : old = s.slices k
  inPlace : old.len < old.cap → new = old.longer
  contents : s.contents new = s.contents (s.slices k) ++ [some c]
  array : new.array < s.fresh
  own : ∀ k', (s.slices k').array = new.array → k' = k

/-- A copy stays right while its array and the slice stay. -/
theorem Appended.frame {s s' : Shared V E C τ} (h : Appended s k c old new)
    (hslices : s'.slices = s.slices) (hfresh : s.fresh ≤ s'.fresh)
    (hnew : s'.contents new = s.contents new)
    (hlive : s'.contents (s.slices k) = s.contents (s.slices k)) : Appended s' k c old new where
  slice := hslices ▸ h.slice
  inPlace := h.inPlace
  contents := by rw [hnew, h.contents, hslices, hlive]
  array := Nat.lt_of_lt_of_le h.array hfresh
  own := hslices ▸ h.own

/-- What holds as long as no load races. -/
structure Unraced (s : Shared V E C τ) : Prop where
  distinct : ∀ k k', (s.slices k).array = (s.slices k').array → k = k'
  arrays : ∀ k, (s.slices k).array < s.fresh
  idle : s.result = none → s.queue = []
  queue : ∀ p ∈ s.queue, ∃ k, p.1 = (s.slices k).array ∧ p.2 < (s.slices k).len
  /-- At most one goroutine threatens the slot of a kind. -/
  unique : ∀ t t' k c c', s.Threatens t k c → s.Threatens t' k c' → t = t'
  loaded : ∀ t k c version old, s.callers t = .loaded k c version old → version ≤ s.version ∧
    (version = s.version → s.result = none ∧ old = s.slices k) ∧
    (old.len < old.cap → old = s.slices k)
  written : ∀ t k c version old new, s.callers t = .written k c version old new →
    version ≤ s.version ∧ (version = s.version → s.result = none ∧ Appended s k c old new)

/-- A slot of one of the four slices. -/
def Live (s : Shared V E C τ) (a i : Nat) : Prop :=
  ∃ k, a = (s.slices k).array ∧ i < (s.slices k).len

section

variable {s s' : Shared V E C τ} {f : Future V E C} {regs : List (Kind × C)}

theorem unraced_start : Unraced (Shared.start : Shared V E C τ) where
  distinct k k' h := by cases k <;> cases k' <;> simp_all [Shared.start]
  arrays k := by cases k <;> simp [Shared.start]
  idle _ := rfl
  queue p hp := by cases hp
  unique t t' k c c' h := by
    obtain ⟨version, old, h, -⟩ | ⟨old, new, h, -⟩ := h <;> cases h
  loaded t k c version old h := by cases h
  written t k c version old new h := by cases h

theorem mirrors_start : Mirrors (Shared.start : Shared V E C τ) [] := by
  refine ⟨newPromise, ⟨rfl, rfl, fun _ k => ?_, rfl⟩, accounts_newPromise⟩
  cases k <;> rfl

theorem contents_congr {sl : Slice} (h : ∀ i < sl.len, s'.heap sl.array i = s.heap sl.array i) :
    s'.contents sl = s.contents sl :=
  List.map_congr_left fun i hi => h i (List.mem_range.mp hi)

/-- A change of dead slots and of the callers is not seen. -/
theorem Mirrors.frame (hs : Unraced s) (h : Mirrors s regs)
    (hheap : ∀ a i, Live s a i → s'.heap a i = s.heap a i) (hslices : s'.slices = s.slices)
    (hresult : s'.result = s.result) (hqueue : s'.queue = s.queue) (hran : s'.ran = s.ran) :
    Mirrors s' regs := by
  obtain ⟨f, href, hacc⟩ := h
  refine ⟨f, ⟨hresult.trans href.result, hran.trans href.ran, fun hnone k => ?_, ?_⟩, hacc⟩
  · rw [hslices, ← href.contents (hresult ▸ hnone) k]
    exact contents_congr fun i hi => hheap _ _ ⟨k, rfl, hi⟩
  · rw [hqueue, ← href.queue]
    exact List.map_congr_left fun p hp => hheap _ _ (hs.queue p hp)

/-- A slice of a pending Future gets longer by one callback. -/
theorem Mirrors.extend (h : Mirrors s regs) (hnone : s.result = none)
    (hnew : s'.contents new = s.contents (s.slices k) ++ [some c]) (hheap : s'.heap = s.heap)
    (hslices : s'.slices = Function.update s.slices k new) (hresult : s'.result = none)
    (hqueue : s'.queue = s.queue) (hran : s'.ran = s.ran) : Mirrors s' (regs ++ [(k, c)]) := by
  obtain ⟨f, href, hacc⟩ := h
  obtain ⟨hres, hq, hr, hcallbacks⟩ :=
    Future.addCallback_of_none (href.result.symm.trans hnone) k c
  refine ⟨f.addCallback k c, ⟨hresult.trans hres.symm, (hran.trans href.ran).trans hr.symm,
    fun _ k' => ?_, ?_⟩, hacc.addCallback k c⟩
  · rw [hslices, hcallbacks]
    by_cases hk : k' = k
    · subst hk
      rw [Function.update_self, Function.update_self, hnew, href.contents hnone, List.map_append]
      rfl
    · rw [Function.update_of_ne hk, Function.update_of_ne hk, ← href.contents hnone k']
      exact contents_congr fun i _ => by rw [hheap]
  · rw [hqueue, hheap, hq]
    exact href.queue

/-- A goroutine that is not between its load and its swap. -/
def Caller.Calm : Caller C → Prop
  | .idle | .loop _ _ => True
  | _ => False

theorem threatens_of_callers (h : s'.Threatens t k c) (hversion : s'.version = s.version)
    (hcallers : s'.callers t = s.callers t ∨ (s'.callers t).Calm) : s.Threatens t k c := by
  rcases hcallers with heq | hcalm
  · simpa only [Shared.Threatens, heq, hversion] using h
  · obtain ⟨version, old, h, -⟩ | ⟨old, new, h, -⟩ := h <;> rw [h] at hcalm <;> cases hcalm

/-- A caller that leaves its attempt changes nothing for the others. -/
theorem Unraced.frame (h : Unraced s) (hheap : s'.heap = s.heap) (hfresh : s'.fresh = s.fresh)
    (hversion : s'.version = s.version) (hslices : s'.slices = s.slices)
    (hresult : s'.result = s.result) (hqueue : s'.queue ⊆ s.queue)
    (hcallers : ∀ t, s'.callers t = s.callers t ∨ (s'.callers t).Calm) : Unraced s' where
  distinct := by rw [hslices]; exact h.distinct
  arrays := by rw [hslices, hfresh]; exact h.arrays
  idle hnone := List.subset_nil.mp (h.idle (hresult ▸ hnone) ▸ hqueue)
  queue := by rw [hslices]; exact fun p hp => h.queue p (hqueue hp)
  unique t t' k c c' ht ht' := h.unique t t' k c c'
    (threatens_of_callers ht hversion (hcallers t))
    (threatens_of_callers ht' hversion (hcallers t'))
  loaded t k c version old ht := by
    rcases hcallers t with heq | hcalm
    · rw [hversion, hresult, hslices]
      exact h.loaded t k c version old (heq ▸ ht)
    · rw [ht] at hcalm
      cases hcalm
  written t k c version old new ht := by
    rcases hcallers t with heq | hcalm
    · obtain ⟨hle, hcurrent⟩ := h.written t k c version old new (heq ▸ ht)
      rw [hversion, hresult]
      have hcontents : ∀ sl, s'.contents sl = s.contents sl := fun sl => by
        simp only [Shared.contents, hheap]
      exact ⟨hle, fun heq => ⟨(hcurrent heq).1, (hcurrent heq).2.frame hslices (Nat.le_of_eq hfresh.symm)
        (hcontents new) (hcontents _)⟩⟩
    · rw [ht] at hcalm
      cases hcalm

/-- Settling makes every copy out of date. -/
theorem Unraced.setResult (h : Unraced s) (r : Result V E) : Unraced (s.setResult r).1 := by
  cases hres : s.result with
  | some r' => simpa only [Shared.setResult, hres] using h
  | none =>
    simp only [Shared.setResult, hres]
    refine ⟨h.distinct, h.arrays, fun hnone => (Option.some_ne_none r hnone).elim, ?_, ?_, ?_, ?_⟩
    · intro p hp
      obtain ⟨k, -, hp⟩ := List.mem_flatMap.mp hp
      obtain ⟨i, hi, rfl⟩ := List.mem_map.mp hp
      exact ⟨k, rfl, List.mem_range.mp hi⟩
    · -- A copy that was written before can no longer be swapped in.
      have hold : ∀ {t k c}, (s.setResult r).1.Threatens t k c → s.Threatens t k c := by
        simp only [Shared.setResult, hres]
        rintro t k c (hloaded | ⟨old, new, hwritten, -⟩)
        · exact .inl hloaded
        · exact absurd (h.written t k c _ old new hwritten).1 (Nat.not_succ_le_self _)
      simp only [Shared.setResult, hres] at hold
      exact fun t t' k c c' ht ht' => h.unique t t' k c c' (hold ht) (hold ht')
    · intro t k c version old ht
      obtain ⟨hle, -, hroom⟩ := h.loaded t k c version old ht
      exact ⟨by simp only; omega, fun heq => by simp only at heq; omega, hroom⟩
    · intro t k c version old new ht
      have hle := (h.written t k c version old new ht).1
      exact ⟨by simp only; omega, fun heq => by simp only at heq; omega⟩

theorem Shared.append_room (grow : Nat → Nat) (s : Shared V E C τ) (c : C) {sl : Slice}
    (hroom : sl.len < sl.cap) :
    s.append grow sl c = (s.put sl.array sl.len c, sl.longer) :=
  if_pos hroom

/-- `append` writes into one slot behind its slice, or into a new array. -/
theorem append_heap (grow : Nat → Nat) (s : Shared V E C τ) (sl : Slice) (c : C) (hnew : a ≠ s.fresh)
    (hslot : sl.len < sl.cap → a = sl.array → i ≠ sl.len) :
    (s.append grow sl c).1.heap a i = s.heap a i := by
  rw [Shared.append]
  split
  case isTrue hroom =>
    by_cases ha : a = sl.array
    · subst ha
      simp [Shared.put, hslot hroom rfl]
    · simp [Shared.put, ha]
  case isFalse => simp [hnew]

/-- The new slice has one callback more. -/
theorem append_contents (grow : Nat → Nat) (s : Shared V E C τ) (sl : Slice) (c : C) :
    (s.append grow sl c).1.contents (s.append grow sl c).2 = s.contents sl ++ [some c] := by
  have hrange : ∀ g : Nat → Option C, (List.range (sl.len + 1)).map
      (Function.update g sl.len (some c)) = (List.range sl.len).map g ++ [some c] := by
    intro g
    rw [List.range_succ, List.map_append, List.map_singleton, Function.update_self]
    congr 1
    refine List.map_congr_left fun i hi => Function.update_of_ne ?_ ..
    exact Nat.ne_of_lt (List.mem_range.mp hi)
  rw [Shared.append]
  split <;> simp [Shared.contents, Shared.put, Slice.longer, hrange]

theorem append_fields (grow : Nat → Nat) (s : Shared V E C τ) (sl : Slice) (c : C) :
    let s' := (s.append grow sl c).1
    s'.version = s.version ∧ s'.slices = s.slices ∧ s'.result = s.result ∧ s'.queue = s.queue ∧
      s'.ran = s.ran ∧ s'.callers = s.callers ∧ s'.returned = s.returned ∧ s.fresh ≤ s'.fresh := by
  rw [Shared.append]
  split
  · exact ⟨rfl, rfl, rfl, rfl, rfl, rfl, rfl, Nat.le_refl _⟩
  · exact ⟨rfl, rfl, rfl, rfl, rfl, rfl, rfl, Nat.le_succ _⟩

/-- The array of the appended slice belongs to no other slice. -/
theorem Unraced.append_own (h : Unraced s) (grow : Nat → Nat) (c : C) (k : Kind) :
    (s.append grow (s.slices k) c).2.array < (s.append grow (s.slices k) c).1.fresh ∧
      ∀ k', (s.slices k').array = (s.append grow (s.slices k) c).2.array → k' = k := by
  rw [Shared.append]
  split
  · exact ⟨h.arrays k, fun k' heq => h.distinct k' k heq⟩
  · exact ⟨Nat.lt_succ_self _, fun k' heq => absurd heq (Nat.ne_of_lt (h.arrays k'))⟩

/-- A new slice of one kind, whose array is no other's. -/
theorem Unraced.distinct_update (h : Unraced s) (hown : ∀ k', (s.slices k').array = new.array → k' = k)
    (k₁ k₂ : Kind) (heq : (Function.update s.slices k new k₁).array =
      (Function.update s.slices k new k₂).array) : k₁ = k₂ := by
  by_cases h₁ : k₁ = k <;> by_cases h₂ : k₂ = k
  · exact h₁.trans h₂.symm
  · subst h₁
    rw [Function.update_self, Function.update_of_ne h₂] at heq
    exact absurd (hown k₂ heq.symm) h₂
  · subst h₂
    rw [Function.update_self, Function.update_of_ne h₁] at heq
    exact absurd (hown k₁ heq) h₁
  · rw [Function.update_of_ne h₁, Function.update_of_ne h₂] at heq
    exact h.distinct k₁ k₂ heq

/-- A copy that can be swapped in is of the only call that threatens its kind. -/
theorem Unraced.alone_of_written (h : Unraced s)
    (ht : s.callers t = .written k c s.version old new) (hne : t' ≠ t) : ¬s.Threatens t' k c' := by
  intro hthreat
  obtain ⟨-, happended⟩ := (h.written t k c _ old new ht).2 rfl
  have hroom : old.len < old.cap := by
    obtain ⟨version, old', ht', hroom⟩ | ⟨old', new', ht', hroom⟩ := hthreat
    · rwa [happended.slice, ← (h.loaded t' k c' version old' ht').2.2 hroom]
    · rwa [happended.slice, ← ((h.written t' k c' _ old' new' ht').2 rfl).2.slice]
  exact hne (h.unique t' t k c' c hthreat (.inr ⟨old, new, ht, hroom⟩))

/-- The append of a call that has loaded without a race keeps what the others see. -/
theorem Unraced.append_live (h : Unraced s) (grow : Nat → Nat)
    (ht : s.callers t = .loaded k c version old) {a i : Nat} (hlive : Live s a i) :
    (s.append grow old c).1.heap a i = s.heap a i := by
  obtain ⟨k', rfl, hi⟩ := hlive
  refine append_heap grow s old c (Nat.ne_of_lt (h.arrays k')) fun hroom ha hi' => ?_
  have hold := (h.loaded t k c version old ht).2.2 hroom
  rw [hold] at ha hi'
  rw [h.distinct k' k ha] at hi
  exact Nat.ne_of_lt hi hi'

/-- While a copy can be swapped in, nobody else writes into its array. -/
theorem Unraced.append_written (h : Unraced s) (grow : Nat → Nat)
    (ht : s.callers t = .loaded k c version old) (hne : t' ≠ t)
    (ht' : s.callers t' = .written k' c' s.version o n) (i : Nat) :
    (s.append grow old c).1.heap n.array i = s.heap n.array i := by
  obtain ⟨-, happended⟩ := (h.written t' k' c' _ o n ht').2 rfl
  refine append_heap grow s old c (Nat.ne_of_lt happended.array) fun hroom ha _ => ?_
  have hold := (h.loaded t k c version old ht).2.2 hroom
  obtain rfl := happended.own k (by rw [ha, hold])
  have hroom' : o.len < o.cap := by rwa [happended.slice, ← hold]
  exact hne (h.unique t' t k c' c (.inr ⟨o, n, ht', hroom'⟩) (.inl ⟨version, old, ht, hroom⟩))

theorem not_races_of_calm (h : ∀ t, (s.callers t).Calm) (e : RaceEvent V E C τ) : ¬s.Races e := by
  cases e with
  | load u =>
    rintro ⟨-, k, d, t, c, -, -, ⟨version, old, ht, -⟩ | ⟨old, new, ht, -⟩⟩
    · exact absurd (h t) (ht ▸ id)
    · exact absurd (h t) (ht ▸ id)
  | _ => exact id

variable [DecidableEq τ]

theorem setCaller_self (s : Shared V E C τ) (t : τ) (x : Caller C) :
    (s.setCaller t x).callers t = x :=
  Function.update_self ..

theorem setCaller_of_ne (s : Shared V E C τ) (x : Caller C) (h : t' ≠ t) :
    (s.setCaller t x).callers t' = s.callers t' :=
  Function.update_of_ne h ..

theorem callers_setCaller (s : Shared V E C τ) {x : Caller C} (hx : x.Calm) (t t' : τ) :
    (s.setCaller t x).callers t' = s.callers t' ∨ ((s.setCaller t x).callers t').Calm := by
  by_cases ht : t' = t
  · subst ht
    exact .inr (by rwa [setCaller_self])
  · exact .inl (setCaller_of_ne s x ht)

/-- A caller that leaves its attempt, or starts one, races with nobody. -/
theorem Unraced.setCaller (h : Unraced s) {x : Caller C} (hx : x.Calm) (t : τ) :
    Unraced (s.setCaller t x) :=
  h.frame rfl rfl rfl rfl rfl (List.Subset.refl _) (callers_setCaller s hx t)

/-- The Future looks the same whatever a caller is about to do. -/
theorem Mirrors.setCaller (hs : Unraced s) (h : Mirrors s regs) (t : τ) (x : Caller C) :
    Mirrors (s.setCaller t x) regs :=
  h.frame hs (fun _ _ _ => rfl) rfl rfl rfl rfl

/-- A call that has loaded the slice of its kind, where nobody else threatens it. -/
theorem Unraced.load (h : Unraced s) (halone : ∀ t c, t ≠ u → ¬s.Threatens t k c) (d : C)
    (hnone : s.result = none) (hversion : version ≤ s.version) :
    Unraced (s.setCaller u (.loaded k d version (s.slices k))) := by
  have hother : ∀ {t k' c}, t ≠ u →
      (s.setCaller u (.loaded k d version (s.slices k))).Threatens t k' c →
        s.Threatens t k' c :=
    fun ht hthreat => threatens_of_callers hthreat rfl (.inl (setCaller_of_ne s _ ht))
  have hself : ∀ {k' c},
      (s.setCaller u (.loaded k d version (s.slices k))).Threatens u k' c → k' = k := by
    intro k' c hc
    obtain ⟨version, old, hc, -⟩ | ⟨old, new, hc, -⟩ := hc
    all_goals
      rw [setCaller_self] at hc
      cases hc
    rfl
  refine ⟨h.distinct, h.arrays, h.idle, h.queue, ?_, ?_, ?_⟩
  · intro t t' k' c c' ht ht'
    by_cases heq : t = u <;> by_cases heq' : t' = u
    · exact heq.trans heq'.symm
    · subst heq
      exact absurd (hself ht ▸ hother heq' ht') (halone t' _ heq')
    · subst heq'
      exact absurd (hself ht' ▸ hother heq ht) (halone t _ heq)
    · exact h.unique t t' k' c c' (hother heq ht) (hother heq' ht')
  · intro t k' c version old ht
    by_cases heq : t = u
    · subst heq
      rw [setCaller_self] at ht
      cases ht
      exact ⟨hversion, fun _ => ⟨hnone, rfl⟩, fun _ => rfl⟩
    · exact h.loaded t k' c version old ((setCaller_of_ne s _ heq).symm.trans ht)
  · intro t k' c version old new ht
    by_cases heq : t = u
    · subst heq
      rw [setCaller_self] at ht
      cases ht
    · obtain ⟨hle, hcurrent⟩ :=
        h.written t k' c version old new ((setCaller_of_ne s _ heq).symm.trans ht)
      exact ⟨hle, fun heq => ⟨(hcurrent heq).1, (hcurrent heq).2.frame rfl (Nat.le_refl _) rfl rfl⟩⟩

/-- The write of a call that has loaded without a race. -/
theorem Unraced.write (h : Unraced s) (grow : Nat → Nat)
    (ht : s.callers t = .loaded k c version old) (happend : s.append grow old c = (s₁, new)) :
    Unraced (s₁.setCaller t (.written k c version old new)) := by
  have hfields := append_fields grow s old c
  have hcell := fun a i => h.append_live grow ht (a := a) (i := i)
  have hwritten : ∀ t' k' c' o n, t' ≠ t → s.callers t' = .written k' c' s.version o n →
      ∀ i, (s.append grow old c).1.heap n.array i = s.heap n.array i :=
    fun _ _ _ _ _ hne ht' i => h.append_written grow ht hne ht' i
  have hcontents := append_contents grow s old c
  rw [happend] at hfields hcell hwritten hcontents
  obtain ⟨hversion, hslices, hresult, hqueue, -, hcallers, -, hfresh⟩ := hfields
  have hlive : ∀ k', s₁.contents (s.slices k') = s.contents (s.slices k') :=
    fun k' => contents_congr fun i hi => hcell _ _ ⟨k', rfl, hi⟩
  change s₁.version = s.version at hversion
  have hother : ∀ {t'}, t' ≠ t →
      (s₁.setCaller t (.written k c version old new)).callers t' = s.callers t' :=
    fun hne => (setCaller_of_ne s₁ _ hne).trans (congrFun hcallers _)
  have hthreat : ∀ {t' k' c'}, (s₁.setCaller t (.written k c version old new)).Threatens t' k' c' →
      s.Threatens t' k' c' := by
    intro t' k' c' hc
    by_cases hne : t' = t
    · subst hne
      obtain ⟨version', old', hc, -⟩ | ⟨old', new', hc, hroom⟩ := hc
      all_goals
        rw [setCaller_self] at hc
        injection hc
      subst_vars
      exact .inl ⟨_, _, ht, hroom⟩
    · exact threatens_of_callers hc hversion (.inl (hother hne))
  refine ⟨?_, ?_, ?_, ?_, ?_, ?_, ?_⟩
  · exact hslices ▸ h.distinct
  · intro k'
    exact Nat.lt_of_lt_of_le (hslices ▸ h.arrays k') hfresh
  · exact hresult ▸ hqueue ▸ h.idle
  · exact hslices ▸ hqueue ▸ h.queue
  · exact fun t₁ t₂ k' c₁ c₂ h₁ h₂ => h.unique t₁ t₂ k' c₁ c₂ (hthreat h₁) (hthreat h₂)
  · intro t' k' c' version' old' ht'
    by_cases hne : t' = t
    · subst hne
      rw [setCaller_self] at ht'
      cases ht'
    · exact hversion ▸ hresult ▸ hslices ▸
        h.loaded t' k' c' version' old' ((hother hne).symm.trans ht')
  · intro t' k' c' version' old' new' ht'
    change version' ≤ s₁.version ∧ (version' = s₁.version → s₁.result = none ∧ _)
    rw [hversion, hresult]
    by_cases hne : t' = t
    · subst hne
      rw [setCaller_self] at ht'
      cases ht'
      obtain ⟨hle, hcurrent, -⟩ := h.loaded t' k c version old ht
      refine ⟨hle, fun heq => ⟨(hcurrent heq).1, ?_⟩⟩
      obtain ⟨harray, hown⟩ := h.append_own grow c k
      obtain ⟨-, rfl⟩ := hcurrent heq
      rw [happend] at harray hown
      refine Appended.frame (s := s₁) ⟨congrFun hslices.symm k, fun hroom => ?_, ?_, harray,
        hslices ▸ hown⟩ rfl (Nat.le_refl _) rfl rfl
      · exact (congrArg Prod.snd (happend.symm.trans (if_pos hroom)))
      · rw [hcontents, hslices, hlive]
    · have ht' := (hother hne).symm.trans ht'
      obtain ⟨hle, hcurrent⟩ := h.written t' k' c' version' old' new' ht'
      refine ⟨hle, fun heq => ⟨(hcurrent heq).1, (hcurrent heq).2.frame hslices hfresh ?_ (hlive k')⟩⟩
      exact contents_congr fun i _ => hwritten t' k' c' old' new' hne (heq ▸ ht') i

theorem commit_callers {x : Caller C} (hx : ¬x.Calm) (h : (s.commit t k c new).callers t' = x) :
    t' ≠ t ∧ s.callers t' = x := by
  have hne : t' ≠ t := by
    rintro rfl
    refine hx (h ▸ ?_)
    exact (setCaller_self s t' .idle).symm ▸ trivial
  exact ⟨hne, (setCaller_of_ne s _ hne).symm.trans h⟩

/-- Who threatens a slot behind a swap did so before. -/
theorem threatens_of_commit (h : Unraced s) (hc : (s.commit t k c new).Threatens t' k' c') :
    t' ≠ t ∧ s.Threatens t' k' c' := by
  obtain ⟨version, old', hc, hroom⟩ | ⟨old', new', hc, -⟩ := hc
  · obtain ⟨hne, hc⟩ := commit_callers id hc
    exact ⟨hne, .inl ⟨version, old', hc, hroom⟩⟩
  · exact absurd (h.written t' k' c' _ old' new' (commit_callers id hc).2).1 (Nat.not_succ_le_self _)

/-- A slice of a kind is replaced, and every copy is out of date.  Nobody may be about to write
into the slot behind it. -/
theorem Unraced.commit (h : Unraced s) (hnone : s.result = none) (harray : new.array < s.fresh)
    (hown : ∀ k', (s.slices k').array = new.array → k' = k)
    (halone : ∀ t' c' version old, t' ≠ t → s.callers t' = .loaded k c' version old →
      ¬old.len < old.cap) : Unraced (s.commit t k c new) := by
  refine ⟨h.distinct_update hown, fun k' => ?_, fun _ => h.idle hnone, fun p hp => ?_, ?_, ?_, ?_⟩
  · change (Function.update s.slices k new k').array < s.fresh
    by_cases hk : k' = k
    · rwa [hk, Function.update_self]
    · rw [Function.update_of_ne hk]
      exact h.arrays k'
  · rw [Shared.commit, show (s.finish t k c).queue = [] from h.idle hnone] at hp
    cases hp
  · exact fun t₁ t₂ k' c₁ c₂ h₁ h₂ =>
      h.unique t₁ t₂ k' c₁ c₂ (threatens_of_commit h h₁).2 (threatens_of_commit h h₂).2
  · intro t' k' c' version' old' ht'
    obtain ⟨hne, hcaller⟩ := commit_callers id ht'
    obtain ⟨hle, -, hroom⟩ := h.loaded t' k' c' version' old' hcaller
    have hlt : version' < s.version + 1 := Nat.lt_succ_of_le hle
    refine ⟨Nat.le_of_lt hlt, fun heq => absurd heq (Nat.ne_of_lt hlt), fun hr => ?_⟩
    have hk : k' ≠ k := by
      rintro rfl
      exact halone t' c' version' old' hne hcaller hr
    simpa [Shared.commit, hk] using hroom hr
  · intro t' k' c' version' old' new' ht'
    have hle := (h.written t' k' c' version' old' new' (commit_callers id ht').2).1
    have hlt : version' < s.version + 1 := Nat.lt_succ_of_le hle
    exact ⟨Nat.le_of_lt hlt, fun heq => absurd heq (Nat.ne_of_lt hlt)⟩

/-- The swap of a copy that is current. -/
theorem Unraced.swap (h : Unraced s) (ht : s.callers t = .written k c s.version old new) :
    Unraced (s.commit t k c new) := by
  obtain ⟨hnone, happended⟩ := (h.written t k c _ old new ht).2 rfl
  exact h.commit hnone happended.array happended.own fun t' c' version old' hne ht' hroom =>
    h.alone_of_written ht hne (.inl ⟨version, old', ht', hroom⟩)

/-- What a step adds to the registrations that have returned, it adds to those that the Future
looks like. -/
theorem Unraced.step {e : RaceEvent V E C τ} (h : Unraced s) (hmirrors : Mirrors s regs)
    (hrace : ¬s.Races e) (hstep : Shared.step grow s e = some s') :
    Unraced s' ∧ ∃ news, s'.returned = s.returned ++ news ∧ Mirrors s' (regs ++ news) := by
  have hnil : ∀ {s₁ : Shared V E C τ}, s₁.returned = s.returned → Mirrors s₁ regs →
      ∃ news, s₁.returned = s.returned ++ news ∧ Mirrors s₁ (regs ++ news) :=
    fun hreturned ht => ⟨[], by rw [hreturned, List.append_nil], by rwa [List.append_nil]⟩
  cases e with
  | call t k c =>
    simp only [Shared.step, Shared.call] at hstep
    split at hstep <;> cases hstep
    exact ⟨h.setCaller (by trivial) t, hnil rfl (hmirrors.setCaller h t _)⟩
  | load t =>
    simp only [Shared.step, Shared.load] at hstep
    split at hstep <;> cases hstep
    case h_1 k c ht hnone =>
      refine ⟨h.load (fun t' c' hne hthreat => ?_) c hnone (Nat.le_refl _),
        hnil rfl (hmirrors.setCaller h t _)⟩
      exact hrace ⟨hnone, k, c, t', c', ht, hne, hthreat⟩
    case h_2 k c r ht hsome =>
      refine ⟨h.frame rfl rfl rfl rfl rfl (List.Subset.refl _) (callers_setCaller s (by trivial) t),
        [(k, c)], rfl, ?_⟩
      obtain ⟨f, href, hacc⟩ := hmirrors
      refine ⟨f.addCallback k c, ?_, hacc.addCallback k c⟩
      rw [Future.addCallback_of_some (href.result.symm.trans hsome)]
      have hnot : ∀ {P : Prop}, s.result = none → P := fun hn => by simp [hsome] at hn
      split
      · exact ⟨href.result, congrArg (· ++ [(c, r)]) href.ran, hnot, href.queue⟩
      · exact ⟨href.result, href.ran, hnot, href.queue⟩
  | write t =>
    simp only [Shared.step, Shared.write] at hstep
    split at hstep <;> cases hstep
    case h_1 k c version old ht =>
      refine ⟨h.write grow ht rfl, ?_⟩
      obtain ⟨-, hslices, hresult, hqueue, hran, -, hreturned, -⟩ := append_fields grow s old c
      exact hnil hreturned (hmirrors.frame h (fun _ _ hlive => h.append_live grow ht hlive) hslices
        hresult hqueue hran)
  | swap t =>
    simp only [Shared.step, Shared.swap] at hstep
    split at hstep
    case h_1 k c version old new ht =>
      split at hstep <;> cases hstep
      case isTrue hversion =>
        subst hversion
        obtain ⟨hnone, happended⟩ := (h.written t k c _ old new ht).2 rfl
        exact ⟨h.swap ht, [(k, c)], rfl,
          hmirrors.extend hnone happended.contents rfl rfl hnone rfl rfl⟩
      case isFalse =>
        exact ⟨h.setCaller (by trivial) t, hnil rfl (hmirrors.setCaller h t _)⟩
    case h_2 => cases hstep
  | settle r =>
    cases hstep
    refine ⟨h.setResult r, hnil ?_ (hmirrors.setResult r)⟩
    simp only [Shared.setResult]
    split <;> rfl
  | notify =>
    cases hstep
    refine ⟨?_, hnil ?_ hmirrors.notify⟩
    · simp only [Shared.notify]
      split
      case h_1 r p ps hr hq =>
        exact h.frame rfl rfl rfl rfl rfl (hq ▸ List.subset_cons_self p ps) fun _ => .inl rfl
      case h_2 => exact h
    · simp only [Shared.notify]
      split <;> rfl

/-- A run without a race. -/
theorem Unraced.run {es : List (RaceEvent V E C τ)} (h : Unraced s) (hmirrors : Mirrors s regs)
    (hes : Never (Shared.step grow) Shared.Races s es) (hrun : exec (Shared.step grow) s es = some s') :
    Unraced s' ∧ ∃ news, s'.returned = s.returned ++ news ∧ Mirrors s' (regs ++ news) := by
  induction es generalizing s regs with
  | nil =>
    cases hrun
    exact ⟨h, [], by simp, by simpa using hmirrors⟩
  | cons e es ih =>
    obtain ⟨m, hm, hrun⟩ := exec_cons.mp hrun
    obtain ⟨hrace, hes⟩ := never_cons.mp hes m hm
    obtain ⟨hm', news, hnews, hmirrors'⟩ := h.step hmirrors hrace hm
    obtain ⟨hs', news', hnews', hmirrors'⟩ := ih hm' hmirrors' hes hrun
    refine ⟨hs', news ++ news', ?_, ?_⟩
    · rw [hnews', hnews, List.append_assoc]
    · rwa [← List.append_assoc]

/-- The goroutine of `setResult` comes to its end. -/
theorem exists_drained (grow : Nat → Nat) (hsome : s.result = some r) : ∃ s',
    exec (Shared.step grow) s (List.replicate s.queue.length .notify) = some s' ∧ s'.queue = [] ∧
      s'.result = some r ∧ s'.returned = s.returned ∧ ∀ regs, Mirrors s regs → Mirrors s' regs := by
  generalize hn : s.queue = ps
  induction ps generalizing s with
  | nil => exact ⟨s, rfl, hn, hsome, rfl, fun _ => id⟩
  | cons p ps ih =>
    have hnotify : s.notify = { s with
        queue := ps, ran := s.ran ++ ((s.heap p.1 p.2).map (·, r)).toList } := by
      simp only [Shared.notify, hsome, hn]
    obtain ⟨s', hrun, hqueue, hresult, hreturned, hmirrors⟩ :=
      ih (s := s.notify) (by rw [hnotify, hsome]) (by rw [hnotify])
    refine ⟨s', exec_cons.mpr ⟨s.notify, rfl, hrun⟩, hqueue, hresult, ?_,
      fun regs h => hmirrors regs h.notify⟩
    rw [hreturned, hnotify]

/-- A load on a pending Future. -/
theorem step_load (grow : Nat → Nat) (hnone : s.result = none) (ht : s.callers t = .loop k c) :
    Shared.step grow s (.load t) = some (s.setCaller t (.loaded k c s.version (s.slices k))) := by
  simp only [Shared.step, Shared.load, ht, hnone]

/-- The write behind it. -/
theorem step_write (grow : Nat → Nat) (ht : s.callers t = .loaded k c version old) :
    Shared.step grow s (.write t) = some ((s.append grow old c).1.setCaller t
      (.written k c version old (s.append grow old c).2)) := by
  simp only [Shared.step, Shared.write, ht]

/-- The write into a slice with room. -/
theorem step_write_room (grow : Nat → Nat) (ht : s.callers t = .loaded k c version old)
    (hroom : old.len < old.cap) : Shared.step grow s (.write t) =
      some ((s.put old.array old.len c).setCaller t (.written k c version old old.longer)) := by
  rw [step_write grow ht, Shared.append_room grow s c hroom]

/-- The swap of a current copy. -/
theorem step_swap (grow : Nat → Nat) (ht : s.callers t = .written k c version old new)
    (hversion : version = s.version) :
    Shared.step grow s (.swap t) = some (s.commit t k c new) := by
  simp only [Shared.step, Shared.swap, ht, if_pos hversion]

/-- The swap of an old one fails. -/
theorem step_swap_stale (grow : Nat → Nat) (ht : s.callers t = .written k c version old new)
    (hversion : version ≠ s.version) :
    Shared.step grow s (.swap t) = some (s.setCaller t (.loop k c)) := by
  simp only [Shared.step, Shared.swap, ht, if_neg hversion]

/-- A call at the head of its loop that nobody disturbs registers its callback. -/
theorem register_alone (grow : Nat → Nat) (h : Unraced s) (hmirrors : Mirrors s regs) (hnone : s.result = none)
    (hq : s.callers q = .loop k x) (halone : ∀ t c, t ≠ q → ¬s.Threatens t k c) : ∃ s',
      exec (Shared.step grow) s [.load q, .write q, .swap q] = some s' ∧ Unraced s' ∧
        Mirrors s' (regs ++ [(k, x)]) ∧ s'.returned = s.returned ++ [(k, x)] ∧ s'.result = none := by
  have hrace : ¬s.Races (.load q) := by
    rintro ⟨-, k', d, t, c, hq', ht, hthreat⟩
    cases hq.symm.trans hq'
    exact halone t c ht hthreat
  have hnever : Never (Shared.step grow) Shared.Races s [.load q, .write q, .swap q] :=
    never_cons.mpr fun _ _ => ⟨hrace, never_cons.mpr fun _ _ => ⟨id,
      never_cons.mpr fun _ _ => ⟨id, never_nil⟩⟩⟩
  obtain ⟨hversion, -, hresult, -, -, -, hreturned, -⟩ := append_fields grow
    (s.setCaller q (.loaded k x s.version (s.slices k))) (s.slices k) x
  have hrun : exec (Shared.step grow) s [.load q, .write q, .swap q] = some _ :=
    exec_cons.mpr ⟨_, step_load grow hnone hq, exec_cons.mpr ⟨_, step_write grow (setCaller_self ..),
      exec_cons.mpr ⟨_, step_swap grow (setCaller_self ..) hversion.symm, rfl⟩⟩⟩
  obtain ⟨hunraced, news, hnews, hmirrors'⟩ := h.run hmirrors hnever hrun
  have heq : s.returned ++ [(k, x)] = s.returned ++ news := by
    rw [← hnews]
    exact congrArg (· ++ [(k, x)]) hreturned.symm
  obtain rfl := List.append_cancel_left heq
  exact ⟨_, hrun, hunraced, hmirrors', hnews, hresult.trans hnone⟩

/-- Goroutine `q` has written into the slot behind the slice of its kind, for a copy of any age. -/
def Shared.overwrite (s : Shared V E C τ) (q : τ) (k : Kind) (x : C) (version : Nat) :
    Shared V E C τ :=
  (s.put (s.slices k).array (s.slices k).len x).setCaller q
    (.written k x version (s.slices k) (s.slices k).longer)

/-- Where nobody else threatens the kind, the write could come from a call that does not race. -/
theorem Unraced.overwrite (h : Unraced s) (hmirrors : Mirrors s regs) (hnone : s.result = none)
    (hroom : (s.slices k).len < (s.slices k).cap) (hversion : version ≤ s.version)
    (halone : ∀ t c, t ≠ q → ¬s.Threatens t k c) : Unraced (s.overwrite q k x version) ∧
      Mirrors (s.overwrite q k x version) regs ∧
      (s.overwrite q k x version).contents (s.slices k).longer =
        (s.overwrite q k x version).contents (s.slices k) ++ [some x] := by
  have hloaded := h.load halone x hnone hversion
  have hq := setCaller_self s q (.loaded k x version (s.slices k))
  have happend := Shared.append_room id
    (s.setCaller q (.loaded k x version (s.slices k))) x hroom
  have hidem : ((s.setCaller q (.loaded k x version (s.slices k))).put (s.slices k).array
      (s.slices k).len x).setCaller q (.written k x version (s.slices k) (s.slices k).longer) =
        s.overwrite q k x version := by
    simp only [Shared.setCaller, Shared.put, Shared.overwrite, Function.update_idem]
  have hlive : ∀ a i, Live s a i → (s.overwrite q k x version).heap a i = s.heap a i := by
    intro a i hlive
    have := hloaded.append_live id hq hlive
    rwa [happend] at this
  have hcontents := append_contents id s (s.slices k) x
  rw [Shared.append_room id s x hroom] at hcontents
  refine ⟨hidem ▸ hloaded.write id hq happend, hmirrors.frame h hlive rfl rfl rfl rfl, ?_⟩
  refine hcontents.trans (congrArg (· ++ [some x]) ?_)
  exact (contents_congr fun i hi => hlive _ _ ⟨k, rfl, hi⟩).symm

/-- Goroutine `q` has written over the slot of `p`, and then `p` has swapped its copy in. -/
def Shared.overtaken (s : Shared V E C τ) (p q : τ) (k : Kind) (x y : C) (version : Nat) :
    Shared V E C τ :=
  ((s.setCaller p .idle).overwrite q k x version).commit p k y (s.slices k).longer

/-- An overtaken call leaves the callback of the other one in its slot. -/
theorem Unraced.overtaken (h : Unraced s) (hmirrors : Mirrors s regs) (hnone : s.result = none)
    (hroom : (s.slices k).len < (s.slices k).cap) (hversion : version ≤ s.version)
    (halone : ∀ t c, t ≠ p → t ≠ q → ¬s.Threatens t k c) :
    Unraced (s.overtaken p q k x y version) ∧
      Mirrors (s.overtaken p q k x y version) (regs ++ [(k, x)]) ∧
      ∀ t c, t ≠ q → ¬(s.overtaken p q k x y version).Threatens t k c := by
  have h₀ : Unraced (s.setCaller p .idle) := h.setCaller (by trivial) p
  have halone₀ : ∀ t c, t ≠ q → ¬(s.setCaller p .idle).Threatens t k c := by
    intro t c ht hthreat
    by_cases hp : t = p
    · subst hp
      obtain ⟨version, old, hc, -⟩ | ⟨old, new, hc, -⟩ := hthreat <;>
        cases (setCaller_self s t .idle).symm.trans hc
    · exact halone t c hp ht (threatens_of_callers hthreat rfl (.inl (setCaller_of_ne s _ hp)))
  have hmirrors₀ : Mirrors (s.setCaller p .idle) regs := hmirrors.setCaller h p .idle
  obtain ⟨h₁, hmirrors₁, hcontents⟩ :=
    h₀.overwrite (x := x) hmirrors₀ hnone hroom hversion halone₀
  have halone₁ : ∀ t c, t ≠ q → ¬((s.setCaller p .idle).overwrite q k x version).Threatens t k c :=
    fun t c ht hthreat => halone₀ t c ht
      (threatens_of_callers hthreat rfl (.inl (setCaller_of_ne _ _ ht)))
  refine ⟨h₁.commit hnone (h.arrays k) (fun k' => h.distinct k' k) ?_,
    hmirrors₁.extend hnone hcontents rfl rfl hnone rfl rfl,
    fun t c ht hthreat => halone₁ t c ht (threatens_of_commit h₁ hthreat).2⟩
  rintro t c version' old - hloaded hr
  have ht : t ≠ q := by
    rintro rfl
    cases (setCaller_self ..).symm.trans hloaded
  exact halone₁ t c ht (.inl ⟨version', old, hloaded, hr⟩)

/-- The overtaking call starts again, and its callback is there twice. -/
theorem exists_twice (grow : Nat → Nat) (h : Unraced s) (hmirrors : Mirrors s regs)
    (hnone : s.result = none) (hroom : (s.slices k).len < (s.slices k).cap) (hne : p ≠ q)
    (hversion : version ≤ s.version) (halone : ∀ t c, t ≠ p → t ≠ q → ¬s.Threatens t k c) : ∃ s',
      exec (Shared.step grow) (s.overtaken p q k x y version)
        [.swap q, .load q, .write q, .swap q] = some s' ∧ Mirrors s' (regs ++ [(k, x), (k, x)]) ∧
          s'.returned = s.returned ++ [(k, y), (k, x)] ∧ s'.result = none := by
  obtain ⟨h₁, hmirrors₁, halone₁⟩ :=
    h.overtaken (x := x) (y := y) hmirrors hnone hroom hversion halone
  have hq : (s.overtaken p q k x y version).callers q =
      .written k x version (s.slices k) (s.slices k).longer :=
    (setCaller_of_ne _ _ hne.symm).trans (setCaller_self ..)
  have hstale := step_swap_stale grow hq (Nat.ne_of_lt (Nat.lt_succ_of_le hversion))
  obtain ⟨h₂, news, hnews, hmirrors₂⟩ := h₁.step hmirrors₁ (e := .swap q) id hstale
  obtain rfl : news = [] := List.append_right_eq_self.mp hnews.symm
  rw [List.append_nil] at hmirrors₂
  obtain ⟨s', hrun, -, hmirrors', hreturned, hresult⟩ := register_alone grow h₂ hmirrors₂ hnone
    (setCaller_self ..) fun t c ht hthreat => halone₁ t c ht
      (threatens_of_callers hthreat rfl (.inl (setCaller_of_ne _ _ ht)))
  refine ⟨s', exec_cons.mpr ⟨_, hstale, hrun⟩, ?_, ?_, hresult⟩
  · simpa using hmirrors'
  · rw [hreturned]
    exact List.append_assoc ..

/-- A call that has loaded overtakes one that loads later. -/
theorem exec_overtaken_loaded (grow : Nat → Nat) (hnone : s.result = none) (hne : t ≠ u)
    (hu : s.callers u = .loop k d) (ht : s.callers t = .loaded k c version (s.slices k))
    (hroom : (s.slices k).len < (s.slices k).cap) :
    exec (Shared.step grow) s [.load u, .write u, .write t, .swap u] =
      some (s.overtaken u t k c d version) := by
  refine exec_cons.mpr ⟨_, step_load grow hnone hu, exec_cons.mpr ⟨_,
    step_write_room grow (setCaller_self ..) hroom, exec_cons.mpr ⟨_, step_write_room grow
      (((setCaller_of_ne _ _ hne).trans (setCaller_of_ne _ _ hne)).trans ht) hroom,
    exec_cons.mpr ⟨_, step_swap grow ((setCaller_of_ne _ _ hne.symm).trans (setCaller_self ..)) rfl,
      congrArg some ?_⟩⟩⟩⟩
  simp only [Shared.overtaken, Shared.overwrite, Shared.commit, Shared.finish, Shared.setCaller,
    Shared.put, Function.update_idem, Function.update_self, Function.update_comm hne.symm]

/-- A call that loads and writes overtakes one that has written and is still current. -/
theorem exec_overtaken_written (grow : Nat → Nat) (hnone : s.result = none) (hne : t ≠ u)
    (hu : s.callers u = .loop k d)
    (ht : s.callers t = .written k c s.version (s.slices k) (s.slices k).longer)
    (hroom : (s.slices k).len < (s.slices k).cap) :
    exec (Shared.step grow) s [.load u, .write u, .swap t] =
      some (s.overtaken t u k d c s.version) := by
  refine exec_cons.mpr ⟨_, step_load grow hnone hu, exec_cons.mpr ⟨_,
    step_write_room grow (setCaller_self ..) hroom, exec_cons.mpr ⟨_, step_swap grow
      (((setCaller_of_ne _ _ hne).trans (setCaller_of_ne _ _ hne)).trans ht) rfl,
      congrArg some ?_⟩⟩⟩
  simp only [Shared.overtaken, Shared.overwrite, Shared.commit, Shared.finish, Shared.setCaller,
    Shared.put, Function.update_idem, Function.update_comm hne]

/-- The goroutine that takes a step of a call. -/
def RaceEvent.Of (t u : τ) : RaceEvent V E C τ → Prop
  | .load v | .write v | .swap v => v = t ∨ v = u
  | _ => False

/-- Where a load races, the two calls can go on such that the callback of one is lost, and that of
the other one is there twice. -/
theorem exists_lost (grow : Nat → Nat) (h : Unraced s) (hmirrors : Mirrors s regs)
    (hnone : s.result = none) (hu : s.callers u = .loop k d) (hne : t ≠ u)
    (ht : s.Threatens t k c) : ∃ turns s' x y, (∀ e ∈ turns, e.Of t u) ∧
      exec (Shared.step grow) s turns = some s' ∧ s'.result = none ∧
      (x, y) ∈ [(c, d), (d, c)] ∧ Mirrors s' (regs ++ [(k, x), (k, x)]) ∧
      s'.returned = s.returned ++ [(k, y), (k, x)] := by
  have halone : ∀ t' c', t' ≠ t → ¬s.Threatens t' k c' :=
    fun t' c' hne' ht' => hne' (h.unique t' t k c' c ht' ht)
  obtain ⟨version, old, hloaded, hroom⟩ | ⟨old, new, hwritten, hroom⟩ := ht
  · obtain ⟨hle, -, hold⟩ := h.loaded t k c version old hloaded
    obtain rfl := hold hroom
    obtain ⟨s', hrun, hmirrors', hreturned, hresult⟩ := exists_twice (x := c) (y := d) grow h hmirrors
      hnone hroom hne.symm hle fun t' c' _ hne' => halone t' c' hne'
    exact ⟨_, s', c, d, by simp [RaceEvent.Of],
      exec_append.mpr ⟨_, exec_overtaken_loaded grow hnone hne hu hloaded hroom, hrun⟩, hresult,
      by simp, hmirrors', hreturned⟩
  · obtain ⟨-, happended⟩ := (h.written t k c _ old new hwritten).2 rfl
    obtain rfl := happended.inPlace hroom
    obtain rfl := happended.slice
    obtain ⟨s', hrun, hmirrors', hreturned, hresult⟩ := exists_twice (x := d) (y := c) grow h hmirrors
      hnone hroom hne (Nat.le_refl _) fun t' c' hne' _ => halone t' c' hne'
    exact ⟨_, s', d, c, by simp [RaceEvent.Of],
      exec_append.mpr ⟨_, exec_overtaken_written grow hnone hne hu hwritten hroom, hrun⟩, hresult,
      by simp, hmirrors', hreturned⟩

/-- A step keeps the result. -/
theorem result_step {e : RaceEvent V E C τ} (hs : s.result = some r)
    (hstep : Shared.step grow s e = some s') : s'.result = some r := by
  cases e with
  | call t k c =>
    simp only [Shared.step, Shared.call] at hstep
    split at hstep <;> cases hstep
    exact hs
  | load t =>
    simp only [Shared.step, Shared.load] at hstep
    split at hstep <;> cases hstep <;> exact hs
  | write t =>
    simp only [Shared.step, Shared.write] at hstep
    split at hstep <;> cases hstep
    exact (append_fields ..).2.2.1.trans hs
  | swap t =>
    simp only [Shared.step, Shared.swap] at hstep
    split at hstep
    · split at hstep <;> cases hstep <;> exact hs
    · cases hstep
  | settle r' =>
    cases hstep
    simp only [Shared.setResult, hs]
  | notify =>
    cases hstep
    simp only [Shared.notify]
    split <;> exact hs

/-- A result does not change. -/
theorem result_run {es : List (RaceEvent V E C τ)} (hsome : s.result = some r)
    (hrun : exec (Shared.step grow) s es = some s') : s'.result = some r :=
  exec_invariant result_step hsome hrun

/-- The end of a Future that looks like one with other registrations than it has. -/
theorem ran_not_perm (grow : Nat → Nat) (hmirrors : Mirrors s (regs ++ [(k, x), (k, x)]))
    (hnone : s.result = none) (hreturned : s.returned = regs ++ [(k, y), (k, x)]) (hne : x ≠ y)
    (hr : k.runsOn r = true) : ∃ n s',
      exec (Shared.step grow) s (.settle r :: List.replicate n .notify) = some s' ∧ s'.queue = [] ∧
      s'.returned = s.returned ∧ ¬s'.ran.Perm ((matching r s'.returned).map (·, r)) := by
  have hsome : (s.setResult r).1.result = some r := by simp only [Shared.setResult, hnone]
  have hkept : (s.setResult r).1.returned = s.returned := by
    simp only [Shared.setResult, hnone]
  obtain ⟨s', hrun, hqueue, hsome', hreturned', hmirrors'⟩ := exists_drained grow hsome
  refine ⟨_, s', exec_cons.mpr ⟨_, rfl, hrun⟩, hqueue, hreturned'.trans hkept, fun hperm => ?_⟩
  have hran := (hmirrors' _ (hmirrors.setResult r)).ran_perm hsome' hqueue
  have hmatch : ∀ a b : C, matching r (regs ++ [(k, a), (k, b)]) = matching r regs ++ [a, b] := by
    intro a b
    rw [matching, ofKind_append]
    simp [ofKind, hr, matching]
  rw [hreturned', hkept, hreturned] at hperm
  have hboth := (hperm.symm.trans hran).map Prod.fst
  simp only [List.map_map, Function.comp_def, List.map_id'] at hboth
  rw [hmatch, hmatch, List.perm_append_left_iff] at hboth
  have hy : y ∈ [x, x] := hboth.subset List.mem_cons_self
  exact hne (by simpa [eq_comm] using hy)

/-- A Future settles once: the first settling call succeeds and gives the result, which does not
change, and every later one fails.  Before a race no callback has run while there is no result,
and once the goroutine of `setResult` is at its end, which it reaches, the callbacks that have run
are those of the kinds that match the result, each as often as it was registered.  At a race of two
registrations the two can go on such that this does not hold of the settled Future. -/
theorem future_notifies_once_unless_raced (grow : Nat → Nat) (es : List (RaceEvent V E C τ))
    (s : Shared V E C τ) (hrun : exec (Shared.step grow) Shared.start es = some s) :
    (∀ r, (s.result = none → (s.setResult r).2 = true ∧ (s.setResult r).1.result = some r) ∧
      (s.result ≠ none → s.setResult r = (s, false))) ∧
    (∀ r es' s', s.result = some r → exec (Shared.step grow) s es' = some s' →
      s'.result = some r) ∧
    (∀ r, s.result = some r → ∃ s', exec (Shared.step grow) s
      (List.replicate s.queue.length .notify) = some s' ∧ s'.queue = []) ∧
    (Never (Shared.step grow) Shared.Races Shared.start es →
      (s.result = none → s.ran = []) ∧
      (∀ r, s.result = some r → s.queue = [] →
        s.ran.Perm ((matching r s.returned).map (·, r))) ∧
      ∀ k t u c d r, s.result = none → s.callers u = .loop k d → t ≠ u → s.Threatens t k c →
        c ≠ d → k.runsOn r = true → ∃ turns n s', (∀ e ∈ turns, e.Of t u) ∧
          exec (Shared.step grow) s (turns ++ .settle r :: List.replicate n .notify) = some s' ∧
          s'.queue = [] ∧ s'.returned.Perm (s.returned ++ [(k, c), (k, d)]) ∧
          ¬s'.ran.Perm ((matching r s'.returned).map (·, r))) := by
  refine ⟨fun r => ⟨fun hnone => ?_, fun hsome => ?_⟩, fun r es' s' => result_run,
    fun r hsome => ?_, fun hnever => ?_⟩
  · simp only [Shared.setResult, hnone, and_self]
  · obtain ⟨r', hr'⟩ := Option.ne_none_iff_exists'.mp hsome
    simp only [Shared.setResult, hr']
  · obtain ⟨s', hrun', hqueue, -⟩ := exists_drained grow hsome
    exact ⟨s', hrun', hqueue⟩
  · obtain ⟨h, news, hnews, hmirrors⟩ := unraced_start.run mirrors_start hnever hrun
    obtain rfl : s.returned = news := hnews
    refine ⟨hmirrors.ran_nil, fun r => hmirrors.ran_perm, ?_⟩
    intro k t u c d r hnone hu hne hthreat hcd hr
    obtain ⟨turns, s₁, x, y, hturns, hrun₁, hnone₁, hxy, hmirrors₁, hreturned₁⟩ :=
      exists_lost grow h hmirrors hnone hu hne hthreat
    have hxy' : x ≠ y ∧ [(k, y), (k, x)].Perm [(k, c), (k, d)] := by
      simp only [List.mem_cons, List.not_mem_nil, or_false, Prod.mk.injEq] at hxy
      obtain ⟨rfl, rfl⟩ | ⟨rfl, rfl⟩ := hxy
      · exact ⟨hcd, .swap ..⟩
      · exact ⟨hcd.symm, .refl _⟩
    obtain ⟨n, s', hrun', hqueue, hreturned', hperm⟩ :=
      ran_not_perm grow hmirrors₁ hnone₁ hreturned₁ hxy'.1 hr
    refine ⟨turns, n, s', hturns, exec_append.mpr ⟨s₁, hrun₁, hrun'⟩, hqueue, ?_, hperm⟩
    rw [hreturned', hreturned₁]
    exact hxy'.2.append_left _

end

/-- Two registrations that load one after the other and swap one after the other.  The second
callback runs twice, the first one does not run. -/
theorem second_callback_runs_twice :
    (exec (Shared.step (2 * ·)) Shared.start [.call false .done 'A', .call true .done 'B',
      .load false, .load true, .write false, .write true, .swap false, .swap true, .load true,
      .write true, .swap true, .settle (.success 7), .notify, .notify, .notify] :
        Option (Shared Nat Unit Char Bool)).map
        (fun s => (s.returned, s.ran, s.queue)) =
      some ([(.done, 'A'), (.done, 'B')], [('B', .success 7), ('B', .success 7)], []) := rfl

/-- The same registrations, the second of which loads when the first has returned. -/
def oneByOne : List (RaceEvent Nat Unit Char Bool) :=
  [.call false .done 'A', .call true .done 'B', .load false, .write false, .swap false, .load true,
    .write true, .swap true, .settle (.success 7), .settle .cancelled, .notify, .notify]

theorem oneByOne_notifies : ∃ s, exec (Shared.step (2 * ·)) Shared.start oneByOne = some s ∧
    s.ran = [('A', .success 7), ('B', .success 7)] ∧
    s.ran.Perm ((matching (.success 7 : Result Nat Unit) s.returned).map (·, .success 7)) := by
  refine ⟨_, rfl, rfl, ((future_notifies_once_unless_raced (2 * ·) oneByOne _ rfl).2.2.2 ?_).2.1 _
    rfl rfl⟩
  iterate 12 refine never_cons.mpr fun m hm => ?_; cases hm; refine ⟨?_, ?_⟩; rotate_left
  · exact never_nil
  -- Both loads find the other caller outside of its attempt.
  all_goals first
    | exact id
    | exact not_races_of_calm (fun t => by cases t <;> trivial) _

end Gofusion.Routine
