import Gofusion.Lib.Runs
import Mathlib.Algebra.Order.BigOperators.Group.List
import Mathlib.Algebra.Order.Ring.Nat
import Mathlib.Tactic.Common

/-!
# Goroutine slots

`allocate` and `release` of `routine/pool.go`, under `Go`, `Goc`, `Loop` and `Loopc` of
`routine/candy.go` and `NewPool`, `Release` and `ReleaseTimeout` of `routine/pool.go`.

An app counts its idle slots, and the slots of loops in a second counter, `ignored`.  Any number
of calls are under way.  Each is at a point of its code, and a move takes one of them one
atomic operation further.

What a task does is left out, and so are the calls of `release` before the app is constructed
and behind its shutdown, which return at once, and the shutdown.

A finished loop, a second release of one pool and a pool that ants does not accept each change
the counter without a task or a pool to account for it (`unaccounted`).
-/

namespace Gofusion.Routine.Slots

open Gofusion.Lib

/-! ## Calls -/

/-- The calls that take slots: `Go` and `Goc`, `Loop` and `Loopc`, and `NewPool` with its
`ApplyTimeout`. -/
inductive Kind
  | task
  | loop
  | pool (name : String) (size : Nat) (pos : 0 < size) (applyTimeout : Int)
deriving DecidableEq, Repr

def Kind.demands : Kind → Int
  | .task | .loop => 1
  | .pool _ size _ _ => size

def Kind.applyTimeout : Kind → Int
  | .task | .loop => -1
  | .pool _ _ _ t => t

inductive Point
  | called
  /-- `validate` found no pool of the name. -/
  | validated
  /-- In the loop of `allocate`. -/
  | waiting
  /-- In the loop, behind the load. -/
  | loaded (minuend : Int)
  /-- A loop behind the swap, `ignored` is still to be counted up. -/
  | swapped
  /-- A pool behind `allocate`, ants still has to make it. -/
  | applied
  /-- The task or the loop runs, or the pool is open. -/
  | running
  /-- A loop whose `release` has added the slot and still has to take it away. -/
  | credited
  | released
  /-- The task is finished, or the call has panicked. -/
  | over
deriving DecidableEq, Repr

structure Call where
  kind : Kind
  point : Point
deriving DecidableEq, Repr

/-- Inside `allocate`, with the read lock. -/
def Call.reads (c : Call) : Bool :=
  match c.point with
  | .waiting | .loaded _ | .swapped => true
  | _ => false

/-- Where the swap of `allocate` takes a call. -/
def Kind.behindSwap : Kind → Point
  | .task => .running
  | .loop => .swapped
  | .pool .. => .applied

/-- `idles`, `ignored` and the names in `pools`, all of one app. -/
structure Counters where
  idle : Int
  ignored : Int
  pools : List String
deriving DecidableEq, Repr

/-- The atomic operations of a call. -/
inductive Move
  | validate
  | enter
  | expire
  | load
  | swap
  | ignore
  | create (accepted : Bool)
  | release
  | subtract
deriving DecidableEq, Repr

/-- The check of `allocate` that panics with `ErrPoolOverload`. -/
def enter (m : Counters) (k : Kind) : Point :=
  if m.idle - k.demands < 0 ∧ k.applyTimeout = 0 then .over else .waiting

/-- `CompareAndSwap` of `allocate`, behind the check of the difference. -/
def swap (m : Counters) (k : Kind) (minuend : Int) : Counters × Point :=
  let diff := minuend - k.demands
  -- the main thread is a goroutine as well, so one slot stays
  if diff ≤ 0 ∨ m.idle ≠ minuend then (m, .waiting)
  else ({ m with idle := diff }, k.behindSwap)

/-- One operation of a call.  `readers` says that some call holds the read lock, which keeps
`addPool` and the `release` of a pool waiting. -/
def next (m : Counters) (readers : Bool) (c : Call) (mv : Move) : Option (Counters × Point) :=
  match mv, c.point, c.kind with
  | .validate, .called, .pool name _ _ _ =>
    some (m, if name ∈ m.pools then .over else .validated)
  | .enter, .called, .task => some (m, enter m .task)
  | .enter, .called, .loop => some (m, enter m .loop)
  | .enter, .validated, k => some (m, enter m k)
  -- a negative timeout is replaced by the largest one
  | .expire, .waiting, k => if k.applyTimeout < 0 then none else some (m, .over)
  | .load, .waiting, _ => some (m, .loaded m.idle)
  | .swap, .loaded minuend, k => some (swap m k minuend)
  | .ignore, .swapped, .loop => some ({ m with ignored := m.ignored + 1 }, .running)
  | .create false, .applied, .pool .. => some (m, .over)
  | .create true, .applied, .pool name _ _ _ =>
    if readers then none else some ({ m with pools := name :: m.pools }, .running)
  | .release, .running, .task => some ({ m with idle := m.idle + 1 }, .over)
  | .release, .running, .loop => some ({ m with idle := m.idle + 1 }, .credited)
  | .subtract, .credited, .loop => some ({ m with idle := m.idle - 1 }, .over)
  | .release, .running, .pool name size _ _ | .release, .released, .pool name size _ _ =>
    if readers then none
    else some ({ m with idle := m.idle + size, pools := m.pools.filter (· ≠ name) }, .released)
  | _, _, _ => none

/-! ## The app -/

structure App where
  counters : Counters
  calls : List Call
deriving DecidableEq, Repr

inductive Event
  | call (k : Kind)
  | move (i : Nat) (mv : Move)
deriving DecidableEq, Repr

def App.step (s : App) : Event → Option App
  | .call k => some { s with calls := s.calls ++ [⟨k, .called⟩] }
  | .move i mv =>
    s.calls[i]?.bind fun c =>
      (next s.counters (s.calls.any Call.reads) c mv).map fun r =>
        ⟨r.1, s.calls.set i { c with point := r.2 }⟩

def defaultMaxPoolSize : Nat := 10000000

/-- `MaxRoutineAmount` behind `Construct`. -/
def limit (maxRoutineAmount : Int) : Nat :=
  if maxRoutineAmount ≤ 0 then defaultMaxPoolSize else maxRoutineAmount.toNat

def construct (maxRoutineAmount : Int) : App where
  counters := ⟨limit maxRoutineAmount, 0, []⟩
  calls := []

/-! ## Conservation -/

/-- A task or a loop runs from the swap that took its slot until its `release` has returned. -/
def Call.running (c : Call) : Nat :=
  match c.kind, c.point with
  | .pool .., _ => 0
  | _, .swapped | _, .running | _, .credited => 1
  | _, _ => 0

/-- The capacity of a pool that is not released, from the swap that took it. -/
def Call.capacity (c : Call) : Nat :=
  match c.kind, c.point with
  | .pool _ size _ _, .applied | .pool _ size _ _, .running => size
  | _, _ => 0

def App.running (s : App) : Nat := (s.calls.map Call.running).sum

def App.capacity (s : App) : Nat := (s.calls.map Call.capacity).sum

structure App.Conserved (max : Nat) (s : App) : Prop where
  idle : s.counters.idle = max - s.running - s.capacity
  idle_le : s.counters.idle ≤ max
  idle_nonneg : 0 ≤ s.counters.idle
  finished : s.running = 0 → s.capacity = 0 → s.counters.idle = max ∧ s.counters.ignored = 0

/-- The operations with an effect on the idle counter that no task and no pool accounts for. -/
def Call.unaccounted (c : Call) : Move → Bool
  | .release => c = ⟨.loop, .running⟩ ∨ c.point = .released
  | .create accepted => !accepted
  | _ => false

/-- A loop finishes, a pool is released again, or ants does not accept a pool. -/
def App.unaccounted (s : App) : Event → Bool
  | .call _ => false
  | .move i mv => s.calls[i]?.any (·.unaccounted mv)

/-! ## One operation -/

/-- The part of `ignored` that stands for a call. -/
def Call.marked (c : Call) : Nat :=
  match c.kind, c.point with
  | .loop, .running | .loop, .credited => 1
  | _, _ => 0

theorem Call.marked_le_running (c : Call) : c.marked ≤ c.running := by
  fun_cases marked c <;> simp_all [running]

section

variable {m m' : Counters} {readers : Bool} {c : Call} {mv : Move} {p : Point}

theorem swap_cases (k : Kind) (minuend : Int) :
    swap m k minuend = (m, .waiting) ∨
      m.idle = minuend ∧ 0 < m.idle - k.demands ∧
        swap m k minuend = ({ m with idle := m.idle - k.demands }, k.behindSwap) := by
  by_cases h : minuend - k.demands ≤ 0 ∨ m.idle ≠ minuend
  · exact .inl (if_pos h)
  · obtain ⟨hdiff, rfl⟩ : ¬m.idle - k.demands ≤ 0 ∧ m.idle = minuend := by
      simp only [not_or, not_not] at h
      exact ⟨h.2 ▸ h.1, h.2⟩
    exact .inr ⟨rfl, by omega, if_neg h⟩

/-- The points at which a call holds no slot. -/
def Point.holdsNone : Point → Bool
  | .called | .validated | .waiting | .loaded _ | .over => true
  | _ => false

/-- What an operation of a call can do. -/
inductive Next (m : Counters) : Call → Move → Counters → Point → Prop
  | none {c : Call} {mv : Move} {p : Point} : c.point.holdsNone → p.holdsNone →
    c.unaccounted mv = false → Next m c mv m p
  | swap {k} : 0 < m.idle - k.demands →
    Next m ⟨k, .loaded m.idle⟩ .swap { m with idle := m.idle - k.demands } k.behindSwap
  | ignore : Next m ⟨.loop, .swapped⟩ .ignore { m with ignored := m.ignored + 1 } .running
  | create {name size pos t} :
    Next m ⟨.pool name size pos t, .applied⟩ (.create true)
      { m with pools := name :: m.pools } .running
  | refuse {name size pos t} :
    Next m ⟨.pool name size pos t, .applied⟩ (.create false) m .over
  | finishTask : Next m ⟨.task, .running⟩ .release { m with idle := m.idle + 1 } .over
  | finishLoop : Next m ⟨.loop, .running⟩ .release { m with idle := m.idle + 1 } .credited
  | subtract : Next m ⟨.loop, .credited⟩ .subtract { m with idle := m.idle - 1 } .over
  | release {name size pos t q} : q = .running ∨ q = .released →
    Next m ⟨.pool name size pos t, q⟩ .release
      { m with idle := m.idle + size, pools := m.pools.filter (· ≠ name) } .released

theorem enter_holdsNone (k : Kind) : (enter m k).holdsNone := by
  unfold enter
  split <;> rfl

/-- An operation does one of the things that `Next` lists. -/
theorem next_cases (h : next m readers c mv = some (m', p)) : Next m c mv m' p := by
  obtain ⟨k, q⟩ := c
  unfold next at h
  split at h
  case h_1 hq hk =>
    cases hq
    cases hk
    cases h
    refine .none rfl ?_ rfl
    split <;> rfl
  case h_2 hq hk | h_3 hq hk =>
    cases hq
    cases hk
    cases h
    exact .none rfl (enter_holdsNone _) rfl
  case h_4 hq =>
    cases hq
    cases h
    exact .none rfl (enter_holdsNone _) rfl
  case h_5 hq =>
    cases hq
    split at h
    · cases h
    · cases h
      exact .none rfl rfl rfl
  case h_6 hq =>
    cases hq
    cases h
    exact .none rfl rfl rfl
  case h_7 minuend hq =>
    cases hq
    rcases swap_cases (m := m) k minuend with hs | ⟨rfl, hpos, hs⟩
    · cases hs.symm.trans (Option.some.inj h)
      exact .none rfl rfl rfl
    · cases hs.symm.trans (Option.some.inj h)
      exact .swap hpos
  case h_8 hq hk =>
    cases hq
    cases hk
    cases h
    exact .ignore
  case h_9 hq hk =>
    cases hq
    cases hk
    cases h
    exact .refuse
  case h_10 hq hk =>
    cases hq
    cases hk
    split at h
    · cases h
    · cases h
      exact .create
  case h_11 hq hk =>
    cases hq
    cases hk
    cases h
    exact .finishTask
  case h_12 hq hk =>
    cases hq
    cases hk
    cases h
    exact .finishLoop
  case h_13 hq hk =>
    cases hq
    cases hk
    cases h
    exact .subtract
  case h_14 hq hk | h_15 hq hk =>
    cases hq
    cases hk
    split at h
    · cases h
    · cases h
      exact .release (by simp)
  case h_16 => cases h

theorem Call.counts_of_holdsNone (h : c.point.holdsNone) :
    c.running = 0 ∧ c.capacity = 0 ∧ c.marked = 0 ∧ c.point ≠ .credited := by
  obtain ⟨k, q⟩ := c
  cases k <;> cases q <;>
    simp_all [Point.holdsNone, running, capacity, marked]

/-- What the operations do that tasks and pools account for. -/
structure Accounted (m : Counters) (c : Call) (m' : Counters) (c' : Call) : Prop where
  idle : m'.idle + c'.running + c'.capacity = m.idle + c.running + c.capacity
  nonneg : 0 ≤ m.idle → 0 ≤ m'.idle
  ignored : m'.ignored + c.marked = m.ignored + c'.marked
  whole : c'.point ≠ .credited

theorem Next.accounted (h : Next m c mv m' p) (hmv : c.unaccounted mv = false)
    (hc : c.point ≠ .credited) : Accounted m c m' { c with point := p } := by
  cases h with
  | none hq hp _ =>
    obtain ⟨hr, hcap, hm, -⟩ := Call.counts_of_holdsNone hq
    obtain ⟨hr', hcap', hm', hw⟩ := Call.counts_of_holdsNone (c := { c with point := p }) hp
    exact ⟨by rw [hr, hcap, hr', hcap'], id, by rw [hm, hm'], hw⟩
  | @swap k hpos =>
    refine ⟨?_, fun _ => Int.le_of_lt hpos, ?_, ?_⟩ <;>
      cases k <;> simp [Call.running, Call.capacity, Call.marked, Kind.demands, Kind.behindSwap]
  | ignore => exact ⟨rfl, id, by simp [Call.marked], nofun⟩
  | create => exact ⟨rfl, id, rfl, nofun⟩
  | refuse => cases hmv
  | finishTask =>
    exact ⟨by simp [Call.running, Call.capacity], fun h => by simp; omega, rfl, nofun⟩
  | finishLoop => simp [Call.unaccounted] at hmv
  | subtract => exact absurd rfl hc
  | release hq =>
    rcases hq with rfl | rfl
    · exact ⟨by simp [Call.running, Call.capacity], fun h => by simp; omega, rfl, nofun⟩
    · simp [Call.unaccounted] at hmv

/-- An operation that is not accounted for moves the idle counter away from the tasks and the
pools. -/
theorem Next.unaccounted (h : Next m c mv m' p) (hmv : c.unaccounted mv = true) :
    m'.idle + ({ c with point := p } : Call).running + ({ c with point := p } : Call).capacity ≠
      m.idle + c.running + c.capacity := by
  cases h with
  | none _ _ hno => exact absurd (hno.symm.trans hmv) nofun
  | swap | ignore | create | subtract => cases hmv
  | @refuse name size pos t | finishLoop =>
    simp only [Call.running, Call.capacity]
    omega
  | finishTask => simp [Call.unaccounted] at hmv
  | @release name size pos t q hq =>
    rcases hq with rfl | rfl
    · simp [Call.unaccounted] at hmv
    · simp only [Call.running, Call.capacity]
      omega

end

/-! ## Runs -/

theorem sum_map_set {f : Call → Nat} {c c' : Call} : ∀ {cs : List Call} {i : Nat},
    cs[i]? = some c → ((cs.set i c').map f).sum + f c = (cs.map f).sum + f c' := by
  intro cs
  induction cs with
  | nil => simp
  | cons d cs ih =>
    intro i h
    cases i with
    | zero =>
      cases Option.some.inj h
      simp only [List.set_cons_zero, List.map_cons, List.sum_cons]
      omega
    | succ i =>
      have rest := ih (i := i) h
      simp only [List.set_cons_succ, List.map_cons, List.sum_cons]
      omega

section

variable {max : Nat} {s s' : App} {e : Event}

/-- A move takes one call one operation further. -/
theorem step_move (h : s.step (.move i mv) = some s') :
    ∃ c m' p, s.calls[i]? = some c ∧ Next s.counters c mv m' p ∧
      s' = ⟨m', s.calls.set i { c with point := p }⟩ := by
  obtain ⟨c, hc, h⟩ := Option.bind_eq_some_iff.mp h
  obtain ⟨⟨m', p⟩, hnext, rfl⟩ := Option.map_eq_some_iff.mp h
  exact ⟨c, m', p, hc, next_cases hnext, rfl⟩

def App.marked (s : App) : Nat := (s.calls.map Call.marked).sum

theorem App.marked_le_running (s : App) : s.marked ≤ s.running :=
  List.sum_le_sum fun c _ => c.marked_le_running

/-- The slots are accounted for, and no loop is between the two operations of its `release`. -/
structure App.Balanced (max : Nat) (s : App) : Prop where
  idle : s.counters.idle + s.running + s.capacity = max
  nonneg : 0 ≤ s.counters.idle
  ignored : s.counters.ignored = s.marked
  whole : ∀ c ∈ s.calls, c.point ≠ .credited

theorem construct_balanced (n : Int) : (construct n).Balanced (limit n) where
  idle := by simp [construct, App.running, App.capacity]
  nonneg := by simp [construct]
  ignored := rfl
  whole := nofun

/-- A balanced app conserves its slots. -/
theorem App.Balanced.conserved (h : s.Balanced max) : s.Conserved max := by
  have hidle := h.idle
  refine ⟨by omega, by omega, h.nonneg, fun hr hc => ⟨by omega, ?_⟩⟩
  have hm := s.marked_le_running
  rw [h.ignored]
  omega

/-- A call that is not behind its swap counts for nothing. -/
theorem App.Balanced.call (h : s.Balanced max) (k : Kind) :
    App.Balanced max { s with calls := s.calls ++ [⟨k, .called⟩] } := by
  obtain ⟨hr, hcap, hm, hw⟩ := Call.counts_of_holdsNone (c := ⟨k, .called⟩) rfl
  refine ⟨?_, h.nonneg, ?_, ?_⟩
  · simpa [App.running, App.capacity, hr, hcap] using h.idle
  · simpa [App.marked, hm] using h.ignored
  · intro c hc
    rcases List.mem_append.mp hc with hc | hc
    · exact h.whole c hc
    · exact List.mem_singleton.mp hc ▸ hw

/-- Every accounted move keeps the balance. -/
theorem App.Balanced.step (h : s.Balanced max) (he : s.unaccounted e = false)
    (hs : s.step e = some s') : s'.Balanced max := by
  cases e with
  | call k =>
    cases hs
    exact h.call k
  | move i mv =>
    obtain ⟨c, m', p, hc, hnext, rfl⟩ := step_move hs
    have hacc : Accounted s.counters c m' { c with point := p } := by
      refine hnext.accounted ?_ (h.whole c (List.mem_of_getElem? hc))
      simpa [App.unaccounted, hc] using he
    have hrun := @sum_map_set Call.running c { c with point := p } _ _ hc
    have hcap := @sum_map_set Call.capacity c { c with point := p } _ _ hc
    have hmark := @sum_map_set Call.marked c { c with point := p } _ _ hc
    have hidle := h.idle
    have hign := h.ignored
    have hacc₁ := hacc.idle
    have hacc₂ := hacc.ignored
    refine ⟨?_, hacc.nonneg h.nonneg, ?_, ?_⟩
    · simp only [App.running, App.capacity] at hidle ⊢
      omega
    · simp only [App.marked] at hign ⊢
      omega
    · intro d hd
      rcases List.mem_or_eq_of_mem_set hd with hd | rfl
      · exact h.whole d hd
      · exact hacc.whole

/-- An unaccounted move breaks that. -/
theorem App.Balanced.not_conserved (h : s.Balanced max) (he : s.unaccounted e = true)
    (hs : s.step e = some s') : ¬s'.Conserved max := by
  cases e with
  | call k => cases he
  | move i mv =>
    obtain ⟨c, m', p, hc, hnext, rfl⟩ := step_move hs
    have hne := hnext.unaccounted (by simpa [App.unaccounted, hc] using he)
    have hrun := @sum_map_set Call.running c { c with point := p } _ _ hc
    have hcap := @sum_map_set Call.capacity c { c with point := p } _ _ hc
    have hidle := h.idle
    intro hcons
    have hcons := hcons.idle
    simp only [App.running, App.capacity] at hidle hcons
    omega

end

/-- The slots are conserved all along a run exactly if no loop finishes in it, no pool is released
twice and ants accepts every pool. -/
theorem slots_conserved_iff (maxRoutineAmount : Int) (es : List Event) :
    Always App.step (App.Conserved (limit maxRoutineAmount)) (construct maxRoutineAmount) es ↔
      Never App.step (fun s e => s.unaccounted e) (construct maxRoutineAmount) es := by
  refine always_iff_never App.Balanced.conserved (fun h hno hs => ?_) (fun h hyes hs => ?_) es
    (construct_balanced maxRoutineAmount)
  · exact h.step (Bool.eq_false_iff.mpr hno) hs
  · exact h.not_conserved hyes hs

/-- A loop that starts and finishes: nothing runs, but its slot is gone and `ignored` is one.  A
pool that is released twice: the counter is above the limit. -/
theorem loop_and_second_release_not_conserved :
    (∃ s, exec App.step (construct 2) [.call .loop, .move 0 .enter, .move 0 .load, .move 0 .swap,
        .move 0 .ignore, .move 0 .release, .move 0 .subtract] = some s ∧
      s.running = 0 ∧ s.capacity = 0 ∧ s.counters.idle = 1 ∧ s.counters.ignored = 1) ∧
    (∃ s, exec App.step (construct 2) [.call (.pool "p" 1 (by decide) 0), .move 0 .validate,
        .move 0 .enter, .move 0 .load, .move 0 .swap, .move 0 (.create true), .move 0 .release,
        .move 0 .release] = some s ∧
      s.running = 0 ∧ s.capacity = 0 ∧ s.counters.idle = 3) :=
  ⟨⟨_, rfl, rfl, rfl, rfl, rfl⟩, ⟨_, rfl, rfl, rfl, rfl⟩⟩

end Gofusion.Routine.Slots
