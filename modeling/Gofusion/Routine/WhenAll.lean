import Gofusion.Routine.Inputs

/-!
# WhenAll

`whenAllFuture` of `routine/candy.go`, with every atomic step of its callbacks.

A success callback writes its slot, counts down, and resolves the combined Future if it comes
to zero.  The first failure or cancel callback to swap `isCancelled` cancels the other inputs
and settles the combined Future.  `claims` records these swaps, the failed ones too.

The counter is `int32` in the code, a list has fewer inputs than it holds.
-/

namespace Gofusion.Routine

open Gofusion.Lib

variable {ι V E : Type} {n : Nat}

/-- `AggregateError`, without the stack behind its text. -/
structure AggregateError (E : Type) where
  s : String
  innerErrs : List E
deriving DecidableEq, Repr

def newAggregateError1 (s : String) (e : E) : AggregateError E := ⟨s, [e]⟩

/-- Where a callback of `whenAllFuture` is. -/
inductive AllStep (V E : Type) (n : Nat)
  /-- Before `rs[j] = v`. -/
  | write (v : V)
  /-- Before the counter is decremented. -/
  | count
  /-- Before `wf.Resolve`. -/
  | resolve
  /-- The success callback has returned. -/
  | counted
  /-- Before the compare-and-swap of `isCancelled`. -/
  | claim (r : Result V E)
  /-- In `cancelOthers`, before these inputs. -/
  | cancelOthers (r : Result V E) (ks : List (Fin n))
  /-- Before `wf.Reject` or `wf.Cancel`. -/
  | finish (r : Result V E)
  /-- The failure or cancel callback has returned. -/
  | returned

/-- The callbacks that `whenAllFuture` registers. -/
def allCallbacks : Callbacks V E (AllStep V E n) n where
  handler _ r :=
    match r with
    | .success v => .write v
    | r => .claim r
  returned p :=
    match p with
    | .counted | .returned => true
    | _ => false

abbrev AllResult (V E : Type) (n : Nat) := Result (Fin n → Option V) (AggregateError E)

structure WhenAll (ι V E : Type) (n : Nat) where
  inputs : Inputs ι V E (AllStep V E n) n
  rs : Fin n → Option V
  left : Int
  isCancelled : Bool
  wf : Option (AllResult V E n)
  /-- The callbacks that tried to swap `isCancelled`, in order. -/
  claims : List (Fin n × Result V E)

/-- How the combined Future is settled for a failed or cancelled input. -/
def allOutcome : Result V E → AllResult V E n
  | .failure e => .failure (newAggregateError1 "error appears in WhenAll:" e)
  | _ => .cancelled

inductive AllEvent (ι V E : Type) (n : Nat)
  /-- `Resolve`, `Reject` or `Cancel` on an input by someone else. -/
  | settle (i : ι) (r : Result V E)
  | register
  | notify (i : ι)
  /-- The next step of the callback of an input. -/
  | run (j : Fin n)
deriving DecidableEq, Repr

def Result.Fails (r : Result V E) : Prop := ∀ v, r ≠ .success v

/-- Any event that is no settling of an input from outside. -/
def AllEvent.internal : AllEvent ι V E n → Bool
  | .settle _ _ => false
  | _ => true

/-- An input whose success callback has not counted down. -/
def uncounted : Option (Thread ι × AllStep V E n) → Nat
  | some (_, .resolve) | some (_, .counted) => 0
  | _ => 1

/-- A bound on the steps that a callback still takes. -/
def allWeight : Option (Thread ι × AllStep V E n) → Nat
  | none => n + 4
  | some (_, .write _) => 3
  | some (_, .count) => 2
  | some (_, .resolve) => 1
  | some (_, .counted) => 0
  | some (_, .claim _) => n + 3
  | some (_, .cancelOthers _ ks) => ks.length + 2
  | some (_, .finish _) => 1
  | some (_, .returned) => 0

namespace WhenAll

/-- The state in which `whenAllFuture` starts the registrar. -/
def start (results : ι → Option (Result V E)) : WhenAll ι V E n where
  inputs := .start results
  rs _ := none
  left := n
  isCancelled := false
  wf := if n = 0 then some (.success fun _ => none) else none
  claims := []

variable {s s' : WhenAll ι V E n} {x : Inputs ι V E (AllStep V E n) n} {r : Result V E}
  {e : AllEvent ι V E n} {o : AllResult V E n} {p p' q : AllStep V E n}
  {running : Fin n → Option (Thread ι × AllStep V E n)} {j j' k : Fin n} {t t' : Thread ι}
  (fs : Fin n → ι)

def input (s : WhenAll ι V E n) (j : Fin n) : Option (Result V E) := s.inputs.result (fs j)

/-- What holds where the callback of input `j` is. -/
def At (s : WhenAll ι V E n) (j : Fin n) : AllStep V E n → Prop
  | .write v => s.input fs j = some (.success v)
  | .count | .resolve | .counted => ∃ v, s.input fs j = some (.success v) ∧ s.rs j = some v
  | .claim r => s.input fs j = some r ∧ r.Fails
  | .cancelOthers r ks => s.input fs j = some r ∧ r.Fails ∧ s.claims.head? = some (j, r) ∧
    ∀ k, k ≠ j → k ∉ ks → s.input fs k ≠ none
  | .finish r => s.input fs j = some r ∧ r.Fails ∧ s.claims.head? = some (j, r) ∧
    ∀ k, s.input fs k ≠ none
  | .returned => (∃ r, s.input fs j = some r ∧ r.Fails) ∧ s.claims.head? ≠ none

/-- What the result of the combined Future says of the inputs. -/
def Outcome (s : WhenAll ι V E n) (o : AllResult V E n) : Prop :=
  (∃ rs, o = .success rs ∧ ∀ j, ∃ v, s.input fs j = some (.success v) ∧ rs j = some v) ∨
    ∃ j r, s.claims.head? = some (j, r) ∧ s.input fs j = some r ∧ r.Fails ∧ o = allOutcome r ∧
      ∀ k, s.input fs k ≠ none

variable {fs}

/-- What does not get lost from one state to the next. -/
structure Grows (fs : Fin n → ι) (s s' : WhenAll ι V E n) : Prop where
  input : ∀ j r, s.input fs j = some r → s'.input fs j = some r
  claims : ∀ x, s.claims.head? = some x → s'.claims.head? = some x

theorem Grows.input_ne (h : s.Grows fs s') (hj : s.input fs j ≠ none) :
    s'.input fs j ≠ none := by
  obtain ⟨r, hr⟩ := Option.ne_none_iff_exists'.mp hj
  rw [h.input j r hr]
  nofun

theorem Grows.head_ne (h : s.Grows fs s') (hs : s.claims.head? ≠ none) :
    s'.claims.head? ≠ none := by
  obtain ⟨x, hx⟩ := Option.ne_none_iff_exists'.mp hs
  rw [h.claims x hx]
  nofun

theorem Grows.at' (h : s.Grows fs s') (hrs : s'.rs j = s.rs j) (hp : s.At fs j p) :
    s'.At fs j p := by
  cases p with
  | write v => exact h.input j _ hp
  | count | resolve | counted =>
    obtain ⟨v, hv, hslot⟩ := hp
    exact ⟨v, h.input j _ hv, hrs.trans hslot⟩
  | claim r => exact ⟨h.input j r hp.1, hp.2⟩
  | cancelOthers r ks =>
    obtain ⟨hr, hfails, hhead, hothers⟩ := hp
    exact ⟨h.input j r hr, hfails, h.claims _ hhead,
      fun k hk hks => h.input_ne (hothers k hk hks)⟩
  | finish r =>
    obtain ⟨hr, hfails, hhead, hothers⟩ := hp
    exact ⟨h.input j r hr, hfails, h.claims _ hhead, fun k => h.input_ne (hothers k)⟩
  | returned =>
    obtain ⟨⟨r, hr, hfails⟩, hhead⟩ := hp
    exact ⟨⟨r, h.input j r hr, hfails⟩, h.head_ne hhead⟩

theorem Grows.outcome (h : s.Grows fs s') (ho : s.Outcome fs o) : s'.Outcome fs o := by
  rcases ho with ⟨rs, rfl, hall⟩ | ⟨j, r, hhead, hr, hfails, rfl, hall⟩
  · refine .inl ⟨rs, rfl, fun j => ?_⟩
    obtain ⟨v, hv, hslot⟩ := hall j
    exact ⟨v, h.input j _ hv, hslot⟩
  · exact .inr ⟨j, r, h.claims _ hhead, h.input j r hr, hfails, rfl, fun k => h.input_ne (hall k)⟩

theorem running_stays (hj : running j = some (t, p)) (hq : running j' = some (t', q)) (hne : q ≠ p) :
    Function.update running j (some (t, p')) j' = some (t', q) := by
  rw [Function.update_of_ne, hq]
  rintro rfl
  rw [hj] at hq
  cases hq
  exact hne rfl

theorem running_was (hq : Function.update running j (some (t, p')) j' = some (t', q)) (hne : q ≠ p') :
    running j' = some (t', q) := by
  rcases update_eq_some hq with ⟨-, heq⟩ | ⟨-, hq⟩
  · cases heq
    exact absurd rfl hne
  · exact hq

/-- A bound on the steps that all goroutines still take. -/
def measure (s : WhenAll ι V E n) : Nat :=
  s.inputs.toRegister.length + ∑ j, allWeight (s.inputs.running j)

theorem measure_starts (hx : s.inputs.Starts fs allCallbacks x) :
    1 + ({ s with inputs := x } : WhenAll ι V E n).measure ≤ s.measure := by
  refine hx.lighter allWeight fun j t r => ?_
  cases r with
  | success v =>
    show 3 < n + 4
    omega
  | failure e | cancelled => exact Nat.lt_succ_self _

theorem measure_start (results : ι → Option (Result V E)) :
    (start results : WhenAll ι V E n).measure = n * (n + 7) := by
  have hregs : (allRegistrations n).length = 3 * n := by
    simp [allRegistrations, List.length_flatMap, Nat.mul_comm]
  have hsum : ∑ j : Fin n, allWeight ((start results : WhenAll ι V E n).inputs.running j) =
      n * (n + 4) := by
    simp [start, Inputs.start, allWeight]
  rw [measure, hsum, show (start results : WhenAll ι V E n).inputs.toRegister =
    allRegistrations n from rfl, hregs, Nat.mul_add, Nat.mul_add]
  omega

variable [DecidableEq ι]

section

variable (fs)

/-- A step of the callback of input `j`, which goroutine `t` runs. -/
def run (s : WhenAll ι V E n) (j : Fin n) (t : Thread ι) :
    AllStep V E n → Option (WhenAll ι V E n)
  | .write v =>
    some { s with rs := Function.update s.rs j (some v), inputs := s.inputs.advance j t .count }
  | .count =>
    some { s with
      left := s.left - 1
      inputs := s.inputs.advance j t (if s.left - 1 = 0 then .resolve else .counted) }
  | .resolve =>
    some { s with wf := s.wf.or (some (.success s.rs)), inputs := s.inputs.advance j t .counted }
  | .claim r =>
    some { s with
      isCancelled := true
      claims := s.claims ++ [(j, r)]
      inputs := s.inputs.advance j t
        (if s.isCancelled then .returned
         else .cancelOthers r ((List.finRange n).filter (· ≠ j))) }
  | .cancelOthers r [] => some { s with inputs := s.inputs.advance j t (.finish r) }
  | .cancelOthers r (k :: ks) =>
    some { s with
      inputs := (s.inputs.settle (fs k) .cancelled).advance j t (.cancelOthers r ks) }
  | .finish r =>
    some { s with wf := s.wf.or (some (allOutcome r)), inputs := s.inputs.advance j t .returned }
  | .counted | .returned => none

def step (s : WhenAll ι V E n) : AllEvent ι V E n → Option (WhenAll ι V E n)
  | .settle i r => some { s with inputs := s.inputs.settle i r }
  | .register => (s.inputs.register fs allCallbacks).map fun x => { s with inputs := x }
  | .notify i => (s.inputs.notify allCallbacks i).map fun x => { s with inputs := x }
  | .run j => (s.inputs.running j).bind fun x => s.run fs j x.1 x.2

/-- No goroutine has anything left to do. -/
def Quiet (s : WhenAll ι V E n) : Prop :=
  s.inputs.register fs allCallbacks = none ∧ (∀ i, s.inputs.notify allCallbacks i = none) ∧
    ∀ j, s.step fs (.run j) = none

/-! ## The invariant -/

structure Inv (s : WhenAll ι V E n) : Prop where
  tracks : ∃ regs, Tracks fs s.inputs regs
  at' : ∀ j t p, s.inputs.running j = some (t, p) → s.At fs j p
  left : s.left = (∑ j, uncounted (s.inputs.running j) : Nat)
  flag : s.isCancelled = true ↔ s.claims.head? ≠ none
  outcome : ∀ o, s.wf = some o → s.Outcome fs o
  resolving : ∀ j t, s.inputs.running j = some (t, .resolve) → s.left = 0
  /-- Once the counter is zero somebody resolves the combined Future. -/
  zero : s.left = 0 → (∃ j t, s.inputs.running j = some (t, .resolve)) ∨ s.wf ≠ none
  /-- The winner settles the combined Future. -/
  winner : ∀ j r, s.claims.head? = some (j, r) →
    (∃ t ks, s.inputs.running j = some (t, .cancelOthers r ks)) ∨
      (∃ t, s.inputs.running j = some (t, .finish r)) ∨ s.wf ≠ none

/-- The invariant holds at the start. -/
theorem inv_start (results : ι → Option (Result V E)) :
    (start results : WhenAll ι V E n).Inv fs where
  tracks := ⟨[], tracks_start fs results⟩
  at' := nofun
  left := by simp [start, Inputs.start, uncounted]
  flag := by simp [start]
  outcome o ho := by
    by_cases hn : n = 0
    · subst hn
      simp only [start, if_true, Option.some.injEq] at ho
      exact .inl ⟨_, ho.symm, fun j => j.elim0⟩
    · simp [start, hn] at ho
  resolving := nofun
  zero hzero := by
    have hn : n = 0 := by simpa [start] using hzero
    exact .inr (by simp [start, hn])
  winner := nofun

end

section

variable (h : s.Inv fs)
include h

/-! ### Steps of the inputs -/

/-- A move of the inputs that starts no callback. -/
theorem Inv.same_running (htracks : ∃ regs, Tracks fs x regs)
    (hrunning : x.running = s.inputs.running)
    (hresult : ∀ i r, s.inputs.result i = some r → x.result i = some r) :
    ({ s with inputs := x } : WhenAll ι V E n).Inv fs := by
  have hgrows : s.Grows fs { s with inputs := x } := ⟨fun j r => hresult (fs j) r, fun _ => id⟩
  refine ⟨htracks, ?_, ?_, h.flag, fun o ho => hgrows.outcome (h.outcome o ho), ?_, ?_, ?_⟩
  · intro j t p hp
    exact hgrows.at' rfl (h.at' j t p (hrunning ▸ hp))
  · simpa only [hrunning] using h.left
  · simpa only [hrunning] using h.resolving
  · simpa only [hrunning] using h.zero
  · simpa only [hrunning] using h.winner

/-- A callback starts. -/
theorem Inv.started (htracks : ∃ regs, Tracks fs x regs)
    (hidle : s.inputs.running j = none) (hr : s.inputs.result (fs j) = some r)
    (hrunning : x.running = Function.update s.inputs.running j (some (t, allCallbacks.handler j r)))
    (hresult : x.result = s.inputs.result) : ({ s with inputs := x } : WhenAll ι V E n).Inv fs := by
  have hgrows : s.Grows fs { s with inputs := x } :=
    ⟨fun j r hj => (congrFun hresult (fs j)).trans hj, fun _ => id⟩
  have hinput : ({ s with inputs := x } : WhenAll ι V E n).input fs j = some r :=
    hgrows.input j r hr
  have hother : ∀ {j' : Fin n} {y}, s.inputs.running j' = some y → x.running j' = some y := by
    intro j' y hy
    rw [hrunning, Function.update_of_ne, hy]
    rintro rfl
    rw [hidle] at hy
    cases hy
  have hhandler : uncounted (some (t, (allCallbacks.handler j r : AllStep V E n))) = 1 := by
    cases r <;> rfl
  have hback : ∀ {j' : Fin n} {t' p'}, x.running j' = some (t', p') → p' = .resolve →
      s.inputs.running j' = some (t', p') := by
    intro j' t' p' hp' hresolve
    rw [hrunning] at hp'
    rcases update_eq_some hp' with ⟨-, heq⟩ | ⟨-, hp'⟩
    · cases heq
      cases r <;> cases hresolve
    · exact hp'
  refine ⟨htracks, ?_, ?_, h.flag, fun o ho => hgrows.outcome (h.outcome o ho), ?_, ?_, ?_⟩
  · intro j' t' p' hp'
    change x.running j' = some (t', p') at hp'
    rw [hrunning] at hp'
    rcases update_eq_some hp' with ⟨rfl, heq⟩ | ⟨-, hp'⟩
    · cases heq
      cases r with
      | success v => exact hinput
      | failure e | cancelled => exact ⟨hinput, nofun⟩
    · exact hgrows.at' rfl (h.at' j' t' p' hp')
  · have hsum := sum_update_running uncounted s.inputs.running j
      (some (t, allCallbacks.handler j r))
    rw [hidle, hhandler] at hsum
    have hleft := h.left
    simp only [hrunning]
    rw [hleft]
    exact congrArg Nat.cast (Nat.add_right_cancel hsum).symm
  · intro j' t' hp'
    exact h.resolving j' t' (hback hp' rfl)
  · intro hzero
    rcases h.zero hzero with ⟨j', t', hj'⟩ | hwf
    · exact .inl ⟨j', t', hother hj'⟩
    · exact .inr hwf
  · intro j' r' hhead
    rcases h.winner j' r' hhead with ⟨t', ks, hj'⟩ | ⟨t', hj'⟩ | hwf
    · exact .inl ⟨t', ks, hother hj'⟩
    · exact .inr (.inl ⟨t', hother hj'⟩)
    · exact .inr (.inr hwf)

theorem Inv.starts (hx : s.inputs.Starts fs allCallbacks x ∧ ∃ regs, Tracks fs x regs) :
    ({ s with inputs := x } : WhenAll ι V E n).Inv fs := by
  obtain ⟨⟨hresult, ⟨hrunning, -⟩ | ⟨j, t, r, hidle, hr, -, hrunning⟩⟩, htracks⟩ := hx
  · exact h.same_running htracks hrunning fun i r hi => (congrFun hresult i).trans hi
  · exact h.started htracks hidle hr hrunning hresult

/-! ### Steps of the callbacks -/

/-- The parts of the invariant that every step of a callback keeps in the same way. -/
theorem Inv.advance (hj : s.inputs.running j = some (t, p)) (hgrows : s.Grows fs s')
    (hrunning : s'.inputs.running = Function.update s.inputs.running j (some (t, p')))
    (htracks : ∃ regs, Tracks fs s'.inputs regs) (hrs : ∀ j', j' ≠ j → s'.rs j' = s.rs j')
    (hat : s'.At fs j p')
    (hleft : s'.left + uncounted (some (t, p)) = s.left + uncounted (some (t, p')))
    (hflag : s'.isCancelled = true ↔ s'.claims.head? ≠ none)
    (hwf : ∀ o, s'.wf = some o → s.wf = some o ∨ s'.Outcome fs o)
    (hresolving : .resolve ≠ p' ∧ s'.left = s.left ∨
      ∀ j' t', s'.inputs.running j' = some (t', .resolve) → s'.left = 0)
    (hzero : s'.left = 0 → (∃ j' t', s'.inputs.running j' = some (t', .resolve)) ∨ s'.wf ≠ none)
    (hwinner : ∀ j' r', s'.claims.head? = some (j', r') →
      (∃ t' ks, s'.inputs.running j' = some (t', .cancelOthers r' ks)) ∨
        (∃ t', s'.inputs.running j' = some (t', .finish r')) ∨ s'.wf ≠ none) :
    s'.Inv fs where
  tracks := htracks
  at' j' t' p₁ hp₁ := by
    rw [hrunning] at hp₁
    rcases update_eq_some hp₁ with ⟨rfl, heq⟩ | ⟨hj', hp₁⟩
    · cases heq
      exact hat
    · exact hgrows.at' (hrs j' hj') (h.at' j' t' p₁ hp₁)
  left := by
    have hsum := sum_update_running uncounted s.inputs.running j (some (t, p'))
    rw [hj] at hsum
    have hold := h.left
    rw [hrunning]
    omega
  flag := hflag
  outcome o ho := (hwf o ho).elim (fun ho => hgrows.outcome (h.outcome o ho)) id
  resolving j' t' hj' := by
    rcases hresolving with ⟨hp', hsame⟩ | hresolving
    · rw [hrunning] at hj'
      exact hsame.trans (h.resolving j' t' (running_was hj' hp'))
    · exact hresolving j' t' hj'
  zero := hzero
  winner := hwinner

/-- Somebody still settles the combined Future, if the step was of another callback. -/
theorem Inv.zero_stays (hj : s.inputs.running j = some (t, p)) (hp : .resolve ≠ p) (hzero : s.left = 0) :
    (∃ j' t', Function.update s.inputs.running j (some (t, p')) j' = some (t', .resolve)) ∨
      s.wf ≠ none := by
  rcases h.zero hzero with ⟨j', t', hj'⟩ | hwf
  · exact .inl ⟨j', t', running_stays hj hj' hp⟩
  · exact .inr hwf

theorem Inv.winner_stays (hj : s.inputs.running j = some (t, p))
    (hcancel : ∀ r ks, .cancelOthers r ks ≠ p) (hfinish : ∀ r, .finish r ≠ p)
    (hhead : s.claims.head? = some (j', r')) :
    (∃ t' ks, Function.update s.inputs.running j (some (t, p')) j' =
        some (t', .cancelOthers r' ks)) ∨
      (∃ t', Function.update s.inputs.running j (some (t, p')) j' = some (t', .finish r')) ∨
      s.wf ≠ none := by
  rcases h.winner j' r' hhead with ⟨t', ks, hj'⟩ | ⟨t', hj'⟩ | hwf
  · exact .inl ⟨t', ks, running_stays hj hj' (hcancel r' ks)⟩
  · exact .inr (.inl ⟨t', running_stays hj hj' (hfinish r')⟩)
  · exact .inr (.inr hwf)

/-- Once the counter is zero every slot holds the value of its input. -/
theorem Inv.slots (hzero : s.left = 0) (j : Fin n) :
    ∃ v, s.input fs j = some (.success v) ∧ s.rs j = some v := by
  have hsum : ∑ j, uncounted (s.inputs.running j) = 0 := by
    have := h.left
    omega
  have hj := Finset.sum_eq_zero_iff.mp hsum j (Finset.mem_univ j)
  cases hrun : s.inputs.running j with
  | none =>
    rw [hrun] at hj
    cases hj
  | some x =>
    obtain ⟨t, p⟩ := x
    have hat := h.at' j t p hrun
    rw [hrun] at hj
    cases p with
    | resolve | counted => exact hat
    | _ => cases hj

theorem Inv.tracks_advance (hj : s.inputs.running j = some (t, p)) (p' : AllStep V E n) :
    ∃ regs, Tracks fs (s.inputs.advance j t p') regs := by
  obtain ⟨regs, htracks⟩ := h.tracks
  exact ⟨regs, htracks.advance (by rw [hj]; nofun) t p'⟩

/-- A success callback writes its slot. -/
theorem Inv.write (hj : s.inputs.running j = some (t, .write v))
    (hrun : s.run fs j t (.write v) = some s') : s'.Inv fs := by
  cases hrun
  exact h.advance hj ⟨fun _ _ => id, fun _ => id⟩ rfl (h.tracks_advance hj _)
    (fun j' hj' => Function.update_of_ne hj' _ _) ⟨v, h.at' j t _ hj, Function.update_self ..⟩
    rfl h.flag (fun o ho => .inl ho) (.inl ⟨nofun, rfl⟩) (fun hz => h.zero_stays hj nofun hz)
    (fun j' r' hhead => h.winner_stays hj nofun nofun hhead)

/-- It counts down. -/
theorem Inv.count (hj : s.inputs.running j = some (t, .count))
    (hrun : s.run fs j t .count = some s') : s'.Inv fs := by
  cases hrun
  have hcounted : uncounted (some (t, (if s.left - 1 = 0 then .resolve else .counted :
      AllStep V E n))) = 0 := by
    split <;> rfl
  have hslot : ∃ v, s.input fs j = some (.success v) ∧ s.rs j = some v := h.at' j t _ hj
  refine h.advance hj ⟨fun _ _ => id, fun _ => id⟩ rfl (h.tracks_advance hj _) (fun _ _ => rfl)
    ?_ ?_ h.flag (fun o ho => .inl ho) (.inr ?_) ?_
    (fun j' r' hhead => h.winner_stays hj nofun nofun hhead)
  · split <;> exact hslot
  · rw [hcounted]
    simp [uncounted]
  · intro j' t' hj'
    by_cases hjj : j' = j
    · subst hjj
      by_contra hne
      change ¬s.left - 1 = 0 at hne
      simp [Inputs.advance, hne] at hj'
    · -- the counter would be zero with an input that has not counted down
      have hwas : s.inputs.running j' = some (t', .resolve) := by
        simpa [Inputs.advance, hjj] using hj'
      have hsum : ∑ j, uncounted (s.inputs.running j) = 0 := by
        have h1 := h.left
        have h2 := h.resolving j' t' hwas
        omega
      have hone := Finset.sum_eq_zero_iff.mp hsum j (Finset.mem_univ j)
      rw [hj] at hone
      cases hone
  · intro hzero
    change s.left - 1 = 0 at hzero
    exact .inl ⟨j, t, by simp [Inputs.advance, hzero]⟩

/-- The last one resolves the combined Future. -/
theorem Inv.resolve (hj : s.inputs.running j = some (t, .resolve))
    (hrun : s.run fs j t .resolve = some s') : s'.Inv fs := by
  cases hrun
  have hzero := h.resolving j t hj
  have hwf : s.wf.or (some (.success s.rs)) ≠ none := by cases s.wf <;> nofun
  refine h.advance hj ⟨fun _ _ => id, fun _ => id⟩ rfl (h.tracks_advance hj _) (fun _ _ => rfl)
    (h.at' j t _ hj) rfl h.flag ?_ (.inl ⟨nofun, rfl⟩) (fun _ => .inr hwf)
    (fun j' r' _ => .inr (.inr hwf))
  intro o ho
  rcases Option.or_eq_some_iff.mp ho with ho | ⟨-, ho⟩
  · exact .inl ho
  · cases ho
    exact .inr (.inl ⟨s.rs, rfl, h.slots hzero⟩)

/-- A failure callback swaps `isCancelled`. -/
theorem Inv.claim (hj : s.inputs.running j = some (t, .claim r))
    (hrun : s.run fs j t (.claim r) = some s') : s'.Inv fs := by
  cases hrun
  obtain ⟨hinput, hfails⟩ := h.at' j t _ hj
  have hhead : ∀ x, s.claims.head? = some x → (s.claims ++ [(j, r)]).head? = some x := by
    intro x hx
    rw [List.head?_append, hx, Option.some_or]
  have hne : (s.claims ++ [(j, r)]).head? ≠ none := by
    cases s.claims <;> simp
  cases hflag : s.isCancelled with
  | true =>
    have hold := h.flag.mp hflag
    refine h.advance hj ⟨fun _ _ => id, hhead⟩ rfl (h.tracks_advance hj _) (fun _ _ => rfl)
      ⟨⟨r, hinput, hfails⟩, hne⟩ rfl (by simp) (fun o ho => .inl ho) (.inl ⟨nofun, rfl⟩)
      (fun hz => h.zero_stays hj nofun hz) fun j' r' hhead' => ?_
    obtain ⟨x, hx⟩ := Option.ne_none_iff_exists'.mp hold
    cases (hhead x hx).symm.trans hhead'
    exact h.winner_stays hj nofun nofun hx
  | false =>
    have hnil : s.claims = [] := by
      cases hclaims : s.claims with
      | nil => rfl
      | cons x xs =>
        have := h.flag.mpr (by simp [hclaims])
        rw [hflag] at this
        cases this
    have hfirst : (s.claims ++ [(j, r)]).head? = some (j, r) := by simp [hnil]
    refine h.advance hj ⟨fun _ _ => id, hhead⟩ rfl (h.tracks_advance hj _) (fun _ _ => rfl)
      ⟨hinput, hfails, hfirst, ?_⟩ rfl (by simp) (fun o ho => .inl ho) (.inl ⟨nofun, rfl⟩)
      (fun hz => h.zero_stays hj nofun hz) ?_
    · intro k hk hks
      exact absurd (List.mem_filter.mpr ⟨List.mem_finRange k, by simpa using hk⟩) hks
    · intro j' r' hhead'
      cases hfirst.symm.trans hhead'
      exact .inl ⟨t, _, Function.update_self ..⟩

/-- The winner has no more inputs to cancel. -/
theorem Inv.cancelled_all (hj : s.inputs.running j = some (t, .cancelOthers r []))
    (hrun : s.run fs j t (.cancelOthers r []) = some s') : s'.Inv fs := by
  cases hrun
  obtain ⟨hinput, hfails, hhead, hothers⟩ := h.at' j t _ hj
  refine h.advance hj ⟨fun _ _ => id, fun _ => id⟩ rfl (h.tracks_advance hj _) (fun _ _ => rfl)
    ⟨hinput, hfails, hhead, fun k => ?_⟩ rfl h.flag (fun o ho => .inl ho) (.inl ⟨nofun, rfl⟩)
    (fun hz => h.zero_stays hj nofun hz) ?_
  · by_cases hk : k = j
    · subst hk
      change s.input fs k ≠ none
      rw [hinput]
      nofun
    · exact hothers k hk List.not_mem_nil
  · intro j' r' hhead'
    cases hhead.symm.trans hhead'
    exact .inr (.inl ⟨t, Function.update_self ..⟩)

/-- The winner cancels an input. -/
theorem Inv.cancelOther
    (hj : s.inputs.running j = some (t, .cancelOthers r (k :: ks)))
    (hrun : s.run fs j t (.cancelOthers r (k :: ks)) = some s') : s'.Inv fs := by
  cases hrun
  obtain ⟨hinput, hfails, hhead, hothers⟩ := h.at' j t _ hj
  obtain ⟨regs, htracks⟩ := h.tracks
  have hgrows : s.Grows fs
      { s with inputs := (s.inputs.settle (fs k) .cancelled).advance j t (.cancelOthers r ks) } :=
    ⟨fun j' r' hr' => result_settle_of_some hr' (fs k) .cancelled, fun _ => id⟩
  refine h.advance hj hgrows rfl ⟨regs, (htracks.settle (fs k) .cancelled).advance
      (by change s.inputs.running j ≠ none; rw [hj]; nofun) t _⟩ (fun _ _ => rfl)
    ⟨hgrows.input j r hinput, hfails, hhead, fun k' hk' hks => ?_⟩ rfl h.flag
    (fun o ho => .inl ho) (.inl ⟨nofun, rfl⟩) (fun hz => h.zero_stays hj nofun hz) ?_
  · by_cases hkk : k' = k
    · subst hkk
      change (s.inputs.settle (fs k') .cancelled).result (fs k') ≠ none
      rw [result_settle, if_pos rfl]
      cases s.inputs.result (fs k') <;> nofun
    · exact hgrows.input_ne (hothers k' hk' fun hmem =>
        (List.mem_cons.mp hmem).elim hkk hks)
  · intro j' r' hhead'
    cases hhead.symm.trans hhead'
    exact .inl ⟨t, ks, Function.update_self ..⟩

/-- The winner settles the combined Future. -/
theorem Inv.finish (hj : s.inputs.running j = some (t, .finish r))
    (hrun : s.run fs j t (.finish r) = some s') : s'.Inv fs := by
  cases hrun
  obtain ⟨hinput, hfails, hhead, hall⟩ := h.at' j t _ hj
  have hwf : s.wf.or (some (allOutcome r)) ≠ none := by cases s.wf <;> nofun
  refine h.advance hj ⟨fun _ _ => id, fun _ => id⟩ rfl (h.tracks_advance hj _) (fun _ _ => rfl)
    ⟨⟨r, hinput, hfails⟩, by change s.claims.head? ≠ none; rw [hhead]; nofun⟩ rfl h.flag ?_
    (.inl ⟨nofun, rfl⟩) (fun _ => .inr hwf) (fun _ _ _ => .inr (.inr hwf))
  intro o ho
  rcases Option.or_eq_some_iff.mp ho with ho | ⟨-, ho⟩
  · exact .inl ho
  · cases ho
    exact .inr (.inr ⟨j, r, hhead, hinput, hfails, rfl, hall⟩)

/-- What a step can do. -/
theorem Inv.step_cases (hstep : s.step fs e = some s') :
    (∃ i r, e = .settle i r ∧ s' = { s with inputs := s.inputs.settle i r }) ∨
    (∃ x, e.internal = true ∧ s' = { s with inputs := x } ∧
      s.inputs.Starts fs allCallbacks x ∧ ∃ regs, Tracks fs x regs) ∨
    ∃ j t p, e = .run j ∧ s.inputs.running j = some (t, p) ∧ s.run fs j t p = some s' := by
  obtain ⟨regs, htracks⟩ := h.tracks
  cases e with
  | settle i r => exact .inl ⟨i, r, rfl, (Option.some.inj hstep).symm⟩
  | register =>
    obtain ⟨x, hx, rfl⟩ := Option.map_eq_some_iff.mp hstep
    exact .inr (.inl ⟨x, rfl, rfl, htracks.register hx⟩)
  | notify i =>
    obtain ⟨x, hx, rfl⟩ := Option.map_eq_some_iff.mp hstep
    exact .inr (.inl ⟨x, rfl, rfl, htracks.notify hx⟩)
  | run j =>
    obtain ⟨⟨t, p⟩, hj, hrun⟩ := Option.bind_eq_some_iff.mp hstep
    exact .inr (.inr ⟨j, t, p, rfl, hj, hrun⟩)

/-- Every step keeps the invariant. -/
theorem Inv.step (hstep : s.step fs e = some s') : s'.Inv fs := by
  obtain ⟨i, r, -, rfl⟩ | ⟨x, -, rfl, hx⟩ | ⟨j, t, p, -, hj, hrun⟩ := h.step_cases hstep
  · obtain ⟨regs, htracks⟩ := h.tracks
    exact h.same_running ⟨regs, htracks.settle i r⟩ rfl
      fun i' r' hi' => result_settle_of_some hi' i r
  · exact h.starts hx
  · match p with
    | .write v => exact h.write hj hrun
    | .count => exact h.count hj hrun
    | .resolve => exact h.resolve hj hrun
    | .claim r => exact h.claim hj hrun
    | .cancelOthers r [] => exact h.cancelled_all hj hrun
    | .cancelOthers r (k :: ks) => exact h.cancelOther hj hrun
    | .finish r => exact h.finish hj hrun
    | .counted | .returned => cases hrun

end

/-! ## The end of a run -/

/-- A step of a callback decreases the measure. -/
theorem measure_run (hj : s.inputs.running j = some (t, p))
    (hrun : s.run fs j t p = some s') : 1 + s'.measure ≤ s.measure := by
  -- each step leaves the registrations alone and makes its callback lighter
  have hlighter : ∀ {p' : AllStep V E n}, s'.inputs.toRegister = s.inputs.toRegister →
      s'.inputs.running = Function.update s.inputs.running j (some (t, p')) →
      allWeight (some (t, p')) < allWeight (some (t, p)) → 1 + s'.measure ≤ s.measure := by
    intro p' hreg hrunning hlt
    have hsum := sum_update_running allWeight s.inputs.running j (some (t, p'))
    rw [hj] at hsum
    rw [measure, measure, hreg, hrunning]
    omega
  match p, hrun with
  | .write v, rfl => exact hlighter rfl rfl (by simp [allWeight])
  | .count, rfl => exact hlighter rfl rfl (by split <;> simp [allWeight])
  | .resolve, rfl => exact hlighter rfl rfl (by simp [allWeight])
  | .claim r, rfl =>
    refine hlighter rfl rfl ?_
    split
    · exact Nat.succ_pos _
    · have hlen : ((List.finRange n).filter (· ≠ j)).length ≤ n :=
        (List.length_filter_le _ _).trans_eq (List.length_finRange)
      simp only [allWeight]
      omega
  | .cancelOthers r [], rfl => exact hlighter rfl rfl (by simp [allWeight])
  | .cancelOthers r (k :: ks), rfl => exact hlighter rfl rfl (by simp [allWeight])
  | .finish r, rfl => exact hlighter rfl rfl (by simp [allWeight])

/-- A step of a goroutine decreases the measure. -/
theorem Inv.measure_step (h : s.Inv fs) (hstep : s.step fs e = some s') :
    e.internal.toNat + s'.measure ≤ s.measure := by
  obtain ⟨i, r, rfl, rfl⟩ | ⟨x, he, rfl, hx⟩ | ⟨j, t, p, rfl, hj, hrun⟩ := h.step_cases hstep
  · exact (Nat.zero_add _).le
  · rw [he]
    exact measure_starts hx.1
  · exact measure_run hj hrun

theorem Quiet.inputs (h : s.Quiet fs) : s.inputs.Quiet fs allCallbacks where
  register := h.1
  notify := h.2.1
  returned j t p hj := by
    have hnone := h.2.2 j
    rw [step, hj] at hnone
    cases p with
    | counted | returned => rfl
    | cancelOthers r ks => cases ks <;> cases hnone
    | _ => cases hnone

/-- An input with a result is past its callback once everything is quiet. -/
theorem Inv.quiet_at (h : s.Inv fs) (hquiet : s.Quiet fs)
    (hr : s.input fs j = some r) : ∃ t, s.inputs.running j = some (t, .counted) ∨
      s.inputs.running j = some (t, .returned) := by
  obtain ⟨regs, htracks⟩ := h.tracks
  obtain ⟨⟨t, p⟩, hj⟩ :=
    Option.ne_none_iff_exists'.mp (htracks.quiet_started hquiet.inputs hr)
  have hreturned := hquiet.inputs.returned j t p hj
  cases p with
  | counted => exact ⟨t, .inl hj⟩
  | returned => exact ⟨t, .inr hj⟩
  | _ => cases hreturned

/-- At rest with resolved inputs the combined Future is resolved. -/
theorem Inv.quiet_success (h : s.Inv fs) (hquiet : s.Quiet fs)
    (hall : ∀ j, ∃ v, s.input fs j = some (.success v)) : ∃ rs, s.wf = some (.success rs) := by
  have hcounted : ∀ j, uncounted (s.inputs.running j) = 0 := by
    intro j
    obtain ⟨v, hv⟩ := hall j
    obtain ⟨t, hj | hj⟩ := h.quiet_at hquiet hv
    · rw [hj]
      rfl
    · -- a success has no failure callback
      obtain ⟨⟨r, hr, hfails⟩, -⟩ := h.at' j t _ hj
      cases hv.symm.trans hr
      exact absurd rfl (hfails v)
  have hzero : s.left = 0 := by
    rw [h.left, Finset.sum_eq_zero fun j _ => hcounted j]
    rfl
  rcases h.zero hzero with ⟨j, t, hj⟩ | hwf
  · have := hquiet.inputs.returned j t _ hj
    cases this
  · obtain ⟨o, ho⟩ := Option.ne_none_iff_exists'.mp hwf
    rcases h.outcome o ho with ⟨rs, rfl, -⟩ | ⟨j, r, -, hr, hfails, -⟩
    · exact ⟨rs, ho⟩
    · obtain ⟨v, hv⟩ := hall j
      cases hv.symm.trans hr
      exact absurd rfl (hfails v)

/-- At rest with a failed input it has a result. -/
theorem Inv.quiet_failure (h : s.Inv fs) (hquiet : s.Quiet fs)
    (hr : s.input fs j = some r) (hfails : r.Fails) : s.wf ≠ none := by
  obtain ⟨t, hj | hj⟩ := h.quiet_at hquiet hr
  · obtain ⟨v, hv, -⟩ := h.at' j t _ hj
    cases hr.symm.trans hv
    exact absurd rfl (hfails v)
  · obtain ⟨-, hhead⟩ := h.at' j t _ hj
    obtain ⟨⟨j', r'⟩, hhead⟩ := Option.ne_none_iff_exists'.mp hhead
    rcases h.winner j' r' hhead with ⟨t', ks, hj'⟩ | ⟨t', hj'⟩ | hwf
    · cases hquiet.inputs.returned j' t' _ hj'
    · cases hquiet.inputs.returned j' t' _ hj'
    · exact hwf

/-- A result of the combined Future stays. -/
theorem wf_step (hstep : s.step fs e = some s') (ho : s.wf = some o) : s'.wf = some o := by
  cases e with
  | settle i r => cases hstep; exact ho
  | register | notify i =>
    obtain ⟨x, -, rfl⟩ := Option.map_eq_some_iff.mp hstep
    exact ho
  | run j =>
    obtain ⟨⟨t, p⟩, -, hrun⟩ := Option.bind_eq_some_iff.mp hstep
    match p, hrun with
    | .write v, rfl | .count, rfl | .claim r, rfl | .cancelOthers r [], rfl
    | .cancelOthers r (k :: ks), rfl => exact ho
    | .resolve, rfl | .finish r, rfl =>
      change s.wf.or _ = some o
      rw [ho, Option.some_or]

/-- An input that nobody else settles is pending or cancelled. -/
theorem Inv.input_step (h : s.Inv fs) (hstep : s.step fs e = some s')
    (he : ∀ r, e ≠ .settle (fs k) r) (hk : s.input fs k = none ∨ s.input fs k = some .cancelled) :
    s'.input fs k = none ∨ s'.input fs k = some .cancelled := by
  obtain ⟨i, r, rfl, rfl⟩ | ⟨x, -, rfl, hx⟩ | ⟨j, t, p, -, -, hrun⟩ := h.step_cases hstep
  · have hi : fs k ≠ i := by
      rintro rfl
      exact he r rfl
    simpa only [input, result_settle, if_neg hi] using hk
  · have hresult := congrFun hx.1.result (fs k)
    simpa only [input, hresult] using hk
  · match p, hrun with
    | .write v, rfl | .count, rfl | .claim r, rfl | .cancelOthers r [], rfl | .resolve, rfl
    | .finish r, rfl => exact hk
    | .cancelOthers r (k' :: ks), rfl =>
      change (s.inputs.settle (fs k') .cancelled).result (fs k) = none ∨
        (s.inputs.settle (fs k') .cancelled).result (fs k) = some .cancelled
      rw [result_settle]
      split
      case isTrue hkk =>
        rw [← hkk]
        rcases hk with hk | hk <;> rw [input] at hk <;> simp [hk]
      case isFalse => exact hk

/-- An input that nobody else settles is pending or cancelled. -/
theorem Inv.input_run
    (hes : ∀ r, AllEvent.settle (fs k) r ∉ es) : ∀ {s : WhenAll ι V E n}, s.Inv fs →
      exec (WhenAll.step fs) s es = some s' →
      s.input fs k = none ∨ s.input fs k = some .cancelled →
      s'.input fs k = none ∨ s'.input fs k = some .cancelled := by
  induction es with
  | nil =>
    intro s _ he hk
    cases Option.some.inj he
    exact hk
  | cons e es ih =>
    intro s h he hk
    obtain ⟨m, hm, he⟩ := exec_cons.mp he
    exact ih (fun r hr => hes r (List.mem_cons_of_mem _ hr)) (h.step hm) he
      (h.input_step hm (fun r hr => hes r (hr ▸ List.mem_cons_self)) hk)

end WhenAll

section

variable [DecidableEq ι] (fs : Fin n → ι)

end

/-- Two inputs that are resolved, the second one first. -/
def resolvedBackwards : List (AllEvent (Fin 2) Nat String 2) :=
  [.register, .register, .register, .register, .register, .register, .settle 1 (.success 8),
    .settle 0 (.success 7), .notify 1, .run 1, .run 1, .notify 0, .run 0, .run 0, .run 0]

end Gofusion.Routine
