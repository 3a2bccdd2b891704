import Gofusion.Routine.Future
import Mathlib.Algebra.BigOperators.Fin
import Mathlib.Algebra.Order.BigOperators.Group.Finset
import Mathlib.Data.Fintype.Card
import Mathlib.Data.List.FinRange

/-!
# Futures with the callbacks of a combinator

`WhenAnyMatched` and `whenAllFuture` of `routine/candy.go` both start a goroutine, the
registrar, that registers a success, a failure and a cancel callback with each Future of a list.
A callback runs in the registrar if its Future is settled already, and else in the goroutine
that settling the Future starts.  The list may name a Future more than once.

`Tracks` connects this to the notification of a single Future: of the three callbacks of an
input exactly the one that matches its result is started, once.
-/

namespace Gofusion.Routine

variable {ι V E P : Type} {n : Nat}

/-- The goroutine that runs a callback. -/
inductive Thread (ι : Type)
  | registrar
  | notifier (i : ι)
deriving DecidableEq, Repr

/-- The Futures, what the registrar still has to register, and for every input whose callback
was started the goroutine that runs it and how far it is. -/
structure Inputs (ι V E P : Type) (n : Nat) where
  futures : ι → Future V E (Fin n)
  toRegister : List (Kind × Fin n)
  running : Fin n → Option (Thread ι × P)

/-- The code of the callbacks of a combinator. -/
structure Callbacks (V E P : Type) (n : Nat) where
  handler : Fin n → Result V E → P
  returned : P → Bool

/-- `OnSuccess`, `OnFailure` and `OnCancel` on each input in order. -/
def allRegistrations (n : Nat) : List (Kind × Fin n) :=
  (List.finRange n).flatMap fun j => [(.done, j), (.fail, j), (.cancel, j)]

/-- The inputs at the time of the call, each pending or with a result. -/
def Inputs.start (results : ι → Option (Result V E)) : Inputs ι V E P n where
  futures i := { newPromise with result := results i }
  toRegister := allRegistrations n
  running _ := none

def Inputs.result (s : Inputs ι V E P n) (i : ι) : Option (Result V E) := (s.futures i).result

variable {j : Fin n} {rest : List (Kind × Fin n)} {k : Kind}

section

variable [DecidableEq ι]

/-- `setResult` on the Future `i`. -/
def Inputs.settle (s : Inputs ι V E P n) (i : ι) (r : Result V E) : Inputs ι V E P n :=
  { s with futures := Function.update s.futures i ((s.futures i).setResult r).1 }

/-- The callback of input `j` is at `p` in goroutine `t`. -/
def Inputs.advance (s : Inputs ι V E P n) (j : Fin n) (t : Thread ι) (p : P) : Inputs ι V E P n :=
  { s with running := Function.update s.running j (some (t, p)) }

/-- A goroutine that runs no callback. -/
def Inputs.free (cb : Callbacks V E P n) (s : Inputs ι V E P n) (t : Thread ι) : Bool :=
  (List.finRange n).all fun j =>
    match s.running j with
    | some (t', p) => t' ≠ t || cb.returned p
    | none => true

variable (fs : Fin n → ι) (cb : Callbacks V E P n)

/-- The callback of kind `k` of input `j` is registered. -/
def Inputs.registered (s : Inputs ι V E P n) (k : Kind) (j : Fin n)
    (rest : List (Kind × Fin n)) : Inputs ι V E P n :=
  { s with
    futures := Function.update s.futures (fs j) ((s.futures (fs j)).addCallback k j)
    toRegister := rest }

/-- The registrar registers its next callback, which it runs if the Future has a result that
the callback is for. -/
def Inputs.register (s : Inputs ι V E P n) : Option (Inputs ι V E P n) :=
  match s.toRegister with
  | [] => none
  | (k, j) :: rest =>
    if s.free cb .registrar then
      let s' := s.registered fs k j rest
      match s.result (fs j) with
      | none => some s'
      | some r => some (if k.runsOn r then s'.advance j .registrar (cb.handler j r) else s')
    else none

/-- The goroutine of the Future `i` takes its next callback. -/
def Inputs.notified (s : Inputs ι V E P n) (i : ι) : Inputs ι V E P n :=
  { s with futures := Function.update s.futures i (s.futures i).notify }

/-- The goroutine of the Future `i` runs its next callback. -/
def Inputs.notify (s : Inputs ι V E P n) (i : ι) : Option (Inputs ι V E P n) :=
  match s.result i, (s.futures i).queue with
  | some r, j :: _ =>
    if s.free cb (.notifier i) then
      some ((s.notified i).advance j (.notifier i) (cb.handler j r))
    else none
  | _, _ => none

/-! ## The registrations -/

variable {C Q : Type} {r' : Result V E} {i' : ι}

theorem ofKind_sublist (p : Kind → Bool) {regs regs' : List (Kind × C)} (h : regs.Sublist regs') :
    (ofKind p regs).Sublist (ofKind p regs') :=
  (h.filter _).map _

theorem mem_ofKind :
    c ∈ ofKind p regs ↔ ∃ k, (k, c) ∈ regs ∧ p k = true := by
  simp only [ofKind, List.mem_map, List.mem_filter, Prod.exists, exists_eq_right]

/-- One of the three callbacks of each input matches a result. -/
theorem matching_allRegistrations (r : Result V E) :
    matching r (allRegistrations n) = List.finRange n := by
  have hone : ∀ js : List (Fin n),
      matching r (js.flatMap fun j => [(.done, j), (.fail, j), (.cancel, j)]) = js := by
    intro js
    induction js with
    | nil => rfl
    | cons j js ih =>
      rw [List.flatMap_cons, matching, ofKind_append]
      rw [matching] at ih
      rw [ih]
      cases r <;> rfl
  exact hone _

/-! ## Tracking -/

/-- The registrations with the Future `i`. -/
def regsOf (regs : List (Kind × Fin n)) (i : ι) : List (Kind × Fin n) :=
  regs.filter fun x => fs x.2 = i

/-- `regs` has been registered, and an input is started if its callback is among those that its
Future ran. -/
structure Tracks (s : Inputs ι V E P n) (regs : List (Kind × Fin n)) : Prop where
  all : regs ++ s.toRegister = allRegistrations n
  accounts : ∀ i, Accounts (s.futures i) (regsOf fs regs i)
  started : ∀ j, s.running j ≠ none ↔ ∃ r, (j, r) ∈ (s.futures (fs j)).ran

theorem tracks_start (results : ι → Option (Result V E)) :
    Tracks fs (Inputs.start results : Inputs ι V E P n) [] where
  all := rfl
  accounts i := by
    refine ⟨fun _ => ⟨rfl, rfl⟩, fun _ => rfl, fun _ => rfl, fun _ => rfl, fun _ => rfl, ?_⟩
    intro r _
    exact .refl _
  started j := by simp [Inputs.start, newPromise]

section

variable {fs cb} {s : Inputs ι V E P n} {regs : List (Kind × Fin n)} (h : Tracks fs s regs)
include h

theorem Tracks.nodup_matching (r : Result V E) :
    (matching r regs ++ matching r s.toRegister).Nodup := by
  have hall : matching r regs ++ matching r s.toRegister = List.finRange n := by
    rw [matching, matching, ← ofKind_append, h.all]
    exact matching_allRegistrations r
  rw [hall]
  exact List.nodup_finRange n

variable {r : Result V E} {i : ι} {js : List (Fin n)}

/-- A callback that a Future ran or has to run was registered with it and matches. -/
theorem Tracks.mem_matching (hr : s.result i = some r)
    (hj : (j, r) ∈ (s.futures i).ran ++ (s.futures i).queue.map (·, r)) :
    j ∈ matching r (regsOf fs regs i) := by
  have hmem := ((h.accounts i).perm r hr).mem_iff.mp hj
  obtain ⟨j', hj', heq⟩ := List.mem_map.mp hmem
  cases heq
  exact hj'

omit h in
theorem mem_matching_regsOf (hj : j ∈ matching r (regsOf fs regs i)) :
    fs j = i ∧ j ∈ matching r regs := by
  obtain ⟨k, hk, hruns⟩ := mem_ofKind.mp hj
  obtain ⟨hreg, hi⟩ := List.mem_filter.mp hk
  exact ⟨of_decide_eq_true hi, mem_ofKind.mpr ⟨k, hreg, hruns⟩⟩

/-- The result that a callback ran on is the result of its Future. -/
theorem Tracks.ran_result (hj : (j, r') ∈ (s.futures i).ran) : s.result i = some r' := by
  cases hr : s.result i with
  | none =>
    rw [((h.accounts i).idle hr).2] at hj
    cases hj
  | some r =>
    have hmem := ((h.accounts i).perm r hr).mem_iff.mp (List.mem_append_left _ hj)
    obtain ⟨j', -, heq⟩ := List.mem_map.mp hmem
    cases heq
    rfl

theorem Tracks.queue_head (hr : s.result i = some r) (hq : (s.futures i).queue = j :: js) :
    fs j = i ∧ s.running j = none := by
  have hjq : (j, r) ∈ (s.futures i).ran ++ (s.futures i).queue.map (·, r) := by
    rw [hq]
    simp
  obtain ⟨hi, -⟩ := mem_matching_regsOf (h.mem_matching hr hjq)
  refine ⟨hi, by_contra fun hrun => ?_⟩
  obtain ⟨r', hran⟩ := (h.started j).mp hrun
  rw [hi] at hran
  cases hr.symm.trans (h.ran_result hran)
  -- the callback would be among the matching ones twice
  have hnodup : ((matching r (regsOf fs regs i)).map (·, r)).Nodup := by
    refine List.Nodup.map (fun _ _ heq => congrArg Prod.fst heq) ?_
    exact ((List.nodup_append.mp (h.nodup_matching r)).1).sublist
      (ofKind_sublist _ List.filter_sublist)
  have hdisjoint := (List.nodup_append.mp (((h.accounts i).perm r hr).nodup_iff.mpr hnodup)).2.2
  exact hdisjoint _ hran _ (by rw [hq]; simp) rfl

theorem Tracks.register_head (hreg : s.toRegister = (k, j) :: rest) (hr : s.result (fs j) = some r)
    (hk : k.runsOn r = true) : s.running j = none := by
  refine by_contra fun hrun => ?_
  obtain ⟨r', hran⟩ := (h.started j).mp hrun
  cases hr.symm.trans (h.ran_result hran)
  have hmem := (mem_matching_regsOf (h.mem_matching hr (List.mem_append_left _ hran))).2
  refine (List.nodup_append.mp (h.nodup_matching r)).2.2 j hmem j ?_ rfl
  rw [hreg]
  exact mem_ofKind.mpr ⟨k, List.mem_cons_self, hk⟩

theorem Tracks.settle (i : ι) (r : Result V E) : Tracks fs (s.settle i r) regs where
  all := h.all
  accounts i' := by
    by_cases hi : i' = i
    · subst hi
      simpa [Inputs.settle] using (h.accounts i').setResult r
    · simpa [Inputs.settle, hi] using h.accounts i'
  started j := by
    have hran : ∀ i', ((s.settle i r).futures i').ran = (s.futures i').ran := by
      intro i'
      by_cases hi : i' = i
      · subst hi
        simp only [Inputs.settle, Function.update_self, Future.setResult]
        split <;> rfl
      · simp [Inputs.settle, hi]
    rw [hran]
    exact h.started j

theorem Tracks.advance (hj : s.running j ≠ none) (t : Thread ι) (p : P) :
    Tracks fs (s.advance j t p) regs where
  all := h.all
  accounts := h.accounts
  started j' := by
    by_cases hj' : j' = j
    · subst hj'
      simpa [Inputs.advance] using (h.started j').mp hj
    · simpa [Inputs.advance, hj'] using h.started j'

theorem Tracks.registered (hreg : s.toRegister = (k, j) :: rest) :
    (s.registered fs k j rest).toRegister = rest ∧ regs ++ [(k, j)] ++ rest = allRegistrations n ∧
      ∀ i, Accounts ((s.registered fs k j rest).futures i) (regsOf fs (regs ++ [(k, j)]) i) := by
  refine ⟨rfl, ?_, fun i => ?_⟩
  · rw [List.append_assoc, List.singleton_append, ← hreg]
    exact h.all
  · rw [regsOf, List.filter_append]
    by_cases hi : fs j = i
    · subst hi
      simpa [Inputs.registered, regsOf] using (h.accounts (fs j)).addCallback k j
    · simpa [Inputs.registered, regsOf, hi, Ne.symm hi] using h.accounts i

theorem Tracks.register_idle (hreg : s.toRegister = (k, j) :: rest)
    (hidle : ∀ r, s.result (fs j) = some r → k.runsOn r = false) :
    Tracks fs (s.registered fs k j rest) (regs ++ [(k, j)]) := by
  obtain ⟨-, hall, haccounts⟩ := h.registered hreg
  refine ⟨hall, haccounts, fun j' => ?_⟩
  have hran : ((s.futures (fs j)).addCallback k j).ran = (s.futures (fs j)).ran := by
    cases hr : s.result (fs j) with
    | none => cases k <;> simp [Future.addCallback, show (s.futures (fs j)).result = none from hr]
    | some r => rw [Future.addCallback_of_some hr, if_neg (by simp [hidle r hr])]
  have hsame : ((s.registered fs k j rest).futures (fs j')).ran = (s.futures (fs j')).ran := by
    by_cases hj' : fs j' = fs j
    · rw [hj', Inputs.registered]
      simpa using hran
    · simp [Inputs.registered, hj']
  rw [hsame]
  exact h.started j'

/-- A registration that runs the callback at once. -/
theorem Tracks.register_runs (hreg : s.toRegister = (k, j) :: rest) (hr : s.result (fs j) = some r)
    (hk : k.runsOn r = true) (p : P) :
    Tracks fs ((s.registered fs k j rest).advance j .registrar p) (regs ++ [(k, j)]) := by
  obtain ⟨-, hall, haccounts⟩ := h.registered hreg
  refine ⟨hall, haccounts, fun j' => ?_⟩
  have hran : ((s.futures (fs j)).addCallback k j).ran = (s.futures (fs j)).ran ++ [(j, r)] := by
    rw [Future.addCallback_of_some hr, if_pos hk]
  by_cases hj' : j' = j
  · subst hj'
    simp [Inputs.advance, Inputs.registered, hran]
  · by_cases hi : fs j' = fs j
    · have hstarted := h.started j'
      simpa [Inputs.advance, Inputs.registered, hran, hj', hi] using hstarted
    · simpa [Inputs.advance, Inputs.registered, hj', hi] using h.started j'

/-- A notification starts the next callback. -/
theorem Tracks.notify_runs (hr : s.result i = some r) (hq : (s.futures i).queue = j :: js) (p : P) :
    Tracks fs ((s.notified i).advance j (.notifier i) p) regs := by
  obtain ⟨rfl, -⟩ := h.queue_head hr hq
  have hran : (s.futures (fs j)).notify.ran = (s.futures (fs j)).ran ++ [(j, r)] := by
    rw [Future.notify_of_some hr hq]
  refine ⟨h.all, fun i' => ?_, fun j' => ?_⟩
  · by_cases hi : i' = fs j
    · subst hi
      simpa [Inputs.advance, Inputs.notified] using (h.accounts (fs j)).notify
    · simpa [Inputs.advance, Inputs.notified, hi] using h.accounts i'
  · by_cases hj' : j' = j
    · subst hj'
      simp [Inputs.advance, Inputs.notified, hran]
    · by_cases hi : fs j' = fs j
      · have hstarted := h.started j'
        simpa [Inputs.advance, Inputs.notified, hran, hj', hi] using hstarted
      · simpa [Inputs.advance, Inputs.notified, hj', hi] using h.started j'

end

/-! ## What a step does -/

theorem result_settle (s : Inputs ι V E P n) (i i' : ι) (r : Result V E) :
    (s.settle i r).result i' = if i' = i then (s.result i).or (some r) else s.result i' := by
  by_cases hi : i' = i
  · subst hi
    simp only [Inputs.result, Inputs.settle, Function.update_self, if_true]
    cases hr : (s.futures i').result with
    | none => simp [Future.setResult, hr]
    | some r' => rw [Future.setResult_of_some hr, hr, Option.some_or]
  · simp only [Inputs.result, Inputs.settle, Function.update_of_ne hi, if_neg hi]

theorem result_settle_of_some {s : Inputs ι V E P n} (h : s.result i' = some r') (i : ι)
    (r : Result V E) : (s.settle i r).result i' = some r' := by
  rw [result_settle]
  split
  case isTrue hi => rw [← hi, h, Option.some_or]
  case isFalse => exact h

theorem Future.result_addCallback (f : Future V E (Fin n)) (k : Kind) (j : Fin n) :
    (f.addCallback k j).result = f.result := by
  cases hr : f.result with
  | none => cases k <;> simp [addCallback, hr]
  | some r =>
    rw [addCallback_of_some hr]
    split <;> exact hr

theorem Future.result_notify (f : Future V E (Fin n)) : f.notify.result = f.result := by
  rw [notify]
  split <;> rfl

/-- A step of the registrar or of a notifying goroutine starts the callback of at most one
input, which was not started, and leaves the results alone. -/
structure Inputs.Starts (s s' : Inputs ι V E P n) : Prop where
  result : s'.result = s.result
  running : s'.running = s.running ∧ s'.toRegister.length < s.toRegister.length ∨
    ∃ j t r, s.running j = none ∧ s.result (fs j) = some r ∧
      s'.toRegister.length ≤ s.toRegister.length ∧
      s'.running = Function.update s.running j (some (t, cb.handler j r))

variable {fs cb}

theorem Inputs.register_eq_some {s s' : Inputs ι V E P n} (hstep : s.register fs cb = some s') :
    ∃ k j rest, s.toRegister = (k, j) :: rest ∧
      ((∀ r, s.result (fs j) = some r → k.runsOn r = false) ∧ s' = s.registered fs k j rest ∨
        ∃ r, s.result (fs j) = some r ∧ k.runsOn r = true ∧
          s' = (s.registered fs k j rest).advance j .registrar (cb.handler j r)) := by
  cases hreg : s.toRegister with
  | nil => simp [register, hreg] at hstep
  | cons x rest =>
    obtain ⟨k, j⟩ := x
    refine ⟨k, j, rest, rfl, ?_⟩
    simp only [register, hreg] at hstep
    split at hstep
    case isFalse => cases hstep
    cases hr : s.result (fs j) with
    | none =>
      rw [hr] at hstep
      exact .inl ⟨nofun, (Option.some.inj hstep).symm⟩
    | some r =>
      rw [hr] at hstep
      cases hk : k.runsOn r with
      | false =>
        simp only [hk, Bool.false_eq_true, if_false, Option.some.injEq] at hstep
        refine .inl ⟨fun r' hr' => ?_, hstep.symm⟩
        cases hr'
        exact hk
      | true =>
        simp only [hk, if_true, Option.some.injEq] at hstep
        exact .inr ⟨r, rfl, hk, hstep.symm⟩

theorem Inputs.notify_eq_some {s s' : Inputs ι V E P n} (hstep : s.notify cb i = some s') :
    ∃ r j js, s.result i = some r ∧ (s.futures i).queue = j :: js ∧
      s' = (s.notified i).advance j (.notifier i) (cb.handler j r) := by
  cases hr : s.result i with
  | none => simp [notify, hr] at hstep
  | some r =>
    cases hq : (s.futures i).queue with
    | nil => simp [notify, hr, hq] at hstep
    | cons j js =>
      simp only [notify, hr, hq] at hstep
      split at hstep
      case isFalse => cases hstep
      exact ⟨r, j, js, rfl, rfl, (Option.some.inj hstep).symm⟩

theorem Inputs.result_registered (s : Inputs ι V E P n) (k : Kind) (j : Fin n)
    (rest : List (Kind × Fin n)) : (s.registered fs k j rest).result = s.result := by
  funext i
  by_cases hi : i = fs j
  · subst hi
    simp [result, registered, Future.result_addCallback]
  · simp [result, registered, hi]

theorem Inputs.result_notified (s : Inputs ι V E P n) (i : ι) :
    (s.notified i).result = s.result := by
  funext i'
  by_cases hi : i' = i
  · subst hi
    simp [result, notified, Future.result_notify]
  · simp [result, notified, hi]

/-- A step of the registrar. -/
theorem Tracks.register {s s' : Inputs ι V E P n}
    (h : Tracks fs s regs) (hstep : s.register fs cb = some s') :
    s.Starts fs cb s' ∧ ∃ regs', Tracks fs s' regs' := by
  obtain ⟨k, j, rest, hreg, ⟨hidle, rfl⟩ | ⟨r, hr, hk, rfl⟩⟩ := Inputs.register_eq_some hstep
  · have hlen : rest.length < s.toRegister.length := by simp [hreg]
    exact ⟨⟨s.result_registered k j rest, .inl ⟨rfl, hlen⟩⟩, _, h.register_idle hreg hidle⟩
  · have hlen : rest.length ≤ s.toRegister.length := by simp [hreg]
    exact ⟨⟨s.result_registered k j rest,
      .inr ⟨j, _, r, h.register_head hreg hr hk, hr, hlen, rfl⟩⟩, _, h.register_runs hreg hr hk _⟩

theorem Tracks.notify {s s' : Inputs ι V E P n}
    (h : Tracks fs s regs) (hstep : s.notify cb i = some s') :
    s.Starts fs cb s' ∧ ∃ regs', Tracks fs s' regs' := by
  obtain ⟨r, j, js, hr, hq, rfl⟩ := Inputs.notify_eq_some hstep
  obtain ⟨hi, hidle⟩ := h.queue_head hr hq
  exact ⟨⟨s.result_notified i, .inr ⟨j, _, r, hidle, hi ▸ hr, Nat.le_refl _, rfl⟩⟩,
    _, h.notify_runs hr hq _⟩

/-! ## Steps of one callback -/

theorem update_eq_some
    (h : Function.update running j (some x) j' = some y) :
    j' = j ∧ y = x ∨ j' ≠ j ∧ running j' = some y := by
  by_cases hj : j' = j
  · subst hj
    rw [Function.update_self] at h
    exact .inl ⟨rfl, (Option.some.inj h).symm⟩
  · rw [Function.update_of_ne hj] at h
    exact .inr ⟨hj, h⟩

/-- What a step of one callback does to a sum over all of them. -/
theorem sum_update_running (w : Option Q → Nat) (running : Fin n → Option Q) (j : Fin n)
    (x : Option Q) : (∑ i, w (Function.update running j x i)) + w (running j) =
      (∑ i, w (running i)) + w x := by
  have hrest : ∑ i ∈ Finset.univ.erase j, w (Function.update running j x i) =
      ∑ i ∈ Finset.univ.erase j, w (running i) :=
    Finset.sum_congr rfl fun i hi => by rw [Function.update_of_ne (Finset.ne_of_mem_erase hi)]
  rw [← Finset.add_sum_erase _ _ (Finset.mem_univ j), hrest, Function.update_self,
    ← Finset.add_sum_erase _ (fun i => w (running i)) (Finset.mem_univ j)]
  omega

omit [DecidableEq ι] in
/-- A callback that is started is lighter than before, so a step that starts one makes the whole
lighter. -/
theorem Inputs.Starts.lighter {s x : Inputs ι V E P n} (h : s.Starts fs cb x)
    (w : Option (Thread ι × P) → Nat) (hw : ∀ j t r, w (some (t, cb.handler j r)) < w none) :
    1 + (x.toRegister.length + ∑ j, w (x.running j)) ≤
      s.toRegister.length + ∑ j, w (s.running j) := by
  rcases h.running with ⟨hrunning, hlen⟩ | ⟨j, t, r, hidle, -, hlen, hrunning⟩
  · rw [hrunning]
    omega
  · have hsum := sum_update_running w s.running j (some (t, cb.handler j r))
    have := hw j t r
    rw [hidle] at hsum
    rw [hrunning]
    omega

/-! ## Quiet inputs -/

/-- No callback is registered, started or running any more. -/
structure Inputs.Quiet (fs : Fin n → ι) (cb : Callbacks V E P n) (s : Inputs ι V E P n) :
    Prop where
  register : s.register fs cb = none
  notify : ∀ i, s.notify cb i = none
  returned : ∀ j t p, s.running j = some (t, p) → cb.returned p = true

theorem Inputs.free_of_returned {s : Inputs ι V E P n}
    (h : ∀ j t p, s.running j = some (t, p) → cb.returned p = true) (t : Thread ι) :
    s.free cb t = true := by
  rw [free, List.all_eq_true]
  intro j _
  cases hj : s.running j with
  | none => rfl
  | some x =>
    obtain ⟨t', p⟩ := x
    simp [h j t' p hj]

/-- When all is registered, an input with a result that no goroutine has to notify is started. -/
theorem Tracks.all_started {s : Inputs ι V E P n}
    (h : Tracks fs s regs) (hreg : s.toRegister = [])
    (hr : s.result (fs j) = some r) (hqueue : (s.futures (fs j)).queue = []) :
    s.running j ≠ none := by
  have hregs : regs = allRegistrations n := by
    have hall := h.all
    rwa [hreg, List.append_nil] at hall
  have hperm := (h.accounts (fs j)).perm r hr
  rw [hqueue, List.map_nil, List.append_nil] at hperm
  refine (h.started j).mpr ⟨r, hperm.mem_iff.mpr (List.mem_map.mpr ⟨j, ?_, rfl⟩)⟩
  have hj : j ∈ matching r (allRegistrations n) := by
    rw [matching_allRegistrations]
    exact List.mem_finRange j
  obtain ⟨k, hk, hruns⟩ := mem_ofKind.mp hj
  refine mem_ofKind.mpr ⟨k, List.mem_filter.mpr ⟨?_, by simp⟩, hruns⟩
  rwa [hregs]

/-- Once the inputs are quiet, every input with a result had its callback run to its end. -/
theorem Tracks.quiet_started {s : Inputs ι V E P n}
    (h : Tracks fs s regs) (hquiet : s.Quiet fs cb)
    (hr : s.result (fs j) = some r) : s.running j ≠ none := by
  have hfree := Inputs.free_of_returned hquiet.returned
  refine h.all_started ?_ hr ?_
  · cases hreg : s.toRegister with
    | nil => rfl
    | cons x rest =>
      have hnone := hquiet.register
      simp only [Inputs.register, hreg, hfree, if_true] at hnone
      split at hnone <;> cases hnone
  · cases hq : (s.futures (fs j)).queue with
    | nil => rfl
    | cons j' js =>
      have hnone := hquiet.notify (fs j)
      simp only [Inputs.notify, hr, hq, hfree, if_true] at hnone
      cases hnone

/-! ## Futures that are settled before the call -/

/-- A Future that no goroutine notifies: the registrar runs its callbacks. -/
structure Inputs.Direct (fs : Fin n → ι) (s : Inputs ι V E P n) (i : ι) (r : Result V E) :
    Prop where
  result : s.result i = some r
  queue : (s.futures i).queue = []
  thread : ∀ j t p, fs j = i → s.running j = some (t, p) → t = .registrar

omit [DecidableEq ι] in
theorem direct_start
    (h : results i = some r) : (Inputs.start results : Inputs ι V E P n).Direct fs i r :=
  ⟨h, rfl, nofun⟩

section

variable {s s' : Inputs ι V E P n} {i : ι} {r : Result V E} (h : s.Direct fs i r)
include h

theorem Inputs.Direct.settle (i' : ι) (r' : Result V E) : (s.settle i' r').Direct fs i r := by
  refine ⟨result_settle_of_some h.result i' r', ?_, h.thread⟩
  by_cases hi : i = i'
  · subst hi
    simpa only [Inputs.settle, Function.update_self, Future.setResult_of_some h.result]
      using h.queue
  · simpa only [Inputs.settle, Function.update_of_ne hi] using h.queue

omit [DecidableEq ι] in
theorem Inputs.Direct.advance (hj : s.running j = some (t, p)) :
    (s.advance j t p').Direct fs i r := by
  refine ⟨h.result, h.queue, fun j' t' q hj' hq => ?_⟩
  rcases update_eq_some hq with ⟨rfl, heq⟩ | ⟨-, hq⟩
  · cases heq
    exact h.thread j' t p hj' hj
  · exact h.thread j' t' q hj' hq

theorem Inputs.Direct.registered : (s.registered fs k j rest).Direct fs i r := by
  refine ⟨(congrFun (s.result_registered k j rest) i).trans h.result, ?_, h.thread⟩
  by_cases hi : i = fs j
  · subst hi
    simp only [Inputs.registered, Function.update_self, Future.addCallback_of_some h.result]
    split <;> exact h.queue
  · simpa only [Inputs.registered, Function.update_of_ne hi] using h.queue

theorem Inputs.Direct.register (hstep : s.register fs cb = some s') : s'.Direct fs i r := by
  obtain ⟨k, j, rest, -, ⟨-, rfl⟩ | ⟨r', -, -, rfl⟩⟩ := Inputs.register_eq_some hstep
  · exact h.registered
  · have hreg : (s.registered fs k j rest).Direct fs i r := h.registered
    refine ⟨hreg.result, hreg.queue, fun j' t' q hj' hq => ?_⟩
    rcases update_eq_some hq with ⟨-, heq⟩ | ⟨-, hq⟩
    · cases heq
      rfl
    · exact hreg.thread j' t' q hj' hq

theorem Inputs.Direct.notify (htracks : Tracks fs s regs)
    (hstep : s.notify cb i' = some s') : s'.Direct fs i r := by
  obtain ⟨r', j, js, hr', hq, rfl⟩ := Inputs.notify_eq_some hstep
  have hi : i ≠ i' := by
    rintro rfl
    rw [h.queue] at hq
    cases hq
  refine ⟨(congrFun (s.result_notified i') i).trans h.result, ?_, fun j' t' q hj' hq' => ?_⟩
  · simpa only [Inputs.advance, Inputs.notified, Function.update_of_ne hi] using h.queue
  · rcases update_eq_some hq' with ⟨rfl, -⟩ | ⟨-, hq'⟩
    · exact absurd (hj'.symm.trans (htracks.queue_head hr' hq).1) hi
    · exact h.thread j' t' q hj' hq'

end

/-- When the registrar is at its end, it has run the callback of a Future that was settled before
the call to its end. -/
theorem Tracks.direct_returned {s : Inputs ι V E P n}
    (h : Tracks fs s regs) (hreg : s.toRegister = []) (hfree : s.free cb .registrar = true)
    (hdirect : s.Direct fs (fs j) r) :
    ∃ p, s.running j = some (.registrar, p) ∧ cb.returned p = true := by
  obtain ⟨⟨t, p⟩, hj⟩ :=
    Option.ne_none_iff_exists'.mp (h.all_started hreg hdirect.result hdirect.queue)
  obtain rfl := hdirect.thread j t p rfl hj
  refine ⟨p, hj, ?_⟩
  have hall := List.all_eq_true.mp hfree j (List.mem_finRange j)
  simpa [hj] using hall

end

end Gofusion.Routine
