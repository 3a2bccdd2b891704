import Gofusion.Lib.Runs
import Mathlib.Data.List.Perm.Basic

/-!
# Futures

`Future` of `routine/future.go` with `setResult`, `addCallback` and `execCallback`.

A Future holds its result and the callbacks registered while it has none.  The call that
settles it starts a goroutine that runs the callbacks of the matching kinds one after the
other, so other calls come between them.

Each call is one step here.  The single steps of `addCallback` and the arrays they share are in
`Registration`.  The pipes of a Future are left out, they are run by a goroutine of their own.
-/

namespace Gofusion.Routine

open Gofusion.Lib

/-! ## Results and kinds -/

/-- `Result`, a value, an error or `ErrCancelled`. -/
inductive Result (V E : Type)
  | success (v : V)
  | failure (e : E)
  | cancelled
deriving DecidableEq, Repr

/-- `callbackType`. -/
inductive Kind
  | done
  | fail
  | always
  | cancel
deriving DecidableEq, Repr

/-- The results that a callback of a kind is for. -/
def Kind.runsOn {V E : Type} : Kind → Result V E → Bool
  | .done, .success _ | .fail, .failure _ | .cancel, .cancelled => true
  | .always, .success _ | .always, .failure _ => true
  | _, _ => false

/-! ## The Future -/

/-- `futureVal`, the goroutine that `setResult` started and the callbacks that have run, each
with the result it was run on. -/
structure Future (V E C : Type) where
  dones : List C
  fails : List C
  always : List C
  cancels : List C
  result : Option (Result V E)
  /-- What `execCallback` still has to run. -/
  queue : List C
  ran : List (C × Result V E)

variable {V E C : Type}

def newPromise : Future V E C := ⟨[], [], [], [], none, [], []⟩

/-- The callbacks that `execCallback` runs, in its order. -/
def Future.execCallback (f : Future V E C) : Result V E → List C
  | .cancelled => f.cancels
  | .success _ => f.dones ++ f.always
  | .failure _ => f.fails ++ f.always

/-- `setResult`.  `false` is the error of a Future that is settled already. -/
def Future.setResult (f : Future V E C) (r : Result V E) : Future V E C × Bool :=
  match f.result with
  | some _ => (f, false)
  | none => ({ f with result := some r, queue := f.execCallback r }, true)

def Future.addCallback (f : Future V E C) (k : Kind) (c : C) : Future V E C :=
  match f.result with
  | some r => if k.runsOn r then { f with ran := f.ran ++ [(c, r)] } else f
  | none =>
    match k with
    | .done => { f with dones := f.dones ++ [c] }
    | .fail => { f with fails := f.fails ++ [c] }
    | .always => { f with always := f.always ++ [c] }
    | .cancel => { f with cancels := f.cancels ++ [c] }

/-- The goroutine of `setResult` runs its next callback. -/
def Future.notify (f : Future V E C) : Future V E C :=
  match f.result, f.queue with
  | some r, c :: cs => { f with queue := cs, ran := f.ran ++ [(c, r)] }
  | _, _ => f

/-- The calls on a Future and the steps of its goroutine. -/
inductive Op (V E C : Type)
  /-- `Resolve`, `Reject` or `Cancel`. -/
  | settle (r : Result V E)
  | register (k : Kind) (c : C)
  | notify
deriving DecidableEq, Repr

/-- One step, and whether the call returns no error. -/
def Future.step (f : Future V E C) : Op V E C → Future V E C × Bool
  | .settle r => f.setResult r
  | .register k c => (f.addCallback k c, true)
  | .notify => (f.notify, true)

def Future.after (ops : List (Op V E C)) : Future V E C := runFrom Future.step newPromise ops

theorem after_concat (ops : List (Op V E C)) (op : Op V E C) :
    Future.after (ops ++ [op]) = ((Future.after ops).step op).1 :=
  runFrom_concat newPromise ops op

variable {r : Result V E}

theorem Future.setResult_of_some {f : Future V E C} (h : f.result = some r') :
    f.setResult r = (f, false) := by
  rw [setResult, h]

theorem Future.addCallback_of_some {f : Future V E C} (h : f.result = some r) (k : Kind) (c : C) :
    f.addCallback k c = if k.runsOn r then { f with ran := f.ran ++ [(c, r)] } else f := by
  simp only [addCallback, h]

theorem Future.notify_of_some {f : Future V E C} (h : f.result = some r)
    (hq : f.queue = c :: cs) : f.notify = { f with queue := cs, ran := f.ran ++ [(c, r)] } := by
  rw [notify, h, hq]

theorem Future.notify_of_nil {f : Future V E C} (hq : f.queue = []) : f.notify = f := by
  rw [notify, hq]
  cases f.result <;> rfl

/-! ## Settling -/

def Op.settles : Op V E C → Bool
  | .settle _ => true
  | _ => false

/-- A result stays. -/
theorem Future.step_result_of_some {f : Future V E C} (h : f.result = some r) (op : Op V E C) :
    (f.step op).1.result = some r := by
  cases op with
  | settle r' => rwa [step, setResult_of_some h]
  | register k c =>
    rw [step, addCallback_of_some h]
    split <;> exact h
  | notify =>
    rw [step]
    cases hq : f.queue with
    | nil => rwa [notify_of_nil hq]
    | cons c cs => rwa [notify_of_some h hq]

/-- Only a settling call gives a result. -/
theorem Future.step_result_of_none {f : Future V E C} (h : f.result = none) {op : Op V E C}
    (hop : op.settles = false) : (f.step op).1.result = none := by
  cases op with
  | settle r => cases hop
  | register k c => cases k <;> simp [step, addCallback, h]
  | notify => simp [step, Future.notify, h]

/-! ## Notification -/

/-- The callbacks registered with a kind that satisfies `p`. -/
def ofKind (p : Kind → Bool) (regs : List (Kind × C)) : List C :=
  (regs.filter fun x => p x.1).map Prod.snd

theorem ofKind_append (p : Kind → Bool) (regs regs' : List (Kind × C)) :
    ofKind p (regs ++ regs') = ofKind p regs ++ ofKind p regs' := by
  rw [ofKind, List.filter_append, List.map_append]
  rfl

theorem ofKind_singleton (p : Kind → Bool) (k : Kind) (c : C) :
    ofKind p [(k, c)] = if p k then [c] else [] := by
  cases h : p k <;> simp [ofKind, h]

def matching (r : Result V E) (regs : List (Kind × C)) : List C := ofKind (·.runsOn r) regs

/-- Two kinds that exclude each other are the kinds of `p`. -/
theorem ofKind_or_perm (hne : k ≠ k')
    (hp : ∀ x, p x = (x == k || x == k')) : ∀ regs : List (Kind × C),
      (ofKind (· == k) regs ++ ofKind (· == k') regs).Perm (ofKind p regs)
  | [] => .refl _
  | (x, c) :: regs => by
    have ih := ofKind_or_perm hne hp regs
    rw [← List.singleton_append, ofKind_append, ofKind_append, ofKind_append, ofKind_singleton,
      ofKind_singleton, ofKind_singleton, hp]
    by_cases hk : x = k
    · subst hk
      simpa [hne] using ih.cons c
    · by_cases hk' : x = k'
      · subst hk'
        simpa [hk] using (List.perm_middle.trans (ih.cons c))
      · simpa [hk, hk'] using ih

/-- The state of a Future whose callbacks were registered with `regs`. -/
structure Accounts (f : Future V E C) (regs : List (Kind × C)) : Prop where
  idle : f.result = none → f.queue = [] ∧ f.ran = []
  dones : f.result = none → f.dones = ofKind (· == .done) regs
  fails : f.result = none → f.fails = ofKind (· == .fail) regs
  always : f.result = none → f.always = ofKind (· == .always) regs
  cancels : f.result = none → f.cancels = ofKind (· == .cancel) regs
  perm : ∀ r, f.result = some r →
    (f.ran ++ f.queue.map (·, r)).Perm ((matching r regs).map (·, r))

theorem accounts_newPromise : Accounts (newPromise : Future V E C) [] where
  idle _ := ⟨rfl, rfl⟩
  dones _ := rfl
  fails _ := rfl
  always _ := rfl
  cancels _ := rfl
  perm := nofun

section

variable {f : Future V E C} {regs : List (Kind × C)} (h : Accounts f regs)
include h

/-- The callbacks to run are the matching ones. -/
theorem Accounts.execCallback_perm (hnone : f.result = none) (r : Result V E) :
    (f.execCallback r).Perm (matching r regs) := by
  cases r with
  | success v =>
    rw [Future.execCallback, h.dones hnone, h.always hnone]
    exact ofKind_or_perm (by decide) (fun x => by cases x <;> rfl) regs
  | failure e =>
    rw [Future.execCallback, h.fails hnone, h.always hnone]
    exact ofKind_or_perm (by decide) (fun x => by cases x <;> rfl) regs
  | cancelled =>
    rw [Future.execCallback, h.cancels hnone, matching]
    have hp : (fun k : Kind => k.runsOn (.cancelled : Result V E)) = (· == .cancel) := by
      funext k
      cases k <;> rfl
    rw [hp]

/-- Settling queues the callbacks that match. -/
theorem Accounts.setResult (r : Result V E) : Accounts (f.setResult r).1 regs := by
  cases hres : f.result with
  | some r' =>
    rw [Future.setResult_of_some hres]
    exact h
  | none =>
    have hperm := h.execCallback_perm hres r
    simp only [Future.setResult, hres]
    refine ⟨nofun, nofun, nofun, nofun, nofun, ?_⟩
    rintro r' ⟨⟩
    rw [(h.idle hres).2, List.nil_append]
    exact hperm.map _

/-- A registration is one more. -/
theorem Accounts.addCallback (k : Kind) (c : C) :
    Accounts (f.addCallback k c) (regs ++ [(k, c)]) := by
  cases hres : f.result with
  | some r =>
    rw [Future.addCallback_of_some hres]
    have hnone : ∀ {P : Prop}, f.result = none → P := fun hn => by simp [hres] at hn
    split
    case isTrue hk =>
      refine ⟨hnone, hnone, hnone, hnone, hnone, fun r' hr' => ?_⟩
      obtain rfl : r = r' := Option.some.inj (hres.symm.trans hr')
      rw [matching, ofKind_append, ofKind_singleton, if_pos hk, List.map_append, List.append_assoc]
      exact (List.perm_append_comm.append_left f.ran).trans
        ((List.append_assoc ..).symm ▸ (h.perm r hres).append_right [(c, r)])
    case isFalse hk =>
      refine ⟨hnone, hnone, hnone, hnone, hnone, fun r' hr' => ?_⟩
      obtain rfl : r = r' := Option.some.inj (hres.symm.trans hr')
      rw [matching, ofKind_append, ofKind_singleton, if_neg hk, List.append_nil]
      exact h.perm r hres
  | none =>
    have hd := h.dones hres
    have hf := h.fails hres
    have ha := h.always hres
    have hc := h.cancels hres
    have hi := h.idle hres
    cases k <;> simp only [Future.addCallback, hres] <;>
      exact ⟨fun _ => hi, fun _ => by simp [ofKind_append, ofKind_singleton, hd],
        fun _ => by simp [ofKind_append, ofKind_singleton, hf],
        fun _ => by simp [ofKind_append, ofKind_singleton, ha],
        fun _ => by simp [ofKind_append, ofKind_singleton, hc], nofun⟩

/-- The goroutine takes one callback from the queue. -/
theorem Accounts.notify : Accounts f.notify regs := by
  cases hq : f.queue with
  | nil => rwa [Future.notify_of_nil hq]
  | cons c cs =>
    cases hres : f.result with
    | none =>
      rw [(h.idle hres).1] at hq
      cases hq
    | some r =>
      have hnone : ∀ {P : Prop}, f.result = none → P := fun hn => by simp [hres] at hn
      rw [Future.notify_of_some hres hq]
      refine ⟨hnone, hnone, hnone, hnone, hnone, fun r' hr' => ?_⟩
      obtain rfl : r = r' := Option.some.inj (hres.symm.trans hr')
      have hperm := h.perm r hres
      rw [hq] at hperm
      rw [List.append_assoc]
      exact hperm

end

end Gofusion.Routine
