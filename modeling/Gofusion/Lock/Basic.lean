import Gofusion.Utils.Text
import Mathlib.Logic.Function.Basic

/-!
# Locks

`lock/types.go` and what the lockers have in common: the options of a call, and the
calls of several clients as events of a run.

The lease of a lock is given in nanoseconds and taken in milliseconds, the resolution
of the stores.  A client stands for the `ReentrantKey` option it passes, `key` maps
it to that text.  A call without the option has the empty text.
-/

namespace Gofusion.Lock

/-- `time.Millisecond`. -/
def millisecond : Int := 1000000

def tolerance : Int := 2000 * millisecond

/-- The lease of a call in milliseconds.  Without a positive `Expire` option it is the
tolerance. -/
def leaseMillis (expired : Int) : Int :=
  (if 0 < expired then expired else tolerance) / millisecond

/-- An event of a run: a call with its `Expire` option, zero if there is none, or time
that passes. -/
inductive Event (C : Type)
  | lock (c : C) (expired : Int)
  | unlock (c : C) (expired : Int)
  | elapse (ms : Nat)
deriving DecidableEq, Repr

variable {C : Type}

def Event.isLockOf [DecidableEq C] (c : C) : Event C → Bool
  | .lock c' _ => c' = c
  | _ => false

def Event.isUnlockOf [DecidableEq C] (c : C) : Event C → Bool
  | .unlock c' _ => c' = c
  | _ => false

def elapsed : List (Event C) → Nat
  | [] => 0
  | .elapse ms :: es => ms + elapsed es
  | _ :: es => elapsed es

@[simp] theorem elapsed_lock (c : C) (expired : Int) (es : List (Event C)) :
    elapsed (.lock c expired :: es) = elapsed es := rfl

@[simp] theorem elapsed_elapse (ms : Nat) (es : List (Event C)) :
    elapsed (.elapse ms :: es) = ms + elapsed es := rfl

theorem elapsed_append : ∀ es es' : List (Event C), elapsed (es ++ es') = elapsed es + elapsed es'
  | [], _ => (Nat.zero_add _).symm
  | .elapse ms :: es, es' => by
    rw [List.cons_append, elapsed, elapsed, elapsed_append es es', Nat.add_assoc]
  | .lock _ _ :: es, es' => elapsed_append es es'
  | .unlock _ _ :: es, es' => elapsed_append es es'

def ownKeys : Bool → Text
  | true => "a".toList
  | false => "b".toList

theorem ownKeys_injective : Function.Injective ownKeys := by
  intro c c' h
  cases c <;> cases c' <;> first | rfl | exact absurd h (by decide)

end Gofusion.Lock
