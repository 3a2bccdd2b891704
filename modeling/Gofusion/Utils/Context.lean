import Gofusion.Utils.Text

/-!
# Contexts

`common/utils/context.go` over the `context` package.  A context is the chain of its
nodes from the innermost, and `[]` is `context.Background()`.  The keys are a type
of their own with one type of values each, so the assertion `v.(T)` of `GetCtxAny`
cannot fail.
-/

namespace Gofusion.Utils

variable {κ : Type} {val : κ → Type}

/-- A node made by `context.WithCancel` or by `context.WithValue`. -/
inductive CtxNode (val : κ → Type)
  | cancel
  | value (key : κ) (v : val key)

/-- A context, as the chain of its nodes from the innermost. -/
abbrev Ctx (val : κ → Type) := List (CtxNode val)

/-- `ctx.Value`: the value of the innermost node that has the key. -/
def Ctx.value [DecidableEq κ] (key : κ) : Ctx val → Option (val key)
  | [] => none
  | .cancel :: c => Ctx.value key c
  | .value k v :: c => if h : k = key then some (h ▸ v) else Ctx.value key c

/-- `GetCtxAny` with a default value. -/
def getCtxAny [DecidableEq κ] (c : Ctx val) (key : κ) (dflt : val key) : val key :=
  (Ctx.value key c).getD dflt

def setCtxAny (c : Ctx val) (key : κ) (v : val key) : Ctx val := .value key v :: c

/-- The values of one key in a chain, from the innermost. -/
def Ctx.values [DecidableEq κ] (key : κ) : Ctx val → List (val key)
  | [] => []
  | .cancel :: c => Ctx.values key c
  | .value k v :: c => if h : k = key then (h ▸ v) :: Ctx.values key c else Ctx.values key c

theorem Ctx.value_eq_head? [DecidableEq κ] (key : κ) :
    ∀ c : Ctx val, Ctx.value key c = (Ctx.values key c).head?
  | [] => rfl
  | .cancel :: c => Ctx.value_eq_head? key c
  | .value k v :: c => by
    by_cases h : k = key
    · simp [Ctx.value, Ctx.values, h]
    · simpa [Ctx.value, Ctx.values, h] using Ctx.value_eq_head? key c

/-! ## The traversal

`fn` works on the variables it captures, here a state, and returns whether to stop. -/

variable {σ : Type}

/-- One round of the loop at an embedded field `Context`.  Its kind is `Interface`
also behind `Indirect`, which ends the loop. -/
def travelField (fn : Ctx val → σ → σ × Bool) (c : Ctx val) (s : σ) : σ := (fn c s).1

/-- `TravelCtx`.  `Background` has no field `Context`. -/
def travelCtx (fn : Ctx val → σ → σ × Bool) (child : Ctx val) (s : σ) : σ :=
  match fn child s, child with
  | (s', true), _ => s'
  | (s', false), [] => s'
  | (s', false), _ :: parent => travelField fn parent s'

end Gofusion.Utils
