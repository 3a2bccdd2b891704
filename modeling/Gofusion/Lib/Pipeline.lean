/-!
# Pipelines of invertible steps

A pipeline runs a list of steps one after the other, and stops at the first that fails.
If every step has an inverse, the inverses in the opposite order undo the pipeline.
-/

namespace Gofusion.Lib

variable {ι ε α β : Type}

theorem bind_eq_ok {x : Except ε α} {f : α → Except ε β} {b : β} :
    x >>= f = .ok b ↔ ∃ a, x = .ok a ∧ f a = .ok b := by
  cases x with
  | error e | ok a => simp [bind, Except.bind]

def runAll (step : ι → β → Except ε β) : List ι → β → Except ε β
  | [], x => .ok x
  | i :: is, x => step i x >>= runAll step is

/-- The steps of two lists one after the other. -/
theorem runAll_append (step : ι → β → Except ε β) : ∀ (is js : List ι) (x : β),
    runAll step (is ++ js) x = runAll step is x >>= runAll step js
  | [], _, _ => rfl
  | i :: is, js, x => by
    rw [List.cons_append, runAll, runAll, bind_assoc]
    exact congrArg (step i x >>= ·) (funext fun y => runAll_append step is js y)

/-- The second family of steps undoes the first. -/
def Undoes (encode decode : ι → β → Except ε β) : Prop :=
  ∀ i x y, encode i x = .ok y → decode i y = .ok x

/-- The undoing steps in reverse order give the first value back. -/
theorem Undoes.runAll_reverse (h : Undoes encode decode) :
    ∀ {is : List ι} {x y : β}, runAll encode is x = .ok y → runAll decode is.reverse y = .ok x
  | [], _, _, hrun => by cases hrun; rfl
  | i :: is, x, y, hrun => by
    rw [runAll] at hrun
    cases hi : encode i x with
    | error e => rw [hi] at hrun; cases hrun
    | ok m =>
      rw [hi] at hrun
      rw [List.reverse_cons, runAll_append, h.runAll_reverse hrun]
      exact (congrArg (· >>= runAll decode []) (h i x m hi)).trans rfl

end Gofusion.Lib
