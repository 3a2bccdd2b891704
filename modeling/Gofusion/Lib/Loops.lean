/-!
# Loops

A loop runs its body on a state until the body says that it is done.  `Ends body s r` says that
the loop ends with `r` when it starts in `s`.  `loop` is the loop with a bound on the number of
rounds, so that it can be evaluated.
-/

namespace Gofusion.Lib

variable {σ ρ : Type}

/-- What one round of a loop comes to. -/
inductive Round (σ ρ : Type)
  | next (s : σ)
  | done (r : ρ)

/-- The loop from a state on ends with a result. -/
inductive Ends (body : σ → Round σ ρ) : σ → ρ → Prop
  | done {s : σ} {r : ρ} : body s = .done r → Ends body s r
  | next {s s' : σ} {r : ρ} : body s = .next s' → Ends body s' r → Ends body s r

section

variable {body : σ → Round σ ρ} {s s' : σ} {r r' : ρ}

theorem ends_done_iff (hb : body s = .done r') : Ends body s r ↔ r = r' := by
  constructor
  · intro h
    cases h with
    | done h => rw [hb] at h; cases h; rfl
    | next h _ => rw [hb] at h; cases h
  · rintro rfl
    exact .done hb

theorem ends_next_iff (hb : body s = .next s') : Ends body s r ↔ Ends body s' r := by
  constructor
  · intro h
    cases h with
    | done h => rw [hb] at h; cases h
    | next h h' => rw [hb] at h; cases h; exact h'
  · exact .next hb

/-- A loop ends in one way. -/
theorem Ends.unique (h : Ends body s r) (h' : Ends body s r') : r = r' := by
  induction h with
  | done hb => exact ((ends_done_iff hb).mp h').symm
  | next hb _ ih => exact ih ((ends_next_iff hb).mp h')

/-- What every round keeps, and what it gives when it is done, holds of the end. -/
theorem Ends.invariant (Inv : σ → Prop) (P : ρ → Prop)
    (hnext : ∀ s s', Inv s → body s = .next s' → Inv s')
    (hdone : ∀ s r, Inv s → body s = .done r → P r) (h : Ends body s r) (hs : Inv s) : P r := by
  induction h with
  | done hb => exact hdone _ _ hs hb
  | next hb _ ih => exact ih (hnext _ _ hs hb)

end

end Gofusion.Lib
