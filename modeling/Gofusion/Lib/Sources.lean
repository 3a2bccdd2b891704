/-!
# Sources and readers

A source hands out a list piece by piece.  How much a call returns is up to the source, but
where something is left a call for something returns something.

A reader is called for a number of elements again and again.  It `Serves` a list and a failure, or
none, if every call returns the next elements of the list, and behind the last one the failure is
returned, or the end is announced.
-/

namespace Gofusion.Lib

variable {α δ ε : Type}

/-! ## Sources -/

/-- A source.  For the call with this number, `plan` says how much it returns at most, less one,
and whether it announces the end with the last piece. -/
structure Source (α : Type) where
  rest : List α
  plan : Nat → Nat × Bool
  calls : Nat

/-- A call for at most `k` elements: a piece, whether the end is announced, and the source. -/
def Source.read (s : Source α) (k : Nat) : List α × Bool × Source α :=
  let limit := min ((s.plan s.calls).1 + 1) k
  let rest := s.rest.drop limit
  (s.rest.take limit,
    rest.isEmpty && ((s.plan s.calls).2 || (s.rest.isEmpty && decide (0 < k))),
    { s with rest, calls := s.calls + 1 })

theorem Source.read_append (s : Source α) (k : Nat) :
    (s.read k).1 ++ (s.read k).2.2.rest = s.rest := List.take_append_drop ..

theorem Source.length_read_le (s : Source α) (k : Nat) : (s.read k).1.length ≤ k := by
  rw [read, List.length_take]
  omega

/-- The end is only announced when nothing is left. -/
theorem Source.rest_of_end {s : Source α} {k : Nat} (h : (s.read k).2.1 = true) :
    (s.read k).2.2.rest = [] := by
  simp only [read, Bool.and_eq_true, List.isEmpty_iff] at h ⊢
  exact h.1

/-- A call for something returns something, or announces the end. -/
theorem Source.read_ne_nil {s : Source α} {k : Nat} (hk : 0 < k) (h : (s.read k).2.1 = false) :
    (s.read k).1 ≠ [] := by
  intro hnil
  simp only [read, List.take_eq_nil_iff] at hnil
  have hrest : s.rest = [] := hnil.resolve_left (by omega)
  simp [read, hrest, hk] at h

/-! ## Readers -/

/-- How a call ends: there may be more, this was the last, or it fails. -/
inductive ReadEnd (ε : Type)
  | more
  | eof
  | failed (e : ε)
deriving DecidableEq, Repr

/-- The end of a reader with this failure, or none. -/
def ReadEnd.final : Option ε → ReadEnd ε
  | none => .eof
  | some e => .failed e

theorem ReadEnd.final_eq_eof {f : Option ε} (h : ReadEnd.final f = .eof) : f = none := by
  cases f with
  | none => rfl
  | some e => cases h

/-- The pieces of calls for these numbers of elements, up to the end or a failure.  A call that
does not return is `none`. -/
def readAll (read : δ → Nat → Option (List α × ReadEnd ε × δ)) :
    List Nat → δ → Option (List α × ReadEnd ε)
  | [], _ => some ([], .more)
  | k :: ks, d =>
    match read d k with
    | none => none
    | some (piece, .more, d') => (readAll read ks d').map fun r => (piece ++ r.1, r.2)
    | some (piece, stop, _) => some (piece, stop)

/-- Every call on a reader in a state for `xs` and `f` returns the next elements of `xs`.  A call
for something returns something or is the last one, and that only behind the last element. -/
def Serves (read : δ → Nat → Option (List α × ReadEnd ε × δ))
    (For : δ → List α → Option ε → Prop) : Prop :=
  ∀ ⦃d : δ⦄ ⦃xs : List α⦄ ⦃f : Option ε⦄ (k : Nat), For d xs f → ∃ j stop d', j ≤ xs.length ∧
    read d k = some (xs.take j, stop, d') ∧
    (stop = .more ∧ For d' (xs.drop j) f ∧ (0 < k → 0 < j) ∨
      stop = ReadEnd.final f ∧ j = xs.length)

/-- The pieces are the beginning of the list.  After the last call they are the list, and there
was a last call if there were more calls for something than elements. -/
theorem Serves.readAll {read : δ → Nat → Option (List α × ReadEnd ε × δ)}
    {For : δ → List α → Option ε → Prop} (h : Serves read For) : ∀ (ks : List Nat) {d : δ}
    {xs : List α} {f : Option ε}, For d xs f → ∃ ys stop, Lib.readAll read ks d = some (ys, stop) ∧
      (stop = .more ∧ ys <+: xs ∧ (ks.filter (0 < ·)).length ≤ ys.length ∨
        stop = ReadEnd.final f ∧ ys = xs)
  | [], _, xs, _, _ => ⟨[], .more, rfl, .inl ⟨rfl, List.nil_prefix, Nat.le_refl 0⟩⟩
  | k :: ks, d, xs, f, hd => by
    obtain ⟨j, stop, d', hj, hread, hstop⟩ := h k hd
    rcases hstop with ⟨rfl, hd', hpos⟩ | ⟨rfl, hj⟩
    · obtain ⟨ys, stop, hrest, hstop⟩ := h.readAll ks hd'
      refine ⟨xs.take j ++ ys, stop, ?_, ?_⟩
      · rw [Lib.readAll, hread]
        simp only [hrest, Option.map_some]
      · have hxs := List.take_append_drop j xs
        rcases hstop with ⟨rfl, hys, hcount⟩ | ⟨rfl, rfl⟩
        · refine .inl ⟨rfl, ?_, ?_⟩
          · have := (List.prefix_append_right_inj (xs.take j)).2 hys
            rwa [hxs] at this
          · have hlen : (xs.take j).length = j := List.length_take_of_le hj
            rw [List.length_append, hlen, List.filter_cons]
            split
            next hk =>
              have := hpos (by simpa using hk)
              rw [List.length_cons]
              omega
            next => omega
        · exact .inr ⟨rfl, hxs⟩
    · refine ⟨xs, ReadEnd.final f, ?_, .inr ⟨rfl, rfl⟩⟩
      rw [Lib.readAll, hread, hj, List.take_length]
      cases f <;> rfl

end Gofusion.Lib
