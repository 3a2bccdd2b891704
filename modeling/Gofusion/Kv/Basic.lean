import Gofusion.Lib.Worklist
import Gofusion.Utils.Text

/-!
# Key-value stores

What the stores of `kv` share: errors, options, and the pages of a pagination.

A client call can fail at any time, so what a server answers depends on the time.  The time is
counted in passes of the loops that call it, and no loop makes a call twice in a pass.
-/

namespace Gofusion.Kv

open Gofusion.Lib

/-- `ErrNilValue`, `zk.ErrNoNode`, `redis.Nil`, and the errors of a connection. -/
inductive Err
  | nilValue
  | noNode
  | rdsNil
  | transport (text : Text)
deriving DecidableEq, Repr

/-- `option`, as far as reading, deleting and paginating use it. -/
structure Options where
  withConsistency : Bool := false
  withPrefix : Bool := false
  withKeysOnly : Bool := false
  version : Int := 0
deriving DecidableEq, Repr

variable {κ σ : Type}

/-- `KeyValue`, without a value if only keys are asked for.  Versions are left out. -/
structure KeyValue (κ : Type) where
  key : κ
  val : Option κ
deriving DecidableEq, Repr

/-- What `Next` returns, with the pagination behind it and the time. -/
structure Page (κ σ : Type) where
  kvs : List (KeyValue κ) := []
  err : Option Err := none
  state : σ
  time : Nat

namespace Page

def cons (kv : KeyValue κ) (p : Page κ σ) : Page κ σ := { p with kvs := kv :: p.kvs }

def keys (p : Page κ σ) : List κ := p.kvs.map KeyValue.key

@[simp] theorem keys_cons (kv : KeyValue κ) (p : Page κ σ) : (p.cons kv).keys = kv.key :: p.keys := rfl

@[simp] theorem state_cons (kv : KeyValue κ) (p : Page κ σ) : (p.cons kv).state = p.state := rfl

end Page

/-- The pages of a caller that calls `Next` while there is more, whether it fails or not, each
time with another page size. -/
def run (more : σ → Bool) (next : Nat → σ → Nat → Page κ σ) :
    List Nat → σ → Nat → List (List κ) × σ
  | [], s, _ => ([], s)
  | size :: sizes, s, time =>
    if more s then
      let page := next size s time
      let (pages, s) := run more next sizes page.state page.time
      (page.keys :: pages, s)
    else ([], s)

/-- Every page takes the first keys off a queue: `pending` is the queue, `kids` what a key leads
to.  Where no call fails a page is full or the last one. -/
structure Walks (more : σ → Bool) (next : Nat → σ → Nat → Page κ σ) (kids : κ → List κ)
    (pending : σ → List κ) (Inv : σ → Prop) (Fine : Prop) : Prop where
  done : ∀ s, Inv s → more s = false → pending s = []
  next : ∀ size s time, Inv s → Inv (next size s time).state ∧
    (pending (next size s time).state = [] → more (next size s time).state = false) ∧
    ∃ k ≤ size, (next size s time).keys = sweep kids k (pending s) ∧
      pending (next size s time).state = (advance kids)^[k] (pending s) ∧ (Fine → k = size)

namespace Walks

variable {more : σ → Bool} {next : Nat → σ → Nat → Page κ σ} {kids : κ → List κ}
  {pending : σ → List κ} {Inv : σ → Prop} {Fine : Prop}

/-- A run of pages is a part of the walk, and each page keeps to its size. -/
theorem run (h : Walks more next kids pending Inv Fine) :
    ∀ sizes s time, Inv s → ∃ k, Inv (run more next sizes s time).2 ∧
      (run more next sizes s time).1.flatten = sweep kids k (pending s) ∧
      pending (run more next sizes s time).2 = (advance kids)^[k] (pending s) ∧
      (∀ p ∈ (run more next sizes s time).1.zip sizes, p.1.length ≤ p.2) ∧
      (Fine → (∀ size ∈ sizes, 0 < size) → more (run more next sizes s time).2 = true →
        sizes.length ≤ k)
  | [], s, _, hs => ⟨0, hs, rfl, rfl, by simp [Kv.run], fun _ _ _ => Nat.zero_le _⟩
  | size :: sizes, s, time, hs => by
    rw [Kv.run]
    cases hmore : more s with
    | false =>
      refine ⟨0, hs, rfl, rfl, by simp, fun _ _ hm => ?_⟩
      rw [if_neg Bool.false_ne_true, hmore] at hm
      cases hm
    | true =>
      obtain ⟨hinv, -, k, hk, hkeys, hpending, hfull⟩ := h.next size s time hs
      obtain ⟨k', hinv', hkeys', hpending', hsizes, hlong⟩ := run h sizes _ _ hinv
      refine ⟨k + k', hinv', ?_, ?_, ?_, fun hfine hpos hm => ?_⟩
      · simp [hkeys, hkeys', hpending, sweep_add]
      · simp only [if_pos]
        rw [hpending', hpending, Nat.add_comm, Function.iterate_add_apply]
      · refine List.forall_mem_cons.mpr ⟨?_, hsizes⟩
        rw [hkeys]
        exact Nat.le_trans (length_sweep_le k _) hk
      · have hpos' := List.forall_mem_cons.mp hpos
        have := hlong hfine hpos'.2 hm
        have := hfull hfine
        rw [List.length_cons]
        omega

/-- A run that is done has walked to the end. -/
theorem run_done (h : Walks more next kids pending Inv Fine) (sizes : List Nat)
    (time : Nat) (hs : Inv s) (hmore : more (Kv.run more next sizes s time).2 = false) :
    ∃ k, (Kv.run more next sizes s time).1.flatten = sweep kids k (pending s) ∧
      (advance kids)^[k] (pending s) = [] := by
  obtain ⟨k, hinv, hkeys, hpending, -, -⟩ := h.run sizes s time hs
  exact ⟨k, hkeys, hpending.symm.trans (h.done _ hinv hmore)⟩

/-- Behind a page it is known whether there is more. -/
theorem run_exact (h : Walks more next kids pending Inv Fine) : ∀ sizes s time, Inv s →
    (pending s = [] → more s = false) ∨ sizes ≠ [] →
    pending (Kv.run more next sizes s time).2 = [] → more (Kv.run more next sizes s time).2 = false
  | [], _, _, _, hexact => hexact.resolve_right (· rfl)
  | size :: sizes, s, time, hs, _ => by
    rw [Kv.run]
    cases hmore : more s with
    | false => exact fun _ => hmore
    | true =>
      obtain ⟨hinv, hexact, -⟩ := h.next size s time hs
      exact run_exact h sizes _ _ hinv (.inl hexact)

/-- A run with enough pages is done. -/
theorem run_ends (h : Walks more next kids pending Inv Fine) (hfine : Fine) {sizes : List Nat}
    (hpos : ∀ size ∈ sizes, 0 < size) (time : Nat) (hs : Inv s) (hsizes : sizes ≠ [])
    (hend : (advance kids)^[sizes.length] (pending s) = []) :
    more (Kv.run more next sizes s time).2 = false := by
  by_contra hne
  obtain ⟨k, -, -, hpending, -, hlong⟩ := h.run sizes s time hs
  have hk := hlong hfine hpos (eq_true_of_ne_false hne)
  refine hne (h.run_exact sizes s time hs (.inr hsizes) (hpending.trans ?_))
  rw [← Nat.sub_add_cancel hk, Function.iterate_add_apply, hend, iterate_advance_nil]

/-- Where keys lead to no others, enough pages are the whole queue. -/
theorem complete (h : Walks more next (fun _ => []) pending Inv Fine) (hfine : Fine)
    {sizes : List Nat} (hpos : ∀ size ∈ sizes, 0 < size) (time : Nat) (hs : Inv s)
    (hlong : (pending s).length < sizes.length) :
    more (Kv.run more next sizes s time).2 = false ∧
      (Kv.run more next sizes s time).1.flatten = pending s ∧
      ∀ p ∈ (Kv.run more next sizes s time).1.zip sizes, p.1.length ≤ p.2 := by
  have hend : (advance fun _ => [])^[sizes.length] (pending s) = [] := by
    rw [iterate_advance_along, List.drop_eq_nil_iff]
    exact Nat.le_of_lt hlong
  have hdone := h.run_ends hfine hpos time hs (List.ne_nil_of_length_pos (Nat.zero_lt_of_lt hlong)) hend
  obtain ⟨k, hkeys, hnil⟩ := h.run_done sizes time hs hdone
  obtain ⟨-, -, -, -, hshort, -⟩ := h.run sizes s time hs
  exact ⟨hdone, hkeys.trans (sweep_eq_of_advance_eq_nil hnil), hshort⟩

end Walks

end Gofusion.Kv
