import Mathlib.Data.List.Pairwise
import Mathlib.Data.List.Perm.Lattice
import Mathlib.Logic.Function.Iterate

/-!
# A queue that grows while it is read

A breadth-first walk over what `next` leads to.  `advance` takes the first item off the queue and
puts what it leads to behind the others.  `sweep n` lists the first `n` items that are taken off.

The items below a queue are a forest (`Unfolds`).  The walk takes off every item of the forest
once (`sweep_perm`), and it ends (`advance_eq_nil`).
-/

namespace Gofusion.Lib

inductive Tree (α : Type)
  | node (label : α) (children : List (Tree α))
deriving Repr

namespace Tree

variable {α : Type}

def label : Tree α → α
  | .node a _ => a

@[simp] theorem label_node (a : α) (cs : List (Tree α)) : (node a cs).label = a := rfl

end Tree

variable {α : Type} {next : α → List α}

/-! ## The walk -/

/-- The queue without its first item, and with what that leads to. -/
def advance (next : α → List α) : List α → List α
  | [] => []
  | a :: queue => queue ++ next a

/-- The items that are taken off the queue first. -/
def sweep (next : α → List α) : Nat → List α → List α
  | 0, _ => []
  | _ + 1, [] => []
  | n + 1, a :: queue => a :: sweep next n (queue ++ next a)

@[simp] theorem sweep_zero (queue : List α) : sweep next 0 queue = [] := rfl

@[simp] theorem sweep_nil : ∀ n : Nat, sweep next n [] = []
  | 0 => rfl
  | _ + 1 => rfl

@[simp] theorem iterate_advance_nil (n : Nat) : (advance next)^[n] [] = [] :=
  Function.iterate_fixed rfl n

/-- A walk can be cut anywhere. -/
theorem sweep_add (m n : Nat) (queue : List α) :
    sweep next (m + n) queue = sweep next m queue ++ sweep next n ((advance next)^[m] queue) := by
  induction m generalizing queue with
  | zero => simp
  | succ m ih =>
    cases queue with
    | nil => simp
    | cons a queue => rw [Nat.succ_add, sweep, ih]; rfl

theorem length_sweep_le (n : Nat) (queue : List α) : (sweep next n queue).length ≤ n := by
  induction n generalizing queue with
  | zero => simp
  | succ n ih =>
    cases queue with
    | nil => simp
    | cons a queue => exact Nat.succ_le_succ (ih _)

variable {queue : List α} {n : Nat} {t : Tree α} {b : α} {up : α → α}

theorem length_sweep (h : (advance next)^[n] queue ≠ []) : (sweep next n queue).length = n := by
  induction n generalizing queue with
  | zero => rfl
  | succ n ih =>
    cases queue with
    | nil => simp at h
    | cons a queue => exact congrArg Nat.succ (ih h)

/-! Where no item leads to another, the walk is along the queue. -/

theorem sweep_along (n : Nat) (queue : List α) : sweep (fun _ => []) n queue = queue.take n := by
  induction n generalizing queue with
  | zero => rfl
  | succ n ih =>
    cases queue with
    | nil => rfl
    | cons a queue => rw [sweep, List.append_nil, ih, List.take_succ_cons]

theorem iterate_advance_along (n : Nat) (queue : List α) :
    (advance fun _ => [])^[n] queue = queue.drop n := by
  induction n generalizing queue with
  | zero => rfl
  | succ n ih =>
    cases queue with
    | nil => simp
    | cons a queue => rw [Function.iterate_succ_apply, advance, List.append_nil, ih, List.drop_succ_cons]

theorem sweep_eq_of_advance_eq_nil (h : (advance fun _ => [])^[n] queue = []) :
    sweep (fun _ => []) n queue = queue := by
  rw [iterate_advance_along, List.drop_eq_nil_iff] at h
  rw [sweep_along, List.take_of_length_le h]

/-! ## The forest below a queue -/

namespace Tree

def labels : Tree α → List α
  | .node a cs => a :: cs.flatMap labels

/-- The children of every node are what its label leads to. -/
inductive Unfolds (next : α → List α) : Tree α → Prop
  | node {a : α} {cs : List (Tree α)} (h : next a = cs.map label)
    (hcs : ∀ c ∈ cs, Unfolds next c) : Unfolds next (.node a cs)

theorem label_mem_labels : ∀ t : Tree α, t.label ∈ t.labels
  | .node a cs => by simp [labels]

theorem Unfolds.next_mem (ht : t.Unfolds next) (ha : a ∈ t.labels) (hb : b ∈ next a) :
    b ∈ t.labels := by
  induction ht with
  | @node a' cs h hcs ih =>
    rw [labels, List.mem_cons, List.mem_flatMap] at ha ⊢
    rcases ha with rfl | ⟨c, hc, ha⟩
    · rw [h] at hb
      obtain ⟨c, hc, rfl⟩ := List.mem_map.mp hb
      exact .inr ⟨c, hc, c.label_mem_labels⟩
    · exact .inr ⟨c, hc, ih c hc ha⟩

end Tree

open Gofusion.Lib.Tree

theorem mem_labels_of_iterate (ht : t.Unfolds next) (n : Nat) (hqueue : ∀ a ∈ queue, a ∈ t.labels) :
    ∀ a ∈ (advance next)^[n] queue, a ∈ t.labels := by
  induction n generalizing queue with
  | zero => exact hqueue
  | succ n ih =>
    cases queue with
    | nil => simp
    | cons a queue =>
      obtain ⟨ha, hqueue⟩ := List.forall_mem_cons.mp hqueue
      exact ih fun b hb => (List.mem_append.mp hb).elim (hqueue b) (ht.next_mem ha)

/-- The walk takes off every item of the forest, up to the forest that is left. -/
theorem sweep_perm (n : Nat) {ts : List (Tree α)} (h : ∀ t ∈ ts, t.Unfolds next) :
    ∃ rest : List (Tree α), (advance next)^[n] (ts.map label) = rest.map label ∧
      (sweep next n (ts.map label) ++ rest.flatMap labels).Perm (ts.flatMap labels) := by
  induction n generalizing ts with
  | zero => exact ⟨ts, rfl, by simp⟩
  | succ n ih =>
    cases ts with
    | nil => exact ⟨[], by simp⟩
    | cons t ts =>
      obtain ⟨ht, hts⟩ := List.forall_mem_cons.mp h
      obtain ⟨hnext, hcs⟩ := ht
      rename_i a cs
      obtain ⟨rest, hrest, hperm⟩ := @ih (ts ++ cs) fun t ht =>
        (List.mem_append.mp ht).elim (hts t) (hcs t)
      rw [List.map_append, ← hnext] at hrest hperm
      refine ⟨rest, hrest, ?_⟩
      rw [List.flatMap_append] at hperm
      simpa [sweep, labels] using hperm.trans List.perm_append_comm

/-- A walk to the end visits the labels of the tree. -/
theorem sweep_perm_labels (ht : t.Unfolds next) (h : (advance next)^[n] [t.label] = []) :
    (sweep next n [t.label]).Perm t.labels := by
  obtain ⟨rest, hrest, hperm⟩ := sweep_perm n (List.forall_mem_singleton.mpr ht)
  rw [List.map_singleton, h] at hrest
  simpa [List.map_eq_nil_iff.mp hrest.symm] using hperm

/-- The walk over a finite tree ends. -/
theorem advance_eq_nil (ht : t.Unfolds next) (h : t.labels.length ≤ n) :
    (advance next)^[n] [t.label] = [] := by
  obtain ⟨rest, hrest, hperm⟩ := sweep_perm n (List.forall_mem_singleton.mpr ht)
  by_contra hne
  have hlen := hperm.length_eq
  have hsweep := length_sweep hne
  cases rest with
  | nil => exact hne hrest
  | cons u rest =>
    have hu := List.length_pos_of_mem u.label_mem_labels
    simp at hlen hsweep
    omega

/-! ## Depth -/

variable {depth : α → Nat} (hdepth : ∀ a, ∀ b ∈ next a, depth b = depth a + 1)
include hdepth

/-- The items come in the order of their depth. -/
theorem sweep_sorted (n : Nat) (hqueue : queue.Pairwise (depth · ≤ depth ·))
    (hhead : ∀ a ∈ queue.head?, ∀ b ∈ queue, depth b ≤ depth a + 1) :
    (sweep next n queue).Pairwise (depth · ≤ depth ·) ∧
      ∀ a ∈ queue.head?, ∀ b ∈ sweep next n queue, depth a ≤ depth b := by
  induction n generalizing queue with
  | zero => simp
  | succ n ih =>
    cases queue with
    | nil => simp
    | cons a queue =>
      obtain ⟨ha, hqueue⟩ := List.pairwise_cons.mp hqueue
      have hle : ∀ b ∈ queue ++ next a, depth a ≤ depth b ∧ depth b ≤ depth a + 1 := by
        intro b hb
        rcases List.mem_append.mp hb with hb | hb
        · exact ⟨ha b hb, hhead a rfl b (List.mem_cons_of_mem a hb)⟩
        · have := hdepth a b hb
          omega
      have hsorted : (queue ++ next a).Pairwise (depth · ≤ depth ·) := by
        refine List.pairwise_append.mpr ⟨hqueue, ?_, fun b hb c hc => ?_⟩
        · exact List.pairwise_of_forall_mem_list fun b hb c hc =>
            Nat.le_of_eq ((hdepth a b hb).trans (hdepth a c hc).symm)
        · rw [hdepth a c hc]
          exact (hle b (List.mem_append_left _ hb)).2
      obtain ⟨htail, hfirst⟩ := ih hsorted fun b hb c hc => by
        have hb := (hle b (List.mem_of_mem_head? hb)).1
        have hc := (hle c hc).2
        omega
      have hlater : ∀ b ∈ sweep next n (queue ++ next a), depth a ≤ depth b := by
        intro b hb
        cases hq : queue ++ next a with
        | nil => simp [hq] at hb
        | cons c q =>
          have hc := hfirst c (by rw [hq]; rfl) b hb
          exact Nat.le_trans (hle c (by simp [hq])).1 hc
      refine ⟨List.pairwise_cons.mpr ⟨hlater, htail⟩, ?_⟩
      rintro _ ⟨⟩ b hb
      rcases List.mem_cons.mp hb with rfl | hb
      · exact Nat.le_refl _
      · exact hlater b hb

/-- With a way back, the label of a tree is a fixed number of steps above the labels in it. -/
theorem iterate_up (hup : ∀ a, ∀ b ∈ next a, up b = a) (ht : t.Unfolds next) (hb : b ∈ t.labels) :
    depth t.label ≤ depth b ∧ up^[depth b - depth t.label] b = t.label := by
  induction ht with
  | @node a cs h hcs ih =>
    rw [labels, List.mem_cons, List.mem_flatMap] at hb
    rcases hb with rfl | ⟨c, hc, hb⟩
    · simp
    · obtain ⟨hle, hup'⟩ := ih c hc hb
      have hmem : c.label ∈ next a := h ▸ List.mem_map_of_mem hc
      have hd := hdepth a _ hmem
      refine ⟨by rw [label_node]; omega, ?_⟩
      rw [label_node, show depth b - depth a = (depth b - depth c.label) + 1 by omega,
        Function.iterate_succ_apply', hup', hup a _ hmem]

/-- No item comes twice if each knows where it came from. -/
theorem labels_nodup (hup : ∀ a, ∀ b ∈ next a, up b = a) (hnext : ∀ a, (next a).Nodup)
    (ht : t.Unfolds next) : t.labels.Nodup := by
  induction ht with
  | @node a cs h hcs ih =>
    have hd : ∀ c ∈ cs, depth c.label = depth a + 1 := fun c hc =>
      hdepth a _ (h ▸ List.mem_map_of_mem hc)
    rw [labels, List.nodup_cons, List.nodup_flatMap]
    refine ⟨fun ha => ?_, ih, ?_⟩
    · obtain ⟨c, hc, ha⟩ := List.mem_flatMap.mp ha
      have := (iterate_up hdepth hup (hcs c hc) ha).1
      have := hd c hc
      omega
    · have hlabels := List.pairwise_map.mp (h ▸ hnext a)
      refine hlabels.imp_of_mem fun {c c'} hc hc' hne b hb hb' => hne ?_
      rw [← (iterate_up hdepth hup (hcs c hc) hb).2, ← (iterate_up hdepth hup (hcs c' hc') hb').2,
        hd c hc, hd c' hc']

end Gofusion.Lib
