import Gofusion.Lib.Pipeline
import Mathlib.Data.List.Basic
import Mathlib.Data.List.Perm.Basic
import Mathlib.Data.List.Forall2
import Mathlib.Data.List.Nodup

/-!
# Grouping a list

`groupM` sorts the elements of a list into groups by a key that may fail to exist.  A map from
keys to lists is kept as a list of pairs in the order in which the keys came.
-/

namespace Gofusion.Lib

variable {α β κ ε : Type} [DecidableEq κ]

/-- `m[k] = append(m[k], a)`. -/
def addTo (k : κ) (a : α) : List (κ × List α) → List (κ × List α)
  | [] => [(k, [a])]
  | (k', as) :: gs => if k' = k then (k', as ++ [a]) :: gs else (k', as) :: addTo k a gs

/-- The groups of a list, or the first error of a key. -/
def groupM (key : α → Except ε κ) (src : List α) : Except ε (List (κ × List α)) :=
  src.foldlM (fun gs a => do
    let k ← key a
    return addTo k a gs) []

def withKey (key : α → Except ε κ) (k : κ) (src : List α) : List α :=
  src.filter fun a => (key a).toOption = some k

/-- Groups of a list by a key. -/
structure Grouped (key : α → Except ε κ) (src : List α) (gs : List (κ × List α)) : Prop where
  nodup : (gs.map Prod.fst).Nodup
  group : ∀ g ∈ gs, g.2 = withKey key g.1 src
  nonempty : ∀ g ∈ gs, g.2 ≠ []
  perm : (gs.flatMap Prod.snd).Perm src

section

variable {key : α → Except ε κ} {src : List α} {gs : List (κ × List α)} {k : κ} {a : α}

theorem keys_addTo : (addTo k a gs).map Prod.fst =
    gs.map Prod.fst ++ if k ∈ gs.map Prod.fst then [] else [k] := by
  induction gs with
  | nil => rfl
  | cons g gs ih =>
    obtain ⟨k', as⟩ := g
    rw [addTo]
    by_cases h : k' = k
    · subst h
      simp
    · have hmem : k ∈ k' :: gs.map Prod.fst ↔ k ∈ gs.map Prod.fst := by
        simp only [List.mem_cons, Ne.symm h, false_or]
      rw [if_neg h, List.map_cons, ih, List.map_cons, List.cons_append]
      simp only [hmem]

theorem addTo_perm : ((addTo k a gs).flatMap Prod.snd).Perm (gs.flatMap Prod.snd ++ [a]) := by
  induction gs with
  | nil => exact .refl _
  | cons g gs ih =>
    obtain ⟨k', as⟩ := g
    rw [addTo]
    split
    · simp only [List.flatMap_cons, List.append_assoc]
      exact (List.perm_append_comm).append_left as
    · simp only [List.flatMap_cons, List.append_assoc]
      exact ih.append_left as

/-- A group of the new map: the one of the element with the element behind it, or an old one. -/
theorem mem_addTo {g : κ × List α} (hnodup : (gs.map Prod.fst).Nodup) (h : g ∈ addTo k a gs) :
    (g.1 = k ∧ ((∃ as, (k, as) ∈ gs ∧ g.2 = as ++ [a]) ∨ k ∉ gs.map Prod.fst ∧ g.2 = [a])) ∨
      (g.1 ≠ k ∧ g ∈ gs) := by
  induction gs with
  | nil =>
    rw [addTo, List.mem_singleton] at h
    subst h
    exact .inl ⟨rfl, .inr ⟨List.not_mem_nil, rfl⟩⟩
  | cons g₀ gs ih =>
    obtain ⟨k', as⟩ := g₀
    rw [List.map_cons, List.nodup_cons] at hnodup
    rw [addTo] at h
    split at h
    · next hk =>
      subst hk
      rcases List.mem_cons.mp h with rfl | h
      · exact .inl ⟨rfl, .inl ⟨as, List.mem_cons_self, rfl⟩⟩
      · have hkey : g.1 ∈ gs.map Prod.fst := List.mem_map_of_mem h
        exact .inr ⟨fun hg => hnodup.1 (hg ▸ hkey), List.mem_cons_of_mem _ h⟩
    · next hk =>
      rcases List.mem_cons.mp h with rfl | h
      · exact .inr ⟨hk, List.mem_cons_self⟩
      · rcases ih hnodup.2 h with ⟨hg, ⟨as', hmem, heq⟩ | ⟨hno, heq⟩⟩ | ⟨hg, hmem⟩
        · exact .inl ⟨hg, .inl ⟨as', List.mem_cons_of_mem _ hmem, heq⟩⟩
        · exact .inl ⟨hg, .inr ⟨by simp [Ne.symm hk, hno], heq⟩⟩
        · exact .inr ⟨hg, List.mem_cons_of_mem _ hmem⟩

theorem withKey_append (k : κ) (src src' : List α) :
    withKey key k (src ++ src') = withKey key k src ++ withKey key k src' :=
  List.filter_append src src'

theorem withKey_singleton (h : key a = .ok k) (k' : κ) :
    withKey key k' [a] = if k' = k then [a] else [] := by
  rw [withKey, List.filter_singleton, h]
  by_cases hk : k' = k
  · subst hk
    simp [Except.toOption]
  · simp [Except.toOption, Ne.symm hk, hk]

theorem Grouped.nil (key : α → Except ε κ) : Grouped key [] [] :=
  ⟨List.nodup_nil, nofun, nofun, .refl _⟩

theorem Grouped.withKey_eq_nil (h : Grouped key src gs) (hk : k ∉ gs.map Prod.fst) :
    withKey key k src = [] := by
  refine List.filter_eq_nil_iff.mpr fun a ha hka => hk ?_
  obtain ⟨g, hg, hag⟩ := List.mem_flatMap.mp (h.perm.mem_iff.mpr ha)
  rw [h.group g hg, withKey, List.mem_filter] at hag
  have hkey : some g.1 = some k :=
    (of_decide_eq_true hag.2).symm.trans (of_decide_eq_true hka)
  exact Option.some.inj hkey ▸ List.mem_map_of_mem hg

theorem Grouped.add (h : Grouped key src gs) (hk : key a = .ok k) :
    Grouped key (src ++ [a]) (addTo k a gs) := by
  refine ⟨?_, fun g hg => ?_, fun g hg => ?_, addTo_perm.trans (h.perm.append_right [a])⟩
  · rw [keys_addTo]
    split
    · rw [List.append_nil]
      exact h.nodup
    · next hno =>
      refine List.nodup_append.mpr ⟨h.nodup, List.nodup_singleton k, fun k₁ h₁ k₂ h₂ heq => hno ?_⟩
      rw [List.mem_singleton] at h₂
      rwa [← h₂, ← heq]
  · rw [withKey_append, withKey_singleton hk]
    rcases mem_addTo h.nodup hg with ⟨hg, ⟨as, hmem, heq⟩ | ⟨hno, heq⟩⟩ | ⟨hg, hmem⟩
    · rw [heq, if_pos hg, hg, ← h.group _ hmem]
    · rw [heq, if_pos hg, hg, h.withKey_eq_nil hno]
      rfl
    · rw [if_neg hg, List.append_nil, h.group g hmem]
  · rcases mem_addTo h.nodup hg with ⟨-, ⟨as, -, heq⟩ | ⟨-, heq⟩⟩ | ⟨-, hmem⟩
    · rw [heq]
      simp
    · rw [heq]
      simp
    · exact h.nonempty g hmem

/-- What `groupM` returns is a grouping. -/
theorem groupM_spec (h : groupM key src = .ok gs) :
    Grouped key src gs ∧ ∀ a ∈ src, ∃ k, key a = .ok k := by
  have hfold : ∀ {done rest : List α} {acc : List (κ × List α)}, Grouped key done acc →
      (rest.foldlM (fun gs a => do
        let k ← key a
        return addTo k a gs) acc) = .ok gs →
      Grouped key (done ++ rest) gs ∧ ∀ a ∈ rest, ∃ k, key a = .ok k := by
    intro done rest
    induction rest generalizing done with
    | nil =>
      intro acc hacc h
      rw [List.foldlM_nil] at h
      cases h
      exact ⟨by rwa [List.append_nil], nofun⟩
    | cons a rest ih =>
      intro acc hacc h
      rw [List.foldlM_cons] at h
      obtain ⟨acc', hstep, hrest⟩ := bind_eq_ok.mp h
      obtain ⟨k, hk, hadd⟩ := bind_eq_ok.mp hstep
      cases hadd
      obtain ⟨hgrouped, hkeys⟩ := ih (hacc.add hk) hrest
      rw [List.append_assoc, List.singleton_append] at hgrouped
      refine ⟨hgrouped, fun b hb => ?_⟩
      rcases List.mem_cons.mp hb with rfl | hb
      · exact ⟨k, hk⟩
      · exact hkeys b hb
  exact hfold (Grouped.nil key) h

end

/-! ## Lists with the same keys -/

/-- Groups with the same keys and related elements. -/
def SameGroups (R : α → β → Prop) : List (κ × List α) → List (κ × List β) → Prop :=
  List.Forall₂ fun g g' => g.1 = g'.1 ∧ List.Forall₂ R g.2 g'.2

theorem SameGroups.addTo (hab : R a b)
    {gs' : List (κ × List β)} (h : SameGroups R gs gs') :
    SameGroups R (addTo k a gs) (addTo k b gs') := by
  induction h with
  | nil => exact .cons ⟨rfl, .cons hab .nil⟩ .nil
  | @cons g g' gs gs' hg hgs ih =>
    obtain ⟨k₁, as⟩ := g
    obtain ⟨k₂, bs⟩ := g'
    obtain ⟨hk, hbs⟩ := hg
    simp only at hk hbs
    subst hk
    rw [Lib.addTo, Lib.addTo]
    split
    · exact .cons ⟨rfl, List.rel_append hbs (.cons hab .nil)⟩ hgs
    · exact .cons ⟨rfl, hbs⟩ ih

theorem groupM_related {key : α → Except ε κ} {key' : β → Except ε κ} {R : α → β → Prop}
    (hkey : ∀ a b k, R a b → key a = .ok k → key' b = .ok k) {src : List α} {src' : List β}
    (h : List.Forall₂ R src src') {gs : List (κ × List α)} (hgs : groupM key src = .ok gs) :
    ∃ gs', groupM key' src' = .ok gs' ∧ SameGroups R gs gs' := by
  have hfold : ∀ {acc : List (κ × List α)} {acc' : List (κ × List β)}, SameGroups R acc acc' →
      (src.foldlM (fun gs a => do
        let k ← key a
        return Lib.addTo k a gs) acc) = .ok gs →
      ∃ gs', (src'.foldlM (fun gs b => do
        let k ← key' b
        return Lib.addTo k b gs) acc') = .ok gs' ∧ SameGroups R gs gs' := by
    clear hgs
    induction h with
    | nil =>
      intro acc acc' hacc h
      rw [List.foldlM_nil] at h
      cases h
      exact ⟨acc', rfl, hacc⟩
    | @cons a b src src' hab _ ih =>
      intro acc acc' hacc h
      rw [List.foldlM_cons] at h
      obtain ⟨acc₁, hstep, hrest⟩ := bind_eq_ok.mp h
      obtain ⟨k, hk, hadd⟩ := bind_eq_ok.mp hstep
      cases hadd
      obtain ⟨gs', hgs', hrel⟩ := ih (hacc.addTo hab) hrest
      refine ⟨gs', ?_, hrel⟩
      rw [List.foldlM_cons, hkey a b k hab hk]
      exact hgs'
  exact hfold .nil hgs

end Gofusion.Lib
