import Mathlib.Data.List.Forall2
import Gofusion.Lib.Pipeline

/-!
# Chunked transducers

A long input is cut into chunks of a fixed size, of which the last one may be shorter, and a
machine with a state turns one chunk after the other into an output.  A second machine undoes the
first if it undoes each chunk, from states that stay related, and every output is longer than its
chunk by the same number of elements: then the outputs are `Aligned` and are found again.
-/

namespace Gofusion.Lib

variable {α β σ τ ε : Type}

/-! ## Chunks -/

/-- The chunks of a list, at most `fuel` of them. -/
def chunksFrom (size : Nat) : Nat → List α → List (List α)
  | 0, _ => []
  | _ + 1, [] => []
  | fuel + 1, x :: xs => (x :: xs).take size :: chunksFrom size fuel ((x :: xs).drop size)

def chunks (size : Nat) (xs : List α) : List (List α) := chunksFrom size xs.length xs

/-- Chunks of one size, of which the last one may be shorter but not empty. -/
inductive Aligned (size : Nat) : List (List α) → Prop
  | nil : Aligned size []
  | last {b : List α} : b ≠ [] → b.length ≤ size → Aligned size [b]
  | cons {b : List α} {bs : List (List α)} : b.length = size → Aligned size bs →
    Aligned size (b :: bs)

variable {step : σ → List α → Except ε (List β × σ)} {bs : List (List α)} {cs : List (List β)}
  {b : List α}

variable {xs : List α} {s : σ} {ys : List β}

section

variable {size : Nat} (hsize : 0 < size)
include hsize

/-- More fuel does not change the chunks. -/
theorem chunksFrom_eq : ∀ {fuel fuel' : Nat} {xs : List α}, xs.length ≤ fuel → xs.length ≤ fuel' →
    chunksFrom size fuel xs = chunksFrom size fuel' xs
  | fuel, fuel', [], _, _ => by cases fuel <;> cases fuel' <;> rfl
  | fuel + 1, fuel' + 1, x :: xs, h, h' => by
    have hdrop : ((x :: xs).drop size).length ≤ xs.length := by
      rw [List.length_drop, List.length_cons]
      omega
    rw [List.length_cons] at h h'
    rw [chunksFrom, chunksFrom, chunksFrom_eq (by omega : _ ≤ fuel) (by omega : _ ≤ fuel')]

theorem chunks_append (hb : b.length = size) (xs : List α) :
    chunks size (b ++ xs) = b :: chunks size xs := by
  cases b with
  | nil => exact absurd hb (by simp; omega)
  | cons x b =>
    have htake : (x :: b ++ xs).take size = x :: b := hb ▸ List.take_left
    have hdrop : (x :: b ++ xs).drop size = xs := hb ▸ List.drop_left
    rw [chunks, List.cons_append, List.length_cons, chunksFrom, ← List.cons_append, htake, hdrop,
      chunks, chunksFrom_eq hsize (by simp) (Nat.le_refl _)]

omit hsize in
theorem chunks_last (hne : b ≠ []) (hb : b.length ≤ size) : chunks size b = [b] := by
  cases b with
  | nil => exact absurd rfl hne
  | cons x b =>
    rw [chunks, List.length_cons, chunksFrom, List.take_of_length_le hb, List.drop_of_length_le hb]
    cases b <;> rfl

theorem chunks_flatten (h : Aligned size bs) : chunks size bs.flatten = bs := by
  induction h with
  | nil => rfl
  | last hne hb => rw [List.flatten_singleton, chunks_last hne hb]
  | cons hb _ ih => rw [List.flatten_cons, chunks_append hsize hb, ih]

theorem chunks_eq_cons (hne : xs ≠ []) :
    chunks size xs = xs.take size :: chunks size (xs.drop size) := by
  by_cases hle : xs.length ≤ size
  · rw [chunks_last hne hle, List.take_of_length_le hle, List.drop_of_length_le hle]
    rfl
  · have htake : (xs.take size).length = size := List.length_take_of_le (by omega)
    exact (congrArg _ (List.take_append_drop size xs).symm).trans (chunks_append hsize htake _)

/-- The chunks are aligned and join to the list. -/
theorem chunks_spec (xs : List α) :
    Aligned size (chunks size xs) ∧ (chunks size xs).flatten = xs := by
  induction hn : xs.length using Nat.strongRecOn generalizing xs with
  | ind n ih =>
    by_cases hle : xs.length ≤ size
    · cases xs with
      | nil => exact ⟨.nil, rfl⟩
      | cons x xs =>
        rw [chunks_last (by simp) hle]
        exact ⟨.last (by simp) hle, by simp⟩
    · have htake : (xs.take size).length = size := by rw [List.length_take]; omega
      obtain ⟨haligned, hflatten⟩ := ih (xs.drop size).length
        (by rw [List.length_drop]; omega) (xs.drop size) rfl
      rw [← List.take_append_drop size xs, chunks_append hsize htake]
      exact ⟨.cons htake haligned, by rw [List.flatten_cons, hflatten]⟩

end

theorem Aligned.ne_nil (hsize : 0 < size) (h : Aligned size bs) :
    ∀ b ∈ bs, b ≠ [] ∧ b.length ≤ size := by
  induction h with
  | nil => nofun
  | last hne hb => simpa using ⟨hne, hb⟩
  | cons hb _ ih =>
    intro b' hb'
    rcases List.mem_cons.mp hb' with rfl | hmem
    · exact ⟨List.ne_nil_of_length_pos (by omega), by omega⟩
    · exact ih b' hmem

theorem Aligned.full (h : Aligned size bs) (hdvd : size ∣ bs.flatten.length) :
    ∀ b ∈ bs, b.length = size := by
  induction h with
  | nil => nofun
  | last hne hb =>
    have hpos := List.length_pos_iff.mpr hne
    rw [List.flatten_singleton] at hdvd
    simpa using Nat.le_antisymm hb (Nat.le_of_dvd hpos hdvd)
  | cons hb _ ih =>
    rw [List.flatten_cons, List.length_append, hb] at hdvd
    intro b' hb'
    rcases List.mem_cons.mp hb' with rfl | hmem
    · exact hb
    · exact ih ((Nat.dvd_add_right (Nat.dvd_refl size)).mp hdvd) b' hmem

/-- Only behind full chunks there are more. -/
theorem Aligned.full_or_nil : ∀ {bs cs : List (List α)}, Aligned size (bs ++ cs) →
    (∀ b ∈ bs, b.length = size) ∨ cs = []
  | [], _, _ => .inl nofun
  | b :: bs, cs, h => by
    generalize hall : b :: bs ++ cs = all at h
    cases h with
    | nil => cases hall
    | last => exact .inr (List.append_eq_nil_iff.mp (List.cons.inj hall).2).2
    | cons hb h =>
      obtain ⟨rfl, rfl⟩ := List.cons.inj hall
      exact h.full_or_nil.imp_left fun hbs => List.forall_mem_cons.mpr ⟨hb, hbs⟩

theorem dvd_length_flatten : ∀ {bs : List (List α)}, (∀ b ∈ bs, b.length = size) →
    size ∣ bs.flatten.length
  | [], _ => Nat.dvd_zero size
  | b :: bs, h => by
    obtain ⟨hb, hbs⟩ := List.forall_mem_cons.mp h
    rw [List.flatten_cons, List.length_append, hb]
    exact Nat.dvd_add (Nat.dvd_refl size) (dvd_length_flatten hbs)

/-- Behind full chunks the rest is cut as on its own. -/
theorem chunks_append_of_dvd (hsize : 0 < size) (hdvd : size ∣ xs.length) (ys : List α) :
    chunks size (xs ++ ys) = chunks size xs ++ chunks size ys := by
  obtain ⟨haligned, hflatten⟩ := chunks_spec hsize xs
  have hfull := haligned.full (hflatten.symm ▸ hdvd)
  rw [← congrArg (chunks size <| · ++ ys) hflatten]
  generalize chunks size xs = bs at hfull
  induction bs with
  | nil => rfl
  | cons b bs ih =>
    obtain ⟨hb, hbs⟩ := List.forall_mem_cons.mp hfull
    rw [List.flatten_cons, List.append_assoc, chunks_append hsize hb, ih hbs, List.cons_append]

/-- Longer chunks by the same number of elements are aligned for the larger size. -/
theorem Aligned.longer (h : Aligned size bs)
    (hlen : List.Forall₂ (fun b c => c.length = b.length + k) bs cs) : Aligned (size + k) cs := by
  induction h generalizing cs with
  | nil =>
    cases hlen
    exact .nil
  | last hne hb =>
    obtain _ | ⟨hc, hnil⟩ := hlen
    cases hnil
    have := List.length_pos_iff.mpr hne
    exact .last (List.ne_nil_of_length_pos (by omega)) (by omega)
  | cons hb _ ih =>
    obtain _ | ⟨hc, hrest⟩ := hlen
    exact .cons (by omega) (ih hrest)

theorem Aligned.shorter (h : Aligned (size + k) cs)
    (hlen : List.Forall₂ (fun b c => c.length = b.length + k) bs cs) (hne : ∀ b ∈ bs, b ≠ []) :
    Aligned size bs := by
  induction h generalizing bs with
  | nil =>
    cases hlen
    exact .nil
  | last _ hc =>
    obtain _ | ⟨hb, hnil⟩ := hlen
    cases hnil
    exact .last (hne _ List.mem_cons_self) (by omega)
  | cons hc _ ih =>
    obtain _ | ⟨hb, hrest⟩ := hlen
    exact .cons (by omega) (ih hrest fun b hb => hne b (List.mem_cons_of_mem _ hb))

theorem aligned_of_full : ∀ {bs : List (List α)}, (∀ b ∈ bs, b.length = size) →
    Aligned size bs
  | [], _ => .nil
  | b :: _, h => .cons (h b List.mem_cons_self)
    (aligned_of_full fun b' hb' => h b' (List.mem_cons_of_mem _ hb'))

theorem Aligned.eq_of_short (h : Aligned size bs)
    (hshort : ∀ b ∈ bs, b.length < size) : bs = [] ∨ ∃ b, bs = [b] := by
  cases h with
  | nil => exact .inl rfl
  | last => exact .inr ⟨_, rfl⟩
  | cons hb _ => exact absurd (hshort _ List.mem_cons_self) (by omega)

/-! ## Transducers -/

/-- The outputs for a list of chunks. -/
def transduce (step : σ → List α → Except ε (List β × σ)) : σ → List (List α) →
    Except ε (List (List β))
  | _, [] => .ok []
  | s, b :: bs => do
    let (c, s') ← step s b
    return c :: (← transduce step s' bs)

/-- The joined outputs for the chunks of a list. -/
def transduceAll (step : σ → List α → Except ε (List β × σ)) (s : σ) (size : Nat) (xs : List α) :
    Except ε (List β) :=
  (transduce step s (chunks size xs)).map List.flatten

/-- On chunks that `ok` holds of, every output of the first machine is longer by `k` than its
chunk, and the second machine undoes it.  `R` relates their states. -/
def Undone (enc : σ → List α → Except ε (List β × σ)) (dec : τ → List β → Except ε (List α × τ))
    (R : σ → τ → Prop) (ok : List α → Prop) (k : Nat) : Prop :=
  ∀ s t b c s', R s t → ok b → enc s b = .ok (c, s') →
    c.length = b.length + k ∧ ∃ t', dec t c = .ok (b, t') ∧ R s' t'

theorem transduce_cons_eq_ok : transduce step s (b :: bs) = .ok out ↔
      ∃ c s' cs, step s b = .ok (c, s') ∧ transduce step s' bs = .ok cs ∧ out = c :: cs := by
  rw [transduce, bind_eq_ok]
  constructor
  · rintro ⟨⟨c, s'⟩, hstep, hrest⟩
    obtain ⟨cs, hcs, hout⟩ := bind_eq_ok.mp hrest
    exact ⟨c, s', cs, hstep, hcs, (Except.ok.inj hout).symm⟩
  · rintro ⟨c, s', cs, hstep, hcs, rfl⟩
    exact ⟨(c, s'), hstep, bind_eq_ok.mpr ⟨cs, hcs, rfl⟩⟩

theorem transduce_total :
    ∀ {s : σ} {bs : List (List α)}, (∀ b ∈ bs, ∀ s, ∃ r, step s b = .ok r) →
      ∃ cs, transduce step s bs = .ok cs
  | _, [], _ => ⟨[], rfl⟩
  | s, b :: bs, h => by
    obtain ⟨⟨c, s'⟩, hstep⟩ := h b List.mem_cons_self s
    obtain ⟨cs, hcs⟩ := transduce_total fun b' hb' => h b' (List.mem_cons_of_mem _ hb')
    exact ⟨c :: cs, transduce_cons_eq_ok.mpr ⟨c, s', cs, hstep, hcs, rfl⟩⟩

theorem exists_of_transduce : ∀ {s : σ} {bs : List (List α)} {cs : List (List β)},
    transduce step s bs = .ok cs → ∀ b ∈ bs, ∃ s r, step s b = .ok r
  | _, [], _, _ => nofun
  | s, b :: bs, _, h => by
    obtain ⟨c, s', cs, hstep, hrest, rfl⟩ := transduce_cons_eq_ok.mp h
    exact List.forall_mem_cons.mpr ⟨⟨s, _, hstep⟩, exists_of_transduce hrest⟩

/-- A transducer fails at one of its chunks. -/
theorem exists_of_transduce_error : ∀ {s : σ} {bs : List (List α)},
    transduce step s bs = .error e → ∃ s, ∃ b ∈ bs, step s b = .error e
  | s, b :: bs, h => by
    rw [transduce] at h
    cases hstep : step s b with
    | error f =>
      rw [hstep] at h
      cases h
      exact ⟨s, b, List.mem_cons_self, hstep⟩
    | ok r =>
      cases hrest : transduce step r.2 bs with
      | error f =>
        simp only [hstep, bind, Except.bind, hrest, Except.error.injEq] at h
        obtain ⟨s', b', hb', hstep'⟩ := exists_of_transduce_error hrest
        exact ⟨s', b', List.mem_cons_of_mem _ hb', h ▸ hstep'⟩
      | ok cs => simp only [hstep, bind, Except.bind, hrest, pure, Except.pure, reduceCtorEq] at h

theorem transduceAll_eq_ok :
    transduceAll step s size xs = .ok ys ↔
      ∃ cs, transduce step s (chunks size xs) = .ok cs ∧ cs.flatten = ys := by
  rw [transduceAll]
  cases transduce step s (chunks size xs) <;> simp [Except.map]

/-- What comes out for a list of chunks before the machine fails, and how it fails. -/
def emit (step : σ → List α → Except ε (List β × σ)) : σ → List (List α) → List β × Option ε
  | _, [] => ([], none)
  | s, b :: bs =>
    match step s b with
    | .error e => ([], some e)
    | .ok (c, s') => (c ++ (emit step s' bs).1, (emit step s' bs).2)

/-- Emitting without a failure is transducing. -/
theorem emit_eq_iff :
    ∀ {s : σ} {bs : List (List α)}, emit step s bs = (ys, none) ↔
      ∃ cs, transduce step s bs = .ok cs ∧ cs.flatten = ys := by
  intro s bs
  induction bs generalizing s ys with
  | nil =>
    constructor
    · rintro ⟨⟩
      exact ⟨[], rfl, rfl⟩
    · rintro ⟨cs, ⟨⟩, rfl⟩
      rfl
  | cons b bs ih =>
    simp only [transduce_cons_eq_ok]
    rw [emit]
    cases hstep : step s b with
    | error e =>
      refine iff_of_false nofun ?_
      rintro ⟨cs, ⟨c, s', cs', h, -⟩, -⟩
      exact nomatch h
    | ok r =>
      obtain ⟨c, s'⟩ := r
      dsimp only
      constructor
      · intro h
        injection h with hout hend
        obtain ⟨cs, hcs, hflatten⟩ := ih.1 (Prod.ext rfl hend)
        exact ⟨c :: cs, ⟨c, s', cs, rfl, hcs, rfl⟩, by rw [List.flatten_cons, hflatten, hout]⟩
      · rintro ⟨cs, ⟨c, s', cs', ⟨⟩, hcs, rfl⟩, rfl⟩
        rw [ih.2 ⟨cs', hcs, rfl⟩, List.flatten_cons]

theorem length_flatten_longer
    (h : List.Forall₂ (fun b c => c.length = b.length + k) bs cs) :
    cs.flatten.length = bs.flatten.length + k * bs.length := by
  induction h with
  | nil => rfl
  | cons hc _ ih =>
    simp only [List.flatten_cons, List.length_append, List.length_cons, ih, hc, Nat.mul_succ]
    omega

section

variable {enc : σ → List α → Except ε (List β × σ)} {dec : τ → List β → Except ε (List α × τ)}
  {R : σ → τ → Prop} {ok : List α → Prop} {k : Nat}

/-- A list of outputs is undone chunk by chunk. -/
theorem Undone.transduce (h : Undone enc dec R ok k) : ∀ {s : σ} {t : τ} {bs : List (List α)}
    {cs : List (List β)}, R s t → (∀ b ∈ bs, ok b) → transduce enc s bs = .ok cs →
      Lib.transduce dec t cs = .ok bs ∧ List.Forall₂ (fun b c => c.length = b.length + k) bs cs
  | _, _, [], cs, _, _, henc => by
    cases Except.ok.inj henc
    exact ⟨rfl, .nil⟩
  | s, t, b :: bs, _, hR, hok, henc => by
    obtain ⟨c, s', cs, hstep, hrest, rfl⟩ := transduce_cons_eq_ok.mp henc
    obtain ⟨hlen, t', hdec, hR'⟩ := h s t b c s' hR (hok b List.mem_cons_self) hstep
    obtain ⟨hdecs, hlens⟩ :=
      h.transduce hR' (fun b' hb' => hok b' (List.mem_cons_of_mem _ hb')) hrest
    exact ⟨transduce_cons_eq_ok.mpr ⟨b, t', bs, hdec, hdecs, rfl⟩, .cons hlen hlens⟩

/-- The second machine undoes the first on a whole list. -/
theorem Undone.transduceAll (h : Undone enc dec R ok k) (hsize : 0 < size)
    (hR : R s t) (hok : ∀ b ∈ chunks size xs, ok b) (henc : transduceAll enc s size xs = .ok ys) :
    ys.length = xs.length + k * (chunks size xs).length ∧
      Lib.transduceAll dec t (size + k) ys = .ok xs := by
  obtain ⟨haligned, hflatten⟩ := chunks_spec hsize xs
  obtain ⟨cs, hcs, rfl⟩ := transduceAll_eq_ok.mp henc
  obtain ⟨hdec, hlen⟩ := h.transduce hR hok hcs
  -- the outputs are aligned for the larger size, so the second machine sees them one by one
  have hchunks : chunks (size + k) cs.flatten = cs :=
    chunks_flatten (by omega) (haligned.longer hlen)
  refine ⟨?_, transduceAll_eq_ok.mpr ⟨chunks size xs, ?_, hflatten⟩⟩
  · rw [length_flatten_longer hlen, hflatten]
  · rw [hchunks, hdec]

end

end Gofusion.Lib
