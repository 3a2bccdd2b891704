import Mathlib.Data.List.Induction

/-!
# Runs of state machines

Two kinds of machines over a list of events.

* A machine of calls answers every event with a next state and an outcome, `true`
  for a call that succeeds.  `runFrom` is the state behind a list of events.
* A machine of moves takes an event only where it is enabled.  `exec` is the state
  behind a list of moves, if all of them are.

For both, what a step keeps is kept by a run.  `exists_stretch` is the rule for something that
comes and goes in a run, `always_iff_never` the one for a law that some moves break.
-/

namespace Gofusion.Lib

variable {σ α : Type}

/-! ## Calls -/

def runFrom (step : σ → α → σ × Bool) (s : σ) (es : List α) : σ :=
  es.foldl (fun s e => (step s e).1) s

/-- The number of successful calls among those that `p` selects. -/
def successes (step : σ → α → σ × Bool) (p : α → Bool) : σ → List α → Nat
  | _, [] => 0
  | s, e :: es => (p e && (step s e).2).toNat + successes step p (step s e).1 es

variable {Inv : σ → Prop}

section

variable {step : σ → α → σ × Bool} {p : α → Bool}

@[simp] theorem runFrom_nil (s : σ) : runFrom step s [] = s := rfl

@[simp] theorem runFrom_cons (s : σ) (e : α) (es : List α) :
    runFrom step s (e :: es) = runFrom step (step s e).1 es := rfl

theorem runFrom_append (s : σ) (es es' : List α) :
    runFrom step s (es ++ es') = runFrom step (runFrom step s es) es' :=
  List.foldl_append

theorem runFrom_concat (s : σ) (es : List α) (e : α) :
    runFrom step s (es ++ [e]) = (step (runFrom step s es) e).1 := by
  rw [runFrom_append, runFrom_cons, runFrom_nil]

theorem successes_concat : ∀ (s : σ) (es : List α) (e : α),
    successes step p s (es ++ [e]) =
      successes step p s es + (p e && (step (runFrom step s es) e).2).toNat
  | _, [], _ => by simp [successes]
  | s, e' :: es, e => by
    rw [List.cons_append, successes, successes, successes_concat, runFrom_cons, Nat.add_assoc]

/-- What every step keeps, a run keeps. -/
theorem runFrom_invariant (hstep : ∀ s e, Inv s → Inv (step s e).1) :
    ∀ {s : σ} (es : List α), Inv s → Inv (runFrom step s es)
  | _, [], h => h
  | s, e :: es, h => runFrom_invariant hstep es (hstep s e h)

/-- A stretch of a run behind `before`: `P` fails before it and holds behind each of its
events. -/
structure Stretch (step : σ → α → σ × Bool) (P : σ → Prop) (s : σ) (before since : List α) :
    Prop where
  missing : ¬P (runFrom step s before)
  present : ∀ mid, mid ≠ [] → mid <+: since → P (runFrom step s (before ++ mid))

variable {P : σ → Prop} {s : σ}

variable {before : List α} {e : α}

theorem Stretch.singleton (hbefore : ¬P (runFrom step s before))
    (he : P (runFrom step s (before ++ [e]))) : Stretch step P s before [e] := by
  refine ⟨hbefore, fun mid hmid hpre => ?_⟩
  rcases List.prefix_cons_iff.mp hpre with rfl | ⟨rest, rfl, hrest⟩
  · exact absurd rfl hmid
  · rwa [List.prefix_nil.mp hrest]

theorem Stretch.concat (h : Stretch step P s before since)
    (he : P (runFrom step s (before ++ (since ++ [e])))) :
    Stretch step P s before (since ++ [e]) := by
  refine ⟨h.missing, fun mid hmid hpre => ?_⟩
  rcases List.prefix_concat_iff.mp hpre with rfl | hpre
  · exact he
  · exact h.present mid hmid hpre

/-- What is there behind a run came at some time, and has been there since. -/
theorem exists_stretch {Q : List α → List α → Prop} (hs : ¬P s)
    (hstart : ∀ before e, ¬P (runFrom step s before) →
      P (step (runFrom step s before) e).1 → Q before [e])
    (hnext : ∀ before since e, P (runFrom step s (before ++ since)) →
      P (step (runFrom step s (before ++ since)) e).1 → Q before since → Q before (since ++ [e]))
    (es : List α) (hes : P (runFrom step s es)) :
    ∃ before since, es = before ++ since ∧ Stretch step P s before since ∧ Q before since := by
  induction es using List.reverseRecOn with
  | nil => exact absurd hes hs
  | append_singleton es e ih =>
    by_cases hpre : P (runFrom step s es)
    · obtain ⟨before, since, rfl, hstretch, hq⟩ := ih hpre
      have hes' : P (runFrom step s (before ++ (since ++ [e]))) := by rwa [← List.append_assoc]
      rw [runFrom_concat] at hes
      exact ⟨before, since ++ [e], List.append_assoc .., hstretch.concat hes',
        hnext before since e hpre hes hq⟩
    · refine ⟨es, [e], rfl, .singleton hpre hes, hstart es e hpre ?_⟩
      rwa [runFrom_concat] at hes

end

/-! ## Moves -/

def exec (step : σ → α → Option σ) : σ → List α → Option σ
  | s, [] => some s
  | s, a :: as => (step s a).bind fun s' => exec step s' as

section

variable {step : σ → α → Option σ}

variable {s s' : σ} {as : List α} {a : α}

theorem exec_cons :
    exec step s (a :: as) = some s' ↔ ∃ m, step s a = some m ∧ exec step m as = some s' :=
  Option.bind_eq_some_iff

theorem exec_append : ∀ {as bs : List α},
    exec step s (as ++ bs) = some s' ↔ ∃ m, exec step s as = some m ∧ exec step m bs = some s' := by
  intro as
  induction as generalizing s with
  | nil => simp [exec]
  | cons a as ih =>
    intro bs
    rw [List.cons_append, exec_cons]
    constructor
    · rintro ⟨m, hm, h⟩
      obtain ⟨m', hm', h⟩ := ih.mp h
      exact ⟨m', exec_cons.mpr ⟨m, hm, hm'⟩, h⟩
    · rintro ⟨m', hm', h⟩
      obtain ⟨m, hm, hm'⟩ := exec_cons.mp hm'
      exact ⟨m, hm, ih.mpr ⟨m', hm', h⟩⟩

/-- What every move keeps is kept by a run. -/
theorem exec_invariant (hstep : ∀ {s a s'}, Inv s → step s a = some s' → Inv s') :
    ∀ {s s' : σ} {as : List α}, Inv s → exec step s as = some s' → Inv s'
  | _, _, [], h, he => Option.some.inj he ▸ h
  | _, _, _ :: _, h, he => by
    obtain ⟨m, hm, he⟩ := exec_cons.mp he
    exact exec_invariant hstep (hstep h hm) he

/-- If the moves that `p` selects decrease a measure and the others do not increase it, the
measure bounds their number. -/
theorem exec_countP_le {μ : σ → Nat} {p : α → Bool}
    (hstep : ∀ s a s', Inv s → step s a = some s' → Inv s' ∧ (p a).toNat + μ s' ≤ μ s) :
    ∀ {s s' : σ} {as : List α}, Inv s → exec step s as = some s' → as.countP p + μ s' ≤ μ s
  | s, s', [], _, he => by
    cases Option.some.inj he
    simp
  | s, s', a :: as, h, he => by
    obtain ⟨m, hm, he⟩ := exec_cons.mp he
    obtain ⟨hinv, hle⟩ := hstep s a m h hm
    have ih := exec_countP_le hstep hinv he
    have hcount : (a :: as).countP p = as.countP p + (p a).toNat := by
      cases hp : p a <;> simp [hp]
    omega

/-- `P` holds behind every part of the moves, the start and the end included. -/
def Always (step : σ → α → Option σ) (P : σ → Prop) (s : σ) (as : List α) : Prop :=
  ∀ bs m, bs <+: as → exec step s bs = some m → P m

/-- None of the moves that are made is bad in the state it is made in. -/
def Never (step : σ → α → Option σ) (bad : σ → α → Prop) (s : σ) (as : List α) : Prop :=
  ∀ bs a m m', bs ++ [a] <+: as → exec step s bs = some m → step m a = some m' → ¬bad m a

variable {P : σ → Prop} {bad : σ → α → Prop}

theorem always_nil : Always step P s [] ↔ P s := by
  constructor
  · intro h
    exact h [] s List.nil_prefix rfl
  · intro hs bs m hbs he
    cases List.prefix_nil.mp hbs
    exact Option.some.inj he ▸ hs

theorem never_nil : Never step bad s [] := by
  intro bs a m m' hbs
  exact absurd (List.prefix_nil.mp hbs) (by simp)

theorem always_cons :
    Always step P s (a :: as) ↔ P s ∧ ∀ m, step s a = some m → Always step P m as := by
  constructor
  · intro h
    refine ⟨h [] s List.nil_prefix rfl, fun m hm bs m' hbs he => ?_⟩
    exact h (a :: bs) m' (List.cons_prefix_cons.mpr ⟨rfl, hbs⟩) (exec_cons.mpr ⟨m, hm, he⟩)
  · rintro ⟨hs, h⟩ bs m' hbs he
    rcases List.prefix_cons_iff.mp hbs with rfl | ⟨cs, rfl, hcs⟩
    · exact Option.some.inj he ▸ hs
    · obtain ⟨m, hm, he⟩ := exec_cons.mp he
      exact h m hm cs m' hcs he

theorem never_cons :
    Never step bad s (a :: as) ↔ ∀ m, step s a = some m → ¬bad s a ∧ Never step bad m as := by
  constructor
  · intro h m hm
    refine ⟨h [] a s m ⟨as, rfl⟩ rfl hm, fun bs b m₁ m₂ hbs he => ?_⟩
    exact h (a :: bs) b m₁ m₂ (List.cons_prefix_cons.mpr ⟨rfl, hbs⟩) (exec_cons.mpr ⟨m, hm, he⟩)
  · intro h bs b m₁ m₂ hbs he hstep
    rcases bs with - | ⟨c, bs⟩
    · cases (List.cons_prefix_cons.mp hbs).1
      cases he
      exact (h m₂ hstep).1
    · obtain ⟨rfl, htail⟩ := List.cons_prefix_cons.mp hbs
      obtain ⟨m, hm, he⟩ := exec_cons.mp he
      exact (h m hm).2 bs b m₁ m₂ htail he hstep

/-- Where the other moves keep an invariant that implies `P` and every bad move breaks `P` at
once, `P` holds all along exactly if no move is bad. -/
theorem always_iff_never (hP : ∀ {s}, Inv s → P s)
    (hkeep : ∀ {s a s'}, Inv s → ¬bad s a → step s a = some s' → Inv s')
    (hbreak : ∀ {s a s'}, Inv s → bad s a → step s a = some s' → ¬P s') :
    ∀ {s : σ} (as : List α), Inv s → (Always step P s as ↔ Never step bad s as) := by
  intro s as hs
  induction as generalizing s with
  | nil => exact iff_of_true (always_nil.mpr (hP hs)) never_nil
  | cons a as ih =>
    rw [always_cons, never_cons, and_iff_right (hP hs)]
    refine forall₂_congr fun m hm => ?_
    by_cases hbad : bad s a
    · exact iff_of_false (fun h => hbreak hs hbad hm (h [] m List.nil_prefix rfl))
        fun h => h.1 hbad
    · rw [ih (hkeep hs hbad hm)]
      exact (and_iff_right hbad).symm

end

end Gofusion.Lib
