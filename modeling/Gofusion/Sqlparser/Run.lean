import Gofusion.Sqlparser.Parser

/-!
# Runs of parsers

What a successful run of a sequence, of a branch and of the smallest parsers says
about the stream.  The `_ok` lemmas take a run apart and are simp lemmas, so that
`simp [parseX]` lists the ways a procedure can succeed.  The others run a parser
on a stream that is known.
-/

namespace Gofusion.Sqlparser

/-- The kind of the next token, `EOF` at the end of the stream. -/
def nextTok (ts : List Tok) : Token := (ts.headD ⟨.EOF, []⟩).tok

@[simp] theorem nextTok_cons (t : Tok) (ts : List Tok) : nextTok (t :: ts) = t.tok := rfl

@[simp] theorem kw_tok (t : Token) : (Tok.kw t).tok = t := rfl

theorem cur_tok (s : PState) : s.cur.tok = nextTok s.toks := rfl

@[simp] theorem cur_cons (t : Tok) (ts : List Tok) (b : Nat) : PState.cur ⟨t :: ts, b⟩ = t := rfl

@[simp] theorem next_cons (t : Tok) (ts : List Tok) (b : Nat) :
    PState.next ⟨t :: ts, b⟩ = ⟨ts, b⟩ := rfl

@[simp] theorem next_binds (s : PState) : s.next.binds = s.binds := rfl

theorem next_toks (s : PState) : s.next.toks = s.toks.tail := rfl

/-! ## Sequences and branches -/

variable {β : Type} {u : Unit} {ts : List Tok}

theorem bind_apply {α : Type} (p : Parser α) (f : α → Parser β) (s : PState) :
    (p >>= f).run s = match p.run s with
      | .error e => .error e
      | .ok (a, s') => (f a).run s' := rfl

variable {α : Type} {s s' : PState} {t : Token} {r : α × PState} {p : Parser α}

theorem bind_run {f : α → Parser β} {a : α} (h : p.run s = .ok (a, s')) :
    (p >>= f).run s = (f a).run s' := by
  rw [bind_apply, h]

@[simp low]
theorem bind_ok {f : α → Parser β} {r : β × PState} :
    (p >>= f).run s = .ok r ↔ ∃ a s', p.run s = .ok (a, s') ∧ (f a).run s' = .ok r := by
  rw [bind_apply]
  cases p.run s with
  | error e => simp
  | ok x =>
    obtain ⟨a, s'⟩ := x
    constructor
    · intro h
      exact ⟨a, s', rfl, h⟩
    · rintro ⟨a', s'', he, h⟩
      cases he
      exact h

@[simp] theorem ite_ok {c : Prop} [Decidable c] {p q : Parser α} :
    (if c then p else q).run s = .ok r ↔ c ∧ p.run s = .ok r ∨ ¬c ∧ q.run s = .ok r := by
  by_cases h : c <;> simp [h]

@[simp] theorem pure_apply (a : α) (s : PState) : (pure a : Parser α).run s = .ok (a, s) := rfl

@[simp] theorem fail_apply (e : ParseError) (s : PState) :
    (fail e : Parser α).run s = .error e := rfl

@[simp] theorem errorExpected_apply (w : String) (s : PState) :
    (errorExpected w : Parser α).run s = .error (.expected w s.cur) := rfl

@[simp] theorem peek_bind (f : Token → Parser α) (s : PState) :
    (peek >>= f).run s = (f (nextTok s.toks)).run s := rfl

@[simp] theorem lexTok_bind (f : Tok → Parser α) (s : PState) :
    (lexTok >>= f).run s = (f s.cur).run s.next := rfl

/-! ## Single tokens -/

theorem expect_ok {w : String} :
    (expect t w).run s = .ok (u, s') ↔ nextTok s.toks = t ∧ s.next = s' := by
  simp [expect]

theorem assertTok_ok : (assertTok t).run s = .ok (u, s') ↔ nextTok s.toks = t ∧ s.next = s' := by
  simp [assertTok]

theorem accept_ok {b : Bool} :
    (accept t).run s = .ok (b, s') ↔
      (nextTok s.toks = t ∧ true = b ∧ s.next = s') ∨
      (nextTok s.toks ≠ t ∧ false = b ∧ s = s') := by
  simp only [accept, peek_bind, ite_ok, lexTok_bind, pure_apply, Except.ok.injEq, Prod.mk.injEq,
    ne_eq]

@[simp] theorem expect_bind_ok {w : String} {f : Unit → Parser α} :
    (expect t w >>= f).run s = .ok r ↔ nextTok s.toks = t ∧ (f ()).run s.next = .ok r := by
  rw [bind_ok]
  constructor
  · rintro ⟨_, s', h, hr⟩
    obtain ⟨hc, rfl⟩ := expect_ok.mp h
    exact ⟨hc, hr⟩
  · rintro ⟨hc, hr⟩
    exact ⟨(), s.next, expect_ok.mpr ⟨hc, rfl⟩, hr⟩

@[simp] theorem assertTok_bind_ok {f : Unit → Parser α} :
    (assertTok t >>= f).run s = .ok r ↔ nextTok s.toks = t ∧ (f ()).run s.next = .ok r := by
  rw [bind_ok]
  constructor
  · rintro ⟨_, s', h, hr⟩
    obtain ⟨hc, rfl⟩ := assertTok_ok.mp h
    exact ⟨hc, hr⟩
  · rintro ⟨hc, hr⟩
    exact ⟨(), s.next, assertTok_ok.mpr ⟨hc, rfl⟩, hr⟩

@[simp] theorem accept_bind_ok {f : Bool → Parser α} :
    (accept t >>= f).run s = .ok r ↔
      (nextTok s.toks = t ∧ (f true).run s.next = .ok r) ∨
      (nextTok s.toks ≠ t ∧ (f false).run s = .ok r) := by
  rw [bind_ok]
  constructor
  · rintro ⟨b, s', h, hr⟩
    rcases accept_ok.mp h with ⟨hc, rfl, rfl⟩ | ⟨hc, rfl, rfl⟩
    · exact Or.inl ⟨hc, hr⟩
    · exact Or.inr ⟨hc, hr⟩
  · rintro (⟨hc, hr⟩ | ⟨hc, hr⟩)
    · exact ⟨true, s.next, accept_ok.mpr (Or.inl ⟨hc, rfl, rfl⟩), hr⟩
    · exact ⟨false, s, accept_ok.mpr (Or.inr ⟨hc, rfl, rfl⟩), hr⟩

theorem expect_kw (t : Token) (w : String) (ts : List Tok) (b : Nat) :
    (expect t w).run ⟨.kw t :: ts, b⟩ = .ok ((), ⟨ts, b⟩) :=
  expect_ok.mpr ⟨rfl, rfl⟩

theorem assertTok_kw (t : Token) (ts : List Tok) (b : Nat) :
    (assertTok t).run ⟨.kw t :: ts, b⟩ = .ok ((), ⟨ts, b⟩) :=
  assertTok_ok.mpr ⟨rfl, rfl⟩

theorem accept_kw (t : Token) (ts : List Tok) (b : Nat) :
    (accept t).run ⟨.kw t :: ts, b⟩ = .ok (true, ⟨ts, b⟩) :=
  accept_ok.mpr (Or.inl ⟨rfl, rfl, rfl⟩)

theorem accept_of_ne {b : Nat} (h : nextTok ts ≠ t) :
    (accept t).run ⟨ts, b⟩ = .ok (false, ⟨ts, b⟩) :=
  accept_ok.mpr (Or.inr ⟨h, rfl, rfl⟩)

/-! ## Loops and ranges -/

theorem sepList_ne_nil {n : Nat} {xs : List α} (h : (sepList p n).run s = .ok (xs, s')) :
    xs ≠ [] := by
  cases n with
  | zero => simp [sepList] at h
  | succ n =>
    simp [sepList] at h
    obtain ⟨x, s₁, -, ⟨-, ys, -, rfl⟩ | ⟨-, rfl, -⟩⟩ := h <;> simp

theorem parenList_ne_nil {n : Nat} {xs : List α} (h : (parenList p n).run s = .ok (xs, s')) :
    xs ≠ [] := by
  cases n with
  | zero => simp [parenList] at h
  | succ n =>
    simp [parenList] at h
    obtain ⟨x, s₁, -, ⟨-, rfl, -⟩ | ⟨-, -, ys, -, rfl⟩⟩ := h <;> simp

theorem argList_ok {n : Nat} {s s' : PState} {xs : List α}
    (h : (argList p (n + 1)).run s = .ok (xs, s')) :
    (nextTok s.toks = .RP ∧ xs = [] ∧ s' = s) ∨
    (nextTok s.toks ≠ .RP ∧ ∃ x s₁, p.run s = .ok (x, s₁) ∧
      (nextTok s₁.toks = .RP ∧ xs = [x] ∧ s' = s₁ ∨
        nextTok s₁.toks = .COMMA ∧
          ∃ ys, (argList p n).run s₁.next = .ok (ys, s') ∧ xs = x :: ys)) := by
  simp [argList] at h
  rcases h with ⟨hc, rfl, rfl⟩ | ⟨hc, x, s₁, hx, ⟨hc₁, rfl, rfl⟩ | ⟨-, hc₁, ys, hys, rfl⟩⟩
  · exact Or.inl ⟨hc, rfl, rfl⟩
  · exact Or.inr ⟨hc, x, _, hx, Or.inl ⟨hc₁, rfl, rfl⟩⟩
  · exact Or.inr ⟨hc, x, s₁, hx, Or.inr ⟨hc₁, ys, hys, rfl⟩⟩

theorem argList_ok_nil {n : Nat} {s s' : PState} (h : (argList p n).run s = .ok ([], s')) :
    nextTok s.toks = .RP ∧ s' = s := by
  cases n with
  | zero => simp [argList] at h
  | succ n =>
    rcases argList_ok h with ⟨hc, -, rfl⟩ | ⟨-, x, s₁, -, ⟨-, h, -⟩ | ⟨-, ys, -, h⟩⟩
    · exact ⟨hc, rfl⟩
    · cases h
    · cases h

theorem Node.conjuncts?_eq {r x y : Expr} (h : r.conjuncts? = some (x, y)) :
    r = .binaryExpr x .AND y := by
  unfold conjuncts? at h
  split at h
  · split at h
    · next hop =>
        cases h
        rw [hop]
    · cases h
  · cases h

/-! ## Statements -/

theorem parseOverriding_ok (h : parseOverriding.run s = .ok (u, s')) :
    nextTok s.toks ≠ .OVERRIDING ∧ s = s' := by
  simp [parseOverriding, expect_ok] at h
  rcases h with ⟨-, ⟨h₁ | h₁, h₂, -⟩⟩ | h
  · rw [h₁] at h₂
    cases h₂
  · rw [h₁] at h₂
    cases h₂
  · exact h

/-- A parse that succeeds ends at the end of the stream or at a semicolon. -/
theorem parseTokens_ok {a : Statement} (h : parseTokens ts = .ok a) :
    ∃ s', (parseStmt (procs (ts.length + 2))).run ⟨ts, 0⟩ = .ok (a, s') ∧
      (nextTok s'.toks = .EOF ∨ nextTok s'.toks = .SEMI) := by
  unfold parseTokens at h
  split at h
  · cases h
  · split at h
    · cases h
    · rename_i stmt s' hrun
      split at h
      · rename_i hend
        cases h
        exact ⟨s', hrun, hend⟩
      · cases h

end Gofusion.Sqlparser
