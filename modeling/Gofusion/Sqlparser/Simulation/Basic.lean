import Gofusion.Sqlparser.Shape

/-!
# Parsing what was printed

A parser that accepts a stream of tokens reads a row of parts, and it also accepts the tokens of
this row, and of every row that differs from it in names only.  `SimFrom` says both of a parser,
and one rule for each way to build a parser says it of every procedure.

A parser looks one token ahead, so what it does depends on the token behind its result.  In the
printed stream this token is mostly the one of the source.  `Follow S t t'` says so, up to a list
`S` of tokens that end every construct.
-/

namespace Gofusion.Sqlparser

/-! ## The next token -/

/-- The token behind a result in the printed stream is the one of the source, or one of `S`.  An
`AS` is only added where the source has an identifier. -/
def Follow (S : List Token) (t t' : Token) : Prop :=
  t' = t ∨ t' ∈ S ∧ (t' = .AS → t.isIdent = true)

variable {P : Token → Prop}

section

variable {S S' : List Token} {t t' x : Token}

theorem Follow.mono (h : Follow S t t') (hS : S ⊆ S') : Follow S' t t' :=
  h.imp_right fun hm => ⟨hS hm.1, hm.2⟩

/-- What neither the token of the source nor those of `S` satisfy, the next token does not
satisfy. -/
theorem Follow.not (h : Follow S t t') (ht : ¬P t) (hS : ∀ x ∈ S, ¬P x) : ¬P t' := by
  rcases h with rfl | h
  · exact ht
  · exact hS _ h.1

theorem Follow.ne (h : Follow S t t') (ht : t ≠ x) (hx : x ∉ S) : t' ≠ x :=
  h.not (P := (· = x)) ht fun _ hy he => hx (he ▸ hy)

theorem Follow.of_mem (h : t' ∈ S) (hne : t' ≠ .AS) : Follow S t t' :=
  .inr ⟨h, fun he => absurd he hne⟩

theorem Follow.self (hne : x ≠ .AS) : Follow [x] t x := .of_mem List.mem_cons_self hne

theorem Follow.eq (h : Follow [] t t') : t' = t :=
  h.resolve_right fun hm => List.not_mem_nil hm.1

end

def exprStop : List Token := [.AS, .RP, .OFFSET, .ROWS, .EOF]

/-- The token that ends every statement. -/
def stmtStop : List Token := [.EOF]

def identToks : List Token := [.IDENT, .QIDENT]

/-- The leaves whose kind may change when they are printed. -/
def leafToks : List Token := [.IDENT, .QIDENT, .FLOAT, .INTEGER]

/-! ## Rows that differ in names -/

/-- The names of functions are printed without their quotes. -/
def Part.bare : Part → Part := Part.mapIdents Ident.unquote id

/-- The rows differ in names only. -/
def Like (row row' : List Part) : Prop :=
  row'.map (Part.mapIdents Ident.blank Ident.blank) = row.map (Part.mapIdents Ident.blank Ident.blank)

def toksOf (row : List Part) : List Tok := row.flatMap Part.toks

def Part.isName : Part → Bool
  | name _ | called _ | column _ | func _ | assigned _ => true
  | _ => false

section

variable {p q : Part} {ps qs row : List Part}

theorem toksOf_append : toksOf (ps ++ qs) = toksOf ps ++ toksOf qs := List.flatMap_append

theorem Like.append (h : Like (ps ++ qs) row) :
    ∃ ps' qs', row = ps' ++ qs' ∧ Like ps ps' ∧ Like qs qs' := by
  rw [Like, List.map_append, List.map_eq_append_iff] at h
  exact h

theorem Like.append_left (h : Like ps row) (rs : List Part) : Like (rs ++ ps) (rs ++ row) := by
  rw [Like, List.map_append, List.map_append, h]

theorem Like.nil (h : Like [] row) : row = [] := List.map_eq_nil_iff.mp h

theorem Like.cons (h : Like (p :: ps) row) : ∃ q qs, row = q :: qs ∧
    q.mapIdents Ident.blank Ident.blank = p.mapIdents Ident.blank Ident.blank ∧ Like ps qs := by
  rw [Like, List.map_cons, List.map_eq_cons_iff] at h
  exact h

theorem Like.singleton (h : Like [p] row) : ∃ q, row = [q] ∧
    q.mapIdents Ident.blank Ident.blank = p.mapIdents Ident.blank Ident.blank := by
  obtain ⟨q, qs, rfl, hq, h⟩ := h.cons
  obtain rfl := h.nil
  exact ⟨q, rfl, hq⟩

theorem Part.mapIdents_of_not_isName {f g : Ident → Ident} (h : p.isName = false) :
    p.mapIdents f g = p := by
  cases p <;> first | rfl | cases h

theorem Part.eq_of_blank (h : p.isName = false)
    (hq : q.mapIdents Ident.blank Ident.blank = p.mapIdents Ident.blank Ident.blank) : q = p := by
  rw [mapIdents_of_not_isName h] at hq
  subst hq
  cases q <;> first | rfl | cases h

theorem Part.length_toks (f g : Ident → Ident) (p : Part) :
    (p.mapIdents f g).toks.length = p.toks.length := by
  cases p <;> rfl

theorem Like.length (h : Like ps row) : row.length = ps.length := by
  simpa using congrArg List.length h

theorem Like.length_toks (h : Like ps row) : (toksOf row).length = (toksOf ps).length := by
  simpa [toksOf, List.length_flatMap, Function.comp_def, Part.length_toks] using
    congrArg (fun r : List Part => (r.map fun p => p.toks.length).sum) h

theorem Like.mem (h : Like ps row) (hp : p.isName = false) (hm : p ∈ ps) : p ∈ row := by
  have hm := List.mem_map_of_mem (f := Part.mapIdents Ident.blank Ident.blank) hm
  rw [← h] at hm
  obtain ⟨q, hq, he⟩ := List.mem_map.mp hm
  exact Part.eq_of_blank hp he ▸ hq

/-- A row without names. -/
def Nameless (row : List Part) : Prop := ∀ p ∈ row, p.isName = false

theorem Like.eq (hn : Nameless ps) (h : Like ps row) : row = ps := by
  induction ps generalizing row with
  | nil => exact h.nil
  | cons p ps ih =>
    obtain ⟨hp, hn⟩ := List.forall_mem_cons.mp hn
    obtain ⟨q, qs, rfl, hq, h⟩ := h.cons
    rw [Part.eq_of_blank hp hq, ih hn h]

theorem Nameless.bare (hn : Nameless ps) : ps.map Part.bare = ps := by
  induction ps with
  | nil => rfl
  | cons p ps ih =>
    obtain ⟨hp, hn⟩ := List.forall_mem_cons.mp hn
    rw [List.map_cons, ih hn, Part.bare, Part.mapIdents_of_not_isName hp]

end

/-! ## Words -/

/-- The part has no tokens, and the parser is always in front of it. -/
def Part.silent : Part → Bool
  | space | trailing _ => true
  | joined b | check b => b
  | _ => false

def Part.writes (t : Token) : Part → Bool
  | word u | mark u | sign u => u = t
  | unary u => u = t && (t = .PLUS || t = .MINUS)
  | op u => u = t && t = .EQ
  | _ => false

/-- The row stands for the token `t`. -/
def writes (t : Token) : List Part → Bool
  | [] => false
  | p :: ps => if p.silent then writes t ps else p.writes t && ps.all Part.silent

section

variable {p : Part} {ps : List Part} {ts : List Tok} {t : Token}

theorem Part.silent_spec (h : p.silent = true) (ts : List Tok) :
    p.Reads ts ts ∧ p.toks = [] ∧ p.isName = false := by
  cases p with
  | space => exact ⟨rfl, rfl, rfl⟩
  | trailing u => exact ⟨.inl rfl, rfl, rfl⟩
  | joined b | check b => exact ⟨⟨h, rfl⟩, rfl, rfl⟩
  | _ => cases h

theorem Part.writes_spec (h : p.writes t = true) :
    (nextTok ts = t → p.Reads ts ts.tail) ∧ p.toks = [.kw t] ∧ p.isName = false := by
  cases p with
  | word u | sign u =>
    cases of_decide_eq_true h
    exact ⟨fun _ => rfl, rfl, rfl⟩
  | mark u =>
    cases of_decide_eq_true h
    exact ⟨fun ht => ⟨ht, rfl⟩, rfl, rfl⟩
  | unary u =>
    simp only [writes, Bool.and_eq_true, Bool.or_eq_true, decide_eq_true_eq] at h
    obtain ⟨rfl, h⟩ := h
    exact ⟨fun _ => ⟨h, rfl⟩, rfl, rfl⟩
  | op u =>
    simp only [writes, Bool.and_eq_true, decide_eq_true_eq] at h
    obtain ⟨rfl, rfl⟩ := h
    exact ⟨fun ht => .inr (.inr ⟨ht, nofun, rfl⟩), rfl, rfl⟩
  | _ => cases h

/-- A row without a token reads and prints nothing. -/
theorem silent_spec (h : ps.all Part.silent = true) (ts : List Tok) :
    Reads ps ts ts ∧ toksOf ps = [] ∧ Nameless ps := by
  induction ps with
  | nil => exact ⟨rfl, rfl, nofun⟩
  | cons p ps ih =>
    rw [List.all_cons, Bool.and_eq_true] at h
    obtain ⟨hr, ht, hn⟩ := Part.silent_spec h.1 ts
    obtain ⟨hrs, hts, hns⟩ := ih h.2
    exact ⟨.cons hr hrs, by rw [toksOf, List.flatMap_cons, ht]; exact hts,
      List.forall_mem_cons.mpr ⟨hn, hns⟩⟩

/-- A row that stands for one token prints it, and reads it where it is next. -/
theorem writes_spec (h : writes t ps = true) (ts : List Tok) :
    (nextTok ts = t → Reads ps ts ts.tail) ∧ toksOf ps = [.kw t] ∧ Nameless ps := by
  induction ps with
  | nil => cases h
  | cons p ps ih =>
    rw [writes] at h
    rw [toksOf, List.flatMap_cons]
    split at h
    · next hp =>
      obtain ⟨hr, hp, hn⟩ := Part.silent_spec hp ts
      obtain ⟨hrs, hts, hns⟩ := ih h
      exact ⟨fun ht => .cons hr (hrs ht), by rw [hp]; exact hts, List.forall_mem_cons.mpr ⟨hn, hns⟩⟩
    · rw [Bool.and_eq_true] at h
      obtain ⟨hr, hp, hn⟩ := Part.writes_spec h.1
      obtain ⟨hrs, hts, hns⟩ := silent_spec h.2 ts.tail
      exact ⟨fun ht => .cons (hr ht) hrs, by rw [hp]; exact congrArg (Tok.kw t :: ·) hts,
        List.forall_mem_cons.mpr ⟨hn, hns⟩⟩

end

/-! ## The relation -/

/-- What a result is printed as, and what is left of it without its names. -/
structure Form (α : Type) where
  Shape : Type
  shape : α → Shape
  parts : α → List Part

/-- A run of the source that returned `a` has read the parts of `a` behind `pre`.  From the tokens
of these parts, with other names in them, `q` returns what they are the parts of behind `pre'`.
`S` are the tokens that may end the row, `H` those that may start it instead of the source's. -/
def SimRun {α : Type} (F : Form α) (S H : List Token) (L : Nat) (pre pre' : List Part)
    (q : Parser α) (a : α) (s s' : PState) : Prop :=
  ∃ row, F.parts a = pre ++ row ∧ Reads row s.toks s'.toks ∧
    ∀ ⦃row' : List Part⦄, Like row row' → (∀ p ∈ row', p.legible = true) →
      (toksOf row').length < L → ∀ ⦃ts : List Tok⦄, Follow S (nextTok s'.toks) (nextTok ts) →
        Follow H (nextTok s.toks) (nextTok (toksOf row' ++ ts)) ∧
        ∃ b, F.shape b = F.shape a ∧ F.parts b = pre' ++ row'.map Part.bare ∧
          q.run ⟨toksOf row' ++ ts, s.binds⟩ = .ok (b, ⟨ts, s'.binds⟩)

/-- Behind `pre`, the parser `p` reads the parts of its result, and behind `pre'`, the parser `q`
reads them back. -/
def SimFrom {α : Type} (F : Form α) (S H : List Token) (L : Nat) (pre pre' : List Part)
    (p q : Parser α) : Prop :=
  ∀ ⦃s : PState⦄ ⦃a : α⦄ ⦃s' : PState⦄, p.run s = .ok (a, s') → SimRun F S H L pre pre' q a s s'

abbrev Sim {α : Type} (F : Form α) (S H : List Token) (L : Nat) (p q : Parser α) : Prop :=
  SimFrom F S H L [] [] p q

section

variable {α β : Type} {F : Form α} {G : Form β} {S S' H K : List Token} {L L' : Nat}
  {pre pre' : List Part} {p q : Parser α} {a : α} {s s' s₁ : PState} {t : Token}

/-! ### Runs -/

/-- Fewer tokens that end a row, more that start one, less fuel. -/
theorem SimRun.weaken (h : SimRun F S H L pre pre' q a s s') (hS : S' ⊆ S) (hH : H ⊆ K)
    (hL : L' ≤ L) : SimRun F S' K L' pre pre' q a s s' := by
  obtain ⟨row, hrow, hread, hback⟩ := h
  refine ⟨row, hrow, hread, fun row' hlike hleg hlen ts hf => ?_⟩
  obtain ⟨hf', hb⟩ := hback hlike hleg (Nat.lt_of_lt_of_le hlen hL) (hf.mono hS)
  exact ⟨hf'.mono hH, hb⟩

theorem SimRun.shorten (h : SimRun F S H L pre pre' q a s s') (hL : L' ≤ L) :
    SimRun F S H L' pre pre' q a s s' :=
  h.weaken (List.Subset.refl _) (List.Subset.refl _) hL

theorem SimRun.atHead (h : SimRun F S [] L pre pre' q a s s') : SimRun F S H L pre pre' q a s s' :=
  h.weaken (List.Subset.refl _) (List.nil_subset _) (Nat.le_refl _)

theorem SimRun.lower (h : SimRun F S H (L + 1) pre pre' q a s s') :
    SimRun F S H L pre pre' q a s s' :=
  h.shorten (Nat.le_succ _)

theorem SimRun.illegible {row : List Part} (hrow : F.parts a = pre ++ row)
    (hread : Reads row s.toks s'.toks) (hbad : .joined false ∈ row) :
    SimRun F S H L pre pre' q a s s' := by
  refine ⟨row, hrow, hread, fun row' hlike hleg => ?_⟩
  cases hleg _ (hlike.mem rfl hbad)

/-- The same parts behind others, as the parts of something else. -/
theorem SimRun.reform {G : Form α} (h : SimRun F S H L [] [] q a s s')
    (ha : G.parts a = pre ++ F.parts a)
    (hb : ∀ b, F.shape b = F.shape a → G.shape b = G.shape a ∧ G.parts b = pre' ++ F.parts b) :
    SimRun G S H L pre pre' q a s s' := by
  obtain ⟨row, hrow, hread, hback⟩ := h
  refine ⟨row, ha.trans (congrArg (pre ++ ·) hrow), hread, fun row' hlike hleg hlen ts hf => ?_⟩
  obtain ⟨hh, b, hshape, hpb, hq⟩ := hback hlike hleg hlen hf
  exact ⟨hh, b, (hb b hshape).1, (hb b hshape).2.trans (congrArg (pre' ++ ·) hpb), hq⟩

variable {q' : Parser α} {b x : α} {g : α → Parser β} {c u : β} {M m k : Nat} {e : Parser β}
  {sep : List Part} {xs : List α}

/-- No row is shorter than the empty one. -/
theorem SimRun.zero (h : SimRun F S H L pre pre' q a s s') :
    SimRun F S' K 0 pre pre' q' a s s' := by
  obtain ⟨row, hrow, hread, -⟩ := h
  exact ⟨row, hrow, hread, fun _ _ _ hlen => absurd hlen (Nat.not_lt_zero _)⟩

/-- A parser that reads nothing. -/
theorem SimRun.pure (h : F.shape b = F.shape a) (ha : F.parts a = pre) (hb : F.parts b = pre') :
    SimRun F S S L pre pre' (Pure.pure b) a s s := by
  refine ⟨[], ha.trans (List.append_nil _).symm, rfl, fun row' hlike _ _ ts hf => ?_⟩
  obtain rfl := hlike.nil
  exact ⟨hf, b, h, hb.trans (List.append_nil _).symm, rfl⟩

/-- What the first part has read need not be read by the second one. -/
theorem SimRun.bindFrom {e e' : List Part} (ha : SimRun F S' H M e e' q a s s₁)
    (hM : ∀ r, Like (F.parts a) (e ++ r) → (∀ p ∈ r, p.legible = true) → M ≤ L + (toksOf r).length)
    (hc : ∀ b, F.shape b = F.shape a →
      SimRun G S K L (pre ++ F.parts a) (pre' ++ F.parts b) (g b) c s₁ s') (hS : K ⊆ S') :
    SimRun G S H M (pre ++ e) (pre' ++ e') (q >>= g) c s s' := by
  obtain ⟨r₁, hr₁, hread₁, hback₁⟩ := ha
  obtain ⟨r₂, hr₂, hread₂, hback₂⟩ := hc a rfl
  rw [hr₁] at hM
  refine ⟨r₁ ++ r₂, by rw [hr₂, hr₁]; simp, hread₁.append hread₂, ?_⟩
  intro row' hlike hleg hlen ts hfol
  obtain ⟨r₁', r₂', rfl, hl₁, hl₂⟩ := hlike.append
  obtain ⟨hleg₁, hleg₂⟩ := List.forall_mem_append.mp hleg
  have hM := hM r₁' (hl₁.append_left e) hleg₁
  rw [toksOf_append, List.length_append] at hlen
  obtain ⟨hf₁, -⟩ := hback₂ hl₂ hleg₂ (by omega) hfol
  obtain ⟨hh, b, hb, hpb, hq⟩ := hback₁ hl₁ hleg₁ (by omega) (hf₁.mono hS)
  obtain ⟨r, hr, -, hback⟩ := hc b hb
  obtain rfl := List.append_cancel_left (hr₂.symm.trans hr)
  obtain ⟨-, c', hc', hpc, hq'⟩ := hback hl₂ hleg₂ (by omega) hfol
  rw [toksOf_append, List.append_assoc, List.map_append]
  refine ⟨hh, c', hc', ?_, (bind_run hq).trans hq'⟩
  rw [hpc, hpb]
  simp only [List.append_assoc]

theorem SimRun.bindAt (ha : SimRun F S' H M [] [] q a s s₁)
    (hM : ∀ r, Like (F.parts a) r → (∀ p ∈ r, p.legible = true) → M ≤ L + (toksOf r).length)
    (hc : ∀ b, F.shape b = F.shape a →
      SimRun G S K L (pre ++ F.parts a) (pre' ++ F.parts b) (g b) c s₁ s') (hS : K ⊆ S') :
    SimRun G S H M pre pre' (q >>= g) c s s' := by
  have h := ha.bindFrom hM hc hS
  rwa [List.append_nil, List.append_nil] at h

/-- Two parsers one after the other. -/
theorem SimRun.bind (ha : SimRun F S' H L [] [] q a s s₁) (hc : ∀ b, F.shape b = F.shape a →
      SimRun G S K L (pre ++ F.parts a) (pre' ++ F.parts b) (g b) c s₁ s') (hS : K ⊆ S') :
    SimRun G S H L pre pre' (q >>= g) c s s' :=
  ha.bindAt (fun _ _ _ => Nat.le_add_right ..) hc hS

theorem SimRun.seq (ha : SimRun F K H L [] [] q a s s₁) (hc : ∀ b, F.shape b = F.shape a →
      SimRun G S K L (pre ++ F.parts a) (pre' ++ F.parts b) (g b) c s₁ s') :
    SimRun G S H L pre pre' (q >>= g) c s s' := ha.bind hc (List.Subset.refl _)

/-- Parts without a token. -/
theorem SimRun.silent (ws : List Part) (hws : ws.all Part.silent = true)
    (h : SimRun F S H L (pre ++ ws) (pre' ++ ws) q a s s') : SimRun F S H L pre pre' q a s s' := by
  obtain ⟨row, hrow, hread, hback⟩ := h
  obtain ⟨hr₀, ht₀, hn₀⟩ := silent_spec hws s.toks
  refine ⟨ws ++ row, by rw [hrow, List.append_assoc], hr₀.append hread, ?_⟩
  intro row' hlike hleg hlen ts hf
  obtain ⟨_, r', rfl, hl₀, hl⟩ := hlike.append
  obtain rfl := hl₀.eq hn₀
  rw [toksOf_append, ht₀, List.nil_append] at hlen ⊢
  obtain ⟨hh, b, hb, hpb, hq⟩ := hback hl (List.forall_mem_append.mp hleg).2 hlen hf
  exact ⟨hh, b, hb, by rw [hpb, List.map_append, hn₀.bare, List.append_assoc], hq⟩

/-- A token that is read.  The printed one may be another. -/
theorem SimRun.lex (ws : List Part) (hws : writes t ws = true)
    (hread₀ : Reads ws s.toks s.next.toks) (hH : Follow H (nextTok s.toks) t) {g : β → Parser α}
    (he : ∀ us b, e.run ⟨.kw t :: us, b⟩ = .ok (u, ⟨us, b⟩))
    (h : SimRun F S K L (pre ++ ws) (pre' ++ ws) (g u) a s.next s') :
    SimRun F S H (L + 1) pre pre' (e >>= g) a s s' := by
  obtain ⟨row, hrow, hread, hback⟩ := h
  obtain ⟨-, ht₀, hn₀⟩ := writes_spec hws []
  refine ⟨ws ++ row, by rw [hrow, List.append_assoc], hread₀.append hread, ?_⟩
  intro row' hlike hleg hlen ts hf
  obtain ⟨_, r', rfl, hl₀, hl⟩ := hlike.append
  obtain rfl := hl₀.eq hn₀
  rw [toksOf_append, ht₀] at hlen ⊢
  obtain ⟨-, b, hb, hpb, hq⟩ := hback hl (List.forall_mem_append.mp hleg).2
    (Nat.lt_of_succ_lt_succ hlen) hf
  refine ⟨hH, b, hb, by rw [hpb, List.map_append, hn₀.bare, List.append_assoc], ?_⟩
  exact (bind_run (he _ _)).trans hq

/-- A word that both runs read. -/
theorem SimRun.same (ws : List Part) (hws : writes t ws = true) (ht : nextTok s.toks = t)
    {g : β → Parser α} (he : ∀ us b, e.run ⟨.kw t :: us, b⟩ = .ok (u, ⟨us, b⟩))
    (h : SimRun F S K L (pre ++ ws) (pre' ++ ws) (g u) a s.next s') :
    SimRun F S [] (L + 1) pre pre' (e >>= g) a s s' :=
  .lex ws hws ((writes_spec hws s.toks).1 ht) (.inl ht.symm) he h

/-- What `q` reads back, every parser that does the same on streams that start so reads back. -/
theorem SimRun.head (h : SimRun F S H L pre pre' q a s s')
    (hq : ∀ us b, Follow H (nextTok s.toks) (nextTok us) → q'.run ⟨us, b⟩ = q.run ⟨us, b⟩) :
    SimRun F S H L pre pre' q' a s s' := by
  obtain ⟨row, hrow, hread, hback⟩ := h
  refine ⟨row, hrow, hread, fun row' hlike hleg hlen ts hf => ?_⟩
  obtain ⟨hh, b, hb, hpb, hrun⟩ := hback hlike hleg hlen hf
  exact ⟨hh, b, hb, hpb, (hq _ _ hh).trans hrun⟩

/-- The source takes the first side of a branch, and every other token the printed stream may show
leads there too. -/
theorem SimRun.pos [DecidablePred P] {f : Token → Parser α} (hc : P (nextTok s.toks))
    (hP : ∀ x ∈ H, P x) (h : SimRun F S H L pre pre' q a s s') :
    SimRun F S H L pre pre' (peek >>= fun t => if P t then q else f t) a s s' := by
  refine h.head fun us b hu => ?_
  have hc' : P (nextTok us) := by
    rcases hu with hu | hu
    · exact hu ▸ hc
    · exact hP _ hu.1
  rw [peek_bind, if_pos (by exact hc')]

/-- The source takes the second side of a branch, and so does every other token the printed stream
may show. -/
theorem SimRun.neg [DecidablePred P] (hc : ¬P (nextTok s.toks)) (hP : ∀ x ∈ H, ¬P x)
    (h : SimRun F S H L pre pre' q' a s s') :
    SimRun F S H L pre pre' (peek >>= fun t => if P t then q else q') a s s' :=
  h.head fun _ _ hu => by rw [peek_bind, if_neg (hu.not hc hP)]

theorem SimRun.congr (h : SimRun F S [] L pre pre' q a s s')
    (hq : ∀ us b, nextTok us = nextTok s.toks → q'.run ⟨us, b⟩ = q.run ⟨us, b⟩) :
    SimRun F S H L pre pre' q' a s s' :=
  (h.head fun us b hu => hq us b hu.eq).atHead

/-! ### Parsers -/

namespace SimFrom

theorem weaken (h : SimFrom F S H L pre pre' p q) (hS : S' ⊆ S) (hH : H ⊆ K) (hL : L' ≤ L) :
    SimFrom F S' K L' pre pre' p q := fun _ _ _ hr => (h hr).weaken hS hH hL

theorem shorten (h : SimFrom F S H L pre pre' p q) (hL : L' ≤ L) : SimFrom F S H L' pre pre' p q :=
  fun _ _ _ hr => (h hr).shorten hL

theorem error (h : ∀ s r, p.run s ≠ .ok r) : SimFrom F S H L pre pre' p q :=
  fun s a s' hr => absurd hr (h s (a, s'))

theorem pure (h : F.shape b = F.shape a) (ha : F.parts a = pre) (hb : F.parts b = pre') :
    SimFrom F S S L pre pre' (Pure.pure a) (Pure.pure b) := by
  intro s a s' hr
  cases hr
  exact .pure h ha hb

/-- Every result of `p` that is used is one `p` returns. -/
theorem bind' {f : α → Parser β} (hp : Sim F S' H L p q)
    (hf : ∀ ⦃a b⦄, (∃ s s', p.run s = .ok (a, s')) → F.shape b = F.shape a →
      SimFrom G S K L (pre ++ F.parts a) (pre' ++ F.parts b) (f a) (g b)) (hS : K ⊆ S') :
    SimFrom G S H L pre pre' (p >>= f) (q >>= g) := by
  intro s c s' hr
  obtain ⟨a, s₁, ha, hc⟩ := bind_ok.mp hr
  exact (hp ha).bind (fun b hb => hf ⟨s, s₁, ha⟩ hb hc) hS

theorem bind {f : α → Parser β} (hp : Sim F S' H L p q) (hf : ∀ a b, F.shape b = F.shape a →
      SimFrom G S K L (pre ++ F.parts a) (pre' ++ F.parts b) (f a) (g b)) (hS : K ⊆ S') :
    SimFrom G S H L pre pre' (p >>= f) (q >>= g) :=
  hp.bind' (fun a b _ h => hf a b h) hS

theorem seq' {f : α → Parser β} (hp : Sim F K H L p q)
    (hf : ∀ ⦃a b⦄, (∃ s s', p.run s = .ok (a, s')) → F.shape b = F.shape a →
      SimFrom G S K L (pre ++ F.parts a) (pre' ++ F.parts b) (f a) (g b)) :
    SimFrom G S H L pre pre' (p >>= f) (q >>= g) := hp.bind' hf (List.Subset.refl _)

theorem seq {f : α → Parser β} (hp : Sim F K H L p q) (hf : ∀ a b, F.shape b = F.shape a →
      SimFrom G S K L (pre ++ F.parts a) (pre' ++ F.parts b) (f a) (g b)) :
    SimFrom G S H L pre pre' (p >>= f) (q >>= g) := hp.bind hf (List.Subset.refl _)

theorem silent (ws : List Part) (hws : ws.all Part.silent = true)
    (h : SimFrom F S H L (pre ++ ws) (pre' ++ ws) p q) : SimFrom F S H L pre pre' p q :=
  fun _ _ _ hr => .silent ws hws (h hr)

variable {f : Unit → Parser α} {w : String} {p' : Parser α}

theorem first (ws : List Part) (hws : writes t ws = true) {g : Unit → Parser α}
    (h : SimFrom F S K L (pre ++ ws) (pre' ++ ws) (f ()) (g ())) :
    SimFrom F S [] (L + 1) pre pre' (Sqlparser.expect t w >>= f) (Sqlparser.expect t w >>= g) := by
  intro s a s' hr
  obtain ⟨ht, hr⟩ := expect_bind_ok.mp hr
  exact .same ws hws ht (expect_kw t w) (h hr)

theorem reform {G : Form α} (h : Sim F S H L p q) (hparts : ∀ a, G.parts a = F.parts a)
    (hshape : ∀ a b, F.shape b = F.shape a → G.shape b = G.shape a) : Sim G S H L p q :=
  fun _ a _ hr => (h hr).reform (hparts a) fun b hb => ⟨hshape a b hb, hparts b⟩

/-- Parts without tokens in front of a result that decides about them. -/
theorem lead {r : α → List Part} (h : Sim F S H L p q) (hr : ∀ a, (r a).all Part.silent = true)
    (hshape : ∀ a b, F.shape b = F.shape a → r b = r a) :
    Sim ⟨F.Shape, F.shape, fun a => r a ++ F.parts a⟩ S H L p q :=
  fun _ a _ hrun => .silent (r a) (hr a)
    ((h hrun).reform rfl fun b hb => ⟨hb, congrArg (· ++ F.parts b) (hshape a b hb)⟩)

theorem lower (h : SimFrom F S H (L + 1) pre pre' p q) : SimFrom F S H L pre pre' p q :=
  fun _ _ _ hr => (h hr).lower

theorem expect (ws : List Part) (hws : writes t ws = true) {g : Unit → Parser α}
    (h : SimFrom F S K L (pre ++ ws) (pre' ++ ws) (f ()) (g ())) :
    SimFrom F S [] L pre pre' (Sqlparser.expect t w >>= f) (Sqlparser.expect t w >>= g) :=
  (first ws hws h).lower

theorem assert (ws : List Part) (hws : writes t ws = true) {g : Unit → Parser α}
    (h : SimFrom F S K L (pre ++ ws) (pre' ++ ws) (f ()) (g ())) :
    SimFrom F S [] (L + 1) pre pre' (assertTok t >>= f) (assertTok t >>= g) := by
  intro s a s' hr
  obtain ⟨ht, hr⟩ := assertTok_bind_ok.mp hr
  exact .same ws hws ht (assertTok_kw t) (h hr)

/-- A branch on the next token.  Where the source takes the first side, the streams agree. -/
theorem branch [DecidablePred P] (hP : ∀ x ∈ H, ¬P x) (h : SimFrom F S [] L pre pre' p q)
    (h' : SimFrom F S H L pre pre' p' q') :
    SimFrom F S H L pre pre' (Sqlparser.peek >>= fun t => if P t then p else p')
      (Sqlparser.peek >>= fun t => if P t then q else q') := by
  intro s a s' hr
  rw [peek_bind, ite_ok] at hr
  obtain ⟨hc, hr⟩ | ⟨hc, hr⟩ := hr
  · exact (SimRun.pos (H := []) hc nofun (h hr)).atHead
  · exact .neg hc hP (h' hr)

theorem peek {f g : Token → Parser α} (h : ∀ t, SimFrom F S [] L pre pre' (f t) (g t)) :
    SimFrom F S H L pre pre' (Sqlparser.peek >>= f) (Sqlparser.peek >>= g) :=
  fun s _ _ hr => (h (nextTok s.toks) hr).congr fun us b hu => by rw [peek_bind, hu]

theorem ite {c : Prop} [Decidable c] (h : SimFrom F S H L pre pre' p q)
    (h' : SimFrom F S H L pre pre' p' q') :
    SimFrom F S H L pre pre' (if c then p else p') (if c then q else q') := by
  split
  · exact h
  · exact h'

/-- An optional token, which may be the first one of a row. -/
theorem accept₁ (ws : List Part) (hws : writes t ws = true) (ht : t ∉ H) (hL : L ≤ L' + 1)
    (h : SimFrom F S K L' (pre ++ ws) (pre' ++ ws) p q) (h' : SimFrom F S H L pre pre' p' q') :
    SimFrom F S H L pre pre' (Sqlparser.accept t >>= fun b => if b = true then p else p')
      (Sqlparser.accept t >>= fun b => if b = true then q else q') := by
  intro s a s' hr
  obtain ⟨hc, hr⟩ | ⟨hc, hr⟩ := accept_bind_ok.mp hr
  · exact (SimRun.same ws hws hc (accept_kw t) (by exact h hr)).atHead.shorten hL
  · obtain ⟨row, hrow, hread, hback⟩ := h' hr
    refine ⟨row, hrow, hread, fun row' hlike hleg hlen ts hf => ?_⟩
    obtain ⟨hh, b, hb, hpb, hq⟩ := hback hlike hleg hlen hf
    exact ⟨hh, b, hb, hpb, (bind_run (accept_of_ne (hh.ne hc ht))).trans hq⟩

theorem accept (ws : List Part) (hws : writes t ws = true) (ht : t ∉ H)
    (h : SimFrom F S K L (pre ++ ws) (pre' ++ ws) p q) (h' : SimFrom F S H L pre pre' p' q') :
    SimFrom F S H L pre pre' (Sqlparser.accept t >>= fun b => if b = true then p else p')
      (Sqlparser.accept t >>= fun b => if b = true then q else q') :=
  accept₁ ws hws ht (Nat.le_succ _) h h'

end SimFrom

/-- A flag for an optional token. -/
def flagForm (ws : List Part) : Form Bool := ⟨Bool, id, fun b => partsIf b ws⟩

theorem accept_sim (ws : List Part) (hws : writes t ws = true) (ht : t ∉ S) :
    Sim (flagForm ws) S S L (accept t) (accept t) := by
  have heq (s : PState) : (accept t).run s =
      (accept t >>= fun b => if b = true then Pure.pure true else Pure.pure false).run s := by
    rw [bind_apply]
    by_cases hc : nextTok s.toks = t
    · rw [accept_ok.mpr (.inl ⟨hc, rfl, rfl⟩)]
      rfl
    · rw [accept_ok.mpr (.inr ⟨hc, rfl, rfl⟩)]
      rfl
  have h : Sim (flagForm ws) S S L
      (accept t >>= fun b => if b = true then Pure.pure true else Pure.pure false)
      (accept t >>= fun b => if b = true then Pure.pure true else Pure.pure false) :=
    .accept ws hws ht (.pure rfl rfl rfl) (.pure rfl rfl rfl)
  intro s b s' hr
  rw [heq] at hr
  obtain ⟨row, hrow, hread, hback⟩ := h hr
  refine ⟨row, hrow, hread, fun row' hlike hleg hlen ts hf => ?_⟩
  rw [heq]
  exact hback hlike hleg hlen hf

/-! ## Loops -/

/-- Elements with a separator between them. -/
def Form.list (F : Form α) (sep : List Part) : Form (List α) where
  Shape := List F.Shape
  shape := List.map F.shape
  parts xs := joinParts sep (xs.map F.parts)

/-- Elements with commas between them, and a part behind the last one. -/
def Form.closed (F : Form α) (last : Part) : Form (List α) where
  Shape := List F.Shape
  shape := List.map F.shape
  parts xs := joinParts commaParts (xs.map F.parts) ++ [last]

theorem joinParts_cons {x : List Part} {xs : List (List Part)} (h : xs ≠ []) :
    joinParts sep (x :: xs) = x ++ sep ++ joinParts sep xs := by
  cases xs with
  | nil => exact absurd rfl h
  | cons y ys => rfl

theorem map_ne_nil {f : α → β} {ys : List α} (h : ys.map f = xs.map f) (hxs : xs ≠ []) :
    ys ≠ [] := by
  rintro rfl
  exact hxs (List.map_eq_nil_iff.mp h.symm)

theorem Form.list_cons (h : xs ≠ []) :
    (F.list sep).parts (x :: xs) = F.parts x ++ sep ++ (F.list sep).parts xs :=
  joinParts_cons (by simpa using h)

theorem Form.closed_cons {last : Part} (h : xs ≠ []) :
    (F.closed last).parts (x :: xs) = F.parts x ++ commaParts ++ (F.closed last).parts xs := by
  simp only [closed, List.map_cons]
  rw [joinParts_cons (by simpa using h), List.append_assoc]

/-- The fuel of a loop is the number of tokens it may read. -/
theorem SimRun.fuel {q : Nat → Parser α} (hm : k ≤ m)
    (h : ∀ m, k ≤ m + 1 → SimRun F S H k pre pre' (q (m + 1)) a s s') :
    SimRun F S H k pre pre' (q m) a s s' := by
  cases m with
  | zero =>
    obtain rfl := Nat.le_zero.mp hm
    exact (h 0 (Nat.zero_le _)).zero
  | succ m => exact h m hm

theorem SimFrom.fuel {q : Nat → Parser α} (hm : k ≤ m)
    (h : ∀ m, k ≤ m + 1 → SimFrom F S H k pre pre' p (q (m + 1))) :
    SimFrom F S H k pre pre' p (q m) :=
  fun _ _ _ hr => .fuel hm fun m hm => h m hm hr

/-- A list with separators. -/
theorem sepList_sim (sep : List Part) (hsep : writes .COMMA sep = true) (hS : Token.COMMA ∉ S)
    (he : Sim F S H L p q) : ∀ (n : Nat) {m k : Nat}, k ≤ m → k ≤ L →
    Sim (F.list sep) S H k (sepList p n) (sepList q m)
  | 0, _, _, _, _ => .error nofun
  | n + 1, m, k, hm, hL => by
    refine SimFrom.fuel hm fun m hm => ?_
    refine .seq (he.shorten hL) fun x y hxy => ?_
    refine .accept₁ (K := H) sep hsep hS (show k ≤ k - 1 + 1 by omega) ?_
      (.pure (congrArg (fun z => [z]) hxy) rfl rfl)
    refine .seq' (sepList_sim sep hsep hS he n (by omega) (by omega)) fun xs ys hxs h => ?_
    obtain ⟨s, s', hxs⟩ := hxs
    have hne := sepList_ne_nil hxs
    exact .pure (congrArg₂ List.cons hxy h) (Form.list_cons hne)
      (Form.list_cons (map_ne_nil h hne))

/-- The closing parenthesis is read, and nothing depends on what is behind it. -/
theorem parenList_sim (he : Sim F S' H L p q) : ∀ (n : Nat) {m k : Nat}, k ≤ m → k ≤ L →
    Sim (F.closed (.sign .RP)) S H k (parenList p n) (parenList q m)
  | 0, _, _, _, _ => .error nofun
  | n + 1, m, k, hm, hL => by
    refine SimFrom.fuel hm fun m hm => ?_
    refine .bind (he.shorten hL) (fun x y hxy => ?_)
      (List.nil_subset _)
    refine .accept [.sign .RP] rfl List.not_mem_nil
      (.pure (congrArg (fun z => [z]) hxy) rfl rfl) ?_
    refine .shorten (.first (K := H) commaParts rfl ?_) (show k ≤ k - 1 + 1 by omega)
    refine .seq' (parenList_sim he n (by omega) (by omega)) fun xs ys hxs h => ?_
    obtain ⟨s, s', hxs⟩ := hxs
    have hne := parenList_ne_nil hxs
    exact .pure (congrArg₂ List.cons hxy h) (Form.closed_cons hne)
      (Form.closed_cons (map_ne_nil h hne))

/-- The arguments up to a closing parenthesis.  A trailing comma of the source is gone, so the last
argument is followed by the parenthesis instead. -/
theorem argList_sim (hS : Token.RP ∈ S) (hH : Token.RP ∉ H) (he : Sim F S H L p q) :
    ∀ (n : Nat) {m k : Nat}, k ≤ m → k ≤ L →
    Sim (F.closed (.trailing .COMMA)) [] H k (argList p n) (argList q m)
  | 0, _, _, _, _ => .error nofun
  | n + 1, m, k, hm, hL => by
    refine SimFrom.fuel hm fun m hm => ?_
    have hsub : ([.RP] : List Token) ⊆ S := List.cons_subset.mpr ⟨hS, List.nil_subset _⟩
    refine .branch (P := (· = .RP)) (fun x hx hc => hH (hc ▸ hx))
      (.silent [.trailing .COMMA] rfl (.pure rfl rfl rfl)) ?_
    refine .bind (he.shorten hL) (fun x y hxy => ?_) hsub
    intro s xs s' hr
    simp at hr
    obtain ⟨hc, rfl, rfl⟩ | ⟨hc, hcomma, ys, hys, rfl⟩ := hr
    · exact (SimRun.pos (P := (· = .RP)) (H := []) hc nofun (.silent [.trailing .COMMA] rfl
        (.pure (congrArg (fun z => [z]) hxy) rfl rfl))).atHead
    by_cases hne : ys = []
    · -- the comma was a trailing one
      subst hne
      obtain ⟨hrp, rfl⟩ := argList_ok_nil hys
      refine ⟨[.trailing .COMMA], rfl, .one (.inr ⟨hcomma, rfl⟩), fun row' hlike _ _ ts hf => ?_⟩
      obtain rfl := hlike.eq (List.forall_mem_singleton.mpr rfl)
      have hts : nextTok ts = .RP := hf.eq.trans hrp
      refine ⟨.of_mem (by simp [toksOf, Part.toks, hts]) (by simp [toksOf, Part.toks, hts]), [y],
        congrArg (fun z => [z]) hxy, rfl, ?_⟩
      simp [toksOf, Part.toks, hts]
    · refine (SimRun.neg (P := (· = .RP)) (H := []) hc nofun ?_).atHead.shorten
        (show k ≤ k - 1 + 1 by omega)
      refine .same (K := H) commaParts rfl hcomma (expect_kw _ _) ?_
      refine .bind (argList_sim hS hH he n (by omega) (by omega) hys) (fun zs hz => ?_)
        (List.nil_subset _)
      exact .pure (congrArg₂ List.cons hxy hz) (Form.closed_cons hne)
        (Form.closed_cons (map_ne_nil hz hne))

end

end Gofusion.Sqlparser
