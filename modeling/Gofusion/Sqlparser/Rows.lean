import Gofusion.Sqlparser.Names

/-!
# Rows of parts that are read back

The text of a row is lexed as the tokens of its parts when every part is legible and followed by
a text that does not run into it.  In the other direction, when the tokens of the text can be
read as a row that only differs in quotes, then every part is legible.
-/

namespace Gofusion.Sqlparser

variable {p p' : Part} {ps ps' qs : List Part} {r : Text} {rest : List Tok}

/-! ## Join operators -/

theorem lexAll_words {ws : List Token} {r : Text} (hws : ∀ t ∈ ws, t ∈ printedWords) (hr : NoWord r) :
    lexAll (ws.flatMap Token.spaced ++ r) = ws.map Tok.kw ++ lexAll r := by
  induction ws with
  | nil => rfl
  | cons t ws ih =>
    obtain ⟨ht, hws⟩ := List.forall_mem_cons.mp hws
    have hnext : NoWord (ws.flatMap Token.spaced ++ r) := by
      cases ws with
      | nil => exact hr
      | cons u us => exact noWord_space _
    rw [List.flatMap_cons, List.append_assoc, lexAll_spaced ht hnext, ih hws]
    rfl

/-- The words of a join operator that is no comma. -/
def JoinOperator.words (op : JoinOperator) : List Token :=
  (if op.natural then [.NATURAL] else []) ++
  (if op.left then .LEFT :: (if op.outer then [.OUTER] else [])
    else if op.inner then [.INNER]
    else if op.cross then [.CROSS]
    else []) ++ [.JOIN]

/-- The words of a join are what is printed for it and what is read. -/
theorem JoinOperator.words_spec {op : JoinOperator} (h : op.comma = false) :
    op.string = op.words.flatMap Token.spaced ++ [' '] ∧ op.toks = op.words.map Tok.kw ∧
      (∀ t ∈ op.words, t ∈ printedWords) ∧ nextTok op.toks ∈ joinTokens := by
  obtain ⟨comma, natural, left, outer, inner, cross⟩ := op
  cases h
  cases natural <;> cases left <;> cases outer <;> cases inner <;> cases cross <;>
    exact ⟨rfl, rfl, by decide, by decide⟩

theorem JoinOperator.lexAll_string (op : JoinOperator) (s : Text) :
    lexAll (op.string ++ s) = op.toks ++ lexAll s := by
  cases hc : op.comma with
  | true =>
    rw [string, toks, if_pos hc, if_pos hc]
    exact lexAll_commaText s
  | false =>
    obtain ⟨hs, ht, hwords, -⟩ := words_spec hc
    rw [hs, ht, List.append_assoc, List.singleton_append, lexAll_words hwords (noWord_space s),
      lexAll_space]

theorem JoinOperator.nextTok_toks (op : JoinOperator) (ts : List Tok) :
    nextTok (op.toks ++ ts) ∈ joinTokens := by
  cases hc : op.comma with
  | true =>
    rw [toks, if_pos hc]
    exact List.mem_cons_self
  | false =>
    obtain ⟨-, -, -, h⟩ := words_spec hc
    cases ht : op.toks with
    | nil =>
      rw [ht] at h
      exact absurd h (by decide)
    | cons t us => rwa [ht] at h

/-! ## Single parts -/

theorem Ident.Wf.head {c : Ident} (hw : c.Wf) : ∃ d ds, c.string = d :: ds ∧ isDigit d = false ∧
    ((d = 'e' ∨ d = 'E') ↔ c.quote = none ∧ startsExponent c.name = true) := by
  obtain ⟨name, quote⟩ := c
  cases quote with
  | none =>
    cases name with
    | nil => cases hw
    | cons d ds =>
      simp only [Ident.Wf, isWord, Bool.and_eq_true] at hw
      exact ⟨d, ds, rfl, (wordStart_not_digit hw.1.1).1, by simp [startsExponent]⟩
  | some q =>
    simp only [Ident.string]
    rcases hw with rfl | rfl
    · exact ⟨_, _, rfl, by decide, by simp⟩
    · exact ⟨_, _, rfl, by decide, by simp⟩

/-- A legible part is lexed as its tokens. -/
theorem Part.lexAll_text (hw : p.Wf) (hl : p.legible = true) (hn : p.Needs r) :
    lexAll (p.text ++ r) = p.toks ++ lexAll r := by
  cases p with
  | word t | mark t => exact lexAll_kw hn.1 hn.2
  | sign t =>
    simp only [Part.Needs, looseSigns, List.mem_cons, List.not_mem_nil, or_false] at hn
    rcases hn with rfl | rfl | rfl | rfl
    · exact lexAll_lp r
    · exact lexAll_rp r
    · exact lexAll_comma r
    · exact lexAll_star r
  | unary t => exact lexAll_unary r hw
  | space => exact lexAll_space r
  | op t =>
    obtain ⟨ws, hws⟩ := Option.isSome_iff_exists.mp hl
    rw [text, hws]
    exact lexAll_opText r hws
  | name i | assigned i => exact lexAll_ident hw hl hn
  | called i =>
    rw [text, List.append_assoc, lexAll_padded _ (by decide), lexAll_ident hw hl hn]
    rfl
  | star => exact (lexAll_dot (c := '*') r rfl (by decide)).trans (congrArg _ (lexAll_star r))
  | column i =>
    obtain ⟨d, ds, hd, hdigit, hexp⟩ := Ident.Wf.head hw
    have hl : i.legible = true ∧ (i.quote.isSome || !startsExponent i.name) = true := by
      simpa [legible, Ident.legibleColumn] using hl
    have hne : ¬(d = 'e' ∨ d = 'E') := fun he => by
      obtain ⟨hq, hs⟩ := hexp.mp he
      simp [hq, hs] at hl
    have hdot := lexAll_dot (ds ++ r) hdigit (not_or.mp hne)
    rw [← List.cons_append, ← hd, lexAll_ident hw hl.1 hn] at hdot
    exact hdot
  | func i =>
    have hlp : NoWord ('(' :: r) := ⟨rfl, by decide⟩
    rw [text, List.append_assoc, List.singleton_append, lexAll_word hl hlp, lexAll_lp]
    rfl
  | lit t v =>
    obtain ⟨ht, hr⟩ := hn
    have hr : t ≠ .MLCOMMENT → Stop r := fun h => hr.resolve_left h
    simp only [litTokens, List.mem_cons, List.not_mem_nil, or_false] at ht
    rcases ht with rfl | rfl | rfl | rfl | rfl
    · have := lexAll_string v (hr (by decide)).noWord
      simpa [text, toks] using this
    · have := lexAll_blob r hw
      simpa [text, toks] using this
    · exact lexAll_number hw (hr (by decide)).noNumber
    · exact lexAll_bind hw (hr (by decide)).noWord
    · have := lexAll_hint r hw
      simpa [text, toks, hintText] using this
  | joinOp o => exact o.lexAll_string r
  | joined | trailing | check => rfl

/-! ## Single parts that are read -/

theorem ReadsOp.eq_of_opToks {op : Token} {ws : List Token} {ts rest : List Tok}
    (hop : binaryOpWords op = some ws) (h : ReadsOp op (opToks op ++ ts) rest) : rest = ts := by
  rw [opToks, hop] at h
  unfold binaryOpWords at hop
  split at hop <;> cases hop <;>
    rcases h with ⟨h₁, h₂, h₃, rfl⟩ | ⟨h₁, h₂, rfl⟩ | ⟨h₁, h₂, rfl⟩ <;>
    first | rfl | exact absurd h₃ (by decide) | cases h₁

theorem Ident.nextTok_ne_LP {i : Ident} (hw : i.Wf) (hr : NoWord r) :
    nextTok (lexAll (i.string ++ r)) ≠ .LP := by
  obtain ⟨name, quote⟩ := i
  cases quote with
  | none =>
    rw [lexAll_ident hw rfl hr]
    simp [nextTok, tok]
  | some q =>
    have hlex (cs : Text) : nextTok (lexAll (q :: cs)) ≠ .LP := by
      have hq : lex (q :: cs) = lexQuotedIdent q cs := by rcases hw with rfl | rfl <;> rfl
      rw [lexAll_eq, hq, lexQuotedIdent]
      split <;> simp [nextTok]
    simp only [string]
    split
    · exact hlex _
    · exact hlex _

theorem Ident.name_eq {i i' : Ident} (h : i'.unquote = i.unquote) : i'.name = i.name :=
  (mk.inj h).1

/-- Behind a dot, an `e` starts an exponent. -/
theorem nextTok_exponent {c : Char} (r : Text) (hc : c = 'e' ∨ c = 'E') :
    nextTok (lexAll ('.' :: c :: r)) ≠ .DOT := by
  have hlex : lex ('.' :: c :: r) = lexExponent ['.', c] r := by
    rcases hc with rfl | rfl <;> rfl
  rw [lexAll_eq, hlex]
  split
  · nofun
  · rcases lexExponent_cases ['.', c] r with h | ⟨sign, d, h, -⟩
    · rw [nextTok_cons, h]
      nofun
    · rw [nextTok_cons, h]
      nofun

theorem column_readBack {c c' : Ident} (hq : c'.unquote = c.unquote) (hw : c.Wf) (hr : NoWord r)
    (hdot : nextTok (lexAll ('.' :: (c.string ++ r))) = .DOT)
    (h : ReadsIdent c' (lexAll ('.' :: (c.string ++ r))).tail rest) :
    c.legibleColumn = true ∧ rest = lexAll r := by
  obtain ⟨d, ds, hd, hdigit, hexp⟩ := hw.head
  have hne : ¬(d = 'e' ∨ d = 'E') := by
    intro he
    rw [hd] at hdot
    exact nextTok_exponent _ he hdot
  have hlex : lexAll ('.' :: (c.string ++ r)) = .kw .DOT :: lexAll (c.string ++ r) := by
    rw [hd, List.cons_append]
    exact lexAll_dot _ hdigit (not_or.mp hne)
  rw [hlex] at h
  obtain ⟨hl, rfl⟩ := Ident.readBack hw (Ident.name_eq hq) hr h
  refine ⟨?_, rfl⟩
  rw [hexp] at hne
  rw [Ident.legibleColumn, hl, Bool.true_and]
  cases hquote : c.quote with
  | none => simpa [hquote] using hne
  | some q => rfl

/-- The part is legible, and what is not printed is as the parser leaves it. -/
def Part.Exact : Part → Prop
  | .check b => b = true
  | p => p.legible = true

theorem Part.readBack (hq : p'.unquote = p.unquote) (hw : p.Wf) (hp : p.printable = true)
    (hn : p.Needs r) (h : p'.Reads (lexAll (p.text ++ r)) rest) : p.Exact ∧ rest = lexAll r := by
  have hlex := p.lexAll_text (r := r) hw
  cases p with
  | name i =>
    cases p' with
    | name i' => exact Ident.readBack hw (Ident.name_eq (Part.name.inj hq)) hn h
    | _ => cases hq
  | called i =>
    cases p' with
    | called i' =>
      have hAS : lexAll (text (.called i) ++ r) = .kw .AS :: lexAll (i.string ++ r) := by
        rw [text, List.append_assoc, lexAll_padded _ (by decide)]
      rw [hAS] at h
      rcases h with ⟨-, h⟩ | ⟨h, -⟩
      · exact Ident.readBack hw (Ident.name_eq (Part.called.inj hq)) hn h
      · cases h
    | _ => cases hq
  | assigned i =>
    cases p' with
    | assigned i' =>
      rcases h with h | ⟨hlp, -⟩
      · exact Ident.readBack hw (Ident.name_eq (Part.assigned.inj hq)) hn h
      · exact absurd hlp (Ident.nextTok_ne_LP hw hn)
    | _ => cases hq
  | column i =>
    cases p' with
    | column i' => exact column_readBack (Part.column.inj hq) hw hn h.1 h.2
    | _ => cases hq
  | func i =>
    cases p' with
    | func i' =>
      obtain ⟨m, h, rfl⟩ := h
      rw [text, List.append_assoc, List.singleton_append] at h
      obtain ⟨hword, rfl⟩ := isWord_of_readsIdent (Ident.name_eq (Part.func.inj hq)) h
      exact ⟨hword, by rw [lexAll_lp]; rfl⟩
    | _ => cases hq
  | op t =>
    obtain rfl : p' = .op t := by cases p' <;> first | exact hq | cases hq
    obtain ⟨ws, hws⟩ := Option.isSome_iff_exists.mp hp
    rw [hlex hp hn] at h
    exact ⟨hp, ReadsOp.eq_of_opToks hws h⟩
  | joinOp o =>
    obtain rfl : p' = .joinOp o := by cases p' <;> first | exact hq | cases hq
    rw [hlex rfl hn] at h
    exact ⟨rfl, by rw [← h]; exact List.drop_left⟩
  | trailing t =>
    obtain rfl : p' = .trailing t := by cases p' <;> first | exact hq | cases hq
    rcases h with rfl | ⟨h, -⟩
    · exact ⟨rfl, rfl⟩
    · exact absurd h hn
  | joined ok | check b =>
    cases p' <;> cases hq
    exact ⟨h.1, h.2.symm⟩
  | mark t | unary t =>
    cases p' <;> cases hq
    rw [hlex rfl hn] at h
    exact ⟨rfl, h.2.symm⟩
  | lit t v =>
    cases p' <;> cases hq
    rw [hlex rfl hn] at h
    exact ⟨rfl, h.2.2.symm⟩
  | _ =>
    cases p' <;> cases hq
    rw [hlex rfl hn] at h
    exact ⟨rfl, h.symm⟩

/-! ## Rows -/

theorem textOf_cons (p : Part) (ps : List Part) : textOf (p :: ps) = p.text ++ textOf ps := rfl

theorem lexAll_textOf (hw : ∀ p ∈ ps, p.Wf) (hl : ∀ p ∈ ps, p.legible = true) (hf : Fits ps r) :
    lexAll (textOf ps ++ r) = ps.flatMap Part.toks ++ lexAll r := by
  induction ps with
  | nil => rfl
  | cons p ps ih =>
    obtain ⟨hwp, hw⟩ := List.forall_mem_cons.mp hw
    obtain ⟨hlp, hl⟩ := List.forall_mem_cons.mp hl
    rw [textOf_cons, List.append_assoc, p.lexAll_text hwp hlp hf.1, ih hw hl hf.2,
      List.flatMap_cons, List.append_assoc]

/-- Parts that are read back are legible. -/
theorem Reads.readBack (hq : ps'.map Part.unquote = ps.map Part.unquote) (hw : ∀ p ∈ ps, p.Wf)
    (hp : ∀ p ∈ ps, p.printable = true) (hf : Fits ps r)
    (h : Reads ps' (lexAll (textOf ps ++ r)) rest) : ∀ p ∈ ps, p.Exact := by
  induction ps generalizing ps' with
  | nil => nofun
  | cons p ps ih =>
    cases ps' with
    | nil => cases hq
    | cons p' ps' =>
      obtain ⟨hqp, hq⟩ := List.cons.inj hq
      obtain ⟨hwp, hw⟩ := List.forall_mem_cons.mp hw
      obtain ⟨hpp, hp⟩ := List.forall_mem_cons.mp hp
      rw [textOf_cons, List.append_assoc] at h
      rcases h with ⟨m, hread, h⟩ | ⟨hj, hon, -⟩
      · obtain ⟨hexact, rfl⟩ := Part.readBack hqp hwp hpp hf.1 hread
        exact List.forall_mem_cons.mpr ⟨hexact, ih hq hw hp hf.2 h⟩
      · -- No constraint stands where an operator is printed.
        cases p' with
        | joinOp o =>
          obtain rfl : p = .joinOp o := by cases p <;> first | exact hqp.symm | cases hqp
          rw [Part.text, o.lexAll_string] at hon
          have hmem := o.nextTok_toks (lexAll (textOf ps ++ r))
          simp only [List.mem_cons, List.not_mem_nil, or_false] at hon
          rcases hon with hon | hon <;> exact absurd (hon ▸ hmem) (by decide)
        | _ => cases hj

theorem render_eq_some {t : Text} :
    render ps = some t ↔ (∀ p ∈ ps, p.printable = true) ∧ textOf ps = t := by
  induction ps generalizing t with
  | nil => simp [render, textOf]
  | cons p ps ih =>
    by_cases hp : p.printable = true
    · simp [render, hp, ih, textOf_cons]
    · simp [render, hp]

end Gofusion.Sqlparser
