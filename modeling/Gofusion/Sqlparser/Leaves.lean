import Gofusion.Sqlparser.Lexing

/-!
# The leaves of a printed statement

Identifiers, strings, blobs, binds, numbers and hints.  For each of them a
predicate says what the lexer can make of it, every token the lexer returns meets
it, and the printed text of a leaf that meets it is lexed as the leaf again.
-/

namespace Gofusion.Sqlparser

/-! ## Quoted texts -/

theorem scanQuoted_cons {q c : Char} (cs : Text) (h : c ≠ q) :
    scanQuoted q (c :: cs) = (c :: (scanQuoted q cs).1, (scanQuoted q cs).2) := by
  cases cs <;> simp [scanQuoted, h]

theorem scanQuoted_pair (q : Char) (cs : Text) :
    scanQuoted q (q :: q :: cs) = (q :: (scanQuoted q cs).1, (scanQuoted q cs).2) := by
  simp [scanQuoted]

variable {c q : Char} {v r : Text}

theorem scanQuoted_end (hq : q ∈ ['\'', '"', '`']) (hr : NoWord r) :
    scanQuoted q (q :: r) = ([], some r) := by
  cases r with
  | nil => simp [scanQuoted]
  | cons d ds =>
    have : d ≠ q := fun h => hr.2 (h ▸ hq)
    simp [scanQuoted, this]

theorem scanQuoted_doubled (hq : q ∈ ['\'', '"', '`']) (hr : NoWord r) :
    ∀ s : Text, scanQuoted q (doubleQuotes q s ++ q :: r) = (s, some r)
  | [] => scanQuoted_end hq hr
  | c :: cs => by
    have ih := scanQuoted_doubled hq hr cs
    have hcons : doubleQuotes q (c :: cs) =
        (if c = q then [q, q] else [c]) ++ doubleQuotes q cs := rfl
    rw [hcons]
    by_cases h : c = q
    · simp only [h, if_true, List.cons_append, List.nil_append, scanQuoted_pair, ih]
    · simp only [h, if_false, List.cons_append, List.nil_append, scanQuoted_cons _ h, ih]

theorem scanQuoted_plain (hq : q ∈ ['\'', '"', '`']) (hr : NoWord r) :
    ∀ {s : Text}, q ∉ s → scanQuoted q (s ++ q :: r) = (s, some r)
  | [], _ => scanQuoted_end hq hr
  | c :: cs, h => by
    rw [List.mem_cons, not_or] at h
    rw [List.cons_append, scanQuoted_cons _ (Ne.symm h.1), scanQuoted_plain hq hr h.2]

theorem lexAll_string (v : Text) (hr : NoWord r) :
    lexAll ('\'' :: doubleQuotes '\'' v ++ '\'' :: r) = ⟨.STRING, v⟩ :: lexAll r := by
  refine lexAll_of_lex (show lexString (doubleQuotes '\'' v ++ '\'' :: r) = _ from ?_) nofun
  rw [lexString, scanQuoted_doubled (by decide) hr]

/-- An identifier as the parser makes it: a word, or quoted with one of the two
quotes. -/
def Ident.Wf (i : Ident) : Prop :=
  match i.quote with
  | none => isWord i.name = true
  | some q => q = '"' ∨ q = '`'

theorem lex_quoted {cs body r : Text} (hq : q = '"' ∨ q = '`')
    (h : scanQuoted q cs = (body, some r)) : lex (q :: cs) = (⟨.QIDENT, q :: body ++ [q]⟩, r) := by
  have hlex : lex (q :: cs) = lexQuotedIdent q cs := by rcases hq with rfl | rfl <;> rfl
  rw [hlex, lexQuotedIdent, h]

theorem lexAll_ident {i : Ident} (hw : i.Wf) (hl : i.legible = true) (hr : NoWord r) :
    lexAll (i.string ++ r) = i.tok :: lexAll r := by
  obtain ⟨name, quote⟩ := i
  cases quote with
  | none => exact lexAll_word hw hr
  | some q =>
    have hq : q ∈ ['\'', '"', '`'] := by rcases hw with rfl | rfl <;> decide
    have hscan : ∃ cs, (Ident.mk name (some q)).string ++ r = q :: cs ∧
        scanQuoted q cs = (name, some r) := by
      by_cases hd : q = '"'
      · refine ⟨doubleQuotes q name ++ q :: r, ?_, scanQuoted_doubled hq hr name⟩
        simp [Ident.string, hd]
      · have hn : q ∉ name := by simpa [Ident.legible, hd] using hl
        refine ⟨name ++ q :: r, ?_, scanQuoted_plain hq hr hn⟩
        simp [Ident.string, hd]
    obtain ⟨cs, hcs, hs⟩ := hscan
    rw [hcs]
    exact lexAll_of_lex (lex_quoted hw hs) nofun

/-! ## Blobs, binds and dots -/

theorem lexAll_blob (r : Text) (hv : v.all isHex = true) :
    lexAll ('x' :: '\'' :: v ++ '\'' :: r) = ⟨.BLOB, v⟩ :: lexAll r := by
  obtain ⟨ht, hd⟩ := takeWhile_append_stop (r := '\'' :: r) hv (by rintro _ _ ⟨⟩; rfl)
  refine lexAll_of_lex (show lexBlob 'x' ('\'' :: (v ++ '\'' :: r)) = _ from ?_) nofun
  rw [lexBlob, if_neg (by decide), if_pos rfl, ht, hd]
  exact if_pos rfl

/-- The name of a bind: its mark, and digits behind `?` or a word behind another. -/
def BindWf (name : Text) : Prop :=
  ∃ start cs, name = start :: cs ∧ start ∈ ['?', ':', '@', '$'] ∧
    cs.all (if start = '?' then isDigit else isUnquotedIdent) = true

theorem NoWord.not_digit {cs : Text} (h : NoWord (c :: cs)) : isDigit c = false := by
  have := h.1
  simp only [isUnquotedIdent, Bool.or_eq_false_iff] at this
  exact this.1.2

theorem lexAll_bind {name r : Text} (h : BindWf name) (hr : NoWord r) :
    lexAll (name ++ r) = ⟨.BIND, name⟩ :: lexAll r := by
  obtain ⟨start, cs, rfl, hs, hcs⟩ := h
  have hlex : lex (start :: cs ++ r) = lexBind start (cs ++ r) := by
    simp only [List.mem_cons, List.not_mem_nil, or_false] at hs
    rcases hs with rfl | rfl | rfl | rfl <;> rfl
  obtain ⟨ht, hd⟩ := takeWhile_append_stop (r := r) hcs (by
    rintro c cs rfl
    split
    · exact hr.not_digit
    · exact hr.1)
  exact lexAll_of_lex (by rw [hlex, lexBind, ht, hd]) nofun

theorem lexAll_dot (r : Text) (hd : isDigit c = false) (he : c ≠ 'e' ∧ c ≠ 'E') :
    lexAll ('.' :: c :: r) = .kw .DOT :: lexAll (c :: r) := by
  refine lexAll_of_lex (show lexNumber ('.' :: c :: r) = _ from ?_) nofun
  have hdot : isDigit '.' = false := rfl
  simp [lexNumber, lexNumberTail, hdot, hd, he.1, he.2]
  rfl

/-! ## Numbers -/

/-- The exponent of a number, or nothing. -/
def Exponent (e : Text) : Prop :=
  e = [] ∨ ∃ c sign d, e = c :: (sign ++ d) ∧ (c = 'e' ∨ c = 'E') ∧
    (sign = [] ∨ sign = ['+'] ∨ sign = ['-']) ∧ d ≠ [] ∧ d.all isDigit = true

/-- A number: digits, a fraction and an exponent, of which the lexer wants at least
one. -/
def Numeral (v : Text) : Prop :=
  ∃ w f e, v = w ++ (f ++ e) ∧ w.all isDigit = true ∧ Exponent e ∧
    (f = [] ∧ w ≠ [] ∨ ∃ d, f = '.' :: d ∧ d.all isDigit = true ∧ w ++ (d ++ e) ≠ [])

theorem lexExponent_digits {lit d r : Text} (hd : d.all isDigit = true) (hne : d ≠ [])
    (hr : NoNumber r) : lexExponent lit (d ++ r) = (⟨.FLOAT, lit ++ d⟩, r) := by
  obtain ⟨ht, hdr⟩ := takeWhile_append_stop (r := r) hd (by rintro c cs rfl; exact hr.1)
  cases d with
  | nil => exact absurd rfl hne
  | cons c cs =>
    have hc : isDigit c = true := by simp_all
    have hsign : ¬(c = '+' ∨ c = '-') := by
      rintro (rfl | rfl) <;> cases hc
    rw [List.cons_append] at ht hdr ⊢
    unfold lexExponent
    simp only [hsign, if_false, hc, if_true, ht, hdr]

theorem lexExponent_sign (lit : Text) {d r : Text} (hc : c = '+' ∨ c = '-')
    (hd : d.all isDigit = true) (hne : d ≠ []) (hr : NoNumber r) :
    lexExponent lit (c :: (d ++ r)) = (⟨.FLOAT, lit ++ c :: d⟩, r) := by
  obtain ⟨ht, hdr⟩ := takeWhile_append_stop (r := r) hd (by rintro c cs rfl; exact hr.1)
  cases d with
  | nil => exact absurd rfl hne
  | cons d ds =>
    have hd' : isDigit d = true := by simp_all
    rw [List.cons_append] at ht hdr ⊢
    simp only [lexExponent, hc, hd', if_true, ht, hdr]

theorem lexNumberTail_exponent {t : Token} {lit e r : Text} (he : Exponent e) (hne : e ≠ [])
    (hr : NoNumber r) : lexNumberTail t lit (e ++ r) = (⟨.FLOAT, lit ++ e⟩, r) := by
  obtain rfl | ⟨c, sign, d, rfl, hc, hs, hd, hdig⟩ := he
  · exact absurd rfl hne
  · rw [List.cons_append, lexNumberTail, if_pos hc]
    rcases hs with rfl | rfl | rfl
    · rw [List.nil_append, lexExponent_digits hdig hd hr, List.append_assoc, List.singleton_append]
    · simpa using lexExponent_sign (lit ++ [c]) (Or.inl rfl) hdig hd hr
    · simpa using lexExponent_sign (lit ++ [c]) (Or.inr rfl) hdig hd hr

theorem lexNumberTail_end {t : Token} {lit r : Text} (hlit : lit ≠ ['.']) (hr : NoNumber r) :
    lexNumberTail t lit r = (⟨t, lit⟩, r) := by
  cases r with
  | nil => rw [lexNumberTail, if_neg hlit]
  | cons c cs => rw [lexNumberTail, if_neg (by simp [hr.2.2.1, hr.2.2.2]), if_neg hlit]

theorem Exponent.not_digit {e r : Text} (he : Exponent e) (hr : NoNumber r) :
    ∀ c cs, e ++ r = c :: cs → isDigit c = false ∧ c ≠ '.' := by
  intro c cs h
  obtain rfl | ⟨d, sign, ds, rfl, hd, -⟩ := he
  · subst h
    exact ⟨hr.1, hr.2.1⟩
  · cases h
    rcases hd with rfl | rfl <;> decide

theorem not_all_digit_of_exponent {w e : Text} (he : Exponent e) (hne : e ≠ []) :
    (w ++ e).all isDigit = false := by
  obtain rfl | ⟨c, sign, ds, rfl, hc, -⟩ := he
  · exact absurd rfl hne
  · have : isDigit c = false := by rcases hc with rfl | rfl <;> rfl
    simp [this]

theorem lexNumber_numeral {v r : Text} (hv : Numeral v) (hr : NoNumber r) :
    lexNumber (v ++ r) = (numberTok v, r) := by
  obtain ⟨w, f, e, rfl, hw, he, hf⟩ := hv
  have hstop := he.not_digit hr
  rcases hf with ⟨rfl, hne⟩ | ⟨d, rfl, hd, hne⟩
  · -- Without a fraction the exponent or the rest stands behind the digits.
    have hsplit : w ++ ([] ++ e) ++ r = w ++ (e ++ r) := by simp
    obtain ⟨ht, hdr⟩ := takeWhile_append_stop (r := e ++ r) hw fun c cs h => (hstop c cs h).1
    have hlex : lexNumber (w ++ (e ++ r)) = lexNumberTail .INTEGER w (e ++ r) := by
      rw [lexNumber, ht, hdr]
      cases h : e ++ r with
      | nil => rfl
      | cons c cs => exact if_neg (hstop c cs h).2
    rw [hsplit, hlex]
    by_cases hee : e = []
    · subst hee
      have hdot : w ≠ ['.'] := by
        rintro rfl
        cases hw
      simp [lexNumberTail_end hdot hr, numberTok, hw]
    · rw [lexNumberTail_exponent he hee hr, numberTok, List.nil_append,
        not_all_digit_of_exponent he hee]
      rfl
  · have hsplit : w ++ ('.' :: d ++ e) ++ r = w ++ '.' :: (d ++ (e ++ r)) := by simp
    obtain ⟨ht, hdr⟩ := takeWhile_append_stop (r := '.' :: (d ++ (e ++ r))) hw
      (by rintro _ _ ⟨⟩; rfl)
    obtain ⟨ht', hdr'⟩ := takeWhile_append_stop (r := e ++ r) hd fun c cs h => (hstop c cs h).1
    have hlex : lexNumber (w ++ '.' :: (d ++ (e ++ r))) =
        lexNumberTail .FLOAT (w ++ '.' :: d) (e ++ r) := by
      rw [lexNumber, ht, hdr]
      simp only [if_true, ht', hdr']
    have hkind : (w ++ ('.' :: d ++ e)).all isDigit = false := by
      have : isDigit '.' = false := rfl
      simp [this]
    rw [hsplit, hlex, numberTok, hkind]
    by_cases hee : e = []
    · subst hee
      have hdot : w ++ '.' :: d ≠ ['.'] := by
        intro h
        cases w with
        | nil => exact hne (by simpa using h)
        | cons c cs => simp at h
      simp [lexNumberTail_end hdot hr]
    · simp [lexNumberTail_exponent he hee hr]

theorem Numeral.head (hv : Numeral v) :
    ∃ c cs, v = c :: cs ∧ (isDigit c || decide (c = '.')) = true := by
  obtain ⟨w, f, e, rfl, hw, he, hf⟩ := hv
  cases w with
  | cons c cs =>
    have : isDigit c = true := by simp_all
    exact ⟨c, _, rfl, by simp [this]⟩
  | nil =>
    rcases hf with ⟨-, hne⟩ | ⟨d, rfl, -⟩
    · exact absurd rfl hne
    · exact ⟨'.', _, rfl, rfl⟩

theorem lexAll_number {v r : Text} (hv : Numeral v) (hr : NoNumber r) :
    lexAll (v ++ r) = numberTok v :: lexAll r := by
  obtain ⟨c, cs, hcs, hc⟩ := hv.head
  have hspace : isSpace c = false := by
    simp only [Bool.or_eq_true, decide_eq_true_eq] at hc
    rcases hc with h | rfl
    · have := isDigit_iff.mp h
      exact isSpace_eq_false (by omega) (by omega)
    · rfl
  have hlex : lex (v ++ r) = lexNumber (v ++ r) := by
    rw [hcs, List.cons_append, lex_cons _ hspace, lexRune, if_pos hc]
  refine lexAll_of_lex (by rw [hlex, lexNumber_numeral hv hr]) ?_
  unfold numberTok
  split <;> simp

/-! ## Hints -/

/-- The text of a hint: trimmed, and without the end of a comment. -/
def HintWf (v : Text) : Prop :=
  ¬['*', '/'] <:+: v ∧ v.head? ≠ some ' ' ∧ v.reverse.head? ≠ some ' '

theorem scanComment_append (r : Text) : ∀ {v : Text}, ¬['*', '/'] <:+: v →
    scanComment (v ++ '*' :: '/' :: r) = (v, some r)
  | [], _ => by simp [scanComment]
  | [c], _ => by simp [scanComment]
  | c :: d :: cs, h => by
    have hcd : ¬(c = '*' ∧ d = '/') := by
      rintro ⟨rfl, rfl⟩
      exact h ⟨[], cs, rfl⟩
    have ih := scanComment_append r (v := d :: cs) fun hi => h (List.infix_cons hi)
    rw [List.cons_append, List.cons_append, scanComment, if_neg hcd, ← List.cons_append, ih]

theorem HintWf.padded (h : HintWf v) : ¬['*', '/'] <:+: ' ' :: v ++ [' '] := by
  rw [List.infix_concat_iff, List.infix_cons_iff]
  rintro (hs | hp | hi)
  · obtain ⟨w, hw⟩ := hs
    have := congrArg (fun l => l.reverse.head?) hw
    simp at this
  · obtain ⟨w, hw⟩ := hp
    cases hw
  · exact h.1 hi

theorem dropWhile_space (h : v.head? ≠ some ' ') : v.dropWhile (fun c => decide (c = ' ')) = v := by
  cases v with
  | nil => rfl
  | cons c cs =>
    have hc : c ≠ ' ' := fun hc => h (by rw [hc]; rfl)
    rw [List.dropWhile_cons_of_neg (by simpa using hc)]

theorem trimSpaces_padded (h : HintWf v) : trimSpaces (' ' :: v ++ [' ']) = v := by
  obtain ⟨-, hh, hl⟩ := h
  cases v with
  | nil => rfl
  | cons c cs =>
    have hhead : (c :: cs ++ [' ']).head? ≠ some ' ' := by simpa using hh
    have hdrop : (' ' :: (c :: cs) ++ [' ']).dropWhile (fun c => decide (c = ' ')) =
        c :: cs ++ [' '] := by
      rw [List.cons_append, List.dropWhile_cons_of_pos (by rfl), dropWhile_space hhead]
    rw [trimSpaces, hdrop, List.reverse_append, List.reverse_singleton, List.singleton_append,
      List.dropWhile_cons_of_pos (by rfl), dropWhile_space hl, List.reverse_reverse]

/-- A hint is lexed together with the space behind it. -/
theorem lexAll_hint (r : Text) (h : HintWf v) :
    lexAll ('/' :: '*' :: ' ' :: v ++ ' ' :: '*' :: '/' :: ' ' :: r) =
      ⟨.MLCOMMENT, v⟩ :: lexAll r := by
  have hscan := scanComment_append (' ' :: r) h.padded
  rw [List.append_assoc, List.singleton_append] at hscan
  refine lexAll_of_lex (show lexMultilineComment
    (' ' :: v ++ ' ' :: '*' :: '/' :: ' ' :: r) = _ from ?_) nofun
  simp only [lexMultilineComment, hscan, trimSpaces_padded h]
  rfl

/-! ## Tokens of the lexer -/

def leafTokens : List Token := [.IDENT, .QIDENT, .BLOB, .BIND, .INTEGER, .FLOAT, .MLCOMMENT]

/-- What the lexer guarantees of the literal of a token. -/
def Tok.Wf (t : Tok) : Prop :=
  match t.tok with
  | .IDENT => isWord t.lit = true
  | .QIDENT => ∃ q body, (q = '"' ∨ q = '`') ∧ t.lit = q :: body ++ [q]
  | .BLOB => t.lit.all isHex = true
  | .BIND => BindWf t.lit
  | .INTEGER => Numeral t.lit
  | .FLOAT => Numeral t.lit
  | .MLCOMMENT => HintWf t.lit
  | _ => True

theorem Tok.wf_of_not_leaf {t : Tok} (h : t.tok ∉ leafTokens) : t.Wf := by
  simp only [leafTokens, List.mem_cons, List.not_mem_nil, or_false, not_or] at h
  unfold Tok.Wf
  split <;> simp_all

theorem keywords_not_leaf : ∀ t ∈ Token.keywords, t ∉ leafTokens := by decide +kernel

theorem lookup_cases (w : Text) : lookup w = .IDENT ∨ lookup w ∈ Token.keywords := by
  unfold lookup
  split
  · rename_i t h
    exact Or.inr (List.mem_of_find?_eq_some h)
  · exact Or.inl rfl

theorem isWord_of_lookup {cs : Text} (hc : (isAlpha c || decide (c = '_')) = true)
    (hcs : cs.all isUnquotedIdent = true) : (Tok.mk (lookup (c :: cs)) (c :: cs)).Wf := by
  rcases lookup_cases (c :: cs) with h | h
  · rw [h]
    show isWord (c :: cs) = true
    rw [isWord, hc, hcs, h]
    rfl
  · exact Tok.wf_of_not_leaf (keywords_not_leaf _ h)

theorem lexBlob_wf (cs : Text) (hc : c = 'x' ∨ c = 'X') : (lexBlob c cs).1.Wf := by
  have halpha : (isAlpha c || decide (c = '_')) = true := by rcases hc with rfl | rfl <;> rfl
  have hx : (Tok.mk .IDENT [c]).Wf := by
    show isWord [c] = true
    rcases hc with rfl | rfl <;> decide
  cases cs with
  | nil => exact hx
  | cons d ds =>
    rw [lexBlob]
    split
    · exact isWord_of_lookup halpha (List.all_takeWhile)
    · split
      · cases h : ds.dropWhile isHex with
        | nil => trivial
        | cons e es =>
          simp only
          split
          · exact List.all_takeWhile
          · trivial
      · exact hx

theorem digits_head (cs : Text) (hc : isDigit c = true) : (c :: cs).takeWhile isDigit ≠ [] := by
  rw [List.takeWhile_cons_of_pos hc]
  exact nofun

theorem lexExponent_cases (lit cs : Text) :
    (lexExponent lit cs).1.tok = .ILLEGAL ∨
    ∃ sign d, (lexExponent lit cs).1 = ⟨.FLOAT, lit ++ (sign ++ d)⟩ ∧
      (sign = [] ∨ sign = ['+'] ∨ sign = ['-']) ∧ d ≠ [] ∧ d.all isDigit = true := by
  unfold lexExponent
  split
  · exact Or.inl rfl
  · rename_i c cs
    split
    · rename_i hc
      split
      · exact Or.inl rfl
      · rename_i d ds
        split
        · rename_i hd
          refine Or.inr ⟨[c], (d :: ds).takeWhile isDigit, rfl, ?_, digits_head ds hd,
            List.all_takeWhile⟩
          rcases hc with rfl | rfl <;> simp
        · exact Or.inl rfl
    · split
      · rename_i hd
        exact Or.inr ⟨[], (c :: cs).takeWhile isDigit, rfl, Or.inl rfl, digits_head cs hd,
          List.all_takeWhile⟩
      · exact Or.inl rfl

theorem lexNumberTail_cases (t : Token) (lit cs : Text) :
    (lexNumberTail t lit cs).1.tok ∈ [Token.ILLEGAL, .DOT] ∨
    (lexNumberTail t lit cs).1 = ⟨t, lit⟩ ∧ lit ≠ ['.'] ∨
    ∃ e, Exponent e ∧ e ≠ [] ∧ (lexNumberTail t lit cs).1 = ⟨.FLOAT, lit ++ e⟩ := by
  have hend : (Tok.mk (if lit = ['.'] then .DOT else t) lit).tok ∈ [Token.ILLEGAL, .DOT] ∨
      Tok.mk (if lit = ['.'] then .DOT else t) lit = ⟨t, lit⟩ ∧ lit ≠ ['.'] := by
    split
    · exact Or.inl (by simp)
    · exact Or.inr ⟨rfl, by assumption⟩
  unfold lexNumberTail
  split
  · exact hend.imp_right Or.inl
  · rename_i c cs
    split
    · rename_i hc
      rcases lexExponent_cases (lit ++ [c]) cs with h | ⟨sign, d, h, hs, hne, hd⟩
      · exact Or.inl (by simp [h])
      · exact Or.inr (Or.inr ⟨c :: (sign ++ d), Or.inr ⟨c, sign, d, rfl, hc, hs, hne, hd⟩,
          nofun, by simp [h]⟩)
    · exact hend.imp_right Or.inl

theorem lexNumber_wf {cs : Text} (hc : (isDigit c || decide (c = '.')) = true) :
    (lexNumber (c :: cs)).1.Wf := by
  have hbad : ∀ {t : Tok}, t.tok ∈ [Token.ILLEGAL, .DOT] → t.Wf := fun h =>
    Tok.wf_of_not_leaf fun hl => by
      simp only [List.mem_cons, List.not_mem_nil, or_false] at h
      rcases h with h | h <;> rw [h] at hl <;> revert hl <;> decide
  have hwhole : ∀ rest, (c :: cs).dropWhile isDigit = rest → (∀ ds, rest ≠ '.' :: ds) →
      (c :: cs).takeWhile isDigit ≠ [] := by
    rintro rest rfl hrest
    simp only [Bool.or_eq_true, decide_eq_true_eq] at hc
    rcases hc with h | rfl
    · exact digits_head cs h
    · exact absurd (List.dropWhile_cons_of_neg (by decide)) (hrest cs)
  have hint : ∀ rest, (c :: cs).takeWhile isDigit ≠ [] →
      (lexNumberTail .INTEGER ((c :: cs).takeWhile isDigit) rest).1.Wf := by
    intro rest hne
    rcases lexNumberTail_cases .INTEGER ((c :: cs).takeWhile isDigit) rest with
      h | ⟨h, -⟩ | ⟨e, he, hee, h⟩
    · exact hbad h
    · rw [h]
      exact ⟨_, [], [], by simp, List.all_takeWhile, Or.inl rfl, Or.inl ⟨rfl, hne⟩⟩
    · rw [h]
      exact ⟨_, [], e, by simp, List.all_takeWhile, he, Or.inl ⟨rfl, hne⟩⟩
  unfold lexNumber
  simp only
  split
  · rename_i hrest
    exact hint _ (hwhole _ hrest nofun)
  · rename_i d ds hrest
    split
    · rcases lexNumberTail_cases .FLOAT ((c :: cs).takeWhile isDigit ++ '.' :: ds.takeWhile isDigit)
        (ds.dropWhile isDigit) with h | ⟨h, hne⟩ | ⟨e, he, hee, h⟩
      · exact hbad h
      · rw [h]
        refine ⟨(c :: cs).takeWhile isDigit, _, [], by simp, List.all_takeWhile, Or.inl rfl,
          Or.inr ⟨ds.takeWhile isDigit, rfl, List.all_takeWhile, fun hnil => hne ?_⟩⟩
        simp only [List.append_eq_nil_iff] at hnil
        rw [hnil.1, hnil.2.1]
        rfl
      · rw [h]
        exact ⟨(c :: cs).takeWhile isDigit, '.' :: ds.takeWhile isDigit, e, by simp, List.all_takeWhile, he,
          Or.inr ⟨_, rfl, List.all_takeWhile, by simp [hee]⟩⟩
    · rename_i hd
      exact hint _ (hwhole _ hrest fun ds' h => hd (by cases h; rfl))

theorem scanComment_head (d : Char) (cs : Text) :
    (scanComment (d :: cs)).1 = [] ∨ ∃ body, (scanComment (d :: cs)).1 = d :: body := by
  cases cs with
  | nil => exact Or.inr ⟨[], rfl⟩
  | cons e es =>
    rw [scanComment]
    split
    · exact Or.inl rfl
    · exact Or.inr ⟨_, rfl⟩

theorem scanComment_body : ∀ cs : Text, ¬['*', '/'] <:+: (scanComment cs).1
  | [] => by simp [scanComment]
  | [c] => by
    simp only [scanComment]
    rintro ⟨u, v, h⟩
    have := congrArg List.length h
    simp at this
    omega
  | c :: d :: cs => by
    have ih := scanComment_body (d :: cs)
    rw [scanComment]
    split
    · simp
    · rename_i hcd
      rw [List.infix_cons_iff]
      rintro (⟨w, hw⟩ | hi)
      · -- The body of the rest starts with `d`, so this is the closing mark.
        rcases scanComment_head d cs with h | ⟨body, h⟩
        · rw [h] at hw
          cases hw
        · rw [h] at hw
          cases hw
          exact hcd ⟨rfl, rfl⟩
      · exact ih hi

theorem head?_dropWhile_space (v : Text) :
    (v.dropWhile (fun c => decide (c = ' '))).head? ≠ some ' ' := by
  intro h
  have := List.head?_dropWhile_not (fun c => decide (c = ' ')) v
  rw [h] at this
  simp at this

theorem trimSpaces_isInfix (v : Text) : trimSpaces v <:+: v := by
  have h := (List.dropWhile_suffix (fun c => decide (c = ' '))
    (l := (v.dropWhile (fun c => decide (c = ' '))).reverse)).reverse
  rw [List.reverse_reverse] at h
  exact h.isInfix.trans (List.dropWhile_suffix _).isInfix

theorem trimSpaces_wf (h : ¬['*', '/'] <:+: v) : HintWf (trimSpaces v) := by
  refine ⟨fun hi => h (hi.trans (trimSpaces_isInfix v)), ?_, ?_⟩
  · have h₁ := (List.dropWhile_suffix (fun c => decide (c = ' '))
      (l := (v.dropWhile (fun c => decide (c = ' '))).reverse)).reverse
    rw [List.reverse_reverse] at h₁
    intro hh
    refine head?_dropWhile_space v ?_
    obtain ⟨w, hw⟩ := h₁
    rw [← hw]
    rw [trimSpaces] at hh
    simp [hh]
  · rw [trimSpaces, List.reverse_reverse]
    exact head?_dropWhile_space _

theorem lexMultilineComment_wf (cs : Text) : (lexMultilineComment cs).1.Wf := by
  have h := scanComment_body cs
  unfold lexMultilineComment
  split
  · rename_i body rest hs
    rw [hs] at h
    exact trimSpaces_wf h
  · trivial

theorem lexQuotedIdent_wf (cs : Text) (hq : q = '"' ∨ q = '`') : (lexQuotedIdent q cs).1.Wf := by
  unfold lexQuotedIdent
  split
  · exact ⟨q, _, hq, rfl⟩
  · trivial

theorem lexBind_wf (cs : Text) (hc : c = '?' ∨ c = ':' ∨ c = '@' ∨ c = '$') :
    (lexBind c cs).1.Wf :=
  ⟨c, _, rfl, by simpa using hc, List.all_takeWhile⟩

theorem lexOr_wf {t : Token} {s : Text} {alts : List (Char × Token × Text)} (cs : Text)
    (ht : t ∉ leafTokens) (ha : ∀ a ∈ alts, a.2.1 ∉ leafTokens) : (lexOr t s alts cs).1.Wf := by
  refine Tok.wf_of_not_leaf ?_
  unfold lexOr
  split
  · exact ht
  · split
    · rename_i h
      exact ha _ (List.mem_of_find?_eq_some h)
    · exact ht

theorem lexOperator_wf (c : Char) (cs : Text) : (lexOperator c cs).1.Wf := by
  unfold lexOperator
  split
  · rename_i a h
    have hp : ∀ a ∈ punctuation, a.2 ∉ leafTokens := by decide
    exact Tok.wf_of_not_leaf (hp a (List.mem_of_find?_eq_some h))
  · split
    · exact lexOr_wf cs (by decide) (by decide)
    · split
      · exact lexOr_wf cs (by decide) (by decide)
      · split
        · exact lexOr_wf cs (by decide) (by decide)
        · split
          · exact lexOr_wf cs (by decide) (by decide)
          · split
            · split
              · trivial
              · split
                · exact lexMultilineComment_wf _
                · trivial
            · trivial

theorem lexRune_wf (c : Char) (cs : Text) : (lexRune c cs).1.Wf := by
  unfold lexRune
  split
  · rename_i h
    exact lexNumber_wf h
  · split
    · rename_i h
      exact lexBlob_wf cs h
    · split
      · rename_i h
        have hu : isUnquotedIdent c = true := by
          simp only [isUnquotedIdent, Bool.or_eq_true] at h ⊢
          exact h.imp_left Or.inl
        simp only [lexUnquotedIdent, List.nil_append, List.takeWhile_cons_of_pos hu]
        exact isWord_of_lookup h List.all_takeWhile
      · split
        · rename_i h
          exact lexQuotedIdent_wf cs h
        · split
          · unfold lexString
            split <;> trivial
          · split
            · rename_i h
              exact lexBind_wf cs h
            · exact lexOperator_wf c cs

/-- All tokens of a text are well formed. -/
theorem lexAll_wf (cs : Text) : ∀ t ∈ lexAll cs, t.Wf := by
  have hfuel : ∀ n cs, ∀ t ∈ lexFuel n cs, t.Wf := by
    intro n
    induction n with
    | zero => exact fun _ _ h => nomatch h
    | succ n ih =>
      intro cs t ht
      rw [lexFuel] at ht
      split at ht
      · cases ht
      · rcases List.mem_cons.mp ht with rfl | ht
        · unfold lex
          split
          · trivial
          · exact lexRune_wf ..
        · exact ih _ _ ht
  exact hfuel _ cs

end Gofusion.Sqlparser
