import Mathlib.Tactic.ByContra
import Gofusion.Sqlparser.Canonical

/-!
# Lexing printed pieces

What `lexAll` makes of the pieces a printer writes.  Every lemma has the shape
`lexAll (piece ++ r) = tokens ++ lexAll r` for all texts `r` that do not run into
the piece: `Stop r` says that `r` is empty or starts with a space, a comma or a
closing parenthesis, which is what follows a printed node.
-/

namespace Gofusion.Sqlparser

/-! ## Lexing is incremental -/

theorem length_dropWhile_le {α : Type} (p : α → Bool) (l : List α) :
    (l.dropWhile p).length ≤ l.length :=
  (List.dropWhile_sublist p).length_le

theorem scanQuoted_length {q : Char} :
    ∀ {cs rest : Text}, (scanQuoted q cs).2 = some rest → rest.length < cs.length
  | [], _, h => by cases h
  | [c], _, h => by
    unfold scanQuoted at h
    split at h <;> cases h
    simp
  | c :: d :: cs, rest, h => by
    unfold scanQuoted at h
    split at h
    · split at h
      · have := scanQuoted_length (show (scanQuoted q cs).2 = some rest from h)
        simp
        omega
      · cases h
        simp
    · have := scanQuoted_length (show (scanQuoted q (d :: cs)).2 = some rest from h)
      simp at this ⊢
      omega

theorem scanComment_length :
    ∀ {cs rest : Text}, (scanComment cs).2 = some rest → rest.length < cs.length
  | [], _, h => by cases h
  | [c], _, h => by cases h
  | c :: d :: cs, rest, h => by
    unfold scanComment at h
    split at h
    · cases h
      simp only [List.length_cons]
      omega
    · have := scanComment_length (show (scanComment (d :: cs)).2 = some rest from h)
      simp at this ⊢
      omega

theorem lexExponent_length (lit cs : Text) : (lexExponent lit cs).2.length ≤ cs.length := by
  unfold lexExponent
  split
  · simp
  · split
    · split
      · simp
      · rename_i d ds
        have := length_dropWhile_le isDigit (d :: ds)
        split <;> simp at this ⊢
        omega
    · split
      · exact length_dropWhile_le ..
      · simp

theorem lexNumberTail_length (t : Token) (lit cs : Text) :
    (lexNumberTail t lit cs).2.length ≤ cs.length := by
  unfold lexNumberTail
  split
  · simp
  · rename_i c cs
    have := lexExponent_length (lit ++ [c]) cs
    split
    · simp
      omega
    · simp

variable {c : Char} {cs r w : Text} {t : Token}

theorem lexNumber_length (cs : Text) (h : isDigit c = true ∨ c = '.') :
    (lexNumber (c :: cs)).2.length ≤ cs.length := by
  have hdrop := length_dropWhile_le isDigit cs
  by_cases hd : isDigit c = true
  · have hcons : (c :: cs).dropWhile isDigit = cs.dropWhile isDigit := by simp [hd]
    unfold lexNumber
    rw [hcons]
    split
    · simp [lexNumberTail]
    · rename_i d ds heq
      rw [heq] at hdrop
      simp at hdrop
      have hdrop' := length_dropWhile_le isDigit ds
      split
      · exact Nat.le_trans (lexNumberTail_length ..) (by omega)
      · exact Nat.le_trans (lexNumberTail_length ..) (by simpa using hdrop)
  · obtain rfl : c = '.' := h.resolve_left hd
    have := lexNumberTail_length .FLOAT ([] ++ '.' :: cs.takeWhile isDigit) (cs.dropWhile isDigit)
    unfold lexNumber
    simp [isDigit] at this ⊢
    omega

theorem lexOr_length (t : Token) (s : Text) (alts : List (Char × Token × Text)) (cs : Text) :
    (lexOr t s alts cs).2.length ≤ cs.length := by
  unfold lexOr
  split
  · simp
  · split <;> simp

theorem lexMultilineComment_length (cs : Text) : (lexMultilineComment cs).2.length ≤ cs.length := by
  unfold lexMultilineComment
  split
  · rename_i heq
    have := scanComment_length (congrArg Prod.snd heq)
    simp
    omega
  · simp

theorem lexOperator_length (c : Char) (cs : Text) : (lexOperator c cs).2.length ≤ cs.length := by
  unfold lexOperator
  split
  · simp
  split
  · exact lexOr_length ..
  split
  · exact lexOr_length ..
  split
  · exact lexOr_length ..
  split
  · exact lexOr_length ..
  split
  · split
    · simp
    · split
      · exact Nat.le_succ_of_le (lexMultilineComment_length _)
      · simp
  · simp

theorem lexBlob_length (c : Char) (cs : Text) : (lexBlob c cs).2.length ≤ cs.length := by
  unfold lexBlob
  split
  · simp
  · rename_i d ds
    split
    · exact length_dropWhile_le ..
    · split
      · have := length_dropWhile_le isHex ds
        split
        · simp
        · rename_i heq
          rw [heq] at this
          split <;> simp at this ⊢ <;> omega
      · simp

theorem lexRune_length (c : Char) (cs : Text) : (lexRune c cs).2.length ≤ cs.length := by
  unfold lexRune
  split
  · rename_i h
    exact lexNumber_length cs (by simpa using h)
  split
  · exact lexBlob_length ..
  split
  · rename_i h
    have hid : isUnquotedIdent c = true := by
      simp [isUnquotedIdent] at h ⊢
      rcases h with h | h <;> simp [h]
    simp [lexUnquotedIdent, hid]
    exact length_dropWhile_le ..
  split
  · unfold lexQuotedIdent
    split
    · rename_i heq
      exact Nat.le_of_lt (scanQuoted_length (congrArg Prod.snd heq))
    · simp
  split
  · unfold lexString
    split
    · rename_i heq
      exact Nat.le_of_lt (scanQuoted_length (congrArg Prod.snd heq))
    · simp
  split
  · exact length_dropWhile_le ..
  · exact lexOperator_length ..

theorem lex_length (h : (lex cs).1.tok ≠ .EOF) : (lex cs).2.length < cs.length := by
  have hdrop := length_dropWhile_le isSpace cs
  unfold lex at h ⊢
  split at h
  · exact absurd rfl h
  · rename_i c rest heq
    have := lexRune_length c rest
    rw [heq] at hdrop
    simp at hdrop ⊢
    omega

/-- More fuel does not change the tokens. -/
theorem lexFuel_eq : ∀ {n m : Nat} {cs : Text}, cs.length < n → cs.length < m →
    lexFuel n cs = lexFuel m cs
  | 0, _, _, h, _ => by omega
  | _, 0, _, _, h => by omega
  | n + 1, m + 1, cs, hn, hm => by
    unfold lexFuel
    by_cases he : (lex cs).1.tok = .EOF
    · rw [if_pos he, if_pos he]
    · have := lex_length he
      rw [if_neg he, if_neg he, lexFuel_eq (n := n) (m := m) (by omega) (by omega)]

/-- The tokens of a text are its first token and the tokens behind it. -/
theorem lexAll_eq (cs : Text) :
    lexAll cs = if (lex cs).1.tok = .EOF then [] else (lex cs).1 :: lexAll (lex cs).2 := by
  rw [lexAll, lexFuel]
  by_cases he : (lex cs).1.tok = .EOF
  · rw [if_pos he, if_pos he]
  · rw [if_neg he, if_neg he, lexAll, lexFuel_eq (lex_length he) (Nat.lt_succ_self _)]

theorem lexAll_of_lex {rest : Text} {t : Tok} (h : lex cs = (t, rest)) (ht : t.tok ≠ .EOF) :
    lexAll cs = t :: lexAll rest := by
  rw [lexAll_eq, h, if_neg ht]

theorem lexAll_space (r : Text) : lexAll (' ' :: r) = lexAll r := by
  have : lex (' ' :: r) = lex r := by
    unfold lex
    rw [List.dropWhile_cons_of_pos (by decide)]
  rw [lexAll_eq, this, ← lexAll_eq]

/-! ## What follows a piece -/

/-- The text behind a printed node. -/
def Stop : Text → Prop
  | [] => True
  | c :: _ => c = ' ' ∨ c = ',' ∨ c = ')'

/-- The text does not continue a word or a quoted text. -/
def NoWord : Text → Prop
  | [] => True
  | c :: _ => isUnquotedIdent c = false ∧ c ∉ ['\'', '"', '`']

/-- The text does not continue a number. -/
def NoNumber : Text → Prop
  | [] => True
  | c :: _ => isDigit c = false ∧ c ≠ '.' ∧ c ≠ 'e' ∧ c ≠ 'E'

theorem Stop.noWord : ∀ {r : Text}, Stop r → NoWord r
  | [], _ => trivial
  | _ :: _, h => by rcases h with rfl | rfl | rfl <;> exact ⟨rfl, by decide⟩

theorem Stop.noNumber : ∀ {r : Text}, Stop r → NoNumber r
  | [], _ => trivial
  | _ :: _, h => by rcases h with rfl | rfl | rfl <;> exact ⟨rfl, by decide⟩

@[simp] theorem stop_space (r : Text) : Stop (' ' :: r) := Or.inl rfl

@[simp] theorem stop_comma (r : Text) : Stop (',' :: r) := Or.inr (Or.inl rfl)

@[simp] theorem stop_rp (r : Text) : Stop (')' :: r) := Or.inr (Or.inr rfl)

/-! ## Classes of runes -/

theorem isAlpha_iff :
    isAlpha c = true ↔ 97 ≤ c.toNat ∧ c.toNat ≤ 122 ∨ 65 ≤ c.toNat ∧ c.toNat ≤ 90 := by
  simp [isAlpha, Char.le_def, UInt32.le_iff_toNat_le]

theorem isDigit_iff : isDigit c = true ↔ 48 ≤ c.toNat ∧ c.toNat ≤ 57 := by
  simp [isDigit, Char.le_def, UInt32.le_iff_toNat_le]

theorem isSpace_eq_false (h : 33 ≤ c.toNat) (h' : c.toNat ≤ 126) : isSpace c = false := by
  simp [isSpace]
  omega

theorem wordStart_not_digit (h : (isAlpha c || decide (c = '_')) = true) :
    isDigit c = false ∧ c ≠ '.' ∧ isSpace c = false := by
  simp only [Bool.or_eq_true, decide_eq_true_eq] at h
  rcases h with h | rfl
  · have := isAlpha_iff.mp h
    refine ⟨?_, ?_, isSpace_eq_false (by omega) (by omega)⟩
    · by_contra hd
      have := isDigit_iff.mp (by simpa using hd)
      omega
    · rintro rfl
      revert h
      decide
  · decide

/-! ## Words -/

theorem takeWhile_append_stop {p : Char → Bool} (hw : w.all p = true)
    (hr : ∀ c cs, r = c :: cs → p c = false) :
    (w ++ r).takeWhile p = w ∧ (w ++ r).dropWhile p = r := by
  rw [List.all_eq_true] at hw
  rw [List.takeWhile_append_of_pos hw, List.dropWhile_append_of_pos hw]
  cases r with
  | nil => simp
  | cons c cs =>
    have := hr c cs rfl
    simp [this]

theorem lex_cons (cs : Text) (h : isSpace c = false) : lex (c :: cs) = lexRune c cs := by
  unfold lex
  rw [List.dropWhile_cons_of_neg (by simp [h])]

theorem lex_ident (hc : (isAlpha c || decide (c = '_')) = true)
    (hcs : cs.all isUnquotedIdent = true) (hr : NoWord r) :
    lex (c :: cs ++ r) = (⟨lookup (c :: cs), c :: cs⟩, r) := by
  obtain ⟨hd, hdot, hs⟩ := wordStart_not_digit hc
  have hr' : ∀ d ds, r = d :: ds → isUnquotedIdent d = false := by
    rintro d ds rfl
    exact hr.1
  have hw := takeWhile_append_stop hcs hr'
  rw [List.cons_append, lex_cons _ hs, lexRune, if_neg (by simp [hd, hdot])]
  by_cases hx : c = 'x' ∨ c = 'X'
  · rw [if_pos hx]
    have hlook : lookup [c] = .IDENT := by rcases hx with rfl | rfl <;> decide
    cases cs with
    | nil =>
      cases r with
      | nil => simp [lexBlob, hlook]
      | cons d ds =>
        have : d ≠ '\'' := fun h => hr.2 (by simp [h])
        simp [lexBlob, hlook, hr.1, this]
    | cons d ds =>
      have : isUnquotedIdent d = true := by simp_all
      rw [List.cons_append, lexBlob, if_pos this, ← List.cons_append, lexUnquotedIdent, hw.1, hw.2]
      rfl
  · have hu : isUnquotedIdent c = true := by
      simp only [isUnquotedIdent, Bool.or_eq_true] at hc ⊢
      rcases hc with h | h
      · exact Or.inl (Or.inl h)
      · exact Or.inr h
    rw [if_neg hx, if_pos hc, lexUnquotedIdent, List.takeWhile_cons_of_pos hu,
      List.dropWhile_cons_of_pos hu, hw.1, hw.2]
    rfl

theorem lookup_word (h : isWord w = true) : lookup w = .IDENT := by
  cases w with
  | nil => cases h
  | cons c cs => simp_all [isWord]

theorem lexAll_word (h : isWord w = true) (hr : NoWord r) :
    lexAll (w ++ r) = ⟨.IDENT, w⟩ :: lexAll r := by
  have hl := lookup_word h
  cases w with
  | nil => cases h
  | cons c cs =>
    simp only [isWord, Bool.and_eq_true] at h
    exact lexAll_of_lex (by rw [lex_ident h.1.1 h.1.2 hr, hl]) nofun

/-! ## Keywords -/

def printedWords : List Token :=
  [.ALL, .AND, .AS, .ASC, .BETWEEN, .BY, .CASE, .CONFLICT, .CROSS, .CURRENT, .DEFAULT, .DELETE,
   .DESC, .DISTINCT, .DO, .ELSE, .END, .EXCEPT, .EXISTS, .FALSE, .FETCH, .FILTER, .FIRST, .FROM,
   .GLOB, .GROUP, .HAVING, .IN, .INNER, .INSERT, .INTERSECT, .INTO, .IS, .JOIN, .LAST, .LEFT,
   .LIKE, .LIMIT, .MATCH, .NATURAL, .NEXT, .NOT, .NOTHING, .NULL, .NULLS, .OF, .OFFSET, .ON,
   .ONLY, .OR, .ORDER, .OUTER, .REGEXP, .RETURNING, .ROWS, .SELECT, .SET, .THEN, .TRUE, .UNION,
   .UPDATE, .USING, .VALUES, .WHEN, .WHERE]

/-- The text of a printed keyword is a word the lexer looks up as this keyword. -/
def Token.isKeyword (t : Token) : Bool :=
  match t.string with
  | [] => false
  | c :: cs => (isAlpha c || c = '_') && cs.all isUnquotedIdent && lookup (c :: cs) = t

theorem printedWords_isKeyword : printedWords.all Token.isKeyword = true := by decide

theorem printedWords_ne_EOF : ∀ t ∈ printedWords, t ≠ .EOF := by decide

theorem lexAll_kw (ht : t ∈ printedWords) (hr : NoWord r) :
    lexAll (t.string ++ r) = .kw t :: lexAll r := by
  have hk := List.all_eq_true.mp printedWords_isKeyword t ht
  have hne := printedWords_ne_EOF t ht
  rw [Token.isKeyword] at hk
  rw [Tok.kw]
  generalize t.string = w at *
  cases w with
  | nil => cases hk
  | cons c cs =>
    simp only [Bool.and_eq_true, decide_eq_true_eq] at hk
    exact lexAll_of_lex (by rw [lex_ident hk.1.1 hk.1.2 hr, hk.2]) hne

theorem noWord_space (r : Text) : NoWord (' ' :: r) := ⟨rfl, by decide⟩

theorem lexAll_spaced (ht : t ∈ printedWords) (hr : NoWord r) :
    lexAll (t.spaced ++ r) = .kw t :: lexAll r := by
  rw [Token.spaced, List.cons_append, lexAll_space, lexAll_kw ht hr]

theorem lexAll_padded (r : Text) (ht : t ∈ printedWords) :
    lexAll (t.padded ++ r) = .kw t :: lexAll r := by
  rw [Token.padded, List.cons_append, List.cons_append, lexAll_space, List.append_assoc,
    List.singleton_append, lexAll_kw ht (noWord_space r), lexAll_space]

/-! ## Marks and operators -/

theorem lexAll_lp (r : Text) : lexAll ('(' :: r) = .kw .LP :: lexAll r :=
  lexAll_of_lex rfl nofun

theorem lexAll_rp (r : Text) : lexAll (')' :: r) = .kw .RP :: lexAll r :=
  lexAll_of_lex rfl nofun

theorem lexAll_star (r : Text) : lexAll ('*' :: r) = .kw .STAR :: lexAll r :=
  lexAll_of_lex rfl nofun

theorem lexAll_comma (r : Text) : lexAll (',' :: r) = .kw .COMMA :: lexAll r :=
  lexAll_of_lex rfl nofun

theorem lexAll_commaText (r : Text) : lexAll (commaText ++ r) = .kw .COMMA :: lexAll r := by
  rw [commaText, List.cons_append, lexAll_comma, List.singleton_append, lexAll_space]

def printedSigns : List Token :=
  [.PLUS, .MINUS, .STAR, .SLASH, .REM, .CONCAT, .LSHIFT, .RSHIFT, .BITAND, .BITOR, .LT, .LG, .LE,
   .GT, .GE, .EQ, .NE]

theorem lexAll_sign (r : Text) (ht : t ∈ printedSigns) :
    lexAll (t.string ++ ' ' :: r) = .kw t :: lexAll r := by
  rw [← lexAll_space r]
  simp only [printedSigns, List.mem_cons, List.not_mem_nil, or_false] at ht
  rcases ht with rfl | rfl | rfl | rfl | rfl | rfl | rfl | rfl | rfl | rfl | rfl | rfl | rfl | rfl |
    rfl | rfl | rfl <;> exact lexAll_of_lex rfl nofun

theorem lexAll_unary (r : Text) (ht : t = .PLUS ∨ t = .MINUS) :
    lexAll (t.string ++ r) = .kw t :: lexAll r := by
  rcases ht with rfl | rfl <;> exact lexAll_of_lex rfl nofun

theorem binaryOpWords_cases : ∀ {op : Token} {ws : List Token}, binaryOpWords op = some ws →
    (∃ t, ws = [t] ∧ (t ∈ printedWords ∨ t ∈ printedSigns)) ∨
    (∃ t t', ws = [t, t'] ∧ t ∈ printedWords ∧ t' ∈ printedWords) := by
  intro op ws h
  unfold binaryOpWords at h
  split at h <;> cases h <;>
    first
    | exact Or.inl ⟨_, rfl, Or.inr (by decide)⟩
    | exact Or.inl ⟨_, rfl, Or.inl (by decide)⟩
    | exact Or.inr ⟨_, _, rfl, by decide, by decide⟩

theorem lexAll_opText {op : Token} {ws : List Token} (r : Text) (h : binaryOpWords op = some ws) :
    lexAll (opText ws ++ r) = opToks op ++ lexAll r := by
  have htoks : opToks op = ws.map Tok.kw := by rw [opToks, h]; rfl
  rw [htoks]
  obtain ⟨t, rfl, ht | ht⟩ | ⟨t, t', rfl, ht, ht'⟩ := binaryOpWords_cases h
  · simp [opText, lexAll_spaced ht (noWord_space r), lexAll_space]
  · simp [opText, Token.spaced, lexAll_space, lexAll_sign r ht]
  · simp [opText]
    rw [lexAll_spaced ht (by exact noWord_space _), lexAll_spaced ht' (noWord_space r), lexAll_space]

end Gofusion.Sqlparser
