import Gofusion.Sqlparser.Parts
import Mathlib.Data.List.DropRight

/-!
# Names in printed texts

A printed identifier is read back under its name only if it is legible, and the name of
a function only if it is a word.
-/

namespace Gofusion.Sqlparser

/-! ## Quoted texts -/

theorem doubleQuotes_cons (q c : Char) (cs : Text) :
    doubleQuotes q (c :: cs) = (if c = q then [q, q] else [c]) ++ doubleQuotes q cs := rfl

theorem doubleQuotes_append (q : Char) (s s' : Text) :
    doubleQuotes q (s ++ s') = doubleQuotes q s ++ doubleQuotes q s' :=
  List.flatMap_append

/-- A quoted text is its body with the quotes doubled. -/
theorem scanQuoted_eq {q : Char} : ∀ {cs body rest : Text}, scanQuoted q cs = (body, some rest) →
    cs = doubleQuotes q body ++ q :: rest
  | [], _, _, h => by cases h
  | [c], _, _, h => by
    unfold scanQuoted at h
    split at h <;> cases h
    rename_i hc
    rw [hc]
    rfl
  | c :: d :: cs, body, rest, h => by
    unfold scanQuoted at h
    split at h
    · rename_i hc
      split at h
      · rename_i hd
        obtain ⟨body', hbody⟩ : ∃ body', scanQuoted q cs = (body', some rest) := ⟨_, by
          rw [← (Prod.mk.inj h).2]⟩
        rw [hbody] at h
        cases h
        rw [scanQuoted_eq hbody, doubleQuotes_cons, if_pos rfl, hc, hd]
        rfl
      · cases h
        rw [hc]
        rfl
    · rename_i hc
      obtain ⟨body', hbody⟩ : ∃ body', scanQuoted q (d :: cs) = (body', some rest) := ⟨_, by
        rw [← (Prod.mk.inj h).2]⟩
      rw [hbody] at h
      cases h
      rw [scanQuoted_eq hbody, doubleQuotes_cons, if_neg hc]
      rfl

/-- Quotes in front of a doubled text run on into what is behind the text. -/
theorem head?_of_doubleQuotes {q : Char} {rest r : Text} : ∀ {n : Text} {j : Nat},
    List.replicate (j + 1) q ++ (doubleQuotes q n ++ q :: rest) = n ++ q :: r →
      r.head? = some q
  | [], j, h => by
    have h' : List.replicate j q ++ q :: rest = r := List.cons.inj h |>.2
    rw [← h']
    cases j <;> rfl
  | c :: cs, j, h => by
    obtain ⟨rfl, h'⟩ := List.cons.inj h
    have hmore : List.replicate (j + 1 + 1) q ++ (doubleQuotes q cs ++ q :: rest) =
        List.replicate j q ++ (doubleQuotes q (q :: cs) ++ q :: rest) := by
      rw [doubleQuotes_cons, if_pos rfl]
      simp [List.replicate_succ', List.append_assoc]
    exact head?_of_doubleQuotes (hmore.trans h')

theorem not_mem_of_doubleQuotes {q : Char} {rest r : Text} (hr : r.head? ≠ some q) :
    ∀ {n : Text}, doubleQuotes q n ++ q :: rest = n ++ q :: r → q ∉ n
  | [], _ => List.not_mem_nil
  | c :: cs, h => by
    rw [doubleQuotes_cons] at h
    by_cases hc : c = q
    · subst hc
      have hcs : List.replicate (0 + 1) c ++ (doubleQuotes c cs ++ c :: rest) = cs ++ c :: r := by
        simpa using h
      exact absurd (head?_of_doubleQuotes hcs) hr
    · rw [if_neg hc] at h
      rw [List.mem_cons, not_or]
      exact ⟨Ne.symm hc, not_mem_of_doubleQuotes hr (List.cons.inj h).2⟩

/-! ## Quoted identifiers -/

theorem lookup_ne_QIDENT (w : Text) : lookup w ≠ .QIDENT := by
  intro h
  rcases lookup_cases w with hi | hk
  · cases h.symm.trans hi
  · exact keywords_not_leaf _ hk (h ▸ by decide)

theorem lexNumber_ne_QIDENT (cs : Text) : (lexNumber cs).1.tok ≠ .QIDENT := by
  have htail (t : Token) (lit ds : Text) (ht : t ≠ .QIDENT) :
      (lexNumberTail t lit ds).1.tok ≠ .QIDENT := by
    rcases lexNumberTail_cases t lit ds with h | ⟨h, -⟩ | ⟨e, -, -, h⟩
    · intro hq
      rw [hq] at h
      revert h
      decide
    · rwa [h]
    · rw [h]
      nofun
  unfold lexNumber
  split
  · exact htail _ _ _ nofun
  · split <;> exact htail _ _ _ nofun

theorem lexBlob_ne_QIDENT (c : Char) (cs : Text) : (lexBlob c cs).1.tok ≠ .QIDENT := by
  unfold lexBlob
  split
  · nofun
  · split
    · exact lookup_ne_QIDENT _
    · split
      · split
        · nofun
        · split <;> nofun
      · nofun

theorem lexOr_ne_QIDENT {t : Token} {s : Text} {alts : List (Char × Token × Text)} (cs : Text)
    (ht : t ≠ .QIDENT) (halts : ∀ a ∈ alts, a.2.1 ≠ .QIDENT) :
    (lexOr t s alts cs).1.tok ≠ .QIDENT := by
  unfold lexOr
  split
  · exact ht
  · split
    · rename_i a ha
      exact halts a (List.mem_of_find?_eq_some ha)
    · exact ht

theorem lexOperator_ne_QIDENT (c : Char) (cs : Text) : (lexOperator c cs).1.tok ≠ .QIDENT := by
  unfold lexOperator
  split
  · rename_i a ha
    have hpunct : ∀ a ∈ punctuation, a.2 ≠ .QIDENT := by decide
    exact hpunct a (List.mem_of_find?_eq_some ha)
  split
  · exact lexOr_ne_QIDENT _ nofun (by decide)
  split
  · exact lexOr_ne_QIDENT _ nofun (by decide)
  split
  · exact lexOr_ne_QIDENT _ nofun (by decide)
  split
  · exact lexOr_ne_QIDENT _ nofun (by decide)
  split
  · split
    · nofun
    · split
      · unfold lexMultilineComment
        split <;> nofun
      · nofun
  · nofun

theorem lexRune_QIDENT {c : Char} {cs : Text} (h : (lexRune c cs).1.tok = .QIDENT) :
    (c = '"' ∨ c = '`') ∧ lexRune c cs = lexQuotedIdent c cs := by
  unfold lexRune at h ⊢
  split at h
  · exact absurd h (lexNumber_ne_QIDENT _)
  split at h
  · exact absurd h (lexBlob_ne_QIDENT _ _)
  split at h
  · exact absurd h (lookup_ne_QIDENT _)
  split at h
  · exact ⟨‹_›, by simp [*]⟩
  split at h
  · unfold lexString at h
    split at h <;> cases h
  split at h
  · cases h
  · exact absurd h (lexOperator_ne_QIDENT _ _)

/-! ## Reading a name -/

section

variable {i i' : Ident} {cs r : Text} {rest : List Tok}

theorem ReadsIdent.lex_eq (h : ReadsIdent i (lexAll cs) rest) :
    (lex cs).1.tok.isIdent = true ∧ identByNameAndTok (lex cs).1 = i ∧
      rest = lexAll (lex cs).2 := by
  rw [lexAll_eq] at h
  split at h
  · cases h.1
  · exact ⟨h.1, h.2.1, h.2.2.symm⟩

theorem ReadsIdent.quoted {q : Char} (hq : q = '"' ∨ q = '`')
    (h : ReadsIdent i (lexAll (q :: cs)) rest) :
    ∃ body, i.name = body ∧ ∃ r, cs = doubleQuotes q body ++ q :: r := by
  obtain ⟨hident, hname, -⟩ := h.lex_eq
  have hlex : lex (q :: cs) = lexQuotedIdent q cs := by rcases hq with rfl | rfl <;> rfl
  rw [hlex, lexQuotedIdent] at hident hname
  split at hname
  · rename_i body r hscan
    subst hname
    exact ⟨body, by simp [identByNameAndTok], r, scanQuoted_eq hscan⟩
  · rename_i heq
    rw [heq] at hident
    cases hident

theorem Ident.readBack (hw : i.Wf) (hname : i'.name = i.name) (hr : NoWord r)
    (h : ReadsIdent i' (lexAll (i.string ++ r)) rest) : i.legible = true ∧ rest = lexAll r := by
  by_cases hl : i.legible = true
  · rw [lexAll_ident hw hl hr] at h
    exact ⟨hl, h.2.2.symm⟩
  · obtain ⟨name, _ | q⟩ := i
    · exact absurd rfl hl
    · have hq : q = '`' ∧ '`' ∈ name := by
        rcases hw with rfl | rfl
        · exact absurd rfl hl
        · simpa [legible] using hl
      obtain ⟨rfl, hmem⟩ := hq
      have hsplit : string ⟨name, some '`'⟩ ++ r = '`' :: (name ++ '`' :: r) := by
        simp [string]
      rw [hsplit] at h
      obtain ⟨_, rfl, r', htext⟩ := h.quoted (.inr rfl)
      rw [hname] at htext
      have hstop : r.head? ≠ some '`' := by
        cases r with
        | nil => simp
        | cons c cs => exact fun hc => hr.2 (by cases hc; decide)
      exact absurd hmem (not_mem_of_doubleQuotes hstop htext.symm)

theorem length_le_doubleQuotes (q : Char) : ∀ s : Text, s.length ≤ (doubleQuotes q s).length
  | [] => Nat.le_refl 0
  | c :: cs => by
    have ih := length_le_doubleQuotes q cs
    rw [doubleQuotes_cons]
    split <;> simp <;> omega

theorem all_doubleQuotes {q : Char} {p : Char → Bool} (hq : p q = true) {s : Text}
    (hs : ∀ c ∈ s, p c = true) : ∀ c ∈ doubleQuotes q s, p c = true := by
  intro c hc
  obtain ⟨d, hd, hcd⟩ := List.mem_flatMap.mp hc
  split at hcd
  · simp only [List.mem_cons, List.not_mem_nil, or_false, or_self] at hcd
    rwa [hcd]
  · rw [List.mem_singleton.mp hcd]
    exact hs d hd

/-- The text of a name that starts with a quote, with a parenthesis behind it, is not the
quoted name. -/
theorem not_quoted_name {q : Char} {sp n r r' : Text} (hq : q = '"' ∨ q = '`')
    (hsp : ∀ c ∈ sp, isSpace c = true) :
    n ++ '(' :: r ≠ sp ++ q :: (doubleQuotes q n ++ q :: r') := by
  intro h
  have hparen : isSpace '(' = false ∧ '(' ≠ q := by rcases hq with rfl | rfl <;> decide
  obtain ⟨v, rfl, hv⟩ : ∃ v, n = sp ++ q :: v ∧ doubleQuotes q n ++ q :: r' = v ++ '(' :: r := by
    rcases List.append_eq_append_iff.mp h with ⟨a, rfl, ha⟩ | ⟨a, rfl, ha⟩
    · cases a with
      | nil => exact absurd (List.cons.inj ha).1 hparen.2
      | cons c cs =>
        have hc := hsp c (by simp)
        rw [← (List.cons.inj ha).1, hparen.1] at hc
        cases hc
    · cases a with
      | nil => exact absurd (List.cons.inj ha).1.symm hparen.2
      | cons c cs =>
        obtain ⟨rfl, ha⟩ := List.cons.inj ha
        exact ⟨cs, rfl, ha⟩
  -- Spaces and quotes at the front: those of the name are more than those of its rest.
  let p (c : Char) : Bool := isSpace c || c = q
  have hpq : p q = true := by simp [p]
  have hright : (v ++ '(' :: r).takeWhile p = v.takeWhile p := by
    have hstop : p '(' = false := by simp [p, hparen]
    rw [List.takeWhile_append]
    split
    · rename_i hlen
      rw [List.takeWhile_cons_of_neg (by simp [hstop]), List.append_nil,
        (List.takeWhile_prefix p).eq_of_length hlen]
    · rfl
  have hleft : (v.takeWhile p).length + 1 ≤
      ((doubleQuotes q (sp ++ q :: v) ++ q :: r').takeWhile p).length := by
    have hsplit : sp ++ q :: v = (sp ++ q :: v.takeWhile p) ++ v.dropWhile p := by simp
    have hall : ∀ c ∈ doubleQuotes q (sp ++ q :: v.takeWhile p), p c = true := by
      refine all_doubleQuotes hpq fun c hc => ?_
      rcases List.mem_append.mp hc with hc | hc
      · simp [p, hsp c hc]
      · rcases List.mem_cons.mp hc with rfl | hc
        · exact hpq
        · exact List.all_eq_true.mp List.all_takeWhile c hc
    have hlen := length_le_doubleQuotes q (sp ++ q :: v.takeWhile p)
    rw [hsplit, doubleQuotes_append, List.append_assoc, List.takeWhile_append_of_pos hall]
    simp at hlen ⊢
    omega
  rw [hv, hright] at hleft
  omega

theorem lexAll_dropWhile (cs : Text) : lexAll (cs.dropWhile isSpace) = lexAll cs := by
  have hlex : lex (cs.dropWhile isSpace) = lex cs := by
    unfold lex
    rw [List.dropWhile_idempotent]
  rw [lexAll_eq, hlex, ← lexAll_eq]

/-- A quoted identifier stands behind spaces and its quote. -/
theorem lex_QIDENT (h : (lex cs).1.tok = .QIDENT) :
    ∃ q cs', (q = '"' ∨ q = '`') ∧ cs = cs.takeWhile isSpace ++ q :: cs' := by
  cases hdrop : cs.dropWhile isSpace with
  | nil =>
    rw [lex, hdrop] at h
    cases h
  | cons q cs' =>
    rw [lex, hdrop] at h
    refine ⟨q, cs', (lexRune_QIDENT h).1, ?_⟩
    rw [← hdrop, List.takeWhile_append_dropWhile]

/-- A function name that is read back is a word. -/
theorem isWord_of_readsIdent {n : Text} (hname : i.name = n)
    (h : ReadsIdent i (lexAll (n ++ '(' :: r)) rest) :
    isWord n = true ∧ rest = lexAll ('(' :: r) := by
  obtain ⟨hident, hi, -⟩ := h.lex_eq
  have hwf : (lex (n ++ '(' :: r)).1.Wf := by
    have hne : (lex (n ++ '(' :: r)).1.tok ≠ .EOF := fun he => by rw [he] at hident; cases hident
    refine lexAll_wf (n ++ '(' :: r) _ ?_
    rw [lexAll_eq, if_neg hne]
    exact List.mem_cons_self
  simp only [Token.isIdent, Bool.or_eq_true, decide_eq_true_eq] at hident
  rcases hident with htok | htok
  · have hlit : (lex (n ++ '(' :: r)).1.lit = n := by
      have hi' := congrArg Ident.name hi
      simpa [identByNameAndTok, htok, hname] using hi'
    have hword : isWord n = true := by
      rw [Tok.Wf, htok, hlit] at hwf
      exact hwf
    have hparen : NoWord ('(' :: r) := ⟨rfl, by decide⟩
    rw [lexAll_word hword hparen] at h
    exact ⟨hword, h.2.2.symm⟩
  · exfalso
    obtain ⟨q, cs', hq, hsplit⟩ := lex_QIDENT htok
    have hdrop : (n ++ '(' :: r).dropWhile isSpace = q :: cs' :=
      List.append_cancel_left ((List.takeWhile_append_dropWhile ..).trans hsplit)
    rw [← lexAll_dropWhile, hdrop] at h
    obtain ⟨_, rfl, r', hcs⟩ := h.quoted hq
    rw [hname] at hcs
    rw [hcs] at hsplit
    exact not_quoted_name hq (fun c hc => List.all_eq_true.mp List.all_takeWhile c hc) hsplit

end

end Gofusion.Sqlparser
