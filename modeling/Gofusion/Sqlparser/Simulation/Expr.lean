import Mathlib.Tactic.Simproc.ExistsAndEq
import Gofusion.Sqlparser.Simulation.Basic

/-!
# Reading back expressions

One statement per procedure of the expression parser, from the same statements about the procedures
it calls.  Most proofs follow the procedure step by step and name the parts it reads.
-/

namespace Gofusion.Sqlparser

variable {k : Kind} {S S' H : List Token} {L : Nat} {s s' : PState} {t : Token}

/-! ## Forms -/

def Node.form (k : Kind) : Form (Node k) := ⟨Node k, Node.shape, Node.parts⟩

def Node.listForm (k : Kind) : Form (List (Node k)) :=
  ⟨Node (.list k), fun xs => (Node.ofList xs).shape, fun xs => (Node.ofList xs).parts⟩

/-- Expressions with commas between them, and a part behind the last one. -/
def exprsForm (last : Part) : Form (List Expr) :=
  ⟨Node (.list .expr), fun xs => (Node.ofList xs).shape, fun xs => (Node.ofList xs).parts ++ [last]⟩

def Node.afterForm (t : Token) (k : Kind) : Form (Node (.opt k)) :=
  ⟨Node (.opt k), Node.shape, fun o => partsIf (!o.isAbsent) (paddedParts [t] ++ o.parts)⟩

def Ident.form : Form Ident := ⟨Ident, Ident.blank, fun i => [.name i]⟩

def aliasForm : Form (Option Ident) := ⟨Option Ident, Option.map Ident.blank, calledParts⟩

def TableName.form : Form TableName := ⟨TableName, TableName.mapIdents Ident.blank, TableName.parts⟩

theorem Node.parts_ofList : ∀ xs : List (Node k),
    (Node.ofList xs).parts = joinParts (sepParts k) (xs.map Node.parts)
  | [] => rfl
  | [_] => rfl
  | x :: y :: ys => congrArg (x.parts ++ sepParts k ++ ·) (Node.parts_ofList (y :: ys))

theorem Node.shape_ofList (xs : List (Node k)) :
    (Node.ofList xs).shape = Node.ofList (xs.map Node.shape) := by
  induction xs with
  | nil => rfl
  | cons x xs ih => exact congrArg (Node.cons x.shape) ih

variable {xs : List (Node k)}

theorem Node.shape_ofList_congr {ys : List (Node k)} (h : ys.map Node.shape = xs.map Node.shape) :
    (Node.ofList ys).shape = (Node.ofList xs).shape :=
  (shape_ofList ys).trans ((congrArg ofList h).trans (shape_ofList xs).symm)

theorem Node.isNil_of_shape {xs ys : Node (.list k)} (h : ys.shape = xs.shape) :
    ys.isNil = xs.isNil := by
  simpa [shape] using congrArg isNil h

theorem Node.isNil_ofList (h : xs ≠ []) : (Node.ofList xs).isNil = false := by
  cases xs with
  | nil => exact absurd rfl h
  | cons _ _ => rfl

theorem SimFrom.nodes {p q : Parser (List (Node k))}
    (h : Sim ((Node.form k).list (sepParts k)) S H L p q) : Sim (Node.listForm k) S H L p q :=
  h.reform Node.parts_ofList fun _ _ => Node.shape_ofList_congr

theorem SimFrom.exprs {p q : Parser (List Expr)} {last : Part}
    (h : Sim ((Node.form .expr).closed last) S H L p q) : Sim (exprsForm last) S H L p q :=
  h.reform (fun xs => congrArg (· ++ [last]) (Node.parts_ofList xs))
    fun _ _ => Node.shape_ofList_congr

theorem writes_padded (t : Token) : writes t (paddedParts [t]) = true := by
  simp [writes, paddedParts, spacedParts, Part.silent, Part.writes]

/-! ## Identifiers -/

theorem Ident.isIdent_tok (i : Ident) : i.tok.tok.isIdent = true := by
  unfold tok
  cases i.quote <;> rfl

theorem Ident.follow_tok (i : Ident) (us : List Tok) : Follow identToks t (nextTok (i.tok :: us)) := by
  unfold tok
  cases i.quote
  · exact .of_mem (show Token.IDENT ∈ identToks by decide) nofun
  · exact .of_mem (show Token.QIDENT ∈ identToks by decide) nofun

theorem Ident.follow_leaf (i : Ident) (us : List Tok) : Follow leafToks t (nextTok (i.tok :: us)) :=
  (i.follow_tok us).mono (by decide)

@[simp] theorem identByNameAndTok_tok (i : Ident) : identByNameAndTok i.tok = i := by
  obtain ⟨name, quote⟩ := i
  cases quote with
  | none => rfl
  | some q => simp [Ident.tok, identByNameAndTok]

theorem parseIdent_tok (desc : String) (i : Ident) (ts : List Tok) (b : Nat) :
    (parseIdent desc).run ⟨i.tok :: ts, b⟩ = .ok (i, ⟨ts, b⟩) := by
  rw [parseIdent, peek_bind, if_pos (by exact i.isIdent_tok), lexTok_bind]
  simp

theorem parseIdent_ok {desc : String} {i : Ident} (h : (parseIdent desc).run s = .ok (i, s')) :
    ReadsIdent i s.toks s'.toks ∧ s.next = s' := by
  simp [parseIdent] at h
  obtain ⟨hi, rfl, rfl⟩ := h
  exact ⟨⟨hi, rfl, rfl⟩, rfl⟩

theorem parseIdent_sim (desc : String) : Sim Ident.form S identToks L (parseIdent desc) (parseIdent desc) := by
  intro s i s' h
  obtain ⟨hread, rfl⟩ := parseIdent_ok h
  refine ⟨[.name i], rfl, .one hread, fun row' hlike _ _ ts _ => ?_⟩
  obtain ⟨r, rfl, hr⟩ := hlike.singleton
  cases r with
  | name j => exact ⟨j.follow_tok ts, j, rfl, rfl, parseIdent_tok ..⟩
  | _ => cases hr

/-- An alias is printed behind `AS`, also where the source had none. -/
theorem parseAlias_sim (desc : String) (hS : ∀ t ∈ S, ¬t.isIdent = true) :
    Sim aliasForm S (.AS :: S) L (parseAlias desc) (parseAlias desc) := by
  intro s o s' h
  simp [parseAlias] at h
  have hcalled (i : Ident) (hs : s'.binds = s.binds)
      (hread : Part.Reads (.called i) s.toks s'.toks)
      (hAS : nextTok s.toks = .AS ∨ (nextTok s.toks).isIdent = true) :
      SimRun aliasForm S (.AS :: S) L [] [] (parseAlias desc) (some i) s s' := by
    refine ⟨[.called i], rfl, .one hread, fun row' hlike _ _ ts _ => ?_⟩
    obtain ⟨r, rfl, hr⟩ := hlike.singleton
    cases r with
    | called j =>
      refine ⟨hAS.imp Eq.symm fun h => ⟨List.mem_cons_self, fun _ => h⟩, some j, rfl, rfl, ?_⟩
      rw [hs]
      exact (bind_run (accept_kw ..)).trans (bind_run (parseIdent_tok ..))
    | _ => cases hr
  rcases h with ⟨hc, i, hi, rfl⟩ | ⟨hc, ⟨hi', i, hi, rfl⟩ | ⟨hn, rfl, rfl⟩⟩
  · obtain ⟨hread, rfl⟩ := parseIdent_ok hi
    exact hcalled i rfl (.inl ⟨hc, hread⟩) (.inl hc)
  · obtain ⟨hread, rfl⟩ := parseIdent_ok hi
    exact hcalled i rfl (.inr hread) (.inr hi')
  · refine ⟨[], rfl, rfl, fun row' hlike _ _ ts hf => ?_⟩
    obtain rfl := hlike.nil
    refine ⟨hf.mono (List.subset_cons_self ..), none, rfl, rfl, ?_⟩
    have hAS : nextTok ts ≠ .AS := fun he => by
      rcases hf with hf | hf
      · exact hc (hf.symm.trans he)
      · exact Bool.false_ne_true (hn.symm.trans (hf.2 he))
    have hid : ¬(nextTok ts).isIdent = true := hf.not (P := (Token.isIdent · = true)) (by simp [hn]) hS
    refine (bind_run (accept_of_ne hAS)).trans ?_
    rw [if_neg Bool.false_ne_true, peek_bind]
    exact (congrArg (Parser.run · _) (if_neg hid)).trans rfl

theorem parseTableName_sim (hS : ∀ t ∈ S, ¬t.isIdent = true) :
    Sim TableName.form S identToks L parseTableName parseTableName :=
  .seq (parseIdent_sim (S := .AS :: S) _) fun _ _ _ => .seq (parseAlias_sim _ hS)
    fun _ _ h => .pure (congrArg (TableName.mk _) h) rfl rfl

/-! ## Optional parts -/

theorem parseAfter_sim {p q : Parser (Node k)} (ht : t ∉ S) (hS : S ⊆ S')
    (hp : Sim (Node.form k) S' H L p q) :
    Sim (Node.afterForm t k) S S L (parseAfter t p) (parseAfter t q) :=
  .accept _ (writes_padded t) ht
    (.bind hp (fun _ _ h => .pure (congrArg Node.present h) rfl rfl) hS) (.pure rfl rfl rfl)

/-! ## Operands -/

/-- The procedures of `q` read back what those of `p` return. -/
structure Procs.Sim (p q : Procs) (L : Nat) : Prop where
  fuel : q.fuel = L
  operand : Sqlparser.Sim (Node.form .expr) exprStop leafToks L p.operand q.operand
  binaryExpr : ∀ prec, 0 < prec →
    Sqlparser.Sim (Node.form .expr) exprStop leafToks L (p.binaryExpr prec) (q.binaryExpr prec)
  selectStatement : ∀ c,
    Sqlparser.Sim (Node.form .select) stmtStop [] L (p.selectStatement c) (q.selectStatement c)
  source : Sqlparser.Sim (Node.form .source) stmtStop leafToks L p.source q.source

theorem Procs.Sim.expr {p q : Procs} (h : p.Sim q L) :
    Sqlparser.Sim (Node.form .expr) exprStop leafToks L p.expr q.expr :=
  h.binaryExpr _ (Nat.succ_pos _)

section Procs

variable {p q : Procs} (hp : p.Sim q L)

include hp

theorem args_sim :
    Sim (exprsForm (.trailing .COMMA)) [] leafToks L (argList p.expr p.fuel) (argList q.expr q.fuel) :=
  (argList_sim (by decide) (by decide) hp.expr _ (Nat.le_of_eq hp.fuel.symm) (Nat.le_refl _)).exprs

def filterForm : Form (Node (.opt .expr)) where
  Shape := Node (.opt .expr)
  shape := Node.shape
  parts f := partsIf (!f.isAbsent)
    (paddedParts [.FILTER] ++ .sign .LP :: .word .WHERE :: .space :: f.parts ++ [.sign .RP])

theorem parseFilter_sim : Sim filterForm exprStop exprStop L (parseFilter p) (parseFilter q) := by
  refine .branch (by decide) ?_ (.pure rfl rfl rfl)
  refine .seq (F := ⟨_, Node.shape, fun x => filterForm.parts (.present x)⟩) (K := exprStop) ?_
    fun _ _ h => .pure (congrArg Node.present h) rfl rfl
  exact .lower (.assert (paddedParts [.FILTER]) rfl (.expect [.sign .LP] rfl
    (.expect [.word .WHERE, .space] rfl (.bind hp.expr
    (fun _ _ h => .expect [.sign .RP] rfl (.pure h rfl rfl)) (List.nil_subset _)))))

theorem parseCall_sim (i : Ident) : ∃ (f : Parser Expr) (g : Ident → Parser Expr),
    parseCall p i = (assertTok .LP >>= fun _ => f) ∧
    (∀ j, parseCall q j = (assertTok .LP >>= fun _ => g j)) ∧
    ∀ j, SimFrom (Node.form .expr) exprStop leafToks L [.func i] [.func j] f (g j) := by
  refine ⟨_, _, rfl, fun _ => rfl, fun j => ?_⟩
  refine .accept [.sign .STAR, .check true] rfl (by decide)
    (.expect [.sign .RP] rfl (.seq (parseFilter_sim hp)
      fun _ _ h => .pure (congrArg (Node.call _ true false .nil) h) rfl rfl)) ?_
  refine .seq (accept_sim [.word .DISTINCT] rfl (by decide)) fun d d' hd => ?_
  obtain rfl : d' = d := hd
  have hargs := (args_sim hp).lead (r := fun xs => partsIf (d' && !(Node.ofList xs).isNil) [.space])
    (fun xs => by cases d' <;> cases xs <;> rfl)
    fun xs ys h => by simp only [Node.isNil_of_shape (show (Node.ofList ys).shape = _ from h)]
  refine .bind hargs (fun xs ys hxs => ?_) (List.nil_subset _)
  refine .expect [.sign .RP] rfl (.seq (parseFilter_sim hp) fun f f' hf => ?_)
  have hparts (i : Ident) (xs : List Expr) (f : Node (.opt .expr)) :
      (Node.call i false d' (Node.ofList xs) f).parts = [Part.func i] ++ partsIf d' [Part.word .DISTINCT] ++
        (partsIf (d' && !(Node.ofList xs).isNil) [Part.space] ++
          ((Node.ofList xs).parts ++ [Part.trailing .COMMA])) ++ [Part.sign .RP] ++ filterForm.parts f := by
    cases d' <;> simp [Node.parts, filterForm, partsIf]
  exact .pure (congrArg₂ (Node.call ⟨[], none⟩ false d') hxs hf) (hparts ..) (hparts ..)

theorem parseExprs_sim : Sim (Node.form .expr) S [] (L + 1) (parseExprs p) (parseExprs q) := by
  have hparts (xs : List Expr) : (Node.exprs (Node.ofList xs)).parts =
      [] ++ [Part.sign .LP] ++ ((Node.ofList xs).parts ++ [Part.trailing .COMMA]) ++ [Part.sign .RP] := by
    simp [Node.parts]
  exact .first [.sign .LP] rfl (.bind (args_sim hp) (fun xs ys h => .expect [.sign .RP] rfl
    (.pure (congrArg Node.exprs h) (hparts xs) (hparts ys))) (List.nil_subset _))

variable {a y x : Expr} {op : Token} {prec : Nat}

/-- Whatever the source closes with, a parenthesis is printed. -/
theorem parseParenExpr_sim (h : (parseParenExpr p).run s = .ok (a, s')) (ht : nextTok s.toks = .LP) :
    SimRun (Node.form .expr) S [] (L + 1) [] [] (parseParenExpr q) a s s' := by
  simp [parseParenExpr] at h
  obtain ⟨x, s₁, hx, rfl, rfl⟩ := h
  refine .same [.sign .LP] rfl ht (fun _ _ => rfl) (.bind (hp.expr hx) (fun y hy => .lower ?_)
    (show [Token.RP] ⊆ exprStop by decide))
  exact .lex (K := S) [.sign .RP] rfl (.sign rfl) (.self (by decide)) (fun _ _ => rfl)
    (.pure (congrArg Node.parenExpr hy) rfl rfl)

theorem parseCaseBlock_sim :
    Sim (Node.form .block) exprStop [] L (parseCaseBlock p) (parseCaseBlock q) :=
  .expect [.word .WHEN, .space] rfl (.bind hp.expr (fun _ _ hc => .expect (paddedParts [.THEN]) rfl
    (.seq hp.expr fun _ _ hb => .pure (congrArg₂ Node.caseBlock hc hb) rfl rfl)) (List.nil_subset _))

omit hp in
theorem parseCaseBlocks_ne_nil {n : Nat} {bs : List (Node .block)}
    (h : (parseCaseBlocks p n).run s = .ok (bs, s')) : bs ≠ [] := by
  cases n with
  | zero => simp [parseCaseBlocks] at h
  | succ n =>
    simp [parseCaseBlocks] at h
    obtain ⟨b, s₁, -, ⟨-, rfl, -⟩ | ⟨-, -, bs, -, rfl⟩⟩ := h <;> simp

/-- The blocks of a `CASE`, which nothing separates. -/
theorem parseCaseBlocks_sim : ∀ (n : Nat) {m k : Nat}, k ≤ m → k ≤ L →
    Sim ((Node.form .block).list [.space]) [] [] k (parseCaseBlocks p n) (parseCaseBlocks q m)
  | 0, _, _, _, _ => .error (fun _ _ h => by cases h)
  | n + 1, m, k, hm, hL => by
    refine SimFrom.fuel hm fun m hm => fun s bs s' h => ?_
    obtain ⟨b, s₁, hb, h⟩ := bind_ok.mp h
    have hb := (parseCaseBlock_sim hp hb).shorten hL
    refine hb.bindAt (L := k - 1) (fun r hr _ => ?_) (fun c hbc => ?_) (List.nil_subset exprStop)
    · rw [hr.length_toks]
      cases b with
      | caseBlock x y =>
        simp [Node.form, Node.parts, toksOf, Part.toks]
        omega
    · refine SimFrom.peek (H := []) (fun t => ?_) h
      refine .ite (.pure (congrArg (fun z => [z]) hbc) rfl rfl) (.ite ?_ (.error (fun _ _ h => by cases h)))
      refine .silent [.space] rfl (.seq' (parseCaseBlocks_sim n (by omega) (by omega))
        fun bs cs hbs h => ?_)
      obtain ⟨s, s', hbs⟩ := hbs
      have hne := parseCaseBlocks_ne_nil hbs
      exact .pure (congrArg₂ List.cons hbc h) (Form.list_cons hne)
        (Form.list_cons (map_ne_nil h hne))

def caseOperandForm : Form (Node (.opt .expr)) :=
  ⟨Node (.opt .expr), Node.shape, fun o => partsIf (!o.isAbsent) (.space :: o.parts)⟩

theorem parseCaseOperand_sim :
    Sim caseOperandForm [] leafToks L (parseCaseOperand p) (parseCaseOperand q) :=
  .branch (by decide) (.pure rfl rfl rfl) (.silent [.space] rfl
    (.bind hp.expr (fun _ _ h => .pure (congrArg Node.present h) rfl rfl) (List.nil_subset _)))

theorem parseCaseExpr_sim : Sim (Node.form .expr) S [] (L + 1) (parseCaseExpr p) (parseCaseExpr q) := by
  have hblocks := parseCaseBlocks_sim hp p.fuel (Nat.le_of_eq hp.fuel.symm) (Nat.le_refl _)
  refine .assert [.word .CASE] rfl (.bind (parseCaseOperand_sim hp) (fun o o' ho => ?_)
    (List.nil_subset _))
  refine .silent [.space] rfl (.seq' hblocks.nodes fun bs bs' hbs hb => ?_)
  refine .seq (parseAfter_sim (S := []) List.not_mem_nil (List.nil_subset _) hp.expr)
    fun e e' he => .expect (K := S) (spacedParts [.END]) rfl ?_
  obtain ⟨s, s', hbs⟩ := hbs
  have hnil : (Node.ofList bs).isNil = false := Node.isNil_ofList (parseCaseBlocks_ne_nil hbs)
  have hparts {o : Node (.opt .expr)} {bs : Node (.list .block)} {e : Node (.opt .expr)}
      (hnil : bs.isNil = false) : (Node.caseExpr o bs e).parts =
        [] ++ [Part.word .CASE] ++ caseOperandForm.parts o ++ [Part.space] ++ bs.parts ++
          (Node.afterForm .ELSE .expr).parts e ++ spacedParts [.END] := by
    simp [Node.parts, hnil, partsIf, caseOperandForm, Node.afterForm]
  exact .pure ((Node.caseExpr.injEq ..).mpr ⟨ho, hb, he⟩) (hparts hnil)
    (hparts ((Node.isNil_of_shape hb).trans hnil))

theorem parseExists_sim : Sim (Node.form .expr) S [] (L + 1) (parseExists p) (parseExists q) := by
  refine .seq (accept_sim (S := []) [.word .NOT, .space] rfl (by decide)) fun d d' hd => ?_
  refine .first [.word .EXISTS, .space] rfl (.expect [.sign .LP] rfl
    (.bind (hp.selectStatement false) (fun x y h => .expect (K := S) [.sign .RP] rfl ?_)
      (List.nil_subset _)))
  obtain rfl : d' = d := hd
  cases d' with
  | false | true => exact .pure (congrArg (Node.existsExpr _) h) rfl rfl

/-- The tokens that start an operand other than a literal. -/
def operandToks : List Token := [.IDENT, .QIDENT, .PLUS, .MINUS, .LP, .CASE, .NOT, .EXISTS]

omit hp in
/-- A literal is one token, which is read back as itself.  Only the kind of a number may change, and
a bind parameter takes the same position again. -/
theorem parseLiteral_sim (h : (parseLiteral s.cur).run s.next = .ok (a, s')) :
    SimRun (Node.form .expr) S leafToks L [] [] (parseOperand q) a s s' := by
  have hrun {t : Tok} (ht : t.tok ∉ operandToks) (us : List Tok) (b : Nat) :
      (parseOperand q).run ⟨t :: us, b⟩ = (parseLiteral t).run ⟨us, b⟩ := by
    simp [operandToks] at ht
    simp [parseOperand, Token.isIdent, ht]
  have hlit {r : Part} {t : Tok} (hparts : a.parts = [r]) (hn : r.isName = false)
      (hread : r.Reads s.toks s'.toks) (ht : r.toks = [t]) (hf : Follow leafToks (nextTok s.toks) t.tok)
      (hop : t.tok ∉ operandToks)
      (hq : ∀ ts, (parseLiteral t).run ⟨ts, s.binds⟩ = .ok (a, ⟨ts, s'.binds⟩)) :
      SimRun (Node.form .expr) S leafToks L [] [] (parseOperand q) a s s' := by
    refine ⟨[r], hparts, .one hread, fun row' hlike _ _ ts _ => ?_⟩
    obtain rfl := hlike.eq (List.forall_mem_singleton.mpr hn)
    rw [toksOf, List.flatMap_singleton, ht]
    exact ⟨hf, a, rfl, hparts.trans (by rw [Nameless.bare (List.forall_mem_singleton.mpr hn)]; rfl),
      (hrun hop ..).trans (hq ts)⟩
  have hnum (v : Text) : Follow leafToks (nextTok s.toks) (numberTok v).tok ∧
      (numberTok v).tok ∉ operandToks ∧ parseLiteral (numberTok v) = pure (.numberLit v) := by
    unfold numberTok
    split
    · exact ⟨.of_mem (show Token.INTEGER ∈ leafToks by decide) (by simp),
        show Token.INTEGER ∉ operandToks by decide, rfl⟩
    · exact ⟨.of_mem (show Token.FLOAT ∈ leafToks by decide) (by simp),
        show Token.FLOAT ∉ operandToks by decide, rfl⟩
  unfold parseLiteral at h
  split at h <;> first | cases h; done | (rename_i heq; cases h)
  case h_3 | h_4 =>
    obtain ⟨hf, hop, hq⟩ := hnum s.cur.lit
    refine hlit (r := .lit .INTEGER s.cur.lit) (t := numberTok s.cur.lit) rfl rfl ⟨?_, rfl, rfl⟩ rfl
      hf hop fun ts => by rw [hq]; rfl
    first | exact .inl heq | exact .inr ⟨rfl, heq⟩
  case h_5 | h_6 | h_7 =>
    exact hlit rfl rfl rfl rfl (.inl heq.symm) (by decide) fun _ => rfl
  all_goals
    exact hlit rfl rfl ⟨.inl heq, rfl, rfl⟩ rfl (.inl heq.symm) (by simp [operandToks]) fun _ => rfl

omit hp in
theorem parseOperand_ident (i : Ident) (us : List Tok) (b : Nat) :
    (parseOperand q).run ⟨i.tok :: us, b⟩ =
      (if nextTok us = .DOT then parseQualifiedRef i
        else if nextTok us = .LP then parseCall q i
        else pure (.ident i)).run ⟨us, b⟩ := by
  rw [parseOperand, peek_bind, if_pos (by exact i.isIdent_tok), lexTok_bind, next_cons, peek_bind,
    cur_cons, identByNameAndTok_tok]

omit hp in
theorem parseQualifiedRef_sim (hi : (nextTok s.toks).isIdent = true)
    (hc : nextTok s.next.toks = .DOT)
    (h : (parseQualifiedRef (identByNameAndTok s.cur)).run s.next = .ok (a, s')) :
    SimRun (Node.form .expr) S leafToks L [] [] (parseOperand q) a s s' := by
  have hn : ReadsIdent (identByNameAndTok s.cur) s.toks s.next.toks := ⟨hi, rfl, rfl⟩
  simp [parseQualifiedRef] at h
  obtain ⟨-, ⟨-, rfl, rfl⟩ | ⟨-, c, hcol, rfl⟩⟩ := h
  · refine ⟨[.name _, .star], rfl, .cons hn (.one rfl), fun row' hlike _ _ ts _ => ?_⟩
    obtain ⟨r, _, rfl, hr, hlike⟩ := hlike.cons
    obtain rfl := hlike.eq (List.forall_mem_singleton.mpr rfl)
    cases r with
    | name j => exact ⟨j.follow_leaf _, .qualifiedRef j none, rfl, rfl, parseOperand_ident j _ _⟩
    | _ => cases hr
  · obtain ⟨hread, rfl⟩ := parseIdent_ok hcol
    refine ⟨[.name _, .column c], rfl, .cons hn (.one ⟨hc, hread⟩), fun row' hlike _ _ ts _ => ?_⟩
    obtain ⟨r, _, rfl, hr, hlike⟩ := hlike.cons
    obtain ⟨r', rfl, hr'⟩ := hlike.singleton
    cases r with
    | name j =>
      cases r' with
      | column d =>
        refine ⟨j.follow_leaf _, .qualifiedRef j (some d), rfl, rfl, ?_⟩
        refine (parseOperand_ident j _ _).trans ((bind_run (assertTok_kw ..)).trans ?_)
        have hd : nextTok (d.tok :: ts) ≠ .STAR := fun he => by
          cases (congrArg Token.isIdent he).symm.trans d.isIdent_tok
        exact (bind_run (accept_of_ne hd)).trans (bind_run (parseIdent_tok ..))
      | _ => cases hr'
    | _ => cases hr

/-- The name of a function is printed without its quotes. -/
theorem parseOperand_call_sim (hi : (nextTok s.toks).isIdent = true)
    (h : (parseCall p (identByNameAndTok s.cur)).run s.next = .ok (a, s')) :
    SimRun (Node.form .expr) exprStop leafToks (L + 1) [] [] (parseOperand q) a s s' := by
  have hn : ReadsIdent (identByNameAndTok s.cur) s.toks s.next.toks := ⟨hi, rfl, rfl⟩
  obtain ⟨f, g, hf, hg, hsim⟩ := parseCall_sim hp (identByNameAndTok s.cur)
  rw [hf, assertTok_bind_ok] at h
  obtain ⟨row, hrow, hread, -⟩ := hsim (identByNameAndTok s.cur) h.2
  refine ⟨.func _ :: row, hrow, .func hn hread, fun row' hlike hleg hlen ts hfol => ?_⟩
  obtain ⟨r, row', rfl, hr, hl⟩ := hlike.cons
  cases r with
  | func j =>
    obtain ⟨row₂, hrow₂, -, hback⟩ := hsim j.unquote h.2
    obtain rfl := List.append_cancel_left (hrow.symm.trans hrow₂)
    have hlen : (toksOf row').length + 2 < L + 1 := hlen
    obtain ⟨-, b, hb, hpb, hq⟩ := hback hl (List.forall_mem_cons.mp hleg).2 (by omega) hfol
    refine ⟨j.unquote.follow_leaf _, b, hb, hpb, Eq.trans ?_ hq⟩
    refine (parseOperand_ident j.unquote (.kw .LP :: (toksOf row' ++ ts)) _).trans ?_
    rw [if_neg (by exact nofun), if_pos (by exact nextTok_cons ..), hg]
    exact bind_run (assertTok_kw ..)
  | _ => cases hr

/-- An operand is read back. -/
theorem parseOperand_sim :
    Sim (Node.form .expr) exprStop leafToks (L + 1) (parseOperand p) (parseOperand q) := by
  intro s a s' h
  simp [parseOperand] at h
  rcases h with ⟨hi, ⟨hc, h⟩ | ⟨hc, ⟨hc', h⟩ | ⟨hc', rfl, rfl⟩⟩⟩ |
    ⟨-, ⟨hop, x, hx, rfl⟩ | ⟨-, ⟨hc, h⟩ | ⟨-, ⟨hc, h⟩ | ⟨-, ⟨hc, h⟩ | ⟨-, h⟩⟩⟩⟩⟩
  · exact parseQualifiedRef_sim hi hc h
  · exact parseOperand_call_sim hp hi h
  · refine ⟨[.name _], rfl, .one ⟨hi, rfl, rfl⟩, fun row' hlike _ _ ts hf => ?_⟩
    obtain ⟨r, rfl, hr⟩ := hlike.singleton
    cases r with
    | name j =>
      refine ⟨j.follow_leaf _, .ident j, rfl, rfl, (parseOperand_ident j ts _).trans ?_⟩
      rw [if_neg (hf.ne hc (by decide)), if_neg (hf.ne hc' (by decide))]
      rfl
    | _ => cases hr
  · have ht : writes (nextTok s.toks) [.unary (nextTok s.toks)] = true := by
      rcases hop with hop | hop <;> rw [hop] <;> rfl
    have hrun : SimRun (Node.form .expr) exprStop [] (L + 1) [] []
        (lexTok >>= fun t => q.operand >>= fun y => pure (.unaryExpr t.tok y))
        (.unaryExpr (nextTok s.toks) x) s s' :=
      .same _ ht rfl (fun _ _ => rfl) (.seq (hp.operand hx)
        fun y hy => .pure (congrArg (Node.unaryExpr _) hy) rfl rfl)
    refine hrun.congr fun us b hu => ?_
    rw [parseOperand, peek_bind, hu]
    rcases hop with hop | hop <;>
    · rw [hop]
      rfl
  · refine (parseParenExpr_sim hp h hc).congr fun us b hu => ?_
    rw [parseOperand, peek_bind, hu, hc]
    rfl
  · refine (parseCaseExpr_sim hp h).congr fun us b hu => ?_
    rw [parseOperand, peek_bind, hu, hc]
    rfl
  · refine (parseExists_sim hp h).congr fun us b hu => ?_
    rcases hc with hc | hc <;>
    · rw [parseOperand, peek_bind, hu, hc]
      rfl
  · exact parseLiteral_sim h

/-! ## Binary expressions -/

omit hp in
theorem opToks_self (hprec : 0 < t.precedence) (hnot : t ≠ .NOT)
    (hw : (binaryOpWords t).isSome = true) : opToks t = [.kw t] := by
  have hwords : binaryOpWords t = some [t] := by
    unfold binaryOpWords at hw ⊢
    split <;> simp_all [Token.precedence]
  rw [opToks, hwords]
  rfl

omit hp in
theorem notOp_opToks (h : notOp t = some op) : opToks op = [.kw .NOT, .kw t] := by
  unfold notOp at h
  split at h <;> cases h <;> rfl

omit hp in
theorem opToks_pos (h : (binaryOpWords t).isSome = true) : 0 < (opToks t).length := by
  unfold opToks binaryOpWords at *
  split <;> simp_all

omit hp in
theorem Node.toks_pos : ∀ x : Expr, 0 < (toksOf x.parts).length
  | .binaryExpr x _ _ | .range x _ => by
    have hx := Node.toks_pos x
    simp [Node.parts, toksOf_append]
    omega
  | .existsExpr false _ | .existsExpr true _ => by simp [Node.parts, partsIf, toksOf, Part.toks]
  | .ident _ | .stringLit _ | .blobLit _ | .numberLit _ | .nullLit | .boolLit _ | .bindExpr _ _
  | .unaryExpr _ _ | .parenExpr _ | .caseExpr _ _ _ | .exprs _ | .qualifiedRef _ none
  | .qualifiedRef _ (some _) | .call _ _ _ _ _ => by simp [Node.parts, toksOf, Part.toks]

def opForm : Form Token := ⟨Token, id, fun op => [.op op]⟩

omit hp in
/-- An operator is printed as the words it was read from.  `IS` is not mistaken for `IS NOT`,
because no printed operand starts with `NOT` where the source's does not. -/
theorem lexBinaryOp_sim (h : lexBinaryOp.run s = .ok (op, s'))
    (hprec : 0 < (nextTok s.toks).precedence) :
    SimRun opForm leafToks [] L [] [] lexBinaryOp op s s' := by
  have hrun (hread : ReadsOp op s.toks s'.toks)
      (hback : (binaryOpWords op).isSome = true → ∀ ts, Follow leafToks (nextTok s'.toks) (nextTok ts) →
        nextTok (opToks op ++ ts) = nextTok s.toks ∧
          lexBinaryOp.run ⟨opToks op ++ ts, s.binds⟩ = .ok (op, ⟨ts, s'.binds⟩)) :
      SimRun opForm leafToks [] L [] [] lexBinaryOp op s s' := by
    refine ⟨[.op op], rfl, .one hread, fun row' hlike hleg _ ts hf => ?_⟩
    obtain rfl := hlike.eq (List.forall_mem_singleton.mpr rfl)
    obtain ⟨hhead, hq⟩ := hback (hleg _ List.mem_cons_self) ts hf
    rw [toksOf, List.flatMap_singleton]
    exact ⟨.inl hhead, op, rfl, rfl, hq⟩
  rw [lexBinaryOp, lexTok_bind, cur_tok] at h
  by_cases his : nextTok s.toks = .IS
  · rw [if_pos his, accept_bind_ok] at h
    simp at h
    rcases h with ⟨hc, rfl, rfl⟩ | ⟨hc, rfl, rfl⟩
    · refine hrun (.inl ⟨his, hc, rfl, rfl⟩) fun _ ts _ => ⟨his.symm, ?_⟩
      simp [lexBinaryOp, opToks, binaryOpWords]
    · refine hrun (.inr (.inr ⟨his, by decide, rfl⟩)) fun _ ts hf => ⟨his.symm, ?_⟩
      have hne : nextTok ts ≠ .NOT := hf.ne hc (by decide)
      simp [lexBinaryOp, opToks, binaryOpWords, hne]
  by_cases hnot : nextTok s.toks = .NOT
  · rw [if_neg his, if_pos hnot, peek_bind] at h
    cases ho : notOp (nextTok s.next.toks) with
    | none =>
      rw [ho] at h
      cases h
    | some op' =>
      rw [ho] at h
      cases h
      refine hrun (.inr (.inl ⟨hnot, ho, rfl⟩)) fun _ ts _ => ?_
      rw [notOp_opToks ho]
      exact ⟨hnot.symm, by simp [lexBinaryOp, ho]⟩
  · rw [if_neg his, if_neg hnot] at h
    cases h
    refine hrun (.inr (.inr ⟨rfl, hnot, rfl⟩)) fun hw ts _ => ?_
    rw [opToks_self hprec hnot hw]
    exact ⟨rfl, by simp [lexBinaryOp, his, hnot]⟩

omit hp in
/-- A range is read as the conjunction it was parsed as. -/
theorem Reads.range_of_and {ts rest : List Tok} (h : Reads (Node.binaryExpr x .AND y).parts ts rest) :
    Reads (Node.range x y).parts ts rest := by
  rw [Node.parts, List.append_assoc]
  refine h.replace List.suffix_rfl (fun _ hq => ?_) ?_
  · simpa [paddedParts, spacedParts, Part.Sound, Part.Wf] using hq
  · rintro m (⟨_, hop, hy⟩ | ⟨hj, -⟩)
    · rcases hop with ⟨-, -, h, -⟩ | ⟨-, h, -⟩ | ⟨h, -, rfl⟩
      · cases h
      · unfold notOp at h
        split at h <;> cases h
      · exact .space (.word (.space hy))
    · cases hj

omit hp in
theorem Node.length_parts {x y : Node k} (h : y.shape = x.shape) : y.parts.length = x.parts.length := by
  simpa [shape, parts_mapIdents] using congrArg (fun z : Node k => z.parts.length) h

omit hp in
/-- The range is printed as the conjunction it was parsed as. -/
theorem range_sim {r : Parser Expr}
    (h : SimRun (Node.form .expr) S H L [] [] r (.binaryExpr x .AND y) s s') :
    SimRun (Node.form .expr) S H L [] [] (r >>= fun z => match z.conjuncts? with
      | some (x, y) => pure (.range x y)
      | none => errorExpected "range expression") (.range x y) s s' := by
  obtain ⟨row, hrow, hread, hback⟩ := h
  obtain rfl : (Node.binaryExpr x .AND y).parts = row := hrow
  refine ⟨(Node.range x y).parts, rfl, hread.range_of_and, fun row' hlike hleg hlen ts hf => ?_⟩
  obtain ⟨_, ys, rfl, hl, hy⟩ := Like.append hlike
  obtain ⟨xs, _, rfl, hx, hl⟩ := hl.append
  obtain rfl := hl.eq (by simp [Nameless, paddedParts, spacedParts, Part.isName])
  have htoks : toksOf (xs ++ paddedParts [.AND] ++ ys) = toksOf (xs ++ Part.op .AND :: ys) := by
    simp [toksOf, paddedParts, spacedParts, Part.toks, opToks, binaryOpWords]
  rw [htoks] at hlen ⊢
  have hlike' : Like (Node.binaryExpr x .AND y).parts (xs ++ .op .AND :: ys) := by
    rw [Like, Node.parts, List.map_append, List.map_append, List.map_cons, List.map_cons, hx, hy]
  have hleg' : ∀ p ∈ xs ++ .op .AND :: ys, p.legible = true := by
    obtain ⟨hxs, hys⟩ := List.forall_mem_append.mp hleg
    exact List.forall_mem_append.mpr ⟨(List.forall_mem_append.mp hxs).1,
      List.forall_mem_cons.mpr ⟨rfl, hys⟩⟩
  obtain ⟨hh, b, hb, hpb, hq⟩ := hback hlike' hleg' hlen hf
  refine ⟨hh, ?_⟩
  cases b with
  | binaryExpr x' op y' =>
    obtain ⟨hx', rfl, hy'⟩ := (Node.binaryExpr.injEq ..).mp hb
    rw [List.nil_append, List.map_append] at hpb
    obtain ⟨hpx, hpy⟩ := List.append_inj hpb (by rw [Node.length_parts hx', List.length_map, hx.length])
    refine ⟨.range x' y', (Node.range.injEq ..).mpr ⟨hx', hy'⟩, ?_, (bind_run hq).trans rfl⟩
    simp [Node.form, Node.parts, hpx, (List.cons.inj hpy).2, paddedParts, spacedParts, Part.bare, Part.mapIdents]
  | _ => cases hb

theorem parseRightOperand_sim (op : Token) : Sim (Node.form .expr) exprStop leafToks L
    (parseRightOperand p op) (parseRightOperand q op) := by
  refine .ite (.weaken (parseExprs_sim hp) (List.Subset.refl _) (List.nil_subset _) (Nat.le_succ _))
    (.ite ?_ (hp.binaryExpr _ (Nat.succ_pos _)))
  intro s a s' h
  obtain ⟨r, s₁, hr, h⟩ := bind_ok.mp h
  cases hc : r.conjuncts? with
  | none =>
    rw [hc] at h
    cases h
  | some xy =>
    obtain ⟨x, y⟩ := xy
    rw [hc] at h
    cases h
    cases Node.conjuncts?_eq hc
    exact range_sim (hp.binaryExpr _ (Nat.succ_pos _) hr)

/-- The loop appends its operators and operands to what it started with. -/
theorem binaryLoop_sim (hprec : 0 < prec) : ∀ (n : Nat) {m k : Nat} {x y : Expr},
    k ≤ m → k ≤ L + 1 → y.shape = x.shape →
    SimFrom (Node.form .expr) exprStop exprStop k x.parts y.parts (binaryLoop p prec n x)
      (binaryLoop q prec m y)
  | 0, _, _, _, _, _, _, _ => .error nofun
  | n + 1, m, k, x, y, hm, hL, hxy => by
    refine SimFrom.fuel (q := (binaryLoop q prec · y)) hm fun m hm => fun s a s' h => ?_
    rw [binaryLoop, peek_bind, ite_ok] at h
    obtain ⟨hc, h⟩ | ⟨hc, h⟩ := h
    · cases h
      refine SimRun.pos (P := fun t => t.precedence < prec) hc (fun t ht => ?_) (.pure hxy rfl rfl)
      have hzero : ∀ t ∈ exprStop, t.precedence = 0 := by decide
      rw [hzero t ht]
      exact hprec
    · obtain ⟨op, s₁, hop, h⟩ := bind_ok.mp h
      obtain ⟨z, s₂, hz, h⟩ := bind_ok.mp h
      refine (SimRun.neg (P := fun t => t.precedence < prec) (H := []) hc nofun ?_).atHead
      refine (lexBinaryOp_sim hop (by omega)).bindAt (L := k - 1) (fun r hr hleg => ?_)
        (fun op' hop' => ?_) (List.Subset.refl _)
      · obtain rfl := hr.eq (List.forall_mem_singleton.mpr rfl)
        have hpos := opToks_pos (hleg _ List.mem_cons_self)
        change k ≤ k - 1 + (opToks op ++ []).length
        rw [List.append_nil]
        omega
      · obtain rfl : op' = op := hop'
        refine .seq ((parseRightOperand_sim hp op' hz).shorten (by omega)) fun z' hz' => ?_
        have ih := binaryLoop_sim hprec n (m := m) (k := k - 1) (x := .binaryExpr x op' z)
          (y := .binaryExpr y op' z') (by omega) (by omega)
          ((Node.binaryExpr.injEq ..).mpr ⟨hxy, rfl, hz'⟩) h
        rw [Node.parts, Node.parts, List.append_cons x.parts, List.append_cons y.parts] at ih
        exact ih

/-- An expression is read back, by precedence climbing. -/
theorem parseBinaryExpr_sim (hprec : 0 < prec) :
    Sim (Node.form .expr) exprStop leafToks (L + 1) (parseBinaryExpr p prec)
      (parseBinaryExpr q prec) := by
  intro s a s' h
  obtain ⟨x, s₁, hx, h⟩ := bind_ok.mp h
  refine (parseOperand_sim hp hx).bindAt (L := L) (fun r hr _ => ?_)
    (fun y hy => binaryLoop_sim hp hprec _ (Nat.le_of_eq hp.fuel.symm) (Nat.le_succ _) hy h)
    (List.Subset.refl _)
  have hpos := x.toks_pos
  have hlen : (toksOf r).length = (toksOf x.parts).length := hr.length_toks
  omega

end Procs

end Gofusion.Sqlparser
