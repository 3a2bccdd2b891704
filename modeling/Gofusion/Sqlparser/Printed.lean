import Gofusion.Sqlparser.Rows
import Gofusion.Sqlparser.Wellformed

/-!
# The rows of statements

The printer prints the parts of a statement one after the other, the tokens of the statement are
those of its parts, and the statement is legible when its parts are.
-/

namespace Gofusion.Sqlparser

/-! ## Texts -/

variable {c : Prop} {sep : List Part}

section

variable {k : Kind} {p : Part} {ps qs : List Part} {b : Bool}

@[simp]
theorem render_nil : render [] = some [] := rfl

@[simp]
theorem render_cons : render (p :: ps) =
    if p.printable = true then (render ps).bind fun s => some (p.text ++ s) else none := by
  rw [render, Option.map_eq_bind]
  rfl

@[simp]
theorem render_append : render (ps ++ qs) =
    (render ps).bind fun s => (render qs).bind fun r => some (s ++ r) := by
  induction ps with
  | nil => simp
  | cons p ps ih => by_cases hp : p.printable <;> simp [hp, ih, Option.bind_assoc]

attribute [simp] Part.text Part.printable

@[simp]
theorem render_ite [Decidable c] :
    render (if c then ps else qs) = if c then render ps else render qs := by
  split <;> rfl

@[simp]
theorem render_partsIf : render (partsIf b ps) = if b = true then render ps else some [] := by
  cases b <;> rfl

@[simp]
theorem render_words (ws : List Token) : render (spacedParts ws) = some (ws.flatMap Token.spaced) := by
  induction ws with
  | nil => rfl
  | cons t ws ih =>
    have hcons : spacedParts (t :: ws) = .space :: .word t :: spacedParts ws := rfl
    simp [hcons, ih, Token.spaced]

variable {s : Text} {f : Text → Option Text}

theorem some_ite [Decidable c] {r : Text} :
    (if c then some s else some r) = some (if c then s else r) := by
  split <;> rfl

@[simp]
theorem render_called (o : Option Ident) : render (calledParts o) = some (aliasText o) := by
  cases o <;> simp [calledParts, aliasText]

theorem render_joinParts {α : Type} {g : α → List Part} {f : α → Option Text}
    (hsep : render sep = some s) (hf : ∀ x, f x = render (g x)) : ∀ xs : List α,
    render (joinParts sep (xs.map g)) = (stringList f xs).bind fun ss => some (joinText s ss)
  | [] => rfl
  | [x] => by cases h : render (g x) <;> simp [joinParts, stringList, hf, h, joinText]
  | x :: y :: ys => by
    have ih := render_joinParts hsep hf (y :: ys)
    simp only [List.map_cons, joinParts, render_append, hsep, stringList] at ih ⊢
    cases hx : f x <;> simp_all [joinText, Option.bind_assoc]

theorem render_comma : render commaParts = some commaText := rfl

@[simp]
theorem render_names (is : List Ident) : render (namesParts is) = some (identsText is) := by
  have hname (i : Ident) : some i.string = render [.name i] := by simp
  have hlist : stringList (fun i : Ident => some i.string) is = some (is.map Ident.string) := by
    induction is with
    | nil => rfl
    | cons i is ih => simp [stringList, ih]
  rw [namesParts, render_joinParts render_comma hname, hlist]
  rfl

@[simp]
theorem render_absent {o : Node (.opt k)} :
    (if o.isAbsent = false then (render o.parts).bind f else some []) =
      (render o.parts).bind fun s => if o.isAbsent = false then f s else some [] := by
  cases o <;> rfl

@[simp]
theorem render_isNil {xs : Node (.list k)} :
    (if xs.isNil = false then (render xs.parts).bind f else some []) =
      (render xs.parts).bind fun s => if xs.isNil = false then f s else some [] := by
  cases xs <;> rfl

theorem signs_string : Token.LP.string = ['('] ∧ Token.RP.string = [')'] ∧
    Token.STAR.string = ['*'] := ⟨rfl, rfl, rfl⟩

theorem render_group (g : Node (.list .expr)) (h : Node (.opt .expr)) :
    render (groupParts g.isNil h.isAbsent g.parts h.parts) = (render g.parts).bind fun grp =>
      (stringIf (!g.isNil) (render h.parts)).bind fun hav =>
        some (textIf (!g.isNil) (Token.GROUP.spaced ++ Token.BY.padded ++ grp ++
          textIf (!h.isAbsent) (Token.HAVING.padded ++ hav))) := by
  cases hg : g.isNil <;>
    simp [groupParts, paddedParts, stringIf, textIf, some_ite, Token.padded, Option.bind_assoc,
      Node.parts_of_isNil, hg, Token.spaced]

theorem render_limit (l f o : Node (.opt .expr)) :
    render (limitParts l.isAbsent f.isAbsent o.isAbsent l.parts f.parts o.parts) =
      (render l.parts).bind fun lim => (render o.parts).bind fun off =>
      (stringIf (l.isAbsent && !o.isAbsent) (render f.parts)).bind fun fet =>
        some (textIf (!l.isAbsent) (Token.LIMIT.padded ++ lim ++
          textIf (!o.isAbsent) (Token.OFFSET.padded ++ off)) ++
        textIf (l.isAbsent && !o.isAbsent) (Token.OFFSET.padded ++ off ++ Token.ROWS.spaced ++
          textIf (!f.isAbsent) (Token.FETCH.spaced ++ Token.NEXT.padded ++ fet ++
            Token.ROWS.spaced ++ Token.ONLY.spaced))) := by
  cases hl : l.isAbsent <;> cases ho : o.isAbsent <;>
    simp [limitParts, paddedParts, stringIf, textIf, some_ite, Token.padded, Option.bind_assoc,
      Node.parts_of_isAbsent, hl, ho, Token.spaced]

theorem render_clause {ws : List Token} (h : b = false → ps = []) :
    render (partsIf b (paddedParts ws ++ ps)) =
      (render ps).bind fun s => some (textIf b (ws.flatMap Token.spaced ++ ' ' :: s)) := by
  cases b with
  | false => simp [h rfl, textIf]
  | true => simp [textIf, paddedParts, Option.bind_assoc]

/-- The printer writes the parts. -/
theorem Node.string_eq (x : Node k) : x.string = render x.parts := by
  induction x with
  | cons x xs ihx ihxs =>
    cases xs with
    | nil => simp [string, parts, isNil, ihx]
    | cons y ys =>
      have hsep (k : Kind) : render (sepParts k) = some (sepText k) := by cases k <;> rfl
      rw [string, parts, ihx, ihxs]
      simp [isNil, hsep, Option.bind_assoc]
  | boolLit b => cases b <;> simp [string, parts]
  | qualifiedRef tbl column => cases column <;> simp [string, parts]
  | unaryExpr op x ih => cases hx : render x.parts <;> simp [string, parts, ih, hx]
  | binaryExpr x op y ihx ihy =>
    cases hop : binaryOpWords op <;> cases hx : render x.parts <;>
      simp [string, parts, hop, ihx, ihy, hx, Option.bind_assoc]
  | call _ star distinct _ _ iha ihf =>
    cases star <;> cases distinct <;>
      simp [string, parts, iha, ihf, argsString, paddedParts, signs_string, some_ite,
        textIf, Token.padded, Token.spaced, Option.bind_assoc]
  | resultColumn star x _ ih =>
    cases star <;> cases hx : x.isAbsent <;>
      simp [string, parts, ih, hx, signs_string, Option.bind_assoc]
  | selectStatement hint all distinct _ _ _ _ _ _ _ orderBy _ _ _ ih₁ ih₂ ih₃ ih₄ ih₅ ih₆ ih₇ ih₈
      ih₉ ih₁₀ =>
    have hhint : render (hint.map (Part.lit .MLCOMMENT)).toList = some (hintText hint) := by
      cases hint <;> simp [hintText]
    have hall : render (if all then [.word .ALL, .space] else partsIf distinct [.word .DISTINCT, .space]) =
        some (if all then Token.ALL.string ++ [' '] else textIf distinct (Token.DISTINCT.string ++ [' '])) := by
      cases all <;> cases distinct <;> rfl
    have hopt {k : Kind} (o : Node (.opt k)) (ws : List Token) :=
      @render_clause o.parts (!o.isAbsent) ws fun h => parts_of_isAbsent (by simpa using h)
    have horder := @render_clause orderBy.parts (!orderBy.isNil) [.ORDER, .BY] fun h =>
      parts_of_isNil (by simpa using h)
    have hsome (s : Text) (f : Text → Option Text) : (some s >>= f) = f s := rfl
    -- as a `do` block, since the congruence rule of `Option.bind` is expensive
    simp only [string, parts, ih₁, ih₂, ih₃, ih₄, ih₅, ih₆, ih₇, ih₈, ih₉, ih₁₀, hhint,
      render_append, render_cons, hall, hopt, horder, render_group, render_limit, Part.printable,
      Part.text, if_true, ← Option.bind_eq_bind, hsome, bind_assoc]
    simp only [textIf, Token.padded, Token.spaced, List.append_assoc, List.cons_append,
      List.nil_append, List.flatMap_cons, List.flatMap_nil]
  | _ =>
    simp_all [string, parts, signs_string, paddedParts, some_ite, textIf, Token.padded,
      Token.spaced, Option.bind_assoc, directionParts, TableName.string, TableName.parts]

end

/-! ## Places -/

section

variable {k : Kind} {p : Part} {ps qs : List Part} {b : Bool} {r s : Text}

@[simp]
theorem textOf_append : textOf (ps ++ qs) = textOf ps ++ textOf qs := List.flatMap_append

@[simp]
theorem fits_append : Fits (ps ++ qs) r ↔ Fits ps (textOf qs ++ r) ∧ Fits qs r := by
  induction ps with
  | nil => simp [Fits]
  | cons p ps ih => simp only [List.cons_append, Fits, textOf_append, List.append_assoc, ih, and_assoc]

@[simp]
theorem fits_partsIf : Fits (partsIf b ps) r ↔ (b = true → Fits ps r) := by
  cases b <;> simp [partsIf, Fits]

@[simp]
theorem fits_ite [Decidable c] :
    Fits (if c then ps else qs) r ↔ if c then Fits ps r else Fits qs r := by
  split <;> rfl

@[simp]
theorem stop_partsIf : Stop (textOf (partsIf b ps) ++ r) ↔
    if b = true then Stop (textOf ps ++ r) else Stop r := by
  cases b <;> rfl

theorem stop_words (ws : List Token) (hr : Stop r) : Stop (textOf (spacedParts ws) ++ r) := by
  cases ws with
  | nil => exact hr
  | cons t ws => exact stop_space _

@[simp]
theorem stop_word (t : Token) (ws : List Token) : Stop (textOf (spacedParts (t :: ws)) ++ r) :=
  stop_space _

variable {ws : List Token}

theorem fits_words (hws : ∀ t ∈ ws, t ∈ printedWords) (hr : Stop r) : Fits (spacedParts ws) r := by
  induction ws with
  | nil => trivial
  | cons t ws ih =>
    obtain ⟨ht, hws⟩ := List.forall_mem_cons.mp hws
    exact ⟨trivial, ⟨ht, (stop_words ws hr).noWord⟩, ih hws⟩

theorem fits_padded (hws : ∀ t ∈ ws, t ∈ printedWords) : Fits (paddedParts ws) r :=
  fits_append.mpr ⟨fits_words hws (stop_space _), trivial, trivial⟩

theorem stop_padded (ws : List Token) : Stop (textOf (paddedParts ws) ++ r) := by
  rw [paddedParts, textOf_append, List.append_assoc]
  exact stop_words ws (stop_space _)

theorem JoinOperator.stop_string (op : JoinOperator) : Stop (op.string ++ r) := by
  cases hc : op.comma with
  | true =>
    rw [string, if_pos hc]
    exact stop_comma _
  | false =>
    obtain ⟨hs, -⟩ := words_spec hc
    rw [hs, List.append_assoc]
    cases op.words with
    | nil => exact stop_space _
    | cons t ws => exact stop_space _

theorem stop_opText (ws : List Token) : Stop (opText ws ++ r) := by
  rw [opText, List.append_assoc]
  cases ws with
  | nil => exact stop_space _
  | cons t ws => exact stop_space _

theorem textOf_nil : textOf [] = [] := rfl

/-- The row fits in front of what ends it. -/
def Rests (ps : List Part) : Prop := ∀ r, Stop r → Fits ps r

/-- The row also ends what stands in front of it. -/
def Ends (ps : List Part) : Prop := ∀ r, Stop r → Stop (textOf ps ++ r) ∧ Fits ps r

theorem Rests.append (h : Rests ps) (h' : Ends qs) : Rests (ps ++ qs) :=
  fun r hr => fits_append.mpr ⟨h _ (h' r hr).1, (h' r hr).2⟩

theorem Ends.append (h : Ends ps) (h' : Ends qs) : Ends (ps ++ qs) := by
  intro r hr
  obtain ⟨hs', hf'⟩ := h' r hr
  obtain ⟨hs, hf⟩ := h _ hs'
  rw [textOf_append, List.append_assoc]
  exact ⟨hs, fits_append.mpr ⟨hf, hf'⟩⟩

theorem Ends.partsIf (h : Ends ps) : Ends (partsIf b ps) := by
  cases b with
  | false => exact fun _ hr => ⟨hr, trivial⟩
  | true => exact h

theorem Ends.nil : Ends [] := fun _ hr => ⟨hr, trivial⟩

theorem rests_joinParts (hsep : ∀ r, Stop (textOf sep ++ r) ∧ Fits sep r) :
    ∀ {xs : List (List Part)}, (∀ x ∈ xs, Rests x) → Rests (joinParts sep xs)
  | [], _ => fun _ _ => trivial
  | [x], h => h x List.mem_cons_self
  | x :: y :: ys, h => by
    obtain ⟨hx, hys⟩ := List.forall_mem_cons.mp h
    intro r hr
    rw [joinParts, List.append_assoc, fits_append, fits_append, textOf_append, List.append_assoc]
    exact ⟨hx _ (hsep _).1, (hsep _).2, rests_joinParts hsep hys r hr⟩

theorem fits_comma (r : Text) : Stop (textOf commaParts ++ r) ∧ Fits commaParts r :=
  ⟨stop_comma _, (by decide : Token.COMMA ∈ looseSigns), trivial, trivial⟩

theorem rests_names (is : List Ident) : Rests (namesParts is) :=
  rests_joinParts fits_comma fun x hx r hr => by
    obtain ⟨i, -, rfl⟩ := List.mem_map.mp hx
    exact ⟨hr.noWord, trivial⟩

theorem ends_direction (asc desc : Bool) : Ends (directionParts asc desc) := by
  intro r hr
  cases asc <;> cases desc <;> simp +decide [directionParts, hr, fits_words]

theorem ends_called (o : Option Ident) : Ends (calledParts o) := by
  cases o with
  | none => exact Ends.nil
  | some i => exact fun r hr => ⟨stop_space _, hr.noWord, trivial⟩

theorem TableName.rests (n : TableName) : Rests n.parts :=
  fun r hr => ⟨(ends_called n.tableAlias r hr).1.noWord, (ends_called n.tableAlias r hr).2⟩

theorem ends_words (hws : ∀ t ∈ ws, t ∈ printedWords) : Ends (spacedParts ws) :=
  fun _ hr => ⟨stop_words ws hr, fits_words hws hr⟩

theorem Rests.padded (h : Rests ps) (hws : ∀ t ∈ ws, t ∈ printedWords) :
    Ends (paddedParts ws ++ ps) := by
  intro r hr
  rw [textOf_append, List.append_assoc]
  exact ⟨stop_padded ws, fits_append.mpr ⟨fits_padded hws, h r hr⟩⟩

theorem ends_check (b : Bool) : Ends [.check b] := fun _ hr => ⟨hr, trivial, trivial⟩

theorem ends_group {g h : List Part} {noGroup noHaving : Bool} (hg : Rests g) (hh : Rests h) :
    Ends (groupParts noGroup noHaving g h) := by
  cases noGroup with
  | true => exact ends_check _
  | false => exact (hg.padded (by decide)).append (hh.padded (by decide)).partsIf

theorem ends_limit {l f o : List Part} {noLimit noFetch noOffset : Bool} (hl : Rests l)
    (hf : Rests f) (ho : Rests o) : Ends (limitParts noLimit noFetch noOffset l f o) := by
  have hrows : Ends (spacedParts [.ROWS]) := ends_words (by decide)
  have honly : Ends (spacedParts [.ROWS, .ONLY]) := ends_words (by decide)
  have hoffset : Ends (paddedParts [.OFFSET] ++ o) := ho.padded (by decide)
  cases noLimit with
  | true =>
    cases noOffset with
    | true => exact ends_check _
    | false => exact (hoffset.append hrows).append ((hf.padded (by decide)).append honly).partsIf
  | false => exact ((hl.padded (by decide)).append hoffset.partsIf).append (ends_check _)

theorem Node.rests (x : Node k) : Rests x.parts := by
  induction x with
  | cons x xs ihx ihxs =>
    have hsep (k : Kind) (r : Text) : Stop (textOf (sepParts k) ++ r) ∧ Fits (sepParts k) r := by
      cases k <;> first | exact fits_comma r | exact ⟨stop_space _, trivial, trivial⟩
    intro r hr
    cases xs with
    | nil => exact ihx r hr
    | cons y ys =>
      rw [parts, isNil, if_neg Bool.false_ne_true, List.append_assoc, fits_append,
        fits_append, textOf_append, List.append_assoc]
      exact ⟨ihx _ (hsep _ _).1, (hsep _ _).2, ihxs r hr⟩
  | boolLit b => cases b <;> exact fun r hr => ⟨⟨by decide, hr.noWord⟩, trivial⟩
  | qualifiedRef tbl column =>
    have hdot (r : Text) : NoWord ('.' :: r) := ⟨rfl, by decide⟩
    cases column with
    | none => exact fun r hr => ⟨hdot ('*' :: r), trivial, trivial⟩
    | some c => exact fun r hr => ⟨hdot (c.string ++ r), hr.noWord, trivial⟩
  | table t => exact t.rests
  | orderingTerm _ asc desc nullsFirst _ ih =>
    refine (ih.append (ends_direction asc desc)).append ?_
    cases nullsFirst with
    | true => exact ends_words (by decide)
    | false => exact (ends_words (by decide)).partsIf
  | call name star distinct args filter iha ihf =>
    intro r hr
    cases star <;> cases distinct <;> cases hn : args.isNil <;>
    simp_all +decide [parts, Fits, Part.Needs, textOf_cons, textOf_nil, signs_string, Rests,
      fits_padded, Stop.noWord, lexAll_rp, parts_of_isNil]
  | selectStatement hint all distinct _ _ _ _ _ op _ _ _ _ _ ih₁ ih₂ ih₃ ih₄ ih₅ ih₆ ih₇ ih₈ ih₉
      ih₁₀ =>
    have hop : ∀ t ∈ op.words, t ∈ printedWords := by cases op <;> decide
    refine .append (.append (.append (.append (.append (.append ?_ (ih₂.padded (by decide)).partsIf)
      (ih₃.padded (by decide)).partsIf) (ends_group ih₄ ih₅)) (ih₆.padded hop).partsIf)
      (ih₇.padded (by decide)).partsIf) (ends_limit ih₈ ih₉ ih₁₀)
    intro r hr
    cases hint <;> cases all <;> cases distinct <;>
      simp +decide [Fits, Part.Needs, partsIf, textOf_cons, ih₁ r hr, noWord_space]
  | _ =>
    intro r hr
    simp_all +decide [parts, Fits, Part.Needs, textOf_cons, textOf_nil, signs_string, Rests,
      fits_padded, stop_padded, (ends_called _ _ _).1, (ends_called _ _ _).2,
      JoinOperator.stop_string, Stop.noWord, fits_words, stop_words, stop_opText, lexAll_rp,
      rests_names _ _ _]

end

/-! ## Statements -/

/-- The lists of tables that no statement of the parser has are empty. -/
def Statement.plain : Statement → Bool
  | .update s => s.fromList.isEmpty
  | .delete s => s.usingList.isEmpty
  | _ => true

section

variable {k : Kind}

theorem Assignment.string_eq (a : Assignment) : a.string = render a.parts := by
  have hcolumns (cs : List Ident) : render (columnsParts cs) = some (columnsText cs) := by
    match cs with
    | [] => rfl
    | [c] => simp [columnsParts, columnsText]
    | c :: d :: ds => simp [columnsParts, columnsText, signs_string]
  have heq : opText [.EQ] = Token.EQ.padded := rfl
  simp [string, parts, hcolumns, Node.string_eq, heq, binaryOpWords,
    Option.bind_assoc]

theorem render_optParts (t : Token) (o : Option (Node k)) :
    render (optParts t o) = optString t.padded o := by
  cases o <;> simp [optParts, optString, paddedParts, Node.string_eq, Token.padded, Token.spaced,
    Option.bind_assoc]

theorem UpsertClause.string_eq (c : UpsertClause) : c.string = render c.parts := by
  have hcolumn (c : IndexedColumn) : c.string = render c.parts := by
    simp [IndexedColumn.string, IndexedColumn.parts, directionParts, Node.string_eq, textIf, some_ite]
  have hcols := render_joinParts render_comma hcolumn c.columns
  have hsets := render_joinParts render_comma Assignment.string_eq c.assignments
  cases hn : c.columns.isEmpty <;> cases hd : c.doNothing <;>
    simp_all [string, parts, actionString, stringIf, textIf, paddedParts,
      render_optParts, signs_string, Token.padded, Token.spaced, Option.bind_assoc, stringList]

/-- The same for statements. -/
theorem Statement.string_eq {a : Statement} (h : a.plain = true) : a.string = render a.parts := by
  have hassign := render_joinParts render_comma Assignment.string_eq
  have hwhere (x : Option Expr) (c : Option Ident) :
      render (whereParts x c) = whereString x c := by
    cases x <;> cases c <;>
      simp [whereParts, whereString, optString, paddedParts, Node.string_eq, Token.padded,
        Token.spaced, Option.bind_assoc]
  cases a with
  | select s => exact s.string_eq
  | insert s =>
    have hrow (row : Node (.list .expr)) : rowString row = render (rowParts row) := by
      simp [rowString, rowParts, Node.string_eq, signs_string, Option.bind_assoc]
    have hbody (d : Bool) (rows : List (Node (.list .expr))) (q : Option SelectStatement) :
        render (bodyParts d rows q) = bodyString d rows q := by
      have hrows := render_joinParts (show render [.sign .COMMA] = some [','] from rfl) hrow rows
      cases d <;> cases q <;>
        simp [bodyParts, bodyString, hrows, Node.string_eq, Token.spaced, Option.bind_assoc]
    have hupsert (o : Option UpsertClause) : render (upsertParts o) = upsertString o := by
      cases o <;> simp [upsertParts, upsertString, UpsertClause.string_eq]
    cases hn : s.columnNames.isEmpty <;>
      simp [string, parts, InsertStatement.string, InsertStatement.parts, hn,
        hbody, hupsert, TableName.string, TableName.parts, paddedParts, render_optParts,
        signs_string, textIf, Token.padded, Token.spaced, Option.bind_assoc]
  | update s =>
    have h : s.fromList.isEmpty = true := h
    simp [string, parts, UpdateStatement.string, UpdateStatement.parts, h,
      hassign, hwhere, render_optParts, TableName.string, TableName.parts, paddedParts, textIf,
      signs_string, some_ite, Token.padded, Token.spaced, Option.bind_assoc]
  | delete s =>
    have h : s.usingList.isEmpty = true := h
    have halias (o : Option Ident) : render (deleteAliasParts o) = some (aliasText o) := by
      cases o <;> simp [deleteAliasParts, aliasText]
    simp [string, parts, DeleteStatement.string, DeleteStatement.parts, h, halias,
      hwhere, render_optParts, TableName.string, TableName.parts, paddedParts, textIf,
      signs_string, some_ite, Token.padded, Token.spaced, Option.bind_assoc]

/-! ### Places -/

variable {ps : List Part} {t : Token}

theorem Rests.parens (h : Rests ps) : Ends (.space :: .sign .LP :: ps ++ [.sign .RP]) :=
  have hlp : Token.LP ∈ looseSigns := by decide
  have hrp : Token.RP ∈ looseSigns := by decide
  fun r _ => ⟨stop_space _, trivial, hlp, fits_append.mpr ⟨h _ (stop_rp r), hrp, trivial⟩⟩

theorem ends_optParts (ht : t ∈ printedWords) (o : Option (Node k)) : Ends (optParts t o) := by
  cases o with
  | none => exact Ends.nil
  | some x => exact x.rests.padded (List.forall_mem_singleton.mpr ht)

theorem Assignment.rests (a : Assignment) : Rests a.parts := by
  intro r hr
  have hstop (s : Text) : Stop (textOf (.op .EQ :: a.expr.parts) ++ s) := by
    rw [textOf_cons, List.append_assoc]
    exact stop_opText _
  refine fits_append.mpr ⟨?_, trivial, a.expr.rests r hr⟩
  match a.columns with
  | [] => trivial
  | [c] => exact ⟨(hstop r).noWord, trivial⟩
  | c :: d :: ds => exact ((rests_names (c :: d :: ds)).parens _ (hstop r)).2.2

theorem rests_assignments (as : List Assignment) :
    Rests (joinParts commaParts (as.map Assignment.parts)) :=
  rests_joinParts fits_comma (List.forall_mem_map.mpr fun a _ => a.rests)

theorem UpsertClause.ends (c : UpsertClause) : Ends (.space :: c.parts) := by
  have hcolumns : Rests (joinParts commaParts (c.columns.map IndexedColumn.parts)) :=
    rests_joinParts fits_comma (List.forall_mem_map.mpr fun c _ =>
      c.x.rests.append (ends_direction c.asc c.desc))
  have hon : Ends (spacedParts [.ON, .CONFLICT]) := ends_words (by decide)
  refine ((hon.append ?_).append (ends_words (by decide))).append ?_
  · split
    · exact ends_check _
    · rw [List.append_cons]
      exact hcolumns.parens.append (ends_optParts (by decide) _)
  · split
    · exact (ends_words (by decide)).append (ends_check _)
    · exact ((rests_assignments _).padded (by decide)).append (ends_optParts (by decide) _)

theorem Rests.spaced (h : Rests ps) : Ends (.space :: ps) :=
  fun r hr => ⟨stop_space _, trivial, h r hr⟩

theorem ends_rows : ∀ rows : List (Node (.list .expr)),
    Ends (joinParts [.sign .COMMA] (rows.map rowParts))
  | [] => Ends.nil
  | [row] => row.rests.parens
  | row :: row' :: rows => by
    have hcomma : Ends [.sign .COMMA] := fun r _ =>
      ⟨stop_comma _, (by decide : Token.COMMA ∈ looseSigns), trivial⟩
    exact (row.rests.parens.append hcomma).append (ends_rows (row' :: rows))

theorem ends_bodyParts (d : Bool) (rows : List (Node (.list .expr))) (q : Option SelectStatement) :
    Ends (bodyParts d rows q) := by
  cases d with
  | true => exact (ends_words (by decide)).append (ends_check _)
  | false =>
    cases q with
    | none => exact (ends_words (by decide)).append (ends_rows rows)
    | some q => exact q.rests.spaced.append (ends_check _)

theorem ends_whereParts (x : Option Expr) (c : Option Ident) : Ends (whereParts x c) := by
  cases x with
  | some x => exact (x.rests.padded (by decide)).append (ends_check _)
  | none =>
    cases c with
    | none => exact Ends.nil
    | some i => exact Rests.padded (fun r hr => ⟨hr.noWord, trivial⟩) (by decide)

theorem nextTok_padded (ht : t ∈ printedWords) (ws : List Token) (ps : List Part) (r : Text) :
    nextTok (lexAll (textOf (paddedParts (t :: ws) ++ ps) ++ r)) = t := by
  have hnext : NoWord (textOf (paddedParts ws ++ ps) ++ r) := by
    rw [textOf_append, List.append_assoc]
    exact (stop_padded ws).noWord
  have htext : textOf (paddedParts (t :: ws) ++ ps) ++ r =
      ' ' :: (t.string ++ (textOf (paddedParts ws ++ ps) ++ r)) := by
    rw [← List.append_assoc]
    rfl
  rw [htext, lexAll_space, lexAll_kw ht hnext]
  rfl

/-- No alias follows behind the table of a `DELETE`. -/
theorem nextTok_where (b : Bool) (x : Option Expr) (c : Option Ident) (o : Option OutputNames) :
    nextTok (lexAll (textOf (.check b :: whereParts x c ++ optParts .RETURNING o) ++ [])) ≠ .AS := by
  have hpadded {t : Token} (ht : t ∈ printedWords) (hne : t ≠ .AS) (ws : List Token)
      (ps : List Part) : nextTok (lexAll (textOf (.check b :: paddedParts (t :: ws) ++ ps) ++ [])) ≠ .AS :=
    (nextTok_padded ht ws ps []).trans_ne hne
  cases x with
  | some x =>
    rw [whereParts, List.append_assoc, List.cons_append, List.append_assoc]
    exact hpadded (by decide) (by decide) [] _
  | none =>
    cases c with
    | some c =>
      rw [whereParts, List.cons_append, List.append_assoc]
      exact hpadded (by decide) (by decide) [.CURRENT, .OF] _
    | none =>
      cases o with
      | none => exact (by decide : nextTok (lexAll []) ≠ .AS)
      | some o => exact hpadded (t := .RETURNING) (by decide) (by decide) [] o.parts

/-- The parts of a statement do not run into each other. -/
theorem Statement.fits (a : Statement) : Fits a.parts [] := by
  have hwhere (b : Bool) (x : Option Expr) (c : Option Ident) (o : Option OutputNames) :
      Ends (.check b :: whereParts x c ++ optParts .RETURNING o) :=
    ((ends_check b).append (ends_whereParts x c)).append (ends_optParts (by decide) o)
  have hstar (b : Bool) : Ends (partsIf b [.space, .sign .STAR]) :=
    Ends.partsIf fun r _ => ⟨stop_space _, trivial, (by decide : Token.STAR ∈ looseSigns), trivial⟩
  have honly {b : Bool} {r : Text} : Fits (partsIf b [.word .ONLY, .space]) r := by
    cases b with
    | false => trivial
    | true => exact ⟨⟨by decide, noWord_space r⟩, trivial, trivial⟩
  cases a with
  | select s => exact s.rests [] trivial
  | insert s =>
    have htable : Rests (.word .INSERT :: paddedParts [.INTO] ++ s.tableName.parts) := fun r hr =>
      ⟨⟨by decide, noWord_space _⟩, fits_append.mpr ⟨fits_padded (by decide), s.tableName.rests r hr⟩⟩
    have hupsert (o : Option UpsertClause) : Ends (upsertParts o) := by
      cases o with
      | none => exact Ends.nil
      | some c => exact c.ends
    exact ((((htable.append (rests_names _).parens.partsIf).append (ends_bodyParts _ _ _)).append
      (hupsert _)).append (ends_optParts (by decide) _)) [] trivial
  | update s =>
    have htable : Rests (.word .UPDATE :: .space :: partsIf s.only [.word .ONLY, .space] ++
        s.tableName.parts) := fun r hr =>
      ⟨⟨by decide, noWord_space _⟩, trivial, fits_append.mpr ⟨honly, s.tableName.rests r hr⟩⟩
    have hset : ∀ t ∈ [Token.SET], t ∈ printedWords := by decide
    have hall := (((htable.append (hstar s.tableStar)).append (ends_called s.tableAlias)).append
      ((rests_assignments s.assignments).padded hset)).append
      (hwhere s.fromList.isEmpty s.condition s.cursorName s.outputExpressions) [] trivial
    simpa only [parts, UpdateStatement.parts, List.append_assoc] using hall
  | delete s =>
    have htable : Rests (.word .DELETE :: paddedParts [.FROM] ++
        partsIf s.only [.word .ONLY, .space] ++ s.tableName.parts) := fun r hr =>
      ⟨⟨by decide, noWord_space _⟩, fits_append.mpr ⟨fits_append.mpr ⟨fits_padded (by decide), honly⟩,
        s.tableName.rests r hr⟩⟩
    have hall (w : List Part) (hw : Ends w) (hAS : nextTok (lexAll (textOf w ++ [])) ≠ .AS) :
        Fits (.word .DELETE :: paddedParts [.FROM] ++ partsIf s.only [.word .ONLY, .space] ++
          s.tableName.parts ++ partsIf s.tableStar [.space, .sign .STAR] ++
          deleteAliasParts s.tableAlias ++ w) [] := by
      obtain ⟨hstop, hfits⟩ := hw [] trivial
      have halias : Stop (textOf (deleteAliasParts s.tableAlias) ++ (textOf w ++ [])) ∧
          Fits (deleteAliasParts s.tableAlias) (textOf w ++ []) := by
        cases s.tableAlias with
        | none => exact ⟨hstop, hAS, trivial⟩
        | some i => exact ⟨stop_space _, hstop.noWord, trivial⟩
      exact fits_append.mpr ⟨fits_append.mpr ⟨htable.append (hstar _) _ halias.1, halias.2⟩, hfits⟩
    have hdelete := hall _
      (hwhere s.usingList.isEmpty s.condition s.cursorName s.outputExpressions) (nextTok_where _ _ _ _)
    simpa only [parts, DeleteStatement.parts, List.append_assoc] using hdelete

end

end Gofusion.Sqlparser
