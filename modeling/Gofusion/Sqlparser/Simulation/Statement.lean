import Gofusion.Sqlparser.Simulation.Select

/-!
# Reading back statements

The same for the other statements.  An `AS` without a name behind a `DELETE` is dropped, and then the
next token of the printed stream is one that may follow an alias.  This is so for a whole statement
only, since the source could also have a `*` there.
-/

namespace Gofusion.Sqlparser

variable {S H : List Token} {L : Nat} {s s' : PState} {p q : Procs} (hp : p.Sim q L)

/-! ## Clauses -/

def optForm (t : Token) (k : Kind) : Form (Option (Node k)) :=
  ⟨Option (Node k), Option.map Node.shape, optParts t⟩

theorem Node.toOption_of_shape {k : Kind} {o o' : Node (.opt k)} (h : o'.shape = o.shape) :
    o'.toOption.map Node.shape = o.toOption.map Node.shape := by
  cases o with
  | absent =>
    cases o' with
    | absent => rfl
    | present x => cases h
  | present x =>
    cases o' with
    | absent => cases h
    | present y => exact congrArg some ((Node.present.injEq ..).mp h)

theorem Node.parts_toOption {k : Kind} (t : Token) (o : Node (.opt k)) :
    optParts t o.toOption = (Node.afterForm t k).parts o := by
  cases o <;> rfl

include hp

theorem parseReturning_sim : Sim (optForm .RETURNING (.list .column)) stmtStop stmtStop L
    (parseReturning p) (parseReturning q) :=
  .accept (paddedParts [.RETURNING]) rfl (by decide) (.seq (parseOutputNames_sim hp)
    fun _ _ h => .pure (congrArg some h) rfl rfl) (.pure rfl rfl rfl)

omit hp in
theorem parenIdent_ok {desc : String} {n : Nat} {c : Ident}
    (h : (parenList (parseIdent desc) n).run s = .ok ([c], s')) :
    (∃ m, ReadsIdent c s.toks m ∧ m.tail = s'.toks) ∧ s'.binds = s.binds := by
  cases n with
  | zero => cases h
  | succ n =>
    obtain ⟨x, s₁, hx, h⟩ := bind_ok.mp h
    obtain ⟨hread, rfl⟩ := parseIdent_ok hx
    obtain ⟨-, h⟩ | ⟨-, h⟩ := accept_bind_ok.mp h
    · cases h
      exact ⟨⟨_, hread, rfl⟩, rfl⟩
    · obtain ⟨-, h⟩ := expect_bind_ok.mp h
      obtain ⟨xs, s₂, hxs, h⟩ := bind_ok.mp h
      cases h
      exact absurd rfl (parenList_ne_nil hxs)

def columnsForm : Form (List Ident) := ⟨List Ident, List.map Ident.blank, columnsParts⟩

/-- A single column is printed without its parentheses. -/
theorem parseAssigned_sim : Sim columnsForm S identToks (L + 1) (parseAssigned p) (parseAssigned q) := by
  have hsingle {c : Ident} {s s' : PState} (hread : (Part.assigned c).Reads s.toks s'.toks)
      (hb : s'.binds = s.binds) :
      SimRun columnsForm S identToks (L + 1) [] [] (parseAssigned q) [c] s s' := by
    refine ⟨[.assigned c], rfl, .one hread, fun row' hlike _ _ ts _ => ?_⟩
    obtain ⟨r, rfl, hr⟩ := hlike.singleton
    cases r with
    | assigned j =>
      have hrun (b : Nat) : (parseAssigned q).run ⟨j.tok :: ts, b⟩ = .ok ([j], ⟨ts, b⟩) := by
        rw [parseAssigned, peek_bind, if_pos (by exact j.isIdent_tok)]
        exact bind_run (parseIdent_tok ..)
      exact ⟨j.follow_tok _, [j], rfl, rfl, hb ▸ hrun s'.binds⟩
    | _ => cases hr
  intro s cs s' h
  rw [parseAssigned, peek_bind, ite_ok] at h
  obtain ⟨hi, h⟩ | ⟨hi, h⟩ := h
  · obtain ⟨c, s₁, hc, h⟩ := bind_ok.mp h
    cases h
    obtain ⟨hread, rfl⟩ := parseIdent_ok hc
    exact hsingle (.inl hread) rfl
  · obtain ⟨hlp, h⟩ := expect_bind_ok.mp h
    have hnames := names_sim (S := S) hp _ h
    match cs with
    | [] => exact absurd rfl (parenList_ne_nil h)
    | [c] =>
      obtain ⟨hread, hb⟩ := parenIdent_ok h
      exact hsingle (.inr ⟨hlp, hread⟩) hb
    | c :: d :: ds =>
      have hparts {cs : List Ident} (h : 2 ≤ cs.length) : columnsForm.parts cs =
          [Part.sign .LP] ++ (Ident.form.closed (.sign .RP)).parts cs := by
        match cs with
        | c :: d :: ds => rfl
      have hrun : SimRun columnsForm S [] (L + 1) [] []
          (expect .LP "column name or column list" >>= fun _ => parenList (parseIdent "column name") q.fuel)
          (c :: d :: ds) s s' :=
        .same [.sign .LP] rfl hlp (expect_kw _ _) (hnames.reform (hparts (by simp)) fun cs hcs => by
          have hlen := congrArg List.length (show cs.map Ident.blank = List.map Ident.blank _ from hcs)
          exact ⟨hcs, hparts (by simp at hlen; omega)⟩)
      refine hrun.congr fun us b hu => ?_
      rw [parseAssigned, peek_bind, hu, hlp]
      rfl

def Assignment.form : Form Assignment :=
  ⟨Assignment, Assignment.mapIdents Ident.blank Ident.blank, Assignment.parts⟩

theorem parseAssignment_sim : Sim Assignment.form stmtStop identToks L (parseAssignment p)
    (parseAssignment q) := by
  have hparts (a : Assignment) : a.parts = [] ++ columnsForm.parts a.columns ++ [Part.op .EQ] ++ a.expr.parts := by
    simp [Assignment.parts, columnsForm]
  exact .seq (parseAssigned_sim (S := []) hp).lower fun cs ds hcs => .expect [.op .EQ] rfl
    (.bind hp.expr (fun x y h => .pure (congrArg₂ Assignment.mk hcs h) (hparts ⟨cs, x⟩)
      (hparts ⟨ds, y⟩)) (by decide))

theorem assignments_sim : Sim (Assignment.form.list commaParts) stmtStop identToks L
    (sepList (parseAssignment p) p.fuel) (sepList (parseAssignment q) q.fuel) :=
  sepList_sim commaParts rfl (by decide) (parseAssignment_sim hp) _ (Nat.le_of_eq hp.fuel.symm)
    (Nat.le_refl _)

def IndexedColumn.form : Form IndexedColumn :=
  ⟨IndexedColumn, IndexedColumn.mapIdents Ident.blank Ident.blank, IndexedColumn.parts⟩

theorem parseIndexedColumn_sim : Sim IndexedColumn.form [] leafToks L (parseIndexedColumn p)
    (parseIndexedColumn q) := by
  refine .bind hp.expr (fun x y h => .seq (parseDirection_sim (S := []) List.not_mem_nil
    List.not_mem_nil) fun d _ hd => ?_) (List.nil_subset _)
  cases hd
  exact .pure (congrArg (IndexedColumn.mk · d.1 d.2) h) rfl rfl

def targetForm : Form (List IndexedColumn × Option Expr) where
  Shape := List IndexedColumn × Option Expr
  shape t := (t.1.map (IndexedColumn.mapIdents Ident.blank Ident.blank), t.2.map Node.shape)
  parts t := if t.1.isEmpty then [.check t.2.isNone]
    else .space :: .sign .LP :: joinParts commaParts (t.1.map IndexedColumn.parts) ++
      .sign .RP :: optParts .WHERE t.2

theorem parseConflictTarget_sim : Sim targetForm [] [] L (parseConflictTarget p)
    (parseConflictTarget q) := by
  have hcols := parenList_sim (S := []) (parseIndexedColumn_sim hp) p.fuel
    (Nat.le_of_eq hp.fuel.symm) (Nat.le_refl _)
  refine .accept [.space, .sign .LP] rfl List.not_mem_nil (.seq' hcols fun cs ds hcs h => .seq
    (parseAfter_sim (S := []) List.not_mem_nil (List.nil_subset _) hp.expr) fun o o' ho => ?_) (.silent [.check true] rfl (.pure rfl rfl rfl))
  obtain ⟨s, s', hcs⟩ := hcs
  have hne := parenList_ne_nil hcs
  have hparts {cs : List IndexedColumn} (o : Node (.opt .expr)) (hne : cs ≠ []) :
      targetForm.parts (cs, o.toOption) = [] ++ [Part.space, .sign .LP] ++
        (IndexedColumn.form.closed (.sign .RP)).parts cs ++ (Node.afterForm .WHERE .expr).parts o := by
    simp [targetForm, hne, Node.parts_toOption, Form.closed, IndexedColumn.form]
  exact .pure (congrArg₂ Prod.mk h (Node.toOption_of_shape ho)) (hparts o hne)
    (hparts o' (map_ne_nil h hne))

def UpsertClause.form : Form UpsertClause :=
  ⟨UpsertClause, UpsertClause.mapIdents Ident.blank Ident.blank, UpsertClause.parts⟩

theorem parseUpsertClause_sim : Sim UpsertClause.form stmtStop [] (L + 1) (parseUpsertClause p)
    (parseUpsertClause q) := by
  refine .assert [.word .ON] rfl (.expect (spacedParts [.CONFLICT]) rfl (.seq
    (parseConflictTarget_sim hp) fun t t' ht => .expect (K := []) (spacedParts [.DO]) rfl ?_))
  obtain ⟨ht₁, ht₂⟩ := (Prod.mk.injEq ..).mp ht
  refine .accept (K := stmtStop) (spacedParts [.NOTHING]) rfl List.not_mem_nil
    (.silent [.check true] rfl ?_) ?_
  · have hparts (t : List IndexedColumn × Option Expr) :
        UpsertClause.form.parts { columns := t.1, whereExpr := t.2, doNothing := true } =
          [] ++ [Part.word .ON] ++ spacedParts [.CONFLICT] ++ targetForm.parts t ++ spacedParts [.DO] ++
            spacedParts [.NOTHING] ++ [Part.check true] := by
      simp [UpsertClause.form, UpsertClause.parts, targetForm]
    exact .pure ((UpsertClause.mk.injEq ..).mpr ⟨ht₁, ht₂, rfl, rfl, rfl, rfl⟩) (hparts t) (hparts t')
  · have hparts (t : List IndexedColumn × Option Expr) (as : List Assignment) (o : Node (.opt .expr)) :
        UpsertClause.form.parts { columns := t.1, whereExpr := t.2, doUpdate := true,
                                  assignments := as, updateWhereExpr := o.toOption } =
          [] ++ [Part.word .ON] ++ spacedParts [.CONFLICT] ++ targetForm.parts t ++ spacedParts [.DO] ++
            spacedParts [.UPDATE] ++ paddedParts [.SET] ++ (Assignment.form.list commaParts).parts as ++
            (Node.afterForm .WHERE .expr).parts o := by
      simp [UpsertClause.form, UpsertClause.parts, targetForm, Node.parts_toOption, Form.list,
        Assignment.form, paddedParts, spacedParts]
    exact .expect (spacedParts [.UPDATE]) rfl (.expect (paddedParts [.SET]) rfl (.seq
      (assignments_sim hp) fun as bs has => .seq (parseAfter_sim (by decide) (by decide) hp.expr)
        fun o o' ho => .pure ((UpsertClause.mk.injEq ..).mpr
          ⟨ht₁, ht₂, rfl, rfl, has, Node.toOption_of_shape ho⟩) (hparts t as o) (hparts t' bs o')))

/-! ## `INSERT` -/

def rowForm : Form (Node (.list .expr)) := ⟨Node (.list .expr), Node.shape, rowParts⟩

theorem parseRow_sim : Sim rowForm S [] L (parseRow p) (parseRow q) :=
  .expect [.space, .sign .LP] rfl (.seq (parenList_sim (S := S) hp.expr _ (Nat.le_of_eq hp.fuel.symm)
    (Nat.le_refl _)).exprs fun _ _ h => .pure h rfl rfl)

def bodyForm : Form (Bool × List (Node (.list .expr)) × Option SelectStatement) where
  Shape := Bool × List (Node (.list .expr)) × Option SelectStatement
  shape b := (b.1, b.2.1.map Node.shape, b.2.2.map Node.shape)
  parts b := bodyParts b.1 b.2.1 b.2.2

theorem parseInsertBody_sim : Sim bodyForm stmtStop [] L (parseInsertBody p) (parseInsertBody q) := by
  refine .accept (spacedParts [.DEFAULT]) rfl List.not_mem_nil (.expect (spacedParts [.VALUES]) rfl
    (.silent [.check true] rfl (.pure rfl rfl rfl))) (.accept (spacedParts [.VALUES]) rfl
    List.not_mem_nil (.seq (sepList_sim [.sign .COMMA] rfl (by decide) (parseRow_sim hp) _
      (Nat.le_of_eq hp.fuel.symm) (Nat.le_refl _)) fun _ _ h => .pure
        (congrArg (fun rows => (false, rows, none)) h) rfl rfl)
    (.branch nofun (.silent [.space] rfl (.seq (hp.selectStatement false) fun x y h =>
      .silent [.check true] rfl (.pure (congrArg (fun z => (false, [], some z)) h) rfl rfl))) (.error nofun)))

def columnNamesForm : Form (List Ident) where
  Shape := List Ident
  shape := List.map Ident.blank
  parts cs := partsIf (!cs.isEmpty) (.space :: .sign .LP :: namesParts cs ++ [.sign .RP])

theorem parseColumnNames_sim (hS : Token.LP ∉ S) :
    Sim columnNamesForm S S L (parseColumnNames p) (parseColumnNames q) := by
  refine .accept (K := identToks) [.space, .sign .LP] rfl hS (fun s cs s' h => ?_) (.pure rfl rfl rfl)
  have hne := parenList_ne_nil h
  have hparts {cs : List Ident} (h : cs ≠ []) : columnNamesForm.parts cs =
      [Part.space, .sign .LP] ++ (Ident.form.closed (.sign .RP)).parts cs := by
    cases cs with
    | nil => exact absurd rfl h
    | cons c cs => rfl
  exact (names_sim hp _ h).reform (hparts hne) fun ds hds => ⟨hds, hparts (map_ne_nil hds hne)⟩

def upsertForm : Form (Option UpsertClause) :=
  ⟨Option UpsertClause, Option.map (UpsertClause.mapIdents Ident.blank Ident.blank), upsertParts⟩

theorem parseUpsert_sim : Sim upsertForm stmtStop stmtStop L (parseUpsert p) (parseUpsert q) :=
  .branch (by decide) (.silent [.space] rfl (.seq (parseUpsertClause_sim hp).lower
    fun _ _ h => .pure (congrArg some h) rfl rfl)) (.pure rfl rfl rfl)

omit hp in
theorem SimFrom.overriding {α : Type} {F : Form α} {pre pre' : List Part} {f g : Unit → Parser α}
    (h : SimFrom F S [] L pre pre' (f ()) (g ())) :
    SimFrom F S [] L pre pre' (parseOverriding >>= f) (parseOverriding >>= g) := by
  intro s a s' hr
  obtain ⟨⟨⟩, s₁, ho, hr⟩ := bind_ok.mp hr
  obtain ⟨hne, rfl⟩ := parseOverriding_ok ho
  refine (h hr).congr fun us b hu => bind_run ?_
  rw [parseOverriding, bind_run (accept_of_ne (hu ▸ hne))]
  rfl

def InsertStatement.form : Form InsertStatement :=
  ⟨InsertStatement, InsertStatement.mapIdents Ident.blank Ident.blank, InsertStatement.parts⟩

/-- An `INSERT` is read back. -/
theorem parseInsertStatement_sim : Sim InsertStatement.form stmtStop [] (L + 1)
    (parseInsertStatement p) (parseInsertStatement q) := by
  refine .assert [.word .INSERT] rfl (.expect (paddedParts [.INTO]) rfl (.seq
    (parseTableName_sim (S := []) nofun) fun n n' hn => .seq (parseColumnNames_sim hp List.not_mem_nil)
      fun cs cs' hcs => .overriding (.seq (parseInsertBody_sim hp) fun b b' hb => .seq
        (parseUpsert_sim hp) fun u u' hu => .seq (parseReturning_sim hp) fun o o' ho => ?_)))
  obtain ⟨hb₁, hb⟩ := (Prod.mk.injEq ..).mp hb
  obtain ⟨hb₂, hb₃⟩ := (Prod.mk.injEq ..).mp hb
  exact .pure ((InsertStatement.mk.injEq ..).mpr ⟨hn, hcs, hb₁, hb₂, hb₃, hu, ho⟩) rfl rfl

/-! ## `UPDATE` and `DELETE` -/

def whereForm : Form (Option Expr × Option Ident) where
  Shape := Option Expr × Option Ident
  shape w := (w.1.map Node.shape, w.2.map Ident.blank)
  parts w := whereParts w.1 w.2

theorem parseWhereOrCursor_sim :
    Sim whereForm stmtStop stmtStop L (parseWhereOrCursor p) (parseWhereOrCursor q) := by
  refine .accept (paddedParts [.WHERE]) rfl (by decide) (.accept (H := leafToks) [.word .CURRENT, .space]
    rfl (by decide) (.expect [.word .OF, .space] rfl (.seq (parseIdent_sim _) fun _ _ h =>
      .pure (congrArg (fun c => (none, some c)) h) rfl rfl)) (.bind hp.expr
    (fun _ _ h => .silent [.check true] rfl (.pure (congrArg (fun x => (some x, none)) h) rfl rfl))
      (by decide))) (.pure rfl rfl rfl)

def UpdateStatement.form : Form UpdateStatement :=
  ⟨UpdateStatement, UpdateStatement.mapIdents Ident.blank Ident.blank, UpdateStatement.parts⟩

/-- An `UPDATE` is read back. -/
theorem parseUpdateStatement_sim : Sim UpdateStatement.form stmtStop [] (L + 1)
    (parseUpdateStatement p) (parseUpdateStatement q) := by
  refine .assert [.word .UPDATE, .space] rfl (.bind (parseTableName_sim (S := []) nofun) (fun n n' hn =>
    .expect (paddedParts [.SET]) rfl (.seq (assignments_sim hp) fun as as' has => .silent [.check true]
      rfl (.seq (parseWhereOrCursor_sim hp) fun w w' hw => .seq (parseReturning_sim hp)
        fun o o' ho => ?_)))
    (List.nil_subset _))
  obtain ⟨hw₁, hw₂⟩ := (Prod.mk.injEq ..).mp hw
  refine .pure ((UpdateStatement.mk.injEq ..).mpr
    ⟨rfl, hn, rfl, rfl, has, rfl, hw₁, hw₂, ho⟩) ?_ ?_
  all_goals
    simp [UpdateStatement.form, UpdateStatement.parts, partsIf, calledParts, TableName.form, Form.list,
      Assignment.form, whereForm, optForm]

/-- The tokens that may follow the alias of a `DELETE`. -/
def deleteStop : List Token := [.WHERE, .RETURNING, .EOF, .SEMI]

def deleteAliasForm : Form (Option Ident) :=
  ⟨Option Ident, Option.map Ident.blank, deleteAliasParts⟩

omit hp in
theorem parseDeleteAlias_sim {o : Option Ident} (h : parseDeleteAlias.run s = .ok (o, s'))
    (hnext : nextTok s'.toks ∈ deleteStop) :
    SimRun deleteAliasForm stmtStop (.AS :: deleteStop) L [] [] parseDeleteAlias o s s' := by
  have hsome (i : Ident) (hs : s'.binds = s.binds) (hread : Part.Reads (.called i) s.toks s'.toks)
      (hAS : nextTok s.toks = .AS ∨ (nextTok s.toks).isIdent = true) :
      SimRun deleteAliasForm stmtStop (.AS :: deleteStop) L [] [] parseDeleteAlias (some i) s s' := by
    refine ⟨[.called i], rfl, .one hread, fun row' hlike _ _ ts _ => ?_⟩
    obtain ⟨r, rfl, hr⟩ := hlike.singleton
    cases r with
    | called j =>
      have hrun (b : Nat) : parseDeleteAlias.run ⟨.kw .AS :: j.tok :: ts, b⟩ = .ok (some j, ⟨ts, b⟩) := by
        rw [parseDeleteAlias, bind_run (accept_kw ..), peek_bind, if_pos (by exact j.isIdent_tok)]
        exact bind_run (parseIdent_tok ..)
      exact ⟨hAS.imp Eq.symm fun h => ⟨List.mem_cons_self, fun _ => h⟩, some j, rfl, rfl,
        hs ▸ hrun s'.binds⟩
    | _ => cases hr
  have hnone (hs : s'.binds = s.binds) (hread : Part.Reads (.trailing .AS) s.toks s'.toks) :
      SimRun deleteAliasForm stmtStop (.AS :: deleteStop) L [] [] parseDeleteAlias none s s' := by
    refine ⟨[.trailing .AS], rfl, .one hread, fun row' hlike _ _ ts hf => ?_⟩
    obtain rfl := hlike.eq (List.forall_mem_singleton.mpr rfl)
    have hts : nextTok ts ∈ deleteStop := by
      rcases hf with hf | hf
      · exact hf ▸ hnext
      · exact (by decide : stmtStop ⊆ deleteStop) hf.1
    obtain ⟨hAS, hi⟩ := (by decide : ∀ t ∈ deleteStop, t ≠ .AS ∧ ¬t.isIdent = true) _ hts
    refine ⟨.of_mem (List.mem_cons_of_mem _ hts) hAS, none, rfl, rfl, ?_⟩
    change parseDeleteAlias.run ⟨ts, s.binds⟩ = _
    rw [parseDeleteAlias, bind_run (accept_of_ne hAS), peek_bind, if_neg hi, hs]
    rfl
  simp [parseDeleteAlias] at h
  rcases h with ⟨hc, ⟨-, i, hi, rfl⟩ | ⟨-, rfl, rfl⟩⟩ | ⟨-, ⟨hi', i, hi, rfl⟩ | ⟨-, rfl, rfl⟩⟩
  · obtain ⟨hread, rfl⟩ := parseIdent_ok hi
    exact hsome i rfl (.inl ⟨hc, hread⟩) (.inl hc)
  · exact hnone rfl (.inr ⟨hc, rfl⟩)
  · obtain ⟨hread, rfl⟩ := parseIdent_ok hi
    exact hsome i rfl (.inr hread) (.inr hi')
  · exact hnone rfl (.inl rfl)

omit hp in
theorem delete_next {c : Option Expr × Option Ident} {o : Option OutputNames} {s₁ : PState}
    (hc : (parseWhereOrCursor p).run s = .ok (c, s₁)) (ho : (parseReturning p).run s₁ = .ok (o, s'))
    (hend : nextTok s'.toks = .EOF ∨ nextTok s'.toks = .SEMI) : nextTok s.toks ∈ deleteStop := by
  obtain ⟨hw, -⟩ | ⟨-, hc⟩ := accept_bind_ok.mp hc
  · simp [hw, deleteStop]
  cases hc
  obtain ⟨hr, -⟩ | ⟨-, ho⟩ := accept_bind_ok.mp ho
  · simp [hr, deleteStop]
  cases ho
  rcases hend with he | he <;> simp [he, deleteStop]

def DeleteStatement.form : Form DeleteStatement :=
  ⟨DeleteStatement, DeleteStatement.mapIdents Ident.blank Ident.blank, DeleteStatement.parts⟩

/-- A `DELETE` is read back. -/
theorem parseDeleteStatement_sim {a : DeleteStatement}
    (h : (parseDeleteStatement p).run s = .ok (a, s'))
    (hend : nextTok s'.toks = .EOF ∨ nextTok s'.toks = .SEMI) :
    SimRun DeleteStatement.form stmtStop [] L [] [] (parseDeleteStatement q) a s s' := by
  obtain ⟨hdelete, h⟩ := assertTok_bind_ok.mp h
  obtain ⟨hfrom, h⟩ := assertTok_bind_ok.mp h
  obtain ⟨only, s₁, honly, h⟩ := bind_ok.mp h
  obtain ⟨n, s₂, hn, h⟩ := bind_ok.mp h
  obtain ⟨star, s₃, hstar, h⟩ := bind_ok.mp h
  obtain ⟨al, s₄, hal, h⟩ := bind_ok.mp h
  rw [peek_bind, ite_ok] at h
  obtain ⟨-, h⟩ | ⟨husing, h⟩ := h
  · cases h
  obtain ⟨c, s₅, hc, h⟩ := bind_ok.mp h
  obtain ⟨o, s₆, ho, h⟩ := bind_ok.mp h
  cases h
  refine .lower (.same [.word .DELETE] rfl hdelete (assertTok_kw _) (.lower (.same (paddedParts [.FROM])
    rfl hfrom (assertTok_kw _) (.seq (accept_sim (S := identToks) [.word .ONLY, .space] rfl (by decide) honly)
      fun only' honly' => .seq (parseTableName_sim (S := .AS :: deleteStop) (by decide) hn)
        fun n' hn' => .seq (accept_sim [.space, .sign .STAR] rfl (by decide) hstar)
          fun star' hstar' => .seq (parseDeleteAlias_sim hal (delete_next hc ho hend))
            fun al' hal' => .silent [.check true] rfl (.neg (P := (· = .USING)) husing (by decide)
              (.seq (parseWhereOrCursor_sim hp hc) fun c' hc' => .seq (parseReturning_sim hp ho)
                fun o' ho' => ?_))))))
  cases honly'
  cases hstar'
  obtain ⟨hc₁, hc₂⟩ := (Prod.mk.injEq ..).mp hc'
  refine .pure ((DeleteStatement.mk.injEq ..).mpr ⟨rfl, hn', rfl, hal', rfl, hc₁, hc₂, ho'⟩) ?_ ?_
  all_goals
    simp [DeleteStatement.form, DeleteStatement.parts, TableName.form, flagForm, deleteAliasForm,
      whereForm, optForm]

/-! ## Statements -/

def Statement.form : Form Statement := ⟨Statement, Statement.shape, Statement.parts⟩

/-- A statement is read back. -/
theorem parseStmt_sim {a : Statement} (h : (parseStmt p).run s = .ok (a, s'))
    (hend : nextTok s'.toks = .EOF ∨ nextTok s'.toks = .SEMI) :
    SimRun Statement.form stmtStop [] L [] [] (parseStmt q) a s s' ∧ nextTok s.toks ≠ .EOF := by
  have hstmt {α : Type} {F : Form α} {f : Parser α} {x : α} (c : α → Statement)
      (h : SimRun F stmtStop [] L [] [] f x s s')
      (hshape : ∀ y, F.shape y = F.shape x → (c y).shape = (c x).shape)
      (hparts : ∀ y, (c y).parts = F.parts y)
      (hf : ∀ us b, nextTok us = nextTok s.toks →
        (parseStmt q).run ⟨us, b⟩ = (f >>= fun y => pure (c y)).run ⟨us, b⟩) :
      SimRun Statement.form stmtStop [] L [] [] (parseStmt q) (c x) s s' :=
    (SimRun.seq (g := fun y => pure (c y)) h fun y hy => .pure (hshape y hy) (hparts x) (hparts y)).congr hf
  simp [parseStmt] at h
  rcases h with ⟨hc, x, hx, rfl⟩ | ⟨-, ⟨hc, x, hx, rfl⟩ | ⟨-, ⟨hc, x, hx, rfl⟩ | ⟨-, hc, x, hx, rfl⟩⟩⟩
  all_goals refine ⟨?_, by rw [hc]; exact nofun⟩
  · refine hstmt .select (hp.selectStatement false hx) (fun _ => congrArg _) (fun _ => rfl) fun us b hu => ?_
    rw [parseStmt, peek_bind, hu, hc]
    rfl
  · refine hstmt .insert (parseInsertStatement_sim hp hx).lower (fun _ => congrArg _) (fun _ => rfl)
      fun us b hu => ?_
    rw [parseStmt, peek_bind, hu, hc]
    rfl
  · refine hstmt .update (parseUpdateStatement_sim hp hx).lower (fun _ => congrArg _) (fun _ => rfl)
      fun us b hu => ?_
    rw [parseStmt, peek_bind, hu, hc]
    rfl
  · refine hstmt .delete (parseDeleteStatement_sim hp hx hend) (fun _ => congrArg _) (fun _ => rfl)
      fun us b hu => ?_
    rw [parseStmt, peek_bind, hu, hc]
    rfl

omit hp in
/-- The parser only returns statements it has read. -/
theorem parseTokens_reads {ts : List Tok} {a : Statement} (h : parseTokens ts = .ok a) :
    ∃ rest, Reads a.parts ts rest := by
  obtain ⟨s', h, hend⟩ := parseTokens_ok h
  obtain ⟨⟨_, rfl, hread, -⟩, -⟩ := parseStmt_sim (procs_sim _ 0) h hend
  exact ⟨s'.toks, hread⟩

omit hp in
/-- The tokens of every legible row that differs in names from the statement are parsed back. -/
theorem parseTokens_like {ts : List Tok} {a : Statement} {row : List Part} (h : parseTokens ts = .ok a)
    (hlike : Like a.parts row) (hleg : ∀ p ∈ row, p.legible = true) :
    ∃ b, b.shape = a.shape ∧ b.parts = row.map Part.bare ∧ parseTokens (toksOf row) = .ok b := by
  obtain ⟨s', h, hend⟩ := parseTokens_ok h
  obtain ⟨⟨_, rfl, -, hback⟩, hne⟩ := parseStmt_sim (procs_sim _ ((toksOf row).length + 1)) h hend
  have hfollow : Follow stmtStop (nextTok s'.toks) (nextTok []) := .self nofun
  obtain ⟨hh, b, hb, hpb, hq⟩ := hback hlike hleg (Nat.lt_succ_self _) hfollow
  refine ⟨b, hb, hpb, ?_⟩
  rw [List.append_nil] at hh hq
  unfold parseTokens
  split
  · next hnil =>
    rw [hnil] at hh
    exact absurd hh.eq.symm hne
  · rw [hq]
    rfl

end Gofusion.Sqlparser
