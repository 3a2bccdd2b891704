import Gofusion.Sqlparser.Simulation.Expr

/-!
# Reading back sources and queries

The same for sources and for `SELECT`, and the knot: `procs_sim` says that the procedures read back
their own results.
-/

namespace Gofusion.Sqlparser

variable {S : List Token} {L : Nat} {s s' : PState}

/-! ## Joins -/

def joinOpForm : Form JoinOperator := ⟨JoinOperator, id, fun op => [.joinOp op]⟩

variable {op : JoinOperator}

theorem parseJoinOperator_sim (h : parseJoinOperator.run s = .ok (op, s')) :
    0 < op.toks.length ∧ SimRun joinOpForm S [] L [] [] parseJoinOperator op s s' := by
  suffices hop : 0 < op.toks.length ∧ s.toks.drop op.toks.length = s'.toks ∧ ∀ ts,
      nextTok (op.toks ++ ts) = nextTok s.toks ∧
      parseJoinOperator.run ⟨op.toks ++ ts, s.binds⟩ = .ok (op, ⟨ts, s'.binds⟩) by
    refine ⟨hop.1, [.joinOp op], rfl, .one hop.2.1, fun row' hlike _ _ ts _ => ?_⟩
    obtain rfl := hlike.eq (List.forall_mem_singleton.mpr rfl)
    rw [toksOf, List.flatMap_singleton]
    exact ⟨.inl (hop.2.2 ts).1, op, rfl, rfl, (hop.2.2 ts).2⟩
  simp [parseJoinOperator] at h
  rcases h with ⟨hc, rfl, rfl⟩ | ⟨-, ⟨hc, ⟨-, ⟨-, -, rfl, rfl⟩ | ⟨-, -, rfl, rfl⟩⟩ |
    ⟨-, ⟨-, -, rfl, rfl⟩ | ⟨-, ⟨-, -, rfl, rfl⟩ | ⟨-, -, rfl, rfl⟩⟩⟩⟩ |
    ⟨-, ⟨hc, ⟨-, -, rfl, rfl⟩ | ⟨-, -, rfl, rfl⟩⟩ |
    ⟨-, ⟨hc, -, rfl, rfl⟩ | ⟨-, ⟨hc, -, rfl, rfl⟩ | ⟨-, hc, rfl, rfl⟩⟩⟩⟩⟩
  all_goals
    exact ⟨by decide, by simp [JoinOperator.toks, toksIf, next_toks, ← List.drop_one], fun ts =>
      ⟨hc.symm, by simp [parseJoinOperator, JoinOperator.toks, toksIf]⟩⟩

section Procs

variable {p q : Procs} (hp : p.Sim q L)

include hp

theorem names_sim (desc : String) : Sim (Ident.form.closed (.sign .RP)) S identToks L
    (parenList (parseIdent desc) p.fuel) (parenList (parseIdent desc) q.fuel) :=
  parenList_sim (parseIdent_sim (S := []) desc) _ (Nat.le_of_eq hp.fuel.symm) (Nat.le_refl _)

def constraintForm : Form (Node (.opt .constraint)) :=
  ⟨Node (.opt .constraint), Node.shape, fun c => partsIf (!c.isAbsent) (.space :: c.parts)⟩

theorem parseJoinConstraint_sim : Sim constraintForm stmtStop stmtStop L (parseJoinConstraint p)
    (parseJoinConstraint q) := by
  refine .accept [.space, .mark .ON, .space] rfl (by decide)
    (.bind hp.expr (fun _ _ h => .pure (congrArg (fun x => Node.present (.onConstraint x)) h) rfl rfl)
      (by decide)) ?_
  exact .accept [.space, .mark .USING, .space] rfl (by decide)
    (.expect [.sign .LP] rfl (.seq (names_sim hp _)
      fun _ _ h => .pure (congrArg (fun cs => Node.present (.usingConstraint cs)) h) rfl rfl)) (.pure rfl rfl rfl)

theorem parseParenSource_sim :
    Sim (Node.form .source) stmtStop [] (L + 1) (parseParenSource p) (parseParenSource q) := by
  refine .assert [.sign .LP] rfl (.branch (H := leafToks) (by decide) ?_ ?_)
  · have hparts (x : SelectStatement) (al : Option Ident) :
        (Node.parenSource (.selectSource x) al).parts =
          [] ++ [Part.sign .LP] ++ x.parts ++ [Part.sign .RP] ++ aliasForm.parts al := by
      simp [Node.parts, aliasForm]
    refine .bind (hp.selectStatement false) (fun x y h => .expect [.sign .RP] rfl
      (.seq (parseAlias_sim (S := stmtStop) _ (by decide)) fun al al' hal => ?_))
      (List.nil_subset _)
    exact .pure (congrArg₂ (fun x al => Node.parenSource (.selectSource x) al) h hal) (hparts x al)
      (hparts y al')
  · exact .bind hp.source (fun _ _ h => .expect [.sign .RP] rfl
      (.pure (congrArg (Node.parenSource · none) h) rfl rfl)) (List.nil_subset _)

theorem parseUnarySource_sim :
    Sim (Node.form .source) stmtStop leafToks (L + 1) (parseUnarySource p) (parseUnarySource q) := by
  intro s a s' h
  rw [parseUnarySource, peek_bind, ite_ok, ite_ok] at h
  obtain ⟨hc, h⟩ | ⟨hc, ⟨hi, h⟩ | ⟨-, h⟩⟩ := h
  · refine (parseParenSource_sim hp h).congr fun us b hu => ?_
    rw [parseUnarySource, peek_bind, hu, hc]
    rfl
  · have htable : Sim (Node.form .source) stmtStop identToks (L + 1)
        (parseTableName >>= fun t => pure (.table t)) (parseTableName >>= fun t => pure (.table t)) :=
      .seq (parseTableName_sim (by decide)) fun _ _ h => .pure (congrArg Node.table h) rfl rfl
    refine ((htable h).head fun us b hu => ?_).weaken (List.Subset.refl _) (by decide) (Nat.le_refl _)
    have hi' : (nextTok us).isIdent = true := by
      rcases hu with hu | hu
      · rw [hu, hi]
      · exact (by decide : ∀ t ∈ identToks, t.isIdent = true) _ hu.1
    rw [parseUnarySource, peek_bind, if_neg (fun he => by rw [he] at hi'; cases hi'), if_pos hi']
  · cases h

variable {a x y : Source} {c : Node (.opt .constraint)} {pre' pre : List Part} {k : Nat}
  {K : List Token} {α : Type}

omit hp in
theorem parseUnarySource_ok (h : (parseUnarySource p).run s = .ok (a, s')) :
    a.isJoin = false ∧ 0 < (toksOf a.parts).length := by
  simp [parseUnarySource, parseParenSource] at h
  rcases h with ⟨-, ⟨-, x, _, -, -, al, -, rfl⟩ | ⟨-, x, _, -, -, rfl, -⟩⟩ | ⟨-, -, t, -, rfl⟩
  all_goals exact ⟨rfl, by simp [Node.parts, TableName.parts, toksOf, Part.toks]⟩

/-- The joins behind the first one, which are nested on the left. -/
def joinLoop (p : Procs) : Nat → Source → Parser Source
  | 0, _ => fail .fuel
  | n + 1, x => do
    if (← peek) ∈ joinTokens then
      let operator ← parseJoinOperator
      let y ← parseUnarySource p
      let constraint ← parseJoinConstraint p
      joinLoop p n (.joinClause x operator y constraint)
    else pure x

omit hp in
theorem sourceLoop_joinClause (p : Procs) (n : Nat) (x y : Source) (op : JoinOperator)
    (c : Node (.opt .constraint)) (s : PState) : (sourceLoop p n (.joinClause x op y c)).run s =
      (joinLoop p n y >>= fun r => pure (.joinClause x op r c)).run s := by
  induction n generalizing y s with
  | zero => rfl
  | succ n ih =>
    rw [sourceLoop, peek_bind, bind_apply, joinLoop, peek_bind]
    split
    · simp only [bind_apply]
      rcases parseJoinOperator.run s with _ | ⟨o, s⟩
      · rfl
      dsimp only
      rcases (parseUnarySource p).run s with _ | ⟨z, s⟩
      · rfl
      dsimp only
      rcases (parseJoinConstraint p).run s with _ | ⟨d, s⟩
      · rfl
      exact ih (.joinClause y o z d) s
    · rfl

omit hp in
theorem Node.parts_joinClause (h : y.isJoin = false) : (Node.joinClause x op y c).parts =
      x.parts ++ joinOpForm.parts op ++ y.parts ++ [Part.joined true] ++ constraintForm.parts c := by
  simp [parts, joinOpForm, constraintForm, h]

omit hp in
theorem Node.isJoin_of_shape (h : y.shape = x.shape) : y.isJoin = x.isJoin := by
  simpa [shape] using congrArg isJoin h

omit hp in
theorem constraint_starts {c : Node .constraint} {ts rest : List Tok} (h : Reads c.parts ts rest) :
    nextTok ts ∈ [Token.ON, .USING] := by
  cases c with
  | onConstraint x | usingConstraint cs =>
    rcases h with ⟨m, ⟨ht, -⟩, -⟩ | ⟨hj, -⟩
    · simp [ht]
    · cases hj

theorem join_sim {s₁ s₂ s₃ : PState}
    {f : JoinOperator → Source → Node (.opt .constraint) → Parser Source} (ws : List Part)
    (hws : ws.all Part.silent = true) (hj : nextTok s.toks ∈ joinTokens)
    (hop : parseJoinOperator.run s = .ok (op, s₁)) (hy : (parseUnarySource p).run s₁ = .ok (y, s₂))
    (hc : (parseJoinConstraint p).run s₂ = .ok (c, s₃)) (hk : k ≤ L + 1)
    (h : ∀ y' c', y'.shape = y.shape → c'.shape = c.shape →
      SimRun (Node.form .source) stmtStop stmtStop (k - 1)
        (pre ++ joinOpForm.parts op ++ y.parts ++ ws ++ constraintForm.parts c)
        (pre' ++ joinOpForm.parts op ++ y'.parts ++ ws ++ constraintForm.parts c')
        (f op y' c') a s₃ s') (e : Parser Source) :
    SimRun (Node.form .source) stmtStop stmtStop k pre pre' (do
      if (← peek) ∈ joinTokens then
        let operator ← parseJoinOperator
        let y ← parseUnarySource q
        let constraint ← parseJoinConstraint q
        f operator y constraint
      else e) a s s' := by
  obtain ⟨hpos, hop⟩ := parseJoinOperator_sim (S := leafToks) (L := k) hop
  refine (SimRun.pos (P := (· ∈ joinTokens)) (H := []) hj nofun ?_).atHead
  refine hop.bindAt (L := k - 1) (fun r hr _ => ?_) (fun op' hop' => ?_) (List.Subset.refl _)
  · have hlen : (toksOf r).length = (op.toks ++ []).length := hr.length_toks
    rw [List.append_nil] at hlen
    omega
  · obtain rfl : op' = op := hop'
    refine .seq ((parseUnarySource_sim hp hy).shorten (by omega)) fun y' hy' => .silent ws hws ?_
    exact .seq ((parseJoinConstraint_sim hp hc).shorten (by omega)) fun c' hc' => h y' c' hy' hc'

omit hp in
theorem addJoin_eq (h : x.isJoin = false) (op : JoinOperator) (y : Source)
    (c : Node (.opt .constraint)) : addJoin x op y c = .joinClause x op y c := by
  cases x with
  | joinClause => cases h
  | _ => rfl

omit hp in
/-- The loop stops at once, or it appends a join. -/
theorem joinLoop_ok : ∀ {n : Nat} {x r : Source} {s s' : PState},
    (joinLoop p n x).run s = .ok (r, s') →
    x = r ∧ s = s' ∧ nextTok s.toks ∉ joinTokens ∨
      r.isJoin = true ∧ ∃ op ps, r.parts = x.parts ++ .joinOp op :: ps
  | 0, _, _, _, _, h => by cases h
  | n + 1, x, r, s, s', h => by
    rw [joinLoop, peek_bind, ite_ok] at h
    obtain ⟨-, h⟩ | ⟨hj, h⟩ := h
    · obtain ⟨op, s₁, -, h⟩ := bind_ok.mp h
      obtain ⟨y, s₂, -, h⟩ := bind_ok.mp h
      obtain ⟨c, s₃, -, h⟩ := bind_ok.mp h
      obtain ⟨rfl, -, -⟩ | ⟨hr, o, ps, hps⟩ := joinLoop_ok h
      · exact .inr ⟨rfl, op, _, by rw [Node.parts, List.append_assoc]; rfl⟩
      · exact .inr ⟨hr, op, _, by rw [hps, Node.parts]; simp only [List.append_assoc]; rfl⟩
    · cases h
      exact .inl ⟨rfl, rfl, hj⟩

/-- A chain of joins is read back. -/
theorem joinLoop_sim : ∀ (n : Nat) {m k : Nat} {x z : Source}, k ≤ m → k ≤ L + 1 →
    z.shape = x.shape → SimFrom (Node.form .source) stmtStop stmtStop k x.parts z.parts
      (joinLoop p n x) (joinLoop q m z)
  | 0, _, _, _, _, _, _, _ => .error nofun
  | n + 1, m, k, x, z, hm, hL, hx => by
    refine SimFrom.fuel (q := (joinLoop q · z)) hm fun m hm => fun s a s' h => ?_
    rw [joinLoop, peek_bind, ite_ok] at h
    obtain ⟨hj, h⟩ | ⟨hj, h⟩ := h
    · obtain ⟨op, s₁, hop, h⟩ := bind_ok.mp h
      obtain ⟨y, s₂, hy, h⟩ := bind_ok.mp h
      obtain ⟨c, s₃, hc, h⟩ := bind_ok.mp h
      refine join_sim hp [.joined true] rfl hj hop hy hc hL (fun y' c' hy' hc' => ?_) _
      obtain ⟨hyj, -⟩ := parseUnarySource_ok hy
      have ih := joinLoop_sim n (m := m) (k := k - 1) (x := .joinClause x op y c)
        (z := .joinClause z op y' c') (by omega) (by omega)
        ((Node.joinClause.injEq ..).mpr ⟨hx, rfl, hy', hc'⟩) h
      rw [Node.parts_joinClause hyj,
        Node.parts_joinClause ((Node.isJoin_of_shape hy').trans hyj)] at ih
      exact ih
    · cases h
      exact .neg (P := (· ∈ joinTokens)) hj (by decide) (.pure hx rfl rfl)

theorem sourceLoop_sim {n m : Nat} {z : Source} (hxj : x.isJoin = false) (hm : k ≤ m)
    (hL : k ≤ L + 1) (hx : z.shape = x.shape) :
    SimFrom (Node.form .source) stmtStop stmtStop k x.parts z.parts (sourceLoop p n x)
      (sourceLoop q m z) := by
  cases n with
  | zero => exact .error nofun
  | succ n =>
    refine SimFrom.fuel (q := (sourceLoop q · z)) hm fun m hm => fun s a s' h => ?_
    rw [sourceLoop, peek_bind, ite_ok] at h
    obtain ⟨hj, h⟩ | ⟨hj, h⟩ := h
    · obtain ⟨op, s₁, hop, h⟩ := bind_ok.mp h
      obtain ⟨y, s₂, hy, h⟩ := bind_ok.mp h
      obtain ⟨c, s₃, hc, h⟩ := bind_ok.mp h
      rw [addJoin_eq hxj, sourceLoop_joinClause] at h
      obtain ⟨r, s₄, hr, h⟩ := bind_ok.mp h
      cases h
      obtain ⟨hyj, -⟩ := parseUnarySource_ok hy
      have hzj : z.isJoin = false := (Node.isJoin_of_shape hx).trans hxj
      cases c with
      | absent =>
        refine join_sim hp [] rfl hj hop hy hc hL (fun y' c' hy' hc' => ?_) _
        obtain rfl : c' = .absent := by cases c' <;> first | rfl | cases hc'
        refine SimRun.head (q := joinLoop q m y' >>= fun r => pure (.joinClause z op r .absent)) ?_
          fun us b _ => by rw [addJoin_eq hzj, sourceLoop_joinClause]
        have hloop := joinLoop_sim hp n (m := m) (k := k - 1) (by omega) (by omega) hy' hr
        have hparts (x r : Source) : (Node.joinClause x op r .absent).parts =
            x.parts ++ joinOpForm.parts op ++ r.parts ++ [Part.joined true] := by
          simp [Node.parts, Node.isAbsent, joinOpForm, partsIf]
        have hnil : constraintForm.parts .absent = [] := rfl
        simp only [hnil, List.append_nil]
        exact hloop.bindFrom (fun _ _ _ => Nat.le_add_right ..) (fun r' hr' => .silent [.joined true] rfl
          (.pure ((Node.joinClause.injEq ..).mpr ⟨hx, rfl, hr', rfl⟩) (hparts x r) (hparts z r')))
          (List.Subset.refl _)
      | present d =>
        obtain ⟨rfl, rfl, hj'⟩ | ⟨hrj, o, ps, hps⟩ := joinLoop_ok hr
        · refine join_sim hp [.joined true] rfl hj hop hy hc hL (fun y' c' hy' hc' => ?_) _
          refine SimRun.fuel (q := (sourceLoop q · (addJoin z op y' c'))) (by omega) fun m _ => ?_
          rw [addJoin_eq hzj]
          exact .neg (P := (· ∈ joinTokens)) hj' (by decide)
            (.pure ((Node.joinClause.injEq ..).mpr ⟨hx, rfl, hy', hc'⟩) (Node.parts_joinClause hyj)
              (Node.parts_joinClause ((Node.isJoin_of_shape hy').trans hyj)))
        · obtain ⟨_, rfl, hread₀, -⟩ := (parseJoinOperator_sim (S := []) (L := 0) hop).2
          obtain ⟨_, rfl, hread₁, -⟩ := parseUnarySource_sim hp hy
          obtain ⟨_, rfl, hread₂, -⟩ := parseJoinConstraint_sim hp hc
          obtain ⟨_, hrow, hread₃, -⟩ := joinLoop_sim hp n (Nat.zero_le 0) (Nat.zero_le _) rfl hr
          obtain rfl := List.append_cancel_left (hps.symm.trans hrow)
          obtain ⟨_, rfl, hd⟩ | ⟨hj, -⟩ := hread₂
          · have hparts : (Node.joinClause x op r (.present d)).parts = x.parts ++
                (Part.joinOp op :: (y.parts ++ Part.joinOp o :: (ps ++ Part.joined false :: .space :: d.parts))) := by
              simp [Node.parts, hps, hrj, Node.isAbsent, partsIf]
            have hchain : Reads (Part.joinOp o :: (ps ++ Part.joined false :: .space :: d.parts)) s₂.toks s'.toks := by
              refine .inr ⟨rfl, constraint_starts hd, hread₃.suffix.trans hd.suffix, fun hwf => ?_⟩
              have hps := (List.forall_mem_cons.mp (hread₃.sound (hwf.suffix hd.suffix))).2
              exact List.forall_mem_append.mpr ⟨hps, List.forall_mem_cons.mpr ⟨trivial,
                List.forall_mem_cons.mpr ⟨trivial, hd.sound hwf⟩⟩⟩
            exact .illegible hparts (hread₀.append (hread₁.append hchain)) (by simp)
          · cases hj
    · cases h
      exact .neg (P := (· ∈ joinTokens)) hj (by decide) (.pure hx rfl rfl)

/-- A source is read back. -/
theorem parseSource_sim :
    Sim (Node.form .source) stmtStop leafToks (L + 1) (parseSource p) (parseSource q) := by
  intro s a s' h
  obtain ⟨x, s₁, hx, h⟩ := bind_ok.mp h
  obtain ⟨hxj, hpos⟩ := parseUnarySource_ok hx
  refine (parseUnarySource_sim hp hx).bindAt (L := L) (fun r hr _ => ?_)
    (fun y hy => sourceLoop_sim hp hxj (Nat.le_of_eq hp.fuel.symm) (Nat.le_succ _) hy h)
    (List.Subset.refl _)
  have hlen : (toksOf r).length = (toksOf x.parts).length := hr.length_toks
  omega

/-! ## `SELECT` -/

omit hp in
theorem Node.isStarRef_of_shape {x y : Expr} (h : y.shape = x.shape) : y.isStarRef = x.isStarRef := by
  have hshape (x : Expr) : x.shape.isStarRef = x.isStarRef := by
    cases x with
    | qualifiedRef _ column => cases column <;> rfl
    | _ => rfl
  rw [← hshape y, h, hshape]

theorem parseResultColumn_sim : Sim (Node.form .column) stmtStop leafToks L (parseResultColumn p)
    (parseResultColumn q) := by
  refine .accept [.sign .STAR, .check true] rfl (by decide) (.pure rfl rfl rfl)
    (.bind (K := .AS :: stmtStop) hp.expr (fun x y h => ?_) (by decide))
  rw [Node.isStarRef_of_shape h]
  refine .ite ?_ (.seq (parseAlias_sim _ (by decide)) fun al al' hal => ?_)
  · exact .weaken (.pure (congrArg (fun x => Node.resultColumn false (.present x) none) h)
      (List.append_nil _) (List.append_nil _)) (List.Subset.refl _) (List.subset_cons_self ..) (Nat.le_refl _)
  · exact .pure (congrArg₂ (fun x al => Node.resultColumn false (.present x) al) h hal) rfl rfl

theorem parseOutputNames_sim : Sim (Node.form (.list .column)) stmtStop leafToks L
    (parseOutputNames p) (parseOutputNames q) :=
  .seq (sepList_sim commaParts rfl (by decide) (parseResultColumn_sim hp) _
    (Nat.le_of_eq hp.fuel.symm) (Nat.le_refl _)).nodes fun _ _ h => .pure h rfl rfl

def directionForm : Form (Bool × Bool) := ⟨Bool × Bool, id, fun d => directionParts d.1 d.2⟩

omit hp in
theorem parseDirection_sim (hasc : Token.ASC ∉ S) (hdesc : Token.DESC ∉ S) :
    Sim directionForm S S L parseDirection parseDirection :=
  .accept (spacedParts [.ASC]) rfl hasc (.pure rfl rfl rfl)
    (.accept (spacedParts [.DESC]) rfl hdesc (.pure rfl rfl rfl) (.pure rfl rfl rfl))

def nullsForm : Form (Bool × Bool) :=
  ⟨Bool × Bool, id, fun d => if d.1 then spacedParts [.NULLS, .FIRST]
    else partsIf d.2 (spacedParts [.NULLS, .LAST])⟩

omit hp in
theorem parseNulls_sim (hnulls : Token.NULLS ∉ S) : Sim nullsForm S S L parseNulls parseNulls :=
  .accept (spacedParts [.NULLS]) rfl hnulls
    (.accept (H := []) (spacedParts [.FIRST]) rfl List.not_mem_nil (.pure rfl rfl rfl)
      (.expect (spacedParts [.LAST]) rfl (.pure rfl rfl rfl))) (.pure rfl rfl rfl)

theorem parseOrderingTerm_sim : Sim (Node.form .term) stmtStop leafToks L (parseOrderingTerm p)
    (parseOrderingTerm q) := by
  refine .bind hp.expr (fun x y h => .seq (parseDirection_sim (by decide) (by decide)) fun d _ hd =>
    .seq (parseNulls_sim (S := stmtStop) (by decide)) fun n _ hn => ?_) (by decide)
  cases hd
  cases hn
  exact .pure (congrArg (Node.orderingTerm · d.1 d.2 n.1 n.2) h) rfl rfl

def hintForm : Form (Option Text) := ⟨Option Text, id, fun o => (o.map (Part.lit .MLCOMMENT)).toList⟩

omit hp in
theorem parseHint_sim (hS : Token.MLCOMMENT ∉ S) : Sim hintForm S S L parseHint parseHint := by
  intro s o s' h
  simp [parseHint] at h
  obtain ⟨hc, rfl, rfl⟩ | ⟨hc, rfl, rfl⟩ := h
  · refine ⟨[.lit .MLCOMMENT s.cur.lit], rfl, .one ⟨.inl hc, rfl, rfl⟩, fun row' hlike _ _ ts _ => ?_⟩
    obtain rfl := hlike.eq (List.forall_mem_singleton.mpr rfl)
    exact ⟨.inl hc.symm, some s.cur.lit, rfl, rfl, rfl⟩
  · exact .neg (P := (· = .MLCOMMENT)) hc (fun t ht he => hS (he ▸ ht)) (.pure rfl rfl rfl)

def quantifierForm : Form (Bool × Bool) :=
  ⟨Bool × Bool, id, fun d => if d.1 then [.word .ALL, .space]
    else partsIf d.2 [.word .DISTINCT, .space]⟩

omit hp in
theorem parseQuantifier_sim (hall : Token.ALL ∉ S) (hdistinct : Token.DISTINCT ∉ S) :
    Sim quantifierForm S S L parseQuantifier parseQuantifier :=
  .accept [.word .ALL, .space] rfl hall (.pure rfl rfl rfl)
    (.accept [.word .DISTINCT, .space] rfl hdistinct (.pure rfl rfl rfl) (.pure rfl rfl rfl))

def groupForm : Form (Node (.list .expr) × Node (.opt .expr)) where
  Shape := Node (.list .expr) × Node (.opt .expr)
  shape g := (g.1.shape, g.2.shape)
  parts g := groupParts g.1.isNil g.2.isAbsent g.1.parts g.2.parts

theorem parseGroupBy_sim : Sim groupForm stmtStop stmtStop L (parseGroupBy p) (parseGroupBy q) := by
  have hexprs := sepList_sim (S := stmtStop) commaParts rfl (by decide)
    (hp.expr.weaken (by decide) (List.Subset.refl _) (Nat.le_refl _)) p.fuel
    (Nat.le_of_eq hp.fuel.symm) (Nat.le_refl _)
  refine .accept (spacedParts [.GROUP]) rfl (by decide) (.expect (paddedParts [.BY]) rfl
    (.seq' hexprs.nodes fun xs ys hxs h => ?_))
    (.silent [.check true] rfl (.pure rfl rfl rfl))
  refine .seq (parseAfter_sim (by decide) (by decide) hp.expr) fun o o' ho => ?_
  obtain ⟨s, s', hxs⟩ := hxs
  have hnil : (Node.ofList xs).isNil = false := Node.isNil_ofList (sepList_ne_nil hxs)
  have hparts {xs : Node (.list .expr)} (o : Node (.opt .expr)) (h : xs.isNil = false) :
      groupForm.parts (xs, o) = [] ++ spacedParts [.GROUP] ++ paddedParts [.BY] ++ xs.parts ++
        (Node.afterForm .HAVING .expr).parts o := by
    simp [groupForm, groupParts, h, Node.afterForm, paddedParts, spacedParts]
  exact .pure (congrArg₂ Prod.mk h ho) (hparts o hnil) (hparts o' ((Node.isNil_of_shape h).trans hnil))

def compoundForm : Form (CompoundOp × Node (.opt .select)) where
  Shape := CompoundOp × Node (.opt .select)
  shape c := (c.1, c.2.shape)
  parts c := partsIf (!c.2.isAbsent) (paddedParts c.1.words ++ c.2.parts)

theorem parseCompound_sim :
    Sim compoundForm stmtStop stmtStop L (parseCompound p) (parseCompound q) := by
  have hselect (op : CompoundOp) {x y : SelectStatement} (h : y.shape = x.shape) :
      compoundForm.shape (op, .present y) = compoundForm.shape (op, .present x) :=
    congrArg (fun z => (op, Node.present z)) h
  refine .accept (spacedParts [.UNION]) rfl (by decide) (.seq (accept_sim (S := []) (spacedParts [.ALL])
    rfl List.not_mem_nil) fun all _ hall => .silent [.space] rfl (.seq (hp.selectStatement true)
      fun x y h => ?_)) ?_
  · cases hall
    cases all with
    | false => exact .pure (hselect .union h) rfl rfl
    | true => exact .pure (hselect .unionAll h) rfl rfl
  · exact .accept (paddedParts [.INTERSECT]) rfl (by decide) (.seq (hp.selectStatement true)
      fun _ _ h => .pure (hselect .intersect h) rfl rfl)
      (.accept (paddedParts [.EXCEPT]) rfl (by decide) (.seq (hp.selectStatement true)
        fun _ _ h => .pure (hselect .except h) rfl rfl) (.pure rfl rfl rfl))

def orderForm : Form (Node (.list .term)) :=
  ⟨Node (.list .term), Node.shape, fun o => partsIf (!o.isNil) (paddedParts [.ORDER, .BY] ++ o.parts)⟩

theorem parseOrderBy_sim : Sim orderForm stmtStop stmtStop L (parseOrderBy p) (parseOrderBy q) := by
  have hterms := sepList_sim (S := stmtStop) commaParts rfl (by decide)
    (parseOrderingTerm_sim hp) p.fuel (Nat.le_of_eq hp.fuel.symm) (Nat.le_refl _)
  refine .accept (spacedParts [.ORDER]) rfl (by decide) (.expect (paddedParts [.BY]) rfl
    (.seq' hterms.nodes fun xs ys hxs h => ?_)) (.pure rfl rfl rfl)
  obtain ⟨s, s', hxs⟩ := hxs
  have hnil : (Node.ofList xs).isNil = false := Node.isNil_ofList (sepList_ne_nil hxs)
  have hparts {xs : Node (.list .term)} (h : xs.isNil = false) :
      orderForm.parts xs = [] ++ spacedParts [.ORDER] ++ paddedParts [.BY] ++ xs.parts := by
    simp [orderForm, h, partsIf, paddedParts, spacedParts]
  exact .pure h (hparts hnil) (hparts ((Node.isNil_of_shape h).trans hnil))

omit hp in
/-- A word that has an alternative, which is read in its place and not printed. -/
theorem SimFrom.either {F : Form α} {t : Token} {e : Parser Unit} {f g : Unit → Parser α}
    (ws : List Part) (hws : writes t ws = true) (hread : ∀ ts, Reads ws ts ts.tail) (ht : t ≠ .AS)
    (hok : ∀ {s s'}, e.run s = .ok ((), s') → s.next = s')
    (he : ∀ us b, e.run ⟨.kw t :: us, b⟩ = .ok ((), ⟨us, b⟩))
    (h : SimFrom F S K L (pre ++ ws) (pre' ++ ws) (f ()) (g ())) :
    SimFrom F S [t] L pre pre' (e >>= f) (e >>= g) := by
  intro s a s' hr
  obtain ⟨⟨⟩, s₁, hs, hr⟩ := bind_ok.mp hr
  obtain rfl := hok hs
  exact (SimRun.lex ws hws (hread _) (.self ht) he (h hr)).lower

omit hp in
theorem SimFrom.rows {F : Form α} {f g : Unit → Parser α}
    (h : SimFrom F S K L (pre ++ spacedParts [.ROWS]) (pre' ++ spacedParts [.ROWS]) (f ()) (g ())) :
    SimFrom F S [.ROWS] L pre pre' (expectRows >>= f) (expectRows >>= g) := by
  refine .either _ rfl (fun _ => .spaced) nofun (fun hs => ?_) (fun _ _ => rfl) h
  simp [expectRows, expect_ok] at hs
  exact hs.elim (·.2) (·.2.2)

def fetchForm : Form (Node (.opt .expr)) where
  Shape := Node (.opt .expr)
  shape := Node.shape
  parts o := partsIf (!o.isAbsent) (paddedParts [.FETCH, .NEXT] ++ o.parts ++ spacedParts [.ROWS, .ONLY])

theorem parseFetch_sim : Sim fetchForm stmtStop stmtStop L (parseFetch p) (parseFetch q) := by
  refine .accept (spacedParts [.FETCH]) rfl (by decide)
    (.either (t := .NEXT) (paddedParts [.NEXT]) rfl (fun _ => .padded) nofun (fun hs => ?_)
      (fun _ _ => rfl) (.bind hp.expr (fun x y h => .rows (.expect (K := stmtStop) (spacedParts [.ONLY]) rfl ?_))
        (by decide))) (.pure rfl rfl rfl)
  · simp [expectNext, expect_ok] at hs
    exact hs.elim (·.2) (·.2.2)
  · have hparts (x : Expr) : fetchForm.parts (.present x) = [] ++ spacedParts [.FETCH] ++
        paddedParts [.NEXT] ++ x.parts ++ spacedParts [.ROWS] ++ spacedParts [.ONLY] := by
      simp [fetchForm, Node.isAbsent, partsIf, Node.parts, paddedParts, spacedParts]
    exact .pure (congrArg Node.present h) (hparts x) (hparts y)

def limitForm : Form (Node (.opt .expr) × Node (.opt .expr) × Node (.opt .expr)) where
  Shape := Node (.opt .expr) × Node (.opt .expr) × Node (.opt .expr)
  shape l := (l.1.shape, l.2.1.shape, l.2.2.shape)
  parts l := limitParts l.1.isAbsent l.2.1.isAbsent l.2.2.isAbsent l.1.parts l.2.1.parts l.2.2.parts

theorem parseLimit_sim : Sim limitForm stmtStop stmtStop L (parseLimit p) (parseLimit q) := by
  refine .accept (paddedParts [.LIMIT]) rfl (by decide) (.bind (K := .OFFSET :: stmtStop) hp.expr
    (fun x y h => ?_) (by decide)) ?_
  · intro s a s' hr
    rw [peek_bind, ite_ok] at hr
    obtain ⟨hc, hr⟩ | ⟨hc, hr⟩ := hr
    · rw [lexTok_bind] at hr
      obtain ⟨z, s₁, hz, hr⟩ := bind_ok.mp hr
      cases hr
      have hparts (x z : Expr) : limitForm.parts (.present x, .absent, .present z) =
          [] ++ paddedParts [.LIMIT] ++ x.parts ++ paddedParts [.OFFSET] ++ z.parts ++ [Part.check true] := by
        simp [limitForm, limitParts, Node.isAbsent, partsIf, Node.parts]
      -- a comma is printed as `OFFSET`
      refine .weaken (S := stmtStop) (H := [.OFFSET]) (.lower
        (.pos (P := fun t => t = .OFFSET ∨ t = .COMMA) hc (by simp) ?_)) (List.Subset.refl _)
        (by decide) (Nat.le_refl _)
      exact .lex (t := .OFFSET) (paddedParts [.OFFSET]) rfl .padded (.self (by simp)) (fun _ _ => rfl)
        (.bind (hp.expr hz) (fun z' hz' => .silent [.check true] rfl (.pure
          (congrArg₂ (fun x z => (Node.present x, Node.absent, Node.present z)) h hz')
          (hparts x z) (hparts y z'))) (by decide))
    · cases hr
      have hparts (x : Expr) : limitForm.parts (.present x, .absent, .absent) =
          [] ++ paddedParts [.LIMIT] ++ x.parts ++ [Part.check true] := by
        simp [limitForm, limitParts, Node.isAbsent, partsIf, Node.parts]
      exact (SimRun.neg (P := fun t => t = .OFFSET ∨ t = .COMMA) (H := stmtStop) hc (by decide)
        (.silent [.check true] rfl (.pure
          (congrArg (fun z => (Node.present z, Node.absent, Node.absent)) h) (hparts x)
          (hparts y)))).weaken (List.Subset.refl _) (List.subset_cons_self ..) (Nat.le_refl _)
  · refine .accept (paddedParts [.OFFSET]) rfl (by decide) (.bind hp.expr (fun x y h => .rows (.seq
      (parseFetch_sim hp) fun o o' ho => ?_)) (by decide))
      (.silent [.check true] rfl (.pure rfl rfl rfl))
    exact .pure (congrArg₂ (fun o z => (Node.absent, o, Node.present z)) ho h) rfl rfl

def tailForm :
    Form (Node (.list .term) × Node (.opt .expr) × Node (.opt .expr) × Node (.opt .expr)) where
  Shape := Node (.list .term) × limitForm.Shape
  shape t := (t.1.shape, limitForm.shape t.2)
  parts t := orderForm.parts t.1 ++ limitForm.parts t.2

theorem parseSelectTail_sim (c : Bool) :
    Sim tailForm stmtStop stmtStop L (parseSelectTail p c) (parseSelectTail q c) :=
  .ite (.silent [.check true] rfl (.pure rfl rfl rfl)) (.seq (parseOrderBy_sim hp) fun _ _ ho =>
    .seq (parseLimit_sim hp) fun _ _ hl => .pure (congrArg₂ Prod.mk ho hl) rfl rfl)

/-- A `SELECT` is read back. -/
theorem parseSelectStatement_sim (compounded : Bool) : Sim (Node.form .select) stmtStop [] (L + 1)
    (parseSelectStatement p compounded) (parseSelectStatement q compounded) := by
  refine .first [.word .SELECT, .space] rfl (.seq (parseHint_sim (S := leafToks) (by decide))
    fun h _ hh => .seq (parseQuantifier_sim (by decide) (by decide)) fun d _ hd => .seq
      (parseOutputNames_sim hp) fun c c' hc => .seq (parseAfter_sim (by decide) (List.Subset.refl _)
        hp.source) fun f f' hf => .seq (parseAfter_sim (by decide) (by decide) hp.expr)
          fun w w' hw => .seq (parseGroupBy_sim hp) fun g g' hg => .seq (parseCompound_sim hp)
            fun o o' ho => .seq (parseSelectTail_sim hp compounded) fun t t' ht => ?_)
  cases hh
  cases hd
  obtain ⟨hg₁, hg₂⟩ := (Prod.mk.injEq ..).mp hg
  obtain ⟨ho₁, ho₂⟩ := (Prod.mk.injEq ..).mp ho
  obtain ⟨ht₁, ht⟩ := (Prod.mk.injEq ..).mp ht
  obtain ⟨ht₂, ht⟩ := (Prod.mk.injEq ..).mp ht
  obtain ⟨ht₃, ht₄⟩ := (Prod.mk.injEq ..).mp ht
  refine .pure ((Node.selectStatement.injEq ..).mpr ⟨rfl, rfl, rfl, hc, hf, hw, hg₁, hg₂, ho₁, ho₂,
    ht₁, ht₂, ht₃, ht₄⟩) ?_ ?_
  all_goals
    simp [Node.form, Node.parts, hintForm, quantifierForm, Node.afterForm, groupForm, compoundForm,
      tailForm, orderForm, limitForm]

end Procs

/-! ## The knot -/

/-- The knot: by induction on how often it is closed. -/
theorem procs_sim : ∀ n m : Nat, (procs n).Sim (procs (m + 1)) m
  | 0, _ => ⟨rfl, .error nofun, fun _ _ => .error nofun, fun _ => .error nofun, .error nofun⟩
  | n + 1, 0 =>
    have hp := procs_sim n 0
    ⟨rfl, fun _ _ _ h => (parseOperand_sim hp h).zero,
      fun _ hprec _ _ _ h => (parseBinaryExpr_sim hp hprec h).zero,
      fun c _ _ _ h => (parseSelectStatement_sim hp c h).zero,
      fun _ _ _ h => (parseSource_sim hp h).zero⟩
  | n + 1, m + 1 =>
    have hp := procs_sim n m
    ⟨rfl, parseOperand_sim hp, fun _ hprec => parseBinaryExpr_sim hp hprec,
      parseSelectStatement_sim hp, parseSource_sim hp⟩

end Gofusion.Sqlparser
