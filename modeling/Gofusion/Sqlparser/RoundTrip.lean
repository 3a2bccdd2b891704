import Gofusion.Sqlparser.Printed
import Gofusion.Sqlparser.Simulation.Injective

/-!
# The round trip

A legible statement of the parser is printed without a panic, its text is lexed as its tokens,
and the tokens are parsed as the statement.  In the other direction, the text of a statement is
read as the same row of parts up to quotes, so the parser only returns a statement for its own
text if it is legible.
-/

namespace Gofusion.Sqlparser

/-! ## Quotes -/

/-- The node without the quotes of its identifiers. -/
def Node.unquote {k : Kind} (x : Node k) : Node k := x.mapIdents Ident.unquote Ident.unquote

def TableName.unquote (n : TableName) : TableName :=
  ⟨n.name.unquote, n.tableAlias.map Ident.unquote⟩

def Assignment.unquote (a : Assignment) : Assignment :=
  ⟨a.columns.map Ident.unquote, a.expr.unquote⟩

def IndexedColumn.unquote (c : IndexedColumn) : IndexedColumn := { c with x := c.x.unquote }

def UpsertClause.unquote (c : UpsertClause) : UpsertClause :=
  { c with
    columns := c.columns.map IndexedColumn.unquote
    whereExpr := c.whereExpr.map Node.unquote
    assignments := c.assignments.map Assignment.unquote
    updateWhereExpr := c.updateWhereExpr.map Node.unquote }

def InsertStatement.unquote (s : InsertStatement) : InsertStatement :=
  { s with
    tableName := s.tableName.unquote
    columnNames := s.columnNames.map Ident.unquote
    expressions := s.expressions.map Node.unquote
    query := s.query.map Node.unquote
    upsertClause := s.upsertClause.map UpsertClause.unquote
    outputExpressions := s.outputExpressions.map Node.unquote }

def UpdateStatement.unquote (s : UpdateStatement) : UpdateStatement :=
  { s with
    tableName := s.tableName.unquote
    tableAlias := s.tableAlias.map Ident.unquote
    assignments := s.assignments.map Assignment.unquote
    fromList := s.fromList.map TableName.unquote
    condition := s.condition.map Node.unquote
    cursorName := s.cursorName.map Ident.unquote
    outputExpressions := s.outputExpressions.map Node.unquote }

def DeleteStatement.unquote (s : DeleteStatement) : DeleteStatement :=
  { s with
    tableName := s.tableName.unquote
    tableAlias := s.tableAlias.map Ident.unquote
    usingList := s.usingList.map TableName.unquote
    condition := s.condition.map Node.unquote
    cursorName := s.cursorName.map Ident.unquote
    outputExpressions := s.outputExpressions.map Node.unquote }

/-- The statement without the quotes of its identifiers. -/
def Statement.unquote : Statement → Statement
  | .select s => .select s.unquote
  | .insert s => .insert s.unquote
  | .update s => .update s.unquote
  | .delete s => .delete s.unquote

theorem Statement.unquote_eq (a : Statement) :
    a.unquote = a.mapIdents Ident.unquote Ident.unquote := by
  cases a <;> rfl

theorem Statement.unquoteCalls_eq (a : Statement) : a.unquoteCalls = a.mapIdents Ident.unquote id := by
  have hnode {k : Kind} : (Node.unquoteCalls : Node k → Node k) = Node.mapIdents Ident.unquote id := rfl
  have hname : TableName.mapIdents id = id := by
    funext n
    simp [TableName.mapIdents]
  have hassign : Assignment.mapIdents Ident.unquote id = Assignment.unquoteCalls := by
    funext a
    simp [Assignment.mapIdents, Assignment.unquoteCalls, Node.unquoteCalls]
  have hupsert : UpsertClause.mapIdents Ident.unquote id = UpsertClause.unquoteCalls := by
    funext c
    rw [UpsertClause.mapIdents, hassign]
    rfl
  cases a with
  | select s => rfl
  | insert s =>
    simp [mapIdents, InsertStatement.mapIdents, unquoteCalls,
      InsertStatement.unquoteCalls, hname, hupsert, hnode]
  | update s =>
    simp [mapIdents, UpdateStatement.mapIdents, unquoteCalls,
      UpdateStatement.unquoteCalls, hname, hassign, hnode]
  | delete s =>
    simp [mapIdents, DeleteStatement.mapIdents, unquoteCalls,
      DeleteStatement.unquoteCalls, hname, hnode]

theorem Statement.unquote_parts (a : Statement) : a.unquote.parts = a.parts.map Part.unquote := by
  rw [a.unquote_eq]
  exact a.parts_mapIdents

theorem Statement.unquote_unquoteCalls (a : Statement) : a.unquoteCalls.unquote = a.unquote := by
  rw [a.unquoteCalls_eq, unquote_eq, mapIdents_mapIdents, a.unquote_eq]
  rfl

theorem Statement.shape_unquoteCalls (a : Statement) : a.unquoteCalls.shape = a.shape := by
  rw [a.unquoteCalls_eq, shape, mapIdents_mapIdents]
  rfl

/-! ## Legible statements -/

instance : Strict Part.Exact where
  word _ := rfl
  sign _ := rfl
  space := rfl
  called _ := .rfl
  assigned _ := .rfl
  check _ := .rfl

def Part.Legible (p : Part) : Prop := p.legible = true

instance : Loose Part.Legible where
  word _ := rfl
  sign _ := rfl
  space := rfl
  called _ := .rfl
  assigned _ := .rfl
  check _ := rfl
  assign := rfl
  trailing _ := rfl

theorem legibleAlias_iff (o : Option Ident) : legibleAlias o = true ↔ ∀ i ∈ o, i.legible = true := by
  cases o <;> simp [legibleAlias]

variable {k : Kind} {x : Node k} {a b : Statement} {s t : Text}

theorem Node.legible_of_exact (h : All Part.Exact x.parts) : x.legible = true := by
  induction x with
  | cons x xs ihx ihxs =>
    rw [legible, ihx (all_nodes.mp h).1, ihxs (all_nodes.mp h).2]
    rfl
  | qualifiedRef tbl column =>
    cases column <;> simp_all [parts, Part.Exact, Part.legible, legible]
  | call _ _ _ _ _ ihargs ihfilter =>
    obtain ⟨hn, ha, hf⟩ := all_of_call h
    rw [legible, ihargs ha, ihfilter hf, Bool.and_true, Bool.and_true]
    exact hn
  | resultColumn _ _ _ ih =>
    obtain ⟨-, hx, ha⟩ := all_of_column h
    rw [legible, ih hx, Bool.true_and, legibleAlias_iff]
    exact ha
  | selectStatement _ _ _ _ _ _ _ _ _ _ _ _ _ _ ih₁ ih₂ ih₃ ih₄ ih₅ ih₆ ih₇ ih₈ ih₉ ih₁₀ =>
    obtain ⟨-, h₁, h₂, h₃, h₄, h₅, h₆, h₇, h₈, h₉, h₁₀⟩ := all_of_select h
    simp [legible, ih₁ h₁, ih₂ h₂, ih₃ h₃, ih₄ h₄, ih₅ h₅, ih₆ h₆, ih₇ h₇, ih₈ h₈, ih₉ h₉,
      ih₁₀ h₁₀]
  | _ =>
    simp_all [parts, Part.Exact, Part.legible, legible, legibleAlias_iff, TableName.parts,
      TableName.legible]

theorem Node.parts_legible (h : x.legible = true) : All Part.Legible x.parts := by
  induction x with
  | cons x xs ihx ihxs =>
    rw [legible, Bool.and_eq_true] at h
    exact all_nodes.mpr ⟨ihx h.1, ihxs h.2⟩
  | qualifiedRef tbl column =>
    cases column <;> simp_all [parts, Part.Legible, Part.legible, legible]
  | _ =>
    simp_all [parts, groupParts, limitParts, all_ite, Part.Legible, Part.legible, legible,
      legibleAlias_iff, TableName.parts, TableName.legible]

/-- Legibility is that of the nodes and the identifiers. -/
theorem Statement.legible_iff (a : Statement) : a.legible = true ↔
    a.Each (fun x => x.legible = true) fun i => i.legible = true := by
  have hopt {k : Kind} (o : Option (Node k)) :
      legibleOpt o = true ↔ ∀ x ∈ o, x.legible = true := by
    cases o <;> simp [legibleOpt]
  have hupsert (o : Option UpsertClause) : legibleUpsert o = true ↔
      ∀ c ∈ o, c.Each (fun x => x.legible = true) fun i => i.legible = true := by
    cases o <;> simp [legibleUpsert, UpsertClause.legible, UpsertClause.Each, Assignment.legible,
      Assignment.Each, IndexedColumn.legible, hopt, and_assoc]
  cases a with
  | select s => exact .rfl
  | insert s =>
    simp [legible, InsertStatement.legible, Statement.Each, InsertStatement.Each,
      TableName.legible, TableName.Each, legibleAlias_iff, hopt, hupsert, and_assoc]
  | update s =>
    simp [legible, UpdateStatement.legible, Statement.Each, UpdateStatement.Each,
      TableName.legible, TableName.Each, Assignment.legible, Assignment.Each, legibleAlias_iff, hopt,
      and_assoc]
  | delete s =>
    simp [legible, DeleteStatement.legible, Statement.Each, DeleteStatement.Each,
      TableName.legible, TableName.Each, legibleAlias_iff, hopt, and_assoc]

theorem Statement.legible_of_exact (h : All Part.Exact a.parts) : a.legible = true :=
  a.legible_iff.mpr ((each_of_parts h).mono fun _ => Node.legible_of_exact)

theorem Statement.parts_legible (h : a.legible = true) : All Part.Legible a.parts :=
  parts_of_each ((a.legible_iff.mp h).mono fun _ => Node.parts_legible)

/-! ## The round trip -/

theorem Node.wf_unquoteCalls (x : Node k) : x.unquoteCalls.Wf ↔ x.Wf := by
  unfold unquoteCalls
  induction x with
  | _ => simp_all [mapIdents, Node.Wf, isAbsent_mapIdents]

theorem Statement.wf_unquoteCalls (a : Statement) : a.unquoteCalls.Wf ↔ a.Wf := by
  have hassign (a : Assignment) : a.unquoteCalls.Wf ↔ a.Wf :=
    and_congr_right' a.expr.wf_unquoteCalls
  have hupsert (c : UpsertClause) : c.unquoteCalls.Wf ↔ c.Wf := by
    simp [UpsertClause.Wf, UpsertClause.unquoteCalls, IndexedColumn.unquoteCalls, hassign,
      Node.wf_unquoteCalls]
  cases a with
  | select x => exact x.wf_unquoteCalls
  | insert x =>
    simp [Statement.Wf, unquoteCalls, InsertStatement.Wf, InsertStatement.unquoteCalls,
      hupsert, Node.wf_unquoteCalls]
  | update x =>
    simp [Statement.Wf, unquoteCalls, UpdateStatement.Wf, UpdateStatement.unquoteCalls,
      hassign, Node.wf_unquoteCalls]
  | delete x =>
    simp [Statement.Wf, unquoteCalls, DeleteStatement.Wf, DeleteStatement.unquoteCalls,
      Node.wf_unquoteCalls]

/-- The statement is printed, and its text is parsed as the statement, up to quotes. -/
def Statement.RoundTrips (a : Statement) : Prop :=
  ∃ t a', a.string = some t ∧ parseStatement t = .ok a' ∧ a'.unquote = a.unquote

theorem Statement.plain_mapIdents {f g : Ident → Ident} (a : Statement) :
    (a.mapIdents f g).plain = a.plain := by
  cases a with
  | update s => exact List.isEmpty_map
  | delete s => exact List.isEmpty_map
  | _ => rfl

theorem Statement.Alike.plain (h : a.Alike b) (ha : a.plain = true) : b.plain = true := by
  have hshape : a.shape.plain = b.shape.plain := congrArg Statement.plain h
  rwa [Statement.shape, Statement.shape, Statement.plain_mapIdents, Statement.plain_mapIdents, ha,
    eq_comm] at hshape

theorem Statement.plain_of_sound (h : All Part.Sound a.parts) : a.plain = true := by
  cases a with
  | update s => exact h (.check s.fromList.isEmpty) (by simp [parts, UpdateStatement.parts])
  | delete s => exact h (.check s.usingList.isEmpty) (by simp [parts, DeleteStatement.parts])
  | _ => rfl

theorem Statement.plain_of_parse (h : parseStatement s = .ok a) : a.plain = true := by
  obtain ⟨rest, h⟩ := parseTokens_reads h
  exact plain_of_sound (h.sound (lexAll_wf s))

/-- Only a legible statement comes back. -/
theorem Statement.RoundTrips.legible (h : a.RoundTrips) (hw : a.Wf) : a.legible = true := by
  obtain ⟨t, a', ht, hp, hq⟩ := h
  obtain ⟨rest, hread⟩ := parseTokens_reads hp
  have hplain : a.plain = true := by
    rw [← a.plain_mapIdents, ← a.unquote_eq, ← hq, a'.unquote_eq, a'.plain_mapIdents]
    exact Statement.plain_of_sound (hread.sound (lexAll_wf t))
  rw [Statement.string_eq hplain, render_eq_some] at ht
  obtain ⟨hprint, rfl⟩ := ht
  have hparts : a'.parts.map Part.unquote = a.parts.map Part.unquote := by
    rw [← a'.unquote_parts, hq, a.unquote_parts]
  rw [← List.append_nil (textOf a.parts)] at hread
  exact Statement.legible_of_exact (Reads.readBack hparts (Statement.parts_wf hw) hprint a.fits hread)

/-- The printer does not panic on a legible and well-formed statement, and its text is lexed as
the tokens of the statement. -/
theorem Statement.prints (hplain : a.plain = true) (hl : a.legible = true) (hw : a.Wf) :
    ∃ t, a.string = some t ∧ lexAll t = toksOf a.parts := by
  have hparts := parts_wf hw
  have hlegible := parts_legible hl
  have hprint (p : Part) (hp : p ∈ a.parts) : p.printable = true := by
    have hwp := hparts p hp
    have hlp := hlegible p hp
    cases p with
    | unary t => simpa [Part.Wf] using hwp
    | op t => exact hlp
    | _ => rfl
  refine ⟨textOf a.parts, (string_eq hplain).trans (render_eq_some.mpr ⟨hprint, rfl⟩), ?_⟩
  have hlex := lexAll_textOf hparts hlegible a.fits
  rw [List.append_nil] at hlex
  exact hlex.trans (List.append_nil _)

/-- The tokens of a legible statement are parsed back, when the statement is alike to one the parser
returned. -/
theorem parseTokens_toks {ts : List Tok} (h : parseTokens ts = .ok a) (hts : AllWf ts)
    (hab : a.Alike b) (hl : b.legible = true) :
    parseTokens (toksOf b.parts) = .ok b.unquoteCalls := by
  have hlike : Like a.parts b.parts := by
    rw [Like, ← Statement.parts_mapIdents, ← Statement.parts_mapIdents]
    exact congrArg Statement.parts hab.symm
  obtain ⟨c, hc, hparts, hq⟩ := parseTokens_like h hlike (Statement.parts_legible hl)
  have hbare : b.unquoteCalls.parts = b.parts.map Part.bare := by
    rw [b.unquoteCalls_eq]
    exact b.parts_mapIdents
  have hcheck : .check false ∉ b.unquoteCalls.parts := by
    rw [hbare]
    intro hm
    obtain ⟨p, hp, he⟩ := List.mem_map.mp hm
    obtain rfl : p = .check false := by cases p <;> first | exact he | cases he
    obtain ⟨rest, hread⟩ := parseTokens_reads h
    cases hread.sound hts _ (Like.mem (Eq.symm hlike) rfl hp)
  rw [hq, Statement.eq_of_parts hcheck (hc.trans (hab.trans b.shape_unquoteCalls.symm))
    (hparts.trans hbare.symm)]

/-- The text of a legible statement is parsed as the statement, with the quotes of
function names dropped, when the statement is alike to one of the parser. -/
theorem parseStatement_string_of_alike (h : parseStatement s = .ok a) (hab : a.Alike b) (hw : b.Wf)
    (hl : b.legible = true) (ht : b.string = some t) : parseStatement t = .ok b.unquoteCalls := by
  have hplain : b.plain = true := hab.plain (Statement.plain_of_parse h)
  obtain ⟨t', ht', hlex⟩ := Statement.prints hplain hl hw
  cases ht.symm.trans ht'
  rw [parseStatement, hlex]
  exact parseTokens_toks h (lexAll_wf s) hab hl

/-- The text of a legible statement of the parser is parsed as the statement, with
the quotes of function names dropped. -/
theorem parseStatement_string (h : parseStatement s = .ok a) (hl : a.legible = true)
    (ht : a.string = some t) : parseStatement t = .ok a.unquoteCalls :=
  parseStatement_string_of_alike h rfl (parseStatement_wf h) hl ht

/-- The text of a statement is parsed as the statement when this is well formed and
legible, and in no other case. -/
theorem parseStatement_string_iff (h : parseStatement s = .ok a) (hab : a.Alike b)
    (ht : b.string = some t) : parseStatement t = .ok b.unquoteCalls ↔ b.Wf ∧ b.legible = true := by
  constructor
  · intro hp
    have hw := b.wf_unquoteCalls.mp (parseStatement_wf hp)
    exact ⟨hw, Statement.RoundTrips.legible ⟨t, _, ht, hp, b.unquote_unquoteCalls⟩ hw⟩
  · exact fun ⟨hw, hl⟩ => parseStatement_string_of_alike h hab hw hl ht

/-- The parser accepts the text, and the statement has the property. -/
theorem exists_parse {p : Statement → Bool} (h : (parseStatement s).toOption.any p = true) :
    ∃ a, parseStatement s = .ok a ∧ p a = true := by
  cases hp : parseStatement s with
  | error e => rw [hp] at h; cases h
  | ok a => rw [hp] at h; exact ⟨a, rfl, h⟩

/-- A parsed statement makes the round trip if and only if it is legible. -/
theorem roundTrips_iff_legible {s : Text} {a : Statement} (h : parseStatement s = .ok a) :
    a.RoundTrips ↔ a.legible = true := by
  constructor
  · exact fun hround => hround.legible (parseStatement_wf h)
  · intro hl
    obtain ⟨t, ht, -⟩ := Statement.prints (Statement.plain_of_parse h) hl (parseStatement_wf h)
    exact ⟨t, _, ht, parseStatement_string h hl ht, a.unquote_unquoteCalls⟩

theorem joined_query_roundTrips :
    ∃ a, parseStatement "SELECT `a b` FROM x JOIN y USING (i) WHERE -c = 1 LIMIT 2".toList = .ok a ∧
      a.RoundTrips := by
  obtain ⟨a, ha, hl⟩ := exists_parse (p := Statement.legible)
    (s := "SELECT `a b` FROM x JOIN y USING (i) WHERE -c = 1 LIMIT 2".toList) (by decide)
  exact ⟨a, ha, (roundTrips_iff_legible ha).mpr hl⟩

/-- With two joins the constraints are printed in the wrong order, and the text is no
statement. -/
theorem two_joins_not_roundTrips :
    ∃ a, parseStatement "SELECT * FROM a JOIN b ON x JOIN c ON y".toList = .ok a ∧
      a.string = some "SELECT * FROM a JOIN b JOIN c ON y ON x".toList ∧ ¬a.RoundTrips := by
  obtain ⟨a, ha, hs⟩ := exists_parse (s := "SELECT * FROM a JOIN b ON x JOIN c ON y".toList)
    (p := fun a => a.string = some "SELECT * FROM a JOIN b JOIN c ON y ON x".toList && !a.legible)
    (by decide)
  rw [Bool.and_eq_true, decide_eq_true_eq, Bool.not_eq_true'] at hs
  refine ⟨a, ha, hs.1, fun hround => ?_⟩
  rw [hround.legible (parseStatement_wf ha)] at hs
  cases hs.2

/-- No two parsed and legible statements have one text, but for the quotes of function names. -/
theorem string_injective {s' : Text} {b : Statement} (ha : parseStatement s = .ok a)
    (hb : parseStatement s' = .ok b) (hla : a.legible = true) (hlb : b.legible = true)
    (hta : a.string = some t) (htb : b.string = some t) : a.unquoteCalls = b.unquoteCalls :=
  Except.ok.inj ((parseStatement_string ha hla hta).symm.trans (parseStatement_string hb hlb htb))

theorem spaced_query_injective :
    ∃ a b, parseStatement "SELECT f(1)".toList = .ok a ∧
      parseStatement "select  `f` (1)".toList = .ok b ∧ a.unquoteCalls = b.unquoteCalls := by
  obtain ⟨a, ha, hp⟩ := exists_parse (s := "SELECT f(1)".toList)
    (p := fun a => a.legible && decide (a.string = some "SELECT f(1)".toList)) (by decide)
  obtain ⟨b, hb, hq⟩ := exists_parse (s := "select  `f` (1)".toList)
    (p := fun a => a.legible && decide (a.string = some "SELECT f(1)".toList)) (by decide)
  rw [Bool.and_eq_true, decide_eq_true_eq] at hp hq
  exact ⟨a, b, ha, hb, string_injective ha hb hp.1 hq.1 hp.2 hq.2⟩

end Gofusion.Sqlparser
