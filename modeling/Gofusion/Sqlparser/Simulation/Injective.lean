import Gofusion.Sqlparser.Simulation.Statement

/-!
# Names and parts

The parts of a statement decide about its names: two statements that are alike and have the same
parts are the same.  This asks for the checks, because the fields that are not printed have to be
empty.
-/

namespace Gofusion.Sqlparser

/-! ## Names -/

def Part.names : Part → List Ident
  | .name i | .called i | .column i | .func i | .assigned i => [i]
  | _ => []

def namesOf (ps : List Part) : List Ident := ps.flatMap Part.names

variable {k : Kind} {ps qs : List Part} {ws : List Token} {b : Bool}

@[simp]
theorem namesOf_nil : namesOf [] = [] := rfl

@[simp]
theorem namesOf_cons (p : Part) : namesOf (p :: ps) = p.names ++ namesOf ps := rfl

@[simp]
theorem namesOf_append : namesOf (ps ++ qs) = namesOf ps ++ namesOf qs := List.flatMap_append

@[simp]
theorem namesOf_ite {c : Prop} [Decidable c] :
    namesOf (if c then ps else qs) = if c then namesOf ps else namesOf qs := by
  split <;> rfl

@[simp]
theorem namesOf_spaced : namesOf (spacedParts ws) = [] := by
  induction ws with
  | nil => rfl
  | cons t ws ih => exact ih

@[simp]
theorem namesOf_padded : namesOf (paddedParts ws) = [] := by
  simp [paddedParts, Part.names]

@[simp]
theorem namesOf_called (o : Option Ident) : namesOf (calledParts o) = o.toList := by
  cases o <;> rfl

theorem namesOf_join {α : Type} (p : α → List Part) {sep : List Part} (hsep : namesOf sep = []) :
    ∀ xs : List α, namesOf (joinParts sep (xs.map p)) = xs.flatMap fun x => namesOf (p x)
  | [] => rfl
  | [x] => by simp [joinParts]
  | x :: y :: ys => by
    have ih := namesOf_join p hsep (y :: ys)
    simp_all [joinParts]

theorem check_join {α : Type} (p : α → List Part) {sep : List Part} (hsep : .check b ∉ sep) :
    ∀ xs : List α, .check b ∉ joinParts sep (xs.map p) ↔ ∀ x ∈ xs, .check b ∉ p x
  | [] => by simp [joinParts]
  | [x] => by simp [joinParts]
  | x :: y :: ys => by
    have ih := check_join p hsep (y :: ys)
    simp_all [joinParts]

@[simp]
theorem namesOf_names (is : List Ident) : namesOf (namesParts is) = is := by
  rw [namesParts, namesOf_join _ rfl]
  exact List.flatMap_singleton' is

@[simp]
theorem check_names (is : List Ident) : .check b ∉ namesParts is := by
  rw [namesParts, check_join _ (by simp [commaParts])]
  simp

section

variable {o : Node (.opt k)} {xs : Node (.list k)} {p : Part}

@[simp]
theorem names_present : (if o.isAbsent = false then namesOf o.parts else []) = namesOf o.parts := by
  cases o <;> rfl

@[simp]
theorem names_nonempty : (if xs.isNil = false then namesOf xs.parts else []) = namesOf xs.parts := by
  cases xs <;> rfl

@[simp]
theorem mem_present : (o.isAbsent = false → p ∉ o.parts) ↔ p ∉ o.parts := by
  cases o <;> simp [Node.isAbsent, Node.parts]

@[simp]
theorem mem_nonempty : (xs.isNil = false → p ∉ xs.parts) ↔ p ∉ xs.parts := by
  cases xs <;> simp [Node.isNil, Node.parts]

@[simp]
theorem check_spaced : .check b ∉ spacedParts ws := by
  simp [spacedParts]

@[simp]
theorem check_padded : .check b ∉ paddedParts ws := by
  simp [paddedParts]

@[simp]
theorem check_called (o : Option Ident) : .check b ∉ calledParts o := by
  cases o <;> simp [calledParts]

end

/-! ## Shapes -/

/-- What has a certain shape and no parts left out is decided by its names. -/
def Named {α : Type} (shape : α → α) (parts : α → List Part) : Prop :=
  ∀ ⦃x y : α⦄, .check false ∉ parts x → shape y = shape x → ∀ r r' : List Ident,
    (namesOf (parts y) ++ r = namesOf (parts x) ++ r' ↔ y = x ∧ r = r')

theorem named_idents {is js : List Ident} (h : js.map Ident.blank = is.map Ident.blank)
    {r r' : List Ident} : js ++ r = is ++ r' ↔ js = is ∧ r = r' := by
  have hlen : js.length = is.length := by simpa using congrArg List.length h
  exact ⟨fun h => List.append_inj h hlen, fun ⟨h, h'⟩ => h ▸ h' ▸ rfl⟩

theorem named_alias {o o' : Option Ident} (h : o'.map Ident.blank = o.map Ident.blank)
    {r r' : List Ident} : o'.toList ++ r = o.toList ++ r' ↔ o' = o ∧ r = r' := by
  cases o <;> cases o' <;> simp_all

theorem TableName.named : Named (TableName.mapIdents Ident.blank) TableName.parts := by
  rintro ⟨n, al⟩ ⟨n', al'⟩ hc h r r'
  simp [parts, Part.names, named_alias ((mk.injEq ..).mp h).2, and_assoc]

@[simp]
theorem namesOf_nodes (x : Node k) (xs : Node (.list k)) :
    namesOf (if xs.isNil then x.parts else x.parts ++ sepParts k ++ xs.parts) =
      namesOf x.parts ++ namesOf xs.parts := by
  have hsep (k : Kind) : namesOf (sepParts k) = [] := by cases k <;> rfl
  cases xs <;> simp [Node.isNil, Node.parts, hsep]

theorem check_nodes (x : Node k) (xs : Node (.list k)) :
    .check b ∉ (if xs.isNil then x.parts else x.parts ++ sepParts k ++ xs.parts) ↔
      .check b ∉ x.parts ∧ .check b ∉ xs.parts := by
  have hsep (k : Kind) : .check b ∉ sepParts k := by cases k <;> simp [sepParts, commaParts]
  cases xs <;> simp [Node.isNil, Node.parts, hsep]

theorem Node.isAbsent_iff {o : Node (.opt k)} : o.isAbsent = true ↔ o = .absent := by
  cases o <;> simp [isAbsent]

theorem Node.isNil_iff {xs : Node (.list k)} : xs.isNil = true ↔ xs = .nil := by
  cases xs <;> simp [isNil]

theorem Node.check_of_shape {x y : Node k} (h : y.shape = x.shape) (hc : .check false ∉ x.parts) :
    .check false ∉ y.parts := by
  have hmem (x : Node k) : .check false ∈ x.shape.parts ↔ .check false ∈ x.parts := by
    rw [shape, parts_mapIdents, List.mem_map]
    refine ⟨?_, fun hp => ⟨_, hp, rfl⟩⟩
    rintro ⟨p, hp, he⟩
    cases p <;> cases he
    exact hp
  rwa [← hmem, h, hmem]

theorem namesOf_group {g : Node (.list .expr)} {o : Node (.opt .expr)}
    (hc : .check false ∉ groupParts g.isNil o.isAbsent g.parts o.parts) :
    namesOf (groupParts g.isNil o.isAbsent g.parts o.parts) = namesOf g.parts ++ namesOf o.parts ∧
      .check false ∉ g.parts ∧ .check false ∉ o.parts := by
  cases hn : g.isNil <;>
    simp_all [groupParts, partsIf, Part.names, Node.parts_of_isNil, Node.parts_of_isAbsent]

theorem namesOf_limit {l f o : Node (.opt .expr)}
    (hc : .check false ∉ limitParts l.isAbsent f.isAbsent o.isAbsent l.parts f.parts o.parts) :
    namesOf (limitParts l.isAbsent f.isAbsent o.isAbsent l.parts f.parts o.parts) =
        namesOf l.parts ++ (namesOf o.parts ++ namesOf f.parts) ∧
      .check false ∉ l.parts ∧ .check false ∉ o.parts ∧ .check false ∉ f.parts := by
  cases hl : l.isAbsent <;> cases ho : o.isAbsent <;>
    simp_all [limitParts, partsIf, Part.names, Node.parts_of_isAbsent]

theorem Node.named : Named (Node.shape (k := k)) Node.parts := by
  intro x y hc h r r'
  induction x generalizing r r' with
  | cons x xs ihx ihxs =>
    cases y with
    | cons y ys =>
      obtain ⟨hx, hxs⟩ := (Node.cons.injEq ..).mp h
      rw [parts, check_nodes] at hc
      rw [parts, parts, namesOf_nodes, namesOf_nodes, List.append_assoc, List.append_assoc,
        ihx hc.1 hx, ihxs hc.2 hxs, Node.cons.injEq, and_assoc]
    | _ => cases h
  | qualifiedRef tbl column =>
    cases y with
    | qualifiedRef tbl' column' =>
      obtain ⟨-, hcol⟩ := (Node.qualifiedRef.injEq ..).mp h
      cases column <;> cases column' <;> simp_all [parts, Part.names, and_assoc]
    | _ => cases h
  | call name star distinct args filter iha ihf =>
    cases y with
    | call name' star' distinct' args' filter' =>
      have hy := check_of_shape h hc
      obtain ⟨-, rfl, rfl, ha, hf⟩ := (Node.call.injEq ..).mp h
      have iha (hc) := iha hc ha
      have ihf (hc) := ihf hc hf
      cases star' <;> simp_all [parts, Part.names, partsIf, isNil_iff, and_assoc]
    | _ => cases h
  | resultColumn star x al ih =>
    cases y with
    | resultColumn star' x' al' =>
      have hy := check_of_shape h hc
      obtain ⟨rfl, hx, hal⟩ := (Node.resultColumn.injEq ..).mp h
      have ih (hc) := ih hc hx
      have hal := @named_alias _ _ hal
      cases star' <;> simp_all [parts, Part.names, partsIf, isAbsent_iff, and_assoc]
  | table t =>
    cases y with
    | table t' => simp [parts, TableName.named hc ((Node.table.injEq ..).mp h)]
    | _ => cases h
  | usingConstraint cs =>
    cases y with
    | usingConstraint ds =>
      simp [parts, Part.names, named_idents ((Node.usingConstraint.injEq ..).mp h)]
    | _ => cases h
  | selectStatement _ _ _ _ _ _ _ _ _ _ o _ _ _ ihc ihf ihw ihg ihh ihcc iho ihl ihfe ihof =>
    cases y with
    | selectStatement =>
      have hy := check_of_shape h hc
      obtain ⟨rfl, rfl, rfl, hcs, hf, hw, hg, hh, rfl, hcc, ho, hl, hfe, hof⟩ :=
        (Node.selectStatement.injEq ..).mp h
      have hhint (o : Option Text) : namesOf (o.map (Part.lit .MLCOMMENT)).toList = [] := by
        cases o <;> rfl
      have hclause {k : Kind} {o : Node (.opt k)} {ws : List Token}
          (h : .check false ∉ partsIf (!o.isAbsent) (paddedParts ws ++ o.parts)) :
          .check false ∉ o.parts := by simpa [partsIf] using h
      simp only [parts, List.mem_append, not_or] at hc hy
      obtain ⟨⟨⟨⟨⟨⟨⟨-, hcc'⟩, hcf⟩, hcw⟩, hgroup⟩, hccc⟩, hco⟩, hlimit⟩ := hc
      have hco : .check false ∉ o.parts := by simpa [partsIf] using hco
      obtain ⟨hgroup, hcg, hch⟩ := namesOf_group hgroup
      obtain ⟨hlimit, hcl, hcof, hcfe⟩ := namesOf_limit hlimit
      simp [parts, Part.names, partsIf, hgroup, (namesOf_group hy.1.1.1.2).1, hlimit,
        (namesOf_limit hy.2).1, hhint, ihc hcc' hcs, ihf (hclause hcf) hf, ihw (hclause hcw) hw,
        ihg hcg hg, ihh hch hh, ihcc (hclause hccc) hcc, iho hco ho, ihl hcl hl, ihof hcof hof,
        ihfe hcfe hfe, and_assoc, and_left_comm]
  | _ =>
    cases y <;> first | (cases h; done) | skip
    all_goals
      simp only [shape, mapIdents] at *
      simp_all [parts, Part.names, partsIf, directionParts, @named_alias, and_assoc]

/-! ## Statements -/

variable {α : Type} {f : α → α} {p : α → List Part}

theorem Named.join (hn : Named f p) (sep : List Part) (hsep : namesOf sep = [])
    (hcheck : .check false ∉ sep) : Named (List.map f) fun xs => joinParts sep (xs.map p) := by
  intro xs ys hc h r r'
  rw [check_join p hcheck] at hc
  rw [namesOf_join p hsep, namesOf_join p hsep]
  induction xs generalizing ys with
  | nil =>
    obtain rfl := List.map_eq_nil_iff.mp h
    simp
  | cons x xs ih =>
    obtain ⟨y, ys, rfl, hy, hys⟩ := List.map_eq_cons_iff.mp h
    obtain ⟨hx, hxs⟩ := List.forall_mem_cons.mp hc
    simp [hn hx hy, ih hxs hys, and_assoc]

theorem Named.option {q : Option α → List Part} {pre : List Part} (hn : Named f p)
    (hnone : q none = []) (hsome : ∀ x, q (some x) = pre ++ p x) (hpre : namesOf pre = []) :
    Named (Option.map f) q := by
  intro o o' hc h r r'
  cases o with
  | none =>
    cases o' with
    | none => simp [hnone]
    | some y => cases h
  | some x =>
    cases o' with
    | none => cases h
    | some y =>
      rw [hsome, List.mem_append, not_or] at hc
      simp [hsome, hpre, hn hc.2 (Option.some.inj h)]

theorem named_opt (t : Token) : Named (Option.map (Node.shape (k := k))) (optParts t) :=
  (Node.named).option rfl (fun _ => rfl) rfl

theorem Assignment.named :
    Named (Assignment.mapIdents Ident.blank Ident.blank) Assignment.parts := by
  have hcolumns : ∀ cs : List Ident, namesOf (columnsParts cs) = cs ∧ .check false ∉ columnsParts cs
    | [] | [_] | _ :: _ :: _ => by simp [columnsParts, Part.names]
  rintro ⟨cs, x⟩ ⟨ds, y⟩ hc h r r'
  obtain ⟨hcs, hx⟩ := (mk.injEq ..).mp h
  have hc : .check false ∉ x.parts := by simpa [parts, hcolumns] using hc
  simp [parts, Part.names, hcolumns, named_idents hcs, Node.named hc hx, and_assoc]

theorem IndexedColumn.named :
    Named (IndexedColumn.mapIdents Ident.blank Ident.blank) IndexedColumn.parts := by
  rintro ⟨x, asc, desc⟩ ⟨y, asc', desc'⟩ hc h r r'
  obtain ⟨hx, rfl, rfl⟩ := (mk.injEq ..).mp h
  have hc : .check false ∉ x.parts := by simp_all [parts]
  simp [parts, directionParts, partsIf, Node.named hc hx]

theorem UpsertClause.named :
    Named (UpsertClause.mapIdents Ident.blank Ident.blank) UpsertClause.parts := by
  rintro ⟨cs, w, b, u, as, uw⟩ ⟨cs', w', b', u', as', uw'⟩ hc h r r'
  obtain ⟨hcs, hw, rfl, rfl, has, huw⟩ := (mk.injEq ..).mp h
  have hcols (hc) := IndexedColumn.named.join commaParts rfl (by simp [commaParts]) hc hcs
  have hsets (hc) := Assignment.named.join commaParts rfl (by simp [commaParts]) hc has
  have hwhere (hc) := named_opt .WHERE hc hw
  have hupdate (hc) := named_opt .WHERE hc huw
  have hempty : cs'.isEmpty = cs.isEmpty := by simpa using congrArg List.isEmpty hcs
  cases hn : cs.isEmpty <;> cases b' <;> simp_all [parts, Part.names, and_assoc]

theorem named_where {x x' : Option Expr} {c c' : Option Ident} (hc : .check false ∉ whereParts x c)
    (hx : x'.map Node.shape = x.map Node.shape) (hi : c'.map Ident.blank = c.map Ident.blank)
    (r r' : List Ident) :
    namesOf (whereParts x' c') ++ r = namesOf (whereParts x c) ++ r' ↔ x' = x ∧ c' = c ∧ r = r' := by
  have hnode (hc) := named_opt .WHERE hc hx
  cases x <;> cases x' <;> cases c <;> cases c' <;> simp_all [whereParts, optParts, Part.names]

theorem named_body {d : Bool} {es es' : List (Node (.list .expr))} {o o' : Option SelectStatement}
    (hc : .check false ∉ bodyParts d es o) (hes : es'.map Node.shape = es.map Node.shape)
    (ho : o'.map Node.shape = o.map Node.shape) (r r' : List Ident) :
    namesOf (bodyParts d es' o') ++ r = namesOf (bodyParts d es o) ++ r' ↔
      es' = es ∧ o' = o ∧ r = r' := by
  have hrow : Named Node.shape rowParts := by
    intro x y hc h r r'
    have hc : .check false ∉ x.parts := by simpa [rowParts] using hc
    simp [rowParts, Part.names, Node.named hc h]
  have hrows (hc) := hrow.join [.sign .COMMA] rfl (by simp) hc hes
  have hquery (hc) := named_opt .SELECT hc ho
  cases d <;> cases o <;> cases o' <;> cases es <;> simp_all [bodyParts, optParts, Part.names]

/-- A statement is decided by its shape and its names. -/
theorem Statement.named : Named Statement.shape Statement.parts := by
  intro a b hc h r r'
  cases a with
  | select s =>
    cases b with
    | select t => simp [parts, Node.named hc ((Statement.select.injEq ..).mp h)]
    | _ => cases h
  | insert s =>
    cases b with
    | insert t =>
      obtain ⟨n, cs, dv, es, qu, u, o⟩ := s
      obtain ⟨n', cs', dv', es', qu', u', o'⟩ := t
      obtain ⟨hname, hcs, rfl, hes, hqu, hu, ho⟩ :=
        (InsertStatement.mk.injEq ..).mp ((Statement.insert.injEq ..).mp h)
      have hname (hc) := TableName.named hc hname
      have hbody (hc) := @named_body dv' _ _ _ _ hc hes hqu
      have hupsert (hc) := UpsertClause.named.option (q := upsertParts) rfl (fun _ => rfl)
        (rfl : namesOf [.space] = []) hc hu
      have hout (hc) := named_opt .RETURNING hc ho
      have hempty : cs'.isEmpty = cs.isEmpty := by simpa using congrArg List.isEmpty hcs
      cases hn : cs.isEmpty <;>
        simp_all [parts, InsertStatement.parts, Part.names, partsIf, named_idents hcs,
          and_assoc]
    | _ => cases h
  | update s =>
    cases b with
    | update t =>
      obtain ⟨ol, n, st, al, as, fl, c, cu, o⟩ := s
      obtain ⟨ol', n', st', al', as', fl', c', cu', o'⟩ := t
      obtain ⟨rfl, hname, rfl, hal, has, hfl, hc', hcu, ho⟩ :=
        (UpdateStatement.mk.injEq ..).mp ((Statement.update.injEq ..).mp h)
      have hname (hc) := TableName.named hc hname
      have hsets (hc) := Assignment.named.join commaParts rfl (by simp [commaParts]) hc has
      have hwhere (hc) := named_where hc hc' hcu
      have hout (hc) := named_opt .RETURNING hc ho
      cases fl <;>
        simp_all [parts, UpdateStatement.parts, Part.names, partsIf, named_alias hal, and_assoc]
    | _ => cases h
  | delete s =>
    cases b with
    | delete t =>
      obtain ⟨ol, n, st, al, us, c, cu, o⟩ := s
      obtain ⟨ol', n', st', al', us', c', cu', o'⟩ := t
      obtain ⟨rfl, hname, rfl, hal, hus, hc', hcu, ho⟩ :=
        (DeleteStatement.mk.injEq ..).mp ((Statement.delete.injEq ..).mp h)
      have hname (hc) := TableName.named hc hname
      have hwhere (hc) := named_where hc hc' hcu
      have hout (hc) := named_opt .RETURNING hc ho
      have halias (o : Option Ident) : namesOf (deleteAliasParts o) = o.toList ∧
          .check false ∉ deleteAliasParts o := by cases o <;> simp [deleteAliasParts, Part.names]
      cases us <;>
        simp_all [parts, DeleteStatement.parts, Part.names, partsIf, named_alias hal, and_assoc]
    | _ => cases h

/-- A statement that is alike to another and has its parts is this statement. -/
theorem Statement.eq_of_parts {a b : Statement} (hc : .check false ∉ a.parts)
    (h : b.shape = a.shape) (hparts : b.parts = a.parts) : b = a :=
  ((named hc h [] []).mp (by rw [hparts])).1

end Gofusion.Sqlparser
