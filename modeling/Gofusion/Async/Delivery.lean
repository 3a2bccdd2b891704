import Gofusion.Async.Arguments

/-!
# Arguments from the producer to the function

The arguments of a task arrive exactly if there is one, none of them is nil, the only one does
not point to nil, and the deadline of the context can be read back.
-/

namespace Gofusion.Async

open Gofusion.Context Gofusion.Lib Gofusion.Payload Gofusion.Routine Gofusion.Utils

/-! ## The law -/

section

variable {A E T : Type}

/-- An argument of the type of a parameter. -/
def Reflected.Matches (rf : Reflected A E T) (t : T) (v : GoAny A E) : Prop :=
  rf.Accepts t v ∧ (v ≠ .nil → rf.assignable v t = true)

/-- The arguments of a function that takes more than a context, packed. -/
def Packed.of (fn : Func T) (args : List (GoAny A E)) : Packed A E T :=
  match fn.params, args with
  | [t], [v] => .single t v
  | params, args => .embed ((argFields 2 params).zip args)

variable (rf : Reflected A E T) (c : Codecs (ArgType T) (Packed A E T)) (app : Text)

/-- `Go` without a context, `Goc` with one. -/
def produce (conf : MessageConf) (taskNames : AList fun _ : Text => Text) (ctx : Option Fields)
    (fn : Func T) (args : List (GoAny A E)) : Except Panic (Except Err Enqueued) :=
  match ctx with
  | none => go rf c app conf taskNames fn args
  | some ctx => goc rf c app conf taskNames ctx fn args

/-- The serializer, the compressor and gob invert on packed arguments and on a context. -/
structure Inverts (conf : MessageConf) (ctx : Fields) (p : Packed A E T) : Prop where
  type : c.type p = p.type
  codecs : ∃ m out,
    c.marshal (conf.options (T := ArgType T) ctx).serializeType p = .ok m ∧
    c.unmarshal (conf.options (T := ArgType T) ctx).serializeType (.object p.type) m = .ok (.object p) ∧
    compressData c (conf.options ctx) m = .ok out ∧
    decompressData c conf.compressType out = .ok m
  gob : c.gob.unmarshal (c.gob.marshal (flatten c.times ctx)) = some (flatten c.times ctx)

/-- A task is produced, and the consumer calls the function with its arguments and with the
context of the producer. -/
def Arrives (conf : MessageConf) (taskNames : AList fun _ : Text => Text) (r : Registry T)
    (ctx : Option Fields) (fn : Func T) (args : List (GoAny A E)) : Prop :=
  ∃ task ctx', produce rf c app conf taskNames ctx fn args = .ok (.ok task) ∧
    r.consume rf c task = .ok (.ok (fn, .value (rf.ofContext ctx') :: args)) ∧
    ctx'.propagated = (ctx.getD {}).propagated

/-- The only argument is a pointer with nil at its end, for a parameter that is no interface. -/
def Reflected.PointsToNil (fn : Func T) (args : List (GoAny A E)) : Prop :=
  ∃ t v, fn.params = [t] ∧ args = [v] ∧ rf.isInterface t = false ∧ rf.nilPointer v = true

end

/-! ## Packing -/

def hexValue (ch : Char) : Nat := if ch.toNat < 58 then ch.toNat - 48 else ch.toNat - 55

theorem hexValue_hexDigit : ∀ {n : Nat}, n < 16 → hexValue (hexDigit n) = n := by
  decide

theorem argName_inj (h : argName i = argName j) : i = j := by
  have hvalues : ∀ n, ((Nat.digits 16 n).map hexDigit).map hexValue = Nat.digits 16 n := by
    intro n
    rw [List.map_map]
    refine (List.map_congr_left fun d hd => ?_).trans (List.map_id _)
    exact hexValue_hexDigit (Nat.digits_lt_base (by decide) hd)
  rw [argName, argName, List.append_cancel_left_eq, List.reverse_inj] at h
  exact Nat.digits.injective 16 (by rw [← hvalues i, h, hvalues j])

variable {name : Text}

section

variable {A E T : Type}

theorem exists_of_mem_argFields : ∀ {ts : List T} {i : Nat},
    name ∈ (argFields i ts).map (·.1) → ∃ j, i ≤ j ∧ name = argName j
  | [], _, h => nomatch h
  | _ :: _, i, h => by
    rcases List.mem_cons.1 h with rfl | h
    · exact ⟨i, Nat.le_refl i, rfl⟩
    · obtain ⟨j, hj, rfl⟩ := exists_of_mem_argFields h
      exact ⟨j, by omega, rfl⟩

theorem argFields_nodup : ∀ (i : Nat) (ts : List T), ((argFields i ts).map (·.1)).Nodup
  | _, [] => List.nodup_nil
  | i, _ :: ts => by
    refine List.nodup_cons.2 ⟨fun h => ?_, argFields_nodup (i + 1) ts⟩
    obtain ⟨j, hj, hname⟩ := exists_of_mem_argFields h
    have := argName_inj hname
    omega

theorem structOf_argFields (i : Nat) (ts : List T) :
    structOf (argFields i ts) = .ok (.embed (argFields i ts)) := if_pos (argFields_nodup i ts)

variable {rf : Reflected A E T}

variable {v : GoAny A E} {t : T} {vs : List (GoAny A E)} {ts : List T}

theorem Reflected.Matches.set (h : rf.Matches t v) (hv : v ≠ .nil) : rf.set t v = .ok v := by
  have hassign := h.2 hv
  cases v with
  | nil => exact absurd rfl hv
  | value a | error e => exact if_pos hassign

theorem Reflected.Matches.setConverted (h : rf.Matches t v) (hv : v ≠ .nil) :
    rf.setConverted t v = .ok v := by
  obtain ⟨hnil, -⟩ | ⟨-, hcan, hconvert⟩ := h.1
  · exact absurd hnil hv
  · cases v with
    | nil => exact absurd rfl hv
    | value a | error e => exact (if_pos hcan).trans (congrArg _ hconvert)

theorem setFields_ok (h : List.Forall₂ rf.Matches ts vs) (hnil : .nil ∉ vs) :
    ∀ i, rf.setFields (argFields i ts) vs = .ok ((argFields i ts).zip vs) := by
  induction h with
  | nil => exact fun _ => rfl
  | cons hv _ ih =>
    intro i
    rw [List.mem_cons, not_or] at hnil
    rw [argFields, Reflected.setFields, hv.setConverted (Ne.symm hnil.1), ih hnil.2 (i + 1)]
    rfl

theorem setFields_nil (h : List.Forall₂ rf.Matches ts vs) (hnil : .nil ∈ vs) :
    ∀ i, rf.setFields (argFields i ts) vs = .error .reflect := by
  induction h with
  | nil => exact nomatch hnil
  | @cons t v ts vs hv _ ih =>
    intro i
    rw [argFields, Reflected.setFields]
    by_cases hhead : v = .nil
    · subst hhead
      rfl
    · have htail := (List.mem_cons.1 hnil).resolve_left (Ne.symm hhead)
      rw [hv.setConverted hhead, ih htail (i + 1)]
      rfl

theorem argFields_length : ∀ (i : Nat) (ts : List T), (argFields i ts).length = ts.length
  | _, [] => rfl
  | i, _ :: ts => congrArg (· + 1) (argFields_length (i + 1) ts)

theorem unwrapParams_embed (h : ts.length = vs.length) (i : Nat) (fields : List (Text × T)) :
    rf.unwrapParams (some (.embed fields)) (.object (.embed ((argFields i ts).zip vs))) =
      .ok vs := by
  rw [Reflected.unwrapParams, List.map_snd_zip]
  rw [argFields_length, h]

theorem type_embed (h : ts.length = vs.length) (i : Nat) :
    (Packed.embed ((argFields i ts).zip vs)).type = .embed (argFields i ts) := by
  rw [Packed.type, List.map_fst_zip]
  rw [argFields_length, h]

theorem argData_wrapped
    (hne : args ≠ []) (h : wrapParams fn = .ok (some typ)) :
    rf.argData fn args = (rf.setParams typ args).map rf.pointerTo := by
  rw [Reflected.argData, if_neg hne, h]
  simp only [bind, Except.bind]
  cases rf.setParams typ args <;> rfl

theorem wrapParams_embed (name : Text) (t t' : T) (ts : List T) :
    wrapParams ⟨name, t :: t' :: ts⟩ = .ok (some (.embed (argFields 2 (t :: t' :: ts)))) :=
  congrArg (Except.map some) (structOf_argFields 2 _)

/-- The value that matching arguments are packed to, and its type. -/
theorem argData_eq {fn : Func T}
    (h : List.Forall₂ rf.Matches fn.params args) (hne : fn.params ≠ []) (hnil : .nil ∉ args) :
    rf.argData fn args = .ok (rf.pointerTo (.of fn args)) ∧
      wrapParams fn = .ok (some (Packed.of fn args).type) ∧
      rf.unwrapParams (some (Packed.of fn args).type) (.object (.of fn args)) = .ok args := by
  obtain ⟨name, params⟩ := fn
  have hlen := h.length_eq
  match params, args, h, hne, hnil, hlen with
  | [t], [v], h, _, hnil, _ =>
    have hset := (List.forall₂_cons.1 h).1.set fun hv => hnil (hv ▸ List.mem_cons_self)
    refine ⟨?_, rfl, rfl⟩
    rw [argData_wrapped (by simp) rfl, Reflected.setParams, hset]
    rfl
  | t :: t' :: ts, v :: v' :: vs, h, _, hnil, hlen =>
    have hof : Packed.of ⟨name, t :: t' :: ts⟩ (v :: v' :: vs) =
        .embed ((argFields 2 (t :: t' :: ts)).zip (v :: v' :: vs)) := rfl
    rw [hof, type_embed hlen]
    refine ⟨?_, wrapParams_embed .., unwrapParams_embed hlen 2 _⟩
    rw [argData_wrapped (by simp) (wrapParams_embed ..), Reflected.setParams,
      setFields_ok h hnil 2]
    rfl

theorem argData_nil {fn : Func T}
    (h : List.Forall₂ rf.Matches fn.params args) (hnil : .nil ∈ args) :
    rf.argData fn args = .error .reflect := by
  obtain ⟨name, params⟩ := fn
  match params, args, h, hnil with
  | [], [], _, hnil => exact nomatch hnil
  | [t], [v], _, hnil =>
    obtain rfl := List.mem_singleton.1 hnil
    rw [argData_wrapped (by simp) rfl]
    rfl
  | t :: t' :: ts, v :: v' :: vs, h, hnil =>
    rw [argData_wrapped (by simp) (wrapParams_embed ..), Reflected.setParams,
      setFields_nil h hnil 2]
    rfl

end

/-! ## Sealing -/

section

variable {A E T : Type} {rf : Reflected A E T} {c : Codecs (ArgType T) (Packed A E T)}
  {conf : MessageConf} {ctx : Fields} {p : Packed A E T}

theorem options_isValid :
    (conf.options (T := ArgType T) ctx).serializeType.isValid = true := by
  rw [MessageConf.options]
  dsimp only
  split
  next h => exact h
  next => rfl

/-- Packed arguments are sealed, and the consumer unseals them at their type with the context
that it reads. -/
theorem sealed_unsealed (h : Inverts c conf ctx p) :
    ∃ payload, sealData c (conf.options ctx) (.object p) = .ok (.ok payload) ∧
      unsealData c { dataType := some (.object p.type) } payload =
        (newContext c.times c.gob (c.gob.marshal (flatten c.times ctx))).map fun ctx' =>
          { ctx := some ctx', dst := .object p, ok := true } := by
  obtain ⟨m, out, hmarshal, hunmarshal, hcompress, hdecompress⟩ := h.codecs
  have htype : typeOfData c (.object p) = .ok (.object p.type) := by
    rw [typeOfData, h.type]
  have hm : marshalData c (conf.options ctx) (.object p) = .ok (.ok m) := by
    rw [marshalData, if_pos options_isValid, hmarshal]
  refine ⟨_, sealData_eq htype hm hcompress, ?_⟩
  rw [unsealData_frame c _ rfl]
  have hread : readContext c (contextBytes c (conf.options ctx)) =
      (newContext c.times c.gob (c.gob.marshal (flatten c.times ctx))).map some :=
    if_neg (c.gob.marshal_ne_nil _)
  simp only [sealedFrame, hread]
  cases newContext c.times c.gob (c.gob.marshal (flatten c.times ctx)) with
  | error e => rfl
  | ok ctx' =>
    refine (@decodeV1_eq _ _ c {} _ _ _ _ _ _ hdecompress).trans ?_
    have hst : effectiveSerializeType ({ dataType := some (.object p.type) } : Options (ArgType T))
        (conf.options (T := ArgType T) ctx).serializeType.value =
          (conf.options (T := ArgType T) ctx).serializeType := rfl
    have hraw : (Data.object p).isRaw = false := rfl
    rw [hraw, if_neg Bool.false_ne_true, hst, if_pos options_isValid, hunmarshal]
    rfl

end

/-! ## Names -/

section

variable {T : Type} {app : Text}

/-- A multiplexer has a function under a name. -/
def ServeMux.Finds (mux : ServeMux T) (name : Text) (fn : Func T) : Prop :=
  ∃ e, mux.m.lookup name = some e ∧ e.fn = fn ∧ wrapParams fn = .ok e.typ

/-- A name is found under one function. -/
theorem ServeMux.Finds.unique {mux : ServeMux T} (h : mux.Finds name fn)
    (h' : mux.Finds name fn') : fn = fn' := by
  obtain ⟨e, he, rfl, -⟩ := h
  obtain ⟨e', he', rfl, -⟩ := h'
  rw [Option.some.inj (he.symm.trans he')]

/-- Another multiplexer has every function under its name. -/
def ServeMux.Extends (mux mux' : ServeMux T) : Prop :=
  ∀ {name : Text} {fn : Func T}, mux.Finds name fn → mux'.Finds name fn

/-- `Handle` adds its entry and keeps the others. -/
theorem ServeMux.handle_cases {mux mux' : ServeMux T} {e : MuxEntry T}
    (htyp : wrapParams e.fn = .ok e.typ) (h : mux.handle e = .ok mux') :
    mux'.Finds e.pattern e.fn ∧ mux.Extends mux' := by
  unfold handle at h
  split at h
  next => exact nomatch h
  next hfree =>
    cases h
    refine ⟨⟨e, AList.lookup_insert _, rfl, htyp⟩, ?_⟩
    rintro name fn ⟨f, hf, hfn⟩
    have hne : name ≠ e.pattern := by
      rintro rfl
      exact hfree (.inr (AList.lookup_isSome.1 (hf ▸ rfl)))
    exact ⟨f, (AList.lookup_insert_ne hne).trans hf, hfn⟩

/-- What the names of a registry mean: every task name is an entry of the multiplexer, for the
function whose name it belongs to. -/
def Registry.Consistent (r : Registry T) : Prop :=
  ∀ {funcName name : Text}, r.taskNames.lookup funcName = some name →
    ∃ fn, r.mux.Finds funcName fn ∧ r.mux.Finds name fn

theorem Registry.register_cases {r r' : Registry T} {reg : Registration T}
    (h : r.register app reg = .ok r') :
    r.mux.Extends r'.mux ∧ r'.mux.Finds (formatTaskName app reg.fn.name) reg.fn ∧
      (r'.taskNames = r.taskNames ∨
        ∃ name, r'.taskNames = r.taskNames.insert (formatTaskName app reg.fn.name) name ∧
          r'.mux.Finds name reg.fn) := by
  cases reg with
  | handle _ _ =>
    simp only [register, Registry.handle] at h
    split at h
    next => exact nomatch h
    obtain ⟨typ, htyp, h⟩ := bind_eq_ok.1 h
    obtain ⟨mux, hmux, h⟩ := bind_eq_ok.1 h
    obtain ⟨hadded, hkeep⟩ := ServeMux.handle_cases htyp hmux
    split at h
    next hsame =>
      cases h
      exact ⟨hkeep, hsame ▸ hadded, .inr ⟨_, rfl, hadded⟩⟩
    next =>
      obtain ⟨mux', hmux', h⟩ := bind_eq_ok.1 h
      cases h
      obtain ⟨hadded', hkeep'⟩ := ServeMux.handle_cases htyp hmux'
      exact ⟨fun hf => hkeep' (hkeep hf), hadded', .inr ⟨_, rfl, hkeep' hadded⟩⟩
  | handleFunc fn =>
    obtain ⟨typ, htyp, h⟩ := bind_eq_ok.1 h
    obtain ⟨mux, hmux, h⟩ := bind_eq_ok.1 h
    cases h
    obtain ⟨hadded, hkeep⟩ := ServeMux.handle_cases htyp hmux
    exact ⟨hkeep, hadded, .inl rfl⟩

/-- A registration keeps what is found under a name. -/
theorem Registry.Consistent.register {r r' : Registry T}
    (hr : r.Consistent) (h : r.register app reg = .ok r') : r'.Consistent := by
  obtain ⟨hkeep, hown, htask⟩ := Registry.register_cases h
  intro funcName name hname
  have hold : r.taskNames.lookup funcName = some name →
      ∃ fn, r'.mux.Finds funcName fn ∧ r'.mux.Finds name fn := by
    intro hlookup
    obtain ⟨fn, hfn, hfn'⟩ := hr hlookup
    exact ⟨fn, hkeep hfn, hkeep hfn'⟩
  rcases htask with heq | ⟨added, heq, hadded⟩
  · exact hold (heq ▸ hname)
  · rw [heq] at hname
    by_cases hsame : funcName = formatTaskName app reg.fn.name
    · subst hsame
      rw [AList.lookup_insert, Option.some.injEq] at hname
      subst hname
      exact ⟨reg.fn, hown, hadded⟩
    · rw [AList.lookup_insert_ne hsame] at hname
      exact hold hname

/-- After registrations none of which panics, every function is found under its name. -/
theorem Registry.run_finds : ∀ {regs : List (Registration T)} {r r' : Registry T},
    r.Consistent → Registry.run app regs r = .ok r' →
    r'.Consistent ∧ r.mux.Extends r'.mux ∧
      ∀ reg ∈ regs, r'.mux.Finds (formatTaskName app reg.fn.name) reg.fn
  | [], _, _, hr, h => by
    cases h
    exact ⟨hr, id, nofun⟩
  | reg :: regs, r, r', hr, h => by
    rw [Registry.run, List.foldlM_cons] at h
    obtain ⟨next, hnext, h⟩ := bind_eq_ok.1 h
    obtain ⟨hkeep, hown, -⟩ := Registry.register_cases hnext
    obtain ⟨hr', hkeep', hfinds⟩ := Registry.run_finds (hr.register hnext) h
    refine ⟨hr', fun hf => hkeep' (hkeep hf), ?_⟩
    intro other hmem
    rcases List.mem_cons.1 hmem with rfl | hmem
    · exact hkeep' hown
    · exact hfinds other hmem

theorem Registry.consistent_empty : (Registry.empty : Registry T).Consistent := by
  intro funcName name h
  exact nomatch h

/-- The multiplexer finds a function under the name that its tasks are sent to, whether the
producer knows the patterns of the consumer or not. -/
theorem Registry.matching_taskName {r : Registry T}
    (hrun : Registry.run app regs .empty = .ok r) {reg : Registration T} (hreg : reg ∈ regs)
    {taskNames : AList fun _ : Text => Text} (hnames : taskNames = r.taskNames ∨ taskNames = ∅) :
    ∃ e, r.mux.matching (taskName app taskNames reg.fn) = some e ∧ e.fn = reg.fn ∧
      wrapParams reg.fn = .ok e.typ := by
  obtain ⟨hr, -, hfinds⟩ := run_finds consistent_empty hrun
  have hown := hfinds reg hreg
  have hfound : r.mux.Finds (taskName app taskNames reg.fn) reg.fn := by
    rw [taskName]
    rcases hnames with rfl | rfl
    · cases hname : r.taskNames.lookup (formatTaskName app reg.fn.name) with
      | none => exact hown
      | some name =>
        obtain ⟨fn, hfn, hfn'⟩ := hr hname
        rw [hown.unique hfn]
        exact hfn'
    · exact hown
  obtain ⟨e, he, hfn⟩ := hfound
  exact ⟨e, by rw [ServeMux.matching, he, Option.some_or], hfn⟩

end

/-! ## Delivery -/

section

variable {A E T : Type} {rf : Reflected A E T} {c : Codecs (ArgType T) (Packed A E T)}
  {app : Text} {conf : MessageConf} {taskNames : AList fun _ : Text => Text}
  {fn : Func T} {args : List (GoAny A E)}

/-- Without a context a task is produced with the empty one. -/
theorem produce_eq (ctx : Option Fields) :
    produce rf c app conf taskNames ctx fn args =
      goc rf c app conf taskNames (ctx.getD {}) fn args := by
  cases ctx <;> rfl

variable {ctx : Fields} {payload : Bytes}

theorem goc_of_nil (h : rf.argData fn args = .ok .nil) :
    goc rf c app conf taskNames ctx fn args = .error .reflect := by
  rw [goc, h]
  rfl

theorem pointerTo_of (hpoints : ¬ rf.PointsToNil fn args) :
    rf.pointerTo (.of fn args) = .object (.of fn args) := by
  obtain ⟨name, params⟩ := fn
  unfold Packed.of
  split
  next t v hparams =>
    refine if_neg fun h => hpoints ⟨t, v, hparams, rfl, ?_⟩
    simpa using h
  next => rfl

theorem pointerTo_nil (hpoints : rf.PointsToNil fn args) : rf.pointerTo (.of fn args) = .nil := by
  obtain ⟨name, params⟩ := fn
  obtain ⟨t, v, ⟨⟩, rfl, hinterface, hv⟩ := hpoints
  exact if_pos (by rw [hinterface, hv]; rfl)

/-- The consumer calls the function with the arguments, if it can read the context. -/
theorem adaptAsynqHandlerFunc_eq {r : Except Panic Fields}
    (hargs : List.Forall₂ rf.Matches fn.params args) (hnil : .nil ∉ args)
    (hunwrap : rf.unwrapParams (some typ) (.object p) = .ok args)
    (hunseal : unsealData c { dataType := some (.object typ) } payload =
      r.map fun ctx => { ctx := some ctx, dst := .object p, ok := true }) :
    rf.adaptAsynqHandlerFunc c fn (some typ) payload =
      (r.map fun ctx => .ok (.value (rf.ofContext ctx) :: args)).mapError .runtime := by
  rw [Reflected.adaptAsynqHandlerFunc, Option.map_some, hunseal]
  cases r with
  | error e => rfl
  | ok ctx =>
    have haccepts : List.Forall₂ rf.Accepts (rf.contextType :: fn.params)
        (rf.ofCtx (some ctx) :: args) :=
      .cons (rf.accepts_context ctx) (hargs.imp fun _ _ h => h.1)
    have hcall : rf.runVariadicFunc (rf.contextType :: fn.params) none
        (rf.ofCtx (some ctx) :: args) = .ok (rf.ofCtx (some ctx) :: args) := by
      refine (converts_fixed haccepts).1 fun hmem => ?_
      rcases List.mem_cons.1 hmem with h | h
      · exact nomatch h
      · exact hnil h
    simp only [Except.map, Except.mapError, bind, Except.bind, hunwrap, hcall]
    rfl

theorem not_arrives_of_panic {ctx : Option Fields}
    (h : goc rf c app conf taskNames (ctx.getD {}) fn args = .error e) :
    ¬ Arrives rf c app conf taskNames r ctx fn args := by
  rintro ⟨task, ctx', htask, -⟩
  rw [produce_eq, h] at htask
  exact nomatch htask

/-- A context is read back with what it propagates exactly if its deadline is kept. -/
theorem newContext_iff
    (hgob : c.gob.unmarshal (c.gob.marshal (flatten c.times ctx)) = some (flatten c.times ctx)) :
    (∃ ctx', newContext c.times c.gob (c.gob.marshal (flatten c.times ctx)) = .ok ctx' ∧
      ctx'.propagated = ctx.propagated) ↔ ctx.DeadlineKept c.times := by
  rw [newContext, hgob]
  exact flatten_unmarshal_iff

/-- The function is called with a context exactly if that one is read. -/
theorem Registry.consume_eq {r : Registry T} {e : MuxEntry T} {read : Except Panic Fields}
    (hmatch : r.mux.matching name = some e)
    (hadapt : rf.adaptAsynqHandlerFunc c e.fn e.typ payload =
      (read.map fun ctx => .ok (.value (rf.ofContext ctx) :: args)).mapError .runtime)
    (ctx' : Fields) :
    r.consume rf c ⟨name, payload⟩ = .ok (.ok (e.fn, .value (rf.ofContext ctx') :: args)) ↔
      read = .ok ctx' := by
  rw [consume, hmatch]
  simp only [hadapt]
  cases read with
  | error e => exact iff_of_false nofun nofun
  | ok ctx =>
    constructor
    · intro h
      injection h with h
      injection h with h
      injection h with _ h
      injection h with h _
      injection h with h
      rw [rf.ofContext_inj h]
    · rintro ⟨⟩
      rfl

/-- The arguments of a task of matching types arrive exactly if there is one, none is nil, the
only one does not point to nil and the deadline of the context is kept. -/
theorem arguments_arrive_iff {regs : List (Registration T)} {r : Registry T}
    (hrun : Registry.run app regs .empty = .ok r) {reg : Registration T} (hreg : reg ∈ regs)
    (hnames : taskNames = r.taskNames ∨ taskNames = ∅) (ctx : Option Fields)
    (hargs : List.Forall₂ rf.Matches reg.fn.params args)
    (hinverts : args ≠ [] → .nil ∉ args → Inverts c conf (ctx.getD {}) (.of reg.fn args)) :
    Arrives rf c app conf taskNames r ctx reg.fn args ↔
      args ≠ [] ∧ .nil ∉ args ∧ ¬ rf.PointsToNil reg.fn args ∧
        (ctx.getD {}).DeadlineKept c.times := by
  by_cases hne : args = []
  · exact iff_of_false (not_arrives_of_panic (goc_of_nil (if_pos hne))) fun h => h.1 hne
  by_cases hnil : .nil ∈ args
  · refine iff_of_false (not_arrives_of_panic (e := .reflect) ?_) fun h => h.2.1 hnil
    rw [goc, argData_nil hargs hnil]
    rfl
  have hparams : reg.fn.params ≠ [] := by
    intro hempty
    rw [hempty] at hargs
    cases hargs
    exact hne rfl
  obtain ⟨hdata, hwrap, hunwrap⟩ := argData_eq hargs hparams hnil
  by_cases hpoints : rf.PointsToNil reg.fn args
  · rw [pointerTo_nil hpoints] at hdata
    exact iff_of_false (not_arrives_of_panic (goc_of_nil hdata)) fun h => h.2.2.1 hpoints
  -- Now the task is produced, and the consumer calls the function if it can read the context.
  rw [pointerTo_of hpoints] at hdata
  obtain ⟨payload, hseal, hunseal⟩ := sealed_unsealed (hinverts hne hnil)
  obtain ⟨e, hmatch, hfn, htyp⟩ := Registry.matching_taskName hrun hreg hnames
  have hproduce : produce rf c app conf taskNames ctx reg.fn args =
      .ok (.ok ⟨taskName app taskNames reg.fn, payload⟩) := by
    rw [produce_eq, goc, hdata]
    simp only [bind, Except.bind, hseal]
    rfl
  have hadapt := adaptAsynqHandlerFunc_eq hargs hnil hunwrap hunseal
  rw [← Except.ok.inj (htyp.symm.trans hwrap), ← hfn] at hadapt
  have hconsume := Registry.consume_eq hmatch hadapt
  rw [hfn] at hconsume
  have hcontext := newContext_iff (hinverts hne hnil).gob
  simp only [Arrives, hproduce, hne, hnil, hpoints, ne_eq, not_false_eq_true, true_and,
    ← hcontext]
  constructor
  · rintro ⟨task, ctx', ⟨⟩, hcalled, hsame⟩
    exact ⟨ctx', (hconsume ctx').1 hcalled, hsame⟩
  · rintro ⟨ctx', hread, hsame⟩
    exact ⟨_, ctx', rfl, (hconsume ctx').2 hread, hsame⟩

end

/-! ## A program -/

/-- Functions on numbers, whose parameters are of type `any`. -/
def numbers : Reflected (Fields ⊕ UInt8) Empty Unit where
  nilable _ := true
  canConvert _ _ := true
  convert v _ := v
  decode _ _ := none
  assignable _ _ := true
  isInterface _ := true
  nilPointer _ := false
  zero _ := .nil
  ofBytes _ := .inr 0
  ofString _ := .inr 0
  contextType := ()
  ofContext := .inl
  ofContext_inj := Sum.inl.inj
  accepts_context _ := .inr ⟨nofun, rfl, rfl⟩

def number (n : UInt8) : GoAny (Fields ⊕ UInt8) Empty := .value (.inr n)

def numberByte : GoAny (Fields ⊕ UInt8) Empty → UInt8
  | .value (.inr n) => n
  | _ => 0

/-- A serializer that writes a byte for every argument. -/
def numberCodecs : Codecs (ArgType Unit) (Packed (Fields ⊕ UInt8) Empty Unit) where
  compress _ b := .ok b
  decompress _ b := .ok b
  marshal _ p :=
    match p with
    | .single _ v => .ok [numberByte v]
    | .embed fields => .ok (fields.map fun f => numberByte f.2)
  unmarshal _ t b :=
    match t, b with
    | .object (.single t), [n] => .ok (.object (.single t (number n)))
    | .object (.embed fields), b => .ok (.object (.embed (fields.zip (b.map number))))
    | _, _ => .error .unmarshal
  mapDecode _ _ := .error .decode
  type := Packed.type
  typeName _ := []
  typeName_lt _ := by decide
  typeOf _ := none
  zero
    | .single t => .single t .nil
    | .embed fields => .embed (fields.map (·, .nil))
  convert _ _ := none
  gob := gobOf { userID := some ['u'] }
  times := ⟨fun _ => [], fun _ _ => none⟩

def addNumbers : Func Unit := ⟨"main.add".toList, [(), ()]⟩

def tick : Func Unit := ⟨"main.tick".toList, []⟩

/-- The two functions, the first under a pattern. -/
def registrations : List (Registration Unit) :=
  [.handle "add".toList addNumbers, .handleFunc tick]

/-- Messages with a serialize type that is not configured, and with zlib. -/
def zlibMessages : MessageConf := ⟨⟨0⟩, ⟨2⟩⟩

theorem addNumbers_arrive : ∃ r, Registry.run "app".toList registrations .empty = .ok r ∧
    Arrives numbers numberCodecs "app".toList zlibMessages r.taskNames r
      (some { userID := ['u'] }) addNumbers [number 1, number 2] := by
  have hmatches : ∀ n, numbers.Matches () (number n) := fun n =>
    ⟨.inr ⟨nofun, rfl, rfl⟩, fun _ => rfl⟩
  have hargs : List.Forall₂ numbers.Matches addNumbers.params [number 1, number 2] :=
    .cons (hmatches 1) (.cons (hmatches 2) .nil)
  have hinverts : Inverts numberCodecs zlibMessages { userID := ['u'] }
      (.of addNumbers [number 1, number 2]) :=
    ⟨rfl, ⟨_, _, rfl, rfl, rfl, rfl⟩, rfl⟩
  have hreg : Registration.handle "add".toList addNumbers ∈ registrations := List.mem_cons_self
  obtain ⟨r, hrun⟩ : ∃ r, Registry.run "app".toList registrations .empty = .ok r := ⟨_, rfl⟩
  refine ⟨r, hrun, (arguments_arrive_iff hrun hreg (.inl rfl) _ hargs fun _ _ => hinverts).2
    ⟨nofun, by decide, ?_, nofun⟩⟩
  rintro ⟨t, v, ⟨⟩, -⟩

/-- A task of a function without arguments is not produced. -/
theorem tick_not_arrives : ∃ r, Registry.run "app".toList registrations .empty = .ok r ∧
    ¬ Arrives numbers numberCodecs "app".toList zlibMessages r.taskNames r none tick [] :=
  ⟨_, rfl, not_arrives_of_panic rfl⟩

end Gofusion.Async
