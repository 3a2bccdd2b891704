import Mathlib.Data.List.AList
import Mathlib.Data.Nat.Digits.Lemmas
import Gofusion.Payload.RoundTrip
import Gofusion.Routine.Task

/-!
# The arguments of a task

`Handle`, `HandleFunc`, `Go`, `Goc` and the handlers of `async/asynq.go`, with `async/utils.go`
and the multiplexer of `common/infra/asynq`.

A producer packs the arguments of a function into one value: the only argument as it is, and
more of them into a struct.  A pointer to the value is sealed, and the consumer unseals a value of
the same type.  A function that takes only a context has no value, and `Seal` panics on nil.

A variadic parameter and the redis server are left out.
-/

namespace Gofusion.Async

open Gofusion.Context Gofusion.Lib Gofusion.Payload Gofusion.Routine Gofusion.Utils

/-! ## Types and values -/

/-- What `reflect` does with the types and values of a program. -/
structure Reflected (A E T : Type) extends Reflection A E T where
  assignable : GoAny A E → T → Bool
  isInterface : T → Bool
  /-- A pointer at the end of which there is nil. -/
  nilPointer : GoAny A E → Bool
  zero : T → GoAny A E
  ofBytes : Bytes → A
  ofString : Bytes → A
  /-- `context.Context`. -/
  contextType : T
  ofContext : Fields → A
  ofContext_inj : ∀ {ctx ctx'}, ofContext ctx = ofContext ctx' → ctx = ctx'
  accepts_context : ∀ ctx, toReflection.Accepts contextType (.value (ofContext ctx))

/-- The type of the packed arguments: the type of the only parameter, or a struct.  This is
`argType` and `embed` of the code. -/
inductive ArgType (T : Type)
  | single (t : T)
  | embed (fields : List (Text × T))
deriving DecidableEq, Repr

inductive Packed (A E T : Type)
  | single (t : T) (v : GoAny A E)
  | embed (fields : List ((Text × T) × GoAny A E))
deriving DecidableEq, Repr

/-- A function: its name and the types of its parameters behind the context. -/
structure Func (T : Type) where
  name : Text
  params : List T
deriving DecidableEq, Repr

section

variable {A E T : Type}

/-- `reflect.TypeOf` behind the pointer. -/
def Packed.type : Packed A E T → ArgType T
  | .single t _ => .single t
  | .embed fields => .embed (fields.map (·.1))

/-! ## Packing -/

/-- A hex digit of `%X`. -/
def hexDigit (n : Nat) : Char := Char.ofNat (if n < 10 then 48 + n else 55 + n)

/-- `fmt.Sprintf("Arg%X", i)`. -/
def argName (i : Nat) : Text := "Arg".toList ++ ((Nat.digits 16 i).map hexDigit).reverse

/-- The fields for parameters, the first of which has this number. -/
def argFields : Nat → List T → List (Text × T)
  | _, [] => []
  | i, t :: ts => (argName i, t) :: argFields (i + 1) ts

/-- `reflect.StructOf`.  It panics on two fields of one name. -/
def structOf (fields : List (Text × T)) : Except Panic (ArgType T) :=
  if (fields.map (·.1)).Nodup then .ok (.embed fields) else .error .reflect

def wrapParams (fn : Func T) : Except Panic (Option (ArgType T)) :=
  match fn.params with
  | [] => .ok none
  | [t] => .ok (some (.single t))
  | ts => (structOf (argFields 2 ts)).map some

variable (rf : Reflected A E T)

/-- `argVal.Set(reflect.ValueOf(v))`.  There is no value of nil. -/
def Reflected.set (t : T) : GoAny A E → Except Panic (GoAny A E)
  | .nil => .error .reflect
  | v => if rf.assignable v t then .ok v else .error .reflect

/-- `ft.Set(reflect.ValueOf(v).Convert(ft.Type()))`. -/
def Reflected.setConverted (t : T) : GoAny A E → Except Panic (GoAny A E)
  | .nil => .error .reflect
  | v => if rf.canConvert v t then .ok (rf.convert v t) else .error .reflect

/-- The fields with the arguments.  `Field` panics behind the last field. -/
def Reflected.setFields (rf : Reflected A E T) : List (Text × T) → List (GoAny A E) →
    Except Panic (List ((Text × T) × GoAny A E))
  | fields, [] => .ok (fields.map fun f => (f, rf.zero f.2))
  | [], _ :: _ => .error .reflect
  | f :: fields, v :: vs => do
    let v' ← rf.setConverted f.2 v
    let rest ← rf.setFields fields vs
    return (f, v') :: rest

/-- `setParams`: the value that the pointer it returns points to. -/
def Reflected.setParams (typ : ArgType T) (args : List (GoAny A E)) :
    Except Panic (Packed A E T) :=
  match typ, args with
  | .single t, [] => .ok (.single t (rf.zero t))
  | .single t, v :: _ => (rf.set t v).map (.single t)
  | .embed fields, args => (rf.setFields fields args).map .embed

/-- A pointer to the packed arguments, as data of a payload.  `IndirectValue` goes through the
pointers that the only argument itself may be, but not through an interface. -/
def Reflected.pointerTo (p : Packed A E T) : Data (Packed A E T) :=
  match p with
  | .single t v => if !rf.isInterface t && rf.nilPointer v then .nil else .object p
  | .embed _ => .object p

/-- What `Go` and `Goc` send. -/
def Reflected.argData (fn : Func T) (args : List (GoAny A E)) :
    Except Panic (Data (Packed A E T)) :=
  if args = [] then .ok .nil
  else do
    match ← wrapParams fn with
    | none => return .nil
    | some typ => return rf.pointerTo (← rf.setParams typ args)

/-! ## Unpacking -/

/-- A decoded value as an `any`. -/
def Reflected.ofData : Data (Packed A E T) → GoAny A E
  | .nil => .nil
  | .bytes b => .value (rf.ofBytes b)
  | .string s => .value (rf.ofString s)
  | .object (.single _ v) => v
  | .object (.embed _) => .nil -- not reached, a struct is only decoded for `embed`

/-- `unwrapParams`.  `NumField` panics on a value that is no struct. -/
def Reflected.unwrapParams (typ : Option (ArgType T)) (arg : Data (Packed A E T)) :
    Except Panic (List (GoAny A E)) :=
  match typ, arg with
  | none, _ => .ok []
  | some (.single _), arg => .ok [rf.ofData arg]
  | some (.embed _), .object (.embed fields) => .ok (fields.map (·.2))
  | some (.embed _), _ => .error .reflect

/-- A context as an `any`. -/
def Reflected.ofCtx : Option Fields → GoAny A E
  | none => .nil
  | some ctx => .value (rf.ofContext ctx)

/-- The function that `adaptAsynqHandlerFunc` returns: the arguments that it calls the function
with, or an error. -/
def Reflected.adaptAsynqHandlerFunc (c : Codecs (ArgType T) (Packed A E T)) (fn : Func T)
    (typ : Option (ArgType T)) (payload : Bytes) :
    Except (PanicValue A E) (Except Err (List (GoAny A E))) := do
  let unsealed ← (unsealData c { dataType := typ.map .object } payload).mapError .runtime
  match unsealed.err with
  | some e => return .error e
  | none =>
    let params ← (rf.unwrapParams typ unsealed.dst).mapError .runtime
    let args ← rf.runVariadicFunc (rf.contextType :: fn.params) none
      (rf.ofCtx unsealed.ctx :: params)
    return .ok args

end

/-! ## Names -/

/-- `formatTaskName`, with the name of the application. -/
def formatTaskName (app name : Text) : Text := app ++ ":async:".toList ++ name

/-- `muxEntry`.  A handler is the function it calls, with the type of its packed arguments. -/
structure MuxEntry (T : Type) where
  pattern : Text
  fn : Func T
  typ : Option (ArgType T)
deriving DecidableEq, Repr

/-- `ServeMux`: the entries by their patterns, and from the longest pattern to the shortest. -/
structure ServeMux (T : Type) where
  m : AList fun _ : Text => MuxEntry T
  es : List (MuxEntry T)

def appendSorted {T : Type} (e : MuxEntry T) : List (MuxEntry T) → List (MuxEntry T)
  | [] => [e]
  | f :: es =>
    if f.pattern.length < e.pattern.length then e :: f :: es else f :: appendSorted e es

/-- `ServeMux.Handle`. -/
def ServeMux.handle {T : Type} (mux : ServeMux T) (e : MuxEntry T) : Except Panic (ServeMux T) :=
  if isStrBlank e.pattern ∨ e.pattern ∈ mux.m then .error .raised
  else .ok ⟨mux.m.insert e.pattern e, appendSorted e mux.es⟩

/-- `ServeMux.match`. -/
def ServeMux.matching {T : Type} (mux : ServeMux T) (typename : Text) : Option (MuxEntry T) :=
  (mux.m.lookup typename).or (mux.es.find? (·.pattern.isPrefixOf typename))

/-- What the handlers of an application are registered in: the multiplexer of the consumer, the
names in `callbackMap` and `funcNameToTaskName`. -/
structure Registry (T : Type) where
  mux : ServeMux T
  callbacks : List Text
  taskNames : AList fun _ : Text => Text

def Registry.empty {T : Type} : Registry T := ⟨⟨∅, []⟩, [], ∅⟩

inductive Registration (T : Type)
  | handle (pattern : Text) (fn : Func T)
  | handleFunc (fn : Func T)

def Registration.fn {T : Type} : Registration T → Func T
  | .handle _ fn => fn
  | .handleFunc fn => fn

section

variable {T : Type} (app : Text)

def Registry.handle (r : Registry T) (pattern : Text) (fn : Func T) :
    Except Panic (Registry T) := do
  let name := formatTaskName app pattern
  let funcName := formatTaskName app fn.name
  if name ∈ r.callbacks then .error .raised
  let typ ← wrapParams fn
  let mux ← r.mux.handle ⟨name, fn, typ⟩
  let mux ← if name = funcName then .ok mux else mux.handle ⟨funcName, fn, typ⟩
  return ⟨mux, name :: funcName :: r.callbacks, r.taskNames.insert funcName name⟩

/-- `HandleFunc`.  It looks for the name of the function among the applications and not among
the handlers, so only the multiplexer finds a second registration. -/
def Registry.handleFunc (r : Registry T) (fn : Func T) : Except Panic (Registry T) := do
  let funcName := formatTaskName app fn.name
  let typ ← wrapParams fn
  let mux ← r.mux.handle ⟨funcName, fn, typ⟩
  return ⟨mux, funcName :: r.callbacks, r.taskNames⟩

def Registry.register (r : Registry T) : Registration T → Except Panic (Registry T)
  | .handle pattern fn => r.handle app pattern fn
  | .handleFunc fn => r.handleFunc app fn

/-- The registrations of a consumer, none of which panics. -/
def Registry.run (regs : List (Registration T)) (r : Registry T) : Except Panic (Registry T) :=
  regs.foldlM (Registry.register app) r

end

/-! ## Producing and consuming -/

structure Enqueued where
  name : Text
  payload : Bytes
deriving DecidableEq, Repr

/-- The types of `newAsynqProducer`. -/
structure MessageConf where
  serializeType : SerializeType
  compressType : CompressType

/-- `AlgorithmGob`. -/
def gobType : SerializeType := ⟨1⟩

/-- The options that a payload is sealed with. -/
def MessageConf.options {T : Type} (conf : MessageConf) (ctx : Fields) : Options T where
  ctx := some ctx
  serializeType := if conf.serializeType.isValid then conf.serializeType else gobType
  compressType := conf.compressType

section

variable {A E T : Type} (rf : Reflected A E T) (c : Codecs (ArgType T) (Packed A E T)) (app : Text)

/-- The name that a producer enqueues a task under. -/
def taskName (taskNames : AList fun _ : Text => Text) (fn : Func T) : Text :=
  let funcName := formatTaskName app fn.name
  (taskNames.lookup funcName).getD funcName

/-- `Goc`.  `taskNames` is `funcNameToTaskName` in the process of the producer. -/
def goc (conf : MessageConf) (taskNames : AList fun _ : Text => Text) (ctx : Fields) (fn : Func T)
    (args : List (GoAny A E)) : Except Panic (Except Err Enqueued) := do
  let data ← rf.argData fn args
  let payload ← sealData c (conf.options ctx) data
  return payload.map (⟨taskName app taskNames fn, ·⟩)

/-- `Go`, with the background context. -/
def go (conf : MessageConf) (taskNames : AList fun _ : Text => Text) (fn : Func T)
    (args : List (GoAny A E)) : Except Panic (Except Err Enqueued) :=
  goc rf c app conf taskNames {} fn args

/-- What the consumer does with a task: the function it calls and the arguments.  `none` is the
error that there is no handler. -/
def Registry.consume (r : Registry T) (task : Enqueued) :
    Except (PanicValue A E) (Except (Option Err) (Func T × List (GoAny A E))) :=
  match r.mux.matching task.name with
  | none => .ok (.error none)
  | some e => do
    let args ← rf.adaptAsynqHandlerFunc c e.fn e.typ task.payload
    return (args.map (e.fn, ·)).mapError some

end

end Gofusion.Async
