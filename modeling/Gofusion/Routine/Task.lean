import Gofusion.Routine.Future
import Gofusion.Utils.Panic

/-!
# Tasks

`wrapPromise`, `start` and `getAct` of package `routine` for a function that `wrapPromise`
accepts, with `WrapFunc2`, `runVariadicFunc` and `ParseVariadicFuncResult` of
`common/utils/func.go`.

A function of one of six plain types is called directly.  Every other one is called through
`reflect`, also a function without parameters whose type has a name.  What such a call returns
is read back by position.  `recover` gives nil for `panic(nil)` in the version of Go that the
module asks for.
-/

namespace Gofusion.Routine

open Gofusion.Lib
open Gofusion.Utils (Panic)

/-! ## Values -/

/-- A value of type `any`.  `A` are the values that are no errors. -/
inductive GoAny (A E : Type)
  | nil
  | value (a : A)
  | error (e : E)
deriving DecidableEq, Repr

inductive PanicValue (A E : Type)
  | user (v : GoAny A E)
  | runtime (p : Panic)
deriving DecidableEq, Repr

inductive TaskError (A E : Type)
  | given (e : E)
  /-- `newErrorWithStacks`. -/
  | stacks (v : PanicValue A E)
deriving DecidableEq, Repr

/-! ## Functions -/

/-- The results of a function that `wrapPromise` accepts. -/
inductive Outs
  | nothing
  | error
  | anyError
deriving DecidableEq, Repr

/-- What a function with these results returns. -/
def Outs.Ret (A E : Type) : Outs → Type
  | .nothing => Unit
  | .error => Option E
  | .anyError => GoAny A E × Option E

inductive Outcome (A E : Type) (outs : Outs)
  | returns (ret : outs.Ret A E)
  | panics (v : PanicValue A E)

/-- A function that `wrapPromise` accepts. -/
inductive Task (A E T : Type)
  /-- `func()`, `func() error` or `func() (any, error)`. -/
  | plain (outs : Outs) (body : Outcome A E outs)
  /-- The same with a `Canceller`. -/
  | canceller (outs : Outs) (body : Outcome A E outs)
  /-- Any other type, with the types of its parameters and of its variadic elements. -/
  | reflective (params : List T) (variadic : Option T) (outs : Outs)
    (body : List (GoAny A E) → Outcome A E outs)

/-- What `reflect` and `mapstructure` do with an argument that is not nil, for a parameter type. -/
structure Reflection (A E T : Type) where
  /-- A type that has nil. -/
  nilable : T → Bool
  canConvert : GoAny A E → T → Bool
  convert : GoAny A E → T → GoAny A E
  /-- `mapstructure.Decode`, `none` is an error. -/
  decode : GoAny A E → T → Option (GoAny A E)

section

variable {A E T C : Type}

/-! ## Calls through reflect -/

def Reflection.convertArg (rf : Reflection A E T) (t : T) :
    GoAny A E → Except (PanicValue A E) (GoAny A E)
  | .nil => .error (.runtime .reflect)
  | v =>
    if rf.canConvert v t then .ok (rf.convert v t)
    else
      match rf.decode v t with
      | some v' => .ok v'
      | none => .error (.runtime .must)

/-- The arguments for the fixed parameters.  `typ.In` panics behind the last parameter, and
`Call` on too few arguments. -/
def Reflection.convertFixed (rf : Reflection A E T) :
    List T → List (GoAny A E) → Except (PanicValue A E) (List (GoAny A E))
  | [], [] => .ok []
  | t :: ts, v :: vs => do
    let v' ← rf.convertArg t v
    let vs' ← rf.convertFixed ts vs
    .ok (v' :: vs')
  | [], _ :: _ => .error (.runtime .outOfRange)
  | _ :: _, [] => .error (.runtime .reflect)

/-- The arguments for the variadic parameter. -/
def Reflection.convertVariadic (rf : Reflection A E T) (t : T) :
    List (GoAny A E) → Except (PanicValue A E) (List (GoAny A E))
  | [] => .ok []
  | v :: vs => do
    let v' ← rf.convertArg t v
    let vs' ← rf.convertVariadic t vs
    .ok (v' :: vs')

/-- The arguments that `runVariadicFunc` calls the function with. -/
def Reflection.runVariadicFunc (rf : Reflection A E T) (params : List T) (variadic : Option T)
    (args : List (GoAny A E)) : Except (PanicValue A E) (List (GoAny A E)) :=
  match variadic with
  | none => rf.convertFixed params args
  | some t =>
    if args.length < params.length then .error (.runtime .outOfRange)
    else do
      let rest ← rf.convertVariadic t (args.drop params.length)
      let fixed ← rf.convertFixed params (args.take params.length)
      .ok (fixed ++ rest)

/-- An error as a value. -/
def ofError : Option E → GoAny A E
  | none => .nil
  | some e => .error e

/-- The results of a function as `reflect` gives them. -/
def Outs.values : (outs : Outs) → outs.Ret A E → List (GoAny A E)
  | .nothing, _ => []
  | .error, err => [ofError err]
  | .anyError, (r, err) => [r, ofError err]

/-- `ParseVariadicFuncResult[any]` from index 0 on. -/
def parseAny (rs : List (GoAny A E)) : GoAny A E :=
  rs.foldl (fun t v => match v with | .nil => t | v => v) .nil

/-- `ParseVariadicFuncResult[error]` from index 1 on.  A value that is no error resets it. -/
def parseError (rs : List (GoAny A E)) : Option E :=
  (rs.drop 1).foldl (fun t v => match v with | .nil => t | .error e => some e | .value _ => none)
    none

/-! ## The Future of a task -/

/-- The results of a function that is called directly. -/
def Outs.direct : (outs : Outs) → outs.Ret A E → GoAny A E × Option E
  | .nothing, _ => (.nil, none)
  | .error, err => (.nil, err)
  | .anyError, (r, err) => (r, err)

/-- The deferred function of `getAct`. -/
def recovered : PanicValue A E → GoAny A E × Option (TaskError A E)
  | .user .nil => (.nil, none)
  | v => (.nil, some (.stacks v))

def finished (x : GoAny A E × Option E) : GoAny A E × Option (TaskError A E) :=
  (x.1, x.2.map .given)

/-- The function that `getAct` gives, on the arguments of the options. -/
def getAct (rf : Reflection A E T) (args : List (GoAny A E)) :
    Task A E T → GoAny A E × Option (TaskError A E)
  | .plain outs body | .canceller outs body =>
    match body with
    | .returns ret => finished (outs.direct ret)
    | .panics v => recovered v
  | .reflective params variadic outs body =>
    match rf.runVariadicFunc params variadic args with
    | .error v => recovered v
    | .ok args =>
      match body args with
      | .returns ret => finished (parseAny (outs.values ret), parseError (outs.values ret))
      | .panics v => recovered v

def Future.isCancelled {V E C : Type} (f : Future V E C) : Bool :=
  match f.result with
  | some .cancelled => true
  | _ => false

/-- The Future of a task when the task is done.  `before` is what happened to it until then. -/
def start (rf : Reflection A E T) (task : Task A E T) (args : List (GoAny A E))
    (before : List (Op (GoAny A E) (TaskError A E) C)) : Future (GoAny A E) (TaskError A E) C :=
  let p := Future.after before
  let (r, err) := getAct rf args task
  if p.isCancelled then (p.setResult .cancelled).1
  else
    match err with
    | none => (p.setResult (.success r)).1
    | some e => (p.setResult (.failure e)).1

/-! ## The law -/

/-- An argument of a matching type: nil for a type that has it, or a value that converts to
itself. -/
def Reflection.Accepts (rf : Reflection A E T) (t : T) (v : GoAny A E) : Prop :=
  v = .nil ∧ rf.nilable t = true ∨ v ≠ .nil ∧ rf.canConvert v t = true ∧ rf.convert v t = v

/-- Arguments of matching types. -/
inductive Reflection.AcceptsAll (rf : Reflection A E T) (variadic : Option T) :
    List T → List (GoAny A E) → Prop
  | nil : variadic = none → rf.AcceptsAll variadic [] []
  | variadic {t : T} {vs : List (GoAny A E)} : variadic = some t → (∀ v ∈ vs, rf.Accepts t v) →
    rf.AcceptsAll variadic [] vs
  | cons {t : T} {ts : List T} {v : GoAny A E} {vs : List (GoAny A E)} : rf.Accepts t v →
    rf.AcceptsAll variadic ts vs → rf.AcceptsAll variadic (t :: ts) (v :: vs)

/-- The argument lists that a task is called with. -/
def Task.Matches (rf : Reflection A E T) (args : List (GoAny A E)) : Task A E T → Prop
  | .plain _ _ | .canceller _ _ => args = []
  | .reflective params variadic _ _ => rf.AcceptsAll variadic params args

/-- What the Future should be settled with: the error that is returned, the error of the panic, or
the first result that is no error. -/
def Outcome.expected {outs : Outs} : Outcome A E outs → Result (GoAny A E) (TaskError A E)
  | .panics v => .failure (.stacks v)
  | .returns ret =>
    match outs.direct ret with
    | (_, some e) => .failure (.given e)
    | (r, none) => .success r

/-- What the Future of a task should be settled with. -/
def Task.expected (args : List (GoAny A E)) : Task A E T → Result (GoAny A E) (TaskError A E)
  | .plain _ body | .canceller _ body => body.expected
  | .reflective _ _ _ body => (body args).expected

def Outcome.PanicsNil {outs : Outs} (o : Outcome A E outs) : Prop := o = .panics (.user .nil)

/-- The single result of the call is an error. -/
def Outcome.OnlyError : {outs : Outs} → Outcome A E outs → Prop
  | .error, .returns ret => ret ≠ none
  | _, _ => False

/-- The calls whose Future is settled as it should be. -/
def Task.Faithful (args : List (GoAny A E)) : Task A E T → Prop
  | .plain _ body | .canceller _ body => ¬body.PanicsNil
  | .reflective _ _ _ body =>
    .nil ∈ args ∧ (body args).expected = .failure (.stacks (.runtime .reflect)) ∨
      .nil ∉ args ∧ ¬(body args).PanicsNil ∧ ¬(body args).OnlyError

/-! ## Arguments -/

section

variable {rf : Reflection A E T}

variable {v : GoAny A E} {t : T} {vs : List (GoAny A E)} {ts : List T} {variadic : Option T}

theorem Reflection.Accepts.convertArg (h : rf.Accepts t v) (hv : v ≠ .nil) :
    rf.convertArg t v = .ok v := by
  rcases h with ⟨hnil, -⟩ | ⟨-, hcan, hconvert⟩
  · exact absurd hnil hv
  · cases v with
    | nil => exact absurd rfl hv
    | value a | error e => rw [Reflection.convertArg, if_pos hcan, hconvert]; nofun

/-- The conversion of matching arguments gives them back, or panics on a nil. -/
def Converts (vs : List (GoAny A E)) (x : Except (PanicValue A E) (List (GoAny A E))) : Prop :=
  (.nil ∉ vs → x = .ok vs) ∧ (.nil ∈ vs → x = .error (.runtime .reflect))

theorem converts_cons (hv : rf.Accepts t v)
    (hx : Converts vs x) :
    Converts (v :: vs) (do
      let v' ← rf.convertArg t v
      let vs' ← x
      .ok (v' :: vs')) := by
  by_cases hnil : v = .nil
  · subst hnil
    exact ⟨fun h => absurd List.mem_cons_self h, fun _ => rfl⟩
  · rw [hv.convertArg hnil]
    constructor
    · intro h
      rw [hx.1 fun hmem => h (List.mem_cons_of_mem _ hmem)]
      rfl
    · intro h
      rw [hx.2 ((List.mem_cons.mp h).resolve_left (Ne.symm hnil))]
      rfl

theorem converts_fixed (h : List.Forall₂ rf.Accepts ts vs) :
    Converts vs (rf.convertFixed ts vs) := by
  induction h with
  | nil => exact ⟨fun _ => rfl, nofun⟩
  | cons hv _ ih => exact converts_cons hv ih

theorem converts_variadic : ∀ {vs : List (GoAny A E)}, (∀ v ∈ vs, rf.Accepts t v) →
    Converts vs (rf.convertVariadic t vs)
  | [], _ => ⟨fun _ => rfl, nofun⟩
  | _ :: _, h => converts_cons (h _ List.mem_cons_self)
    (converts_variadic fun v hv => h v (List.mem_cons_of_mem _ hv))

theorem Reflection.AcceptsAll.split (h : rf.AcceptsAll variadic ts vs) :
    ∃ fixed rest, vs = fixed ++ rest ∧
      List.Forall₂ rf.Accepts ts fixed ∧ (variadic = none → rest = []) ∧
      ∀ t, variadic = some t → ∀ v ∈ rest, rf.Accepts t v := by
  induction h with
  | nil hnone => exact ⟨[], [], rfl, .nil, fun _ => rfl, by simp [hnone]⟩
  | @variadic t vs ht hvs =>
    refine ⟨[], vs, rfl, .nil, by simp [ht], fun t' ht' => ?_⟩
    cases ht.symm.trans ht'
    exact hvs
  | cons hv _ ih =>
    obtain ⟨fixed, rest, rfl, hfixed, hnone, hsome⟩ := ih
    exact ⟨_ :: fixed, rest, rfl, .cons hv hfixed, hnone, hsome⟩

theorem Reflection.AcceptsAll.converts (h : rf.AcceptsAll variadic ts vs) :
    Converts vs (rf.runVariadicFunc ts variadic vs) := by
  obtain ⟨fixed, rest, rfl, hfixed, hnone, hsome⟩ := h.split
  cases variadic with
  | none =>
    rw [hnone rfl, List.append_nil]
    exact converts_fixed hfixed
  | some t =>
    have hlen := hfixed.length_eq
    have hf := converts_fixed hfixed
    have hr := converts_variadic (hsome t rfl)
    rw [Reflection.runVariadicFunc, if_neg (by rw [List.length_append]; omega),
      List.drop_left' hlen.symm, List.take_left' hlen.symm]
    constructor
    · intro hnil
      rw [hr.1 fun hmem => hnil (List.mem_append_right _ hmem),
        hf.1 fun hmem => hnil (List.mem_append_left _ hmem)]
      rfl
    · intro hnil
      by_cases hrest : .nil ∈ rest
      · rw [hr.2 hrest]
        rfl
      · rw [hr.1 hrest, hf.2 ((List.mem_append.mp hnil).resolve_right hrest)]
        rfl

end

/-! ## Results -/

/-- The result of a Future from what the function of `getAct` returns. -/
def actResult : GoAny A E × Option (TaskError A E) → Result (GoAny A E) (TaskError A E)
  | (r, none) => .success r
  | (_, some e) => .failure e

theorem actResult_recovered_iff (v : PanicValue A E) :
    actResult (recovered v) = .failure (.stacks v) ↔ v ≠ .user .nil := by
  cases v with
  | user x => cases x <;> simp [recovered, actResult]
  | runtime p => simp [recovered, actResult]

variable {outs : Outs}

theorem actResult_direct (ret : outs.Ret A E) :
    actResult (finished (outs.direct ret)) = (Outcome.returns ret).expected := by
  rw [Outcome.expected]
  cases h : outs.direct ret with
  | mk r err => cases err <;> rfl

/-- What is read back from the results is what the function returned, if it does not return only
an error. -/
theorem actResult_parsed_iff (ret : outs.Ret A E) :
    actResult (finished (parseAny (outs.values ret), parseError (outs.values ret))) =
      (Outcome.returns ret).expected ↔ ¬(Outcome.returns ret : Outcome A E outs).OnlyError := by
  cases outs with
  | nothing => simp [Outs.values, parseAny, parseError, finished, actResult, Outcome.expected,
    Outs.direct, Outcome.OnlyError]
  | error =>
    change Option E at ret
    cases ret with
    | none =>
      refine iff_of_true rfl fun h => ?_
      exact h rfl
    | some e => simp [Outs.values, ofError, parseAny, parseError, finished, actResult,
      Outcome.expected, Outs.direct, Outcome.OnlyError]
  | anyError =>
    change GoAny A E × Option E at ret
    obtain ⟨r, err⟩ := ret
    cases err <;> cases r <;> simp [Outs.values, ofError, parseAny, parseError, finished,
      actResult, Outcome.expected, Outs.direct, Outcome.OnlyError]

/-- A task whose arguments match settles its Future as it should exactly if it is faithful. -/
theorem actResult_getAct_iff {rf : Reflection A E T} {task : Task A E T} {args : List (GoAny A E)}
    (hargs : task.Matches rf args) :
    actResult (getAct rf args task) = task.expected args ↔ task.Faithful args := by
  cases task with
  | plain outs body | canceller outs body =>
    cases body with
    | returns ret =>
      refine iff_of_true (actResult_direct ret) ?_
      exact fun h => by cases h
    | panics v =>
      refine (actResult_recovered_iff v).trans (not_congr ⟨?_, ?_⟩)
      · rintro rfl
        rfl
      · intro h
        cases h
        rfl
  | reflective _ _ outs body =>
    have hconverts := Reflection.AcceptsAll.converts hargs
    by_cases hnil : .nil ∈ args
    · simp only [getAct, hconverts.2 hnil, Task.expected, Task.Faithful, hnil, true_and,
        not_true_eq_false, false_and, or_false]
      exact eq_comm
    · simp only [getAct, hconverts.1 hnil, Task.expected, Task.Faithful, hnil, false_and,
        not_false_eq_true, true_and, false_or]
      cases hbody : body args with
      | returns ret =>
        rw [actResult_parsed_iff]
        exact ⟨fun h => ⟨nofun, h⟩, And.right⟩
      | panics v =>
        refine (actResult_recovered_iff v).trans ⟨fun hv => ⟨?_, ?_⟩, fun h hv => ?_⟩
        · intro h
          cases h
          exact hv rfl
        · cases outs <;> exact id
        · exact h.1 (by rw [hv]; rfl)

/-! ## The Future -/

/-- What others can do to the Future of a task before it is done: they cannot resolve or reject
it. -/
def OnlyCancelled {V E C : Type} (before : List (Op V E C)) : Prop :=
  ∀ r, Op.settle r ∈ before → r = .cancelled

theorem after_onlyCancelled {V E C : Type} {before : List (Op V E C)} (h : OnlyCancelled before) :
    ((Future.after before).result = none ↔ ∀ op ∈ before, op.settles = false) ∧
      ((Future.after before).result = none ∨ (Future.after before).result = some .cancelled) := by
  induction before using List.reverseRecOn with
  | nil => exact ⟨iff_of_true rfl (by simp), .inl rfl⟩
  | append_singleton ops op ih =>
    obtain ⟨hnone, hresult⟩ := ih fun r hr => h r (List.mem_append_left _ hr)
    have hall : (∀ op' ∈ ops ++ [op], op'.settles = false) ↔
        (∀ op' ∈ ops, op'.settles = false) ∧ op.settles = false := by
      simp [or_imp, forall_and]
    rw [after_concat, hall, ← hnone]
    rcases hresult with hres | hres
    · cases hop : op.settles with
      | false =>
        have hstep := Future.step_result_of_none hres hop
        exact ⟨iff_of_true hstep ⟨hres, rfl⟩, .inl hstep⟩
      | true =>
        cases op with
        | settle r =>
          cases h r (List.mem_append_right _ List.mem_cons_self)
          have hstep : ((Future.after ops).step (.settle .cancelled)).1.result =
              some .cancelled := by
            simp [Future.step, Future.setResult, hres]
          rw [hstep]
          exact ⟨iff_of_false (by simp) (by simp), .inr rfl⟩
        | _ => cases hop
    · have hstep := Future.step_result_of_some hres op
      rw [hstep, hres]
      exact ⟨iff_of_false (by simp) (by simp), .inr rfl⟩

/-- A task that was not cancelled has the result of its function. -/
theorem start_result {rf : Reflection A E T} (task : Task A E T) (args : List (GoAny A E))
    {before : List (Op (GoAny A E) (TaskError A E) C)} (h : OnlyCancelled before) :
    (start rf task args before).result =
      some (if (Future.after before).result = none then actResult (getAct rf args task)
        else .cancelled) := by
  obtain ⟨-, hres | hres⟩ := after_onlyCancelled h
  · rw [start, if_pos hres]
    simp only [Future.isCancelled, hres, Bool.false_eq_true, if_false]
    obtain ⟨r, err⟩ := getAct rf args task
    cases err <;> simp [Future.setResult, hres, actResult]
  · rw [start, if_neg (by simp [hres])]
    simp [Future.isCancelled, hres, Future.setResult]

theorem expected_ne_cancelled (task : Task A E T) (args : List (GoAny A E)) :
    task.expected args ≠ .cancelled := by
  have hne : ∀ {outs : Outs} (o : Outcome A E outs), o.expected ≠ .cancelled := by
    intro outs o
    cases o with
    | panics v => nofun
    | returns ret =>
      rw [Outcome.expected]
      split <;> nofun
  cases task with
  | plain outs body | canceller outs body => exact hne body
  | reflective _ _ _ body => exact hne (body args)

/-- The Future of a task, called with arguments of matching types, is rejected with the error or
the panic of the function and else resolved with its first result, exactly if nobody cancels it
before the task is done and the task is faithful. -/
theorem start_result_expected_iff (rf : Reflection A E T) (task : Task A E T)
    (args : List (GoAny A E)) (before : List (Op (GoAny A E) (TaskError A E) C))
    (hargs : task.Matches rf args) (hbefore : OnlyCancelled before) :
    (start rf task args before).result = some (task.expected args) ↔
      (∀ op ∈ before, op.settles = false) ∧ task.Faithful args := by
  rw [start_result task args hbefore, Option.some.injEq, ← (after_onlyCancelled hbefore).1,
    ← actResult_getAct_iff hargs]
  by_cases hres : (Future.after before).result = none
  · rw [if_pos hres]
    exact ⟨fun h => ⟨hres, h⟩, And.right⟩
  · rw [if_neg hres]
    exact iff_of_false (fun h => expected_ne_cancelled task args h.symm) fun h => hres h.1

end

/-- Types are names here, and every value is of every type. -/
def untyped : Reflection Nat String String where
  nilable _ := true
  canConvert _ _ := true
  convert v _ := v
  decode _ _ := none

/-- `func(int) (any, error)` that returns its argument. -/
def echo : Task Nat String String :=
  .reflective ["int"] none .anyError fun args => .returns (args.headD .nil, none)

theorem echo_resolved :
    (start (C := Nat) untyped echo [.value 3] []).result = some (.success (.value 3)) :=
  (start_result_expected_iff untyped echo [.value 3] []
    (.cons (.inr ⟨nofun, rfl, rfl⟩) (.nil rfl)) nofun).mpr
      ⟨nofun, .inr ⟨by decide, nofun, nofun⟩⟩

/-- `func(int) error` that fails: its Future is resolved with the error. -/
theorem failing_task_resolved :
    (start (C := Nat) untyped (.reflective ["int"] none .error fun _ => .returns (some "boom"))
      [.value 3] []).result = some (.success (.error "boom")) := rfl

end Gofusion.Routine
