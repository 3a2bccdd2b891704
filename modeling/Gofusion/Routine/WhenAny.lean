import Gofusion.Routine.Inputs

/-!
# WhenAny

`WhenAnyMatched` of `routine/candy.go` for at least one input, with every atomic step of its
goroutines.

The callbacks of the inputs send to one of two unbuffered channels.  A collector receives, the
caller itself for a single input and a goroutine for more, and settles the combined Future.  The
registrar closes both channels when it has registered all callbacks.  A send to a closed channel
panics, which the callback recovers from.  A receive from a closed channel gives the zero value.

The type switches on `CancelledError` are on values of that type, and the error of a cancelled
Future is a pointer.  `isCancelledError` says which resolved values are of the type.
-/

namespace Gofusion.Routine

open Gofusion.Lib

variable {ι V E : Type} {m : Nat}

/-- A value of a result list, or the payload of a message on the channel of the failures. -/
inductive Slot (V E : Type)
  | nil
  | value (v : V)
  | error (e : E)
  /-- `ErrCancelled`. -/
  | cancelled
deriving DecidableEq, Repr

/-- Where a callback of `WhenAnyMatched` is. -/
inductive AnyStep (V E : Type)
  /-- Sending to `chDones`. -/
  | sendDone (v : V)
  /-- Sending to `chFails`. -/
  | sendFail (x : Slot V E)
  /-- The collector has received. -/
  | delivered
  /-- The channel was closed. -/
  | dropped

/-- The callbacks that `WhenAnyMatched` registers. -/
def anyCallbacks : Callbacks V E (AnyStep V E) (m + 1) where
  handler _ r :=
    match r with
    | .success v => .sendDone v
    | .failure e => .sendFail (.error e)
    | .cancelled => .sendFail .cancelled
  returned p :=
    match p with
    | .delivered | .dropped => true
    | _ => false

/-- The result of the combined Future.  The error is a `NoMatchedError` with its results. -/
abbrev AnyResult (V E : Type) := Result V (List (Slot V E))

inductive Collector (V E : Type) (m : Nat)
  /-- In `select`, after a number of receives. -/
  | select (j : Nat)
  /-- Cancelling the inputs, before these, with the value that matched. -/
  | cancelling (v : V) (ks : List (Fin (m + 1)))
  /-- Before it settles the combined Future. -/
  | settle (o : AnyResult V E)
  | closeFails
  | closeDones
  | stopped

inductive Closing
  | registering
  /-- `chFails` is closed. -/
  | closedFails
  | stopped
deriving DecidableEq, Repr

structure WhenAny (ι V E : Type) (m : Nat) where
  inputs : Inputs ι V E (AnyStep V E) (m + 1)
  closing : Closing
  failsClosed : Bool
  donesClosed : Bool
  collector : Collector V E m
  rs : Fin (m + 1) → Slot V E
  nf : Option (AnyResult V E)

inductive AnyEvent (ι V E : Type) (m : Nat)
  /-- `Resolve`, `Reject` or `Cancel` on an input by someone else. -/
  | settle (i : ι) (r : Result V E)
  | register
  | notify (i : ι)
  /-- The collector receives from the callback of an input. -/
  | deliver (j : Fin (m + 1))
  /-- The callback of an input sends to a closed channel. -/
  | drop (j : Fin (m + 1))
  /-- The collector receives from `chFails`, which is closed. -/
  | zeroFail
  /-- The collector receives from `chDones`, which is closed. -/
  | zeroDone
  /-- The registrar closes its next channel. -/
  | close
  /-- The next step of the collector outside of `select`. -/
  | collect
deriving DecidableEq, Repr

/-- Any event that is no settling of an input from outside. -/
def AnyEvent.internal : AnyEvent ι V E m → Bool
  | .settle _ _ => false
  | _ => true

variable {x : Inputs ι V E (AnyStep V E) (m + 1)} {p : AnyStep V E} {j k : Fin (m + 1)}
  {t : Thread ι} {c : Nat} {rs : Fin (m + 1) → Slot V E} {s s' : WhenAny ι V E m}
  (fs : Fin (m + 1) → ι) (predicate isCancelledError : V → Bool) (nil : V)

/-- The count of the results that are no `CancelledError`. -/
def unCancelled (rs : List (Slot V E)) : Nat :=
  rs.countP fun x =>
    match x with
    | .value v => !isCancelledError v
    | _ => true

/-- The collector behind a receive that did not match, with `j` receives before it. -/
def nextSelect (rs : Fin (m + 1) → Slot V E) (j : Nat) : Collector V E m :=
  if j + 1 = m + 1 then
    .settle (if unCancelled isCancelledError (List.ofFn rs) > 0 then .failure (List.ofFn rs)
      else .cancelled)
  else .select (j + 1)

/-- An input is resolved with a match at the time of the call, or none is pending. -/
def Safe (results : ι → Option (Result V E)) : Prop :=
  (∃ j v, results (fs j) = some (.success v) ∧ predicate v = true) ∨ ∀ j, results (fs j) ≠ none

namespace WhenAny

abbrev setInputs (s : WhenAny ι V E m) (x : Inputs ι V E (AnyStep V E) (m + 1)) :
    WhenAny ι V E m :=
  { s with inputs := x }

/-- The state in which `WhenAnyMatched` has started its goroutines. -/
def start (results : ι → Option (Result V E)) : WhenAny ι V E m where
  inputs := .start results
  closing := .registering
  failsClosed := false
  donesClosed := false
  collector := .select 0
  rs _ := .nil
  nf := none

/-- The collector receives `{result: v, i: k}` from `chDones`. -/
def receiveDone (s : WhenAny ι V E m) (j : Nat) (v : V) (k : Fin (m + 1)) : WhenAny ι V E m :=
  if m = 0 then
    { s with collector := .settle (if predicate v then .success v else .failure [.value v]) }
  else if predicate v then { s with collector := .cancelling v (List.finRange (m + 1)) }
  else
    let rs := Function.update s.rs k (.value v)
    { s with rs := rs, collector := nextSelect isCancelledError rs j }

/-- The collector receives `{result: x, i: k}` from `chFails`. -/
def receiveFail (s : WhenAny ι V E m) (j : Nat) (x : Slot V E) (k : Fin (m + 1)) :
    WhenAny ι V E m :=
  if m = 0 then { s with collector := .settle (.failure [x]) }
  else
    let rs := Function.update s.rs k x
    { s with rs := rs, collector := nextSelect isCancelledError rs j }

def input (s : WhenAny ι V E m) (j : Fin (m + 1)) : Option (Result V E) :=
  s.inputs.result (fs j)

section

variable [DecidableEq ι]

/-- The collector outside of `select`. -/
def collect (s : WhenAny ι V E m) : Option (WhenAny ι V E m) :=
  match s.collector with
  | .select _ | .stopped => none
  | .cancelling v [] => some { s with collector := .settle (.success v) }
  | .cancelling v (k :: ks) =>
    some { s with inputs := s.inputs.settle (fs k) .cancelled, collector := .cancelling v ks }
  | .settle o => some { s with nf := s.nf.or (some o), collector := .closeFails }
  | .closeFails => some { s with failsClosed := true, collector := .closeDones }
  | .closeDones => some { s with donesClosed := true, collector := .stopped }

/-- The deferred function of the registrar. -/
def close (s : WhenAny ι V E m) : Option (WhenAny ι V E m) :=
  match s.closing with
  | .registering =>
    if s.inputs.toRegister = [] ∧ s.inputs.free anyCallbacks .registrar then
      some { s with failsClosed := true, closing := .closedFails }
    else none
  | .closedFails => some { s with donesClosed := true, closing := .stopped }
  | .stopped => none

def step (s : WhenAny ι V E m) : AnyEvent ι V E m → Option (WhenAny ι V E m)
  | .settle i r => some { s with inputs := s.inputs.settle i r }
  | .register => (s.inputs.register fs anyCallbacks).map fun x => { s with inputs := x }
  | .notify i => (s.inputs.notify anyCallbacks i).map fun x => { s with inputs := x }
  | .deliver k =>
    match s.collector, s.inputs.running k with
    | .select j, some (t, .sendDone v) =>
      if s.donesClosed then none
      else some (({ s with inputs := s.inputs.advance k t .delivered }).receiveDone predicate
        isCancelledError j v k)
    | .select j, some (t, .sendFail x) =>
      if s.failsClosed then none
      else some (({ s with inputs := s.inputs.advance k t .delivered }).receiveFail
        isCancelledError j x k)
    | _, _ => none
  | .drop k =>
    match s.inputs.running k with
    | some (t, .sendDone _) =>
      if s.donesClosed then some { s with inputs := s.inputs.advance k t .dropped } else none
    | some (t, .sendFail _) =>
      if s.failsClosed then some { s with inputs := s.inputs.advance k t .dropped } else none
    | _ => none
  | .zeroFail =>
    match s.collector with
    | .select j =>
      if s.failsClosed then some (s.receiveFail isCancelledError j .nil 0) else none
    | _ => none
  | .zeroDone =>
    match s.collector with
    | .select j =>
      if s.donesClosed then some (s.receiveDone predicate isCancelledError j nil 0) else none
    | _ => none
  | .close => s.close
  | .collect => s.collect fs

/-! ## The law -/

/-- No goroutine can take a step. -/
def Quiet (s : WhenAny ι V E m) : Prop :=
  ∀ e, AnyEvent.internal e = true → s.step fs predicate isCancelledError nil e = none

/-- What is asked of the combined Future. -/
structure Lawful (s : WhenAny ι V E m) : Prop where
  /-- It is rejected only after every input has finished without a match. -/
  rejected : ∀ e, s.nf = some (.failure e) → ∀ j, ∃ r, s.input fs j = some r ∧
    ∀ v, r = .success v → predicate v = false
  /-- It is resolved with the value of an input that matches. -/
  resolved : ∀ v, s.nf = some (.success v) → predicate v = true ∧
    ∃ j, s.input fs j = some (.success v)
  /-- It is resolved if an input is resolved with a match. -/
  matched : s.Quiet fs predicate isCancelledError nil →
    (∃ j v, s.input fs j = some (.success v) ∧ predicate v = true) →
      ∃ v, s.nf = some (.success v)

end

end WhenAny

/-! ## The invariant -/

def deliveries : Option (Thread ι × AnyStep V E) → Nat
  | some (_, .delivered) => 1
  | _ => 0

/-- A bound on the steps that a callback still takes. -/
def anyWeight : Option (Thread ι × AnyStep V E) → Nat
  | none => 2
  | some (_, .sendDone _) | some (_, .sendFail _) => 1
  | some (_, .delivered) | some (_, .dropped) => 0

def Collector.weight : Collector V E m → Nat
  | .select c => m + 6 + (m + 1 - c)
  | .cancelling _ ks => ks.length + 4
  | .settle _ => 3
  | .closeFails => 2
  | .closeDones => 1
  | .stopped => 0

def Closing.weight : Closing → Nat
  | .registering => 2
  | .closedFails => 1
  | .stopped => 0

theorem all_delivered {running : Fin (m + 1) → Option (Thread ι × AnyStep V E)}
    (h : ∑ j, deliveries (running j) = m + 1) (j : Fin (m + 1)) :
    ∃ t, running j = some (t, .delivered) := by
  have hle : ∀ x : Option (Thread ι × AnyStep V E), deliveries x ≤ 1 := by
    intro x
    unfold deliveries
    split <;> decide
  by_contra hne
  have hzero : deliveries (running j) < 1 := by
    unfold deliveries
    split
    case h_1 t hj => exact absurd ⟨t, hj⟩ hne
    case h_2 => exact Nat.one_pos
  have hlt : ∑ j, deliveries (running j) < ∑ _j : Fin (m + 1), 1 :=
    Finset.sum_lt_sum (fun j _ => hle (running j)) ⟨j, Finset.mem_univ j, hzero⟩
  simp at hlt
  omega

variable {fs predicate isCancelledError nil}

namespace WhenAny

variable (fs predicate)

/-- What holds where the callback of input `j` is. -/
def At (s : WhenAny ι V E m) (j : Fin (m + 1)) : AnyStep V E → Prop
  | .sendDone v => s.input fs j = some (.success v)
  | .sendFail _ => ∃ r, s.input fs j = some r ∧ ∀ v, r ≠ .success v
  | .delivered => s.input fs j ≠ none
  | .dropped => s.failsClosed = true ∨ s.donesClosed = true

/-- Input `j` has finished without a match. -/
def Unmatched (s : WhenAny ι V E m) (j : Fin (m + 1)) : Prop :=
  ∃ r, s.input fs j = some r ∧ ∀ v, r = .success v → predicate v = false

/-- A result that the combined Future may have. -/
def Good (s : WhenAny ι V E m) : AnyResult V E → Prop
  | .success v => predicate v = true ∧ ∃ j, s.input fs j = some (.success v)
  | _ => ∀ j, s.Unmatched fs predicate j

/-- While the collector waits it has received from the inputs that are delivered, without a
match, and the channels are open. -/
structure Waiting (s : WhenAny ι V E m) (c : Nat) : Prop where
  lt : c < m + 1
  fails : s.failsClosed = false
  dones : s.donesClosed = false
  count : c = ∑ j, deliveries (s.inputs.running j)
  unmatched : ∀ j t, s.inputs.running j = some (t, .delivered) → s.Unmatched fs predicate j

/-- What holds where the collector is behind a receive. -/
def Goes (s : WhenAny ι V E m) : Prop :=
  match s.collector with
  | .select c => s.Waiting fs predicate c
  | .cancelling v _ => s.Good fs predicate (.success v)
  | .settle o => s.Good fs predicate o
  | _ => False

variable {fs predicate} {o : AnyResult V E}

theorem Waiting.not_closed (h : s.Waiting fs predicate c) :
    ¬(s.failsClosed = true ∨ s.donesClosed = true) := by
  rw [h.fails, h.dones]
  exact fun hclosed => hclosed.elim nofun nofun

section

variable (hinput : ∀ j r, s.input fs j = some r → s'.input fs j = some r)
include hinput

theorem Unmatched.mono (h : s.Unmatched fs predicate j) : s'.Unmatched fs predicate j := by
  obtain ⟨r, hr, hv⟩ := h
  exact ⟨r, hinput j r hr, hv⟩

theorem Good.mono (h : s.Good fs predicate o) : s'.Good fs predicate o := by
  cases o with
  | success v =>
    obtain ⟨hv, j, hj⟩ := h
    exact ⟨hv, j, hinput j _ hj⟩
  | failure e | cancelled => exact fun j => (h j).mono hinput

theorem input_ne_none (h : s.input fs j ≠ none) : s'.input fs j ≠ none := by
  obtain ⟨r, hr⟩ := Option.ne_none_iff_exists'.mp h
  rw [hinput j r hr]
  nofun

end

theorem At.mono (h : s.At fs j p)
    (hinput : ∀ j r, s.input fs j = some r → s'.input fs j = some r)
    (hfails : s.failsClosed = true → s'.failsClosed = true)
    (hdones : s.donesClosed = true → s'.donesClosed = true) : s'.At fs j p := by
  cases p with
  | sendDone v => exact hinput j _ h
  | sendFail x =>
    obtain ⟨r, hr, hv⟩ := h
    exact ⟨r, hinput j r hr, hv⟩
  | delivered => exact input_ne_none hinput h
  | dropped => exact h.imp hfails hdones

/-- The state behind a receive from input `k`. -/
abbrev received (s : WhenAny ι V E m) (k : Fin (m + 1)) (t : Thread ι)
    (rs : Fin (m + 1) → Slot V E) (c : Collector V E m) : WhenAny ι V E m :=
  { s with inputs := s.inputs.advance k t .delivered, rs := rs, collector := c }

/-- Behind a receive that did not match the collector waits on, or all inputs have finished
without a match. -/
theorem Waiting.next (h : s.Waiting fs predicate c) (hk : s.inputs.running k = some (t, p))
    (hp : deliveries (some (t, p)) = 0) (hun : s.Unmatched fs predicate k) :
    (s.received k t rs (nextSelect isCancelledError rs c)).Goes fs predicate := by
  have hcount : c + 1 = ∑ j, deliveries ((s.inputs.advance k t .delivered).running j) := by
    have hsum := sum_update_running deliveries s.inputs.running k (some (t, .delivered))
    rw [hk, hp, show deliveries (some (t, (.delivered : AnyStep V E))) = 1 from rfl,
      ← h.count] at hsum
    exact hsum.symm
  have hunmatched : ∀ j t', (s.inputs.advance k t .delivered).running j = some (t', .delivered) →
      s.Unmatched fs predicate j := by
    intro j t' hj
    rcases update_eq_some hj with ⟨rfl, -⟩ | ⟨-, hj⟩
    · exact hun
    · exact h.unmatched j t' hj
  by_cases hlast : c + 1 = m + 1
  · have hgood : ∀ j, s.Unmatched fs predicate j := by
      intro j
      obtain ⟨t', hj⟩ := all_delivered (hcount.symm.trans hlast) j
      exact hunmatched j t' hj
    simp only [Goes, nextSelect, if_pos hlast]
    split <;> exact hgood
  · simp only [Goes, nextSelect, if_neg hlast]
    have := h.lt
    exact ⟨by omega, h.fails, h.dones, hcount, hunmatched⟩

section

variable [DecidableEq ι] {results : ι → Option (Result V E)}

structure Inv (fs : Fin (m + 1) → ι) (predicate : V → Bool) (results : ι → Option (Result V E))
    (s : WhenAny ι V E m) : Prop where
  tracks : ∃ regs, Tracks fs s.inputs regs
  direct : ∀ j r, results (fs j) = some r → s.inputs.Direct fs (fs j) r
  at' : ∀ j t p, s.inputs.running j = some (t, p) → s.At fs j p
  closing : s.closing ≠ .registering → s.failsClosed = true
  waiting : ∀ c, s.collector = .select c → s.Waiting fs predicate c
  cancelling : ∀ v ks, s.collector = .cancelling v ks → s.Good fs predicate (.success v)
  settling : ∀ o, s.collector = .settle o → s.Good fs predicate o
  settled : ∀ o, s.nf = some o → s.Good fs predicate o
  finished : s.collector = .closeFails ∨ s.collector = .closeDones ∨ s.collector = .stopped →
    s.nf ≠ none

/-- The invariant holds at the start. -/
theorem inv_start (fs : Fin (m + 1) → ι) (predicate : V → Bool)
    (results : ι → Option (Result V E)) :
    (start results : WhenAny ι V E m).Inv fs predicate results where
  tracks := ⟨[], tracks_start fs results⟩
  direct _ _ hr := direct_start hr
  at' := nofun
  closing h := absurd rfl h
  waiting c hc := by
    cases hc
    exact ⟨Nat.succ_pos m, rfl, rfl, by simp [start, Inputs.start, deliveries], nofun⟩
  cancelling := nofun
  settling := nofun
  settled := nofun
  finished := nofun

variable {r : Result V E} {e : AnyEvent ι V E m}

section

variable (h : s.Inv fs predicate results)
include h

/-! ### Steps of the inputs -/

section

variable (htracks : ∃ regs, Tracks fs x regs)
  (hdirect : ∀ j r, results (fs j) = some r → x.Direct fs (fs j) r)
include htracks hdirect

/-- The inputs change, and callbacks that are new have not delivered. -/
theorem Inv.inputs (hresult : ∀ i r, s.inputs.result i = some r → x.result i = some r)
    (hrunning : ∀ {j t p}, x.running j = some (t, p) → s.inputs.running j = some (t, p) ∨
      p ≠ .delivered ∧ (s.setInputs x).At fs j p)
    (hcount : ∑ j, deliveries (s.inputs.running j) = ∑ j, deliveries (x.running j)) :
    (s.setInputs x).Inv fs predicate results := by
  have hinput : ∀ j r, s.input fs j = some r → (s.setInputs x).input fs j = some r :=
    fun j r => hresult (fs j) r
  refine ⟨htracks, hdirect, fun j t p hp => ?_, h.closing, fun c hc => ?_,
    fun v ks hc => (h.cancelling v ks hc).mono hinput, fun o ho => (h.settling o ho).mono hinput,
    fun o ho => (h.settled o ho).mono hinput, h.finished⟩
  · rcases hrunning hp with hold | ⟨-, hnew⟩
    · exact (h.at' j t p hold).mono hinput id id
    · exact hnew
  · obtain ⟨hlt, hfails, hdones, hc, hun⟩ := h.waiting c hc
    refine ⟨hlt, hfails, hdones, hc.trans hcount, fun j t hj => ?_⟩
    rcases hrunning hj with hold | ⟨hne, -⟩
    · exact (hun j t hold).mono hinput
    · exact absurd rfl hne

/-- A move of the inputs that starts no callback. -/
theorem Inv.same_running (hrunning : x.running = s.inputs.running)
    (hresult : ∀ i r, s.inputs.result i = some r → x.result i = some r) :
    (s.setInputs x).Inv fs predicate results :=
  h.inputs htracks hdirect hresult (fun hp => .inl (hrunning ▸ hp)) (by rw [hrunning])

/-- A callback starts. -/
theorem Inv.started (hidle : s.inputs.running j = none) (hr : s.inputs.result (fs j) = some r)
    (hrunning : x.running = Function.update s.inputs.running j (some (t, anyCallbacks.handler j r)))
    (hresult : x.result = s.inputs.result) :
    (s.setInputs x).Inv fs predicate results := by
  have hinput : (s.setInputs x).input fs j = some r := (congrFun hresult (fs j)).trans hr
  refine h.inputs htracks hdirect (fun i r hi => (congrFun hresult i).trans hi)
    (fun {j' t' p} hp => ?_) ?_
  · rw [hrunning] at hp
    rcases update_eq_some hp with ⟨rfl, heq⟩ | ⟨-, hold⟩
    · cases heq
      cases r with
      | success v => exact .inr ⟨nofun, hinput⟩
      | failure e | cancelled => exact .inr ⟨nofun, _, hinput, nofun⟩
    · exact .inl hold
  · have hsum := sum_update_running deliveries s.inputs.running j
      (some (t, anyCallbacks.handler j r))
    have hhandler : deliveries (some (t, (anyCallbacks (m := m)).handler j r)) = 0 := by
      cases r <;> rfl
    rw [hidle, hhandler] at hsum
    rw [hrunning]
    exact (Nat.add_right_cancel hsum).symm

end

theorem Inv.starts (hdirect : ∀ j r, results (fs j) = some r → x.Direct fs (fs j) r)
    (hx : s.inputs.Starts fs anyCallbacks x ∧ ∃ regs, Tracks fs x regs) :
    (s.setInputs x).Inv fs predicate results := by
  obtain ⟨⟨hresult, ⟨hrunning, -⟩ | ⟨j, t, r, hidle, hr, -, hrunning⟩⟩, htracks⟩ := hx
  · exact h.same_running htracks hdirect hrunning fun i r hi => (congrFun hresult i).trans hi
  · exact h.started htracks hdirect hidle hr hrunning hresult

/-! ### Steps of the collector -/

/-- The collector receives from an input. -/
theorem Inv.deliver (hk : s.inputs.running k = some (t, p)) (hin : s.input fs k ≠ none)
    (hgoes : (s.received k t rs co).Goes fs predicate) :
    (s.received k t rs co).Inv fs predicate results := by
  obtain ⟨regs, htracks⟩ := h.tracks
  rw [Goes] at hgoes
  refine ⟨⟨regs, htracks.advance (by rw [hk]; nofun) t _⟩,
    fun j r hr => (h.direct j r hr).advance hk, fun j' t' q hq => ?_, h.closing, fun c' hc' => ?_,
    fun v ks hv => ?_, fun o ho => ?_, fun o ho => (h.settled o ho).mono fun _ _ => id, ?_⟩
  · rcases update_eq_some hq with ⟨rfl, heq⟩ | ⟨-, hq⟩
    · cases heq
      exact hin
    · exact (h.at' j' t' q hq).mono (fun _ _ => id) id id
  · rwa [hc'] at hgoes
  · rwa [hv] at hgoes
  · rwa [ho] at hgoes
  · rintro (hs | hs | hs) <;> rw [hs] at hgoes <;> exact hgoes.elim

/-- It receives a value. -/
theorem Inv.receiveDone (hc : s.collector = .select c)
    (hk : s.inputs.running k = some (t, .sendDone v)) :
    ((s.setInputs (s.inputs.advance k t .delivered)).receiveDone predicate
      isCancelledError c v k).Inv fs predicate results := by
  have hv : s.input fs k = some (.success v) := h.at' k t _ hk
  have hin : s.input fs k ≠ none := by
    rw [hv]
    nofun
  have hun : predicate v = false → s.Unmatched fs predicate k := by
    intro hp
    refine ⟨_, hv, fun v' hv' => ?_⟩
    cases hv'
    exact hp
  rw [WhenAny.receiveDone]
  split
  case isTrue hm =>
    subst hm
    refine h.deliver hk hin ?_
    cases hp : predicate v with
    | true => exact ⟨hp, k, hv⟩
    | false =>
      -- there is no other input
      intro j
      obtain rfl : j = k := Fin.ext (by omega)
      exact hun hp
  case isFalse =>
    split
    case isTrue hp => exact h.deliver hk hin ⟨hp, k, hv⟩
    case isFalse hp =>
      exact h.deliver hk hin ((h.waiting c hc).next hk rfl (hun (by simpa using hp)))

/-- It receives an error. -/
theorem Inv.receiveFail (hc : s.collector = .select c)
    (hk : s.inputs.running k = some (t, .sendFail y)) :
    ((s.setInputs (s.inputs.advance k t .delivered)).receiveFail
      isCancelledError c y k).Inv fs predicate results := by
  obtain ⟨r, hr, hne⟩ := h.at' k t _ hk
  have hin : s.input fs k ≠ none := by
    rw [hr]
    nofun
  have hun : s.Unmatched fs predicate k := ⟨r, hr, fun v hv => absurd hv (hne v)⟩
  rw [WhenAny.receiveFail]
  split
  case isTrue hm =>
    subst hm
    refine h.deliver hk hin fun j => ?_
    obtain rfl : j = k := Fin.ext (by omega)
    exact hun
  case isFalse => exact h.deliver hk hin ((h.waiting c hc).next hk rfl hun)

/-- The channel of a callback is closed, so the collector does not wait any more. -/
theorem Inv.drop (hk : s.inputs.running k = some (t, p))
    (hclosed : s.failsClosed = true ∨ s.donesClosed = true) :
    (s.setInputs (s.inputs.advance k t .dropped)).Inv fs predicate results := by
  obtain ⟨regs, htracks⟩ := h.tracks
  refine ⟨⟨regs, htracks.advance (by rw [hk]; nofun) t _⟩,
    fun j r hr => (h.direct j r hr).advance hk, fun j' t' q hq => ?_, h.closing,
    fun c hc => absurd hclosed (h.waiting c hc).not_closed, h.cancelling, h.settling, h.settled,
    h.finished⟩
  rcases update_eq_some hq with ⟨rfl, heq⟩ | ⟨-, hq⟩
  · cases heq
    exact hclosed
  · exact h.at' j' t' q hq

/-- A move of the collector. -/
theorem Inv.collect (hstep : s.collect fs = some s') : s'.Inv fs predicate results := by
  obtain ⟨regs, htracks⟩ := h.tracks
  rw [WhenAny.collect] at hstep
  split at hstep
  case h_1 | h_2 => cases hstep
  case h_3 v hc =>
    cases hstep
    refine ⟨h.tracks, h.direct, h.at', h.closing, nofun, nofun, ?_, h.settled, nofun⟩
    rintro o ⟨⟩
    exact h.cancelling v [] hc
  case h_4 v k ks hc =>
    cases hstep
    have hx := h.same_running ⟨regs, htracks.settle (fs k) .cancelled⟩
      (fun j r hr => (h.direct j r hr).settle (fs k) .cancelled) rfl
      (fun i r hi => result_settle_of_some hi (fs k) .cancelled)
    refine ⟨hx.tracks, hx.direct, hx.at', hx.closing, nofun, ?_, nofun, hx.settled, nofun⟩
    rintro v' ks' ⟨⟩
    exact hx.cancelling v (k :: ks) hc
  case h_5 o hc =>
    cases hstep
    refine ⟨h.tracks, h.direct, h.at', h.closing, nofun, nofun, nofun, fun o' ho' => ?_,
      fun _ => ?_⟩
    · rcases Option.or_eq_some_iff.mp ho' with ho' | ⟨-, ho'⟩
      · exact h.settled o' ho'
      · cases ho'
        exact h.settling o hc
    · change s.nf.or (some o) ≠ none
      cases s.nf <;> nofun
  case h_6 hc =>
    cases hstep
    exact ⟨h.tracks, h.direct,
      fun j t p hp => (h.at' j t p hp).mono (fun _ _ h => h) (fun _ => rfl) id, fun _ => rfl, nofun,
      nofun, nofun, h.settled, fun _ => h.finished (.inl hc)⟩
  case h_7 hc =>
    cases hstep
    exact ⟨h.tracks, h.direct,
      fun j t p hp => (h.at' j t p hp).mono (fun _ _ h => h) id fun _ => rfl, h.closing, nofun,
      nofun, nofun, h.settled, fun _ => h.finished (.inr (.inl hc))⟩

/-! ### The end of the registrar -/

/-- Where the call is safe, the collector does not wait when the registrar is at its end: it has
received from every input that was settled before the call. -/
theorem Inv.not_waiting (hsafe : Safe fs predicate results)
    (hreg : s.inputs.toRegister = []) (hfree : s.inputs.free anyCallbacks .registrar = true)
    (c : Nat) : s.collector ≠ .select c := by
  intro hc
  obtain ⟨regs, htracks⟩ := h.tracks
  have hwaiting := h.waiting c hc
  have hdelivered : ∀ {j r}, results (fs j) = some r →
      ∃ t, s.inputs.running j = some (t, .delivered) := by
    intro j r hr
    obtain ⟨p, hj, hreturned⟩ := htracks.direct_returned hreg hfree (h.direct j r hr)
    cases p with
    | delivered => exact ⟨_, hj⟩
    | dropped => exact absurd (h.at' j _ _ hj) hwaiting.not_closed
    | _ => cases hreturned
  rcases hsafe with ⟨j, v, hv, hp⟩ | hall
  · obtain ⟨t, hj⟩ := hdelivered hv
    obtain ⟨r, hr, hun⟩ := hwaiting.unmatched j t hj
    cases ((h.direct j _ hv).result).symm.trans hr
    rw [hun v rfl] at hp
    cases hp
  · have hone : ∀ j, deliveries (s.inputs.running j) = 1 := by
      intro j
      obtain ⟨r, hr⟩ := Option.ne_none_iff_exists'.mp (hall j)
      obtain ⟨t, hj⟩ := hdelivered hr
      rw [hj]
      rfl
    have hcount := hwaiting.count
    rw [Finset.sum_congr rfl fun j _ => hone j] at hcount
    have := hwaiting.lt
    simp at hcount
    omega

/-- The registrar closes the channels. -/
theorem Inv.close (hsafe : Safe fs predicate results) (hstep : s.close = some s') :
    s'.Inv fs predicate results := by
  rw [WhenAny.close] at hstep
  split at hstep
  case h_1 =>
    split at hstep
    case isFalse => cases hstep
    case isTrue hdone =>
      cases hstep
      exact ⟨h.tracks, h.direct,
        fun j t p hp => (h.at' j t p hp).mono (fun _ _ h => h) (fun _ => rfl) id, fun _ => rfl,
        fun c hc => absurd hc (h.not_waiting hsafe hdone.1 hdone.2 c), h.cancelling, h.settling,
        h.settled, h.finished⟩
  case h_2 hclosing =>
    cases hstep
    have hfails := h.closing (by simp [hclosing])
    exact ⟨h.tracks, h.direct,
      fun j t p hp => (h.at' j t p hp).mono (fun _ _ h => h) id fun _ => rfl, fun _ => hfails,
      fun c hc => absurd (.inl hfails) (h.waiting c hc).not_closed, h.cancelling, h.settling,
      h.settled, h.finished⟩
  case h_3 => cases hstep

/-- A step keeps the invariant, the end of the registrar only where the call is safe. -/
theorem Inv.step (hstep : s.step fs predicate isCancelledError nil e = some s')
    (hsafe : e = .close → Safe fs predicate results) :
    s'.Inv fs predicate results := by
  obtain ⟨regs, htracks⟩ := h.tracks
  cases e with
  | settle i r =>
    cases hstep
    exact h.same_running ⟨regs, htracks.settle i r⟩ (fun j r' hr' => (h.direct j r' hr').settle i r)
      rfl fun i' r' hi' => result_settle_of_some hi' i r
  | register =>
    obtain ⟨x, hx, rfl⟩ := Option.map_eq_some_iff.mp hstep
    exact h.starts (fun j r hr => (h.direct j r hr).register hx) (htracks.register hx)
  | notify i =>
    obtain ⟨x, hx, rfl⟩ := Option.map_eq_some_iff.mp hstep
    exact h.starts (fun j r hr => (h.direct j r hr).notify htracks hx) (htracks.notify hx)
  | deliver k =>
    rw [WhenAny.step] at hstep
    split at hstep
    case h_1 c t v hc hk =>
      split at hstep <;> cases hstep
      exact h.receiveDone hc hk
    case h_2 c t x hc hk =>
      split at hstep <;> cases hstep
      exact h.receiveFail hc hk
    case h_3 => cases hstep
  | drop k =>
    rw [WhenAny.step] at hstep
    split at hstep
    case h_1 t v hk =>
      split at hstep <;> cases hstep
      exact h.drop hk (.inr ‹_›)
    case h_2 t x hk =>
      split at hstep <;> cases hstep
      exact h.drop hk (.inl ‹_›)
    case h_3 => cases hstep
  | zeroFail =>
    rw [WhenAny.step] at hstep
    split at hstep
    case h_1 c hc => simp [(h.waiting c hc).fails] at hstep
    case h_2 => cases hstep
  | zeroDone =>
    rw [WhenAny.step] at hstep
    split at hstep
    case h_1 c hc => simp [(h.waiting c hc).dones] at hstep
    case h_2 => cases hstep
  | close => exact h.close (hsafe rfl) hstep
  | collect => exact h.collect hstep

/-! ## The law holds of safe calls -/

/-- A collector that waits for nobody keeps nobody from closing the channels. -/
theorem Inv.quiet_not_waiting (hquiet : s.Quiet fs predicate isCancelledError nil) (c : Nat) :
    s.collector ≠ .select c := by
  intro hc
  have hwaiting := h.waiting c hc
  have hfree : s.inputs.free anyCallbacks .registrar = true := by
    refine Inputs.free_of_returned (fun j t p hj => ?_) _
    have hnone := hquiet (.deliver j) rfl
    cases p with
    | delivered | dropped => rfl
    | sendDone v => simp [WhenAny.step, hc, hj, hwaiting.dones] at hnone
    | sendFail y => simp [WhenAny.step, hc, hj, hwaiting.fails] at hnone
  have hreg : s.inputs.toRegister = [] := by
    cases hreg : s.inputs.toRegister with
    | nil => rfl
    | cons y rest =>
      have hnone := hquiet .register rfl
      simp only [WhenAny.step, Inputs.register, hreg, hfree, if_true] at hnone
      split at hnone <;> cases hnone
  have hnone := hquiet .close rfl
  cases hclosing : s.closing with
  | registering => simp [WhenAny.step, WhenAny.close, hclosing, hreg, hfree] at hnone
  | _ =>
    refine hwaiting.not_closed (.inl (h.closing ?_))
    simp [hclosing]

/-- The invariant gives the law. -/
theorem Inv.lawful : s.Lawful fs predicate isCancelledError nil where
  rejected e he := h.settled _ he
  resolved v hv := h.settled _ hv
  matched hquiet hmatch := by
    obtain ⟨j, v, hv, hp⟩ := hmatch
    have hcollect : s.collect fs = none := hquiet .collect rfl
    have hstopped : s.collector = .stopped := by
      cases hc : s.collector with
      | select c => exact absurd hc (h.quiet_not_waiting hquiet c)
      | cancelling v ks => cases ks <;> simp [WhenAny.collect, hc] at hcollect
      | stopped => rfl
      | _ => simp [WhenAny.collect, hc] at hcollect
    obtain ⟨o, ho⟩ := Option.ne_none_iff_exists'.mp (h.finished (.inr (.inr hstopped)))
    have hgood := h.settled o ho
    cases o with
    | success v' => exact ⟨v', ho⟩
    | _ =>
      -- every input would have finished without a match
      obtain ⟨r, hr, hun⟩ := hgood j
      cases hv.symm.trans hr
      rw [hun v rfl] at hp
      cases hp

end

/-! ## Other calls have a run that breaks it -/

/-- The collector waits and the registrar is about to register, with nothing in between. -/
structure Ready (fs : Fin (m + 1) → ι) (predicate : V → Bool)
    (results : ι → Option (Result V E)) (s : WhenAny ι V E m) : Prop where
  inv : s.Inv fs predicate results
  closing : s.closing = .registering
  nf : s.nf = none
  result : s.inputs.result = results
  delivered : ∀ j t p, s.inputs.running j = some (t, p) → p = .delivered
  select : ∃ c, s.collector = .select c

theorem Ready.free (h : s.Ready fs predicate results) :
    s.inputs.free anyCallbacks .registrar = true := by
  refine Inputs.free_of_returned (fun j t p hj => ?_) _
  rw [h.delivered j t p hj]
  rfl

section

variable (hunmatched : ∀ j v, results (fs j) = some (.success v) → predicate v = false)
  {pending : Fin (m + 1)} (hpending : results (fs pending) = none)
include hpending

/-- The collector receives from an input that does not match and waits on, since an input is
pending. -/
theorem next_waits (h : s.Inv fs predicate results)
    (hresult : s.inputs.result = results) (hc : s.collector = nextSelect isCancelledError rs c) :
    s.collector = .select (c + 1) := by
  rw [hc, nextSelect]
  split
  case isFalse => rfl
  case isTrue hlast =>
    rw [nextSelect, if_pos hlast] at hc
    have hgood : ∀ j, s.Unmatched fs predicate j := by
      have hsettling := h.settling _ hc
      split at hsettling <;> exact hsettling
    obtain ⟨r, hr, -⟩ := hgood pending
    rw [input, hresult, hpending] at hr
    cases hr

omit [DecidableEq ι] in
theorem ne_zero_of_settled (hj : results (fs j) ≠ none) : m ≠ 0 := by
  rintro rfl
  obtain rfl : j = pending := Fin.ext (by omega)
  exact hj hpending

include hunmatched

theorem Ready.deliver (isCancelledError : V → Bool) (nil : V)
    (h : s.Ready fs predicate results)
    (hinv : (s.setInputs x).Inv fs predicate results)
    (hresult : x.result = s.inputs.result) (hr : s.inputs.result (fs j) = some r)
    (hrunning : x.running =
      Function.update s.inputs.running j (some (.registrar, anyCallbacks.handler j r))) :
    ∃ s', (s.setInputs x).step fs predicate isCancelledError nil (.deliver j) = some s' ∧
      s'.Ready fs predicate results ∧ s'.inputs.toRegister = x.toRegister := by
  obtain ⟨c, hc⟩ := h.select
  have hwaiting := h.inv.waiting c hc
  have hresults : x.result = results := hresult.trans h.result
  rw [h.result] at hr
  have hm : m ≠ 0 := ne_zero_of_settled hpending (by rw [hr]; nofun)
  have hxj : x.running j = some (.registrar, anyCallbacks.handler j r) := by
    rw [hrunning, Function.update_self]
  have hdelivered : ∀ j' t p, (x.advance j .registrar .delivered).running j' = some (t, p) →
      p = .delivered := by
    intro j' t p hj'
    rcases update_eq_some hj' with ⟨-, heq⟩ | ⟨hjj, hj'⟩
    · exact congrArg Prod.snd heq
    · rw [hrunning, Function.update_of_ne hjj] at hj'
      exact h.delivered j' t p hj'
  -- in both channels: the receive does not match, so the collector waits on
  obtain ⟨y, hstep⟩ : ∃ y, (s.setInputs x).step fs predicate isCancelledError nil (.deliver j) =
      some ((s.setInputs x).received j .registrar (Function.update s.rs j y)
        (nextSelect isCancelledError (Function.update s.rs j y) c)) := by
    cases r with
    | success v =>
      have hp := hunmatched j v hr
      refine ⟨.value v, ?_⟩
      simp [WhenAny.step, hc, hxj, anyCallbacks, hwaiting.dones, receiveDone, hm, hp]
    | failure e =>
      refine ⟨.error e, ?_⟩
      simp [WhenAny.step, hc, hxj, anyCallbacks, hwaiting.fails, receiveFail, hm]
    | cancelled =>
      refine ⟨.cancelled, ?_⟩
      simp [WhenAny.step, hc, hxj, anyCallbacks, hwaiting.fails, receiveFail, hm]
  have hs' := hinv.step hstep nofun
  exact ⟨_, hstep, ⟨hs', h.closing, h.nf, hresults, hdelivered, c + 1,
    next_waits hpending hs' hresults rfl⟩, rfl⟩

theorem Ready.register (isCancelledError : V → Bool) (nil : V)
    (h : s.Ready fs predicate results)
    (hreg : s.inputs.toRegister = y :: rest) :
    ∃ es s', exec (step fs predicate isCancelledError nil) s es = some s' ∧
      s'.Ready fs predicate results ∧ s'.inputs.toRegister = rest := by
  obtain ⟨x, hx⟩ : ∃ x, s.inputs.register fs anyCallbacks = some x := by
    simp only [Inputs.register, hreg, h.free, if_true]
    split <;> exact ⟨_, rfl⟩
  have hstep : s.step fs predicate isCancelledError nil .register =
      some { s with inputs := x } := by
    rw [WhenAny.step, hx]
    rfl
  have hinv := h.inv.step hstep (by simp)
  obtain ⟨k, j, rest', hreg', ⟨-, rfl⟩ | ⟨r, hr, -, rfl⟩⟩ := Inputs.register_eq_some hx
  · cases hreg.symm.trans hreg'
    refine ⟨[.register], _, exec_cons.mpr ⟨_, hstep, rfl⟩, ?_, rfl⟩
    exact ⟨hinv, h.closing, h.nf, (s.inputs.result_registered k j rest).trans h.result,
      h.delivered, h.select⟩
  · cases hreg.symm.trans hreg'
    obtain ⟨s', hdeliver, hready, hrest⟩ := deliver hunmatched hpending isCancelledError
      nil h hinv (s.inputs.result_registered k j rest) hr rfl
    exact ⟨[.register, .deliver j], s',
      exec_cons.mpr ⟨_, hstep, exec_cons.mpr ⟨_, hdeliver, rfl⟩⟩, hready, hrest⟩

/-- The registrar gets to its end with the collector waiting for the pending input. -/
theorem Ready.registered (isCancelledError : V → Bool) (nil : V) :
    ∀ {regs : List (Kind × Fin (m + 1))} {s : WhenAny ι V E m},
    s.Ready fs predicate results → s.inputs.toRegister = regs →
      ∃ es s', exec (step fs predicate isCancelledError nil) s es = some s' ∧
        s'.Ready fs predicate results ∧ s'.inputs.toRegister = []
  | [], s, h, hreg => ⟨[], s, rfl, h, hreg⟩
  | _ :: regs, s, h, hreg => by
    obtain ⟨es, s₁, hes, h₁, hreg₁⟩ :=
      register hunmatched hpending isCancelledError nil h hreg
    obtain ⟨es', s', hes', h', hreg'⟩ := registered isCancelledError nil h₁ hreg₁
    exact ⟨es ++ es', s', exec_append.mpr ⟨s₁, hes, hes'⟩, h', hreg'⟩

end

theorem unCancelled_pos (rs : Fin (m + 1) → Slot V E) :
    unCancelled isCancelledError (List.ofFn (Function.update rs 0 .nil)) > 0 := by
  rw [unCancelled, gt_iff_lt, List.countP_pos_iff]
  exact ⟨.nil, (List.mem_ofFn' _ _).mpr ⟨0, Function.update_self ..⟩, rfl⟩

/-- From a closed channel the collector receives until it rejects the combined Future. -/
theorem zeros_reject (fs : Fin (m + 1) → ι) (predicate isCancelledError : V → Bool)
    (nil : V) : ∀ {d c : Nat} {s : WhenAny ι V E m}, c + d = m →
    s.collector = .select c → s.failsClosed = true → s.nf = none →
      ∃ es s' e, exec (step fs predicate isCancelledError nil) s es = some s' ∧
        s'.nf = some (.failure e) ∧ s'.inputs = s.inputs := by
  intro d
  induction d with
  | zero =>
    intro c s hcd hc hfails hnf
    obtain rfl : c = m := by omega
    obtain ⟨e, s₁, hstep, hsettle, hnf₁, hinputs⟩ : ∃ e s₁,
        s.step fs predicate isCancelledError nil .zeroFail = some s₁ ∧
          s₁.collector = .settle (.failure e) ∧ s₁.nf = none ∧ s₁.inputs = s.inputs := by
      by_cases hm : c = 0
      · refine ⟨[.nil], { s with collector := .settle (.failure [.nil]) }, ?_, rfl, hnf, rfl⟩
        simp [WhenAny.step, hc, hfails, receiveFail, hm]
      · refine ⟨List.ofFn (Function.update s.rs 0 .nil), { s with
          rs := Function.update s.rs 0 .nil
          collector := .settle (.failure (List.ofFn (Function.update s.rs 0 .nil))) },
          ?_, rfl, hnf, rfl⟩
        simp only [WhenAny.step, hc, hfails, if_true, receiveFail, hm, if_false, nextSelect,
          unCancelled_pos]
    refine ⟨[.zeroFail, .collect], { s₁ with nf := some (.failure e), collector := .closeFails },
      e, exec_cons.mpr ⟨s₁, hstep, exec_cons.mpr ⟨_, ?_, rfl⟩⟩, rfl, hinputs⟩
    simp [WhenAny.step, WhenAny.collect, hsettle, hnf₁]
  | succ d ih =>
    intro c s hcd hc hfails hnf
    have hstep : s.step fs predicate isCancelledError nil .zeroFail = some { s with
        rs := Function.update s.rs 0 .nil, collector := .select (c + 1) } := by
      have hm : m ≠ 0 := by omega
      have hlast : c ≠ m := by omega
      simp [WhenAny.step, hc, hfails, receiveFail, hm, nextSelect, hlast]
    have hnext : c + 1 + d = m := by omega
    obtain ⟨es, s', e, hes, hnf', hinputs⟩ := @ih (c + 1)
      { s with rs := Function.update s.rs 0 .nil, collector := .select (c + 1) } hnext rfl hfails
      hnf
    exact ⟨.zeroFail :: es, s', e, exec_cons.mpr ⟨_, hstep, hes⟩, hnf', hinputs⟩

/-- With a pending input and no match at the call, the combined Future can be rejected before the
pending input has finished. -/
theorem rejects_of_not_safe (isCancelledError : V → Bool) (nil : V)
    (hnot : ¬Safe fs predicate results) :
    ∃ es s e j, exec (step fs predicate isCancelledError nil) (start results : WhenAny ι V E m) es =
      some s ∧ s.nf = some (.failure e) ∧ s.input fs j = none := by
  obtain ⟨hmatched, hsettled⟩ := not_or.mp hnot
  obtain ⟨pending, hpending⟩ := not_forall.mp hsettled
  have hunmatched : ∀ j v, results (fs j) = some (.success v) → predicate v = false := by
    intro j v hv
    by_contra hp
    exact hmatched ⟨j, v, hv, by simpa using hp⟩
  have hpending := not_not.mp hpending
  obtain ⟨es, s, hes, hready, hreg⟩ := Ready.registered hunmatched hpending
    isCancelledError nil ⟨inv_start fs predicate results, rfl, rfl, rfl, nofun, 0, rfl⟩ rfl
  obtain ⟨c, hc⟩ := hready.select
  have hlt := (hready.inv.waiting c hc).lt
  have hclose : s.step fs predicate isCancelledError nil .close =
      some { s with failsClosed := true, closing := .closedFails } := by
    simp [WhenAny.step, WhenAny.close, hready.closing, hreg, hready.free]
  have hleft : c + (m - c) = m := by omega
  obtain ⟨es', s', e, hes', hnf, hinputs⟩ := @zeros_reject ι V E m _ fs predicate
    isCancelledError nil (m - c) c { s with failsClosed := true, closing := .closedFails } hleft hc
    rfl hready.nf
  refine ⟨es ++ .close :: es', s', e, pending,
    exec_append.mpr ⟨s, hes, exec_cons.mpr ⟨_, hclose, hes'⟩⟩, hnf, ?_⟩
  rw [input, hinputs]
  exact (congrFun hready.result (fs pending)).trans hpending

end

/-! ## Runs end -/

/-- A bound on the steps that all goroutines still take. -/
def measure (s : WhenAny ι V E m) : Nat :=
  s.inputs.toRegister.length + ∑ j, anyWeight (s.inputs.running j) + s.collector.weight +
    s.closing.weight

/-- The collector has made progress from `select c`. -/
structure Received (c : Nat) (s s' : WhenAny ι V E m) : Prop where
  inputs : s'.inputs = s.inputs
  closing : s'.closing = s.closing
  weight : s'.collector.weight < (.select c : Collector V E m).weight
  select : ∀ c', s'.collector = .select c' → c' < m + 1

theorem received_next (hc : c < m + 1) (rs : Fin (m + 1) → Slot V E) :
    s.Received c { s with rs := rs, collector := nextSelect isCancelledError rs c } := by
  refine ⟨rfl, rfl, ?_, fun c' hc' => ?_⟩
  · show (nextSelect isCancelledError rs c).weight < _
    rw [nextSelect]
    split
    · show 3 < m + 6 + (m + 1 - c)
      omega
    · show m + 6 + (m + 1 - (c + 1)) < m + 6 + (m + 1 - c)
      omega
  · change nextSelect isCancelledError rs c = .select c' at hc'
    rw [nextSelect] at hc'
    split at hc' <;> cases hc'
    omega

theorem received_settle (c : Nat) (o : AnyResult V E) :
    s.Received c { s with collector := .settle o } := by
  refine ⟨rfl, rfl, ?_, nofun⟩
  show 3 < m + 6 + (m + 1 - c)
  omega

theorem received_done (hc : c < m + 1) (v : V) (k : Fin (m + 1)) :
    s.Received c (s.receiveDone predicate isCancelledError c v k) := by
  rw [receiveDone]
  split
  · exact received_settle c _
  · split
    · refine ⟨rfl, rfl, ?_, nofun⟩
      show (List.finRange (m + 1)).length + 4 < m + 6 + (m + 1 - c)
      rw [List.length_finRange]
      omega
    · exact received_next hc _

theorem received_fail (hc : c < m + 1) (x : Slot V E) (k : Fin (m + 1)) :
    s.Received c (s.receiveFail isCancelledError c x k) := by
  rw [receiveFail]
  split
  · exact received_settle c _
  · exact received_next hc _

theorem sum_anyWeight_advance (p' : AnyStep V E) (hk : x.running k = some (t, p))
    (hp : anyWeight (some (t, p)) = 1) (hp' : anyWeight (some (t, p')) = 0) :
    ∑ j, anyWeight ((x.advance k t p').running j) + 1 = ∑ j, anyWeight (x.running j) := by
  have hsum := sum_update_running anyWeight x.running k (some (t, p'))
  rw [hk, hp, hp'] at hsum
  exact hsum

theorem measure_start (results : ι → Option (Result V E)) :
    (start results : WhenAny ι V E m).measure = 7 * m + 14 := by
  have hregs : (allRegistrations (m + 1)).length = 3 * (m + 1) := by
    simp [allRegistrations, List.length_flatMap, Nat.mul_comm]
  have hsum : ∑ j : Fin (m + 1),
      anyWeight ((start results : WhenAny ι V E m).inputs.running j) = (m + 1) * 2 := by
    simp [WhenAny.start, Inputs.start, anyWeight]
  rw [measure, hsum, show (start results : WhenAny ι V E m).inputs.toRegister =
    allRegistrations (m + 1) from rfl, hregs]
  simp only [WhenAny.start, Collector.weight, Closing.weight]
  omega

variable [DecidableEq ι] {e : AnyEvent ι V E m}

/-- What the bound rests on, whether the call is safe or not. -/
structure Bounded (fs : Fin (m + 1) → ι) (s : WhenAny ι V E m) : Prop where
  tracks : ∃ regs, Tracks fs s.inputs regs
  select : ∀ c, s.collector = .select c → c < m + 1

section

variable (h : s.Bounded fs)
include h

theorem Bounded.starts (hx : s.inputs.Starts fs anyCallbacks x ∧ ∃ regs, Tracks fs x regs) :
    (s.setInputs x).Bounded fs ∧ 1 + (s.setInputs x).measure ≤ s.measure := by
  refine ⟨⟨hx.2, h.select⟩, ?_⟩
  have hle := hx.1.lighter anyWeight fun j t r => by cases r <;> exact Nat.one_lt_two
  simp only [measure]
  omega

theorem Bounded.deliver (hc : s.collector = .select c) (hk : s.inputs.running k = some (t, p))
    (hp : anyWeight (some (t, p)) = 1)
    (hs' : Received c (s.setInputs (s.inputs.advance k t .delivered)) s') :
    s'.Bounded fs ∧ 1 + s'.measure ≤ s.measure := by
  obtain ⟨regs, htracks⟩ := h.tracks
  refine ⟨⟨⟨regs, ?_⟩, hs'.select⟩, ?_⟩
  · rw [hs'.inputs]
    exact htracks.advance (by rw [hk]; nofun) t _
  · have hsum := sum_anyWeight_advance .delivered hk hp rfl
    have hweight := hs'.weight
    rw [measure, measure, hs'.inputs, hs'.closing, hc]
    simp only [show (s.inputs.advance k t .delivered).toRegister = s.inputs.toRegister from rfl]
    omega

theorem Bounded.zero (hc : s.collector = .select c) (hs' : s.Received c s') :
    s'.Bounded fs ∧ 1 + s'.measure ≤ s.measure := by
  refine ⟨⟨by rw [hs'.inputs]; exact h.tracks, hs'.select⟩, ?_⟩
  have hweight := hs'.weight
  rw [measure, measure, hs'.inputs, hs'.closing, hc]
  omega

theorem Bounded.drop (hk : s.inputs.running k = some (t, p))
    (hp : anyWeight (some (t, p)) = 1) :
    (s.setInputs (s.inputs.advance k t .dropped)).Bounded fs ∧
      1 + (s.setInputs (s.inputs.advance k t .dropped)).measure ≤ s.measure := by
  obtain ⟨regs, htracks⟩ := h.tracks
  refine ⟨⟨⟨regs, htracks.advance (by rw [hk]; nofun) t _⟩, h.select⟩, ?_⟩
  have hsum := sum_anyWeight_advance .dropped hk hp rfl
  rw [measure, measure]
  simp only [show (s.inputs.advance k t .dropped).toRegister = s.inputs.toRegister from rfl]
  omega

theorem Bounded.collect (hstep : s.collect fs = some s') :
    s'.Bounded fs ∧ 1 + s'.measure ≤ s.measure := by
  obtain ⟨regs, htracks⟩ := h.tracks
  rw [WhenAny.collect] at hstep
  split at hstep
  case h_1 | h_2 => cases hstep
  case h_4 v k ks hc =>
    cases hstep
    refine ⟨⟨⟨regs, htracks.settle (fs k) .cancelled⟩, by simp⟩, ?_⟩
    simp only [measure, Inputs.settle, hc, Collector.weight, List.length_cons]
    omega
  all_goals
    rename_i hc
    cases hstep
    refine ⟨⟨h.tracks, by simp⟩, ?_⟩
    simp only [measure, hc, Collector.weight, List.length_nil]
    omega

theorem Bounded.close (hstep : s.close = some s') :
    s'.Bounded fs ∧ 1 + s'.measure ≤ s.measure := by
  rw [WhenAny.close] at hstep
  split at hstep
  case h_1 hclosing =>
    split at hstep
    case isFalse => cases hstep
    case isTrue =>
      cases hstep
      refine ⟨⟨h.tracks, h.select⟩, ?_⟩
      simp only [measure, hclosing, Closing.weight]
      omega
  case h_2 hclosing =>
    cases hstep
    refine ⟨⟨h.tracks, h.select⟩, ?_⟩
    simp only [measure, hclosing, Closing.weight]
    omega
  case h_3 => cases hstep

/-- A step of a goroutine decreases the measure. -/
theorem Bounded.step (hstep : s.step fs predicate isCancelledError nil e = some s') :
    s'.Bounded fs ∧ e.internal.toNat + s'.measure ≤ s.measure := by
  obtain ⟨regs, htracks⟩ := h.tracks
  cases e with
  | settle i r =>
    cases hstep
    exact ⟨⟨⟨regs, htracks.settle i r⟩, h.select⟩, (Nat.zero_add _).le⟩
  | register =>
    obtain ⟨x, hx, rfl⟩ := Option.map_eq_some_iff.mp hstep
    exact h.starts (htracks.register hx)
  | notify i =>
    obtain ⟨x, hx, rfl⟩ := Option.map_eq_some_iff.mp hstep
    exact h.starts (htracks.notify hx)
  | deliver k =>
    rw [WhenAny.step] at hstep
    split at hstep
    case h_1 c t v hc hk =>
      split at hstep <;> cases hstep
      exact h.deliver hc hk rfl (received_done (h.select c hc) v k)
    case h_2 c t x hc hk =>
      split at hstep <;> cases hstep
      exact h.deliver hc hk rfl (received_fail (h.select c hc) x k)
    case h_3 => cases hstep
  | drop k =>
    rw [WhenAny.step] at hstep
    split at hstep
    case h_1 t v hk =>
      split at hstep <;> cases hstep
      exact h.drop hk rfl
    case h_2 t x hk =>
      split at hstep <;> cases hstep
      exact h.drop hk rfl
    case h_3 => cases hstep
  | zeroFail =>
    rw [WhenAny.step] at hstep
    split at hstep
    case h_1 c hc =>
      split at hstep <;> cases hstep
      exact h.zero hc (received_fail (h.select c hc) .nil 0)
    case h_2 => cases hstep
  | zeroDone =>
    rw [WhenAny.step] at hstep
    split at hstep
    case h_1 c hc =>
      split at hstep <;> cases hstep
      exact h.zero hc (received_done (h.select c hc) nil 0)
    case h_2 => cases hstep
  | close => exact h.close hstep
  | collect => exact h.collect hstep

end

end WhenAny

variable (fs predicate isCancelledError nil) [DecidableEq ι]

/-- The law holds in all runs of `WhenAnyMatched` exactly if at the time of the call an input is
resolved with a match or none is pending.  All runs come to an end, the goroutines take at most
`7 * m + 14` steps for `m + 1` inputs. -/
theorem whenAny_lawful_iff (results : ι → Option (Result V E)) :
    ((∀ es s, exec (WhenAny.step fs predicate isCancelledError nil)
        (WhenAny.start results : WhenAny ι V E m) es = some s →
        s.Lawful fs predicate isCancelledError nil) ↔ Safe fs predicate results) ∧
    ∀ es s, exec (WhenAny.step fs predicate isCancelledError nil)
      (WhenAny.start results : WhenAny ι V E m) es = some s →
        es.countP AnyEvent.internal ≤ 7 * m + 14 := by
  refine ⟨⟨fun hlawful => ?_, fun hsafe es s hrun => ?_⟩, fun es s hrun => ?_⟩
  · by_contra hnot
    obtain ⟨es, s, e, j, hrun, hnf, hj⟩ := WhenAny.rejects_of_not_safe isCancelledError nil hnot
    obtain ⟨r, hr, -⟩ := (hlawful es s hrun).rejected e hnf j
    cases hj.symm.trans hr
  · have hstep : ∀ {s s' : WhenAny ι V E m} {e}, s.Inv fs predicate results →
        s.step fs predicate isCancelledError nil e = some s' → s'.Inv fs predicate results :=
      fun h hstep => h.step hstep fun _ => hsafe
    exact (exec_invariant hstep (WhenAny.inv_start fs predicate results) hrun).lawful
  · have hstep : ∀ (s : WhenAny ι V E m) e s', s.Bounded fs →
        s.step fs predicate isCancelledError nil e = some s' →
        s'.Bounded fs ∧ e.internal.toNat + s'.measure ≤ s.measure :=
      fun _ _ _ h hstep => h.step hstep
    have hstart : (WhenAny.start results : WhenAny ι V E m).Bounded fs := by
      refine ⟨⟨[], tracks_start fs results⟩, fun c hc => ?_⟩
      cases hc
      exact Nat.succ_pos m
    have hle := exec_countP_le hstep hstart hrun
    rw [WhenAny.measure_start] at hle
    omega

/-- A single pending input: the registrar closes the channels, the collector receives the zero
value and rejects the combined Future, and then the input is resolved with a match. -/
theorem whenAny_rejects_pending :
    (exec (WhenAny.step id (fun _ => true) (fun _ => false) 0)
      (WhenAny.start fun _ => none : WhenAny (Fin 1) Nat String 0)
      [.register, .register, .register, .close, .zeroFail, .collect, .settle 0 (.success 7)]).map
        (fun s => (s.nf, s.input id 0)) =
      some (some (.failure [.nil]), some (.success 7)) := rfl

end Gofusion.Routine
