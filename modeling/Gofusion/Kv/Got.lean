import Gofusion.Kv.Redis
import Gofusion.Kv.Zk
import Gofusion.Utils.Panic

/-!
# Absence and failure

`Get` of the four stores and the `Err` of its result.  Each store has its own sign that nothing was
found: no response, no pair, no stat, or the error `redis.Nil`.  A call that fails has no response
either.
-/

namespace Gofusion.Kv

open Gofusion.Utils

/-- What a call of `Get` meets. -/
inductive Outcome
  | matched
  | absent
  | failed (e : Err)
deriving DecidableEq

namespace Outcome

/-- What `Err` should return. -/
def err : Outcome → Option Err
  | .matched => none
  | .absent => some .nilValue
  | .failed e => some e

/-- An error, where one error stands for a key that is not there. -/
def ofErr (nothing e : Err) : Outcome := if e = nothing ∨ e = .nilValue then .absent else .failed e

/-- A reply, where also some replies stand for a key that is not there. -/
def of {α : Type} (nothing : Err) (found : α → Bool) : Except Err α → Outcome
  | .error e => ofErr nothing e
  | .ok a => if found a then .matched else .absent

end Outcome

/-! ## etcd -/

structure EtcdGetValue where
  rsp : Option (List (KeyValue Text))
  err : Option Err

/-- `Err`. -/
def EtcdGetValue.getErr (v : EtcdGetValue) : Option Err :=
  if v.rsp.getD [] = [] then some .nilValue else v.err

/-- The `Get` of the client. -/
abbrev EtcdClient := Text → Options → Except Err (List (KeyValue Text))

/-- `Get`. -/
def EtcdClient.getKV (c : EtcdClient) (key : Text) (opt : Options) : EtcdGetValue :=
  { rsp := (c key opt).toOption, err := errOf (c key opt) }

def EtcdClient.outcome (c : EtcdClient) (key : Text) (opt : Options) : Outcome :=
  .of .nilValue (· ≠ []) (c key opt)

/-! ## Consul -/

/-- The client.  A list without pairs is `nil`. -/
structure ConsulClient where
  get : Text → Except Err (Option (KeyValue Text))
  keys : Text → Except Err (List Text)
  list : Text → Except Err (List (KeyValue Text))

structure ConsulGetValue where
  pair : Option (KeyValue Text) := none
  multi : Option (List (KeyValue Text)) := none
  err : Option Err

/-- `Err`. -/
def ConsulGetValue.getErr (v : ConsulGetValue) : Option Err :=
  if v.pair.isNone && v.multi.isNone then some .nilValue else v.err

namespace ConsulClient

variable (c : ConsulClient) (key : Text) (opt : Options)

/-- `Get`.  With keys only and no prefix it writes to the pair, which may be `nil`. -/
def getKV : Except Panic ConsulGetValue :=
  if !opt.withPrefix then
    let pair := (c.get key).toOption.join
    if !opt.withKeysOnly then .ok { pair, err := errOf (c.get key) }
    else
      match pair with
      | none => .error .nilDereference
      | some pair => .ok { pair := some { pair with val := none }, err := errOf (c.get key) }
  else if opt.withKeysOnly then
    .ok { multi := some (((c.keys key).toOption.getD []).map (⟨·, none⟩)), err := errOf (c.keys key) }
  else
    let pairs := (c.list key).toOption.getD []
    .ok { multi := if pairs = [] then none else some pairs, err := errOf (c.list key) }

def outcome : Outcome :=
  if !opt.withPrefix then .of .nilValue Option.isSome (c.get key)
  else if opt.withKeysOnly then .of .nilValue (· ≠ []) (c.keys key)
  else .of .nilValue (· ≠ []) (c.list key)

end ConsulClient

/-! ## Redis -/

/-- `Err`. -/
def RedisGetValue.getErr (v : RedisGetValue) : Option Err :=
  if v.err = some .rdsNil then some .nilValue else v.err

def RedisConn.outcome (c : RedisConn) (key : Text) (opt : Options) : Outcome :=
  if !opt.withPrefix then
    if !opt.withKeysOnly then (errOf (c.get key)).elim .matched (.ofErr .rdsNil)
    else .of .rdsNil (0 < ·) (c.count key)
  else
    match c.keys (patternOf key) with
    | .error e => .ofErr .rdsNil e
    | .ok [] => .absent
    | .ok keys => if opt.withKeysOnly then .matched
      else (errOf (c.mget keys)).elim .matched (.ofErr .rdsNil)

/-! ## ZooKeeper -/

/-- `zkGetValue`, with whether there is a stat. -/
structure ZkGetValue where
  hasStat : Bool
  err : Option Err

/-- `Err`. -/
def ZkGetValue.getErr (v : ZkGetValue) : Option Err :=
  if !v.hasStat || v.err = some .noNode then some .nilValue else v.err

namespace ZkConn

variable (z : ZkConn) (present : Text → Except Err Bool) (fuel : Nat) (key : Text) (opt : Options)

def synced : Option Err := if opt.withConsistency then errOf (z.sync 0 key) else none

def readErr (keys : List Text) : Option Err :=
  if opt.withKeysOnly then none else keys.findSome? fun k => errOf (z.get keys.length k)

/-- `Get`.  `Exists` has a stat also for a key that is not there.  With a prefix the stat is the one
of the first path, so a failure is seen from the second path on. -/
def getKV : Option ZkGetValue :=
  match z.synced key opt with
  | some e => some { hasStat := false, err := some e }
  | none =>
    if !opt.withPrefix then
      if opt.withKeysOnly then some { hasStat := (present key).isOk, err := errOf (present key) }
      else some { hasStat := (z.get 0 key).isOk, err := errOf (z.get 0 key) }
    else
      (gather z fuel 0 [key]).map fun (keys, err) =>
        { hasStat := err.isNone || 1 < keys.length, err := err.or (z.readErr opt keys) }

def outcome : Option Outcome :=
  match z.synced key opt with
  | some e => some (.ofErr .noNode e)
  | none =>
    if !opt.withPrefix then
      if opt.withKeysOnly then some (.of .noNode id (present key))
      else some ((errOf (z.get 0 key)).elim .matched (.ofErr .noNode))
    else
      (gather z fuel 0 [key]).map fun (keys, err) =>
        (err.or (z.readErr opt keys)).elim .matched (.ofErr .noNode)

end ZkConn

/-! ## What is reported -/

def Outcome.Answered (o : Outcome) : Prop := ∀ e, o ≠ .failed e

namespace Outcome

variable {α : Type} {nothing e : Err} {found : α → Bool} {reply : Except Err α}

theorem err_ofErr : (ofErr nothing e).err = if e = nothing then some .nilValue else some e := by
  unfold ofErr
  split_ifs with h₁ h₂ h₃
  · rfl
  · exact congrArg some (h₁.resolve_left h₂).symm
  · exact absurd (.inl h₃) h₁
  · rfl

theorem err_elim_ofErr {e : Option Err} : (e.elim .matched (ofErr nothing)).err =
    if e = some nothing then some .nilValue else e := by
  cases e with
  | none => rfl
  | some e => simp [err_ofErr]

/-- An error that is reported as an absent key is one only if the call does not fail. -/
theorem err_eq_nilValue_iff : some .nilValue = (ofErr nothing e).err ↔ (ofErr nothing e).Answered := by
  unfold ofErr Answered
  split_ifs with h
  · simp [err]
  · simpa [err] using fun heq => h (.inr heq.symm)

theorem answered_matched : matched.Answered := by simp [Answered]

theorem answered_absent : absent.Answered := by simp [Answered]

end Outcome

/-- etcd reports every failure as an absent key. -/
theorem EtcdClient.getErr_getKV_iff (c : EtcdClient) (key : Text) (opt : Options) :
    (c.getKV key opt).getErr = (c.outcome key opt).err ↔ (c.outcome key opt).Answered := by
  unfold outcome getKV
  rcases c key opt with e | ⟨_ | ⟨kv, kvs⟩⟩
  · exact Outcome.err_eq_nilValue_iff
  · exact iff_of_true rfl Outcome.answered_absent
  · exact iff_of_true rfl Outcome.answered_matched

/-- The calls on Consul that are reported right. -/
def ConsulClient.Tells (c : ConsulClient) (key : Text) (opt : Options) : Prop :=
  match opt.withPrefix, opt.withKeysOnly with
  | false, true => ∃ pair, c.get key = .ok (some pair)
  | true, true => c.keys key ≠ .ok []
  | _, false => (c.outcome key opt).Answered

/-- When Consul reports what happened. -/
theorem ConsulClient.getErr_getKV_iff (c : ConsulClient) (key : Text) (opt : Options) :
    (c.getKV key opt).map ConsulGetValue.getErr = .ok (c.outcome key opt).err ↔ c.Tells key opt := by
  unfold Tells getKV outcome
  cases opt.withPrefix <;> cases opt.withKeysOnly <;>
    simp only [Bool.not_true, Bool.not_false, if_true, Bool.false_eq_true, if_false]
  · rcases c.get key with e | ⟨_ | pair⟩
    · exact (iff_of_eq (Except.ok.injEq _ _)).trans Outcome.err_eq_nilValue_iff
    · exact iff_of_true rfl Outcome.answered_absent
    · exact iff_of_true rfl Outcome.answered_matched
  · rcases c.get key with e | ⟨_ | pair⟩
    · simp [Except.toOption, Except.map]
    · simp [Except.toOption, Except.map]
    · exact iff_of_true rfl ⟨pair, rfl⟩
  · rcases c.list key with e | ⟨_ | ⟨kv, kvs⟩⟩
    · exact (iff_of_eq (Except.ok.injEq _ _)).trans Outcome.err_eq_nilValue_iff
    · exact iff_of_true rfl Outcome.answered_absent
    · exact iff_of_true rfl Outcome.answered_matched
  · rcases c.keys key with e | ⟨_ | ⟨k, ks⟩⟩
    · simp [Outcome.of, Outcome.err_ofErr, Except.map, ConsulGetValue.getErr, errOf]
    · simp [Outcome.of, Outcome.err, Except.map, ConsulGetValue.getErr, errOf]
    · exact iff_of_true rfl (by simp)

/-- Only `EXISTS` of a key that is not there is reported wrong. -/
theorem RedisConn.getErr_getKV_iff (c : RedisConn) (key : Text) (opt : Options) :
    (c.getKV key opt).getErr = (c.outcome key opt).err ↔
      (opt.withPrefix = false → opt.withKeysOnly = true → c.count key ≠ .ok 0) := by
  unfold getKV outcome
  cases opt.withPrefix
  · cases opt.withKeysOnly
    · simpa [RedisGetValue.getErr] using Outcome.err_elim_ofErr.symm
    · rcases c.count key with e | _ | n
      · simp [Outcome.of, Outcome.err_ofErr, RedisGetValue.getErr, errOf]
      · simp [Outcome.of, Outcome.err, RedisGetValue.getErr, errOf]
      · simp [Outcome.of, Outcome.err, RedisGetValue.getErr, errOf]
  · rcases c.keys (patternOf key) with e | ⟨_ | ⟨k, ks⟩⟩
    · simp [Outcome.err_ofErr, RedisGetValue.getErr]
    · simp [Outcome.err, RedisGetValue.getErr]
    · cases opt.withKeysOnly
      · rcases hmget : c.mget (k :: ks) with e | vals
        · simp [hmget, errOf, Outcome.err_ofErr, RedisGetValue.getErr]
        · simp [hmget, errOf, Outcome.err, RedisGetValue.getErr]
      · simp [Outcome.err, RedisGetValue.getErr]

/-- The calls on ZooKeeper that are reported right: what has no stat is not there, and `Exists`
does not find a key missing. -/
def ZkConn.Tells (z : ZkConn) (present : Text → Except Err Bool) (key : Text) (opt : Options) :
    Prop :=
  match z.synced key opt, opt.withPrefix, opt.withKeysOnly with
  | some e, _, _ => (Outcome.ofErr .noNode e).Answered
  | none, false, false => ∀ e, z.get 0 key = .error e → (Outcome.ofErr .noNode e).Answered
  | none, false, true =>
    present key ≠ .ok false ∧ ∀ e, present key = .error e → (Outcome.ofErr .noNode e).Answered
  | none, true, _ => ∀ e, z.children 0 key = .error e → (Outcome.ofErr .noNode e).Answered

/-- A listing that fails is one of a path in the queue. -/
theorem gather_err {keys keys' : List Text}
    (h : gather z fuel i keys = some (keys', some e)) : i < keys'.length := by
  induction fuel generalizing i keys with
  | zero =>
    rw [gather] at h
    split at h <;> cases h
  | succ fuel ih =>
    rw [gather] at h
    split at h
    · cases h
    · next parent hparent =>
      split at h
      · cases h
        exact (List.getElem?_eq_some_iff.mp hparent).1
      · exact Nat.lt_of_succ_lt (ih h)

/-- The queue is the first path alone if its listing fails, and else it is longer when another one
fails. -/
theorem gather_first {z : ZkConn} {keys : List Text} (h : gather z fuel 0 [key] = some (keys, err)) :
    (∃ e, z.children 0 key = .error e ∧ err = some e ∧ keys = [key]) ∨
      (∃ names, z.children 0 key = .ok names) ∧ (err.isNone || 1 < keys.length) = true := by
  cases fuel with
  | zero => cases h
  | succ fuel =>
    cases hchildren : z.children 0 key with
    | error e =>
      simp only [gather, List.getElem?_cons_zero, hchildren] at h
      cases h
      exact .inl ⟨e, rfl, rfl, rfl⟩
    | ok names =>
      simp only [gather, List.getElem?_cons_zero, hchildren] at h
      refine .inr ⟨⟨names, rfl⟩, ?_⟩
      cases err with
      | none => rfl
      | some e => simpa using gather_err h

/-- When ZooKeeper reports what happened. -/
theorem ZkConn.getErr_getKV_iff (z : ZkConn) (present : Text → Except Err Bool) {fuel : Nat}
    (key : Text) (opt : Options)
    (hends : opt.withPrefix = true → (gather z fuel 0 [key]).isSome) :
    (∃ v o, z.getKV present fuel key opt = some v ∧ z.outcome present fuel key opt = some o ∧
      v.getErr = o.err) ↔ z.Tells present key opt := by
  unfold getKV outcome Tells
  cases z.synced key opt with
  | some e => simpa [ZkGetValue.getErr] using Outcome.err_eq_nilValue_iff
  | none =>
    cases hwith : opt.withPrefix
    · cases opt.withKeysOnly
      · rcases z.get 0 key with e | val
        · simpa [ZkGetValue.getErr, Except.isOk, Except.toBool, errOf] using Outcome.err_eq_nilValue_iff
        · simp [ZkGetValue.getErr, Except.isOk, Except.toBool, errOf, Outcome.err]
      · rcases present key with e | _ | _
        · simpa [ZkGetValue.getErr, Except.isOk, Except.toBool, errOf, Outcome.of] using Outcome.err_eq_nilValue_iff
        · simp [ZkGetValue.getErr, Except.isOk, Except.toBool, errOf, Outcome.of, Outcome.err]
        · simp [ZkGetValue.getErr, Except.isOk, Except.toBool, errOf, Outcome.of, Outcome.err]
    · obtain ⟨⟨keys, err⟩, hgather⟩ := Option.isSome_iff_exists.mp (hends hwith)
      simp only [Bool.not_true, Bool.false_eq_true, if_false, hgather, Option.map_some,
        Option.some.injEq, exists_eq_left', exists_and_left, ZkGetValue.getErr]
      rcases gather_first hgather with ⟨e, hfirst, rfl, rfl⟩ | ⟨⟨names, hfirst⟩, hstat⟩
      · simpa [hfirst] using Outcome.err_eq_nilValue_iff
      · simp [hfirst, hstat, Outcome.err_elim_ofErr]

/-- What `Get` reports, where the loop of ZooKeeper ends.  It is right on etcd exactly if the call
does not fail; on Consul if it does not fail, or with keys only for a key that is there, or for a
prefix that is there or a call that fails; on Redis unless `EXISTS` finds nothing; and on ZooKeeper
unless the first call fails otherwise than with `ErrNoNode`, or `Exists` finds nothing. -/
theorem get_reports_iff (key : Text) (opt : Options) :
    (∀ c : EtcdClient, (c.getKV key opt).getErr = (c.outcome key opt).err ↔
      (c.outcome key opt).Answered) ∧
    (∀ c : ConsulClient, (c.getKV key opt).map ConsulGetValue.getErr = .ok (c.outcome key opt).err ↔
      c.Tells key opt) ∧
    (∀ c : RedisConn, (c.getKV key opt).getErr = (c.outcome key opt).err ↔
      (opt.withPrefix = false → opt.withKeysOnly = true → c.count key ≠ .ok 0)) ∧
    ∀ (z : ZkConn) present fuel, (opt.withPrefix = true → (gather z fuel 0 [key]).isSome) →
      ((∃ v o, z.getKV present fuel key opt = some v ∧ z.outcome present fuel key opt = some o ∧
        v.getErr = o.err) ↔ z.Tells present key opt) :=
  ⟨fun c => c.getErr_getKV_iff key opt, fun c => c.getErr_getKV_iff key opt,
    fun c => c.getErr_getKV_iff key opt, fun z present _ => z.getErr_getKV_iff present key opt⟩

/-- A subtree of two paths on ZooKeeper, where all calls succeed. -/
theorem get_reports_oneChild :
    (∃ v o, oneChildConn.getKV (fun _ => .ok true) 2 "/a".toList { withPrefix := true } = some v ∧
      oneChildConn.outcome (fun _ => .ok true) 2 "/a".toList { withPrefix := true } = some o ∧
      v.getErr = o.err) ↔
      oneChildConn.Tells (fun _ => .ok true) "/a".toList { withPrefix := true } :=
  (get_reports_iff "/a".toList { withPrefix := true }).2.2.2 oneChildConn (fun _ => .ok true) 2
    fun _ => rfl

/-- A call on etcd that fails is reported as an absent key, and Consul panics on an absent key. -/
theorem get_hides_failure :
    (EtcdClient.getKV (fun _ _ => .error (.transport ['e'])) ['k'] {}).getErr = some .nilValue ∧
    (EtcdClient.outcome (fun _ _ => .error (.transport ['e'])) ['k'] {}).err =
      some (.transport ['e']) ∧
    (ConsulClient.getKV ⟨fun _ => .ok none, fun _ => .ok [], fun _ => .ok []⟩ ['k']
      { withKeysOnly := true }).map ConsulGetValue.getErr = .error .nilDereference :=
  ⟨rfl, rfl, rfl⟩

end Gofusion.Kv
