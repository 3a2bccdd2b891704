import Gofusion.Payload.Unseal
import Gofusion.Lib.Format
import Mathlib.Data.List.AList

/-!
# The cache

`cache/cache.go` over a provider, and the local provider of `cache/local.go`.

A value is stored as it is, or sealed if the cache has a serialize or compress type.  What is read
is unsealed if it is a byte slice or a string that looks like a sealed payload.

A Go map is an `AList`.  Its order is not fixed in Go, and here it is the order of the entries.
Cloning keeps a value, so `cloneVal` is only the assertion that the value has its type.  The
provider returns, and it reports keys that it could not store or delete.  Logging is left out.
-/

namespace Gofusion.Cache

open Gofusion.Payload Gofusion.Utils Gofusion.Lib

abbrev GoMap (K V : Type) := AList fun _ : K => V

/-- How keys are texts: `cast.ToString`, and `utils.SortableToGeneric` from a string, which
panics for a key type it does not know.  A key that comes out of a text is read back. -/
structure KeyTexts (K : Type) where
  toText : K → Text
  ofText : Text → Except Panic K
  idem : ∀ k k', ofText (toText k) = .ok k' → ofText (toText k') = .ok k'

/-- `parsedConf`.  With a compress type there is always a serialize type.  Durations are in
nanoseconds. -/
structure ParsedConf where
  expired : Int := 0
  version : Int := 0
  serializeType : SerializeType := ⟨0⟩
  compressType : CompressType := ⟨0⟩
  serializes : compressType.isValid = true → serializeType.isValid = true := by decide

/-- `option`. -/
structure SetOption (K : Type) where
  expired : Int := 0
  keyExpired : GoMap K Int := ∅

abbrev Callback (K O : Type) := List K → GoMap K (Data O) × SetOption K

end Gofusion.Cache

namespace Gofusion

open Gofusion.Payload Gofusion.Cache

/-- `cache` with its configuration.  `base` is the name of the application and of the cache,
and `valueType` is the type parameter `T`. -/
structure Cache (T O K : Type) where
  codecs : Codecs T O
  keys : KeyTexts K
  base : Text
  valueType : DataType T
  conf : ParsedConf
  callback : Option (Callback K O) := none

end Gofusion

namespace Gofusion.Cache

open Gofusion.Payload Gofusion.Utils Gofusion.Lib

/-- `provider`.  `get` says what is stored under an inner key, `set` and `del` also return the
keys that failed. -/
structure Provider (σ O : Type) where
  get : σ → Text → Option (Data O)
  set : σ → GoMap Text (Data O) → GoMap Text Int → σ × List Text
  del : σ → List Text → σ × List Text

variable {T O K σ : Type}

/-- `gCache`, as the entries that are neither expired nor evicted. -/
def gCache : Provider (GoMap Text (Data O)) O where
  get store key := store.lookup key
  set store kvs _ := (kvs ∪ store, [])
  del store keys := (keys.foldl (fun store key => store.erase key) store, [])

section

variable (c : Cache T O K)

/-! ## Keys -/

/-- What stands before the key in an inner key. -/
def head : Text := c.base ++ ':' :: (Format.padInt false 0 c.conf.version ++ [':'])

def convKeyToInner (k : K) : Text := c.head ++ c.keys.toText k

/-- `strings.TrimPrefix`. -/
def trimHead (head s : Text) : Text := if head.isPrefixOf s then s.drop head.length else s

def convInnerToKey (inner : Text) : Except Panic K := c.keys.ofText (trimHead c.head inner)

/-! ## Values -/

/-- An assertion `x.(T)`.  A nil pointer has its type, and `nil` has no type. -/
def assertType [DecidableEq T] (d : Data O) : Except Panic (Data O) :=
  match c.valueType, d with
  | .bytes, .bytes _ | .string, .string _ => .ok d
  | .any, .bytes _ | .any, .string _ | .any, .object _ => .ok d
  | .object _, .nil => .ok d
  | .object t, .object o => if c.codecs.type o = t then .ok d else .error .typeAssertion
  | _, _ => .error .typeAssertion

def cloneVal [DecidableEq T] (d : Data O) : Except Panic (Data O) := c.assertType d

/-- The options of `seal`. -/
def sealOptions : Options T where
  serializeType := c.conf.serializeType
  compressType := c.conf.compressType

def convValToInner [DecidableEq T] (src : Data O) : Except Panic (Except Err (Data O)) :=
  if !c.conf.serializeType.isValid && !c.conf.compressType.isValid then do
    return .ok (← c.cloneVal src)
  else do
    return (← sealData c.codecs c.sealOptions src).map .bytes

/-- `convInnerToVal` for a byte slice or a string. -/
def unsealVal [DecidableEq T] (src : Data O) (srcBytes : Bytes) :
    Except Panic (Except Err (Data O)) := do
  let r ← unsealT c.codecs {} c.valueType srcBytes
  match r.err with
  | some e => return .error e
  | none => if r.ok then return .ok r.dst else return .ok (← c.cloneVal (← c.assertType src))

def convInnerToVal [DecidableEq T] (src : Data O) : Except Panic (Except Err (Data O)) :=
  match src with
  | .bytes b | .string b => c.unsealVal src b
  | _ => do return .ok (← c.cloneVal (← c.assertType src))

/-! ## Maps -/

/-- The loop of `convMapToInner`. -/
def convEntriesToInner [DecidableEq T] :
    List (Σ _ : K, Data O) → Except Panic (GoMap Text (Data O) × List Text)
  | [] => .ok (∅, [])
  | ⟨k, v⟩ :: kvs => do
    let r ← c.convValToInner v
    let (inner, failed) ← convEntriesToInner kvs
    match r with
    | .error _ => return (inner, c.convKeyToInner k :: failed)
    | .ok d => return (inner.insert (c.convKeyToInner k) d, failed)

def convMapToInner [DecidableEq T] (kvs : GoMap K (Data O)) :
    Except Panic (GoMap Text (Data O) × List Text) :=
  c.convEntriesToInner kvs.entries

/-- The loop of `convInnerToMap`. -/
def convEntriesToMap [DecidableEq T] [DecidableEq K] :
    List (Σ _ : Text, Data O) → Except Panic (GoMap K (Data O) × List Text)
  | [] => .ok (∅, [])
  | ⟨inner, d⟩ :: entries => do
    let k ← c.convInnerToKey inner
    let r ← c.convInnerToVal d
    let (kvs, failed) ← convEntriesToMap entries
    match r with
    | .error _ => return (kvs, inner :: failed)
    | .ok v => return (kvs.insert k v, failed)

def convInnerToMap [DecidableEq T] [DecidableEq K] (inner : GoMap Text (Data O)) :
    Except Panic (GoMap K (Data O) × List Text) :=
  c.convEntriesToMap inner.entries

def expireAll (keys : List K) (e : Int) (exp : GoMap Text Int) : GoMap Text Int :=
  keys.foldl (fun exp k => exp.insert (c.convKeyToInner k) e) exp

/-- `parseCallbackOption`.  With an expiry in the options it is the one of the configuration
that is written. -/
def parseCallbackOption (kvs : GoMap K (Data O)) (opt : SetOption K) : GoMap Text Int :=
  let exp := if 0 < c.conf.expired then c.expireAll kvs.keys c.conf.expired ∅ else ∅
  let exp := if 0 < opt.expired then c.expireAll kvs.keys c.conf.expired exp else exp
  opt.keyExpired.entries.foldl (fun exp e => exp.insert (c.convKeyToInner e.1) e.2) exp

end

/-! ## Calls -/

/-- A map with what the provider has of an inner key. -/
def Provider.collect (p : Provider σ O) (store : σ) (m : GoMap Text (Data O)) (key : Text) :
    GoMap Text (Data O) :=
  match p.get store key with
  | some d => m.insert key d
  | none => m

/-- What the provider has of some inner keys. -/
def Provider.cached (p : Provider σ O) (store : σ) (innerKeys : List Text) : GoMap Text (Data O) :=
  innerKeys.foldl (p.collect store) ∅

/-- What the provider does not have of them. -/
def Provider.missed (p : Provider σ O) (store : σ) (innerKeys : List Text) : List Text :=
  innerKeys.filter fun key => (p.get store key).isNone

/-- The state of a cache: what the provider holds, and the inner keys in `visited`. -/
structure State (σ : Type) where
  store : σ
  visited : List Text := []

/-- The part that `Get` and `GetAll` share: the values, the keys the callback was called with,
the inner keys that were stored, and what the provider holds then. -/
structure Loaded (O K σ : Type) where
  kvs : GoMap K (Data O)
  called : Option (List K)
  stored : List Text
  store : σ

/-- What `Get` and `GetAll` return, and what they did. -/
structure Outcome (O K σ : Type) where
  values : List (Data O)
  called : Option (List K)
  stored : List Text
  state : State σ

section

variable [DecidableEq T] [DecidableEq K] (c : Cache T O K) (p : Provider σ O)

/-- The values of some inner keys, from the provider and from the callback. -/
def load (store : σ) (innerKeys : List Text) (cb : Option (Callback K O)) :
    Except Panic (Loaded O K σ) := do
  let (kvs, _) ← c.convInnerToMap (p.cached store innerKeys)
  let missed := p.missed store innerKeys
  match cb with
  | none => return ⟨kvs, none, [], store⟩
  | some cb =>
    if missed = [] then return ⟨kvs, none, [], store⟩
    else
      let keys ← missed.mapM c.convInnerToKey
      let (callbackKVs, opt) := cb keys
      let kvs := callbackKVs ∪ kvs
      let (innerVals, _) ← c.convMapToInner callbackKVs
      let (store, _) := p.set store innerVals (c.parseCallbackOption kvs opt)
      return ⟨kvs, some keys, innerVals.keys, store⟩

def get (s : State σ) (keys : List K) (cb : Option (Callback K O)) :
    Except Panic (Outcome O K σ) := do
  let innerKeys := keys.map c.convKeyToInner
  let r ← c.load p s.store innerKeys (cb <|> c.callback)
  return {
    values := keys.filterMap fun k => r.kvs.lookup k
    called := r.called
    stored := r.stored
    state := ⟨r.store, s.visited ∪ innerKeys⟩ }

def getAll (s : State σ) (cb : Option (Callback K O)) : Except Panic (Outcome O K σ) := do
  let r ← c.load p s.store s.visited (cb <|> c.callback)
  let keys ← s.visited.mapM c.convInnerToKey
  let missedKeys := keys.filter fun k => (r.kvs.lookup k).isNone
  return {
    values := keys.filterMap fun k => r.kvs.lookup k
    called := r.called
    stored := r.stored
    state := ⟨r.store, s.visited.removeAll (missedKeys.map c.convKeyToInner)⟩ }

/-- `Set`: the keys that failed, the inner keys that were handed to the provider, and the
state. -/
def set (s : State σ) (kvs : GoMap K (Data O)) (opt : SetOption K) :
    Except Panic (List K × List Text × State σ) := do
  let (innerVals, innerFailureKeys) ← c.convMapToInner kvs
  let (store, failed) := p.set s.store innerVals (c.parseCallbackOption kvs opt)
  let failure ← (innerFailureKeys ++ failed).mapM c.convInnerToKey
  return (failure, innerVals.keys, ⟨store, s.visited ∪ innerVals.keys⟩)

/-- `del` of the provider, with the keys that failed. -/
def delInner (s : State σ) (innerKeys : List Text) : Except Panic (List K × State σ) := do
  let (store, failed) := p.del s.store innerKeys
  let failure ← failed.mapM c.convInnerToKey
  return (failure, ⟨store, s.visited.removeAll innerKeys⟩)

def del (s : State σ) (keys : List K) : Except Panic (List K × State σ) :=
  c.delInner p s (keys.map c.convKeyToInner)

def clear (s : State σ) : Except Panic (List K × State σ) := c.delInner p s s.visited

end

end Gofusion.Cache
