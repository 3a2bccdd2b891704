import Gofusion.Context.Propagation
import Gofusion.Lib.Framing

/-!
# Sealed payloads

`internal/util/payload/seal.go` and `types.go`.  A sealed payload is the magic number, eight bytes
of information, and the context, the name of the data's type and the encoded data, each behind its
length.  A byte slice or a string is raw and not serialized.

The serializers, the compressors, gob and the time zone database are parameters.  They
return errors and do not panic.
-/

namespace Gofusion.Payload

open Gofusion.Context Gofusion.Lib Gofusion.Utils

abbrev Bytes := List UInt8

/-! ## Algorithms, types and data -/

/-- `serialize.Algorithm`. -/
structure SerializeType where
  value : UInt8
deriving DecidableEq, Repr

/-- `serialize.Algorithm.IsValid`: gob, json, msgpack and cbor. -/
def SerializeType.isValid (a : SerializeType) : Bool := 1 ≤ a.value && a.value ≤ 4

/-- `compress.Algorithm`. -/
structure CompressType where
  value : UInt8
deriving DecidableEq, Repr

/-- `compress.Algorithm.IsValid`: zstd, zlib, s2, gzip and deflate. -/
def CompressType.isValid (a : CompressType) : Bool := 1 ≤ a.value && a.value ≤ 5

/-- `reflect.Type`: byte slices, strings, `any`, and the types of the serializable objects. -/
inductive DataType (T : Type)
  | bytes
  | string
  | any
  | object (t : T)
deriving DecidableEq, Repr

/-- A value of type `any`.  A `nil` pointer counts as `nil`, there is no value behind it. -/
inductive Data (O : Type)
  | nil
  | bytes (b : Bytes)
  | string (s : Bytes)
  | object (o : O)
deriving DecidableEq, Repr

def Data.asBytes {O : Type} : Data O → Data O
  | .string s => .bytes s
  | d => d

/-- An error that a package returns. -/
inductive Err
  | marshal
  | unmarshal
  | compress
  | decompress
  | decode
deriving DecidableEq, Repr

/-- The packages that sealing and unsealing use, and the types of a program.  `typeOf` is
`inspect.TypeOf`, `mapDecode` is `mapstructure.Decode`, and `convert` is what `reflect` makes
of a byte slice as a value of a type. -/
structure Codecs (T O : Type) where
  compress : CompressType → Bytes → Except Err Bytes
  decompress : CompressType → Bytes → Except Err Bytes
  marshal : SerializeType → O → Except Err Bytes
  unmarshal : SerializeType → DataType T → Bytes → Except Err (Data O)
  mapDecode : DataType T → Bytes → Except Err (Data O)
  type : O → T
  typeName : T → Bytes
  typeName_lt : ∀ t, (typeName t).length < 2 ^ 63
  typeOf : Bytes → Option (DataType T)
  zero : T → O
  convert : T → Bytes → Option O
  gob : Gob
  times : TimeTexts

/-- `option`. -/
structure Options (T : Type) where
  ctx : Option Fields := none
  serializeType : SerializeType := ⟨0⟩
  compressType : CompressType := ⟨0⟩
  dataType : Option (DataType T) := none
  version : UInt8 := 0

/-! ## Seal -/

/-- The bytes of a text of ASCII characters. -/
def ascii (s : String) : Bytes := s.toList.map fun ch => UInt8.ofNat ch.toNat

def sealMagicNumber : Nat := 0xFFFFFFFB

/-- `sealTypeNumber` has eight bytes. -/
def sealTypeLength : Nat := 8

def sealPrefixLength : Nat := 4 + sealTypeLength

section

variable {T O : Type} (c : Codecs T O) (opt : Options T)

/-- The type of a value behind its pointers.  `reflect` panics if there is none. -/
def typeOfData : Data O → Except Panic (DataType T)
  | .nil => .error .reflect
  | .bytes _ => .ok .bytes
  | .string _ => .ok .string
  | .object o => .ok (.object (c.type o))

/-- The path and the name of a type, with a dot between them.  A byte slice has neither. -/
def structName : DataType T → Bytes
  | .bytes | .any => ascii "."
  | .string => ascii ".string"
  | .object t => c.typeName t

def info (isRaw : Bool) : Bytes :=
  [if 0 < opt.version then opt.version else 1,
    if isRaw then 0 else opt.serializeType.value,
    opt.compressType.value,
    if isRaw then 1 else 0,
    0, 0, 0, 0]

def Data.isRaw : Data O → Bool
  | .bytes _ | .string _ => true
  | _ => false

def contextSection : Bytes :=
  match opt.ctx with
  | none => leBytes 8 0
  | some ctx => prefixed 8 (c.gob.marshal (flatten c.times ctx))

/-- Raw data as it is, other data serialized.  An unknown serialize type panics. -/
def marshalData : Data O → Except Panic (Except Err Bytes)
  | .bytes b => .ok (.ok b)
  | .string s => .ok (.ok s)
  | .nil => .error .reflect -- not reached, `nil` has no type
  | .object o =>
    if opt.serializeType.isValid then .ok (c.marshal opt.serializeType o) else .error .raised

/-- The data as it stands in a payload. -/
def compressData (marshaled : Bytes) : Except Err Bytes :=
  if opt.compressType.isValid then c.compress opt.compressType marshaled else .ok marshaled

/-- `Seal`. -/
def sealData (data : Data O) : Except Panic (Except Err Bytes) := do
  let dt ← typeOfData c data
  let marshaled ← marshalData c opt data
  return do
    let marshaled ← marshaled
    let encoded ← compressData c opt marshaled
    return leBytes 4 sealMagicNumber ++ info opt data.isRaw ++ contextSection c opt ++
      prefixed 8 (structName c dt) ++ prefixed 8 encoded

end

end Gofusion.Payload
