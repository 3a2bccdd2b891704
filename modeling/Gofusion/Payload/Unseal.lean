import Gofusion.Payload.Seal

/-!
# Unsealing

`internal/util/payload/unseal.go`.  The three decoders for version 1 read the sections of a payload
in the same way, here `unsealSections`.  They differ in what they do with the data and in the raw
flag: `unsealV1` and `unsealV1T` read it from the information, `unsealRawV1` reads it from the
bytes behind the information, where the length of the context stands.
-/

namespace Gofusion.Payload

open Gofusion.Context Gofusion.Lib Gofusion.Utils

/-- What `Unseal` and `UnsealT` return.  The destination is the zero value with an error. -/
structure Unsealed (O : Type) where
  ctx : Option Fields := none
  dst : Data O
  ok : Bool := false
  err : Option Err := none
deriving DecidableEq, Repr

/-- What `UnsealRaw` returns. -/
structure RawUnsealed where
  ctx : Option Fields := none
  dst : Bytes
  isRaw : Bool
  err : Option Err := none
deriving DecidableEq, Repr

/-- `src[:n], src[n:]`. -/
def slice (n : Nat) (src : Bytes) : Except Panic (Bytes × Bytes) :=
  match cut n src with
  | none => .error .outOfRange
  | some parts => .ok parts

/-- `src[i]`. -/
def index (src : Bytes) (i : Nat) : Except Panic UInt8 :=
  match src[i]? with
  | none => .error .outOfRange
  | some b => .ok b

structure Sections where
  ctx : Option Fields
  structName : Bytes
  data : Bytes
deriving DecidableEq, Repr

section

variable {T O : Type} (c : Codecs T O) (opt : Options T)

/-- The context, if its length is not 0. -/
def unsealContext (src : Bytes) : Except Panic (Option Fields × Bytes) := do
  let (contextLengthBytes, src) ← slice 8 src
  let contextLength := leNat contextLengthBytes
  if 0 < contextLength then
    let (contextBytes, src) ← slice contextLength src
    let ctx ← newContext c.times c.gob contextBytes
    return (some ctx, src)
  else
    return (none, src)

/-- The sections of a payload of version 1.  The length of the data is skipped. -/
def unsealSections (inf src : Bytes) : Except Panic Sections := do
  let encryptedInfLength := leNat (inf.drop 4)
  let (_, src) ← slice encryptedInfLength src
  let (ctx, src) ← unsealContext c src
  let (lengthBytes, src) ← slice 8 src
  let (structName, src) ← slice (leNat lengthBytes) src
  let (_, src) ← slice 8 src
  return ⟨ctx, structName, src⟩

/-- The serialize type of the options, or else the one of the payload. -/
def effectiveSerializeType (inPayload : UInt8) : SerializeType :=
  if opt.serializeType.isValid then opt.serializeType else ⟨inPayload⟩

/-- The compress type of the options, or else the one of the payload. -/
def effectiveCompressType (inPayload : UInt8) : CompressType :=
  if opt.compressType.isValid then opt.compressType else ⟨inPayload⟩

def decompressData (compressType : CompressType) (src : Bytes) : Except Err Bytes :=
  if compressType.isValid then c.decompress compressType src else .ok src

/-- `UnmarshalStreamFuncByType`.  `reflect.New` panics without a type. -/
def unmarshalByType (a : SerializeType) (dataType : Option (DataType T)) (src : Bytes) :
    Except Panic (Except Err (Data O)) :=
  match dataType with
  | none => .error .reflect
  | some t => .ok (c.unmarshal a t src)

/-- A byte slice converted to a type, where `reflect` can convert it. -/
def convertBytes (src : Bytes) : DataType T → Option (Data O)
  | .bytes | .any => some (.bytes src)
  | .string => some (.string src)
  | .object t => (c.convert t src).map .object

def zeroOf : DataType T → Data O
  | .bytes => .bytes []
  | .string => .string []
  | .any => .nil
  | .object t => .object (c.zero t)

/-- A result that stands behind the context. -/
def Unsealed.ofExcept (ctx : Option Fields) (zero : Data O) : Except Err (Data O) → Unsealed O
  | .error e => { ctx, dst := zero, err := some e }
  | .ok dst => { ctx, dst, ok := true }

/-- What `unsealV1` does with the sections. -/
def decodeV1 (serializeType : SerializeType) (compressType : CompressType) (isRaw : Bool)
    (s : Sections) : Except Panic (Unsealed O) :=
  let dataType := if !isRaw && opt.dataType.isNone then some ((c.typeOf s.structName).getD .any)
    else opt.dataType
  match decompressData c compressType s.data with
  | .error e => .ok { ctx := s.ctx, dst := .nil, err := some e }
  | .ok decoded =>
    if serializeType.isValid then
      (unmarshalByType c serializeType dataType decoded).map (.ofExcept s.ctx .nil)
    else
      .ok { ctx := s.ctx, dst := .bytes decoded, ok := true }

def unsealV1 (inf src : Bytes) : Except Panic (Unsealed O) := do
  let serializeType := effectiveSerializeType opt (← index inf 1)
  let compressType := effectiveCompressType opt (← index inf 2)
  let isRaw := (← index inf 3) = 1
  decodeV1 c opt serializeType compressType isRaw (← unsealSections c inf src)

/-- `defaultUnseal`, for bytes without the magic number. -/
def defaultUnseal (src : Bytes) : Except Panic (Unsealed O) :=
  let decoded := decompressData c opt.compressType src
  match decoded, opt.serializeType.isValid, opt.dataType with
  | .error e, _, _ => .ok { dst := .nil, err := some e }
  | .ok _, _, none => .error .reflect
  | .ok src, false, some t =>
    match convertBytes c src t with
    | some dst => .ok { dst }
    | none => match c.mapDecode t src with
      | .ok dst => .ok { dst }
      | .error e => .ok { dst := .nil, err := some e }
  | .ok src, true, some t =>
    match c.unmarshal opt.serializeType t src with
    | .ok dst => .ok { dst }
    | .error e => .ok { dst := .nil, err := some e }

/-- The information and what is behind it, if the bytes begin with the magic number. -/
def openFrame (src : Bytes) : Except Panic (Option (Bytes × Bytes)) :=
  if src.length ≤ sealPrefixLength then .ok none
  else do
    let (magicNumber, next) ← slice 4 src
    if leNat magicNumber ≠ sealMagicNumber then return none
    else return some (← slice sealTypeLength next)

/-- The decoder for the version in the information. -/
def byVersion {α : Type} (v1 : Bytes → Bytes → Except Panic α) (inf src : Bytes) :
    Except Panic α := do
  if (← index inf 0) = 1 then v1 inf src else .error .raised

/-- `Unseal`. -/
def unsealData (src : Bytes) : Except Panic (Unsealed O) := do
  match ← openFrame src with
  | none => defaultUnseal c opt src
  | some (inf, next) => byVersion (unsealV1 c opt) inf next

/-- What `unsealV1T` does with the sections. -/
def decodeV1T (t : DataType T) (serializeType : SerializeType) (compressType : CompressType)
    (s : Sections) : Except Panic (Unsealed O) :=
  match decompressData c compressType s.data with
  | .error e => .ok { ctx := s.ctx, dst := zeroOf c t, err := some e }
  | .ok decoded =>
    if serializeType.isValid then
      .ok (.ofExcept s.ctx (zeroOf c t) (c.unmarshal serializeType t decoded))
    else
      match convertBytes c decoded t with
      | none => .error .reflect
      | some dst => .ok { ctx := s.ctx, dst, ok := true }

/-- `unsealV1T` at a type. -/
def unsealV1T (t : DataType T) (inf src : Bytes) : Except Panic (Unsealed O) := do
  let serializeType := effectiveSerializeType opt (← index inf 1)
  let compressType := effectiveCompressType opt (← index inf 2)
  decodeV1T c t serializeType compressType (← unsealSections c inf src)

/-- `UnsealT` at a type. -/
def unsealT (t : DataType T) (src : Bytes) : Except Panic (Unsealed O) := do
  match ← openFrame src with
  | none => return { dst := zeroOf c t }
  | some (inf, next) => byVersion (unsealV1T c opt t) inf next

/-- What `unsealRawV1` does with the sections. -/
def decodeRawV1 (compressType : CompressType) (isRaw : Bool) (s : Sections) : RawUnsealed :=
  match decompressData c compressType s.data with
  | .error e => { ctx := s.ctx, dst := [], isRaw, err := some e }
  | .ok dst => { ctx := s.ctx, dst, isRaw }

/-- `unsealRawV1`.  The raw flag is read from `src` and not from `inf`. -/
def unsealRawV1 (inf src : Bytes) : Except Panic RawUnsealed := do
  let compressType := effectiveCompressType opt (← index inf 2)
  let isRaw := (← index src 3) = 1
  return decodeRawV1 c compressType isRaw (← unsealSections c inf src)

def unsealRaw (src : Bytes) : Except Panic RawUnsealed := do
  match ← openFrame src with
  | none => return { dst := src, isRaw := true }
  | some (inf, next) => byVersion (unsealRawV1 c opt) inf next

end

end Gofusion.Payload
