import Gofusion.Lib.Pipeline
import Gofusion.Payload.Unseal

/-!
# Which bytes the decoders read

A `Frame` is a payload cut into its sections, with every length field right.  The decoders
read the bytes of a frame of version 1 whose context decodes, and return on bytes that do
not begin with the magic number.  On all other bytes they panic.
-/

namespace Gofusion.Payload

open Gofusion.Context Gofusion.Lib Gofusion.Utils

/-! ## Slices -/

variable {src rest : Bytes} {n : Nat} {α β : Type} {v1 : Bytes → Bytes → Except Panic α}
  {x : Except Panic α}

theorem slice_eq_ok {a : Bytes} : slice n src = .ok (a, rest) ↔ src = a ++ rest ∧ a.length = n := by
  rw [← cut_eq_some, slice]
  cases cut n src with
  | none => simp
  | some parts => simp

theorem slice_append {a : Bytes} (h : a.length = n) (rest : Bytes) :
    slice n (a ++ rest) = .ok (a, rest) := slice_eq_ok.mpr ⟨rfl, h⟩

/-! ## Frames -/

/-- The sections of a payload, with lengths that fit their fields.  `length` are the bytes
in the place of the length of the data. -/
structure Frame where
  version : UInt8
  serializeType : UInt8
  compressType : UInt8
  raw : UInt8
  encrypted : Bytes
  context : Bytes
  structName : Bytes
  length : Bytes
  data : Bytes
  encrypted_lt : encrypted.length < 256 ^ 4
  context_lt : context.length < 256 ^ 8
  structName_lt : structName.length < 256 ^ 8
  length_eq : length.length = 8

namespace Frame

def inf (f : Frame) : Bytes :=
  [f.version, f.serializeType, f.compressType, f.raw] ++ leBytes 4 f.encrypted.length

def body (f : Frame) : Bytes :=
  f.encrypted ++ (prefixed 8 f.context ++ (prefixed 8 f.structName ++ (f.length ++ f.data)))

def bytes (f : Frame) : Bytes := leBytes 4 sealMagicNumber ++ (f.inf ++ f.body)

theorem inf_length (f : Frame) : f.inf.length = sealTypeLength := by
  simp [inf, sealTypeLength]

theorem body_length (f : Frame) : 24 ≤ f.body.length := by
  have := f.length_eq
  simp only [body, prefixed, List.length_append, leBytes_length]
  omega

theorem leNat_inf (f : Frame) : leNat (f.inf.drop 4) = f.encrypted.length :=
  leNat_leBytes f.encrypted_lt

end Frame

section

variable {T O : Type} {c : Codecs T O}

def readContext (c : Codecs T O) (block : Bytes) : Except Panic (Option Fields) :=
  if block = [] then .ok none else (newContext c.times c.gob block).map some

variable {block : Bytes}

theorem unsealContext_prefixed (h : block.length < 256 ^ 8) (rest : Bytes) :
    unsealContext c (prefixed 8 block ++ rest) = (readContext c block).map (·, rest) := by
  have hlen : slice 8 (prefixed 8 block ++ rest) = .ok (leBytes 8 block.length, block ++ rest) := by
    rw [prefixed, List.append_assoc]
    exact slice_append (leBytes_length ..) _
  have hblock : slice block.length (block ++ rest) = .ok (block, rest) := slice_append rfl _
  simp only [unsealContext, hlen, bind, Except.bind, leNat_leBytes h, hblock]
  cases block with
  | nil => rfl
  | cons b bs =>
    simp only [List.length_cons, Nat.zero_lt_succ, ↓reduceIte, readContext, reduceCtorEq]
    cases newContext c.times c.gob (b :: bs) with
    | error e => rfl
    | ok ctx => rfl

/-- The sections of a frame are read. -/
theorem unsealSections_frame (f : Frame) :
    unsealSections c f.inf f.body =
      (readContext c f.context).map fun ctx => ⟨ctx, f.structName, f.data⟩ := by
  have hencrypted : slice f.encrypted.length f.body = .ok (f.encrypted, _) := slice_append rfl _
  have hname : slice 8 (prefixed 8 f.structName ++ (f.length ++ f.data)) =
      .ok (leBytes 8 f.structName.length, f.structName ++ (f.length ++ f.data)) := by
    rw [prefixed, List.append_assoc]
    exact slice_append (leBytes_length ..) _
  have hblock : slice f.structName.length (f.structName ++ (f.length ++ f.data)) =
      .ok (f.structName, f.length ++ f.data) := slice_append rfl _
  have hlength : slice 8 (f.length ++ f.data) = .ok (f.length, f.data) := slice_append f.length_eq _
  simp only [unsealSections, f.leNat_inf, hencrypted, bind, Except.bind,
    unsealContext_prefixed f.context_lt]
  cases readContext c f.context with
  | error e => rfl
  | ok ctx =>
    simp only [Except.map, hname, leNat_leBytes f.structName_lt, hblock, hlength]
    rfl

theorem exists_prefixed (hlen : slice 8 src = .ok (len, rest))
    (hblock : slice (leNat len) rest = .ok (block, rest')) :
    src = prefixed 8 block ++ rest' ∧ block.length < 256 ^ 8 := by
  obtain ⟨rfl, hwidth⟩ := slice_eq_ok.mp hlen
  obtain ⟨rfl, hlength⟩ := slice_eq_ok.mp hblock
  have hlt := leNat_lt len
  rw [hwidth] at hlt
  refine ⟨?_, hlength ▸ hlt⟩
  rw [prefixed, hlength, ← hwidth, leBytes_leNat, List.append_assoc]

theorem exists_of_unsealContext (h : unsealContext c src = .ok (ctx, rest)) :
    ∃ block, src = prefixed 8 block ++ rest ∧ block.length < 256 ^ 8 := by
  obtain ⟨⟨len, src'⟩, hlen, h⟩ := bind_eq_ok.mp h
  dsimp only at h
  split at h
  next =>
    obtain ⟨⟨block, rest'⟩, hblock, h⟩ := bind_eq_ok.mp h
    obtain ⟨ctx', -, h⟩ := bind_eq_ok.mp h
    cases h
    exact ⟨block, exists_prefixed hlen hblock⟩
  next hzero =>
    cases h
    refine ⟨[], exists_prefixed hlen ?_⟩
    rw [Nat.eq_zero_of_not_pos hzero]
    exact slice_eq_ok.mpr ⟨rfl, rfl⟩

/-- What is read as sections is a frame. -/
theorem exists_frame_of_unsealSections {inf : Bytes}
    (hinf : inf.length = sealTypeLength) (h : unsealSections c inf src = .ok s) :
    ∃ f : Frame, inf = f.inf ∧ src = f.body := by
  obtain ⟨⟨encrypted, src₁⟩, hencrypted, h⟩ := bind_eq_ok.mp h
  obtain ⟨⟨ctx, src₂⟩, hctx, h⟩ := bind_eq_ok.mp h
  obtain ⟨⟨len, src₃⟩, hlen, h⟩ := bind_eq_ok.mp h
  obtain ⟨⟨name, src₄⟩, hname, h⟩ := bind_eq_ok.mp h
  obtain ⟨⟨length, data⟩, hlength, -⟩ := bind_eq_ok.mp h
  obtain ⟨rfl, hcount⟩ := slice_eq_ok.mp hencrypted
  obtain ⟨context, rfl, hcontext⟩ := exists_of_unsealContext hctx
  obtain ⟨rfl, hnameLt⟩ := exists_prefixed hlen hname
  obtain ⟨rfl, hlengthEq⟩ := slice_eq_ok.mp hlength
  match inf, hinf, hcount with
  | [version, serializeType, compressType, raw, l₀, l₁, l₂, l₃], _, hcount =>
    have hcount : encrypted.length = leNat [l₀, l₁, l₂, l₃] := hcount
    have hlt : encrypted.length < 256 ^ 4 := hcount ▸ leNat_lt [l₀, l₁, l₂, l₃]
    refine ⟨⟨version, serializeType, compressType, raw, encrypted, context, name, length, data, hlt,
      hcontext, hnameLt, hlengthEq⟩, ?_, rfl⟩
    have hle : leBytes 4 encrypted.length = [l₀, l₁, l₂, l₃] := by
      rw [hcount]
      exact leBytes_leNat [l₀, l₁, l₂, l₃]
    rw [Frame.inf, hle]
    rfl

end

/-! ## Opening a frame -/

/-- The bytes begin with the magic number and more than the information follows. -/
def Sealed (src : Bytes) : Prop :=
  sealPrefixLength < src.length ∧ leBytes 4 sealMagicNumber <+: src

theorem openFrame_append {inf next : Bytes} (hinf : inf.length = sealTypeLength)
    (hnext : next ≠ []) :
    openFrame (leBytes 4 sealMagicNumber ++ (inf ++ next)) = .ok (some (inf, next)) := by
  have hlen : ¬(leBytes 4 sealMagicNumber ++ (inf ++ next)).length ≤ sealPrefixLength := by
    have := List.length_pos_iff.mpr hnext
    simp only [List.length_append, leBytes_length, sealPrefixLength, hinf]
    omega
  have hmagic : leNat (leBytes 4 sealMagicNumber) = sealMagicNumber :=
    leNat_leBytes (by decide)
  rw [openFrame, if_neg hlen, slice_append (leBytes_length ..)]
  simp only [bind, Except.bind, hmagic, ne_eq, not_true_eq_false, ↓reduceIte, slice_append hinf]
  rfl

/-- Bytes without the magic number are not opened. -/
theorem openFrame_of_not_sealed (h : ¬Sealed src) : openFrame src = .ok none := by
  by_cases hlen : src.length ≤ sealPrefixLength
  · rw [openFrame, if_pos hlen]
  · have hle : 4 ≤ src.length := by
      simp only [sealPrefixLength, sealTypeLength] at hlen
      omega
    have hslice : slice 4 src = .ok (src.take 4, src.drop 4) :=
      slice_eq_ok.mpr ⟨(List.take_append_drop 4 src).symm, by rw [List.length_take]; omega⟩
    have hmagic : leNat (src.take 4) ≠ sealMagicNumber := by
      intro hmagic
      refine h ⟨by omega, ?_⟩
      have hback := leBytes_leNat (src.take 4)
      rw [hmagic, List.length_take, Nat.min_eq_left hle] at hback
      rw [hback]
      exact List.take_prefix 4 src
    rw [openFrame, if_neg hlen, hslice]
    simp only [bind, Except.bind, hmagic, ne_eq, not_false_eq_true, ↓reduceIte]
    rfl

theorem Sealed.split (h : Sealed src) : ∃ inf next, inf.length = sealTypeLength ∧
    next ≠ [] ∧ src = leBytes 4 sealMagicNumber ++ (inf ++ next) := by
  obtain ⟨hlen, rest, rfl⟩ := h
  simp only [List.length_append, leBytes_length, sealPrefixLength] at hlen
  refine ⟨rest.take sealTypeLength, rest.drop sealTypeLength, ?_, ?_, ?_⟩
  · rw [List.length_take]
    omega
  · rw [ne_eq, List.drop_eq_nil_iff]
    omega
  · rw [List.take_append_drop]

/-! ## The decoders on frames -/

section

variable {T O : Type} (c : Codecs T O) (opt : Options T)

theorem byVersion_frame {f : Frame} (hv : f.version = 1) :
    byVersion v1 f.inf f.body = v1 f.inf f.body := by
  simp [byVersion, index, Frame.inf, bind, Except.bind, hv]

/-- A frame is opened. -/
theorem Frame.openFrame (f : Frame) :
    Payload.openFrame f.bytes = .ok (some (f.inf, f.body)) :=
  openFrame_append f.inf_length
    (List.ne_nil_of_length_pos (Nat.lt_of_lt_of_le (by decide) f.body_length))

/-- What `Unseal` makes of a frame. -/
theorem unsealData_frame {f : Frame} (hv : f.version = 1) :
    unsealData c opt f.bytes = (readContext c f.context).bind fun ctx =>
      decodeV1 c opt (effectiveSerializeType opt f.serializeType)
        (effectiveCompressType opt f.compressType) (f.raw = 1) ⟨ctx, f.structName, f.data⟩ := by
  rw [unsealData, f.openFrame]
  refine (byVersion_frame hv).trans ?_
  rw [unsealV1, unsealSections_frame]
  cases readContext c f.context <;> rfl

/-- What `UnsealT` makes of a frame. -/
theorem unsealT_frame (t : DataType T) {f : Frame} (hv : f.version = 1) :
    unsealT c opt t f.bytes = (readContext c f.context).bind fun ctx =>
      decodeV1T c t (effectiveSerializeType opt f.serializeType)
        (effectiveCompressType opt f.compressType) ⟨ctx, f.structName, f.data⟩ := by
  rw [unsealT, f.openFrame]
  refine (byVersion_frame hv).trans ?_
  rw [unsealV1T, unsealSections_frame]
  cases readContext c f.context <;> rfl

/-- The byte that `UnsealRaw` takes for the raw flag. -/
def Frame.fourth (f : Frame) : UInt8 := f.body.getD 3 0

/-- What `UnsealRaw` makes of a frame. -/
theorem unsealRaw_frame {f : Frame} (hv : f.version = 1) :
    unsealRaw c opt f.bytes = (readContext c f.context).map fun ctx =>
      decodeRawV1 c (effectiveCompressType opt f.compressType) (f.fourth = 1)
        ⟨ctx, f.structName, f.data⟩ := by
  have hfourth : index f.body 3 = .ok f.fourth := by
    have hlt : 3 < f.body.length := Nat.lt_of_lt_of_le (by decide) f.body_length
    simp [index, Frame.fourth, List.getElem?_eq_getElem hlt]
  rw [unsealRaw, f.openFrame]
  refine (byVersion_frame hv).trans ?_
  rw [unsealRawV1, unsealSections_frame, hfourth]
  cases readContext c f.context <;> rfl

end

/-! ## When the decoders return -/

/-- A call that does not panic. -/
def Returns {α : Type} (x : Except Panic α) : Prop := ∃ r, x = .ok r

theorem returns_ok (r : α) : Returns (.ok r) := ⟨r, rfl⟩

theorem returns_map : Returns (x.map g) ↔ Returns x := by
  cases x with
  | error e => exact iff_of_false nofun nofun
  | ok a => exact iff_of_true (returns_ok _) (returns_ok _)

theorem returns_bind {P : Prop} (h : ∀ a, Returns (g a) ↔ P) :
    Returns (x.bind g) ↔ Returns x ∧ P := by
  cases x with
  | error e => exact iff_of_false nofun fun hx => nomatch hx.1
  | ok a => exact (h a).trans (iff_and_self.mpr fun _ => returns_ok a)

theorem Returns.of_bind (h : Returns (x >>= g)) :
    ∃ a, x = .ok a ∧ Returns (g a) := by
  obtain ⟨r, h⟩ := h
  obtain ⟨a, ha, hr⟩ := bind_eq_ok.mp h
  exact ⟨a, ha, r, hr⟩

theorem returns_byVersion (h : Returns (byVersion v1 inf src)) :
    index inf 0 = .ok 1 ∧ Returns (v1 inf src) := by
  obtain ⟨v, hv, h⟩ := h.of_bind
  split at h
  next hone => exact ⟨hone ▸ hv, h⟩
  next => nomatch h

def Options.ofType {T : Type} (opt : Options T) (t : DataType T) : Options T :=
  { opt with dataType := some t }

section

variable {T O : Type} (c : Codecs T O) (opt : Options T)

/-- A frame of the known version with a context that decodes. -/
def Frame.Reads (f : Frame) : Prop := f.version = 1 ∧ Returns (readContext c f.context)

/-- The data of a frame is serialized, or it can be converted to the type. -/
def Frame.Converts (t : DataType T) (f : Frame) : Prop :=
  (effectiveSerializeType opt f.serializeType).isValid = true ∨
    ∀ decoded, decompressData c (effectiveCompressType opt f.compressType) f.data = .ok decoded →
      (convertBytes c decoded t).isSome

variable {c opt}

/-- When a decoder returns.  It returns without the magic number, it reads the sections if it
returns with it, and on a frame of version 1 it needs `P` besides the context. -/
theorem decoder_returns_iff {decoder : Bytes → Except Panic α} (v1 : Bytes → Bytes → Except Panic α)
    {P : Frame → Prop} (hdefault : ∀ {src}, openFrame src = .ok none → Returns (decoder src))
    (hopen : ∀ {src inf next}, openFrame src = .ok (some (inf, next)) →
      decoder src = byVersion v1 inf next)
    (hv1 : ∀ {inf next}, Returns (v1 inf next) → Returns (unsealSections c inf next))
    (hframe : ∀ {f : Frame}, f.version = 1 →
      (Returns (decoder f.bytes) ↔ Returns (readContext c f.context) ∧ P f)) (src : Bytes) :
    Returns (decoder src) ↔ (Sealed src → ∃ f : Frame, src = f.bytes ∧ f.Reads c ∧ P f) := by
  by_cases hsealed : Sealed src
  · constructor
    · intro h _
      obtain ⟨inf, next, hinf, hnext, rfl⟩ := hsealed.split
      have h' := h
      rw [hopen (openFrame_append hinf hnext)] at h'
      obtain ⟨hversion, hreturns⟩ := returns_byVersion h'
      obtain ⟨s, hs⟩ := hv1 hreturns
      obtain ⟨f, rfl, rfl⟩ := exists_frame_of_unsealSections hinf hs
      have hone : f.version = 1 := Except.ok.inj hversion
      obtain ⟨hctx, hP⟩ := (hframe hone).mp h
      exact ⟨f, rfl, ⟨hone, hctx⟩, hP⟩
    · intro h
      obtain ⟨f, rfl, ⟨hone, hctx⟩, hP⟩ := h hsealed
      exact (hframe hone).mpr ⟨hctx, hP⟩
  · exact iff_of_true (hdefault (openFrame_of_not_sealed hsealed)) fun h => absurd h hsealed

theorem returns_defaultUnseal (t : DataType T) (src : Bytes) :
    Returns (defaultUnseal c (opt.ofType t) src) := by
  simp only [defaultUnseal, Options.ofType]
  cases decompressData c opt.compressType src with
  | error e => exact returns_ok _
  | ok src =>
    cases opt.serializeType.isValid with
    | true => cases h : c.unmarshal opt.serializeType t src <;> simp only [h, returns_ok]
    | false =>
      cases h : convertBytes c src t with
      | some dst => simp only [h, returns_ok]
      | none => cases h' : c.mapDecode t src <;> simp only [h, h', returns_ok]

theorem returns_decodeV1 (t : DataType T) (st : SerializeType) (ct : CompressType) (isRaw : Bool)
    (s : Sections) : Returns (decodeV1 c (opt.ofType t) st ct isRaw s) := by
  have htype : (if !isRaw && (opt.ofType t).dataType.isNone then
      some ((c.typeOf s.structName).getD .any) else (opt.ofType t).dataType) = some t := by
    simp [Options.ofType]
  unfold decodeV1
  rw [htype]
  split
  next => exact returns_ok _
  next => split <;> exact returns_ok _

theorem returns_decodeV1T {f : Frame} (ctx : Option Fields) :
    Returns (decodeV1T c t (effectiveSerializeType opt f.serializeType)
        (effectiveCompressType opt f.compressType) ⟨ctx, f.structName, f.data⟩) ↔
      f.Converts c opt t := by
  unfold decodeV1T Frame.Converts
  dsimp only
  cases decompressData c (effectiveCompressType opt f.compressType) f.data with
  | error e => exact iff_of_true (returns_ok _) (.inr nofun)
  | ok decoded =>
    dsimp only
    by_cases hvalid : (effectiveSerializeType opt f.serializeType).isValid = true
    · rw [if_pos hvalid]
      exact iff_of_true (returns_ok _) (.inl hvalid)
    · rw [if_neg hvalid]
      simp only [hvalid, Bool.false_eq_true, false_or, Except.ok.injEq, forall_eq']
      cases convertBytes c decoded t with
      | none => exact iff_of_false nofun nofun
      | some dst => exact iff_of_true (returns_ok _) rfl

/-- When `Unseal` returns. -/
theorem unsealData_returns_iff (t : DataType T) (src : Bytes) :
    Returns (unsealData c (opt.ofType t) src) ↔
      (Sealed src → ∃ f : Frame, src = f.bytes ∧ f.Reads c ∧ True) := by
  refine decoder_returns_iff (unsealV1 c (opt.ofType t)) ?_ ?_ ?_ ?_ src
  · intro src h
    rw [unsealData, h]
    exact returns_defaultUnseal t src
  · intro src inf next h
    rw [unsealData, h]
    rfl
  · intro inf next h
    obtain ⟨_, -, h⟩ := h.of_bind
    obtain ⟨_, -, h⟩ := h.of_bind
    obtain ⟨_, -, h⟩ := h.of_bind
    obtain ⟨s, hs, -⟩ := h.of_bind
    exact ⟨s, hs⟩
  · intro f hv
    rw [unsealData_frame c _ hv]
    exact returns_bind fun ctx => iff_true_intro (returns_decodeV1 ..)

/-- When `UnsealT` returns. -/
theorem unsealT_returns_iff (t : DataType T) (src : Bytes) :
    Returns (unsealT c opt t src) ↔
      (Sealed src → ∃ f : Frame, src = f.bytes ∧ f.Reads c ∧ f.Converts c opt t) := by
  refine decoder_returns_iff (unsealV1T c opt t) ?_ ?_ ?_ ?_ src
  · intro src h
    rw [unsealT, h]
    exact returns_ok _
  · intro src inf next h
    rw [unsealT, h]
    rfl
  · intro inf next h
    obtain ⟨_, -, h⟩ := h.of_bind
    obtain ⟨_, -, h⟩ := h.of_bind
    obtain ⟨s, hs, -⟩ := h.of_bind
    exact ⟨s, hs⟩
  · intro f hv
    rw [unsealT_frame c opt t hv]
    exact returns_bind fun ctx => returns_decodeV1T ctx

/-- When `UnsealRaw` returns. -/
theorem unsealRaw_returns_iff (src : Bytes) :
    Returns (unsealRaw c opt src) ↔
      (Sealed src → ∃ f : Frame, src = f.bytes ∧ f.Reads c ∧ True) := by
  refine decoder_returns_iff (unsealRawV1 c opt) ?_ ?_ ?_ ?_ src
  · intro src h
    rw [unsealRaw, h]
    exact returns_ok _
  · intro src inf next h
    rw [unsealRaw, h]
    rfl
  · intro inf next h
    obtain ⟨_, -, h⟩ := h.of_bind
    obtain ⟨_, -, h⟩ := h.of_bind
    obtain ⟨s, hs, -⟩ := h.of_bind
    exact ⟨s, hs⟩
  · intro f hv
    rw [unsealRaw_frame c opt hv, returns_map, and_true]

/-- The decoders return exactly on bytes without the magic number and on the bytes of a
frame of version 1 whose context decodes.  `UnsealT` at a type also needs data that is
serialized or can be converted to the type. -/
theorem decoders_return_iff (c : Codecs T O) (opt : Options T) (dataType t : DataType T)
    (src : Bytes) :
    (Returns (unsealData c (opt.ofType dataType) src) ↔
      (Sealed src → ∃ f : Frame, src = f.bytes ∧ f.Reads c)) ∧
    (Returns (unsealT c (opt.ofType dataType) t src) ↔
      (Sealed src → ∃ f : Frame, src = f.bytes ∧ f.Reads c ∧ f.Converts c opt t)) ∧
    (Returns (unsealRaw c (opt.ofType dataType) src) ↔
      (Sealed src → ∃ f : Frame, src = f.bytes ∧ f.Reads c)) := by
  refine ⟨?_, unsealT_returns_iff t src, ?_⟩
  · simpa only [and_true] using unsealData_returns_iff dataType src
  · simpa only [and_true] using unsealRaw_returns_iff src

end

def plainCodecs : Codecs Unit Unit where
  compress _ b := .ok b
  decompress _ b := .ok b
  marshal _ _ := .ok []
  unmarshal _ _ b := .ok (.bytes b)
  mapDecode _ _ := .error .decode
  type := id
  typeName _ := []
  typeName_lt _ := by decide
  typeOf _ := none
  zero := id
  convert _ _ := none
  gob := gobOf {}
  times := ⟨fun _ => [], fun _ _ => none⟩

/-- Thirteen bytes with the magic number: a version, nine zero bytes. -/
def shortFrame (version : UInt8) : Bytes :=
  [0xFB, 0xFF, 0xFF, 0xFF, version, 0, 0, 0, 0, 0, 0, 0, 0]

/-- The decoders panic on an unknown version and on a payload that ends too early. -/
theorem shortFrame_panics :
    unsealData plainCodecs { dataType := some .bytes } (shortFrame 2) = .error .raised ∧
    unsealT plainCodecs { dataType := some .bytes } .bytes (shortFrame 2) = .error .raised ∧
    unsealRaw plainCodecs { dataType := some .bytes } (shortFrame 2) = .error .raised ∧
    unsealData plainCodecs { dataType := some .bytes } (shortFrame 1) = .error .outOfRange ∧
    unsealT plainCodecs { dataType := some .bytes } .bytes (shortFrame 1) = .error .outOfRange ∧
    unsealRaw plainCodecs { dataType := some .bytes } (shortFrame 1) = .error .outOfRange :=
  ⟨rfl, rfl, rfl, rfl, rfl, rfl⟩

end Gofusion.Payload
