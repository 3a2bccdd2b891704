import Gofusion.Payload.Frames

/-!
# Sealing and unsealing

What the three decoders make of a payload that `Seal` has written, with the same serialize
and compress types and the type of the data.
-/

namespace Gofusion.Payload

open Gofusion.Context Gofusion.Lib Gofusion.Utils

section

variable {T O : Type} (c : Codecs T O) (opt : Options T)

/-! ## The law -/

/-- The three decoders agree on the context and give back the data.  `UnsealRaw` gives back
the bytes before the compression. -/
def GivesBack (t : DataType T) (data : Data O) (frame : Bytes) : Prop :=
  ∃ ctx dst dst' bytes isRaw,
    unsealData c (opt.ofType t) frame = .ok { ctx, dst, ok := true } ∧
    unsealT c opt t frame = .ok { ctx, dst := dst', ok := true } ∧
    unsealRaw c opt frame = .ok { ctx, dst := bytes, isRaw } ∧
    dst.asBytes = data.asBytes ∧ dst'.asBytes = data.asBytes ∧
    marshalData c opt data = .ok (.ok bytes) ∧
    ctx.map Fields.propagated = opt.ctx.map Fields.propagated

/-- `Seal` does not panic, and the decoders give back what it has sealed. -/
def SealInverts (data : Data O) : Prop :=
  ∃ r, sealData c opt data = .ok r ∧
    ∀ frame t, r = .ok frame → typeOfData c data = .ok t → GivesBack c opt t data frame

/-- The serializer, the compressor and gob invert on a value. -/
structure CodecsInvert (data : Data O) : Prop where
  compressor : ∀ m out, marshalData c opt data = .ok (.ok m) →
    c.compress opt.compressType m = .ok out → c.decompress opt.compressType out = .ok m
  serializer : ∀ o m, data = .object o → c.marshal opt.serializeType o = .ok m →
    c.unmarshal opt.serializeType (.object (c.type o)) m = .ok (.object o)
  gob : ∀ ctx, opt.ctx = some ctx →
    c.gob.unmarshal (c.gob.marshal (flatten c.times ctx)) = some (flatten c.times ctx)

/-- What the decoders need of a payload with the marshaled data `m` of a type: the version
they know, a deadline that is kept, and, for raw data with a serialize type, a deserializer
that happens to leave it as it is. -/
structure Unsealable (t : DataType T) (data : Data O) (m : Bytes) : Prop where
  version : opt.version ≤ 1
  context : ∀ ctx, opt.ctx = some ctx → ctx.DeadlineKept c.times
  raw : data.isRaw = true → opt.serializeType.isValid = true →
    ∃ dst, c.unmarshal opt.serializeType t m = .ok dst ∧ dst.asBytes = data.asBytes

/-! ## The frame of a payload -/

def contextBytes : Bytes :=
  match opt.ctx with
  | none => []
  | some ctx => c.gob.marshal (flatten c.times ctx)

theorem contextBytes_lt : (contextBytes c opt).length < 256 ^ 8 := by
  unfold contextBytes
  split
  next => decide
  next ctx _ => exact Nat.lt_of_lt_of_le (c.gob.length_lt _) (by decide)

theorem structName_lt (t : DataType T) : (structName c t).length < 256 ^ 8 := by
  cases t with
  | bytes | any => exact (by decide : (ascii ".").length < 256 ^ 8)
  | string => exact (by decide : (ascii ".string").length < 256 ^ 8)
  | object t => exact Nat.lt_of_lt_of_le (c.typeName_lt t) (by decide)

/-- The frame that `Seal` writes. -/
def sealedFrame (t : DataType T) (isRaw : Bool) (encoded : Bytes) : Frame where
  version := if 0 < opt.version then opt.version else 1
  serializeType := if isRaw then 0 else opt.serializeType.value
  compressType := opt.compressType.value
  raw := if isRaw then 1 else 0
  encrypted := []
  context := contextBytes c opt
  structName := structName c t
  length := leBytes 8 encoded.length
  data := encoded
  encrypted_lt := by decide
  context_lt := contextBytes_lt c opt
  structName_lt := structName_lt c t
  length_eq := leBytes_length ..

theorem contextSection_eq : contextSection c opt = prefixed 8 (contextBytes c opt) := by
  unfold contextSection contextBytes
  cases opt.ctx <;> rfl

variable {c opt} {t : DataType T} {data : Data O} {m out : Bytes}

/-- `Seal` writes a frame. -/
theorem sealData_eq (ht : typeOfData c data = .ok t) (hm : marshalData c opt data = .ok (.ok m))
    (hout : compressData c opt m = .ok out) :
    sealData c opt data = .ok (.ok (sealedFrame c opt t data.isRaw out).bytes) := by
  have hframe : (sealedFrame c opt t data.isRaw out).bytes =
      leBytes 4 sealMagicNumber ++ info opt data.isRaw ++ contextSection c opt ++
        prefixed 8 (structName c t) ++ prefixed 8 out := by
    rw [contextSection_eq]
    simp only [Frame.bytes, Frame.inf, Frame.body, sealedFrame, prefixed, info, List.append_assoc,
      List.nil_append]
    rfl
  rw [hframe, sealData, ht]
  simp only [bind, Except.bind, hm, hout]
  rfl

theorem sealedFrame_version_iff (isRaw : Bool) :
    (sealedFrame c opt t isRaw out).version = 1 ↔ opt.version ≤ 1 := by
  have hzero : (0 : UInt8).toNat = 0 := rfl
  have hone : (1 : UInt8).toNat = 1 := rfl
  simp only [sealedFrame, UInt8.lt_iff_toNat_lt, UInt8.le_iff_toNat_le, ← UInt8.toNat_inj]
  split <;> omega

/-- `UnsealRaw` takes a byte of the length of the context for the raw flag. -/
theorem sealedFrame_fourth (isRaw : Bool) : (sealedFrame c opt t isRaw out).fourth =
    (leBytes 8 (contextBytes c opt).length).getD 3 0 := by
  simp [Frame.fourth, Frame.body, sealedFrame, prefixed, leBytes]

/-! ## Unsealing it -/

theorem effectiveCompressType_self : effectiveCompressType opt opt.compressType.value =
    opt.compressType := by
  unfold effectiveCompressType
  split <;> rfl

/-- A context is read back exactly if its deadline is kept. -/
theorem readContext_iff (h : CodecsInvert c opt data) :
    (∃ ctx, readContext c (contextBytes c opt) = .ok ctx ∧
      ctx.map Fields.propagated = opt.ctx.map Fields.propagated) ↔
    ∀ ctx, opt.ctx = some ctx → ctx.DeadlineKept c.times := by
  unfold contextBytes
  cases hctx : opt.ctx with
  | none => exact iff_of_true ⟨none, rfl, rfl⟩ nofun
  | some ctx =>
    simp only [Option.some.injEq, forall_eq', ← flatten_unmarshal_iff]
    rw [readContext, if_neg (c.gob.marshal_ne_nil _), newContext, h.gob ctx hctx]
    dsimp only
    cases (flatten c.times ctx).unmarshal c.times with
    | error e | ok ctx' => simp [Except.map]

theorem decompressData_self (h : CodecsInvert c opt data)
    (hm : marshalData c opt data = .ok (.ok m)) (hout : compressData c opt m = .ok out) :
    decompressData c opt.compressType out = .ok m := by
  unfold compressData at hout
  unfold decompressData
  split at hout
  next hvalid => rw [if_pos hvalid, h.compressor m out hm hout]
  next hvalid => rw [if_neg hvalid, Except.ok.inj hout]

/-- What `unsealV1` does with the data. -/
theorem decodeV1_eq {st : SerializeType} {s : Sections}
    (hdec : decompressData c ct s.data = .ok m) :
    decodeV1 c (opt.ofType t) st ct isRaw s = .ok (if st.isValid then
      .ofExcept s.ctx .nil (c.unmarshal st t m) else { ctx := s.ctx, dst := .bytes m, ok := true }) := by
  have htype : (if !isRaw && (opt.ofType t).dataType.isNone then
      some ((c.typeOf s.structName).getD .any) else (opt.ofType t).dataType) = some t := by
    simp [Options.ofType]
  rw [decodeV1, htype, hdec]
  dsimp only
  split <;> rfl

/-- What `unsealV1T` does with the data. -/
theorem decodeV1T_eq {st : SerializeType} {s : Sections}
    (hdec : decompressData c ct s.data = .ok m) :
    decodeV1T c t st ct s = if st.isValid then
      .ok (.ofExcept s.ctx (zeroOf c t) (c.unmarshal st t m))
    else match convertBytes c m t with
      | none => .error .reflect
      | some dst => .ok { ctx := s.ctx, dst, ok := true } := by
  cases hdst : convertBytes c m t <;> simp only [decodeV1T, hdec, hdst]

theorem unsealData_other_version {f : Frame} (hv : f.version ≠ 1) :
    unsealData c opt f.bytes = .error .raised := by
  rw [unsealData, f.openFrame]
  simp [bind, Except.bind, byVersion, index, Frame.inf, hv]

theorem effectiveSerializeType_sealed (opt : Options T) (isRaw : Bool) :
    let st := effectiveSerializeType opt (if isRaw then 0 else opt.serializeType.value)
    st.isValid = opt.serializeType.isValid ∧
      (opt.serializeType.isValid = true → st = opt.serializeType) := by
  cases hvalid : opt.serializeType.isValid with
  | true => simp [effectiveSerializeType, hvalid]
  | false =>
    have hst : ∀ x, effectiveSerializeType opt x = ⟨x⟩ := fun x => if_neg (by simp [hvalid])
    refine ⟨?_, nofun⟩
    cases isRaw
    · rw [hst]
      exact hvalid
    · rw [hst]
      rfl

section

variable (h : CodecsInvert c opt data) (ht : typeOfData c data = .ok t)
  (hm : marshalData c opt data = .ok (.ok m)) (hout : compressData c opt m = .ok out)
include h hm hout

/-- What `Unseal` makes of a sealed payload. -/
theorem unsealData_sealed (hv : opt.version ≤ 1) :
    unsealData c (opt.ofType t) (sealedFrame c opt t data.isRaw out).bytes =
      (readContext c (contextBytes c opt)).map fun ctx =>
        if opt.serializeType.isValid then .ofExcept ctx .nil (c.unmarshal opt.serializeType t m)
        else { ctx, dst := .bytes m, ok := true } := by
  obtain ⟨hvalid, hst⟩ := effectiveSerializeType_sealed opt data.isRaw
  have hdec : decompressData c (effectiveCompressType opt opt.compressType.value) out = .ok m := by
    rw [effectiveCompressType_self, decompressData_self h hm hout]
  rw [unsealData_frame c _ ((sealedFrame_version_iff _).mpr hv)]
  cases hctx : readContext c (contextBytes c opt) with
  | error e => simp [sealedFrame, hctx, Except.bind, Except.map]
  | ok ctx =>
    simp only [sealedFrame, hctx, Except.bind, Except.map]
    refine (decodeV1_eq (s := ⟨ctx, _, out⟩) hdec).trans ?_
    by_cases hv' : opt.serializeType.isValid = true
    · rw [if_pos hv', show effectiveSerializeType (opt.ofType t) _ = _ from hst hv', if_pos hv']
    · rw [if_neg hv', if_neg]
      rw [show (effectiveSerializeType (opt.ofType t) _).isValid = _ from hvalid]
      exact hv'

theorem unsealT_sealed (hv : opt.version ≤ 1) :
    unsealT c opt t (sealedFrame c opt t data.isRaw out).bytes =
      (readContext c (contextBytes c opt)).bind fun ctx =>
        if opt.serializeType.isValid then
          .ok (.ofExcept ctx (zeroOf c t) (c.unmarshal opt.serializeType t m))
        else match convertBytes c m t with
          | none => .error .reflect
          | some dst => .ok { ctx, dst, ok := true } := by
  obtain ⟨hvalid, hst⟩ := effectiveSerializeType_sealed opt data.isRaw
  have hdec : decompressData c (effectiveCompressType opt opt.compressType.value) out = .ok m := by
    rw [effectiveCompressType_self, decompressData_self h hm hout]
  rw [unsealT_frame c opt t ((sealedFrame_version_iff _).mpr hv)]
  cases hctx : readContext c (contextBytes c opt) with
  | error e => simp [sealedFrame, hctx, Except.bind]
  | ok ctx =>
    simp only [sealedFrame, hctx, Except.bind]
    refine (decodeV1T_eq (s := ⟨ctx, _, out⟩) hdec).trans ?_
    by_cases hv' : opt.serializeType.isValid = true
    · rw [if_pos hv', hst hv', if_pos hv']
    · rw [if_neg hv', if_neg (by rw [hvalid]; exact hv')]

theorem unsealRaw_sealed (hv : opt.version ≤ 1) :
    let f := sealedFrame c opt t data.isRaw out
    unsealRaw c opt f.bytes = (readContext c (contextBytes c opt)).map fun ctx =>
      { ctx, dst := m, isRaw := f.fourth = 1 } := by
  have hdec : decompressData c (effectiveCompressType opt opt.compressType.value) out = .ok m := by
    rw [effectiveCompressType_self, decompressData_self h hm hout]
  intro f
  rw [unsealRaw_frame c opt ((sealedFrame_version_iff _).mpr hv)]
  refine congrArg (Except.map · _) (funext fun ctx => ?_)
  simp only [decodeRawV1, f, sealedFrame, hdec]
  rfl

omit h hout in
include ht in
/-- Raw data is converted to its type, an object is serialized. -/
theorem convertBytes_sealed (hvalid : ¬opt.serializeType.isValid = true) :
    ∃ dst, convertBytes c m t = some dst ∧ dst.asBytes = data.asBytes ∧
      (Data.bytes m : Data O).asBytes = data.asBytes := by
  cases data with
  | nil => cases ht
  | bytes b | string s =>
    cases ht
    cases hm
    exact ⟨_, rfl, rfl, rfl⟩
  | object o =>
    rw [marshalData, if_neg hvalid] at hm
    cases hm

omit hout in
include ht in
/-- An object is deserialized, and for raw data that is a condition. -/
theorem unmarshal_sealed_iff (hvalid : opt.serializeType.isValid = true) :
    (∃ dst, c.unmarshal opt.serializeType t m = .ok dst ∧ dst.asBytes = data.asBytes) ↔
      (data.isRaw = true →
        ∃ dst, c.unmarshal opt.serializeType t m = .ok dst ∧ dst.asBytes = data.asBytes) := by
  cases data with
  | nil => cases ht
  | bytes b | string s => exact ⟨fun h _ => h, fun h => h rfl⟩
  | object o =>
    cases ht
    rw [marshalData, if_pos hvalid] at hm
    refine iff_of_true ⟨_, h.serializer o m rfl (Except.ok.inj hm), rfl⟩ nofun

include ht in
theorem givesBack_of_readContext (hv : opt.version ≤ 1) {ctx : Option Fields}
    (hread : readContext c (contextBytes c opt) = .ok ctx) :
    GivesBack c opt t data (sealedFrame c opt t data.isRaw out).bytes ↔
      ctx.map Fields.propagated = opt.ctx.map Fields.propagated ∧
      (opt.serializeType.isValid = true →
        ∃ dst, c.unmarshal opt.serializeType t m = .ok dst ∧ dst.asBytes = data.asBytes) := by
  have hdata := unsealData_sealed h hm hout (t := t) hv
  have hT := unsealT_sealed h hm hout (t := t) hv
  have hraw := unsealRaw_sealed h hm hout (t := t) hv
  rw [hread] at hdata hT hraw
  by_cases hvalid : opt.serializeType.isValid = true
  · simp only [Except.map, Except.bind, if_pos hvalid] at hdata hT
    simp only [hvalid, true_implies]
    constructor
    · rintro ⟨ctx', dst, dst', bytes, isRaw, h₁, -, -, hdst, -, -, hctx⟩
      rw [hdata] at h₁
      cases hu : c.unmarshal opt.serializeType t m with
      | error e => rw [hu] at h₁; cases h₁
      | ok d =>
        rw [hu] at h₁
        cases h₁
        exact ⟨hctx, dst, rfl, hdst⟩
    · rintro ⟨hctx, d, hu, hd⟩
      rw [hu] at hdata hT
      exact ⟨ctx, d, d, m, _, hdata, hT, hraw, hd, hd, hm, hctx⟩
  · simp only [Except.map, Except.bind, if_neg hvalid] at hdata hT
    obtain ⟨dst', hconvert, hdst', hdst⟩ := convertBytes_sealed ht hm hvalid
    rw [hconvert] at hT
    refine ⟨?_, fun ⟨hctx, _⟩ => ⟨ctx, .bytes m, dst', m, _, hdata, hT, hraw, hdst, hdst', hm, hctx⟩⟩
    rintro ⟨ctx', dst, dst', bytes, isRaw, h₁, -, -, -, -, -, hctx⟩
    rw [hdata] at h₁
    cases h₁
    exact ⟨hctx, fun hv' => absurd hv' hvalid⟩

include ht in
theorem givesBack_iff :
    GivesBack c opt t data (sealedFrame c opt t data.isRaw out).bytes ↔
      Unsealable c opt t data m := by
  by_cases hv : opt.version ≤ 1
  · cases hread : readContext c (contextBytes c opt) with
    | error e =>
      have hnot : ¬∀ ctx, opt.ctx = some ctx → ctx.DeadlineKept c.times := by
        rw [← readContext_iff h, hread]
        rintro ⟨ctx, ⟨⟩, -⟩
      refine iff_of_false ?_ fun hu => hnot hu.context
      rintro ⟨ctx, dst, dst', bytes, isRaw, h₁, -⟩
      rw [unsealData_sealed h hm hout hv, hread] at h₁
      cases h₁
    | ok ctx =>
      have hctx : ctx.map Fields.propagated = opt.ctx.map Fields.propagated ↔
          ∀ ctx, opt.ctx = some ctx → ctx.DeadlineKept c.times := by
        rw [← readContext_iff h, hread]
        exact ⟨fun h => ⟨ctx, rfl, h⟩, fun ⟨_, heq, h⟩ => Except.ok.inj heq ▸ h⟩
      rw [givesBack_of_readContext h ht hm hout hv hread, hctx]
      constructor
      · rintro ⟨hcontext, hdst⟩
        exact ⟨hv, hcontext, fun _ => hdst⟩
      · rintro ⟨-, hcontext, hdst⟩
        exact ⟨hcontext, fun hvalid =>
          (unmarshal_sealed_iff h ht hm hvalid).mpr fun hraw => hdst hraw hvalid⟩
  · refine iff_of_false ?_ fun hu => hv hu.version
    rintro ⟨ctx, dst, dst', bytes, isRaw, h₁, -⟩
    rw [unsealData_other_version fun hone => hv ((sealedFrame_version_iff _).mp hone)] at h₁
    cases h₁

end

/-- Whatever `Seal` returns is a frame. -/
theorem exists_sealedFrame (h : sealData c opt data = .ok (.ok frame)) :
    ∃ t m out, typeOfData c data = .ok t ∧ marshalData c opt data = .ok (.ok m) ∧
      compressData c opt m = .ok out ∧ frame = (sealedFrame c opt t data.isRaw out).bytes := by
  obtain ⟨t, ht, hrest⟩ := bind_eq_ok.mp h
  obtain ⟨marshaled, hmarshaled, hwrite⟩ := bind_eq_ok.mp hrest
  obtain ⟨m, rfl, hdata⟩ := bind_eq_ok.mp (Except.ok.inj hwrite)
  obtain ⟨out, hout, -⟩ := bind_eq_ok.mp hdata
  rw [sealData_eq ht hmarshaled hout] at h
  exact ⟨t, m, out, ht, hmarshaled, hout, (Except.ok.inj (Except.ok.inj h)).symm⟩

/-- `Seal` panics exactly on `nil` and on an object without a serialize type. -/
theorem returns_sealData_iff : Returns (sealData c opt data) ↔
    data ≠ .nil ∧ ∀ o, data = .object o → opt.serializeType.isValid = true := by
  cases data with
  | nil => exact iff_of_false nofun fun h => h.1 rfl
  | bytes b | string s => exact iff_of_true ⟨_, rfl⟩ ⟨nofun, nofun⟩
  | object o =>
    simp only [ne_eq, reduceCtorEq, not_false_eq_true, Data.object.injEq, forall_eq', true_and]
    cases hvalid : opt.serializeType.isValid with
    | true =>
      refine iff_of_true ?_ rfl
      simp only [sealData, typeOfData, marshalData, hvalid, bind, Except.bind]
      exact returns_ok _
    | false =>
      refine iff_of_false ?_ nofun
      simp only [sealData, typeOfData, marshalData, hvalid, bind, Except.bind]
      exact nofun

/-- Sealing and unsealing are inverse exactly for data other than `nil`, with a serialize type
for an object, where each payload that is written can be unsealed. -/
theorem sealInverts_iff (h : CodecsInvert c opt data) :
    SealInverts c opt data ↔
      data ≠ .nil ∧ (∀ o, data = .object o → opt.serializeType.isValid = true) ∧
      ∀ t m out, typeOfData c data = .ok t → marshalData c opt data = .ok (.ok m) →
        compressData c opt m = .ok out → Unsealable c opt t data m := by
  rw [← and_assoc, ← returns_sealData_iff (c := c)]
  constructor
  · rintro ⟨r, hr, hback⟩
    refine ⟨⟨r, hr⟩, fun t m out ht hm hout => ?_⟩
    obtain rfl := Except.ok.inj (hr.symm.trans (sealData_eq ht hm hout))
    exact (givesBack_iff h ht hm hout).mp (hback _ t rfl ht)
  · rintro ⟨⟨r, hr⟩, hunseal⟩
    refine ⟨r, hr, ?_⟩
    rintro frame t rfl ht
    obtain ⟨t', m, out, ht', hm, hout, rfl⟩ := exists_sealedFrame hr
    obtain rfl := Except.ok.inj (ht.symm.trans ht')
    exact (givesBack_iff h ht hm hout).mpr (hunseal t m out ht hm hout)

end

/-- Codecs with one object, which is written as two braces. -/
def braceCodecs : Codecs Unit Unit :=
  { plainCodecs with
    marshal := fun _ _ => .ok (ascii "\x7b\x7d")
    unmarshal := fun _ _ b => if b = ascii "\x7b\x7d" then .ok (.object ()) else .error .unmarshal
    gob := gobOf { userID := some ['u'] } }

/-- The object is given back, with the user of the context. -/
theorem object_sealInverts :
    SealInverts braceCodecs
      { ctx := some { userID := ['u'] }, serializeType := ⟨2⟩, compressType := ⟨1⟩ } (.object ()) := by
  refine (sealInverts_iff ⟨?_, ?_, ?_⟩).mpr ⟨nofun, fun _ _ => rfl, ?_⟩
  · rintro m out - ⟨⟩
    rfl
  · rintro o m - ⟨⟩
    rfl
  · rintro ctx ⟨⟩
    rfl
  · intro t m out _ _ _
    refine ⟨by decide, ?_, nofun⟩
    rintro ctx ⟨⟩
    exact nofun

/-- `Seal` panics on `nil`.  The bytes `hi` are sealed, and `Unseal` takes them for a
serialized object. -/
theorem nil_and_raw_not_given_back :
    sealData braceCodecs { serializeType := ⟨2⟩ } .nil = .error .reflect ∧
    ∃ frame, sealData braceCodecs { serializeType := ⟨2⟩ } (.bytes (ascii "hi")) = .ok (.ok frame) ∧
      unsealData braceCodecs { serializeType := ⟨2⟩, dataType := some .bytes } frame =
        .ok { dst := .nil, err := some .unmarshal } :=
  ⟨rfl, _, rfl, rfl⟩

end Gofusion.Payload
