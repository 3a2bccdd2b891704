import Gofusion.Payload.RoundTrip
import Mathlib.Data.List.Forall2

/-!
# Raw messages through a queue

`mq/mq.go`.  `Publish` seals the payload of a raw message.  `messageConvertFrom` and the loop of
`Subscribe` first call `UnsealRaw`, and if that does not report a raw message, `Unseal`.
`UnsealRaw` looks for the raw flag in the length of the context, so no message is reported as raw.

The queue hands the messages over as they are.  The reader of `Subscribe` takes every
message, and neither context is done.
-/

namespace Gofusion.Mq

open Gofusion.Context Gofusion.Lib Gofusion.Payload Gofusion.Utils

/-- A message of watermill. -/
structure WMessage where
  uuid : Text
  payload : Bytes
  metadata : Metadata
deriving DecidableEq, Repr

structure Message (O : Type) where
  uuid : Text
  payload : Bytes
  obj : Data O
  ctx : Fields
deriving DecidableEq, Repr

/-- The types that are configured for a queue. -/
structure QueueTypes where
  serializeType : SerializeType
  compressType : CompressType

/-- A subscription: the messages on its channel, and why its goroutine ended. -/
structure Subscription (O : Type) where
  delivered : List (Message O)
  panicked : Option Panic
deriving DecidableEq, Repr

section

variable {T O : Type} (c : Codecs T O) (q : QueueTypes)

/-- The options of `Seal` and `UnsealRaw`. -/
def QueueTypes.compressOnly : Options T := { compressType := q.compressType }

/-- The options of `Unseal`. -/
def QueueTypes.both : Options T :=
  { serializeType := q.serializeType, compressType := q.compressType }

/-- `newMessage` for a message with an id and a payload. -/
def newMessage (ctx : Fields) (src : Text × Bytes) : Except Panic (Except Err WMessage) := do
  let sealed ← sealData c q.compressOnly (.bytes src.2)
  return sealed.map fun payload => ⟨src.1, payload, watermillMetadata c.times ctx⟩

/-- The messages that `Publish` hands to the queue.  The first error ends it. -/
def publish (ctx : Fields) : List (Text × Bytes) → Except Panic (Except Err (List WMessage))
  | [] => .ok (.ok [])
  | src :: srcs => do
    match ← newMessage c q ctx src with
    | .error e => return .error e
    | .ok w => return (← publish ctx srcs).map (w :: ·)

def messageConvertFrom (src : WMessage) : Except Panic (Except Err (Message O)) := do
  let r ← unsealRaw c q.compressOnly src.payload
  match r.err with
  | some e => return .error e
  | none =>
    let ctx ← src.metadata.unmarshal c.times
    if r.isRaw then return .ok ⟨src.uuid, r.dst, .nil, ctx⟩
    else
      let u ← unsealData c q.both src.payload
      match u.err with
      | some e => return .error e
      | none => return .ok ⟨src.uuid, r.dst, u.dst, ctx⟩

/-- The loop of `Subscribe`.  A message that cannot be unsealed is logged and left out, and a
panic ends the goroutine. -/
def subscribe : List WMessage → Subscription O
  | [] => ⟨[], none⟩
  | w :: ws =>
    match messageConvertFrom c q w with
    | .error p => ⟨[], some p⟩
    | .ok (.error _) => subscribe ws
    | .ok (.ok m) => ⟨m :: (subscribe ws).delivered, (subscribe ws).panicked⟩

variable {c q} {ctx : Fields} {src : Text × Bytes} {w : WMessage}

/-- The compressor inverts on a payload. -/
def CompressorInverts (c : Codecs T O) (q : QueueTypes) (payload : Bytes) : Prop :=
  ∀ out, c.compress q.compressType payload = .ok out → c.decompress q.compressType out = .ok payload

theorem version_le : (q.compressOnly : Options T).version ≤ 1 :=
  (by decide : (0 : UInt8) ≤ 1)

theorem CompressorInverts.codecs (h : CompressorInverts c q src.2) :
    CodecsInvert c q.compressOnly (.bytes src.2) where
  compressor := by
    rintro m out ⟨⟩ hout
    exact h out hout
  serializer := nofun
  gob := nofun

theorem exists_of_newMessage (h : newMessage c q ctx src = .ok (.ok w)) :
    ∃ out, compressData c (q.compressOnly : Options T) src.2 = .ok out ∧
      w = ⟨src.1, (sealedFrame c q.compressOnly .bytes true out).bytes,
        watermillMetadata c.times ctx⟩ := by
  obtain ⟨sealed, hsealed, h⟩ := bind_eq_ok.mp h
  cases sealed with
  | error e => cases h
  | ok frame =>
    obtain ⟨t, m, out, ht, hm, hout, rfl⟩ := exists_sealedFrame hsealed
    cases ht
    cases hm
    cases h
    exact ⟨out, hout, rfl⟩

/-- `UnsealRaw` gives back the payload and does not report it as raw. -/
theorem unsealRaw_published (h : CompressorInverts c q src.2)
    (hw : newMessage c q ctx src = .ok (.ok w)) :
    unsealRaw c q.compressOnly w.payload = .ok { dst := src.2, isRaw := false } := by
  obtain ⟨out, hout, rfl⟩ := exists_of_newMessage hw
  have hflag : decide ((leBytes 8 0).getD 3 0 = 1) = false := by decide
  refine (unsealRaw_sealed (t := .bytes) h.codecs rfl hout version_le).trans ?_
  rw [sealedFrame_fourth, show contextBytes c (q.compressOnly : Options T) = [] from rfl,
    List.length_nil, hflag]
  rfl

/-- `Unseal` runs the deserializer without a type if the queue has a serialize type. -/
theorem unsealData_published (h : CompressorInverts c q src.2)
    (hw : newMessage c q ctx src = .ok (.ok w)) :
    unsealData c q.both w.payload = if q.serializeType.isValid then .error .reflect
      else .ok { dst := .bytes src.2, ok := true } := by
  obtain ⟨out, hout, rfl⟩ := exists_of_newMessage hw
  have hdec : decompressData c
      (effectiveCompressType (q.both : Options T) q.compressType.value) out = .ok src.2 := by
    rw [show effectiveCompressType (q.both : Options T) q.compressType.value = q.compressType from
      effectiveCompressType_self]
    exact decompressData_self h.codecs rfl hout
  rw [unsealData_frame c _ ((sealedFrame_version_iff _).mpr version_le)]
  have hread : readContext c (sealedFrame c q.compressOnly .bytes true out).context = .ok none := rfl
  rw [hread]
  simp only [Except.bind, decodeV1, sealedFrame, QueueTypes.compressOnly, hdec]
  cases hvalid : q.serializeType.isValid with
  | true => simp [effectiveSerializeType, QueueTypes.both, hvalid, unmarshalByType, Except.map]
  | false =>
    have hst : effectiveSerializeType (q.both : Options T) 0 = ⟨0⟩ :=
      if_neg (by simp [QueueTypes.both, hvalid])
    simp [hst, SerializeType.isValid]

/-- What becomes of a published message. -/
theorem messageConvertFrom_published (h : CompressorInverts c q src.2)
    (hw : newMessage c q ctx src = .ok (.ok w)) :
    messageConvertFrom c q w = (watermillMetadata c.times ctx).unmarshal c.times >>= fun ctx' =>
      if q.serializeType.isValid then .error .reflect
      else .ok (.ok ⟨src.1, src.2, .bytes src.2, ctx'⟩) := by
  have hmeta : w.metadata = watermillMetadata c.times ctx ∧ w.uuid = src.1 := by
    obtain ⟨out, -, rfl⟩ := exists_of_newMessage hw
    exact ⟨rfl, rfl⟩
  rw [messageConvertFrom, unsealRaw_published h hw, unsealData_published h hw, hmeta.1, hmeta.2]
  simp only [bind, Except.bind]
  cases (watermillMetadata c.times ctx).unmarshal c.times with
  | error p => rfl
  | ok ctx' => cases q.serializeType.isValid <;> rfl

/-- A published message is converted to one with its payload exactly when the queue has no
serialize type and the deadline of the context can be read. -/
theorem converts_iff (h : CompressorInverts c q src.2)
    (hw : newMessage c q ctx src = .ok (.ok w)) :
    (∃ m, messageConvertFrom c q w = .ok (.ok m) ∧ m.payload = src.2) ↔
      q.serializeType.isValid = false ∧ ctx.DeadlineReads c.times := by
  rw [messageConvertFrom_published h hw, ← metadata_unmarshal_iff]
  simp only [bind, Except.bind]
  cases (watermillMetadata c.times ctx).unmarshal c.times with
  | error p => simp
  | ok ctx' => cases q.serializeType.isValid <;> simp

theorem forall₂_of_publish : ∀ {srcs : List (Text × Bytes)} {ws : List WMessage},
    publish c q ctx srcs = .ok (.ok ws) →
      List.Forall₂ (fun src w => newMessage c q ctx src = .ok (.ok w)) srcs ws
  | [], _, h => by
    cases h
    exact .nil
  | src :: srcs, ws, h => by
    obtain ⟨first, hfirst, h⟩ := bind_eq_ok.mp h
    cases first with
    | error e => cases h
    | ok w =>
      obtain ⟨rest, hrest, h⟩ := bind_eq_ok.mp h
      cases rest with
      | error e => cases h
      | ok ws' =>
        cases h
        exact .cons hfirst (forall₂_of_publish hrest)

/-- Which messages a subscription delivers. -/
def Delivers (s : Subscription O) (srcs : List (Text × Bytes)) : Prop :=
  s.delivered.map (fun m => (m.uuid, m.payload)) = srcs ∧ s.panicked = none

theorem delivers_of_forall₂
    (hws : List.Forall₂ (fun src w => newMessage c q ctx src = .ok (.ok w)) srcs ws)
    (h : ∀ src ∈ srcs, CompressorInverts c q src.2) (hvalid : q.serializeType.isValid = false)
    (hctx : ctx.DeadlineReads c.times) : Delivers (subscribe c q ws) srcs := by
  obtain ⟨ctx', hctx'⟩ := metadata_unmarshal_iff.mpr hctx
  induction hws with
  | nil => exact ⟨rfl, rfl⟩
  | @cons src w srcs ws hw _ ih =>
    obtain ⟨ihpayloads, ihpanicked⟩ := ih fun src hsrc => h src (List.mem_cons_of_mem _ hsrc)
    have hconvert : messageConvertFrom c q w = .ok (.ok ⟨src.1, src.2, .bytes src.2, ctx'⟩) := by
      rw [messageConvertFrom_published (h src List.mem_cons_self) hw, hctx']
      exact if_neg (by simp [hvalid])
    rw [subscribe, hconvert]
    exact ⟨congrArg (src :: ·) ihpayloads, ihpanicked⟩

/-- Without the conditions the first message ends the goroutine of the subscription. -/
theorem subscribe_panics
    (hws : List.Forall₂ (fun src w => newMessage c q ctx src = .ok (.ok w)) srcs ws)
    (h : ∀ src ∈ srcs, CompressorInverts c q src.2) (hne : srcs ≠ [])
    (hnot : ¬(q.serializeType.isValid = false ∧ ctx.DeadlineReads c.times)) :
    ∃ p, subscribe c q ws = ⟨[], some p⟩ := by
  cases hws with
  | nil => exact absurd rfl hne
  | @cons src w srcs ws hw _ =>
    rw [← metadata_unmarshal_iff] at hnot
    rw [subscribe, messageConvertFrom_published (h src List.mem_cons_self) hw]
    cases hctx' : (watermillMetadata c.times ctx).unmarshal c.times with
    | error p => exact ⟨p, rfl⟩
    | ok ctx' =>
      cases hvalid : q.serializeType.isValid with
      | true => exact ⟨.reflect, rfl⟩
      | false => exact absurd ⟨hvalid, ctx', hctx'⟩ hnot

/-- Raw messages survive the queue: they arrive with their payloads, and `UnsealRaw` reports
them as raw. -/
structure Survive (c : Codecs T O) (q : QueueTypes) (srcs : List (Text × Bytes))
    (ws : List WMessage) : Prop where
  delivered : Delivers (subscribe c q ws) srcs
  converted : List.Forall₂ (fun src w =>
    ∃ m, messageConvertFrom c q w = .ok (.ok m) ∧ m.payload = src.2) srcs ws
  reported : List.Forall₂ (fun src w =>
    unsealRaw c q.compressOnly w.payload = .ok { dst := src.2, isRaw := true }) srcs ws

/-- No published message is reported as raw. -/
theorem survive_iff
    (hws : List.Forall₂ (fun src w => newMessage c q ctx src = .ok (.ok w)) srcs ws)
    (h : ∀ src ∈ srcs, CompressorInverts c q src.2) : Survive c q srcs ws ↔ srcs = [] := by
  constructor
  · intro hsurvive
    cases hsurvive.reported with
    | nil => rfl
    | @cons src w srcs ws hreported _ =>
      obtain ⟨hw, -⟩ := List.forall₂_cons.mp hws
      rw [unsealRaw_published (h src List.mem_cons_self) hw] at hreported
      cases hreported
  · rintro rfl
    cases hws
    exact ⟨⟨rfl, rfl⟩, .nil, .nil⟩

/-- Published raw messages survive the queue only if there is none, as `UnsealRaw` reports none
as raw.  They arrive with their payloads exactly when there is none, or the queue
has no serialize type and the deadline of the context can be read.  The same holds of each
message and `messageConvertFrom`. -/
theorem raw_messages_delivered_iff (c : Codecs T O) (q : QueueTypes) (ctx : Fields)
    (srcs : List (Text × Bytes)) (ws : List WMessage)
    (hcompress : ∀ src ∈ srcs, CompressorInverts c q src.2)
    (hpublish : publish c q ctx srcs = .ok (.ok ws)) :
    (Survive c q srcs ws ↔ srcs = []) ∧
    (Delivers (subscribe c q ws) srcs ↔
      srcs = [] ∨ q.serializeType.isValid = false ∧ ctx.DeadlineReads c.times) ∧
    List.Forall₂ (fun src w =>
      ((∃ m, messageConvertFrom c q w = .ok (.ok m) ∧ m.payload = src.2) ↔
        q.serializeType.isValid = false ∧ ctx.DeadlineReads c.times) ∧
      unsealRaw c q.compressOnly w.payload = .ok { dst := src.2, isRaw := false }) srcs ws := by
  have hws := forall₂_of_publish hpublish
  refine ⟨survive_iff hws hcompress, ⟨fun hdelivers => ?_, ?_⟩, ?_⟩
  · by_cases hne : srcs = []
    · exact .inl hne
    · refine .inr (by_contra fun hnot => ?_)
      obtain ⟨p, hp⟩ := subscribe_panics hws hcompress hne hnot
      rw [hp] at hdelivers
      cases hdelivers.2
  · rintro (rfl | ⟨hvalid, hctx⟩)
    · cases hws
      exact ⟨rfl, rfl⟩
    · exact delivers_of_forall₂ hws hcompress hvalid hctx
  · refine List.forall₂_iff_get.mpr ⟨hws.length_eq, fun i hi hi' => ?_⟩
    have hw := hws.get hi hi'
    have hcomp := hcompress _ (List.get_mem srcs ⟨i, hi⟩)
    exact ⟨converts_iff hcomp hw, unsealRaw_published hcomp hw⟩

end

/-- A queue without serialization and compression. -/
def plainQueue : QueueTypes := ⟨⟨0⟩, ⟨0⟩⟩

def gobQueue : QueueTypes := ⟨⟨1⟩, ⟨0⟩⟩

def hi : Text × Bytes := (['1'], ascii "hi")

def publishedHi : WMessage :=
  ⟨['1'], (sealedFrame plainCodecs ({} : Options Unit) .bytes true (ascii "hi")).bytes, {}⟩

theorem plainQueue_delivers_hi :
    publish plainCodecs plainQueue {} [hi] = .ok (.ok [publishedHi]) ∧
    Delivers (subscribe plainCodecs plainQueue [publishedHi]) [hi] ∧
    ¬Survive plainCodecs plainQueue [hi] [publishedHi] := by
  have hpublish : publish plainCodecs plainQueue {} [hi] = .ok (.ok [publishedHi]) := rfl
  have hcompress : ∀ src ∈ [hi], CompressorInverts plainCodecs plainQueue src.2 := by
    rintro src - out ⟨⟩
    rfl
  obtain ⟨hsurvive, hdelivers, -⟩ :=
    raw_messages_delivered_iff plainCodecs plainQueue {} [hi] [publishedHi] hcompress hpublish
  exact ⟨hpublish, hdelivers.mpr (.inr ⟨rfl, nofun⟩), fun h => List.cons_ne_nil _ _ (hsurvive.mp h)⟩

/-- With a serialize type the deserializer runs on the raw message, without a type. -/
theorem gobQueue_loses_hi :
    publish plainCodecs gobQueue {} [hi] = .ok (.ok [publishedHi]) ∧
    unsealRaw plainCodecs gobQueue.compressOnly publishedHi.payload =
      .ok { dst := ascii "hi", isRaw := false } ∧
    messageConvertFrom plainCodecs gobQueue publishedHi = .error .reflect ∧
    subscribe plainCodecs gobQueue [publishedHi] = ⟨[], some .reflect⟩ :=
  ⟨rfl, rfl, rfl, rfl⟩

end Gofusion.Mq
