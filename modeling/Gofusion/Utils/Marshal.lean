import Gofusion.Lib.Base64
import Gofusion.Utils.Panic
import Gofusion.Utils.Text

/-!
# Marshalling

`JsonStringify`, `Marshal` and `Unmarshal` of `common/utils/marshal.go`, and how
`initAllConfigByRemote` of `config/registry.go` reads the settings of a remote source through them.
A library for a format is an encoder with a decoder that inverts it.
-/

namespace Gofusion.Utils

/-- A library for one format. -/
structure Format (S : Type) where
  /-- The text of a value, `none` on an error. -/
  encode : S → Option (List UInt8)
  decode : List UInt8 → Option S
  decode_encode : ∀ {s text}, encode s = some text → decode text = some s

variable {S : Type}

/-! ## JSON in a JSON string -/

def ascii (s : Text) : List UInt8 := s.map (UInt8.ofNat ·.toNat)

/-- The bytes that a JSON text can begin with: those of an object, an array, a string, a number, a
literal or white space. -/
def jsonStarts : List UInt8 := ascii "\x7b[\"-0123456789tfn \t\n\r".toList

/-- The JSON library on the values of one type and on strings. -/
structure Json (S : Type) where
  value : Format S
  string : Format Text
  starts : ∀ {text v}, value.decode text = some v → ∃ b ∈ jsonStarts, text.head? = some b

/-- `MarshalJSON`.  The inner text is a byte slice, which is encoded as base64. -/
def Json.marshalJSON (json : Json S) (v : S) : Option (List UInt8) := do
  let buf ← json.value.encode v
  json.string.encode (Lib.Base64.encode buf)

/-- `UnmarshalJSON`.  The inner text is a string. -/
def Json.unmarshalJSON (json : Json S) (input : List UInt8) : Option S := do
  let buf ← json.string.decode input
  json.value.decode (buf.flatMap String.utf8EncodeChar)

/-- A value that is serialised comes back. -/
def Json.RoundTrips (json : Json S) (v : S) : Prop :=
  ∀ output, json.marshalJSON v = some output → json.unmarshalJSON output = some v

/-- The first symbol of a base64 text. -/
theorem head?_encode (a : UInt8) (rest : List UInt8) :
    (Lib.Base64.encode (a :: rest)).head? = some (Lib.Base64.symbol (a.toNat / 4)) := by
  have hword : ∀ b c : UInt8,
      (a.toNat * 2 ^ 16 + b.toNat * 2 ^ 8 + c.toNat) / 2 ^ 18 = a.toNat / 4 := by
    intro b c
    have hb := b.toNat_lt
    have hc := c.toNat_lt
    omega
  rcases rest with _ | ⟨b, _ | ⟨c, rest⟩⟩ <;>
    simp only [Lib.Base64.encode, Lib.Base64.symbols, hword] <;> rfl

/-- The base64 of a JSON text begins like no JSON text. -/
theorem symbol_not_start : jsonStarts.all (fun a =>
    match String.utf8EncodeChar (Lib.Base64.symbol (a.toNat / 4)) with
    | [] => false
    | b :: _ => !jsonStarts.contains b) = true := by
  decide

/-- No value that is serialised comes back. -/
theorem stringify_roundTrips_iff (json : Json S) (v : S) :
    json.RoundTrips v ↔ json.marshalJSON v = none := by
  refine ⟨fun h => ?_, fun h output houtput => by simp [h] at houtput⟩
  by_contra hsome
  obtain ⟨output, houtput⟩ := Option.ne_none_iff_exists'.mp hsome
  obtain ⟨buf, hbuf, hstring⟩ := Option.bind_eq_some_iff.mp houtput
  have hread := h output houtput
  rw [Json.unmarshalJSON, json.string.decode_encode hstring] at hread
  obtain ⟨a, ha, hhead⟩ := json.starts (json.value.decode_encode hbuf)
  obtain ⟨b, hb, hhead'⟩ := json.starts hread
  obtain ⟨rest, rfl⟩ : ∃ rest, buf = a :: rest := List.head?_eq_some_iff.mp hhead
  obtain ⟨symbols, hsymbols⟩ := List.head?_eq_some_iff.mp (head?_encode a rest)
  have hnot := List.all_eq_true.mp symbol_not_start a ha
  rw [hsymbols, List.flatMap_cons] at hhead'
  split at hnot
  · cases hnot
  · next c cs hbytes =>
    rw [hbytes] at hhead'
    cases hhead'
    simp [hb] at hnot

/-- The format with a text for each of some values. -/
def Format.ofTexts [DecidableEq S] (vs : List S) (text : S → List UInt8)
    (h : ∀ v ∈ vs, vs.find? (text v = text ·) = some v) : Format S where
  encode v := if v ∈ vs then some (text v) else none
  decode b := vs.find? (b = text ·)
  decode_encode hv := by
    obtain ⟨hmem, ⟨⟩⟩ := Option.ite_none_right_eq_some.mp hv
    exact h _ hmem

/-- Booleans as in JSON. -/
def literals : Format Bool :=
  .ofTexts [true, false] (fun b => ascii (if b then "true" else "false").toList) (by decide)

/-- JSON of booleans, and of the base64 texts of these. -/
def boolJson : Json Bool where
  value := literals
  string := .ofTexts ["dHJ1ZQ==".toList, "ZmFsc2U=".toList] (fun s => ascii ('"' :: s ++ ['"']))
    (by decide)
  starts {text v} h := by
    have hmem := List.find?_some h
    obtain rfl := of_decide_eq_true hmem
    cases v
    · exact ⟨102, by decide, rfl⟩
    · exact ⟨116, by decide, rfl⟩

theorem boolJson_not_roundTrips :
    boolJson.marshalJSON true = some (ascii "\"dHJ1ZQ==\"".toList) ∧ ¬boolJson.RoundTrips true := by
  have hout : boolJson.marshalJSON true = some (ascii "\"dHJ1ZQ==\"".toList) := by decide
  exact ⟨hout, fun h => nomatch h _ hout⟩

/-! ## Settings of a remote source -/

inductive MarshalType
  | json
  | yaml
  | yml
  | toml
  | hcl
  | tfvars
  | other (tag : Text)
deriving DecidableEq, Repr

/-- The libraries.  `hcl` is `marshalHCL` with `hcl.Unmarshal`. -/
structure Formats (S : Type) where
  json : Format S
  yaml : Format S
  toml : Format S
  hcl : Format S
  gob : Format S
  gob_empty : gob.decode [] = none

def Formats.format (F : Formats S) : MarshalType → Format S
  | .json => F.json
  | .yaml | .yml => F.yaml
  | .toml => F.toml
  | .hcl | .tfvars => F.hcl
  | .other _ => F.gob

/-- `Marshal`.  HCL gets the `nil` result in place of the settings, and `null` is no HCL.  An unknown
format decodes the empty buffer. -/
def Formats.marshal (F : Formats S) (s : S) : MarshalType → Option (List UInt8)
  | .json => F.json.encode s
  | .yaml | .yml => F.yaml.encode s
  | .toml => F.toml.encode s
  | .hcl | .tfvars => none
  | .other _ => (F.gob.decode []).map fun _ => []

/-- `Unmarshal` of a text. -/
def Formats.unmarshal (F : Formats S) (text : List UInt8) (tag : MarshalType) : Option S :=
  (F.format tag).decode text

/-- How `initAllConfigByRemote` fills the configurations of the components and of the business. -/
def Formats.initAllConfigByRemote (F : Formats S) (allSettings : S)
    (configType : Option MarshalType) : Except Panic (S × S) :=
  let tag := configType.getD .yaml
  match F.marshal allSettings tag with
  | none => .error .must
  | some text =>
    match F.unmarshal text tag with
    | none => .error .must
    | some s => .ok (s, s)

/-- Settings with a text in the format come back, also as a remote source. -/
def Formats.Keeps (F : Formats S) (tag : MarshalType) (s : S) : Prop :=
  ((F.format tag).encode s).isSome →
    (F.marshal s tag).bind (F.unmarshal · tag) = some s ∧
      F.initAllConfigByRemote s (some tag) = .ok (s, s)

/-- A format keeps a value exactly if it is read back from what is written. -/
theorem keeps_iff (F : Formats S) (tag : MarshalType) (s : S) :
    F.Keeps tag s ↔ (((F.format tag).encode s).isSome →
      (F.marshal s tag).bind (F.unmarshal · tag) = some s) := by
  refine forall_congr' fun _ => ⟨And.left, fun h => ⟨h, ?_⟩⟩
  obtain ⟨text, htext, hs⟩ := Option.bind_eq_some_iff.mp h
  simp [Formats.initAllConfigByRemote, htext, hs]

theorem keeps_of_marshal {F : Formats S} {tag : MarshalType} {s : S}
    (h : F.marshal s tag = (F.format tag).encode s) : F.Keeps tag s := by
  rw [keeps_iff, h]
  intro hsome
  obtain ⟨text, htext⟩ := Option.isSome_iff_exists.mp hsome
  rw [htext]
  exact (F.format tag).decode_encode htext

/-- Four formats keep all settings, HCL and gob none that they can represent. -/
theorem formats_keep_iff (F : Formats S) (tag : MarshalType) (s : S) :
    F.Keeps tag s ↔
      match tag with
      | .json | .yaml | .yml | .toml => True
      | .hcl | .tfvars => F.hcl.encode s = none
      | .other _ => F.gob.encode s = none := by
  cases tag with
  | json | yaml | yml | toml => exact iff_of_true (keeps_of_marshal rfl) trivial
  | hcl | tfvars => simp [keeps_iff, Formats.marshal, Formats.format]
  | other tag =>
    rw [keeps_iff, Formats.marshal, F.gob_empty]
    simp [Formats.format]

/-- The literals as every format. -/
def boolFormats : Formats Bool := ⟨literals, literals, literals, literals, literals, rfl⟩

theorem boolFormats_not_keep :
    boolFormats.initAllConfigByRemote true (some .hcl) = .error .must ∧
    ¬boolFormats.Keeps .hcl true ∧ ¬boolFormats.Keeps (.other "gob".toList) true := by
  refine ⟨rfl, fun h => ?_, fun h => ?_⟩
  all_goals exact nomatch (h rfl).1

end Gofusion.Utils
