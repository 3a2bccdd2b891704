import Gofusion.Config.ConfuseKey
import Gofusion.Lib.Base64
import Gofusion.Lib.Pipeline
import Gofusion.Utils.Text

/-!
# Named crypto configurations

`cryptoConfig` of `config/candy.go`, `ToOptionMap` and `ToOptions` of `config/types.go` and
the two functions of `config/crypto.go` that look up a configuration by its name.

`cryptoConfig` makes a new map of custom configurations before it goes over them, so every custom
name is missing.  The ciphers, compressions and encodings are parameters.
-/

namespace Gofusion.Config

open Gofusion.Lib

/-! ## Algorithms -/

/-- `cipher.Algorithm` without the unknown one. -/
inductive CipherAlgorithm
  | des
  | tripleDES
  | aes
  | rc4
  | chaCha20poly1305
  | xChaCha20poly1305
  | sm4
deriving DecidableEq, Repr

/-- `cipher.Mode` without the unknown one. -/
inductive CipherMode
  | ecb
  | cbc
  | cfb
  | ctr
  | ofb
  | gcm
  | stream
deriving DecidableEq, Repr

/-- `compress.Algorithm` without the unknown one. -/
inductive CompressAlgorithm
  | zstd
  | zlib
  | s2
  | gzip
  | deflate
deriving DecidableEq, Repr

/-- `encode.Algorithm` without the unknown one. -/
inductive EncodeAlgorithm
  | hex
  | base32Std
  | base32Hex
  | base64Std
  | base64URL
  | base64RawStd
  | base64RawURL
deriving DecidableEq, Repr

/-- The element of an enumeration with a name.  `none` is the unknown element. -/
def parseEnum {α : Type} (mapping : List (α × String)) (s : Text) : Option α :=
  (mapping.find? fun entry => entry.2.toList = s).map Prod.fst

def parseCipherAlgorithm : Text → Option CipherAlgorithm :=
  parseEnum [(.des, "des"), (.tripleDES, "3des"), (.aes, "aes"), (.rc4, "rc4"),
    (.chaCha20poly1305, "chacha20poly1305"), (.xChaCha20poly1305, "xchacha20poly1305"),
    (.sm4, "sm4")]

def parseMode : Text → Option CipherMode :=
  parseEnum [(.ecb, "ecb"), (.cbc, "cbc"), (.cfb, "cfb"), (.ctr, "ctr"), (.ofb, "ofb"),
    (.gcm, "gcm"), (.stream, "stream")]

def parseCompressAlgorithm : Text → Option CompressAlgorithm :=
  parseEnum [(.zstd, "zstd"), (.zlib, "zlib"), (.s2, "s2"), (.gzip, "gzip"),
    (.deflate, "deflate")]

def parseEncodeAlgorithm : Text → Option EncodeAlgorithm :=
  parseEnum [(.hex, "hex"), (.base32Std, "base32"), (.base32Hex, "base32-hex"),
    (.base64Std, "base64"), (.base64URL, "base64-url"), (.base64RawStd, "base64-raw"),
    (.base64RawURL, "base64-raw-url")]

/-! ## Configurations -/

/-- `cryptoConf` as it is written in a configuration. -/
structure CryptoSettings where
  keyBase64 : Text
  confuseKey : Bool
  ivBase64 : Text
  algorithm : Text
  mode : Text
  compressAlgorithm : Option Text
  outputAlgorithm : Option Text
deriving DecidableEq, Repr

structure CryptoConf where
  config : Option CryptoSettings
  custom : Text → Option CryptoSettings

/-- The fields of `cryptoConf` that are computed. -/
structure CryptoEntry where
  key : Bytes
  confuseKey : Bool
  iv : Bytes
  algorithm : Option CipherAlgorithm
  mode : Option CipherMode
  compressAlgorithm : Option CompressAlgorithm
  outputAlgorithm : Option EncodeAlgorithm
deriving DecidableEq, Repr

/-- An optional name that is not blank. -/
def parseOptional {α : Type} (parse : Text → Option α) (s : Option Text) : Option α :=
  s.bind fun name => if isStrBlank name then none else parse name

/-- `parseCfgFunc`.  It panics on a key that is not Base64. -/
def parseCfgFunc (c : CryptoSettings) : Option CryptoEntry := do
  let key ← Base64.decode c.keyBase64
  let iv ← Base64.decode c.ivBase64
  return {
    key := key
    confuseKey := c.confuseKey
    iv := iv
    algorithm := parseCipherAlgorithm c.algorithm
    mode := parseMode c.mode
    compressAlgorithm := parseOptional parseCompressAlgorithm c.compressAlgorithm
    outputAlgorithm := parseOptional parseEncodeAlgorithm c.outputAlgorithm }

/-- `CryptoConf` after `cryptoConfig`. -/
structure ParsedConf where
  config : Option CryptoEntry
  custom : Text → Option CryptoEntry

/-- `cryptoConfig`.  The map of custom configurations is made anew. -/
def cryptoConfig (conf : CryptoConf) : Option ParsedConf := do
  let config ← conf.config.mapM parseCfgFunc
  return { config := config, custom := fun _ => none }

/-! ## Steps -/

inductive Step
  | cipher (algorithm : CipherAlgorithm) (mode : Option CipherMode) (key iv : Bytes)
  | compress (algorithm : CompressAlgorithm)
  | encode (algorithm : EncodeAlgorithm)
deriving DecidableEq, Repr

def CryptoEntry.toOptions (source : Source) (c : CryptoEntry) : List Step :=
  match c.algorithm with
  | none => []
  | some algorithm =>
    let key := if c.confuseKey then cryptoConfuseKey source c.key else c.key
    .cipher algorithm c.mode key c.iv :: (c.compressAlgorithm.map Step.compress).toList ++
      (c.outputAlgorithm.map Step.encode).toList

def ParsedConf.toOptionMap (source : Source) (c : ParsedConf) (name : Text) :
    Option (List Step) :=
  match c.custom name with
  | some cfg => some (cfg.toOptions source)
  | none => if name = [] then c.config.map (CryptoEntry.toOptions source) else none

/-- What the steps do with bytes. -/
structure Codec (ε : Type) where
  encode : Step → Bytes → Except ε Bytes
  decode : Step → Bytes → Except ε Bytes

/-- Why a call panics: a key that is not Base64, or a step that fails. -/
inductive CryptoPanic (ε : Type)
  | base64
  | step (e : ε)
deriving DecidableEq, Repr

variable {ε : Type} (codec : Codec ε) (source : Source) (conf : CryptoConf) (name : Text)

/-- The steps that are applied for a name, or a panic. -/
def stepsFor : Option (List Step) := do
  let parsed ← cryptoConfig conf
  return (parsed.toOptionMap source name).getD []

/-- `CryptoEncryptFunc` with the name of a configuration. -/
def cryptoEncryptFunc (src : Bytes) : Except (CryptoPanic ε) Bytes :=
  match stepsFor source conf name with
  | none => .error .base64
  | some steps => (runAll codec.encode steps src).mapError .step

/-- `CryptoDecryptFunc` with the name of a configuration. -/
def cryptoDecryptFunc (src : Bytes) : Except (CryptoPanic ε) Bytes :=
  match stepsFor source conf name with
  | none => .error .base64
  | some steps => (runAll codec.decode steps.reverse src).mapError .step

/-! ## Names that are honoured -/

/-- The settings under a name.  The name of the default configuration is empty, and a custom
configuration comes first. -/
def CryptoConf.stored : Option CryptoSettings :=
  (conf.custom name).or (if name = [] then conf.config else none)

/-- There is a default configuration, and all configurations have a valid algorithm and keys
in Base64. -/
structure CryptoConf.Valid (conf : CryptoConf) : Prop where
  default : conf.config ≠ none
  parses : ∀ settings, conf.config = some settings ∨ (∃ name, conf.custom name = some settings) →
    ∃ entry, parseCfgFunc settings = some entry ∧ entry.algorithm ≠ none

/-- The steps for a name are those of a configuration, there is at least one, and decryption
inverts encryption. -/
structure Honoured (entry : CryptoEntry) : Prop where
  steps : stepsFor source conf name = some (entry.toOptions source)
  nonempty : entry.toOptions source ≠ []
  inverts : ∀ src dst, cryptoEncryptFunc codec source conf name src = .ok dst →
    cryptoDecryptFunc codec source conf name dst = .ok src

section

variable {codec source conf name}

theorem toOptions_ne_nil {entry : CryptoEntry} (h : entry.algorithm ≠ none) :
    entry.toOptions source ≠ [] := by
  obtain ⟨algorithm, halg⟩ := Option.ne_none_iff_exists'.mp h
  simp [CryptoEntry.toOptions, halg]

/-- What `stepsFor` gives: the steps of the default configuration for the empty name, and no
steps for any other. -/
theorem stepsFor_valid {entry : CryptoEntry}
    (hdefault : conf.config = some settings) (hparse : parseCfgFunc settings = some entry) :
    stepsFor source conf name = some (if name = [] then entry.toOptions source else []) := by
  by_cases hname : name = [] <;>
    simp [stepsFor, cryptoConfig, hdefault, hparse, ParsedConf.toOptionMap, hname]

/-- What is encrypted under a name is decrypted under it. -/
theorem decrypt_encrypt (hcodec : Undoes codec.encode codec.decode)
    (h : cryptoEncryptFunc codec source conf name src = .ok dst) :
    cryptoDecryptFunc codec source conf name dst = .ok src := by
  unfold cryptoEncryptFunc at h
  unfold cryptoDecryptFunc
  cases hsteps : stepsFor source conf name with
  | none => rw [hsteps] at h; cases h
  | some steps =>
    rw [hsteps] at h
    dsimp only at h ⊢
    cases hrun : runAll codec.encode steps src with
    | error e => rw [hrun] at h; cases h
    | ok y =>
      rw [hrun] at h
      cases h
      rw [hcodec.runAll_reverse hrun]
      rfl

end

/-- A configured name is honoured exactly when it is the empty one and its configuration has
the steps of the default configuration, so if no custom configuration has the empty name.
For every other name the plaintext is passed through. -/
theorem crypto_name_honoured_iff (hcodec : Undoes codec.encode codec.decode) (hvalid : conf.Valid)
    {settings : CryptoSettings} {entry : CryptoEntry} (hname : conf.stored name = some settings)
    (hentry : parseCfgFunc settings = some entry) :
    (Honoured codec source conf name entry ↔ name = [] ∧ ∀ settings' entry',
      conf.config = some settings' → parseCfgFunc settings' = some entry' →
        entry'.toOptions source = entry.toOptions source) ∧
    (name ≠ [] → ∀ src, cryptoEncryptFunc codec source conf name src = .ok src) := by
  obtain ⟨settings₀, hdefault⟩ := Option.ne_none_iff_exists'.mp hvalid.default
  obtain ⟨entry₀, hparse, -⟩ := hvalid.parses settings₀ (.inl hdefault)
  have hsteps : stepsFor source conf name =
      some (if name = [] then entry₀.toOptions source else []) := stepsFor_valid hdefault hparse
  have hne : entry.toOptions source ≠ [] := by
    have hset : conf.config = some settings ∨ ∃ name, conf.custom name = some settings := by
      rcases Option.or_eq_some_iff.mp hname with h | ⟨-, h⟩
      · exact .inr ⟨name, h⟩
      · split at h
        · exact .inl h
        · cases h
    obtain ⟨entry', hentry', halg⟩ := hvalid.parses settings hset
    cases hentry.symm.trans hentry'
    exact toOptions_ne_nil halg
  refine ⟨⟨fun h => ?_, fun ⟨hempty, hsame⟩ => ?_⟩, fun hempty src => ?_⟩
  · have heq := Option.some.inj (hsteps.symm.trans h.steps)
    by_cases hempty : name = []
    · refine ⟨hempty, fun settings' entry' hs' he' => ?_⟩
      cases hdefault.symm.trans hs'
      cases hparse.symm.trans he'
      rwa [if_pos hempty] at heq
    · rw [if_neg hempty] at heq
      exact absurd heq.symm hne
  · refine ⟨?_, hne, fun src dst => decrypt_encrypt hcodec⟩
    rw [hsteps, if_pos hempty, hsame settings₀ entry₀ hdefault hparse]
  · rw [cryptoEncryptFunc, hsteps, if_neg hempty]
    rfl

/-- A configuration for AES, with the output in hexadecimal digits. -/
def aesSettings : CryptoSettings where
  keyBase64 := "AAECAwQFBgcICQoLDA0ODw==".toList
  confuseKey := false
  ivBase64 := []
  algorithm := "aes".toList
  mode := "ecb".toList
  compressAlgorithm := none
  outputAlgorithm := some "hex".toList

/-- It is the default configuration and the custom configuration of one name. -/
def auditConf : CryptoConf where
  config := some aesSettings
  custom name := if name = "audit".toList then some aesSettings else none

/-- A codec whose steps flip a bit of every byte. -/
def flipCodec : Codec Unit where
  encode _ src := .ok (src.map (· ^^^ 1))
  decode _ src := .ok (src.map (· ^^^ 1))

def aesEntry : CryptoEntry :=
  ⟨(List.range 16).map UInt8.ofNat, false, [], some .aes, some .ecb, none, some .hex⟩

theorem parse_aesSettings : parseCfgFunc aesSettings = some aesEntry := by decide

theorem auditConf_stored {name : Text} {settings : CryptoSettings}
    (h : auditConf.custom name = some settings) : settings = aesSettings := by
  simp only [auditConf] at h
  split at h
  · exact (Option.some.inj h).symm
  · cases h

/-- The custom name has steps, and the plaintext is passed through. -/
theorem audit_not_encrypted :
    auditConf.stored "audit".toList = some aesSettings ∧
    parseCfgFunc aesSettings = some aesEntry ∧
    aesEntry.toOptions (fun _ _ => 0) ≠ [] ∧
    cryptoEncryptFunc flipCodec (fun _ _ => 0) auditConf "audit".toList [104, 105] =
      .ok [104, 105] := by
  refine ⟨rfl, parse_aesSettings, by simp [CryptoEntry.toOptions, aesEntry], ?_⟩
  rw [cryptoEncryptFunc, stepsFor_valid rfl parse_aesSettings]
  rfl

theorem default_honoured :
    Honoured flipCodec (fun _ _ => 0) auditConf [] aesEntry := by
  have hcodec : Undoes flipCodec.encode flipCodec.decode := by
    have hflip : (fun b : UInt8 => b ^^^ 1) ∘ (fun b => b ^^^ 1) = id := by
      funext b
      exact (UInt8.xor_assoc b 1 1).trans UInt8.xor_zero
    rintro step x y ⟨⟩
    simp [flipCodec, hflip]
  have hvalid : auditConf.Valid := by
    refine ⟨nofun, ?_⟩
    rintro settings (h | ⟨name, h⟩)
    · cases h
      exact ⟨aesEntry, parse_aesSettings, nofun⟩
    · rw [auditConf_stored h]
      exact ⟨aesEntry, parse_aesSettings, nofun⟩
  have hstored : auditConf.stored [] = some aesSettings := rfl
  refine (crypto_name_honoured_iff flipCodec (fun _ _ => 0) auditConf [] hcodec hvalid hstored
    parse_aesSettings).1.mpr ⟨rfl, ?_⟩
  rintro _ entry ⟨⟩ h
  cases h.symm.trans parse_aesSettings
  rfl

end Gofusion.Config
