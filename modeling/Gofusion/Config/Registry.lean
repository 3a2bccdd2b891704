import Gofusion.Config.Crypto
import Mathlib.Data.List.Induction

/-!
# Loading and reloading configurations

`initAllConfig`, `initAllConfigByRemote` and `watchRemoteConfigChange` of
`config/registry.go`, `ParseTag` of `common/utils/tag.go` and `CryptoDecryptByTag` of
`config/crypto.go`.

A configuration is its fields with their values.  Settings give values to some of the fields, and
`Unmarshal` writes those and no others.  At the start the sources are written over each other,
blank fields get their default, and fields with the `encrypted` tag are decrypted.  On a change of
the remote settings nothing is decrypted, and nothing takes back what earlier ones have written.

The configurations have no methods `BeforeLoad` and `AfterLoad` here.
-/

namespace Gofusion.Config

/-! ## One configuration -/

/-- The fields of a configuration type: their zero value, the values that count as blank
(as a value, and as a text), and the tags `default` and `encrypted`. -/
structure Schema (F V : Type) where
  zero : F → V
  isBlank : V → Bool
  isStrBlank : V → Bool
  default : F → Option V
  encrypted : F → Option Text

variable {F V : Type}

/-- `Unmarshal` writes the fields that are in the settings. -/
def unmarshal (settings : F → Option V) (conf : F → V) : F → V :=
  fun f => (settings f).getD (conf f)

namespace Schema

variable (σ : Schema F V)

def withDefault (f : F) (v : V) : V := if σ.isBlank v then (σ.default f).getD v else v

/-- `ParseTag` with the tag `default`. -/
def parseTag (conf : F → V) : F → V := fun f => σ.withDefault f (conf f)

/-- The value of a field after `CryptoDecryptByTag`.  `options` is the map of the crypto
configurations, and `decode` runs the steps on a value. -/
def decrypted (decode : List Step → V → V) (options : Text → Option (List Step)) (f : F) (v : V) :
    V :=
  match (σ.encrypted f).bind options with
  | none => v
  | some steps => if σ.isStrBlank v then v else decode steps.reverse v

/-- `CryptoDecryptByTag`. -/
def decryptByTag (decode : List Step → V → V) (options : Text → Option (List Step))
    (conf : F → V) : F → V :=
  fun f => σ.decrypted decode options f (conf f)

end Schema

/-! ## The registry -/

variable {C B : Type}

/-- Settings for the component configurations and for the business configuration. -/
structure Settings (C B V : Type) where
  component : C → Option V
  business : B → Option V

/-- `componentConfigValue` and `businessConfigValue`. -/
@[ext] structure Stored (C B V : Type) where
  component : C → V
  business : B → V

/-- What a registry knows about its configurations.  `crypto` is the crypto component among
the component configurations, `decode` what the steps do with a value. -/
structure Registry (C B V : Type) where
  componentType : Schema C V
  businessType : Schema B V
  crypto : (C → V) → CryptoConf
  source : Source
  decode : List Step → V → V

structure Sources (C B V : Type) where
  files : Settings C B V
  env : Settings C B V
  flags : Settings C B V

variable (r : Registry C B V)

/-- `initAllConfigByLoadFunc`, `initAllConfigByEnv` and `initAllConfigByFlag`. -/
def Registry.initLocal (sources : Sources C B V) : Stored C B V where
  component := unmarshal sources.flags.component (unmarshal sources.env.component
    (unmarshal sources.files.component r.componentType.zero))
  business := unmarshal sources.flags.business (unmarshal sources.env.business
    (unmarshal sources.files.business r.businessType.zero))

def Registry.initAllConfigByRemote (remote : Settings C B V) (s : Stored C B V) :
    Stored C B V where
  component := unmarshal remote.component (r.componentType.parseTag s.component)
  business := unmarshal remote.business s.business

/-- The map of the crypto configurations. -/
def Registry.options (component : C → V) (name : Text) : Option (List Step) :=
  (cryptoConfig (r.crypto component)).bind fun parsed => parsed.toOptionMap r.source name

def Registry.initPlain (sources : Sources C B V) (remote : Settings C B V) : Stored C B V :=
  let s := r.initAllConfigByRemote remote (r.initLocal sources)
  ⟨r.componentType.parseTag s.component, r.businessType.parseTag s.business⟩

def Registry.initAllConfig (sources : Sources C B V) (remote : Settings C B V) : Stored C B V :=
  let s := r.initPlain sources remote
  let options := r.options s.component
  ⟨r.componentType.decryptByTag r.decode options s.component,
    r.businessType.decryptByTag r.decode options s.business⟩

/-- `watchRemoteConfigChange` on new remote settings. -/
def Registry.watchRemoteConfigChange (s : Stored C B V) (remote : Settings C B V) :
    Stored C B V :=
  ⟨r.componentType.parseTag (unmarshal remote.component s.component),
    r.businessType.parseTag (unmarshal remote.business s.business)⟩

/-- What is stored after some changes of the remote settings. -/
def Registry.reload (sources : Sources C B V) (remote : Settings C B V)
    (events : List (Settings C B V)) : Stored C B V :=
  events.foldl r.watchRemoteConfigChange (r.initAllConfig sources remote)

/-! ## The value of a field -/

/-- The last value that some settings carry for a field. -/
def lastCarried (events : List (F → Option V)) (f : F) : Option V :=
  events.reverse.findSome? (· f)

section

variable (σ : Schema F V)

theorem withDefault_idem (f : F) (v : V) :
    σ.withDefault f (σ.withDefault f v) = σ.withDefault f v := by
  unfold Schema.withDefault
  cases σ.default f with
  | none => simp
  | some d =>
    by_cases hv : σ.isBlank v
    · simp [hv]
    · simp [hv]

theorem lastCarried_concat (events : List (F → Option V)) (e : F → Option V) (f : F) :
    lastCarried (events ++ [e]) f = (e f).or (lastCarried events f) := by
  cases h : e f <;> simp [lastCarried, h]

/-- A field after some changes: the last value that was carried, or the one from before, and
the default if that is blank. -/
theorem foldl_parseTag {events : List (F → Option V)} (hne : events ≠ []) (conf : F → V) (f : F) :
    events.foldl (fun conf e => σ.parseTag (unmarshal e conf)) conf f =
      σ.withDefault f ((lastCarried events f).getD (conf f)) := by
  induction events using List.reverseRecOn with
  | nil => exact absurd rfl hne
  | append_singleton events e ih =>
    rw [List.foldl_append, lastCarried_concat]
    simp only [List.foldl_cons, List.foldl_nil, Schema.parseTag, unmarshal]
    cases he : e f with
    | some v => rfl
    | none =>
      by_cases hnil : events = []
      · subst hnil
        rfl
      · simp [ih hnil, withDefault_idem]

end

section

variable {r} {sources : Sources C B V}

theorem initPlain_component (remote : Settings C B V) (f : C) :
    (r.initPlain sources remote).component f = r.componentType.withDefault f
      ((remote.component f).getD ((r.initLocal sources).component f)) := by
  simp only [Registry.initPlain, Registry.initAllConfigByRemote, Schema.parseTag, unmarshal]
  cases remote.component f with
  | some v => rfl
  | none => exact withDefault_idem _ f _

theorem reload_component {events : List (Settings C B V)} :
    (r.reload sources remote events).component =
      (events.map Settings.component).foldl (fun conf e => r.componentType.parseTag (unmarshal e conf))
        (r.initAllConfig sources remote).component := by
  rw [Registry.reload, List.foldl_map]
  exact (List.foldl_hom Stored.component fun _ _ => rfl).symm

theorem reload_business {events : List (Settings C B V)} :
    (r.reload sources remote events).business =
      (events.map Settings.business).foldl (fun conf e => r.businessType.parseTag (unmarshal e conf))
        (r.initAllConfig sources remote).business := by
  rw [Registry.reload, List.foldl_map]
  exact (List.foldl_hom Stored.business fun _ _ => rfl).symm

end

/-! ## Reloading and a fresh load -/

/-- What the sources besides the remote one give to a field. -/
def givenLocally (flags env files : F → Option V) (zero : F → V) (f : F) : V :=
  ((flags f).or ((env f).or (files f))).getD (zero f)

/-- The decoder of a field with an `encrypted` tag that names a crypto configuration. -/
def Registry.cipher (options : Text → Option (List Step)) (σ : Schema F V) (f : F) :
    Option (V → V) :=
  ((σ.encrypted f).bind options).map fun steps => r.decode steps.reverse

/-- A text that is not blank is decoded. -/
def Schema.opened (σ : Schema F V) (decode : V → V) (v : V) : V :=
  if σ.isStrBlank v then v else decode v

/-- When a field has the value of a fresh load after some changes.  All values are meant with the
default in the place of a blank one.

* `removed`: a field that is not encrypted and that the last settings do not carry.  What the
  remote settings carried last, at the start or in a change, is what the other sources give.
* `carried`: an encrypted field in the last settings is blank.
* `dropped`: an encrypted field that only an earlier change carried has the plaintext of what the
  other sources give.
* `untouched`: the plaintext that an encrypted field had at the start is the one of the other
  sources, and not blank where there is a default. -/
structure FieldKept (σ : Schema F V) (cipher : F → Option (V → V)) (given : F → V)
    (remote : F → Option V) (events : List (F → Option V)) (final : F → Option V) (f : F) :
    Prop where
  removed : cipher f = none → final f = none → ∀ v, lastCarried (remote :: events) f = some v →
    σ.withDefault f v = σ.withDefault f (given f)
  carried : ∀ decode, cipher f = some decode → ∀ v, final f = some v →
    σ.isStrBlank (σ.withDefault f v) = true
  dropped : ∀ decode, cipher f = some decode → final f = none →
    ∀ v, lastCarried events f = some v →
      σ.withDefault f v = σ.opened decode (σ.withDefault f (given f))
  untouched : ∀ decode, cipher f = some decode → lastCarried events f = none →
    σ.withDefault f (σ.opened decode (σ.withDefault f ((remote f).getD (given f)))) =
      σ.opened decode (σ.withDefault f (given f))

theorem lastCarried_cons (e : F → Option V) (events : List (F → Option V)) (f : F) :
    lastCarried (e :: events) f = (lastCarried events f).or (e f) := by
  simp [lastCarried, List.findSome?_append]

/-- A field is opened by the cipher of its tag, if there is one. -/
theorem decrypted_eq (σ : Schema F V) (options : Text → Option (List Step)) (f : F) (v : V) :
    σ.decrypted r.decode options f v = ((r.cipher options σ f).map (σ.opened · v)).getD v := by
  rw [Schema.decrypted, Registry.cipher]
  cases (σ.encrypted f).bind options <;> rfl

variable {r}

/-- What a field of the component configuration has after the start. -/
theorem initAllConfig_component (sources : Sources C B V) (remote : Settings C B V) (f : C) :
    (r.initAllConfig sources remote).component f = r.componentType.decrypted r.decode
      (r.options (r.initPlain sources remote).component) f (r.componentType.withDefault f
        ((remote.component f).getD (givenLocally sources.flags.component sources.env.component
          sources.files.component r.componentType.zero f))) := by
  simp only [Registry.initAllConfig, Schema.decryptByTag, initPlain_component, Registry.initLocal,
    unmarshal, givenLocally, Option.getD_or]

theorem initAllConfig_business (sources : Sources C B V) (remote : Settings C B V) (f : B) :
    (r.initAllConfig sources remote).business f = r.businessType.decrypted r.decode
      (r.options (r.initPlain sources remote).component) f (r.businessType.withDefault f
        ((remote.business f).getD (givenLocally sources.flags.business sources.env.business
          sources.files.business r.businessType.zero f))) := by
  simp only [Registry.initAllConfig, Schema.decryptByTag, Registry.initPlain,
    Registry.initAllConfigByRemote, Schema.parseTag, Registry.initLocal, unmarshal, givenLocally,
    Option.getD_or]

/-- One field of a reloaded and of a freshly loaded configuration.  A decoder changes every text
that is not blank. -/
theorem fieldKept_iff {σ : Schema F V} (options : Text → Option (List Step))
    (hcipher : ∀ f decode, r.cipher options σ f = some decode →
      ∀ v, σ.isStrBlank v = false → decode v ≠ v) (f : F) :
    (events ++ [final]).foldl (fun conf e => σ.parseTag (unmarshal e conf))
        (fun f => σ.decrypted r.decode options f (σ.withDefault f ((remote f).getD (given f)))) f =
        σ.decrypted r.decode options f (σ.withDefault f ((final f).getD (given f))) ↔
      FieldKept σ (r.cipher options σ) given remote (events ++ [final]) final f := by
  rw [foldl_parseTag σ (by simp), decrypted_eq, decrypted_eq]
  cases hc : r.cipher options σ f with
  | none =>
    simp only [Option.map_none, Option.getD_none]
    cases hf : final f with
    | some v =>
      rw [lastCarried_concat, hf]
      exact iff_of_true rfl ⟨fun _ h => by simp [hf] at h, by simp [hc], by simp [hc], by simp [hc]⟩
    | none =>
      have hiff : FieldKept σ (r.cipher options σ) given remote (events ++ [final]) final f ↔
          ∀ v, lastCarried (remote :: (events ++ [final])) f = some v →
            σ.withDefault f v = σ.withDefault f (given f) :=
        ⟨fun h => h.removed hc hf, fun h => ⟨fun _ _ => h, by simp [hc], by simp [hc], by simp [hc]⟩⟩
      rw [hiff, lastCarried_cons]
      cases lastCarried (events ++ [final]) f <;> cases remote f <;>
        simp [withDefault_idem]
  | some decode =>
    have hdecode : ∀ v, v = σ.opened decode v ↔ σ.isStrBlank v = true := by
      intro v
      cases hv : σ.isStrBlank v with
      | true => simp [Schema.opened, hv]
      | false => simpa [Schema.opened, hv] using (hcipher f decode hc v hv).symm
    simp only [Option.map_some, Option.getD_some]
    cases hf : final f with
    | some v =>
      rw [lastCarried_concat, hf, Option.some_or, Option.getD_some, Option.getD_some, hdecode]
      constructor
      · intro h
        refine ⟨by simp [hc], ?_, ?_, ?_⟩
        · intro decode' _ v' hv'
          cases hf.symm.trans hv'
          exact h
        · intro decode' _ hnone
          cases hf.symm.trans hnone
        · intro decode' _ hnone
          simp [lastCarried_concat, hf] at hnone
      · intro h
        exact h.carried decode hc v hf
    | none =>
      rw [Option.getD_none]
      constructor
      · intro h
        refine ⟨by simp [hc], by simp [hf], ?_, ?_⟩
        · intro decode' hc' _ v hv
          cases hc.symm.trans hc'
          rwa [hv] at h
        · intro decode' hc' hnone
          cases hc.symm.trans hc'
          rwa [hnone] at h
      · intro h
        cases hlast : lastCarried (events ++ [final]) f with
        | some v => exact h.dropped decode hc hf v hlast
        | none => exact h.untouched decode hc hlast

/-- A business configuration with a token, which is encrypted, and a limit. -/
inductive AppField
  | token
  | limit
deriving DecidableEq, Repr

/-- It has no defaults, and a ciphertext has a bit flipped in every byte. -/
def appRegistry : Registry Empty AppField Bytes where
  componentType := ⟨nofun, List.isEmpty, List.isEmpty, nofun, nofun⟩
  businessType := ⟨fun _ => [], List.isEmpty, List.isEmpty, fun _ => none,
    fun f => if f = .token then some [] else none⟩
  crypto _ := auditConf
  source _ _ := 0
  decode _ v := v.map (· ^^^ 1)

/-- Settings of the business configuration only. -/
def appSettings (business : AppField → Option Bytes) : Settings Empty AppField Bytes :=
  ⟨nofun, business⟩

def noSources : Sources Empty AppField Bytes :=
  ⟨appSettings fun _ => none, appSettings fun _ => none, appSettings fun _ => none⟩

def setLimit : Settings Empty AppField Bytes :=
  appSettings fun f => if f = .limit then some [1] else none

def setToken : Settings Empty AppField Bytes :=
  appSettings fun f => if f = .token then some [5] else none

theorem appRegistry_decode_ne (f : AppField) (decode : Bytes → Bytes)
    (hdecode : appRegistry.cipher options appRegistry.businessType f = some decode) (v : Bytes)
    (h : v.isEmpty = false) : decode v ≠ v := by
  obtain ⟨steps, -, rfl⟩ := Option.map_eq_some_iff.mp hdecode
  cases v with
  | nil => cases h
  | cons b bs =>
    intro heq
    have hbit : b ^^^ (b ^^^ 1) = b ^^^ b := congrArg (b ^^^ ·) (List.cons.inj heq).1
    rw [← UInt8.xor_assoc, UInt8.xor_self, UInt8.zero_xor] at hbit
    cases hbit

end Gofusion.Config
