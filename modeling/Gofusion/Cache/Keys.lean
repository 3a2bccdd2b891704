import Gofusion.Cache.Loading

/-!
# Key types

The key types that `constraint.Sortable` admits, `cast.ToString`, which makes an inner key, and
`utils.SortableToGeneric`, which reads it back.  Both are switches on the type, and a type that is
defined as `type ID string` is none of their cases.
-/

namespace Gofusion.Cache

open Gofusion.Payload Gofusion.Utils Gofusion.Lib

/-- The widths of numbers.  `int` and `uint` are as wide as the 64 bit types. -/
inductive Width
  | w8 | w16 | w32 | w64

def Width.bits : Width → Nat
  | .w8 => 8
  | .w16 => 16
  | .w32 => 32
  | .w64 => 64

/-- The kinds of `constraint.Sortable`. -/
inductive Kind
  | int (width : Width)
  | uint (width : Width)
  | uintptr
  | float (width : Width)
  | string

/-- The values of a kind.  Floating point numbers are left open. -/
def Kind.Value (F : Width → Type) : Kind → Type
  | .int w | .uint w => BitVec w.bits
  | .uintptr => BitVec 64
  | .float w => F w
  | .string => Text

/-- A type of keys: one of the language, or a defined one, perhaps with a `String` method. -/
inductive KeyType (F : Width → Type)
  | builtin (kind : Kind)
  | defined (kind : Kind) (stringer : Option (kind.Value F → Text))

def KeyType.Value {F : Width → Type} : KeyType F → Type
  | .builtin kind | .defined kind _ => kind.Value F

/-- What `cast` takes from `strconv`.  Decimal texts of 64 bit numbers are read, but it is left open
up to which number above 2 ^ 63 unsigned ones are.  The text of a floating point number is the
shortest that is read as this number. -/
structure Strconv (F : Width → Type) where
  maxUint : Nat
  parseInt : Text → Option Int
  parseUint : Text → Option Nat
  formatFloat : (w : Width) → F w → Text
  parseFloat : (w : Width) → Text → F w
  isNaN : (w : Width) → F w → Bool
  parseInt_text : ∀ n : Int, -2 ^ 63 ≤ n → n < 2 ^ 63 →
    parseInt (Format.padInt false 0 n) = some n
  le_maxUint : 2 ^ 63 - 1 ≤ maxUint
  parseUint_text : ∀ n : Nat, n < 2 ^ 64 →
    parseUint (Format.padInt false 0 n) = if n ≤ maxUint then some n else none
  parseFloat_text : ∀ w f, isNaN w f = false → parseFloat w (formatFloat w f) = f
  parseFloat_idem : ∀ w f, formatFloat w (parseFloat w (formatFloat w f)) = formatFloat w f

variable {F : Width → Type} (s : Strconv F)

/-- `cast.ToString`. -/
def castToString : (t : KeyType F) → t.Value → Text
  | .builtin (.int _), n => Format.padInt false 0 n.toInt
  | .builtin (.uint _), n => Format.padInt false 0 n.toNat
  | .builtin .uintptr, _ => []
  | .builtin (.float w), f => s.formatFloat w f
  | .builtin .string, text => text
  | .defined _ (some string), k => string k
  | .defined _ none, _ => []

/-- `SortableToGeneric` from a string.  A text that is not read gives 0. -/
def sortableToGeneric : (t : KeyType F) → Text → Except Panic t.Value
  | .builtin (.int w), text => .ok (BitVec.ofInt w.bits ((s.parseInt text).getD 0))
  | .builtin (.uint w), text => .ok (BitVec.ofNat w.bits ((s.parseUint text).getD 0))
  | .builtin (.float w), text => .ok (s.parseFloat w text)
  | .builtin .string, text => .ok text
  | .builtin .uintptr, _ | .defined _ _, _ => .error .raised

/-- `==` on keys.  What is not a number is not equal to itself. -/
def KeyType.Same : (t : KeyType F) → t.Value → t.Value → Prop
  | .builtin (.float w), f, f' | .defined (.float w) _, f, f' => s.isNaN w f = false ∧ f = f'
  | _, k, k' => k = k'

def Readable : (t : KeyType F) → t.Value → Prop
  | .builtin (.int _), _ | .builtin .string, _ => True
  | .builtin (.uint _), n => n.toNat ≤ s.maxUint
  | .builtin (.float w), f => s.isNaN w f = false
  | .builtin .uintptr, _ | .defined _ _, _ => False

variable {s}

theorem toInt_bounds {w : Width} (n : BitVec w.bits) : -2 ^ 63 ≤ n.toInt ∧ n.toInt < 2 ^ 63 :=
  ⟨Int.le_trans (by cases w <;> decide) (BitVec.le_toInt n),
    Int.lt_of_lt_of_le BitVec.toInt_lt (by cases w <;> decide)⟩

theorem toNat_lt {w : Width} (n : BitVec w.bits) : n.toNat < 2 ^ 64 :=
  Nat.lt_of_lt_of_le n.isLt (by cases w <;> decide)

theorem sortableToGeneric_uint {w : Width} {n : BitVec w.bits}
    (h : s.parseUint (Format.padInt false 0 n.toNat) = some n.toNat) :
    sortableToGeneric s (.builtin (.uint w)) (Format.padInt false 0 n.toNat) = .ok n := by
  rw [sortableToGeneric, h]
  exact congrArg Except.ok ((BitVec.ofNat_toNat ..).trans (BitVec.setWidth_eq n))

theorem Readable.ofText {t : KeyType F} {k : t.Value} (h : Readable s t k) :
    sortableToGeneric s t (castToString s t k) = .ok k := by
  match t, k, h with
  | .builtin (.int w), n, _ =>
    have hread := s.parseInt_text (BitVec.toInt n) (toInt_bounds n).1 (toInt_bounds n).2
    rw [sortableToGeneric, castToString, hread]
    exact congrArg Except.ok BitVec.ofInt_toInt
  | .builtin (.uint w), n, h =>
    exact sortableToGeneric_uint ((s.parseUint_text (BitVec.toNat n) (toNat_lt n)).trans (if_pos h))
  | .builtin (.float w), f, h => exact congrArg Except.ok (s.parseFloat_text w f h)
  | .builtin .string, text, _ => rfl

theorem Readable.same {t : KeyType F} {k : t.Value} (h : Readable s t k) : t.Same s k k := by
  match t, k, h with
  | .builtin (.int _), _, _ | .builtin (.uint _), _, _ | .builtin .string, _, _ => rfl
  | .builtin (.float _), _, h => exact ⟨h, rfl⟩

def keyTexts (s : Strconv F) (t : KeyType F) : KeyTexts t.Value where
  toText := castToString s t
  ofText := sortableToGeneric s t
  idem k k' hk := by
    match t, k, k', hk with
    | .builtin (.int w), n, n', hn => exact Readable.ofText trivial
    | .builtin .string, text, text', hn => rfl
    | .builtin (.float w), f, f', hf =>
      cases hf
      exact congrArg (Except.ok <| s.parseFloat w ·) (s.parseFloat_idem w f)
    | .builtin (.uint w), n, n', hn =>
      have hread := s.parseUint_text (BitVec.toNat n) (toNat_lt n)
      split at hread
      · cases (sortableToGeneric_uint hread).symm.trans hn
        exact sortableToGeneric_uint hread
      · rw [sortableToGeneric, castToString, hread] at hn
        cases hn
        exact Readable.ofText (show BitVec.toNat (BitVec.ofNat w.bits 0) ≤ s.maxUint by simp)

/-- A key that comes back is readable: a number that is too large comes back as 0, one that is not
a number is not equal to what comes back, and the other types panic. -/
theorem Readable.of_ofText {t : KeyType F} {k k' : t.Value}
    (hread : sortableToGeneric s t (castToString s t k) = .ok k') (hsame : t.Same s k' k) :
    Readable s t k := by
  match t, k, k', hread, hsame with
  | .builtin (.int w), n, _, _, _ => trivial
  | .builtin .string, text, _, _, _ => trivial
  | .builtin (.float w), f, _, _, ⟨hnumber, rfl⟩ => exact hnumber
  | .builtin (.uint w), n, n', hread, hsame =>
    by_contra hlarge
    have hlarge : ¬BitVec.toNat n ≤ s.maxUint := hlarge
    rw [sortableToGeneric, castToString, s.parseUint_text (BitVec.toNat n) (toNat_lt n),
      if_neg hlarge] at hread
    cases hread
    have hzero : BitVec.toNat n = 0 := by rw [← show _ = n from hsame]; simp
    exact hlarge (hzero ▸ Nat.zero_le _)

/-- The keys of a cache that come back from their inner keys are exactly those of a type of the
language other than `uintptr`, without those that are not a number and those that are too large to
be read.  Different keys of this kind have different inner keys. -/
theorem keys_read_back_iff {T O : Type} (s : Strconv F) (t : KeyType F) (c : Cache T O t.Value)
    (hkeys : c.keys = keyTexts s t) :
    (∀ k, (∃ k', c.convInnerToKey (c.convKeyToInner k) = .ok k' ∧ t.Same s k' k) ↔
      Readable s t k) ∧
    ∀ k k', Readable s t k → Readable s t k' → c.convKeyToInner k = c.convKeyToInner k' → k = k' := by
  have hback : ∀ k, Readable s t k → ReadBack c k := by
    intro k hk
    rw [ReadBack, convInnerToKey_convKeyToInner, hkeys]
    exact hk.ofText
  refine ⟨fun k => ⟨?_, fun hk => ⟨k, hback k hk, hk.same⟩⟩, fun k k' hk hk' heq =>
    (hback k hk).eq_of_inner ((congrArg c.convInnerToKey heq).trans (hback k' hk'))⟩
  rintro ⟨k', hread, hsame⟩
  rw [convInnerToKey_convKeyToInner, hkeys] at hread
  exact Readable.of_ofText hread hsame

/-- A reader of decimal numbers, with one floating point number. -/
def decimals : Strconv fun _ => Unit where
  maxUint := 2 ^ 64 - 1
  parseInt text :=
    let n : Int := Nat.ofDigitChars 10 text 0
    some (if '-' ∈ text then -n else n)
  parseUint text := some (Nat.ofDigitChars 10 text 0)
  formatFloat _ _ := []
  parseFloat _ _ := ()
  isNaN _ _ := false
  parseInt_text n _ _ := by
    rw [Format.ofDigitChars_padInt]
    simp only [Format.minus_mem_padInt, Option.some.injEq]
    split <;> omega
  le_maxUint := by decide
  parseUint_text n hn := by
    rw [Format.ofDigitChars_padInt, if_pos (Nat.le_sub_one_of_lt hn)]
    rfl
  parseFloat_text _ _ _ := rfl
  parseFloat_idem _ _ := rfl

def shorts : Cache Unit Unit (KeyType.builtin (F := fun _ => Unit) (.int .w16)).Value where
  codecs := plainCodecs
  keys := keyTexts decimals (.builtin (.int .w16))
  base := "app:names".toList
  valueType := .string
  conf := strings.conf

theorem shorts_read_back :
    (∃ k', shorts.convInnerToKey (shorts.convKeyToInner (-7 : BitVec 16)) = .ok k' ∧
      KeyType.Same decimals (.builtin (.int .w16)) k' (-7 : BitVec 16)) ↔
      Readable decimals (.builtin (.int .w16)) (-7 : BitVec 16) :=
  (keys_read_back_iff decimals _ shorts rfl).1 (-7 : BitVec 16)

/-- The keys of a cache with `type ID string` have the same inner key, and reading it panics. -/
theorem defined_keys_collide :
    let c : Cache Unit Unit (KeyType.defined (F := fun _ => Unit) .string none).Value :=
      { strings with keys := keyTexts decimals (.defined .string none) }
    c.convInnerToKey (c.convKeyToInner ['a']) = .error .raised ∧
      c.convKeyToInner ['a'] = c.convKeyToInner ['b'] :=
  ⟨rfl, rfl⟩

end Gofusion.Cache
