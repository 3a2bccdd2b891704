import Mathlib.Algebra.Group.Nat.Defs

/-!
# Base64

The standard alphabet with padding.  Decoding skips line breaks, and the bits of the last symbol
that are left over are not looked at.
-/

namespace Gofusion.Lib.Base64

def value (c : Char) : Option Nat :=
  if 'A' ≤ c ∧ c ≤ 'Z' then some (c.toNat - 'A'.toNat)
  else if 'a' ≤ c ∧ c ≤ 'z' then some (c.toNat - 'a'.toNat + 26)
  else if '0' ≤ c ∧ c ≤ '9' then some (c.toNat - '0'.toNat + 52)
  else if c = '+' then some 62
  else if c = '/' then some 63
  else none

/-- The first `n` bytes of four symbols. -/
def quantum (n a b c d : Nat) : List UInt8 :=
  let word := a * 2 ^ 18 + b * 2 ^ 12 + c * 2 ^ 6 + d
  [UInt8.ofNat (word / 2 ^ 16), UInt8.ofNat (word / 2 ^ 8), UInt8.ofNat word].take n

/-- Decoding without line breaks. -/
def decodeSymbols : List Char → Option (List UInt8)
  | [] => some []
  | [a, b, '=', '='] => do return quantum 1 (← value a) (← value b) 0 0
  | [a, b, c, '='] => do return quantum 2 (← value a) (← value b) (← value c) 0
  | a :: b :: c :: d :: rest => do
    let bytes := quantum 3 (← value a) (← value b) (← value c) (← value d)
    return bytes ++ (← decodeSymbols rest)
  | _ => none

def decode (s : List Char) : Option (List UInt8) :=
  decodeSymbols (s.filter fun c => c ≠ '\n' ∧ c ≠ '\r')

def symbol (n : Nat) : Char :=
  "ABCDEFGHIJKLMNOPQRSTUVWXYZabcdefghijklmnopqrstuvwxyz0123456789+/".toList.getD (n % 64) '='

/-- The first `n` symbols of three bytes. -/
def symbols (n : Nat) (a b c : UInt8) : List Char :=
  let word := a.toNat * 2 ^ 16 + b.toNat * 2 ^ 8 + c.toNat
  [symbol (word / 2 ^ 18), symbol (word / 2 ^ 12), symbol (word / 2 ^ 6), symbol word].take n

def encode : List UInt8 → List Char
  | [] => []
  | [a] => symbols 2 a 0 0 ++ ['=', '=']
  | [a, b] => symbols 3 a b 0 ++ ['=']
  | a :: b :: c :: rest => symbols 4 a b c ++ encode rest

example : encode [103, 111, 102, 117, 115] = "Z29mdXM=".toList := by decide

example : decode "Z29m\ndXM=".toList = some [103, 111, 102, 117, 115] := by decide

end Gofusion.Lib.Base64
