import Mathlib.Algebra.Group.Nat.Defs
import Mathlib.Algebra.Ring.Int.Defs

/-!
# Texts

A Go string is modelled by the list of its runes.  The code of this repository
reads strings through `range`, `ReadRune` and the `strings` package, which all
see runes.
-/

namespace Gofusion

/-- A Go string, as the list of its runes. -/
abbrev Text := List Char

instance : LawfulBEq Text := inferInstance

/-- `unicode.IsSpace`. -/
def isSpace (c : Char) : Bool :=
  c.toNat ∈ [0x09, 0x0a, 0x0b, 0x0c, 0x0d, 0x20, 0x85, 0xa0, 0x1680, 0x2028, 0x2029, 0x202f,
    0x205f, 0x3000] || (0x2000 ≤ c.toNat && c.toNat ≤ 0x200a)

/-- `strings.Trim(s, " ")`. -/
def trimSpaces (s : Text) : Text :=
  ((s.dropWhile (· = ' ')).reverse.dropWhile (· = ' ')).reverse

/-- `utils.IsStrBlank`: every rune is white space. -/
def isStrBlank (s : Text) : Bool := s.all isSpace

end Gofusion
