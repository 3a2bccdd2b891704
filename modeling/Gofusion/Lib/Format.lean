/-!
# Formats with one number

`fmt.Sprintf` with one argument of an integer type, for formats made of plain text, `%%` and the
verb `%d` with an optional flag `0` and a width.  Like in Go, an argument that no verb takes is
reported at the end with its type, and a verb behind the last argument prints that it is missing.
So every format shows the number once.
-/

namespace Gofusion.Lib.Format

inductive Piece
  | lit (c : Char)
  | dec (zero : Bool) (width : Nat)
deriving DecidableEq, Repr

/-- Inside plain text, or behind a `%` with the flag and the width read so far. -/
inductive Mode
  | text
  | verb (zero : Bool) (width : Nat)

def digit (c : Char) : Bool := '0' ≤ c && c ≤ '9'

/-- The parts of a format, `none` for a verb, a flag or a width not covered here. -/
def parseFrom : Mode → List Char → Option (List Piece)
  | .text, [] => some []
  | .text, c :: cs =>
    if c = '%' then parseFrom (.verb false 0) cs
    else (Piece.lit c :: ·) <$> parseFrom .text cs
  | .verb _ _, [] => none
  | .verb zero width, c :: cs =>
    if c = '0' ∧ width = 0 then parseFrom (.verb true 0) cs
    else if digit c ∧ width < 100000 then
      parseFrom (.verb zero (10 * width + (c.toNat - '0'.toNat))) cs
    else if c = 'd' then (Piece.dec zero width :: ·) <$> parseFrom .text cs
    else if c = '%' then (Piece.lit '%' :: ·) <$> parseFrom .text cs
    else none

def parse (format : List Char) : Option (List Piece) := parseFrom .text format

/-- What a verb without an argument prints. -/
def missing : List Char := "%!d(MISSING)".toList

/-- The parts of a format behind the verb that took the number. -/
def printRest : List Piece → List Char
  | [] => []
  | .lit c :: ps => c :: printRest ps
  | .dec _ _ :: ps => missing ++ printRest ps

/-- A signed number, filled up on the left: zeros stand behind the sign, spaces before it. -/
def padInt (zero : Bool) (width : Nat) (n : Int) : List Char :=
  let digits := Nat.toDigits 10 n.natAbs
  let sign := if n < 0 then ['-'] else []
  let fill := width - (sign.length + digits.length)
  if zero then sign ++ (List.replicate fill '0' ++ digits)
  else List.replicate fill ' ' ++ (sign ++ digits)

/-- The report of an argument of some type that no verb took. -/
def extraAs (type : List Char) (n : Int) : List Char :=
  "%!(EXTRA ".toList ++ (type ++ ('=' :: (padInt false 0 n ++ [')'])))

/-- The parts of a format with an argument of an integer type. -/
def printAs (type : List Char) (n : Int) : List Piece → List Char
  | [] => extraAs type n
  | .lit c :: ps => c :: printAs type n ps
  | .dec zero width :: ps => padInt zero width n ++ printRest ps

/-- A verb takes the argument. -/
def takes : List Piece → Bool
  | [] => false
  | .lit _ :: ps => takes ps
  | .dec _ _ :: _ => true

/-! ## A format shows its number -/

theorem ofDigitChars_fill (c : Char) (h : c.toNat ≤ '0'.toNat) :
    ∀ n : Nat, Nat.ofDigitChars 10 (List.replicate n c) 0 = 0
  | 0 => rfl
  | n + 1 => by
    rw [List.replicate_succ, Nat.ofDigitChars_cons, Nat.sub_eq_zero_of_le h]
    exact ofDigitChars_fill c h n

variable {zero : Bool} {width : Nat} {ps : List Piece} {type : List Char} {n m : Int}

theorem padInt_natCast (width k : Nat) : padInt true width k =
    List.replicate (width - (Nat.toDigits 10 k).length) '0' ++ Nat.toDigits 10 k := by
  have hneg : ¬(k : Int) < 0 := by omega
  simp [padInt, hneg]

theorem printAs_of_takes (h : takes ps = true) (type type' : List Char) (n : Int) :
    printAs type n ps = printAs type' n ps := by
  induction ps with
  | nil => cases h
  | cons p ps ih =>
    cases p with
    | lit c => exact congrArg _ (ih h)
    | dec => rfl

/-- Without a verb two types that can be told apart print nothing alike. -/
theorem printAs_ne_of_not_takes (h : takes ps = false)
    (hne : ∀ x y, type ++ '=' :: x ≠ type' ++ '=' :: y) (m n : Int) :
    printAs type m ps ≠ printAs type' n ps := by
  induction ps with
  | nil => exact fun he => hne _ _ (List.append_cancel_left he)
  | cons p ps ih =>
    cases p with
    | lit c => exact fun he => ih h (List.cons.inj he).2
    | dec => cases h

theorem ofDigitChars_padInt (zero : Bool) (width : Nat) (n : Int) :
    Nat.ofDigitChars 10 (padInt zero width n) 0 = n.natAbs := by
  have hsign : Nat.ofDigitChars 10 (if n < 0 then ['-'] else []) 0 = 0 := by
    split <;> rfl
  cases zero with
  | true =>
    rw [padInt, if_pos rfl, Nat.ofDigitChars_append, hsign, Nat.ofDigitChars_append,
      ofDigitChars_fill '0' (by decide), Nat.ofDigitChars_ten_toDigits]
  | false =>
    rw [padInt, if_neg Bool.false_ne_true, Nat.ofDigitChars_append,
      ofDigitChars_fill ' ' (by decide), Nat.ofDigitChars_append, hsign,
      Nat.ofDigitChars_ten_toDigits]

theorem not_minus_mem_toDigits (k : Nat) : '-' ∉ Nat.toDigits 10 k := fun h =>
  absurd (Nat.isDigit_of_mem_toDigits (by decide) (by decide) h) (by decide)

theorem minus_mem_padInt : '-' ∈ padInt zero width n ↔ n < 0 := by
  have hdigits := not_minus_mem_toDigits n.natAbs
  by_cases hn : n < 0
  · cases zero <;> simp [padInt, hn]
  · cases zero <;> simp [padInt, hn, hdigits, List.mem_replicate]

theorem padInt_injective (h : padInt zero width m = padInt zero width n) : m = n := by
  have habs : m.natAbs = n.natAbs := by
    rw [← ofDigitChars_padInt zero width m, h, ofDigitChars_padInt]
  have hsign : m < 0 ↔ n < 0 := by
    rw [← @minus_mem_padInt zero width m, h, minus_mem_padInt]
  omega

theorem printAs_injective :
    ∀ ps : List Piece, printAs type m ps = printAs type n ps → m = n
  | [], h => padInt_injective (List.append_cancel_right
    (List.cons.inj (List.append_cancel_left (List.append_cancel_left h))).2)
  | .lit _ :: ps, h => printAs_injective ps (List.cons.inj h).2
  | .dec _ _ :: _, h => padInt_injective (List.append_cancel_right h)

example : (parse "_age%02d".toList).map (printAs "uint64".toList 7) = some "_age07".toList := by decide

/-! ## Formats without a verb of their own -/

theorem parseFrom_append {plain : List Char} (h : '%' ∉ plain) (rest : List Char) :
    parseFrom .text (plain ++ rest) = (parseFrom .text rest).map (plain.map Piece.lit ++ ·) := by
  induction plain with
  | nil => simp
  | cons c cs ih =>
    rw [List.mem_cons, not_or] at h
    obtain ⟨hc, hcs⟩ := h
    rw [List.cons_append, parseFrom, if_neg (Ne.symm hc), ih hcs]
    cases parseFrom .text rest <;> rfl

theorem takes_lit_append (plain : List Char) (ps : List Piece) :
    takes (plain.map Piece.lit ++ ps) = takes ps := by
  induction plain with
  | nil => rfl
  | cons c cs ih => exact ih

end Gofusion.Lib.Format
