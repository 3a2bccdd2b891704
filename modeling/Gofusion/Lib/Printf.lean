/-!
# Formats with one text

`fmt.Sprintf` with one argument of type `string`, for every format: flags, width, precision,
argument indices, `*`, all verbs, and what is printed for a bad one.  The format is worked off
from the left, `argNum` is the argument that the next verb takes.  There is only argument 0.

`isPrint` is `strconv.IsPrint`, which the verbs with quotes need.
-/

namespace Gofusion.Lib.Printf

/-! ## Flags -/

/-- The flags of a verb, with its width and precision. -/
structure Flags where
  sharp : Bool := false
  zero : Bool := false
  plus : Bool := false
  minus : Bool := false
  space : Bool := false
  wid : Option Nat := none
  prec : Option Nat := none
  /-- `%#v`. -/
  sharpV : Bool := false

def parseFlags (f : Flags) : List Char → Flags × List Char
  | [] => (f, [])
  | c :: cs =>
    if c = '#' then parseFlags { f with sharp := true } cs
    else if c = '0' then parseFlags { f with zero := !f.minus } cs
    else if c = '+' then parseFlags { f with plus := true } cs
    else if c = '-' then parseFlags { f with minus := true, zero := false } cs
    else if c = ' ' then parseFlags { f with space := true } cs
    else (f, c :: cs)

/-! ## Numbers and indices -/

/-- `parsenum`.  A number that gets too large uses up the whole text. -/
def parsenum : Option Nat → List Char → Option Nat × List Char
  | num, [] => (num, [])
  | num, c :: cs =>
    if '0' ≤ c ∧ c ≤ '9' then
      if num.getD 0 > 1000000 then (none, [])
      else parsenum (some (num.getD 0 * 10 + (c.toNat - '0'.toNat))) cs
    else (num, c :: cs)

/-- The state between the parts of a verb. -/
structure Scan where
  rest : List Char
  argNum : Nat
  /-- The last part was an index. -/
  afterIndex : Bool := false
  goodArgNum : Bool := true
  /-- Some index has been given. -/
  reordered : Bool
  /-- What has been printed. -/
  out : List Char := []

/-- `argNumber`: an index in brackets.  The only argument has the index 1. -/
def Scan.argNumber (s : Scan) : Scan :=
  match s.rest with
  | '[' :: cs =>
    let s := { s with reordered := true }
    match cs.span (· ≠ ']') with
    | (_, []) => { s with rest := cs, afterIndex := false, goodArgNum := false }
    | (inside, _ :: after) =>
      -- `[]` at the end of the format is too short to be looked at
      if inside = [] ∧ after = [] then
        { s with rest := cs, afterIndex := false, goodArgNum := false }
      else match parsenum none inside with
        | (some 1, []) => { s with rest := after, argNum := 0, afterIndex := true }
        | (some _, []) => { s with rest := after, afterIndex := true, goodArgNum := false }
        | _ => { s with rest := after, afterIndex := false, goodArgNum := false }
  | _ => { s with afterIndex := false }

/-- The width: a number, or `*` for an argument.  A text is no width. -/
def Scan.width (s : Scan) (f : Flags) : Scan × Flags :=
  match s.rest with
  | '*' :: cs =>
    ({ s with rest := cs, argNum := max s.argNum 1, afterIndex := false,
              out := s.out ++ "%!(BADWIDTH)".toList }, { f with wid := none })
  | _ =>
    let (wid, rest) := parsenum none s.rest
    ({ s with rest, goodArgNum := s.goodArgNum && !(s.afterIndex && wid.isSome) },
      { f with wid })

/-- The precision: a number behind a point, or `*` for an argument. -/
def Scan.precision (s : Scan) (f : Flags) : Scan × Flags :=
  match s.rest with
  | '.' :: cs =>
    let s := { s with rest := cs, goodArgNum := s.goodArgNum && !s.afterIndex }
    let s := s.argNumber
    match s.rest with
    | '*' :: cs =>
      ({ s with rest := cs, argNum := max s.argNum 1, afterIndex := false,
                out := s.out ++ "%!(BADPREC)".toList }, { f with prec := none })
    | _ =>
      let (prec, rest) := parsenum none s.rest
      ({ s with rest }, { f with prec := some (prec.getD 0) })
  | _ => (s, f)

/-! ## The argument -/

/-- `truncateString`. -/
def Flags.truncate (f : Flags) (s : List Char) : List Char :=
  match f.prec with
  | some prec => s.take prec
  | none => s

/-- `padString`. -/
def Flags.pad (f : Flags) (s : List Char) : List Char :=
  let fill := List.replicate (f.wid.getD 0 - s.length) (if f.zero then '0' else ' ')
  if f.minus then s ++ fill else fill ++ s

def Flags.fmtS (f : Flags) (s : List Char) : List Char := f.pad (f.truncate s)

def hexDigit (upper : Bool) (n : Nat) : Char :=
  Char.ofNat (if n < 10 then 48 + n else if upper then 55 + n else 87 + n)

/-- A number in hexadecimal digits of a fixed length. -/
def hexDigits (upper : Bool) : Nat → Nat → List Char
  | 0, _ => []
  | k + 1, n => hexDigits upper k (n / 16) ++ [hexDigit upper (n % 16)]

/-- `fmtSbx`: the bytes of the text in hexadecimal. -/
def Flags.fmtSx (f : Flags) (upper : Bool) (s : List Char) : List Char :=
  let bytes := s.flatMap fun c => (String.utf8EncodeChar c).map UInt8.toNat
  let bytes := match f.prec with
    | some prec => bytes.take prec
    | none => bytes
  let sign := if f.sharp then ['0', if upper then 'X' else 'x'] else []
  let digits := bytes.map (hexDigits upper 2)
  let text := if f.space then List.intercalate [' '] (digits.map (sign ++ ·))
    else sign ++ digits.flatten
  -- of no bytes only the padding is left
  if bytes = [] then List.replicate (f.wid.getD 0) (if f.zero then '0' else ' ')
  else f.pad text

/-- `appendEscapedRune` with double quotes. -/
def escape (isPrint : Char → Bool) (ascii : Bool) (c : Char) : List Char :=
  let n := c.toNat
  if c = '"' ∨ c = '\\' then ['\\', c]
  else if (isPrint c && (!ascii || n < 128)) = true then [c]
  else if n = 7 then "\\a".toList
  else if n = 8 then "\\b".toList
  else if n = 12 then "\\f".toList
  else if n = 10 then "\\n".toList
  else if n = 13 then "\\r".toList
  else if n = 9 then "\\t".toList
  else if n = 11 then "\\v".toList
  else if n < 32 ∨ n = 127 then "\\x".toList ++ hexDigits false 2 n
  else if n < 0x10000 then "\\u".toList ++ hexDigits false 4 n
  else "\\U".toList ++ hexDigits false 8 n

def canBackquote (s : List Char) : Bool :=
  s.all fun c => c.toNat ≠ 0xfeff && (32 ≤ c.toNat || c = '\t') && c ≠ '`' && c.toNat ≠ 127

def Flags.fmtQ (isPrint : Char → Bool) (f : Flags) (s : List Char) : List Char :=
  let s := f.truncate s
  if f.sharp && canBackquote s then f.pad ('`' :: (s ++ ['`']))
  else f.pad ('"' :: (s.flatMap (escape isPrint f.plus) ++ ['"']))

/-- The argument under `%v`. -/
def Flags.fmtV (isPrint : Char → Bool) (f : Flags) (s : List Char) : List Char :=
  if f.sharpV then f.fmtQ isPrint s else f.fmtS s

def Flags.printArg (isPrint : Char → Bool) (f : Flags) (verb : Char) (s : List Char) : List Char :=
  if verb = 'T' then f.fmtS "string".toList
  else if verb = 'v' then f.fmtV isPrint s
  else if verb = 's' then f.fmtS s
  else if verb = 'x' then f.fmtSx false s
  else if verb = 'X' then f.fmtSx true s
  else if verb = 'q' then f.fmtQ isPrint s
  else "%!".toList ++ verb :: ("(string=".toList ++ (f.fmtV isPrint s ++ [')']))

/-- `%v` and `%w` have flags of their own. -/
def Flags.forVerb (f : Flags) (verb : Char) : Flags :=
  if verb = 'v' ∨ verb = 'w' then { f with sharpV := f.sharp, sharp := false, plus := false } else f

/-! ## Formats -/

/-- The parts of a verb behind its flags. -/
def Scan.parts (s : Scan) (f : Flags) : Scan × Flags :=
  let (s, f) := s.argNumber.width f
  let (s, f) := s.precision f
  (if s.afterIndex then s else s.argNumber, f)

/-- What a verb prints: the text, the rest of the format, the next argument, and whether an index
was given. -/
def printVerb (isPrint : Char → Bool) (arg : List Char) (argNum : Nat) (reordered : Bool)
    (format : List Char) : List Char × List Char × Nat × Bool :=
  let (f, rest) := parseFlags {} format
  let (s, f) := Scan.parts { rest, argNum, reordered } f
  match s.rest with
  | [] => (s.out ++ "%!(NOVERB)".toList, [], s.argNum, s.reordered)
  | verb :: rest =>
    if verb = '%' then (s.out ++ ['%'], rest, s.argNum, s.reordered)
    else if s.goodArgNum = false then
      (s.out ++ "%!".toList ++ verb :: "(BADINDEX)".toList, rest, s.argNum, s.reordered)
    else if s.argNum ≥ 1 then
      (s.out ++ "%!".toList ++ verb :: "(MISSING)".toList, rest, s.argNum, s.reordered)
    else (s.out ++ (f.forVerb verb).printArg isPrint verb arg, rest, s.argNum + 1, s.reordered)

/-- `doPrintf` on the rest of a format.  A verb uses up at least its `%`. -/
def printFrom (isPrint : Char → Bool) (arg : List Char) :
    Nat → Nat → Bool → List Char → List Char
  | _, argNum, reordered, [] =>
    if !reordered && argNum < 1 then "%!(EXTRA string=".toList ++ (arg ++ [')']) else []
  | 0, _, _, _ :: _ => []
  | fuel + 1, argNum, reordered, c :: cs =>
    if c = '%' then
      let (text, rest, argNum, reordered) := printVerb isPrint arg argNum reordered cs
      text ++ printFrom isPrint arg fuel argNum reordered rest
    else c :: printFrom isPrint arg fuel argNum reordered cs

/-- `fmt.Sprintf(format, arg)`. -/
def sprintf (isPrint : Char → Bool) (format arg : List Char) : List Char :=
  printFrom isPrint arg format.length 0 false format

section

variable {isPrint : Char → Bool} {arg : List Char}

theorem sprintf_cons (hc : c ≠ '%') (format : List Char) :
    sprintf isPrint (c :: format) arg = c :: sprintf isPrint format arg := by
  rw [sprintf, List.length_cons, printFrom, if_neg hc]
  rfl

theorem sprintf_append (h : '%' ∉ text) (format : List Char) :
    sprintf isPrint (text ++ format) arg = text ++ sprintf isPrint format arg := by
  induction text with
  | nil => rfl
  | cons c text ih =>
    rw [List.mem_cons, not_or] at h
    rw [List.cons_append, sprintf_cons (Ne.symm h.1), ih h.2, List.cons_append]

theorem sprintf_verb_s : sprintf isPrint ['%', 's'] arg = arg := by
  have hverb : printVerb isPrint arg 0 false ['s'] = (arg, [], 1, false) := by
    simp [printVerb, parseFlags, Scan.parts, Scan.argNumber, Scan.width, Scan.precision, parsenum,
      Flags.forVerb, Flags.printArg, Flags.fmtS, Flags.pad, Flags.truncate]
  simp [sprintf, printFrom, hverb]

end

example : sprintf (fun _ => true) "a%-4s|%[1]x".toList "b".toList = "ab   |62".toList := by decide

example : sprintf (fun _ => true) "%d%s".toList "b".toList = "%!d(string=b)%!s(MISSING)".toList := by
  decide

end Gofusion.Lib.Printf
