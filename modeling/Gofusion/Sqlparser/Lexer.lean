import Gofusion.Sqlparser.Token

/-!
# The lexer

`common/utils/sqlparser/lexer.go`.  A state of the lexer is the list of runes not yet read: `peek`
is the head of the list, `read` takes it off and `-1` is the empty list.  `lex` is one call of
`Lex`, and `lexAll` is the stream of tokens a parser sees before `EOF`.

A dot always starts a number.  `t.id` is an identifier, a dot and an identifier only because a lone
`"."` is turned into `DOT` at the end.

Positions are left out, they are only used in error messages.
-/

namespace Gofusion.Sqlparser

/-! ## Runes -/

def isDigit (c : Char) : Bool := '0' ≤ c && c ≤ '9'

def isAlpha (c : Char) : Bool := ('a' ≤ c && c ≤ 'z') || ('A' ≤ c && c ≤ 'Z')

def isHex (c : Char) : Bool :=
  isDigit c || ('a' ≤ c && c ≤ 'f') || ('A' ≤ c && c ≤ 'F')

def isUnquotedIdent (c : Char) : Bool := isAlpha c || isDigit c || c = '_'

/-! ## Scanning -/

/-- The body of a quoted text up to its closing quote, a doubled quote standing
for one.  The rest is `none` when the input ends first. -/
def scanQuoted (q : Char) : Text → Text × Option Text
  | [] => ([], none)
  | [c] => if c = q then ([], some []) else ([c], none)
  | c :: d :: cs =>
    if c = q then
      if d = q then (q :: (scanQuoted q cs).1, (scanQuoted q cs).2)
      else ([], some (d :: cs))
    else (c :: (scanQuoted q (d :: cs)).1, (scanQuoted q (d :: cs)).2)

/-- The body of a comment up to its closing `*/`. -/
def scanComment : Text → Text × Option Text
  | [] => ([], none)
  | [c] => ([c], none)
  | c :: d :: cs =>
    if c = '*' ∧ d = '/' then ([], some cs)
    else (c :: (scanComment (d :: cs)).1, (scanComment (d :: cs)).2)

def lexUnquotedIdent (pre cs : Text) : Tok × Text :=
  let lit := pre ++ cs.takeWhile isUnquotedIdent
  (⟨lookup lit, lit⟩, cs.dropWhile isUnquotedIdent)

/-- `lexQuotedIdent`, after its opening quote.  The literal keeps both quotes. -/
def lexQuotedIdent (q : Char) (cs : Text) : Tok × Text :=
  match scanQuoted q cs with
  | (body, some rest) => (⟨.QIDENT, q :: body ++ [q]⟩, rest)
  | (body, none) => (⟨.ILLEGAL, q :: body⟩, [])

/-- `lexString`, after its opening quote. -/
def lexString (cs : Text) : Tok × Text :=
  match scanQuoted '\'' cs with
  | (body, some rest) => (⟨.STRING, body⟩, rest)
  | (body, none) => (⟨.ILLEGAL, '\'' :: body⟩, [])

/-- `lexMultilineComment`, after `/*`.  One rune behind the closing `*/` is read
and dropped. -/
def lexMultilineComment (cs : Text) : Tok × Text :=
  match scanComment cs with
  | (body, some rest) => (⟨.MLCOMMENT, trimSpaces body⟩, rest.drop 1)
  | (body, none) => (⟨.ILLEGAL, '/' :: '*' :: body⟩, [])

/-- `lexBind`, after its first rune. -/
def lexBind (start : Char) (cs : Text) : Tok × Text :=
  let p := if start = '?' then isDigit else isUnquotedIdent
  (⟨.BIND, start :: cs.takeWhile p⟩, cs.dropWhile p)

/-- `lexBlob`, after its `x`. -/
def lexBlob (start : Char) : Text → Tok × Text
  | [] => (⟨.IDENT, [start]⟩, [])
  | c :: cs =>
    if isUnquotedIdent c then lexUnquotedIdent [start] (c :: cs)
    else if c = '\'' then
      match cs.dropWhile isHex with
      | [] => (⟨.ILLEGAL, start :: '\'' :: cs.takeWhile isHex⟩, [])
      | d :: rest =>
        if d = '\'' then (⟨.BLOB, cs.takeWhile isHex⟩, rest)
        else (⟨.ILLEGAL, start :: '\'' :: cs.takeWhile isHex ++ [d]⟩, rest)
    else (⟨.IDENT, [start]⟩, c :: cs)

/-- The exponent of a number, after its `e`.  `lit` is what was read so far. -/
def lexExponent (lit : Text) : Text → Tok × Text
  | [] => (⟨.ILLEGAL, lit⟩, [])
  | c :: cs =>
    if c = '+' ∨ c = '-' then
      match cs with
      | [] => (⟨.ILLEGAL, lit ++ [c]⟩, [])
      | d :: ds =>
        if isDigit d then
          (⟨.FLOAT, lit ++ c :: (d :: ds).takeWhile isDigit⟩, (d :: ds).dropWhile isDigit)
        else (⟨.ILLEGAL, lit ++ [c]⟩, d :: ds)
    else if isDigit c then
      (⟨.FLOAT, lit ++ (c :: cs).takeWhile isDigit⟩, (c :: cs).dropWhile isDigit)
    else (⟨.ILLEGAL, lit⟩, c :: cs)

/-- The end of `lexNumber`: an exponent if one follows, and a lone dot is `DOT`. -/
def lexNumberTail (t : Token) (lit : Text) : Text → Tok × Text
  | [] => (⟨if lit = ['.'] then .DOT else t, lit⟩, [])
  | c :: cs =>
    if c = 'e' ∨ c = 'E' then lexExponent (lit ++ [c]) cs
    else (⟨if lit = ['.'] then .DOT else t, lit⟩, c :: cs)

def lexNumber (cs : Text) : Tok × Text :=
  let whole := cs.takeWhile isDigit
  match cs.dropWhile isDigit with
  | [] => lexNumberTail .INTEGER whole []
  | c :: ds =>
    if c = '.' then
      lexNumberTail .FLOAT (whole ++ '.' :: ds.takeWhile isDigit) (ds.dropWhile isDigit)
    else lexNumberTail .INTEGER whole (c :: ds)

/-- An operator of one rune, or of two when the second is `d`. -/
def lexOr (t₁ : Token) (s₁ : Text) (alts : List (Char × Token × Text)) (cs : Text) : Tok × Text :=
  match cs with
  | [] => (⟨t₁, s₁⟩, [])
  | d :: rest =>
    match alts.find? (fun a => a.1 = d) with
    | some a => (⟨a.2.1, a.2.2⟩, rest)
    | none => (⟨t₁, s₁⟩, d :: rest)

/-- The marks that are a token on their own, whatever follows. -/
def punctuation : List (Char × Token) :=
  [(';', .SEMI), ('(', .LP), (')', .RP), (',', .COMMA), ('=', .EQ), ('&', .BITAND), ('+', .PLUS),
   ('-', .MINUS), ('*', .STAR), ('%', .REM)]

/-- The operators and punctuation marks, by their first rune. -/
def lexOperator (c : Char) (cs : Text) : Tok × Text :=
  match punctuation.find? (fun a => a.1 = c) with
  | some a => (.kw a.2, cs)
  | none =>
    if c = '!' then lexOr .BITNOT ['!'] [('=', .NE, ['!', '='])] cs
    else if c = '<' then
      lexOr .LT ['<'] [('=', .LE, ['<', '=']), ('<', .LSHIFT, ['<', '<']),
        ('>', .LG, ['<', '>'])] cs
    else if c = '>' then
      lexOr .GT ['>'] [('=', .GE, ['>', '=']), ('>', .RSHIFT, ['>', '>'])] cs
    else if c = '|' then lexOr .BITOR ['|'] [('|', .CONCAT, ['|', '|'])] cs
    else if c = '/' then
      match cs with
      | [] => (.kw .SLASH, [])
      | d :: rest => if d = '*' then lexMultilineComment rest else (.kw .SLASH, d :: rest)
    else (⟨.ILLEGAL, [c]⟩, cs)

/-- The dispatch of `Lex` on a rune that is not white space. -/
def lexRune (c : Char) (cs : Text) : Tok × Text :=
  if isDigit c || c = '.' then lexNumber (c :: cs)
  else if c = 'x' ∨ c = 'X' then lexBlob c cs
  else if isAlpha c || c = '_' then lexUnquotedIdent [] (c :: cs)
  else if c = '"' ∨ c = '`' then lexQuotedIdent c cs
  else if c = '\'' then lexString cs
  else if c = '?' ∨ c = ':' ∨ c = '@' ∨ c = '$' then lexBind c cs
  else lexOperator c cs

/-- `Lex`: the next token and the runes behind it. -/
def lex (cs : Text) : Tok × Text :=
  match cs.dropWhile isSpace with
  | [] => (⟨.EOF, []⟩, [])
  | c :: rest => lexRune c rest

/-- At most `fuel` tokens of a text. -/
def lexFuel : Nat → Text → List Tok
  | 0, _ => []
  | fuel + 1, cs =>
    if (lex cs).1.tok = .EOF then [] else (lex cs).1 :: lexFuel fuel (lex cs).2

def lexAll (cs : Text) : List Tok := lexFuel (cs.length + 1) cs

end Gofusion.Sqlparser
