import Gofusion.Cipher.BlockMode
import Gofusion.Lib.Sources

/-!
# Encrypting writers and decrypting readers

`enc` and `dec` of `common/utils/cipher`, as `NewEncFunc` and `NewDecFunc` make them.

The writer collects what is written in a buffer of the plain size and encrypts the buffer when
it is full.  `Close` encrypts what is left.  The reader collects a chunk of the ciphertext in a
buffer, decrypts it into the same buffer and serves its caller from there.  A wrapper whose sizes
are zero has no buffer.

The writer below always takes what it is given, but `Close` may panic on it (`Sink`).  The reader
below returns pieces as it likes and returns no error but the end.
-/

namespace Gofusion.Cipher

open Gofusion.Config (CipherAlgorithm CipherMode)
open Gofusion.Lib

/-- `copy(buf[i:], data)`. -/
def overwrite (buf : Bytes) (i : Nat) (data : Bytes) : Bytes :=
  buf.take i ++ data ++ buf.drop (i + data.length)

/-- `Mode.SupportStream`. -/
def supportStream : CipherMode → Bool
  | .cfb | .ctr | .ofb | .gcm | .stream => true
  | _ => false

/-- The panic with `ErrNotSupportStream`. -/
def checkStream (bm : BlockMode) : Except Fault BlockMode :=
  if supportStream bm.mode then .ok bm else .error (.panic .raised)

/-- The wrapper that `NewEncFunc` uses. -/
def newEncFunc (lib : Library) (algo : Option CipherAlgorithm) (mode : Option CipherMode)
    (key iv : Bytes) : Except Fault BlockMode :=
  (getEncrypter lib algo mode key iv).bind checkStream

/-- The wrapper that `NewDecFunc` uses. -/
def newDecFunc (lib : Library) (algo : Option CipherAlgorithm) (mode : Option CipherMode)
    (key iv : Bytes) : Except Fault BlockMode :=
  (getDecrypter lib algo mode key iv).bind checkStream

/-- A wrapper on a piece at once, in the loop of `encrypt` or `decrypt`. -/
def BlockMode.cryptPiece (bm : BlockMode) (st : bm.State) (piece : Bytes) :
    Except Fault (Bytes × bm.State) :=
  if piece = [] then .ok ([], st) else bm.cryptBlocks st piece

/-! ## The writer -/

/-- The writer below, as `CloseAnyway` tells writers apart. -/
inductive Sink
  /-- It has a method `Close`. -/
  | closer
  /-- It has none, and its kind has a nil: a function, a map, a slice or a channel. -/
  | nilable
  /-- It has none, and its kind has no nil, like the struct behind a `*bytes.Buffer`. -/
  | plain
deriving DecidableEq, Repr

/-- `CloseAnyway`.  What has no `Close` is asked for `IsNil`, which panics where a kind has no
nil. -/
def closeAnyway : Sink → Except Fault Unit
  | .closer | .nilable => .ok ()
  | .plain => .error (.panic .raised)

/-- `enc`, with the state of its wrapper and what the writer below was given. -/
structure Enc (bm : BlockMode) where
  st : bm.State
  n : Nat
  buf : Bytes
  out : Bytes

namespace Enc

variable {bm : BlockMode}

/-- A new `enc`. -/
def new (bm : BlockMode) : Enc bm := ⟨bm.start, 0, List.replicate bm.plainBlockSize 0, []⟩

/-- `flush`, with a buffer. -/
def flushBuf (e : Enc bm) : Except Fault (Enc bm) := do
  let (sealed, st) ← bm.cryptBlocks e.st (e.buf.take e.n)
  return { e with st, n := 0, out := e.out ++ sealed }

/-- The loop of `Write`.  `none` is a loop that goes on. -/
def writeLoop : Nat → Enc bm → Bytes → Option (Except Fault (Enc bm))
  | _, e, [] => some (.ok e)
  | 0, _, _ :: _ => none
  | fuel + 1, e, p =>
    let nCopy := min p.length (e.buf.length - e.n)
    let e' : Enc bm :=
      { e with buf := overwrite e.buf e.n (p.take nCopy), n := e.n + nCopy }
    if e'.n = e'.buf.length then
      match e'.flushBuf with
      | .error f => some (.error f)
      | .ok e'' => writeLoop fuel e'' (p.drop nCopy)
    else writeLoop fuel e' (p.drop nCopy)

def write (e : Enc bm) (p : Bytes) : Option (Except Fault (Enc bm)) :=
  if bm.plainBlockSize = 0 then
    some do
      let (dst, st) ← bm.cryptPiece e.st p
      return { e with st, out := e.out ++ dst }
  else writeLoop p.length e p

def flush (e : Enc bm) : Except Fault (Enc bm) := if 0 < e.n then e.flushBuf else .ok e

inductive Call
  | write (p : Bytes)
  | flush

def call (e : Enc bm) : Call → Option (Except Fault (Enc bm))
  | .write p => e.write p
  | .flush => some e.flush

/-- `Close`: what the writer below was given in the end.  The panic of the deferred `CloseAnyway`
takes the place of what `Flush` returned. -/
def close (w : Sink) (e : Enc bm) : Except Fault Bytes :=
  match closeAnyway w with
  | .error f => .error f
  | .ok () => e.flush.map Enc.out

/-- These calls and then `Close`. -/
def run (w : Sink) : Enc bm → List Call → Option (Except Fault Bytes)
  | e, [] => some (e.close w)
  | e, c :: cs =>
    match e.call c with
    | none => none
    | some (.error f) => some (.error f)
    | some (.ok e') => run w e' cs

/-- `Write` for every piece and then `Close`. -/
def writeAll (w : Sink) (e : Enc bm) (ps : List Bytes) : Option (Except Fault Bytes) :=
  e.run w (ps.map .write)

def written : List Call → Bytes
  | [] => []
  | .write p :: cs => p ++ written cs
  | .flush :: cs => written cs

end Enc

/-! ## The reader -/

/-- `dec`, with the state of its wrapper and the reader below.  `stop` is the field `end`. -/
structure Dec (bm : BlockMode) where
  st : bm.State
  r : Source UInt8
  buf : Bytes
  n : Nat
  stop : Nat
  eof : Bool

namespace Dec

variable {bm : BlockMode}

/-- A new `dec`. -/
def new (bm : BlockMode) (r : Source UInt8) : Dec bm :=
  ⟨bm.start, r, List.replicate bm.cipherBlockSize 0, 0, 0, false⟩

/-- The inner loop of `Read` up to a full buffer or the end. -/
def collect : Nat → Dec bm → Option (Dec bm)
  | 0, _ => none
  | fuel + 1, d =>
    let (data, eof, r) := d.r.read (bm.cipherBlockSize - d.n)
    let d' : Dec bm := { d with r, eof, buf := overwrite d.buf d.n data, n := d.n + data.length }
    if d'.n < bm.cipherBlockSize ∧ eof = false then collect fuel d' else some d'

/-- A chunk is decrypted, and its plaintext is put into the buffer. -/
def decryptBuf (d : Dec bm) : Except Fault (Dec bm) := do
  let (unsealed, st) ← bm.cryptBlocks d.st (d.buf.take d.n)
  return { d with st, buf := overwrite d.buf 0 unsealed, n := 0, stop := unsealed.length }

/-- The loop of `Read` for so many bytes. -/
def readLoop : Nat → Dec bm → Nat → Option (Bytes × ReadEnd Fault × Dec bm)
  | _, d, 0 => some ([], .more, d)
  | 0, _, _ + 1 => none
  | fuel + 1, d, want =>
    if 0 < d.stop - d.n then
      let copied := min (d.stop - d.n) want
      (readLoop fuel { d with n := d.n + copied } (want - copied)).map fun r =>
        ((d.buf.drop d.n).take copied ++ r.1, r.2)
    else if d.eof then some ([], .eof, d)
    else
      match collect (d.r.rest.length + 1) { d with n := 0, stop := 0 } with
      | none => none
      | some d' =>
        match d'.decryptBuf with
        | .error f => some ([], .failed f, d')
        | .ok d'' => readLoop fuel d'' want

/-- `Read`, with a slice of this length. -/
def read (d : Dec bm) (want : Nat) : Option (Bytes × ReadEnd Fault × Dec bm) :=
  if bm.cipherBlockSize = 0 then
    let (data, eof, r) := d.r.read want
    let d' : Dec bm := { d with r, eof }
    match bm.cryptPiece d.st data with
    | .error f => some ([], .failed f, d')
    | .ok (dst, st) => some (dst, if eof then .eof else .more, { d' with st })
  else readLoop (want + d.r.rest.length + 2) d want

end Dec

end Gofusion.Cipher
