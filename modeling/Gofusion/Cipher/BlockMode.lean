import Gofusion.Config.Crypto
import Gofusion.Lib.Chunks
import Gofusion.Utils.Panic

/-!
# Encryption and decryption of bytes

`EncryptBytesFunc` and `DecryptBytesFunc` of `common/utils/cipher`, with the wrappers that they
drive.  Both functions cut their input into chunks.  A wrapper whose sizes are zero takes the input
at once.

The ciphers are the parameter `Library`.  The modes ECB, CBC and CFB are defined from the
block cipher.  CTR, OFB and RC4 are given by their key streams.

A `BlockMode` starts in the state in which it is made, so the functions here are one call of a
fresh encrypter or decrypter.  The byte pools are left out.
-/

namespace Gofusion.Cipher

open Gofusion.Config (CipherAlgorithm CipherMode)
open Gofusion.Lib
open Gofusion.Utils (Panic)

abbrev Bytes := List UInt8

/-- Why a call does not return bytes. -/
inductive Fault
  /-- `unknown cipher mode`, with the mode. -/
  | unknownMode (mode : Option CipherMode)
  /-- `unknown cipher algorithm`, with the algorithm. -/
  | unknownAlgorithm (algo : Option CipherAlgorithm)
  | error (text : String)
  | panic (p : Panic)
deriving DecidableEq, Repr

/-! ## What the ciphers provide -/

/-- `cipher.Block` of a key. -/
structure Block where
  size : Nat
  encrypt : Bytes → Bytes
  decrypt : Bytes → Bytes

/-- `cipher.AEAD` of a key, without additional data. -/
structure AEAD where
  nonceSize : Nat
  overhead : Nat
  sealWith : Bytes → Bytes → Bytes
  openWith : Bytes → Bytes → Except Fault Bytes

/-- The packages that the code calls. -/
structure Library where
  newDES : Bytes → Except Fault Block
  newTripleDES : Bytes → Except Fault Block
  newAES : Bytes → Except Fault Block
  newSM4 : Bytes → Except Fault Block
  /-- `cipher.NewGCM` on a block cipher with blocks of 16 bytes. -/
  gcm : Block → AEAD
  /-- Byte `i` of the key stream of `cipher.NewCTR`. -/
  ctr : Block → Bytes → Nat → UInt8
  /-- Byte `i` of the key stream of `cipher.NewOFB`. -/
  ofb : Block → Bytes → Nat → UInt8
  /-- Byte `i` of the key stream of a key. -/
  newRC4 : Bytes → Except Fault (Nat → UInt8)
  newChaCha20poly1305 : Bytes → Except Fault AEAD
  newXChaCha20poly1305 : Bytes → Except Fault AEAD
  /-- The bytes of the `i`-th call of `CryptoRandom`. -/
  random : Nat → Nat → Except Fault Bytes

/-! ## The wrappers -/

/-- `blockMode` with its state. -/
structure BlockMode where
  State : Type
  start : State
  mode : CipherMode
  plainBlockSize : Nat
  cipherBlockSize : Nat
  cryptBlocks : State → Bytes → Except Fault (Bytes × State)

/-- The wrapper in another state. -/
def BlockMode.resume (bm : BlockMode) (st : bm.State) : BlockMode := { bm with start := st }

def blockSizeTimes : Nat := 1024

def defaultBlockSize : Nat := 16

def xorBytes (xs ys : Bytes) : Bytes := List.zipWith (· ^^^ ·) xs ys

/-- `newBlockModeWrapper` of `wrapBlock`.  A chunk has at most one block, and the block cipher
panics on less. -/
def wrapBlock (b : Block) (mode : CipherMode) (isEncoder : Bool) : BlockMode where
  State := Unit
  start := ()
  mode := mode
  plainBlockSize := b.size
  cipherBlockSize := b.size
  cryptBlocks _ src :=
    if src.length = b.size then .ok (if isEncoder then b.encrypt src else b.decrypt src, ())
    else .error (.panic .raised)

/-- `cipher.NewCBCEncrypter` in `wrapBlockMode`.  The state is the last cipher block. -/
def cbcEncrypter (b : Block) (iv : Bytes) : BlockMode where
  State := Bytes
  start := iv
  mode := .cbc
  plainBlockSize := b.size
  cipherBlockSize := b.size
  cryptBlocks prev src :=
    if src.length = b.size then
      let dst := b.encrypt (xorBytes src prev)
      .ok (dst, dst)
    else .error (.panic .raised)

/-- `cipher.NewCBCDecrypter` in `wrapBlockMode`. -/
def cbcDecrypter (b : Block) (iv : Bytes) : BlockMode where
  State := Bytes
  start := iv
  mode := .cbc
  plainBlockSize := b.size
  cipherBlockSize := b.size
  cryptBlocks prev src :=
    if src.length = b.size then .ok (xorBytes (b.decrypt src) prev, src)
    else .error (.panic .raised)

/-- `XORKeyStream` from byte `pos` of a key stream on. -/
def xorKeyStream (key : Nat → UInt8) : Nat → Bytes → Bytes
  | _, [] => []
  | pos, x :: xs => (x ^^^ key pos) :: xorKeyStream key (pos + 1) xs

/-- A key stream in `wrapStream`.  The state is the position. -/
def wrapStream (key : Nat → UInt8) (mode : CipherMode) : BlockMode where
  State := Nat
  start := 0
  mode := mode
  plainBlockSize := defaultBlockSize * blockSizeTimes
  cipherBlockSize := defaultBlockSize * blockSizeTimes
  cryptBlocks pos src := .ok (xorKeyStream key pos src, pos + src.length)

/-- The register of CFB and the cipher bytes since it was filled. -/
structure Feedback where
  register : Bytes
  used : Bytes

/-- The next byte of the key stream. -/
def Feedback.key (b : Block) (s : Feedback) : UInt8 := (b.encrypt s.register).getD s.used.length 0

/-- The state after a cipher byte. -/
def Feedback.push (b : Block) (s : Feedback) (x : UInt8) : Feedback :=
  if (s.used ++ [x]).length = b.size then ⟨s.used ++ [x], []⟩ else ⟨s.register, s.used ++ [x]⟩

/-- `XORKeyStream` of CFB.  What is fed back is the byte that leaves the encrypter and the one
that enters the decrypter. -/
def cfbXor (b : Block) (isEncoder : Bool) : Feedback → Bytes → Bytes × Feedback
  | s, [] => ([], s)
  | s, x :: xs =>
    let y := x ^^^ s.key b
    let (ys, s') := cfbXor b isEncoder (s.push b (if isEncoder then y else x)) xs
    (y :: ys, s')

/-- `cipher.NewCFBEncrypter` or `cipher.NewCFBDecrypter` in `wrapStream`. -/
def wrapCFB (b : Block) (iv : Bytes) (isEncoder : Bool) : BlockMode where
  State := Feedback
  start := ⟨iv, []⟩
  mode := .cfb
  plainBlockSize := defaultBlockSize * blockSizeTimes
  cipherBlockSize := defaultBlockSize * blockSizeTimes
  cryptBlocks s src := .ok (cfbXor b isEncoder s src)

/-- `newAEADEncryptWrapper`.  The state counts the nonces drawn. -/
def aeadEncryptWrapper (lib : Library) (a : AEAD) (blockSize : Nat) (mode : CipherMode) :
    BlockMode where
  State := Nat
  start := 0
  mode := mode
  plainBlockSize := blockSize * blockSizeTimes
  cipherBlockSize := a.nonceSize + a.overhead + blockSize * blockSizeTimes
  cryptBlocks i src :=
    if src = [] then .ok ([], i)
    else do
      let nonce ← lib.random i a.nonceSize
      .ok (nonce ++ a.sealWith nonce (src.take (blockSize * blockSizeTimes)), i + 1)

/-- `newAEADDecryptWrapper`. -/
def aeadDecryptWrapper (a : AEAD) (blockSize : Nat) (mode : CipherMode) : BlockMode where
  State := Unit
  start := ()
  mode := mode
  plainBlockSize := blockSize * blockSizeTimes
  cipherBlockSize := a.nonceSize + a.overhead + blockSize * blockSizeTimes
  cryptBlocks _ src :=
    if src = [] then .ok ([], ())
    else if src.length < a.nonceSize then .error (.error "input not full blocks when decrypt")
    else do
      let sealedSize := min (a.overhead + blockSize * blockSizeTimes) (src.length - a.nonceSize)
      let unsealed ← a.openWith (src.take a.nonceSize) ((src.drop a.nonceSize).take sealedSize)
      .ok (unsealed, ())

def rc4Wrapper (key : Nat → UInt8) : BlockMode where
  State := Nat
  start := 0
  mode := .stream
  plainBlockSize := 0
  cipherBlockSize := 0
  cryptBlocks pos src := .ok (xorKeyStream key pos src, pos + src.length)

/-! ## The tables -/

def cipherBlockMapping (lib : Library) : Option CipherAlgorithm →
    Option (Bytes → Except Fault Block)
  | some .des => some lib.newDES
  | some .tripleDES => some lib.newTripleDES
  | some .aes => some lib.newAES
  | some .sm4 => some lib.newSM4
  | _ => none

/-- The constructors of the package `cipher` panic on an iv of another length than a block. -/
def withIV (b : Block) (iv : Bytes) (bm : BlockMode) : Except Fault BlockMode :=
  if iv.length = b.size then .ok bm else .error (.panic .raised)

/-- `cipher.NewGCM`. -/
def newGCM (lib : Library) (b : Block) : Except Fault AEAD :=
  if b.size = 16 then .ok (lib.gcm b)
  else .error (.error "cipher: NewGCM requires 128-bit block cipher")

def encryptModeMapping (lib : Library) (b : Block) (iv : Bytes) :
    Option CipherMode → Except Fault BlockMode
  | some .ecb => .ok (wrapBlock b .ecb true)
  | some .cbc => withIV b iv (cbcEncrypter b iv)
  | some .cfb => withIV b iv (wrapCFB b iv true)
  | some .ctr => withIV b iv (wrapStream (lib.ctr b iv) .ctr)
  | some .ofb => withIV b iv (wrapStream (lib.ofb b iv) .ofb)
  | some .gcm => (newGCM lib b).map fun a => aeadEncryptWrapper lib a b.size .gcm
  | mode => .error (.unknownMode mode)

def decryptModeMapping (lib : Library) (b : Block) (iv : Bytes) :
    Option CipherMode → Except Fault BlockMode
  | some .ecb => .ok (wrapBlock b .ecb false)
  | some .cbc => withIV b iv (cbcDecrypter b iv)
  | some .cfb => withIV b iv (wrapCFB b iv false)
  | some .ctr => withIV b iv (wrapStream (lib.ctr b iv) .ctr)
  | some .ofb => withIV b iv (wrapStream (lib.ofb b iv) .ofb)
  | some .gcm => (newGCM lib b).map fun a => aeadDecryptWrapper a b.size .gcm
  | mode => .error (.unknownMode mode)

def streamEncryptMapping (lib : Library) (key : Bytes) :
    Option CipherAlgorithm → Except Fault BlockMode
  | some .rc4 => (lib.newRC4 key).map rc4Wrapper
  | some .chaCha20poly1305 => (lib.newChaCha20poly1305 key).map fun a =>
    aeadEncryptWrapper lib a defaultBlockSize .stream
  | some .xChaCha20poly1305 => (lib.newXChaCha20poly1305 key).map fun a =>
    aeadEncryptWrapper lib a defaultBlockSize .stream
  | algo => .error (.unknownAlgorithm algo)

def streamDecryptMapping (lib : Library) (key : Bytes) :
    Option CipherAlgorithm → Except Fault BlockMode
  | some .rc4 => (lib.newRC4 key).map rc4Wrapper
  | some .chaCha20poly1305 => (lib.newChaCha20poly1305 key).map fun a =>
    aeadDecryptWrapper a defaultBlockSize .stream
  | some .xChaCha20poly1305 => (lib.newXChaCha20poly1305 key).map fun a =>
    aeadDecryptWrapper a defaultBlockSize .stream
  | algo => .error (.unknownAlgorithm algo)

/-- `getEncrypter`.  `none` is a number that is no algorithm or no mode. -/
def getEncrypter (lib : Library) (algo : Option CipherAlgorithm) (mode : Option CipherMode)
    (key iv : Bytes) : Except Fault BlockMode :=
  match cipherBlockMapping lib algo with
  | some newCipher => (newCipher key).bind fun b => encryptModeMapping lib b iv mode
  | none => streamEncryptMapping lib key algo

def getDecrypter (lib : Library) (algo : Option CipherAlgorithm) (mode : Option CipherMode)
    (key iv : Bytes) : Except Fault BlockMode :=
  match cipherBlockMapping lib algo with
  | some newCipher => (newCipher key).bind fun b => decryptModeMapping lib b iv mode
  | none => streamDecryptMapping lib key algo

/-! ## Padding -/

/-- `Mode.ShouldPadding`. -/
def shouldPadding : CipherMode → Bool
  | .ecb | .cbc => true
  | _ => false

def pkcs7Pad (data : Bytes) (blockSize : Nat) : Bytes :=
  if blockSize = 0 then data
  else
    let padding := blockSize - data.length % blockSize
    data ++ List.replicate padding (UInt8.ofNat padding)

def pkcs7Unpad (data : Bytes) : Except Fault Bytes :=
  match data.getLast? with
  | none => .ok data
  | some last =>
    let padding := last.toNat
    if padding = 0 ∨ padding > data.length then
      .error (.error "invalid pkcs7 padding (padding size > data)")
    else if ((data.reverse.take padding).drop 1).all (· == last) then
      .ok (data.take (data.length - padding))
    else .error (.error "invalid pkcs7 padding (pad[i] != padding text)")

/-! ## The functions -/

/-- The size that the loops of `encrypt` and `decrypt` cut by. -/
def BlockMode.chunkSize (bm : BlockMode) (size : Nat) (src : Bytes) : Nat :=
  if bm.plainBlockSize ≠ 0 ∧ bm.cipherBlockSize ≠ 0 then size else src.length

def encrypt (bm : BlockMode) (src : Bytes) : Except Fault Bytes :=
  transduceAll bm.cryptBlocks bm.start (bm.chunkSize bm.plainBlockSize src) src

def decrypt (bm : BlockMode) (src : Bytes) : Except Fault Bytes :=
  transduceAll bm.cryptBlocks bm.start (bm.chunkSize bm.cipherBlockSize src) src

def encryptBytesFunc (lib : Library) (algo : Option CipherAlgorithm) (mode : Option CipherMode)
    (key iv : Bytes) : Except Fault (Bytes → Except Fault Bytes) :=
  match getEncrypter lib algo mode key iv with
  | .error e => .error e
  | .ok bm => .ok fun src =>
    encrypt bm (if shouldPadding bm.mode then pkcs7Pad src bm.plainBlockSize else src)

def decryptBytesFunc (lib : Library) (algo : Option CipherAlgorithm) (mode : Option CipherMode)
    (key iv : Bytes) : Except Fault (Bytes → Except Fault Bytes) :=
  match getDecrypter lib algo mode key iv with
  | .error e => .error e
  | .ok bm => .ok fun src => do
    let dst ← decrypt bm src
    if shouldPadding bm.mode then pkcs7Unpad dst else .ok dst

end Gofusion.Cipher
