import Gofusion.Cipher.Padding

/-!
# Decryption inverts encryption

The assumptions on the ciphers are `Library.Lawful`: block ciphers are inverse on blocks, and
opening inverts sealing under the same nonce.

* Each wrapper of the encrypter is `Paired` with the one of the decrypter (`inverts_get`).
* For paired wrappers the loop of `decrypt` finds the chunks that the loop of `encrypt` wrote
  (`Paired.decrypt_encrypt`).
-/

namespace Gofusion.Cipher

open Gofusion.Config (CipherAlgorithm CipherMode)
open Gofusion.Lib

/-! ## Assumptions on the ciphers -/

structure Block.Lawful (b : Block) : Prop where
  size_eq : b.size = 8 ∨ b.size = 16
  length_encrypt : ∀ x, x.length = b.size → (b.encrypt x).length = b.size
  decrypt_encrypt : ∀ x, x.length = b.size → b.decrypt (b.encrypt x) = x

structure AEAD.Lawful (a : AEAD) : Prop where
  length_seal : ∀ n p, n.length = a.nonceSize → (a.sealWith n p).length = p.length + a.overhead
  open_seal : ∀ n p, n.length = a.nonceSize → a.openWith n (a.sealWith n p) = .ok p

structure Library.Lawful (lib : Library) : Prop where
  block : ∀ algo newCipher key b, cipherBlockMapping lib algo = some newCipher →
    newCipher key = .ok b → b.Lawful
  gcm : ∀ b, b.Lawful → b.size = 16 → (lib.gcm b).Lawful
  chaCha20poly1305 : ∀ key a, lib.newChaCha20poly1305 key = .ok a → a.Lawful
  xChaCha20poly1305 : ∀ key a, lib.newXChaCha20poly1305 key = .ok a → a.Lawful
  random : ∀ i n bs, lib.random i n = .ok bs → bs.length = n

/-- `CryptoRandom` returns no error. -/
def Library.RandomReads (lib : Library) : Prop := ∀ i n, ∃ bs, lib.random i n = .ok bs

/-! ## Paired wrappers -/

variable {e d : BlockMode} {R : e.State → d.State → Prop} {mode : CipherMode}

/-- The chunks that `encrypt` hands to a wrapper. -/
def BlockMode.Fits (e : BlockMode) (b : Bytes) : Prop :=
  b ≠ [] ∧ (e.plainBlockSize ≠ 0 → b.length ≤ e.plainBlockSize) ∧
    (shouldPadding e.mode → b.length = e.plainBlockSize)

/-- The second wrapper undoes the first. -/
structure Paired (e d : BlockMode) (R : e.State → d.State → Prop) (k : Nat) : Prop where
  mode : d.mode = e.mode
  plain : d.plainBlockSize = e.plainBlockSize
  cipher : d.cipherBlockSize = e.cipherBlockSize
  longer : e.plainBlockSize ≠ 0 → e.cipherBlockSize = e.plainBlockSize + k
  atOnce : e.plainBlockSize = 0 → k = 0
  padded : shouldPadding e.mode → 0 < e.plainBlockSize ∧ e.plainBlockSize ≤ 255
  start : R e.start d.start
  undone : Undone e.cryptBlocks d.cryptBlocks R e.Fits k

/-- A padded input, if the mode is one that pads. -/
def BlockMode.Padded (e : BlockMode) (src : Bytes) : Prop :=
  shouldPadding e.mode → e.plainBlockSize ∣ src.length

variable {src out : Bytes} {k : Nat} {a : AEAD}

theorem BlockMode.fits_chunks {e : BlockMode} (hsrc : e.Padded src) (hpos : 0 < e.plainBlockSize) :
    ∀ b ∈ chunks e.plainBlockSize src, e.Fits b := by
  obtain ⟨haligned, hflatten⟩ := chunks_spec hpos src
  intro b hb
  obtain ⟨hne, hle⟩ := haligned.ne_nil hpos b hb
  refine ⟨hne, fun _ => hle, fun hpad => haligned.full ?_ b hb⟩
  rw [hflatten]
  exact hsrc hpad

theorem BlockMode.fits_whole {e : BlockMode} (hzero : e.plainBlockSize = 0)
    (hpad : shouldPadding e.mode → 0 < e.plainBlockSize) (hne : src ≠ []) : e.Fits src :=
  ⟨hne, fun h => absurd hzero h, fun h => absurd (hpad h) (by omega)⟩

/-- For paired wrappers `decrypt` inverts `encrypt`. -/
theorem Paired.decrypt_encrypt (h : Paired e d R k) (hsrc : e.Padded src)
    (henc : encrypt e src = .ok out) : decrypt d out = .ok src := by
  rw [encrypt, BlockMode.chunkSize] at henc
  rw [decrypt, BlockMode.chunkSize, h.plain, h.cipher]
  by_cases hzero : e.plainBlockSize = 0
  · rw [if_neg (by simp [hzero])] at henc ⊢
    by_cases hne : src = []
    · subst hne
      cases Except.ok.inj henc
      rfl
    · -- the input is one chunk, and so is an output of the same length
      have hpos : 0 < src.length := List.length_pos_iff.mpr hne
      have hfits := e.fits_whole hzero (fun hpad => (h.padded hpad).1) hne
      have hok : ∀ b ∈ chunks src.length src, e.Fits b := by
        rw [chunks_last hne (Nat.le_refl _)]
        simpa using hfits
      obtain ⟨hlen, hdec⟩ := h.undone.transduceAll hpos h.start hok henc
      rw [h.atOnce hzero] at hlen hdec
      rw [show out.length = src.length + 0 by omega]
      exact hdec
  · have hcipher := h.longer hzero
    rw [if_pos ⟨hzero, by omega⟩] at henc ⊢
    rw [hcipher]
    exact (h.undone.transduceAll (by omega) h.start
      (BlockMode.fits_chunks hsrc (by omega)) henc).2

/-- The wrapper returns no error on what `encrypt` hands to it. -/
def BlockMode.Total (e : BlockMode) : Prop := ∀ b, e.Fits b → ∀ s, ∃ r, e.cryptBlocks s b = .ok r

/-- A wrapper that fails on no chunk fails on no message. -/
theorem Paired.encrypt_total (h : Paired e d R k) (htotal : e.Total) (hsrc : e.Padded src) :
    ∃ out, encrypt e src = .ok out := by
  have hfits : ∀ b ∈ chunks (e.chunkSize e.plainBlockSize src) src, e.Fits b := by
    rw [BlockMode.chunkSize]
    by_cases hzero : e.plainBlockSize = 0
    · rw [if_neg (by simp [hzero])]
      by_cases hne : src = []
      · subst hne
        nofun
      · rw [chunks_last hne (Nat.le_refl _)]
        simpa using e.fits_whole hzero (fun hpad => (h.padded hpad).1) hne
    · have hcipher := h.longer hzero
      rw [if_pos ⟨hzero, by omega⟩]
      exact BlockMode.fits_chunks hsrc (by omega)
  obtain ⟨cs, hcs⟩ := transduce_total fun b hb => htotal b (hfits b hb)
  exact ⟨cs.flatten, transduceAll_eq_ok.mpr ⟨cs, hcs, rfl⟩⟩

/-! ## The wrappers over a block cipher -/

section

variable {b : Block} (hb : b.Lawful)
include hb

theorem Block.Lawful.size_bounds : 0 < b.size ∧ b.size ≤ 255 := by
  have := hb.size_eq
  omega

theorem paired_wrapBlock :
    Paired (wrapBlock b .ecb true) (wrapBlock b .ecb false) (fun _ _ => True) 0 where
  mode := rfl
  plain := rfl
  cipher := rfl
  longer _ := rfl
  atOnce _ := rfl
  padded _ := hb.size_bounds
  start := trivial
  undone := by
    rintro s t x c s' - ⟨-, -, hfull⟩ henc
    have hlen : x.length = b.size := hfull rfl
    simp only [wrapBlock, if_pos hlen, if_true] at henc
    cases henc
    refine ⟨(hb.length_encrypt x hlen).trans hlen.symm, (), ?_, trivial⟩
    simp only [wrapBlock, if_pos (hb.length_encrypt x hlen), hb.decrypt_encrypt x hlen]
    rfl

omit hb in
theorem xorBytes_xorBytes : ∀ {xs ys : Bytes}, xs.length = ys.length →
    xorBytes (xorBytes xs ys) ys = xs
  | [], [], _ => rfl
  | x :: xs, y :: ys, h => by
    have ih : xorBytes (xorBytes xs ys) ys = xs := xorBytes_xorBytes (by simpa using h)
    simp only [xorBytes, List.zipWith_cons_cons, UInt8.xor_assoc, UInt8.xor_self,
      UInt8.xor_zero] at ih ⊢
    rw [ih]

omit hb in
theorem length_xorBytes {xs ys : Bytes} (h : xs.length = ys.length) :
    (xorBytes xs ys).length = xs.length := by
  rw [xorBytes, List.length_zipWith, h, Nat.min_self]

theorem paired_cbc {iv : Bytes} (hiv : iv.length = b.size) :
    Paired (cbcEncrypter b iv) (cbcDecrypter b iv)
      (fun (s t : Bytes) => t = s ∧ s.length = b.size) 0 where
  mode := rfl
  plain := rfl
  cipher := rfl
  longer _ := rfl
  atOnce _ := rfl
  padded _ := hb.size_bounds
  start := ⟨rfl, hiv⟩
  undone := by
    rintro (s : Bytes) (t : Bytes) x c (s' : Bytes) ⟨rfl, hs⟩ ⟨-, -, hfull⟩ henc
    have hlen : x.length = b.size := hfull rfl
    have hxor : (xorBytes x t).length = b.size :=
      (length_xorBytes (hlen.trans hs.symm)).trans hlen
    simp only [cbcEncrypter, if_pos hlen] at henc
    cases henc
    have hc := hb.length_encrypt _ hxor
    refine ⟨hc.trans hlen.symm, b.encrypt (xorBytes x t), ?_, rfl, hc⟩
    simp only [cbcDecrypter, if_pos hc, hb.decrypt_encrypt _ hxor,
      xorBytes_xorBytes (hlen.trans hs.symm)]

end

/-! ## The wrappers over a stream -/

theorem length_xorKeyStream (key : Nat → UInt8) : ∀ (pos : Nat) (xs : Bytes),
    (xorKeyStream key pos xs).length = xs.length
  | _, [] => rfl
  | pos, _ :: xs => congrArg (· + 1) (length_xorKeyStream key (pos + 1) xs)

theorem xorKeyStream_xorKeyStream (key : Nat → UInt8) : ∀ (pos : Nat) (xs : Bytes),
    xorKeyStream key pos (xorKeyStream key pos xs) = xs
  | _, [] => rfl
  | pos, x :: xs => by
    rw [xorKeyStream, xorKeyStream, xorKeyStream_xorKeyStream key (pos + 1) xs,
      UInt8.xor_assoc, UInt8.xor_self, UInt8.xor_zero]

/-- Two sides at the same position of one key stream. -/
theorem undone_xorKeyStream (key : Nat → UInt8) (ok : Bytes → Prop) :
    Undone (ε := Fault) (fun pos src => .ok (xorKeyStream key pos src, pos + src.length))
      (fun pos src => .ok (xorKeyStream key pos src, pos + src.length))
      (fun s t : Nat => t = s) ok 0 := by
  rintro s t x c s' rfl - henc
  cases henc
  refine ⟨length_xorKeyStream key t x, t + x.length, ?_, rfl⟩
  show Except.ok (xorKeyStream key t (xorKeyStream key t x), _) = _
  rw [xorKeyStream_xorKeyStream, length_xorKeyStream]

theorem paired_wrapStream (key : Nat → UInt8) (hmode : shouldPadding mode = false) :
    Paired (wrapStream key mode) (wrapStream key mode) (fun (s t : Nat) => t = s) 0 where
  mode := rfl
  plain := rfl
  cipher := rfl
  longer _ := rfl
  atOnce _ := rfl
  padded hpad := absurd hpad (by simp [wrapStream, hmode])
  start := rfl
  undone := undone_xorKeyStream key _

theorem paired_rc4 (key : Nat → UInt8) :
    Paired (rc4Wrapper key) (rc4Wrapper key) (fun (s t : Nat) => t = s) 0 where
  mode := rfl
  plain := rfl
  cipher := rfl
  longer h := absurd rfl h
  atOnce _ := rfl
  padded := nofun
  start := rfl
  undone := undone_xorKeyStream key _

/-- The decrypter feeds back the bytes that the encrypter fed back. -/
theorem cfbXor_cfbXor (b : Block) : ∀ (s : Feedback) (xs : Bytes),
    (cfbXor b true s xs).1.length = xs.length ∧
      cfbXor b false s (cfbXor b true s xs).1 = (xs, (cfbXor b true s xs).2)
  | _, [] => ⟨rfl, rfl⟩
  | s, x :: xs => by
    obtain ⟨hlen, hback⟩ := cfbXor_cfbXor b (s.push b (x ^^^ s.key b)) xs
    refine ⟨congrArg (· + 1) hlen, ?_⟩
    simp only [cfbXor, if_true, Bool.false_eq_true, if_false, hback, UInt8.xor_assoc,
      UInt8.xor_self, UInt8.xor_zero]

theorem paired_cfb (b : Block) (iv : Bytes) :
    Paired (wrapCFB b iv true) (wrapCFB b iv false) (fun (s t : Feedback) => t = s) 0 where
  mode := rfl
  plain := rfl
  cipher := rfl
  longer _ := rfl
  atOnce _ := rfl
  padded := nofun
  start := rfl
  undone := by
    rintro (s : Feedback) (t : Feedback) x c (s' : Feedback) rfl - henc
    obtain ⟨hlen, hback⟩ := cfbXor_cfbXor b t x
    simp only [wrapCFB, Except.ok.injEq] at henc
    rw [henc] at hlen hback
    exact ⟨hlen, s', congrArg Except.ok hback, rfl⟩

/-! ## The wrappers over an AEAD -/

/-- The cipher chunk starts with the nonce, so the decrypter opens under the nonce that the
encrypter drew. -/
theorem paired_aead {lib : Library} (hlib : lib.Lawful) (ha : a.Lawful)
    (hmode : shouldPadding mode = false) :
    Paired (aeadEncryptWrapper lib a defaultBlockSize mode)
      (aeadDecryptWrapper a defaultBlockSize mode) (fun _ _ => True)
      (a.nonceSize + a.overhead) where
  mode := rfl
  plain := rfl
  cipher := rfl
  longer _ := Nat.add_comm _ _
  atOnce h := absurd h (by decide : defaultBlockSize * blockSizeTimes ≠ 0)
  padded hpad := absurd hpad (by simp [aeadEncryptWrapper, hmode])
  start := trivial
  undone := by
    rintro (i : Nat) t x c (i' : Nat) - ⟨hne, hle, -⟩ henc
    have hx : x.length ≤ defaultBlockSize * blockSizeTimes :=
      hle (show defaultBlockSize * blockSizeTimes ≠ 0 by decide)
    have hxpos : 0 < x.length := List.length_pos_iff.mpr hne
    simp only [aeadEncryptWrapper, if_neg hne, List.take_of_length_le hx] at henc
    obtain ⟨nonce, hrandom, hout⟩ := bind_eq_ok.mp henc
    cases hout
    have hnonce := hlib.random _ _ _ hrandom
    have hsealed := ha.length_seal nonce x hnonce
    have hlen : (nonce ++ a.sealWith nonce x).length = x.length + (a.nonceSize + a.overhead) := by
      rw [List.length_append, hnonce, hsealed]
      omega
    refine ⟨hlen, (), ?_, trivial⟩
    -- what is opened is all that follows the nonce
    have htake : (a.sealWith nonce x).take (min (a.overhead + defaultBlockSize * blockSizeTimes)
        (x.length + (a.nonceSize + a.overhead) - a.nonceSize)) = a.sealWith nonce x :=
      List.take_of_length_le (by omega)
    simp only [aeadDecryptWrapper, hlen]
    rw [if_neg (List.ne_nil_of_length_pos (by omega)), if_neg (by omega), List.take_left' hnonce,
      List.drop_left' hnonce, htake, ha.open_seal nonce x hnonce]
    rfl

/-! ## The tables -/

theorem except_map_eq_ok.{u} {ε α : Type} {β : Type u} {x : Except ε α} {f : α → β} {y : β} :
    x.map f = .ok y ↔ ∃ a, x = .ok a ∧ f a = y := by
  cases x <;> simp [Except.map]

theorem newGCM_eq_ok {lib : Library} {b : Block} :
    newGCM lib b = .ok a ↔ b.size = 16 ∧ lib.gcm b = a := by
  rw [newGCM]
  split <;> simp [*]

theorem total_wrapBlock (b : Block) : (wrapBlock b .ecb true).Total := fun _ hx _ =>
  ⟨_, if_pos (hx.2.2 rfl)⟩

theorem total_cbc (b : Block) (iv : Bytes) : (cbcEncrypter b iv).Total := fun _ hx _ =>
  ⟨_, if_pos (hx.2.2 rfl)⟩

theorem total_aead {lib : Library} (hrandom : lib.RandomReads) (a : AEAD) (size : Nat)
    (mode : CipherMode) : (aeadEncryptWrapper lib a size mode).Total := by
  rintro x ⟨hne, -, -⟩ (i : Nat)
  obtain ⟨nonce, hnonce⟩ := hrandom i a.nonceSize
  refine ⟨(nonce ++ a.sealWith nonce (x.take (size * blockSizeTimes)), i + 1), ?_⟩
  simp only [aeadEncryptWrapper, if_neg hne, hnonce]
  rfl

/-- The decrypter undoes the encrypter, and the encrypter fails at most for want of random
bytes. -/
def Inverts (lib : Library) (e d : BlockMode) : Prop :=
  (∃ R k, Paired e d R k) ∧ (lib.RandomReads → e.Total)

/-- What the tables wrap: a block cipher, with CBC or CFB, a key stream, an AEAD or RC4. -/
inductive Scheme
  | block (b : Block)
  | chained (b : Block) (iv : Bytes)
  | feedback (b : Block) (iv : Bytes)
  | keyed (key : Nat → UInt8) (mode : CipherMode)
  | sealed (a : AEAD) (mode : CipherMode)
  | rc4 (key : Nat → UInt8)

namespace Scheme

def encrypter (lib : Library) : Scheme → BlockMode
  | block b => wrapBlock b .ecb true
  | chained b iv => cbcEncrypter b iv
  | feedback b iv => wrapCFB b iv true
  | keyed key mode => wrapStream key mode
  | sealed a mode => aeadEncryptWrapper lib a defaultBlockSize mode
  | rc4 key => rc4Wrapper key

def decrypter : Scheme → BlockMode
  | block b => wrapBlock b .ecb false
  | chained b iv => cbcDecrypter b iv
  | feedback b iv => wrapCFB b iv false
  | keyed key mode => wrapStream key mode
  | sealed a mode => aeadDecryptWrapper a defaultBlockSize mode
  | rc4 key => rc4Wrapper key

/-- The AEAD is one of the packages'. -/
def Provided (lib : Library) (a : AEAD) : Prop :=
  (∃ b : Block, b.Lawful ∧ b.size = 16 ∧ lib.gcm b = a) ∨
    ∃ key, lib.newChaCha20poly1305 key = .ok a ∨ lib.newXChaCha20poly1305 key = .ok a

theorem Provided.lawful {lib : Library} (hlib : lib.Lawful) (h : Provided lib a) : a.Lawful := by
  obtain ⟨b, hb, hsize, rfl⟩ | ⟨key, ha | ha⟩ := h
  · exact hlib.gcm b hb hsize
  · exact hlib.chaCha20poly1305 key a ha
  · exact hlib.xChaCha20poly1305 key a ha

/-- What the tables and the assumptions on the ciphers say of the scheme of an algorithm. -/
def Lawful (lib : Library) (algo : Option CipherAlgorithm) : Scheme → Prop
  | block b => b.Lawful
  | chained b iv => b.Lawful ∧ iv.length = b.size
  | feedback _ _ => True
  | keyed _ mode => mode = .ctr ∨ mode = .ofb
  | sealed a mode => Provided lib a ∧ (mode = .gcm ∨ mode = .stream ∧ algo ≠ some .rc4)
  | rc4 _ => algo = some .rc4

/-- The two tables wrap one scheme, or fail alike. -/
def Of (lib : Library) (algo : Option CipherAlgorithm) (e d : Except Fault BlockMode) : Prop :=
  (∃ s : Scheme, s.Lawful lib algo ∧ e = .ok (s.encrypter lib) ∧ d = .ok s.decrypter) ∨
    ∃ f, e = .error f ∧ d = .error f

section

variable {lib : Library} {algo : Option CipherAlgorithm}

theorem of_modeMapping {b : Block} (hb : b.Lawful) (iv : Bytes) (mode : Option CipherMode) :
    Of lib algo (encryptModeMapping lib b iv mode) (decryptModeMapping lib b iv mode) := by
  have hwith : ∀ s : Scheme, (iv.length = b.size → s.Lawful lib algo) →
      Of lib algo (withIV b iv (s.encrypter lib)) (withIV b iv s.decrypter) := by
    intro s hs
    rw [withIV, withIV]
    split
    next hiv => exact .inl ⟨s, hs hiv, rfl, rfl⟩
    next => exact .inr ⟨_, rfl, rfl⟩
  match mode with
  | some .ecb => exact .inl ⟨block b, hb, rfl, rfl⟩
  | some .cbc => exact hwith (chained b iv) fun hiv => ⟨hb, hiv⟩
  | some .cfb => exact hwith (feedback b iv) fun _ => trivial
  | some .ctr => exact hwith (keyed _ .ctr) fun _ => .inl rfl
  | some .ofb => exact hwith (keyed _ .ofb) fun _ => .inr rfl
  | some .gcm =>
    rw [encryptModeMapping, decryptModeMapping, newGCM]
    split
    next hsize =>
      refine .inl ⟨sealed (lib.gcm b) .gcm, ⟨.inl ⟨b, hb, hsize, rfl⟩, .inl rfl⟩, ?_, ?_⟩
      all_goals rw [hsize]; rfl
    next => exact .inr ⟨_, rfl, rfl⟩
  | some .stream | none => exact .inr ⟨_, rfl, rfl⟩

theorem of_streamMapping (key : Bytes) (algo : Option CipherAlgorithm) :
    Of lib algo (streamEncryptMapping lib key algo) (streamDecryptMapping lib key algo) := by
  have haead : algo ≠ some .rc4 → ∀ x : Except Fault AEAD, (∀ a, x = .ok a → Provided lib a) →
      Of lib algo (x.map fun a => aeadEncryptWrapper lib a defaultBlockSize .stream)
      (x.map fun a => aeadDecryptWrapper a defaultBlockSize .stream) := by
    intro hne x hx
    cases x with
    | error f => exact .inr ⟨f, rfl, rfl⟩
    | ok a => exact .inl ⟨sealed a .stream, ⟨hx a rfl, .inr ⟨rfl, hne⟩⟩, rfl, rfl⟩
  match algo with
  | some .rc4 =>
    rw [streamEncryptMapping, streamDecryptMapping]
    cases lib.newRC4 key with
    | error f => exact .inr ⟨f, rfl, rfl⟩
    | ok stream => exact .inl ⟨rc4 stream, rfl, rfl, rfl⟩
  | some .chaCha20poly1305 => exact haead nofun _ fun a ha => .inr ⟨key, .inl ha⟩
  | some .xChaCha20poly1305 => exact haead nofun _ fun a ha => .inr ⟨key, .inr ha⟩
  | some .des | some .tripleDES | some .aes | some .sm4 | none => exact .inr ⟨_, rfl, rfl⟩

variable (hlib : lib.Lawful)
include hlib

theorem of_get (algo : Option CipherAlgorithm) (mode : Option CipherMode) (key iv : Bytes) :
    Of lib algo (getEncrypter lib algo mode key iv) (getDecrypter lib algo mode key iv) := by
  rw [getEncrypter, getDecrypter]
  cases hmap : cipherBlockMapping lib algo with
  | none => exact of_streamMapping key algo
  | some newCipher =>
    dsimp only
    cases hb : newCipher key with
    | error f => exact .inr ⟨f, rfl, rfl⟩
    | ok b => exact of_modeMapping (hlib.block algo newCipher key b hmap hb) iv mode

/-- The wrappers of a lawful scheme are inverse. -/
theorem inverts {s : Scheme} (hs : s.Lawful lib algo) : Inverts lib (s.encrypter lib) s.decrypter := by
  cases s with
  | block b => exact ⟨⟨_, _, paired_wrapBlock hs⟩, fun _ => total_wrapBlock b⟩
  | chained b iv => exact ⟨⟨_, _, paired_cbc hs.1 hs.2⟩, fun _ => total_cbc b iv⟩
  | feedback b iv => exact ⟨⟨_, _, paired_cfb b iv⟩, fun _ _ _ _ => ⟨_, rfl⟩⟩
  | keyed key mode =>
    have hmode : shouldPadding mode = false := by rcases hs with rfl | rfl <;> rfl
    exact ⟨⟨_, _, paired_wrapStream key hmode⟩, fun _ _ _ _ => ⟨_, rfl⟩⟩
  | sealed a mode =>
    have hmode : shouldPadding mode = false := by
      rcases hs.2 with rfl | ⟨rfl, -⟩ <;> rfl
    exact ⟨⟨_, _, paired_aead hlib (hs.1.lawful hlib) hmode⟩, fun hrandom => total_aead hrandom a _ mode⟩
  | rc4 key => exact ⟨⟨_, _, paired_rc4 key⟩, fun _ _ _ _ => ⟨_, rfl⟩⟩

end

end Scheme

section

variable {lib : Library} (hlib : lib.Lawful) {algo : Option CipherAlgorithm}
  {mode : Option CipherMode} {key iv : Bytes}
include hlib

/-- The tables give the two sides of a lawful scheme. -/
theorem scheme_of_getEncrypter (he : getEncrypter lib algo mode key iv = .ok e) :
    ∃ s : Scheme, s.Lawful lib algo ∧ e = s.encrypter lib ∧
      getDecrypter lib algo mode key iv = .ok s.decrypter := by
  obtain ⟨s, hs, hse, hsd⟩ | ⟨f, hf, -⟩ := Scheme.of_get hlib algo mode key iv
  · exact ⟨s, hs, Except.ok.inj (he.symm.trans hse), hsd⟩
  · cases he.symm.trans hf

theorem scheme_of_getDecrypter (hd : getDecrypter lib algo mode key iv = .ok d) :
    ∃ s : Scheme, s.Lawful lib algo ∧ d = s.decrypter := by
  obtain ⟨s, hs, -, hsd⟩ | ⟨f, -, hf⟩ := Scheme.of_get hlib algo mode key iv
  · exact ⟨s, hs, Except.ok.inj (hd.symm.trans hsd)⟩
  · cases hd.symm.trans hf

/-- So are those that the tables give. -/
theorem inverts_get (he : getEncrypter lib algo mode key iv = .ok e)
    (hd : getDecrypter lib algo mode key iv = .ok d) : Inverts lib e d := by
  obtain ⟨s, hs, rfl, hsd⟩ := scheme_of_getEncrypter hlib he
  obtain rfl := Except.ok.inj (hd.symm.trans hsd)
  exact s.inverts hlib hs

end

/-! ## Messages -/

/-- What the encrypter is given for a message. -/
def BlockMode.input (e : BlockMode) (msg : Bytes) : Bytes :=
  if shouldPadding e.mode then pkcs7Pad msg e.plainBlockSize else msg

theorem Paired.padded_input (h : Paired e d R k) (msg : Bytes) : e.Padded (e.input msg) := by
  intro hpad
  rw [BlockMode.input, if_pos hpad]
  exact dvd_length_pkcs7Pad (h.padded hpad).1 msg

theorem Paired.unpad_input (h : Paired e d R k) (msg : Bytes) :
    (if shouldPadding d.mode then pkcs7Unpad (e.input msg) else .ok (e.input msg)) = .ok msg := by
  rw [h.mode, BlockMode.input]
  by_cases hpad : shouldPadding e.mode
  · rw [if_pos hpad, if_pos hpad, pkcs7Unpad_pkcs7Pad (h.padded hpad).1 (h.padded hpad).2]
  · rw [if_neg hpad, if_neg hpad]

theorem Paired.decryptBytes (h : Paired e d R k)
    (hout : encrypt e (e.input msg) = .ok out) :
    (do let dst ← decrypt d out
        if shouldPadding d.mode then pkcs7Unpad dst else .ok dst) = .ok msg := by
  rw [h.decrypt_encrypt (h.padded_input msg) hout]
  exact h.unpad_input msg

/-- A fresh decrypter gives back every message from what a fresh encrypter made of it.  The
encrypter makes something of every message unless the random source fails. -/
theorem decryptBytes_inverts_encryptBytes (lib : Library) (hlib : lib.Lawful)
    (algo : Option CipherAlgorithm) (mode : Option CipherMode) (key iv : Bytes)
    (enc dec : Bytes → Except Fault Bytes) (henc : encryptBytesFunc lib algo mode key iv = .ok enc)
    (hdec : decryptBytesFunc lib algo mode key iv = .ok dec) (msg : Bytes) :
    (∀ out, enc msg = .ok out → dec out = .ok msg) ∧
      (lib.RandomReads → ∃ out, enc msg = .ok out ∧ dec out = .ok msg) := by
  rw [encryptBytesFunc] at henc
  rw [decryptBytesFunc] at hdec
  cases he : getEncrypter lib algo mode key iv with
  | error f => rw [he] at henc; cases henc
  | ok e =>
    cases hd : getDecrypter lib algo mode key iv with
    | error f => rw [hd] at hdec; cases hdec
    | ok d =>
      rw [he] at henc
      rw [hd] at hdec
      obtain rfl := Except.ok.inj henc
      obtain rfl := Except.ok.inj hdec
      obtain ⟨⟨R, k, hpaired⟩, htotal⟩ := inverts_get hlib he hd
      refine ⟨fun out => hpaired.decryptBytes, fun hrandom => ?_⟩
      obtain ⟨out, hout⟩ := hpaired.encrypt_total (htotal hrandom) (hpaired.padded_input msg)
      exact ⟨out, hout, hpaired.decryptBytes hout⟩

/-- A library whose block ciphers turn a block around. -/
def mirrors : Library where
  newDES _ := .ok ⟨8, List.reverse, List.reverse⟩
  newTripleDES _ := .ok ⟨8, List.reverse, List.reverse⟩
  newAES _ := .ok ⟨16, List.reverse, List.reverse⟩
  newSM4 _ := .ok ⟨16, List.reverse, List.reverse⟩
  gcm _ := ⟨12, 16, fun _ p => p ++ List.replicate 16 0, fun _ c => .ok (c.take (c.length - 16))⟩
  ctr _ _ i := UInt8.ofNat i
  ofb _ _ i := UInt8.ofNat i
  newRC4 _ := .ok UInt8.ofNat
  newChaCha20poly1305 _ := .error (.error "chacha20poly1305: bad key length")
  newXChaCha20poly1305 _ := .error (.error "chacha20poly1305: bad key length")
  random i n := .ok (List.replicate n (UInt8.ofNat i))

theorem mirrors_lawful : mirrors.Lawful where
  block := by
    have hmirror : ∀ n, n = 8 ∨ n = 16 → Block.Lawful ⟨n, List.reverse, List.reverse⟩ :=
      fun n hn =>
        ⟨hn, fun x hx => List.length_reverse.trans hx, fun x _ => List.reverse_reverse x⟩
    intro algo newCipher key b hmap hb
    match algo, hmap with
    | some .des, rfl | some .tripleDES, rfl => cases hb; exact hmirror 8 (.inl rfl)
    | some .aes, rfl | some .sm4, rfl => cases hb; exact hmirror 16 (.inr rfl)
  gcm _ _ _ := ⟨fun _ _ _ => by simp [mirrors], fun _ _ _ => by simp [mirrors]⟩
  chaCha20poly1305 := nofun
  xChaCha20poly1305 := nofun
  random i n bs h := by
    cases h
    exact List.length_replicate

def zeroKey : Bytes := List.replicate 16 0

theorem mirrors_cbc_gives_hi_back : ∃ enc dec,
    encryptBytesFunc mirrors (some .aes) (some .cbc) zeroKey (List.replicate 16 7) = .ok enc ∧
    decryptBytesFunc mirrors (some .aes) (some .cbc) zeroKey (List.replicate 16 7) = .ok dec ∧
    ∃ out, enc [104, 105] = .ok out ∧ dec out = .ok [104, 105] :=
  ⟨_, _, rfl, rfl, (decryptBytes_inverts_encryptBytes mirrors mirrors_lawful (some .aes) (some .cbc)
    zeroKey (List.replicate 16 7) _ _ rfl rfl [104, 105]).2 fun _ _ => ⟨_, rfl⟩⟩

end Gofusion.Cipher
