import Gofusion.Cipher.Streaming

/-!
# Splices of authenticated ciphertexts

With GCM and with (X)ChaCha20-Poly1305 every chunk of a message is sealed on its own.  Nothing that
is sealed says which chunk of which message it is, nor which is the last.

The AEAD is ideal: it opens what was sealed under the key, and nothing else (`AEAD.Ideal`).  The
decrypter then accepts exactly the splices: chunks that were sealed for any messages, in any
order and any number, of which all but the last are full (`decrypt_eq_ok_iff_splice`).
-/

namespace Gofusion.Cipher

open Gofusion.Config (CipherAlgorithm CipherMode)
open Gofusion.Lib

/-! ## Authenticated algorithms and modes -/

/-- GCM with a block cipher, ChaCha20-Poly1305 or XChaCha20-Poly1305. -/
def authenticated : Option CipherAlgorithm → Option CipherMode → Bool
  | some .chaCha20poly1305, _ | some .xChaCha20poly1305, _ => true
  | some .des, mode | some .tripleDES, mode | some .aes, mode | some .sm4, mode =>
    mode == some .gcm
  | _, _ => false

/-- The AEAD of a key that the stream tables wrap. -/
def streamAEAD (lib : Library) (key : Bytes) : Option CipherAlgorithm → Except Fault AEAD
  | some .chaCha20poly1305 => lib.newChaCha20poly1305 key
  | some .xChaCha20poly1305 => lib.newXChaCha20poly1305 key
  | algo => .error (.unknownAlgorithm algo)

def aeadOf (lib : Library) (algo : Option CipherAlgorithm) (key : Bytes) : Except Fault AEAD :=
  match cipherBlockMapping lib algo with
  | some newCipher => (newCipher key).bind (newGCM lib)
  | none => streamAEAD lib key algo

def fullChunk : Nat := defaultBlockSize * blockSizeTimes

theorem fullChunk_pos : 0 < fullChunk := by decide

theorem eq_gcm_of_authenticated
    (hmap : cipherBlockMapping lib algo = some newCipher)
    (hauth : authenticated algo mode = true) : mode = some .gcm := by
  match algo, hmap with
  | some .des, _ | some .tripleDES, _ | some .aes, _ | some .sm4, _ => exact eq_of_beq hauth

/-- Both tables wrap the AEAD, whatever the random source. -/
theorem get_of_authenticated {lib : Library} {algo : Option CipherAlgorithm}
    {mode : Option CipherMode} {key iv : Bytes} {a : AEAD} (hauth : authenticated algo mode = true)
    (ha : aeadOf lib algo key = .ok a) : ∃ m, supportStream m = true ∧
      (∀ random, getEncrypter { lib with random } algo mode key iv =
        .ok (aeadEncryptWrapper { lib with random } a defaultBlockSize m)) ∧
      getDecrypter lib algo mode key iv = .ok (aeadDecryptWrapper a defaultBlockSize m) := by
  have hsame : ∀ random, cipherBlockMapping { lib with random } algo = cipherBlockMapping lib algo :=
    fun _ => rfl
  rw [aeadOf] at ha
  cases hmap : cipherBlockMapping lib algo with
  | some _ =>
    rw [hmap] at ha
    obtain ⟨b, hb, hgcm⟩ := bind_eq_ok.mp ha
    obtain ⟨hsize, rfl⟩ := newGCM_eq_ok.mp hgcm
    obtain rfl := eq_gcm_of_authenticated hmap hauth
    refine ⟨.gcm, rfl, fun random => ?_, ?_⟩
    · rw [getEncrypter, hsame, hmap]
      simp only [hb, Except.bind, encryptModeMapping, newGCM, if_pos hsize, Except.map]
      rw [hsize]
      rfl
    · rw [getDecrypter, hmap]
      simp only [hb, Except.bind, decryptModeMapping, newGCM, if_pos hsize, Except.map]
      rw [hsize]
      rfl
  | none =>
    rw [hmap] at ha
    obtain _ | algo := algo
    · cases ha
    refine ⟨.stream, rfl, fun random => ?_, ?_⟩
    · rw [getEncrypter, hsame, hmap]
      cases algo <;> first
        | exact except_map_eq_ok.mpr ⟨a, ha, rfl⟩
        | cases ha
    · rw [getDecrypter, hmap]
      cases algo <;> first
        | exact except_map_eq_ok.mpr ⟨a, ha, rfl⟩
        | cases ha

/-! ## What was sealed -/

/-- The calls of `Seal` for chunks: the nonces, from the `i`-th call of `CryptoRandom` on, with
the chunks. -/
def sealCalls (random : Nat → Nat → Except Fault Bytes) (nonceSize : Nat) :
    Nat → List Bytes → List (Bytes × Bytes)
  | _, [] => []
  | i, p :: ps =>
    match random i nonceSize with
    | .error _ => []
    | .ok nonce => (nonce, p) :: sealCalls random nonceSize (i + 1) ps

/-- What is written for a call of `Seal`. -/
def AEAD.written (a : AEAD) (call : Bytes × Bytes) : Bytes :=
  call.1 ++ a.sealWith call.1 call.2

/-- A message that was encrypted, with the random bytes of its encryption and its ciphertext. -/
structure Encryption where
  random : Nat → Nat → Except Fault Bytes
  random_length : ∀ i n bs, random i n = .ok bs → bs.length = n
  msg : Bytes
  out : Bytes

/-- The message was encrypted by `EncryptBytesFunc`, or written in pieces to a writer of
`NewEncFunc`. -/
def Encryption.Made (lib : Library) (algo : Option CipherAlgorithm) (mode : Option CipherMode)
    (key iv : Bytes) (e : Encryption) : Prop :=
  (∃ enc, encryptBytesFunc { lib with random := e.random } algo mode key iv = .ok enc ∧
      enc e.msg = .ok e.out) ∨
    ∃ bm w writes, newEncFunc { lib with random := e.random } algo mode key iv = .ok bm ∧
      writes.flatten = e.msg ∧ (Enc.new bm).writeAll w writes = some (.ok e.out)

def Encryption.calls (a : AEAD) (e : Encryption) : List (Bytes × Bytes) :=
  sealCalls e.random a.nonceSize 0 (chunks fullChunk e.msg)

/-- `Open` inverts the calls of `Seal` that were made, and fails on everything else. -/
structure AEAD.Ideal (a : AEAD) (log : List (Bytes × Bytes)) : Prop where
  length_seal : ∀ nonce p, (nonce, p) ∈ log → (a.sealWith nonce p).length = p.length + a.overhead
  opens : ∀ nonce p, (nonce, p) ∈ log → a.openWith nonce (a.sealWith nonce p) = .ok p
  only : ∀ nonce c p, a.openWith nonce c = .ok p → (nonce, p) ∈ log ∧ c = a.sealWith nonce p

/-- The ciphertext is decrypted to `m` by `DecryptBytesFunc`, or read to the end as `m` from a
reader of `NewDecFunc`. -/
def Accepts (lib : Library) (algo : Option CipherAlgorithm) (mode : Option CipherMode)
    (key iv src m : Bytes) : Prop :=
  (∃ dec, decryptBytesFunc lib algo mode key iv = .ok dec ∧ dec src = .ok m) ∨
    ∃ bm plan sizes, newDecFunc lib algo mode key iv = .ok bm ∧
      readAll Dec.read sizes (Dec.new bm ⟨src, plan, 0⟩) = some (m, .eof)

theorem mem_sealCalls
    {call : Bytes × Bytes} : ∀ {i : Nat} {ps : List Bytes},
      call ∈ sealCalls random nonceSize i ps → (∃ j, random j nonceSize = .ok call.1) ∧ call.2 ∈ ps
  | i, p :: ps, h => by
    rw [sealCalls] at h
    split at h
    next => cases h
    next nonce hnonce =>
      rcases List.mem_cons.mp h with rfl | hmem
      · exact ⟨⟨i, hnonce⟩, List.mem_cons_self⟩
      · obtain ⟨hrandom, hp⟩ := mem_sealCalls hmem
        exact ⟨hrandom, List.mem_cons_of_mem _ hp⟩

theorem Encryption.mem_calls {a : AEAD} {e : Encryption} {call : Bytes × Bytes}
    (h : call ∈ e.calls a) : call.1.length = a.nonceSize ∧ call.2 ∈ chunks fullChunk e.msg := by
  obtain ⟨⟨j, hrandom⟩, hp⟩ := mem_sealCalls h
  exact ⟨e.random_length _ _ _ hrandom, hp⟩

/-- The encrypter writes its calls of `Seal`, one for every chunk. -/
theorem transduce_seal {lib : Library} {a : AEAD} : ∀ {i : Nat} {ps : List Bytes}
    {cs : List Bytes}, (∀ p ∈ ps, p ≠ [] ∧ p.length ≤ fullChunk) →
      transduce (aeadEncryptWrapper lib a defaultBlockSize m).cryptBlocks i ps = .ok cs →
      cs = (sealCalls lib.random a.nonceSize i ps).map a.written ∧
        (sealCalls lib.random a.nonceSize i ps).map Prod.snd = ps
  | i, [], cs, _, h => by
    cases h
    exact ⟨rfl, rfl⟩
  | i, p :: ps, _, hps, h => by
    obtain ⟨c, i', cs, hstep, hrest, rfl⟩ := transduce_cons_eq_ok.mp h
    obtain ⟨hne, hle⟩ := hps p List.mem_cons_self
    simp only [aeadEncryptWrapper, if_neg hne] at hstep
    obtain ⟨nonce, hnonce, hout⟩ := bind_eq_ok.mp hstep
    obtain ⟨rfl, rfl⟩ := Prod.mk.inj (Except.ok.inj hout)
    obtain ⟨hcs, hsnd⟩ := transduce_seal (fun p' hp' => hps p' (List.mem_cons_of_mem _ hp')) hrest
    have hp : p.take (defaultBlockSize * blockSizeTimes) = p := List.take_of_length_le hle
    rw [sealCalls, hnonce]
    refine ⟨?_, congrArg (p :: ·) hsnd⟩
    rw [List.map_cons, ← hcs, hp]
    rfl

theorem encrypt_seal {lib : Library} {a : AEAD} {m : CipherMode} {msg out : Bytes}
    (h : encrypt (aeadEncryptWrapper lib a defaultBlockSize m) msg = .ok out) :
    out = ((sealCalls lib.random a.nonceSize 0 (chunks fullChunk msg)).map a.written).flatten ∧
      (sealCalls lib.random a.nonceSize 0 (chunks fullChunk msg)).map Prod.snd =
        chunks fullChunk msg := by
  have hbuffered := buffered_aeadEncryptWrapper lib a (by decide : 0 < defaultBlockSize) m
  rw [hbuffered.encrypt_eq] at h
  obtain ⟨cs, hcs, rfl⟩ := transduceAll_eq_ok.mp h
  have hchunks := (chunks_spec fullChunk_pos msg).1.ne_nil fullChunk_pos
  obtain ⟨rfl, hsnd⟩ := transduce_seal hchunks hcs
  exact ⟨rfl, hsnd⟩

/-! ## What is accepted -/

section

variable {a : AEAD} {log : List (Bytes × Bytes)} (hideal : a.Ideal log)
  (hlog : ∀ call ∈ log, call.1.length = a.nonceSize ∧ call.2 ≠ []) {m : CipherMode}
include hideal hlog

theorem length_written {call : Bytes × Bytes} (hcall : call ∈ log) :
    (a.written call).length = call.2.length + (a.nonceSize + a.overhead) := by
  rw [AEAD.written, List.length_append, (hlog call hcall).1, hideal.length_seal _ _ hcall]
  omega

theorem open_written {call : Bytes × Bytes} (hcall : call ∈ log)
    (hle : call.2.length ≤ fullChunk) :
    (aeadDecryptWrapper a defaultBlockSize m).cryptBlocks () (a.written call) =
      .ok (call.2, ()) := by
  obtain ⟨hnonce, hne⟩ := hlog call hcall
  have hpos := List.length_pos_iff.mpr hne
  have hlen := length_written hideal hlog hcall
  have hopens := hideal.opens _ _ hcall
  have hseal := hideal.length_seal _ _ hcall
  have htake : (a.sealWith call.1 call.2).take (min (a.overhead + fullChunk)
      (call.2.length + (a.nonceSize + a.overhead) - a.nonceSize)) = a.sealWith call.1 call.2 :=
    List.take_of_length_le (by omega)
  simp only [aeadDecryptWrapper, hlen]
  rw [if_neg (List.ne_nil_of_length_pos (by omega)), if_neg (by omega), AEAD.written,
    List.take_left' hnonce, List.drop_left' hnonce]
  rw [fullChunk] at htake
  rw [htake, hopens]
  rfl

omit hlog in
theorem written_of_open {c p : Bytes} (hne : c ≠ [])
    (hle : c.length ≤ (aeadDecryptWrapper a defaultBlockSize m).cipherBlockSize)
    (h : (aeadDecryptWrapper a defaultBlockSize m).cryptBlocks () c = .ok (p, ())) :
    ∃ call ∈ log, c = a.written call ∧ p = call.2 := by
  simp only [aeadDecryptWrapper, if_neg hne] at h
  split at h
  next => cases h
  next hlong =>
    obtain ⟨p', hopen, hout⟩ := bind_eq_ok.mp h
    obtain ⟨rfl, -⟩ := Prod.mk.inj (Except.ok.inj hout)
    obtain ⟨hmem, hsealed⟩ := hideal.only _ _ _ hopen
    refine ⟨_, hmem, ?_, rfl⟩
    simp only [aeadDecryptWrapper] at hle
    rw [List.take_of_length_le (by rw [List.length_drop]; omega)] at hsealed
    rw [AEAD.written, ← hsealed, List.take_append_drop]

/-- Chunks that were sealed are opened one by one. -/
theorem transduce_written : ∀ {calls : List (Bytes × Bytes)},
    (∀ call ∈ calls, call ∈ log ∧ call.2.length ≤ fullChunk) →
    transduce (aeadDecryptWrapper a defaultBlockSize m).cryptBlocks () (calls.map a.written) =
      .ok (calls.map Prod.snd)
  | [], _ => rfl
  | call :: calls, h => by
    obtain ⟨hcall, hle⟩ := h call List.mem_cons_self
    refine transduce_cons_eq_ok.mpr ⟨call.2, (), calls.map Prod.snd,
      open_written hideal hlog hcall hle, ?_, rfl⟩
    exact transduce_written fun call' hcall' => h call' (List.mem_cons_of_mem _ hcall')

omit hlog in
theorem written_of_transduce : ∀ {cs ps : List Bytes}, (∀ c ∈ cs, c ≠ [] ∧
      c.length ≤ (aeadDecryptWrapper a defaultBlockSize m).cipherBlockSize) →
    transduce (aeadDecryptWrapper a defaultBlockSize m).cryptBlocks () cs = .ok ps →
    ∃ calls : List (Bytes × Bytes), (∀ call ∈ calls, call ∈ log) ∧ cs = calls.map a.written ∧
      ps = calls.map Prod.snd
  | [], ps, _, h => by
    cases h
    exact ⟨[], nofun, rfl, rfl⟩
  | c :: cs, _, hcs, h => by
    obtain ⟨p, _, ps, hstep, hrest, rfl⟩ := transduce_cons_eq_ok.mp h
    obtain ⟨hne, hle⟩ := hcs c List.mem_cons_self
    obtain ⟨call, hcall, rfl, rfl⟩ := written_of_open hideal hne hle hstep
    obtain ⟨calls, hcalls, rfl, rfl⟩ :=
      written_of_transduce (fun c' hc' => hcs c' (List.mem_cons_of_mem _ hc')) hrest
    exact ⟨call :: calls, List.forall_mem_cons.mpr ⟨hcall, hcalls⟩, rfl, rfl⟩

theorem forall₂_written {calls : List (Bytes × Bytes)} (h : ∀ call ∈ calls, call ∈ log) :
    List.Forall₂ (fun p c => c.length = p.length + (a.nonceSize + a.overhead))
      (calls.map Prod.snd) (calls.map a.written) := by
  rw [List.forall₂_map_left_iff, List.forall₂_map_right_iff, List.forall₂_same]
  intro call hcall
  exact length_written hideal hlog (h call hcall)

/-- Chunks that were sealed, all but the last of them full. -/
def Splice (a : AEAD) (log : List (Bytes × Bytes)) (src msg : Bytes) : Prop :=
  ∃ calls : List (Bytes × Bytes), (∀ call ∈ calls, call ∈ log) ∧
    Aligned fullChunk (calls.map Prod.snd) ∧ src = (calls.map a.written).flatten ∧
    msg = (calls.map Prod.snd).flatten

/-- The decrypter of an ideal AEAD accepts exactly the splices. -/
theorem decrypt_eq_ok_iff_splice {src msg : Bytes} :
    decrypt (aeadDecryptWrapper a defaultBlockSize m) src = .ok msg ↔ Splice a log src msg := by
  have hbuffered := buffered_aeadDecryptWrapper a (by decide : 0 < defaultBlockSize) m
  have hsize : (aeadDecryptWrapper a defaultBlockSize m).cipherBlockSize =
      fullChunk + (a.nonceSize + a.overhead) := Nat.add_comm _ _
  rw [hbuffered.decrypt_eq, transduceAll_eq_ok]
  constructor
  · rintro ⟨ps, hps, rfl⟩
    obtain ⟨haligned, hflatten⟩ := chunks_spec hbuffered.cipher_pos src
    obtain ⟨calls, hcalls, hcs, rfl⟩ :=
      written_of_transduce hideal (haligned.ne_nil hbuffered.cipher_pos) hps
    rw [hcs] at haligned hflatten
    rw [hsize] at haligned
    refine ⟨calls, hcalls, haligned.shorter (forall₂_written hideal hlog hcalls) ?_,
      hflatten.symm, rfl⟩
    intro p hp
    obtain ⟨call, hcall, rfl⟩ := List.mem_map.mp hp
    exact (hlog call (hcalls call hcall)).2
  · rintro ⟨calls, hcalls, haligned, rfl, rfl⟩
    have hlonger := haligned.longer (forall₂_written hideal hlog hcalls)
    rw [← hsize] at hlonger
    refine ⟨calls.map Prod.snd, ?_, rfl⟩
    rw [chunks_flatten hbuffered.cipher_pos hlonger]
    refine transduce_written hideal hlog fun call hcall => ⟨hcalls call hcall, ?_⟩
    exact (haligned.ne_nil fullChunk_pos call.2 (List.mem_map_of_mem hcall)).2

end

/-! ## Whole messages -/

section

variable {lib : Library} {algo : Option CipherAlgorithm} {mode : Option CipherMode}
  {key iv : Bytes} {a : AEAD} (hauth : authenticated algo mode = true)
  (ha : aeadOf lib algo key = .ok a)
include hauth ha

/-- A ciphertext is its sealed chunks, one behind the other. -/
theorem Encryption.Made.out_eq {e : Encryption} (h : e.Made lib algo mode key iv) :
    e.out = ((e.calls a).map a.written).flatten ∧
      (e.calls a).map Prod.snd = chunks fullChunk e.msg := by
  obtain ⟨m, hm, hget, -⟩ := @get_of_authenticated lib algo mode key iv a hauth ha
  have henc : encrypt (aeadEncryptWrapper { lib with random := e.random } a defaultBlockSize m)
      e.msg = .ok e.out := by
    rcases h with ⟨enc, henc, hout⟩ | ⟨bm, w, writes, hnew, hwrites, hout⟩
    · rw [encryptBytesFunc, hget e.random] at henc
      obtain rfl := Except.ok.inj henc
      have hpad : shouldPadding (aeadEncryptWrapper { lib with random := e.random } a
          defaultBlockSize m).mode = false := shouldPadding_of_supportStream hm
      rwa [hpad] at hout
    · obtain ⟨hgot, -⟩ := bind_checkStream_eq_ok.mp hnew
      obtain rfl := Except.ok.inj ((hget e.random).symm.trans hgot)
      have hw : w ≠ .plain := by
        rintro rfl
        exact Enc.run_plain_ne_ok _ _ hout
      have hbuffered := buffered_aeadEncryptWrapper { lib with random := e.random } a
        (by decide : 0 < defaultBlockSize) m
      rw [Enc.writeAll_new hw (.inl hbuffered), hwrites] at hout
      exact Option.some.inj hout
  exact encrypt_seal henc

/-- What a reader accepts is what `decrypt` accepts. -/
theorem accepts_iff_decrypt : ∃ m, ∀ src msg, Accepts lib algo mode key iv src msg ↔
    decrypt (aeadDecryptWrapper a defaultBlockSize m) src = .ok msg := by
  obtain ⟨m, hm, -, hget⟩ := @get_of_authenticated lib algo mode key iv a hauth ha
  refine ⟨m, fun src msg => ?_⟩
  have hbuffered := buffered_aeadDecryptWrapper a (by decide : 0 < defaultBlockSize) m
  have hpad : shouldPadding (aeadDecryptWrapper a defaultBlockSize m).mode = false :=
    shouldPadding_of_supportStream hm
  constructor
  · rintro (⟨dec, hdec, hsrc⟩ | ⟨bm, plan, sizes, hnew, hread⟩)
    · rw [decryptBytesFunc, hget] at hdec
      obtain rfl := Except.ok.inj hdec
      obtain ⟨dst, hdst, hout⟩ := bind_eq_ok.mp hsrc
      rw [hpad] at hout
      rw [hdst]
      exact hout
    · obtain ⟨hgot, -⟩ := bind_checkStream_eq_ok.mp hnew
      obtain rfl := Except.ok.inj (hget.symm.trans hgot)
      exact Dec.decrypt_of_readAll (.inl hbuffered) hread
  · intro hdec
    refine .inl ⟨_, by rw [decryptBytesFunc, hget], ?_⟩
    exact bind_eq_ok.mpr ⟨msg, hdec, by rw [hpad]; rfl⟩

theorem Encryption.Made.full_call {e : Encryption} (h : e.Made lib algo mode key iv)
    (hlong : fullChunk ≤ e.msg.length) : ∃ call ∈ e.calls a, call.2.length = fullChunk := by
  have hne : e.msg ≠ [] := List.ne_nil_of_length_pos (Nat.lt_of_lt_of_le fullChunk_pos hlong)
  have hfirst : e.msg.take fullChunk ∈ (e.calls a).map Prod.snd := by
    rw [(h.out_eq hauth ha).2, chunks_eq_cons fullChunk_pos hne]
    exact List.mem_cons_self
  obtain ⟨call, hcall, htake⟩ := List.mem_map.mp hfirst
  exact ⟨call, hcall, by rw [htake, List.length_take_of_le hlong]⟩

theorem Encryption.Made.short_call {e : Encryption} (h : e.Made lib algo mode key iv)
    (hshort : e.msg.length < fullChunk) {call : Bytes × Bytes} (hcall : call ∈ e.calls a) :
    e.out = a.written call ∧ e.msg = call.2 := by
  obtain ⟨hout, hsnd⟩ := h.out_eq hauth ha
  have hmem := (Encryption.mem_calls hcall).2
  have hne : e.msg ≠ [] := by
    intro hnil
    rw [hnil] at hmem
    cases hmem
  rw [chunks_last hne (Nat.le_of_lt hshort)] at hsnd hmem
  obtain ⟨call', hcalls⟩ : ∃ call', e.calls a = [call'] := by
    have hlen := congrArg List.length hsnd
    rw [List.length_map] at hlen
    exact List.length_eq_one_iff.mp hlen
  rw [hcalls, List.mem_singleton] at hcall
  rw [hcalls, ← hcall] at hout
  exact ⟨by rw [hout, List.map_singleton, List.flatten_singleton],
    (List.mem_singleton.mp hmem).symm⟩

end

def Unspliceable (encs : List Encryption) : Prop :=
  (∃ e ∈ encs, e.msg = []) ∧ ∀ e ∈ encs, e.msg.length < fullChunk

theorem logged_calls {a : AEAD} {encs : List Encryption} :
    ∀ call ∈ encs.flatMap (·.calls a), call.1.length = a.nonceSize ∧ call.2 ≠ [] := by
  intro call hcall
  obtain ⟨e, -, hcall⟩ := List.mem_flatMap.mp hcall
  obtain ⟨hnonce, hchunk⟩ := Encryption.mem_calls hcall
  have haligned := (chunks_spec fullChunk_pos e.msg).1
  exact ⟨hnonce, (haligned.ne_nil fullChunk_pos call.2 hchunk).1⟩

theorem splice_nil (a : AEAD) (log : List (Bytes × Bytes)) : Splice a log [] [] :=
  ⟨[], nofun, .nil, rfl, rfl⟩

theorem splice_replicate {a : AEAD} {log : List (Bytes × Bytes)} {call : Bytes × Bytes}
    (hcall : call ∈ log) (hfull : call.2.length = fullChunk) (k : Nat) :
    Splice a log (List.replicate k (a.written call)).flatten
      (List.replicate k call.2).flatten := by
  refine ⟨List.replicate k call, ?_, aligned_of_full ?_, ?_, ?_⟩
  · intro call' hcall'
    rwa [List.eq_of_mem_replicate hcall']
  · intro p hp
    rw [List.map_replicate] at hp
    rwa [List.eq_of_mem_replicate hp]
  · rw [List.map_replicate]
  · rw [List.map_replicate]

section

variable {lib : Library} {algo : Option CipherAlgorithm} {mode : Option CipherMode}
  {key iv : Bytes} {a : AEAD} (hauth : authenticated algo mode = true)
  (ha : aeadOf lib algo key = .ok a) {encs : List Encryption}
  (hmade : ∀ e ∈ encs, e.Made lib algo mode key iv)
include hauth ha hmade

theorem unspliceable_of_whole (hwhole : ∀ src msg, Splice a (encs.flatMap (·.calls a)) src msg →
    ∃ e ∈ encs, e.msg = msg) : Unspliceable encs := by
  refine ⟨hwhole _ _ (splice_nil a _), fun e he => Nat.lt_of_not_le fun hlong => ?_⟩
  obtain ⟨call, hcall, hfull⟩ := (hmade e he).full_call hauth ha hlong
  have hlogged := List.mem_flatMap.mpr ⟨e, he, hcall⟩
  -- more repetitions than there are bytes in all messages
  obtain ⟨e', he', hmsg⟩ := hwhole _ _
    (splice_replicate hlogged hfull ((encs.map (·.msg)).flatten.length + 1))
  have hle : e'.msg.length ≤ (encs.map (·.msg)).flatten.length :=
    (List.sublist_flatten_of_mem (List.mem_map_of_mem he')).length_le
  rw [hmsg, List.length_flatten, List.map_replicate, List.sum_replicate_nat, hfull] at hle
  have := Nat.le_mul_of_pos_right ((encs.map (·.msg)).flatten.length + 1) fullChunk_pos
  omega

/-- Without anything to splice, a splice is a whole message. -/
theorem whole_of_unspliceable (h : Unspliceable encs)
    (hsplice : Splice a (encs.flatMap (·.calls a)) src msg) :
    ∃ e ∈ encs, e.out = src ∧ e.msg = msg := by
  obtain ⟨⟨e₀, he₀, hempty⟩, hshort⟩ := h
  obtain ⟨calls, hcalls, haligned, rfl, rfl⟩ := hsplice
  have hparts : ∀ call ∈ calls, ∃ e ∈ encs, e.out = a.written call ∧ e.msg = call.2 := by
    intro call hcall
    obtain ⟨e, he, hmem⟩ := List.mem_flatMap.mp (hcalls call hcall)
    exact ⟨e, he, (hmade e he).short_call hauth ha (hshort e he) hmem⟩
  have hless : ∀ p ∈ calls.map Prod.snd, p.length < fullChunk := by
    intro p hp
    obtain ⟨call, hcall, rfl⟩ := List.mem_map.mp hp
    obtain ⟨e, he, -, hmsg⟩ := hparts call hcall
    exact hmsg ▸ hshort e he
  rcases haligned.eq_of_short hless with hnil | ⟨p, hone⟩
  · obtain rfl := List.map_eq_nil_iff.mp hnil
    refine ⟨e₀, he₀, ?_, hempty⟩
    rw [((hmade e₀ he₀).out_eq hauth ha).1, Encryption.calls, hempty]
    rfl
  · obtain ⟨call, rfl⟩ : ∃ call, calls = [call] := by
      have hlen := congrArg List.length hone
      rw [List.length_map] at hlen
      exact List.length_eq_one_iff.mp hlen
    simpa using hparts call List.mem_cons_self

end

/-- The messages that were encrypted under a key are the only ones that are accepted, and their
ciphertexts the only ones, exactly if there is nothing to splice. -/
theorem whole_messages_iff (lib : Library) (algo : Option CipherAlgorithm)
    (mode : Option CipherMode) (key iv : Bytes) (a : AEAD) (hauth : authenticated algo mode = true)
    (ha : aeadOf lib algo key = .ok a) (encs : List Encryption)
    (hmade : ∀ e ∈ encs, e.Made lib algo mode key iv)
    (hideal : a.Ideal (encs.flatMap (·.calls a))) :
    ((∀ src m, Accepts lib algo mode key iv src m → ∃ e ∈ encs, e.msg = m) ↔
      Unspliceable encs) ∧
    ((∀ src m, Accepts lib algo mode key iv src m → ∃ e ∈ encs, e.out = src ∧ e.msg = m) ↔
      Unspliceable encs) := by
  obtain ⟨m, haccepts⟩ := @accepts_iff_decrypt lib algo mode key iv a hauth ha
  have hsplice : ∀ src msg, Accepts lib algo mode key iv src msg ↔
      Splice a (encs.flatMap (·.calls a)) src msg := fun src msg =>
    (haccepts src msg).trans (decrypt_eq_ok_iff_splice hideal logged_calls)
  simp only [hsplice]
  refine ⟨⟨unspliceable_of_whole hauth ha hmade, ?_⟩, ⟨?_, ?_⟩⟩
  · intro h src msg hsrc
    obtain ⟨e, he, -, hmsg⟩ := whole_of_unspliceable hauth ha hmade h hsrc
    exact ⟨e, he, hmsg⟩
  · intro h
    refine unspliceable_of_whole hauth ha hmade fun src msg hsrc => ?_
    obtain ⟨e, he, -, hmsg⟩ := h src msg hsrc
    exact ⟨e, he, hmsg⟩
  · intro h src msg hsrc
    exact whole_of_unspliceable hauth ha hmade h hsrc

/-! ## Messages of one chunk -/

/-- An AEAD that opens what is in a list. -/
def registered (log : List (Bytes × Bytes)) : AEAD where
  nonceSize := 12
  overhead := 16
  sealWith _ p := p ++ List.replicate 16 0
  openWith nonce c :=
    let p := c.take (c.length - 16)
    if (nonce, p) ∈ log ∧ c = p ++ List.replicate 16 0 then .ok p
    else .error (.error "cipher: message authentication failed")

theorem ideal_registered (log : List (Bytes × Bytes)) : (registered log).Ideal log where
  length_seal _ p _ := by
    show (p ++ List.replicate 16 0).length = p.length + 16
    rw [List.length_append, List.length_replicate]
  opens nonce p hmem := by
    have htake : (p ++ List.replicate 16 (0 : UInt8)).take
        ((p ++ List.replicate 16 (0 : UInt8)).length - 16) = p := by
      rw [List.length_append, List.length_replicate, Nat.add_sub_cancel, List.take_left]
    simp only [registered]
    rw [htake, if_pos ⟨hmem, rfl⟩]
  only nonce c p h := by
    simp only [registered] at h
    split at h
    next hmem =>
      obtain rfl := Except.ok.inj h
      exact hmem
    next => cases h

/-- `mirrors` with this AEAD for GCM. -/
def registering (log : List (Bytes × Bytes)) : Library :=
  { mirrors with gcm := fun _ => registered log }

def oneChunk (msg : Bytes) : Encryption where
  random := mirrors.random
  random_length := mirrors_lawful.random
  msg := msg
  out := List.replicate 12 0 ++ (msg ++ List.replicate 16 0)

section

variable {msg : Bytes} (hne : msg ≠ []) (hle : msg.length ≤ fullChunk)
include hne hle

theorem calls_oneChunk (log : List (Bytes × Bytes)) :
    (oneChunk msg).calls (registered log) = [(List.replicate 12 0, msg)] := by
  rw [Encryption.calls]
  show sealCalls _ _ _ (chunks fullChunk msg) = _
  rw [chunks_last hne hle]
  rfl

theorem made_oneChunk (log : List (Bytes × Bytes)) :
    (oneChunk msg).Made (registering log) (some .aes) (some .gcm) zeroKey [] := by
  refine .inl ⟨_, rfl, ?_⟩
  show encrypt (aeadEncryptWrapper (registering log) (registered log) 16 .gcm) msg = _
  have hbuffered := buffered_aeadEncryptWrapper (registering log) (registered log)
    (by decide : 0 < 16) .gcm
  have htake : msg.take (16 * blockSizeTimes) = msg := List.take_of_length_le hle
  rw [hbuffered.encrypt_eq]
  refine transduceAll_eq_ok.mpr ⟨[(oneChunk msg).out], ?_, List.flatten_singleton⟩
  refine (congrArg _ (chunks_last hne hle)).trans (transduce_cons_eq_ok.mpr ?_)
  refine ⟨(oneChunk msg).out, (1 : Nat), [], ?_, rfl, rfl⟩
  simp only [aeadEncryptWrapper, if_neg hne, htake]
  rfl

end

theorem made_empty (log : List (Bytes × Bytes)) :
    ({ oneChunk [] with out := [] } : Encryption).Made (registering log) (some .aes) (some .gcm)
      zeroKey [] := .inl ⟨_, rfl, rfl⟩

def shortMessages : List Encryption := [{ oneChunk [] with out := [] }, oneChunk [104, 105]]

theorem unspliceable_shortMessages : Unspliceable shortMessages := by
  refine ⟨⟨_, List.mem_cons_self, rfl⟩, ?_⟩
  intro e he
  rcases List.mem_cons.mp he with rfl | he
  · decide
  · obtain rfl := List.mem_singleton.mp he
    decide

theorem shortMessages_whole : Unspliceable shortMessages ∧ ∀ src m,
    Accepts (registering [(List.replicate 12 0, [104, 105])]) (some .aes) (some .gcm) zeroKey [] src m →
      ∃ e ∈ shortMessages, e.out = src ∧ e.msg = m := by
  have hne : ([104, 105] : Bytes) ≠ [] := by decide
  have hle : ([104, 105] : Bytes).length ≤ fullChunk := by decide
  refine ⟨unspliceable_shortMessages, (whole_messages_iff _ (some .aes) (some .gcm) zeroKey [] _ rfl rfl
    shortMessages ?_ ?_).2.mpr unspliceable_shortMessages⟩
  · intro e he
    rcases List.mem_cons.mp he with rfl | he
    · exact made_empty _
    · obtain rfl := List.mem_singleton.mp he
      exact made_oneChunk hne hle _
  · exact ideal_registered _

/-- A message of a full chunk, and what is sealed of it. -/
def fullMessage : Bytes := List.replicate fullChunk 7

def fullLog : List (Bytes × Bytes) := [(List.replicate 12 0, fullMessage)]

/-- One message of a full chunk was encrypted.  Its ciphertext twice is accepted, as the message
twice. -/
theorem doubled_chunk_accepted :
    authenticated (some .aes) (some .gcm) = true ∧
    aeadOf (registering fullLog) (some .aes) zeroKey = .ok (registered fullLog) ∧
    (oneChunk fullMessage).Made (registering fullLog) (some .aes) (some .gcm) zeroKey [] ∧
    (registered fullLog).Ideal ([oneChunk fullMessage].flatMap (·.calls (registered fullLog))) ∧
    Accepts (registering fullLog) (some .aes) (some .gcm) zeroKey []
      ((oneChunk fullMessage).out ++ (oneChunk fullMessage).out) (fullMessage ++ fullMessage) ∧
    ¬ ∃ e ∈ [oneChunk fullMessage], e.msg = fullMessage ++ fullMessage := by
  have hlen : fullMessage.length = fullChunk := List.length_replicate
  have hne : fullMessage ≠ [] := List.ne_nil_of_length_pos (hlen ▸ fullChunk_pos)
  have hlog : [oneChunk fullMessage].flatMap (·.calls (registered fullLog)) = fullLog := by
    rw [List.flatMap_singleton, calls_oneChunk hne (Nat.le_of_eq hlen), fullLog]
  have hideal := ideal_registered fullLog
  have hcalls : ∀ call ∈ fullLog, call.1.length = 12 ∧ call.2 ≠ [] := by
    rw [← hlog]
    exact logged_calls
  have ha : aeadOf (registering fullLog) (some .aes) zeroKey = .ok (registered fullLog) := rfl
  obtain ⟨m, haccepts⟩ := @accepts_iff_decrypt _ _ (some .gcm) zeroKey [] _ rfl ha
  refine ⟨rfl, ha, made_oneChunk hne (Nat.le_of_eq hlen) _, ?_, ?_, ?_⟩
  · rw [hlog]
    exact hideal
  · rw [haccepts, decrypt_eq_ok_iff_splice hideal hcalls]
    have htwice := @splice_replicate (registered fullLog) fullLog _ List.mem_cons_self hlen 2
    simp only [List.replicate_succ, List.replicate_zero, List.flatten_cons, List.flatten_nil,
      List.append_nil] at htwice
    exact htwice
  · rintro ⟨e, he, hmsg⟩
    obtain rfl := List.mem_singleton.mp he
    have htwice := congrArg List.length hmsg
    have hone : (oneChunk fullMessage).msg.length = fullChunk := hlen
    have := fullChunk_pos
    rw [List.length_append, hone, hlen] at htwice
    omega

end Gofusion.Cipher
