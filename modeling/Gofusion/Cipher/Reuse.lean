import Gofusion.Cipher.Calls

/-!
# One encrypter, many messages

A function of `EncryptBytesFunc`, and the writers of one `NewEncFunc`, share a wrapper.  They leave
it in another state than they found it in, and a fresh decrypter knows nothing of that state.

*Calls.*  A message is a slice of the memory.  `PKCS7Pad` appends to it, and where the slice has
room the padding is written into the memory behind it, which may be another message.

*Writers.*  They share the buffer too, and the first `Close` returns it to the pool.  From then on
others may write to it between two chunks.  What they write to the other two buffers is left out.
-/

namespace Gofusion.Cipher

open Gofusion.Config (CipherAlgorithm CipherMode)
open Gofusion.Lib

/-! ## The calls of one function -/

/-- A slice of a memory of this size. -/
structure Slice (size : Nat) where
  start : Nat
  len : Nat
  cap : Nat
  len_le : len ≤ cap
  inside : start + cap ≤ size

def Slice.read {size : Nat} (mem : Bytes) (sl : Slice size) : Bytes := (mem.drop sl.start).take sl.len

/-- The memory after `append` in `PKCS7Pad`.  Without room for the padding it goes elsewhere. -/
def Slice.padInPlace {size : Nat} (bm : BlockMode) (mem : Bytes) (sl : Slice size) : Bytes :=
  let padding := bm.plainBlockSize - sl.len % bm.plainBlockSize
  if shouldPadding bm.mode ∧ sl.len + padding ≤ sl.cap then
    overwrite mem (sl.start + sl.len) (List.replicate padding (UInt8.ofNat padding))
  else mem

/-- The state after these chunks, or before the first that fails. -/
def BlockMode.after (bm : BlockMode) : bm.State → List Bytes → bm.State
  | st, [] => st
  | st, c :: cs =>
    match bm.cryptBlocks st c with
    | .error _ => st
    | .ok (_, st') => after bm st' cs

def BlockMode.afterCall (bm : BlockMode) (st : bm.State) (msg : Bytes) : bm.State :=
  bm.after st (chunks (bm.chunkSize bm.plainBlockSize (bm.input msg)) (bm.input msg))

/-- The results of calls of one function of `EncryptBytesFunc`, one after the other, from a state
of its wrapper and of the memory on. -/
def encryptCalls {size : Nat} (bm : BlockMode) :
    bm.State → Bytes → List (Slice size) → List (Except Fault Bytes)
  | _, _, [] => []
  | st, mem, sl :: sls =>
    encrypt (bm.resume st) (bm.input (sl.read mem)) ::
      encryptCalls bm (bm.afterCall st (sl.read mem)) (sl.padInPlace bm mem) sls

/-! ## What comes back -/

/-- The wrapper in this state makes of `found` what a fresh decrypter turns into `msg`. -/
def Scheme.Carries (lib : Library) : (s : Scheme) → (s.encrypter lib).State → Bytes → Bytes → Prop
  | .block _, _, found, msg => found = msg
  | .sealed _ _, _, found, msg => found = msg
  -- the first block is masked by the state instead of the iv
  | .chained b iv, st, found, msg =>
    xorBytes ((pkcs7Pad found b.size).take b.size) st =
        xorBytes ((pkcs7Pad msg b.size).take b.size) iv ∧
      (pkcs7Pad found b.size).drop b.size = (pkcs7Pad msg b.size).drop b.size
  | .feedback b iv, st, found, msg => (cfbXor b true st found).1 = (cfbXor b true ⟨iv, []⟩ msg).1
  -- every byte meets the key byte at its own position
  | .keyed key _, pos, found, msg => ∀ j < msg.length,
    found.getD j 0 ^^^ key (Nat.add pos j) = msg.getD j 0 ^^^ key j
  | .rc4 key, pos, found, msg => ∀ j < msg.length,
    found.getD j 0 ^^^ key (Nat.add pos j) = msg.getD j 0 ^^^ key j

/-- The state of CBC is a block. -/
def Scheme.Valid (lib : Library) : (s : Scheme) → (s.encrypter lib).State → Prop
  | .chained b _, st => List.length (α := UInt8) st = b.size
  | _, _ => True

variable {lib : Library} {algo : Option CipherAlgorithm} {mode : Option CipherMode}
  {key iv : Bytes} {s : Scheme} {found msg : Bytes}

theorem xor_xor_eq_iff (x y k l : UInt8) : x ^^^ k ^^^ l = y ↔ x ^^^ k = y ^^^ l := by
  constructor
  · rintro rfl
    rw [UInt8.xor_assoc, UInt8.xor_self, UInt8.xor_zero]
  · intro h
    rw [h, UInt8.xor_assoc, UInt8.xor_self, UInt8.xor_zero]

/-- When a key stream at another position gives a message back. -/
theorem xorKeyStream_xorKeyStream_eq_iff (key : Nat → UInt8) : ∀ {pos pos' : Nat}
    {found msg : Bytes}, found.length = msg.length →
    (xorKeyStream key pos' (xorKeyStream key pos found) = msg ↔ ∀ j < msg.length,
      found.getD j 0 ^^^ key (pos + j) = msg.getD j 0 ^^^ key (pos' + j))
  | _, _, [], [], _ => by simp [xorKeyStream]
  | pos, pos', x :: xs, y :: ys, h => by
    have ih := @xorKeyStream_xorKeyStream_eq_iff key (pos + 1) (pos' + 1) xs ys (Nat.succ.inj h)
    rw [xorKeyStream, xorKeyStream, List.cons.injEq, ih, xor_xor_eq_iff, List.length_cons,
      Nat.forall_lt_succ_left]
    simp only [List.getD_cons_zero, List.getD_cons_succ, Nat.add_zero, Nat.add_assoc, Nat.add_comm 1]

/-- The encrypter feeds back the bytes that the decrypter fed back. -/
theorem cfbXor_decrypted (b : Block) : ∀ (st : Feedback) (ys : Bytes),
    (cfbXor b true st (cfbXor b false st ys).1).1 = ys
  | _, [] => rfl
  | st, y :: ys => by
    have ih := cfbXor_decrypted b (st.push b y) ys
    simp only [cfbXor, if_true, Bool.false_eq_true, if_false, UInt8.xor_assoc, UInt8.xor_self,
      UInt8.xor_zero, ih]

/-- CFB decryption is the inverse of CFB encryption from the same state. -/
theorem cfbXor_eq_iff (b : Block) (st : Feedback) (out msg : Bytes) :
    (cfbXor b false st out).1 = msg ↔ out = (cfbXor b true st msg).1 := by
  constructor
  · rintro rfl
    exact (cfbXor_decrypted b st out).symm
  · rintro rfl
    rw [(cfbXor_cfbXor b st msg).2]

/-- The padding is told by the lengths. -/
theorem pkcs7Unpad_eq_ok_iff_pad {size : Nat} {data : Bytes} (hpos : 0 < size) (hle : size ≤ 255)
    (hlen : data.length = (pkcs7Pad msg size).length) :
    pkcs7Unpad data = .ok msg ↔ data = pkcs7Pad msg size := by
  obtain ⟨n, hn, hnle, hpad⟩ := pkcs7Pad_eq hpos msg
  constructor
  · intro h
    rw [hpad, List.length_append, List.length_replicate] at hlen
    rcases pkcs7Unpad_eq_ok.mp h with ⟨rfl, -⟩ | ⟨k, -, -, rfl⟩
    · rw [List.length_nil] at hlen
      omega
    · rw [List.length_append, List.length_replicate] at hlen
      rw [hpad, show k = n by omega]
  · rintro rfl
    exact pkcs7Unpad_pkcs7Pad hpos hle msg

theorem length_pkcs7Pad (size : Nat) (h : found.length = msg.length) :
    (pkcs7Pad found size).length = (pkcs7Pad msg size).length := by
  simp only [pkcs7Pad, h]
  split <;> simp [h]

/-- CBC from a state on, undone from the iv on: only the first block shows the difference. -/
theorem decrypt_cbc {b : Block} (hb : b.Lawful) {st iv : Bytes} (hst : st.length = b.size)
    {src out : Bytes} (hne : src ≠ []) (hdvd : b.size ∣ src.length)
    (henc : encrypt (cbcEncrypter b st) src = .ok out) :
    decrypt (cbcDecrypter b iv) out =
      .ok (xorBytes (xorBytes (src.take b.size) st) iv ++ src.drop b.size) := by
  have hpos := hb.size_bounds.1
  have hsize : ∀ xs : Bytes, (cbcEncrypter b st).chunkSize b.size xs = b.size ∧
      (cbcDecrypter b iv).chunkSize b.size xs = b.size := fun _ =>
    ⟨if_pos ⟨Nat.ne_of_gt hpos, Nat.ne_of_gt hpos⟩, if_pos ⟨Nat.ne_of_gt hpos, Nat.ne_of_gt hpos⟩⟩
  have hfirst : (src.take b.size).length = b.size :=
    List.length_take_of_le (Nat.le_of_dvd (List.length_pos_iff.mpr hne) hdvd)
  have hxor : (xorBytes (src.take b.size) st).length = b.size :=
    (length_xorBytes (hfirst.trans hst.symm)).trans hfirst
  have hrest : (cbcEncrypter b st).Padded (src.drop b.size) := fun _ => by
    rw [List.length_drop]
    exact Nat.dvd_sub hdvd (Nat.dvd_refl _)
  obtain ⟨cs, hcs, rfl⟩ := transduceAll_eq_ok.mp henc
  change transduce _ st (chunks ((cbcEncrypter b st).chunkSize b.size src) src) = _ at hcs
  rw [(hsize src).1, chunks_eq_cons hpos hne] at hcs
  obtain ⟨c, st', cs, hstep, hcs, rfl⟩ := transduce_cons_eq_ok.mp hcs
  simp only [cbcEncrypter, if_pos hfirst] at hstep
  obtain ⟨rfl, rfl⟩ := Prod.mk.inj (Except.ok.inj hstep)
  have hc := hb.length_encrypt _ hxor
  -- behind the first block both sides are in the state of its cipher block
  obtain ⟨hdec, hlens⟩ := (paired_cbc hb hc).undone.transduce ⟨rfl, hc⟩
    (BlockMode.fits_chunks hrest hpos) hcs
  have haligned := (chunks_spec hpos (src.drop b.size)).1.longer hlens
  refine transduceAll_eq_ok.mpr ⟨xorBytes (xorBytes (src.take b.size) st) iv ::
    chunks b.size (src.drop b.size), ?_, ?_⟩
  · change transduce _ iv (chunks ((cbcDecrypter b iv).chunkSize b.size _) _) = _
    rw [(hsize _).2, List.flatten_cons, chunks_append hpos hc, chunks_flatten hpos haligned]
    refine transduce_cons_eq_ok.mpr ⟨_, _, _, ?_, hdec, rfl⟩
    simp only [cbcDecrypter, if_pos hc, hb.decrypt_encrypt _ hxor]
  · rw [List.flatten_cons, (chunks_spec hpos _).2]

theorem xorBytes_eq_iff {xs ys zs : Bytes} (hx : xs.length = ys.length)
    (hz : zs.length = ys.length) : xorBytes xs ys = zs ↔ xs = xorBytes zs ys := by
  constructor
  · rintro rfl
    exact (xorBytes_xorBytes hx).symm
  · rintro rfl
    exact xorBytes_xorBytes hz

/-- The ciphertext of a call comes back as `msg`. -/
def Scheme.Returns (lib : Library) (s : Scheme) (st : (s.encrypter lib).State)
    (found msg : Bytes) : Prop :=
  ∃ out, encrypt ((s.encrypter lib).resume st) ((s.encrypter lib).input found) = .ok out ∧
    decryptCall s.decrypter out = .ok msg

/-- A message is returned if it is what its ciphertext decrypts to. -/
theorem Scheme.returns_iff {st : (s.encrypter lib).State} {out : Bytes}
    (hout : encrypt ((s.encrypter lib).resume st) ((s.encrypter lib).input found) = .ok out) :
    s.Returns lib st found msg ↔ decryptCall s.decrypter out = .ok msg := by
  simp only [Returns, hout, Except.ok.injEq, exists_eq_left']

/-- A wrapper that is undone from every state gives back what the encrypter found. -/
theorem Scheme.returns_of_paired {st : (s.encrypter lib).State} {R k}
    (hpaired : Paired ((s.encrypter lib).resume st) s.decrypter R k)
    (htotal : (s.encrypter lib).Total) : s.Returns lib st found msg ↔ found = msg := by
  obtain ⟨out, hout⟩ := hpaired.encrypt_total htotal (hpaired.padded_input found)
  rw [returns_iff hout, show decryptCall s.decrypter out = .ok found from hpaired.decryptBytes hout,
    Except.ok.injEq]

theorem encrypt_keyed (key : Nat → UInt8) (mode : CipherMode) (pos : Nat) (src : Bytes) :
    encrypt ((wrapStream key mode).resume pos) src = .ok (xorKeyStream key pos src) := by
  have hbuffered := buffered_wrapStream key mode
  have hresumed : ((wrapStream key mode).resume pos).Buffered :=
    ⟨hbuffered.plain_pos, hbuffered.cipher_pos, hbuffered.idle⟩
  rw [hresumed.encrypt_eq, transduceAll]
  refine ((seamless_wrapStream key mode).transduce _ pos).trans ?_
  rw [(chunks_spec hresumed.plain_pos src).2]

theorem encrypt_feedback (b : Block) (iv : Bytes) (isEncoder : Bool) (st : Feedback) (src : Bytes) :
    encrypt ((wrapCFB b iv isEncoder).resume st) src = .ok (cfbXor b isEncoder st src).1 := by
  have hbuffered := buffered_wrapCFB b iv isEncoder
  have hresumed : ((wrapCFB b iv isEncoder).resume st).Buffered :=
    ⟨hbuffered.plain_pos, hbuffered.cipher_pos, hbuffered.idle⟩
  rw [hresumed.encrypt_eq, transduceAll]
  refine ((seamless_wrapCFB b iv isEncoder).transduce _ st).trans ?_
  rw [(chunks_spec hresumed.plain_pos src).2]

/-- A key stream gives back a byte exactly if it meets the key byte that the decrypter has for it. -/
theorem Scheme.returns_iff_keys {st : (s.encrypter lib).State} {key : Nat → UInt8} {pos : Nat}
    (hout : encrypt ((s.encrypter lib).resume st) ((s.encrypter lib).input found) =
      .ok (xorKeyStream key pos found))
    (hdec : ∀ out, decryptCall s.decrypter out = .ok (xorKeyStream key 0 out))
    (hlen : found.length = msg.length) : s.Returns lib st found msg ↔ ∀ j < msg.length,
      found.getD j 0 ^^^ key (pos + j) = msg.getD j 0 ^^^ key j := by
  rw [returns_iff hout, hdec, Except.ok.injEq, xorKeyStream_xorKeyStream_eq_iff key hlen]
  simp only [Nat.zero_add]

/-- One call: a fresh decrypter returns the message exactly if the state carries it. -/
theorem Scheme.returns_iff_carries (hlib : lib.Lawful) (hrandom : lib.RandomReads)
    (hs : s.Lawful lib algo) {st : (s.encrypter lib).State} (hst : s.Valid lib st)
    (hlen : found.length = msg.length) :
    s.Returns lib st found msg ↔ s.Carries lib st found msg := by
  have htotal := (s.inverts hlib hs).2 hrandom
  cases s with
  | block b => exact returns_of_paired { paired_wrapBlock hs with start := trivial } htotal
  | sealed a mode =>
    have hpad : shouldPadding mode = false := by rcases hs.2 with rfl | ⟨rfl, -⟩ <;> rfl
    exact returns_of_paired { paired_aead hlib (hs.1.lawful hlib) hpad with start := trivial } htotal
  | chained b iv =>
    obtain ⟨hb, hiv⟩ := hs
    obtain ⟨hpos, hle⟩ := hb.size_bounds
    have hpad : (cbcEncrypter b iv).input found = pkcs7Pad found b.size := rfl
    have hpaired : Paired ((cbcEncrypter b iv).resume st) (cbcDecrypter b st) _ 0 :=
      paired_cbc hb hst
    obtain ⟨out, hout⟩ := hpaired.encrypt_total htotal (hpaired.padded_input found)
    refine (@returns_iff lib (.chained b iv) found msg st out hout).trans ?_
    have hne : ∀ data, pkcs7Pad data b.size ≠ [] := fun data => by
      obtain ⟨n, hn, -, hpadded⟩ := pkcs7Pad_eq hpos data
      rw [hpadded]
      exact List.append_ne_nil_of_right_ne_nil _ (List.ne_nil_of_length_pos (by simpa using hn))
    have hfirst : ∀ data, ((pkcs7Pad data b.size).take b.size).length = b.size := fun data =>
      List.length_take_of_le (Nat.le_of_dvd (List.length_pos_iff.mpr (hne data))
        (dvd_length_pkcs7Pad hpos data))
    have hmask := (length_xorBytes ((hfirst found).trans (Eq.symm hst))).trans (hfirst found)
    have hmasked := (length_xorBytes (hmask.trans hiv.symm)).trans hmask
    have hdec : decryptCall (cbcDecrypter b iv) out = pkcs7Unpad _ :=
      congrArg (· >>= pkcs7Unpad)
        (decrypt_cbc hb hst (hne found) (dvd_length_pkcs7Pad hpos found) hout)
    show decryptCall (cbcDecrypter b iv) out = _ ↔ _
    rw [hdec, pkcs7Unpad_eq_ok_iff_pad hpos hle]
    · refine Iff.trans ?_ (and_congr_left' (xorBytes_eq_iff (hmask.trans hiv.symm)
        ((hfirst msg).trans hiv.symm)))
      conv_lhs => rw [← List.take_append_drop b.size (pkcs7Pad msg b.size)]
      exact ⟨fun h => List.append_inj h (hmasked.trans (hfirst msg).symm), fun h => by rw [h.1, h.2]⟩
    · rw [List.length_append, hmasked, List.length_drop, length_pkcs7Pad _ hlen]
      have := hfirst msg
      rw [List.length_take] at this
      omega
  | feedback b iv =>
    refine (@returns_iff lib (.feedback b iv) found msg st _ (encrypt_feedback b iv true st found)).trans ?_
    have hdec : decryptCall (wrapCFB b iv false) (cfbXor b true st found).1 =
        .ok (cfbXor b false ⟨iv, []⟩ (cfbXor b true st found).1).1 :=
      bind_eq_ok.mpr ⟨_, encrypt_feedback b iv false ⟨iv, []⟩ _, rfl⟩
    show decryptCall (wrapCFB b iv false) _ = _ ↔ _
    rw [hdec, Except.ok.injEq, cfbXor_eq_iff]
    rfl
  | keyed key mode =>
    have hpad : shouldPadding mode = false := by rcases hs with rfl | rfl <;> rfl
    refine returns_iff_keys ?_ (fun out => bind_eq_ok.mpr ⟨_, encrypt_keyed key mode 0 out, ?_⟩) hlen
    · have hinput : (wrapStream key mode).input found = found := if_neg (by simp [wrapStream, hpad])
      exact (congrArg _ hinput).trans (encrypt_keyed key mode st found)
    · exact if_neg (by simp [decrypter, wrapStream, hpad])
  | rc4 key =>
    exact returns_iff_keys (encrypt_rc4_resume key st found)
      (fun out => bind_eq_ok.mpr ⟨_, encrypt_rc4_resume key 0 out, rfl⟩) hlen

theorem Scheme.Valid.afterCall (hs : s.Lawful lib algo) {st : (s.encrypter lib).State}
    (hst : s.Valid lib st) (msg : Bytes) : s.Valid lib ((s.encrypter lib).afterCall st msg) := by
  rw [BlockMode.afterCall]
  generalize chunks _ _ = cs
  induction cs generalizing st with
  | nil => exact hst
  | cons c cs ih =>
    rw [BlockMode.after]
    split
    next => exact hst
    next c' st' hstep =>
      refine ih ?_
      cases s with
      | chained b iv =>
        simp only [encrypter, cbcEncrypter] at hstep
        split at hstep
        next hc =>
          obtain ⟨rfl, rfl⟩ := Prod.mk.inj (Except.ok.inj hstep)
          exact hs.1.length_encrypt _ ((length_xorBytes (hc.trans (Eq.symm hst))).trans hc)
        next => cases hstep
      | _ => trivial

/-! ## Calls -/

section

variable {size : Nat} {mem : Bytes}

theorem Slice.length_read (hmem : mem.length = size) (sl : Slice size) :
    (sl.read mem).length = sl.len := by
  have := sl.len_le
  have := sl.inside
  rw [read, List.length_take, List.length_drop]
  omega

theorem Slice.length_padInPlace (hmem : mem.length = size) (bm : BlockMode) (sl : Slice size) :
    (sl.padInPlace bm mem).length = size := by
  have := sl.inside
  rw [padInPlace]
  split
  next hroom =>
    rw [length_overwrite (by omega), List.length_replicate]
    omega
  next => exact hmem

/-- Every call comes back: in the state that the calls before it left, the wrapper carries what
they left of the message. -/
def Scheme.CarriesAll (lib : Library) (s : Scheme) (mem₀ : Bytes) :
    (s.encrypter lib).State → Bytes → List (Slice size) → Prop
  | _, _, [] => True
  | st, mem, sl :: sls =>
    s.Carries lib st (sl.read mem) (sl.read mem₀) ∧
      s.CarriesAll lib mem₀ ((s.encrypter lib).afterCall st (sl.read mem))
        (sl.padInPlace (s.encrypter lib) mem) sls

/-- A run of calls: the induction is on the slices that are left. -/
theorem Scheme.calls_iff_carriesAll (hlib : lib.Lawful) (hrandom : lib.RandomReads)
    (hs : s.Lawful lib algo) {mem₀ : Bytes} (hmem₀ : mem₀.length = size) :
    ∀ {sls : List (Slice size)} {st : (s.encrypter lib).State} {mem : Bytes}, s.Valid lib st →
    mem.length = size → (List.Forall₂ (fun sl result => ∃ out, result = .ok out ∧
        decryptCall s.decrypter out = .ok (sl.read mem₀)) sls
        (encryptCalls (s.encrypter lib) st mem sls) ↔ s.CarriesAll lib mem₀ st mem sls)
  | [], _, _, _, _ => iff_of_true .nil trivial
  | sl :: sls, st, mem, hst, hmem => by
    have hlen := (sl.length_read hmem).trans (sl.length_read hmem₀).symm
    rw [encryptCalls, List.forall₂_cons, CarriesAll]
    exact and_congr (returns_iff_carries hlib hrandom hs hst hlen)
      (calls_iff_carriesAll hlib hrandom hs hmem₀ (hst.afterCall hs _)
        (sl.length_padInPlace hmem _))

end

/-! ## Writers -/

/-- What others write to a buffer: what they have made of the `i`-th chunk before it is
encrypted. -/
structure Others where
  change : Nat → Bytes → Bytes
  length_change : ∀ i c, (change i c).length = c.length

/-- The wrapper behind a buffer that others write to.  Without a buffer there is nothing to write
to. -/
def BlockMode.shared (bm : BlockMode) (others : Others) : BlockMode where
  State := bm.State × Nat
  start := (bm.start, 0)
  mode := bm.mode
  plainBlockSize := bm.plainBlockSize
  cipherBlockSize := bm.cipherBlockSize
  cryptBlocks st src :=
    (bm.cryptBlocks st.1 (if bm.plainBlockSize = 0 then src else others.change st.2 src)).map
      fun r => (r.1, (r.2, st.2 + 1))

/-- The chunks as the encrypter finds them. -/
def Others.touch (others : Others) : Nat → List Bytes → List Bytes
  | _, [] => []
  | i, c :: cs => others.change i c :: others.touch (i + 1) cs

/-- All that the encrypter finds in the place of the message. -/
def Others.touchAll (others : Others) (bm : BlockMode) (msg : Bytes) : Bytes :=
  if bm.plainBlockSize = 0 then msg
  else (others.touch 0 (chunks bm.plainBlockSize msg)).flatten

section

variable {bm : BlockMode} {others : Others}

/-- A writer encrypts what the others have left in the buffer. -/
theorem transduce_shared (hpos : 0 < bm.plainBlockSize) :
    ∀ (cs : List Bytes) (st : bm.State) (i : Nat),
    transduce (bm.shared others).cryptBlocks (st, i) cs =
      transduce bm.cryptBlocks st (others.touch i cs)
  | [], _, _ => rfl
  | c :: cs, st, i => by
    have htouch : (bm.shared others).cryptBlocks (st, i) c =
        (bm.cryptBlocks st (others.change i c)).map fun r => (r.1, (r.2, i + 1)) := by
      simp only [BlockMode.shared, if_neg (Nat.ne_of_gt hpos)]
    simp only [Others.touch, transduce, htouch]
    cases bm.cryptBlocks st (others.change i c) with
    | error f => rfl
    | ok r => exact congrArg (· >>= fun cs => pure (r.1 :: cs)) (transduce_shared hpos cs r.2 (i + 1))

theorem Others.forall₂_touch (others : Others) : ∀ (i : Nat) (cs : List Bytes),
    List.Forall₂ (fun c c' => c'.length = c.length + 0) cs (others.touch i cs)
  | _, [] => .nil
  | i, c :: cs => .cons (others.length_change i c) (others.forall₂_touch (i + 1) cs)

theorem Others.length_touchAll (others : Others) (bm : BlockMode) (msg : Bytes) :
    (others.touchAll bm msg).length = msg.length := by
  rw [touchAll]
  split
  next => rfl
  next hne =>
    rw [length_flatten_longer (others.forall₂_touch 0 _), Nat.zero_mul, Nat.add_zero,
      (chunks_spec (Nat.pos_of_ne_zero hne) msg).2]

/-- A writer on such a buffer encrypts what it finds. -/
theorem writeAll_shared {w : Sink} (hw : w ≠ .plain) (hbuffered : bm.Buffered)
    (writes : List Bytes) : (Enc.new (bm.shared others)).writeAll w writes =
      some (encrypt bm (others.touchAll bm writes.flatten)) := by
  have hpos := hbuffered.plain_pos
  have haligned := (chunks_spec hpos writes.flatten).1.longer
    (others.forall₂_touch 0 (chunks bm.plainBlockSize writes.flatten))
  rw [Enc.writeAll, Enc.run_new hw (show 0 < (bm.shared others).plainBlockSize from hpos), Enc.cuts,
    Enc.lead_map_write, Enc.behind_map_write, List.append_nil]
  refine congrArg some ((congrArg (·.map List.flatten) (transduce_shared hpos _ _ 0)).trans ?_)
  rw [hbuffered.encrypt_eq, transduceAll, Others.touchAll, if_neg (Nat.ne_of_gt hpos),
    chunks_flatten hpos haligned]
  rfl

/-- RC4 has no buffer. -/
theorem writeAll_shared_rc4 {w : Sink} (hw : w ≠ .plain) (key : Nat → UInt8) (pos : Nat)
    (writes : List Bytes) :
    (Enc.new (((rc4Wrapper key).resume pos).shared others)).writeAll w writes =
      some (encrypt ((rc4Wrapper key).resume pos) writes.flatten) := by
  have hpiece : ∀ (st : Nat × Nat) (p : Bytes), ∃ st',
      (((rc4Wrapper key).resume pos).shared others).cryptPiece st p =
        .ok (xorKeyStream key st.1 p, st') ∧ st'.1 = st.1 + p.length := by
    intro st p
    cases p <;> exact ⟨_, rfl, rfl⟩
  rw [Enc.writeAll, Enc.run_keyed hw rfl hpiece _ _ rfl, Enc.written_map_write, encrypt_rc4_resume]
  rfl

end

/-- A slice of one byte, without room behind it. -/
def byteAt {size : Nat} (i : Nat) (h : i < size) : Slice size := ⟨i, 1, 1, Nat.le_refl 1, h⟩

end Gofusion.Cipher
