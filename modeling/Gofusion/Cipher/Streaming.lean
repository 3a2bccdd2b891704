import Gofusion.Cipher.Inverse
import Gofusion.Cipher.Stream

/-!
# A stream is what its pieces join to

*Writing.*  What is written so far and what is yet to come are, through the state, the buffer and
the output, always the same encryption (`Enc.finish`).

*Reading.*  What a reader has still to serve is the rest of its buffer and the plaintext of the
chunks that are left below (`Dec.toCome`).  A call takes from the beginning of it.
-/

namespace Gofusion.Cipher

open Gofusion.Config (CipherAlgorithm CipherMode)
open Gofusion.Lib

theorem take_overwrite {buf data : Bytes} {i : Nat} (hi : i ≤ buf.length) :
    (overwrite buf i data).take (i + data.length) = buf.take i ++ data := by
  have hlen : (buf.take i ++ data).length = i + data.length := by
    rw [List.length_append, List.length_take_of_le hi]
  rw [overwrite, ← hlen, List.take_left]

theorem length_overwrite {buf data : Bytes} {i : Nat} (hi : i ≤ buf.length) :
    (overwrite buf i data).length = max buf.length (i + data.length) := by
  rw [overwrite, List.length_append, List.length_append, List.length_take_of_le hi,
    List.length_drop]
  omega

/-! ## The wrappers of streams -/

/-- A wrapper with buffers.  Nothing is made of nothing. -/
structure BlockMode.Buffered (bm : BlockMode) : Prop where
  plain_pos : 0 < bm.plainBlockSize
  cipher_pos : 0 < bm.cipherBlockSize
  idle : ∀ st, bm.cryptBlocks st [] = .ok ([], st)

/-- A wrapper with buffers, or the one of a key stream without. -/
def BlockMode.Streams (bm : BlockMode) : Prop := bm.Buffered ∨ ∃ key, bm = rc4Wrapper key

theorem buffered_wrapStream (key : Nat → UInt8) (mode : CipherMode) :
    (wrapStream key mode).Buffered := by
  have hpos : 0 < defaultBlockSize * blockSizeTimes := by decide
  exact ⟨hpos, hpos, fun _ => rfl⟩

theorem buffered_wrapCFB (b : Block) (iv : Bytes) (isEncoder : Bool) :
    (wrapCFB b iv isEncoder).Buffered := by
  have hpos : 0 < defaultBlockSize * blockSizeTimes := by decide
  exact ⟨hpos, hpos, fun _ => rfl⟩

theorem buffered_aeadEncryptWrapper (lib : Library) (a : AEAD) (hsize : 0 < size)
    (mode : CipherMode) : (aeadEncryptWrapper lib a size mode).Buffered := by
  have hpos : 0 < size * blockSizeTimes := Nat.mul_pos hsize (by decide)
  exact ⟨hpos, Nat.add_pos_right _ hpos, fun _ => rfl⟩

theorem buffered_aeadDecryptWrapper (a : AEAD) (hsize : 0 < size)
    (mode : CipherMode) : (aeadDecryptWrapper a size mode).Buffered := by
  have hpos : 0 < size * blockSizeTimes := Nat.mul_pos hsize (by decide)
  exact ⟨hpos, Nat.add_pos_right _ hpos, fun _ => rfl⟩

theorem checkStream_eq_ok {bm bm' : BlockMode} :
    checkStream bm = .ok bm' ↔ supportStream bm.mode = true ∧ bm = bm' := by
  rw [checkStream]
  split <;> simp [*]

theorem bind_checkStream_eq_ok {x : Except Fault BlockMode} {bm : BlockMode} :
    x.bind checkStream = .ok bm ↔ x = .ok bm ∧ supportStream bm.mode = true := by
  cases x with
  | error f => simp [Except.bind]
  | ok bm' =>
    show checkStream bm' = .ok bm ↔ _
    rw [checkStream_eq_ok, Except.ok.injEq]
    constructor
    · rintro ⟨hmode, rfl⟩
      exact ⟨rfl, hmode⟩
    · rintro ⟨rfl, hmode⟩
      exact ⟨hmode, rfl⟩

variable {algo : Option CipherAlgorithm} {mode : Option CipherMode} {lib : Library}
  {src msg : Bytes} {e d : BlockMode}

section

variable (hlib : lib.Lawful) {key iv : Bytes}
include hlib

theorem newEncFunc_eq_ok (he : newEncFunc lib algo mode key iv = .ok e) :
    getEncrypter lib algo mode key iv = .ok e ∧ supportStream e.mode = true ∧ e.Streams := by
  obtain ⟨hget, hmode⟩ := bind_checkStream_eq_ok.mp he
  obtain ⟨s, hs, rfl, -⟩ := scheme_of_getEncrypter hlib hget
  refine ⟨hget, hmode, ?_⟩
  cases s with
  | block | chained => cases hmode
  | feedback b iv => exact .inl (buffered_wrapCFB b iv true)
  | keyed key mode => exact .inl (buffered_wrapStream key mode)
  | sealed a mode => exact .inl (buffered_aeadEncryptWrapper lib a (by decide) mode)
  | rc4 key => exact .inr ⟨key, rfl⟩

theorem newDecFunc_eq_ok (hd : newDecFunc lib algo mode key iv = .ok d) :
    getDecrypter lib algo mode key iv = .ok d ∧ supportStream d.mode = true ∧ d.Streams := by
  obtain ⟨hget, hmode⟩ := bind_checkStream_eq_ok.mp hd
  obtain ⟨s, hs, rfl⟩ := scheme_of_getDecrypter hlib hget
  refine ⟨hget, hmode, ?_⟩
  cases s with
  | block | chained => cases hmode
  | feedback b iv => exact .inl (buffered_wrapCFB b iv false)
  | keyed key mode => exact .inl (buffered_wrapStream key mode)
  | sealed a mode => exact .inl (buffered_aeadDecryptWrapper a (by decide) mode)
  | rc4 key => exact .inr ⟨key, rfl⟩

end

theorem xorKeyStream_append (key : Nat → UInt8) : ∀ (pos : Nat) (xs ys : Bytes),
    xorKeyStream key pos (xs ++ ys) =
      xorKeyStream key pos xs ++ xorKeyStream key (pos + xs.length) ys
  | _, [], _ => rfl
  | pos, x :: xs, ys => by
    rw [List.cons_append, xorKeyStream, xorKeyStream_append key (pos + 1) xs ys, xorKeyStream,
      List.cons_append, List.length_cons, Nat.add_assoc, Nat.add_comm 1]

theorem cryptPiece_rc4 (key : Nat → UInt8) (pos : Nat) (piece : Bytes) :
    (rc4Wrapper key).cryptPiece pos piece =
      .ok (xorKeyStream key pos piece, pos + piece.length) := by
  cases piece <;> rfl

/-- Without a size the loops of `encrypt` and `decrypt` take everything at once. -/
theorem encrypt_rc4_resume (key : Nat → UInt8) (pos : Nat) (src : Bytes) :
    encrypt ((rc4Wrapper key).resume pos) src = .ok (xorKeyStream key pos src) := by
  rw [encrypt, BlockMode.chunkSize, if_neg (fun h => h.1 rfl)]
  by_cases hne : src = []
  · rw [hne]
    rfl
  · rw [transduceAll, chunks_last hne (Nat.le_refl _)]
    show Except.ok (xorKeyStream key pos src ++ []) = _
    rw [List.append_nil]

theorem encrypt_rc4 (key : Nat → UInt8) (src : Bytes) :
    encrypt (rc4Wrapper key) src = .ok (xorKeyStream key 0 src) := encrypt_rc4_resume key 0 src

/-- A buffered wrapper encrypts chunk by chunk. -/
theorem BlockMode.Buffered.encrypt_eq {bm : BlockMode} (h : bm.Buffered) (src : Bytes) :
    encrypt bm src = transduceAll bm.cryptBlocks bm.start bm.plainBlockSize src := by
  have := h.plain_pos
  have := h.cipher_pos
  rw [encrypt, BlockMode.chunkSize, if_pos ⟨by omega, by omega⟩]

/-- It decrypts chunk by chunk. -/
theorem BlockMode.Buffered.decrypt_eq {bm : BlockMode} (h : bm.Buffered) (src : Bytes) :
    decrypt bm src = transduceAll bm.cryptBlocks bm.start bm.cipherBlockSize src := by
  have := h.plain_pos
  have := h.cipher_pos
  rw [decrypt, BlockMode.chunkSize, if_pos ⟨by omega, by omega⟩]

/-! ## Writing -/

namespace Enc

variable {bm : BlockMode}

/-- The buffer has room for something. -/
def Ready (e : Enc bm) : Prop := e.buf.length = bm.plainBlockSize ∧ e.n < bm.plainBlockSize

/-- What the writer below has in the end if there is so much more to write. -/
def finish (e : Enc bm) (more : Bytes) : Except Fault Bytes :=
  (transduceAll bm.cryptBlocks e.st bm.plainBlockSize (e.buf.take e.n ++ more)).map (e.out ++ ·)

/-- The same if these chunks are encrypted behind that. -/
def ends (e : Enc bm) (more : Bytes) (later : List Bytes) : Except Fault Bytes :=
  (transduce bm.cryptBlocks e.st (chunks bm.plainBlockSize (e.buf.take e.n ++ more) ++ later)).map
    fun cs => e.out ++ cs.flatten

theorem ends_nil (e : Enc bm) (more : Bytes) : e.ends more [] = e.finish more := by
  rw [ends, finish, transduceAll, List.append_nil]
  cases transduce bm.cryptBlocks e.st _ <;> rfl

/-- The next chunk may be encrypted at once. -/
theorem ends_eq_flushBuf {e : Enc bm} {more rest : Bytes}
    (hchunks : chunks bm.plainBlockSize (e.buf.take e.n ++ more) =
      e.buf.take e.n :: chunks bm.plainBlockSize rest) (later : List Bytes) :
    e.ends more later = e.flushBuf.bind (·.ends rest later) := by
  rw [ends, hchunks, List.cons_append, transduce, flushBuf]
  cases bm.cryptBlocks e.st (e.buf.take e.n) with
  | error f => rfl
  | ok r =>
    simp only [bind, Except.bind, pure, Except.pure, ends, List.take_zero, List.nil_append]
    cases transduce bm.cryptBlocks r.2 (chunks bm.plainBlockSize rest ++ later) with
    | error f => rfl
    | ok ys => simp only [Except.map, List.flatten_cons, List.append_assoc]

/-- A round of the loop of `Write` copies into the buffer and flushes a full one. -/
theorem writeLoop_succ {fuel : Nat} {e : Enc bm} {p : Bytes} (hp : p ≠ []) :
    writeLoop (fuel + 1) e p =
      let nCopy := min p.length (e.buf.length - e.n)
      let e' : Enc bm :=
        { e with buf := overwrite e.buf e.n (p.take nCopy), n := e.n + nCopy }
      if e'.n = e'.buf.length then
        match e'.flushBuf with
        | .error f => some (.error f)
        | .ok e'' => writeLoop fuel e'' (p.drop nCopy)
      else writeLoop fuel e' (p.drop nCopy) := by
  cases p with
  | nil => exact absurd rfl hp
  | cons x xs => rfl

/-- The loop of `Write` moves what is written into the fields of the writer. -/
theorem writeLoop_spec (hpos : 0 < bm.plainBlockSize) : ∀ (fuel : Nat) (e : Enc bm) (p : Bytes),
    e.Ready → p.length ≤ fuel → ∃ r, writeLoop fuel e p = some r ∧
      (∀ e', r = .ok e' → e'.Ready) ∧
      ∀ more later, e.ends (p ++ more) later = r.bind (·.ends more later)
  | fuel, e, [], he, _ => by
    refine ⟨.ok e, by cases fuel <;> rfl, ?_, fun _ _ => rfl⟩
    rintro e' ⟨⟩
    exact he
  | fuel + 1, e, x :: xs, ⟨hbuf, hn⟩, hfuel => by
    have hne : x :: xs ≠ [] := List.cons_ne_nil x xs
    generalize x :: xs = p at hne hfuel ⊢
    have hplen : 0 < p.length := List.length_pos_iff.mpr hne
    obtain ⟨nCopy, hCopy⟩ : ∃ nCopy, nCopy = min p.length (e.buf.length - e.n) := ⟨_, rfl⟩
    have htake : (p.take nCopy).length = nCopy := List.length_take_of_le (by omega)
    have hdrop : (p.drop nCopy).length ≤ fuel := by
      rw [List.length_drop]
      omega
    -- the fields after `copy`
    let e₁ : Enc bm := { e with buf := overwrite e.buf e.n (p.take nCopy), n := e.n + nCopy }
    have hbuf₁ : e₁.buf.length = bm.plainBlockSize := by
      show (overwrite e.buf e.n (p.take nCopy)).length = _
      rw [length_overwrite (by omega), htake]
      omega
    have hcollected : e₁.buf.take e₁.n = e.buf.take e.n ++ p.take nCopy := by
      have := @take_overwrite e.buf (p.take nCopy) e.n (by omega)
      rwa [htake] at this
    have hends : ∀ more later, e.ends (p ++ more) later = e₁.ends (p.drop nCopy ++ more) later := by
      intro more later
      rw [ends, ends, hcollected, List.append_assoc, ← List.append_assoc (p.take nCopy),
        List.take_append_drop]
    have hloop : writeLoop (fuel + 1) e p =
        if e₁.n = e₁.buf.length then
          match e₁.flushBuf with
          | .error f => some (.error f)
          | .ok e₂ => writeLoop fuel e₂ (p.drop nCopy)
        else writeLoop fuel e₁ (p.drop nCopy) := by
      rw [writeLoop_succ hne, ← hCopy]
    rw [hloop]
    split
    next hfull =>
      have htake₁ : (e₁.buf.take e₁.n).length = bm.plainBlockSize := by
        rw [hfull, List.take_length, hbuf₁]
      have hflush := fun more later =>
        (hends more later).trans (ends_eq_flushBuf (chunks_append hpos htake₁ _) later)
      cases hres : e₁.flushBuf with
      | error f =>
        refine ⟨.error f, rfl, nofun, fun more later => ?_⟩
        rw [hflush, hres]
        rfl
      | ok e₂ =>
        have hready : e₂.Ready := by
          obtain ⟨r, -, hr⟩ := bind_eq_ok.mp hres
          obtain rfl := Except.ok.inj hr
          exact ⟨hbuf₁, hpos⟩
        obtain ⟨r, hr, hok, hmore⟩ := writeLoop_spec hpos fuel e₂ (p.drop nCopy) hready hdrop
        refine ⟨r, hr, hok, fun more later => ?_⟩
        rw [hflush, hres]
        exact hmore more later
    next hroom =>
      have hready : e₁.Ready := by
        refine ⟨hbuf₁, ?_⟩
        have hn₁ : e₁.n = e.n + nCopy := rfl
        omega
      obtain ⟨r, hr, hok, hmore⟩ := writeLoop_spec hpos fuel e₁ (p.drop nCopy) hready hdrop
      exact ⟨r, hr, hok, fun more later => (hends more later).trans (hmore more later)⟩

/-- A flush ends a chunk and leaves the buffer empty. -/
theorem flush_spec {e : Enc bm} (he : e.Ready) :
    (∀ e', e.flush = .ok e' → e'.Ready ∧ e'.n = 0) ∧
      ∀ later, e.ends [] later = e.flush.bind (·.ends [] later) := by
  obtain ⟨hbuf, hn⟩ := he
  rw [flush]
  split
  next hsome =>
    refine ⟨fun e' he' => ?_, ends_eq_flushBuf ?_⟩
    · obtain ⟨r, -, hr⟩ := bind_eq_ok.mp he'
      obtain rfl := Except.ok.inj hr
      exact ⟨⟨hbuf, Nat.lt_of_le_of_lt (Nat.zero_le _) hn⟩, rfl⟩
    · have hlen : (e.buf.take e.n).length = e.n := List.length_take_of_le (by omega)
      rw [List.append_nil, chunks_last (List.ne_nil_of_length_pos (by omega)) (by omega)]
      rfl
  next hnone =>
    refine ⟨?_, fun _ => rfl⟩
    rintro e' ⟨⟩
    exact ⟨⟨hbuf, hn⟩, by omega⟩

theorem ends_of_flushed {e : Enc bm} (hn : e.n = 0) (more : Bytes) (later : List Bytes) :
    e.ends [] (chunks bm.plainBlockSize more ++ later) = e.ends more later := by
  rw [ends, ends, hn, List.take_zero, List.nil_append, List.nil_append]
  rfl

/-- What is written before the first flush. -/
def lead : List Call → Bytes
  | [] => []
  | .write p :: cs => p ++ lead cs
  | .flush :: _ => []

/-- The chunks behind the first flush. -/
def behind (size : Nat) : List Call → List Bytes
  | [] => []
  | .write _ :: cs => behind size cs
  | .flush :: cs => chunks size (lead cs) ++ behind size cs

/-- `Close` is a flush, unless it panics. -/
theorem close_eq_flush {w : Sink} (hw : w ≠ .plain) (e : Enc bm) :
    e.close w = e.flush.map Enc.out := by
  cases w with
  | closer | nilable => rfl
  | plain => exact absurd rfl hw

/-- What ends well with another writer below ends with a panic here. -/
theorem run_plain {data : Bytes} : ∀ {cs : List Call} {e : Enc bm},
    e.run .closer cs = some (.ok data) → e.run .plain cs = some (.error (.panic .raised))
  | [], _, _ => rfl
  | c :: cs, e, h => by
    rw [run] at h ⊢
    split at h
    next => cases h
    next => cases h
    next e' hcall => exact run_plain h

/-- No run comes back where closing the writer below panics. -/
theorem run_plain_ne_ok {data : Bytes} : ∀ (cs : List Call) (e : Enc bm),
    e.run .plain cs ≠ some (.ok data)
  | [], _ => by
    intro h
    cases h
  | c :: cs, e => by
    rw [run]
    split
    next => simp
    next => simp
    next e' _ => exact run_plain_ne_ok cs e'

/-- Elsewhere a run leaves below the chunks of what comes before the first flush and those behind
it. -/
theorem run_eq_ends {w : Sink} (hw : w ≠ .plain) (hpos : 0 < bm.plainBlockSize) :
    ∀ (cs : List Call) (e : Enc bm),
    e.Ready → e.run w cs = some (e.ends (lead cs) (behind bm.plainBlockSize cs))
  | [], e, he => by
    obtain ⟨hready, hends⟩ := flush_spec he
    rw [run, close_eq_flush hw, lead, behind, hends]
    cases hflush : e.flush with
    | error f => rfl
    | ok e' =>
      show some (Except.ok e'.out) = some (e'.ends [] [])
      rw [ends, (hready e' hflush).2]
      show _ = some (Except.ok (e'.out ++ []))
      rw [List.append_nil]
  | .write p :: cs, e, he => by
    obtain ⟨r, hr, hready, hmore⟩ := writeLoop_spec hpos p.length e p he (Nat.le_refl _)
    rw [run, call, write, if_neg (by omega), hr, lead, behind, hmore]
    cases r with
    | error f => rfl
    | ok e' => exact run_eq_ends hw hpos cs e' (hready e' rfl)
  | .flush :: cs, e, he => by
    obtain ⟨hready, hends⟩ := flush_spec he
    rw [run, call, lead, behind, hends]
    cases hflush : e.flush with
    | error f => rfl
    | ok e' =>
      obtain ⟨he', hn⟩ := hready e' hflush
      show e'.run w cs = some (e'.ends [] _)
      rw [run_eq_ends hw hpos cs e' he', ends_of_flushed hn]

/-- Without a buffer every piece goes through the key stream as it comes. -/
theorem run_keyed {w : Sink} (hw : w ≠ .plain) (hzero : bm.plainBlockSize = 0)
    {key : Nat → UInt8} {pos : bm.State → Nat} (hpiece : ∀ st piece, ∃ st',
      bm.cryptPiece st piece = .ok (xorKeyStream key (pos st) piece, st') ∧
        pos st' = pos st + piece.length) : ∀ (cs : List Call) (e : Enc bm),
    e.n = 0 → e.run w cs = some (.ok (e.out ++ xorKeyStream key (pos e.st) (written cs)))
  | [], e, hn => by
    rw [run, close_eq_flush hw, flush, if_neg (by omega)]
    show some (Except.ok e.out) = some (Except.ok (e.out ++ []))
    rw [List.append_nil]
  | .flush :: cs, e, hn => by
    rw [run, call, flush, if_neg (by omega)]
    exact run_keyed hw hzero hpiece cs e hn
  | .write p :: cs, e, hn => by
    obtain ⟨st', hst', hpos⟩ := hpiece e.st p
    let e' : Enc bm := { e with st := st', out := e.out ++ xorKeyStream key (pos e.st) p }
    have hwrite : e.write p = some (.ok e') := by
      rw [write, if_pos hzero]
      exact congrArg some (bind_eq_ok.mpr ⟨_, hst', rfl⟩)
    rw [run, call, hwrite, written, xorKeyStream_append, ← hpos, ← List.append_assoc]
    exact run_keyed hw hzero hpiece cs e' hn

theorem written_map_write : ∀ ps : List Bytes, written (ps.map .write) = ps.flatten
  | [] => rfl
  | p :: ps => congrArg (p ++ ·) (written_map_write ps)

theorem lead_map_write : ∀ ps : List Bytes, lead (ps.map .write) = ps.flatten
  | [] => rfl
  | p :: ps => congrArg (p ++ ·) (lead_map_write ps)

theorem behind_map_write (size : Nat) : ∀ ps : List Bytes, behind size (ps.map .write) = []
  | [] => rfl
  | _ :: ps => behind_map_write size ps

/-- The writer below gets the encryption of what the pieces join to. -/
theorem writeAll_new {w : Sink} (hw : w ≠ .plain) (h : bm.Streams) (ps : List Bytes) :
    (new bm).writeAll w ps = some (encrypt bm ps.flatten) := by
  rcases h with hbuffered | ⟨key, rfl⟩
  · have hpos := hbuffered.plain_pos
    have hnew : (new bm).Ready := ⟨List.length_replicate, hpos⟩
    rw [writeAll, run_eq_ends hw hpos _ _ hnew, lead_map_write, behind_map_write, ends_nil,
      hbuffered.encrypt_eq, finish]
    show some ((transduceAll _ bm.start _ ([] ++ ps.flatten)).map ([] ++ ·)) = _
    rw [List.nil_append]
    cases transduceAll bm.cryptBlocks bm.start bm.plainBlockSize ps.flatten <;> rfl
  · have hrun := run_keyed hw rfl (fun st p => ⟨_, cryptPiece_rc4 key st p, rfl⟩) (ps.map .write)
      (new (rc4Wrapper key)) rfl
    rw [writeAll, hrun, written_map_write, encrypt_rc4]
    rfl

end Enc

/-! ## Reading -/

/-- Also at the end of the input a chunk is decrypted, but it is empty. -/
theorem BlockMode.Buffered.emit_chunks {bm : BlockMode} (h : bm.Buffered) (st : bm.State)
    (src : Bytes) : emit bm.cryptBlocks st (chunks bm.cipherBlockSize src) =
      match bm.cryptBlocks st (src.take bm.cipherBlockSize) with
      | .error f => ([], some f)
      | .ok (c, st') =>
        let rest := emit bm.cryptBlocks st' (chunks bm.cipherBlockSize
          (src.drop bm.cipherBlockSize))
        (c ++ rest.1, rest.2) := by
  by_cases hne : src = []
  · rw [hne, List.take_nil, h.idle, List.drop_nil]
    rfl
  · rw [chunks_eq_cons h.cipher_pos hne, emit]
    cases bm.cryptBlocks st (src.take bm.cipherBlockSize) <;> rfl

namespace Dec

variable {bm : BlockMode}

/-- The positions are inside the buffer, and the end of the reader below is its end. -/
structure Ready (d : Dec bm) : Prop where
  room : bm.cipherBlockSize ≤ d.buf.length
  inside : d.stop ≤ d.buf.length
  ended : d.eof = true → d.r.rest = []

/-- The part of the buffer that is not served yet. -/
def unread (d : Dec bm) : Bytes := (d.buf.take d.stop).drop d.n

/-- The plaintext of the chunks that are left below, and how it ends. -/
def below (d : Dec bm) : Bytes × Option Fault :=
  emit bm.cryptBlocks d.st (chunks bm.cipherBlockSize d.r.rest)

def toCome (d : Dec bm) : Bytes := d.unread ++ d.below.1

theorem length_unread {d : Dec bm} (hd : d.Ready) : d.unread.length = d.stop - d.n := by
  rw [unread, List.length_drop, List.length_take_of_le hd.inside]

/-- The inner loop of `Read` has collected the next chunk. -/
structure Collected (d d' : Dec bm) : Prop where
  st : d'.st = d.st
  room : bm.cipherBlockSize ≤ d'.buf.length
  chunk : d'.buf.take d'.n = d.buf.take d.n ++ d.r.rest.take (bm.cipherBlockSize - d.n)
  rest : d'.r.rest = d.r.rest.drop (bm.cipherBlockSize - d.n)
  ended : d'.eof = true → d'.r.rest = []
  less : d'.eof = false → d'.r.rest.length < d.r.rest.length

def afterRead (d : Dec bm) : Dec bm :=
  let (data, eof, r) := d.r.read (bm.cipherBlockSize - d.n)
  { d with r, eof, buf := overwrite d.buf d.n data, n := d.n + data.length }

theorem collect_succ (fuel : Nat) (d : Dec bm) : collect (fuel + 1) d =
    if d.afterRead.n < bm.cipherBlockSize ∧ d.afterRead.eof = false then collect fuel d.afterRead
    else some d.afterRead := rfl

/-- `collect` fills the buffer up to a chunk, or to the end of the source. -/
theorem collect_spec : ∀ (fuel : Nat) (d : Dec bm), bm.cipherBlockSize ≤ d.buf.length →
    d.n < bm.cipherBlockSize → d.r.rest.length < fuel →
    ∃ d', collect fuel d = some d' ∧ Collected d d'
  | fuel + 1, d, hroom, hn, hfuel => by
    obtain ⟨data, hdata⟩ : ∃ data, data = (d.r.read (bm.cipherBlockSize - d.n)).1 := ⟨_, rfl⟩
    have happend : data ++ d.afterRead.r.rest = d.r.rest := hdata ▸ Source.read_append d.r _
    have hle : data.length ≤ bm.cipherBlockSize - d.n := hdata ▸ Source.length_read_le d.r _
    have hended : d.afterRead.eof = true → d.afterRead.r.rest = [] := Source.rest_of_end
    have hsome : d.afterRead.eof = false → data ≠ [] := fun h =>
      hdata ▸ Source.read_ne_nil (by omega) h
    have hn₁ : d.afterRead.n = d.n + data.length := by rw [hdata]; rfl
    have hbuf₁ : d.afterRead.buf = overwrite d.buf d.n data := by rw [hdata]; rfl
    have hroom₁ : bm.cipherBlockSize ≤ d.afterRead.buf.length := by
      rw [hbuf₁, length_overwrite (by omega)]
      omega
    have htake₁ : d.afterRead.buf.take d.afterRead.n = d.buf.take d.n ++ data := by
      rw [hbuf₁, hn₁, take_overwrite (by omega)]
    have hless : d.afterRead.eof = false → d.afterRead.r.rest.length < d.r.rest.length := by
      intro h
      have := List.length_pos_iff.mpr (hsome h)
      rw [← happend, List.length_append]
      omega
    rw [collect_succ]
    split
    next hmore =>
      obtain ⟨d', hrun, hd'⟩ := collect_spec fuel d.afterRead hroom₁ hmore.1
        (by have := hless hmore.2; omega)
      have hleft : bm.cipherBlockSize - d.afterRead.n =
          bm.cipherBlockSize - d.n - data.length := by omega
      refine ⟨d', hrun, hd'.st, hd'.room, ?_, ?_, hd'.ended, ?_⟩
      · rw [hd'.chunk, htake₁, hleft, List.append_assoc, ← happend, List.take_append,
          List.take_of_length_le hle]
      · rw [hd'.rest, hleft, ← happend, List.drop_append, List.drop_of_length_le hle,
          List.nil_append]
      · intro h
        have := hd'.less h
        have := hless hmore.2
        omega
    next hstop =>
      -- the buffer is full, or nothing is left below
      have hall : data.length = bm.cipherBlockSize - d.n ∨ d.afterRead.r.rest = [] := by
        by_cases heof : d.afterRead.eof = true
        · exact .inr (hended heof)
        · refine .inl ?_
          have : ¬ d.afterRead.n < bm.cipherBlockSize := fun h =>
            hstop ⟨h, Bool.eq_false_iff.mpr heof⟩
          omega
      refine ⟨d.afterRead, rfl, rfl, hroom₁, ?_, ?_, hended, hless⟩
      · rw [htake₁, ← happend]
        rcases hall with hfull | hnil
        · rw [← hfull, List.take_left]
        · rw [hnil, List.append_nil, List.take_of_length_le hle]
      · rw [← happend]
        rcases hall with hfull | hnil
        · rw [← hfull, List.drop_left]
        · rw [hnil, List.append_nil, List.drop_of_length_le hle]

/-- A call of `Read` for so many bytes.  It returns what is to come up to that number, and if
that is less it returns how it ends. -/
def Returns (d : Dec bm) (want : Nat) (result : Option (Bytes × ReadEnd Fault × Dec bm)) : Prop :=
  ∃ stop d', result = some (d.toCome.take want, stop, d') ∧
    (want ≤ d.toCome.length ∧ stop = .more ∧ d'.Ready ∧
        d'.toCome = d.toCome.drop want ∧ d'.below.2 = d.below.2 ∨
      d.toCome.length < want ∧ stop = .final d.below.2)

/-- A part of the buffer is served, and the rest of the call goes on behind it. -/
theorem returns_serve {d : Dec bm} (hd : d.Ready)
    (hcopied : copied = min (d.stop - d.n) want)
    {result : Option (Bytes × ReadEnd Fault × Dec bm)}
    (h : Returns { d with n := d.n + copied } (want - copied) result) :
    Returns d want (result.map fun r => ((d.buf.drop d.n).take copied ++ r.1, r.2)) := by
  have hlen := length_unread hd
  have hserved : (d.buf.drop d.n).take copied = d.toCome.take copied := by
    rw [toCome, List.take_append_of_le_length (by omega), unread, List.drop_take, List.take_take,
      Nat.min_eq_left (by omega)]
  have hrest : toCome { d with n := d.n + copied } = d.toCome.drop copied := by
    rw [toCome, toCome, List.drop_append_of_le_length (by omega), unread, unread, List.drop_drop]
    rfl
  have hcount : copied ≤ d.toCome.length := by
    rw [toCome, List.length_append]
    omega
  obtain ⟨stop, d', rfl, hstop⟩ := h
  rw [hrest, List.length_drop, List.drop_drop] at hstop
  have hwant : copied + (want - copied) = want := by omega
  refine ⟨stop, d', ?_, ?_⟩
  · rw [Option.map_some, hserved, hrest, ← List.take_add, hwant]
  · rw [hwant] at hstop
    rcases hstop with ⟨hle, hmore, hready, htoCome, hbelow⟩ | ⟨hlt, hfinal⟩
    · exact .inl ⟨by omega, hmore, hready, htoCome, hbelow⟩
    · exact .inr ⟨by omega, hfinal⟩

/-- A collected chunk is decrypted into the buffer.  What is to come stays. -/
theorem decryptBuf_spec (h : bm.Buffered) {d d₁ : Dec bm} (hunread : d.unread = [])
    (hd₁ : Collected { d with n := 0, stop := 0 } d₁) :
    (∃ f, d₁.decryptBuf = .error f ∧ d.toCome = [] ∧ d.below.2 = some f) ∨
      ∃ d₂, d₁.decryptBuf = .ok d₂ ∧ d₂.Ready ∧ d₂.r = d₁.r ∧ d₂.eof = d₁.eof ∧
        d₂.toCome = d.toCome ∧ d₂.below.2 = d.below.2 := by
  have hchunk : d₁.buf.take d₁.n = d.r.rest.take bm.cipherBlockSize := hd₁.chunk
  have hrest : d₁.r.rest = d.r.rest.drop bm.cipherBlockSize := hd₁.rest
  have hst : d₁.st = d.st := hd₁.st
  have hbelow := h.emit_chunks d.st d.r.rest
  rw [← hchunk, ← hrest] at hbelow
  rw [decryptBuf, hst, toCome, hunread, List.nil_append, below, hbelow]
  cases bm.cryptBlocks d.st (d₁.buf.take d₁.n) with
  | error f => exact .inl ⟨f, rfl, rfl, rfl⟩
  | ok r =>
    obtain ⟨c, st'⟩ := r
    have htake : (overwrite d₁.buf 0 c).take c.length = c := by
      have := @take_overwrite d₁.buf c 0 (Nat.zero_le _)
      rwa [Nat.zero_add] at this
    have hlen := @length_overwrite d₁.buf c 0 (Nat.zero_le _)
    have hroom := hd₁.room
    refine .inr ⟨_, rfl, ⟨?_, ?_, hd₁.ended⟩, rfl, rfl, ?_, rfl⟩
    · show bm.cipherBlockSize ≤ (overwrite d₁.buf 0 c).length
      omega
    · show c.length ≤ (overwrite d₁.buf 0 c).length
      omega
    · show ((overwrite d₁.buf 0 c).take c.length).drop 0 ++ _ = _
      rw [htake]
      rfl

/-- A call of `Read` returns the next bytes, or the failure behind them. -/
theorem readLoop_spec (h : bm.Buffered) : ∀ (fuel : Nat) (d : Dec bm) (want : Nat), d.Ready →
    want + d.r.rest.length + (if d.eof then 0 else 1) < fuel →
    d.Returns want (readLoop fuel d want)
  | 0, _, _, _, hfuel => absurd hfuel (Nat.not_lt_zero _)
  | fuel + 1, d, 0, hd, _ => ⟨.more, d, rfl, .inl ⟨Nat.zero_le _, rfl, hd, rfl, rfl⟩⟩
  | fuel + 1, d, want + 1, hd, hfuel => by
    rw [readLoop.eq_3 _ _ _ (Nat.succ_ne_zero want)]
    have hlen := length_unread hd
    split
    next hsome =>
      refine returns_serve hd rfl (readLoop_spec h fuel _ _ ⟨hd.room, hd.inside, hd.ended⟩ ?_)
      dsimp only
      omega
    next hnone =>
      have hunread : d.unread = [] := List.eq_nil_of_length_eq_zero (by omega)
      split
      next heof =>
        have hbelow : d.below = ([], none) := by
          rw [below, hd.ended heof]
          rfl
        have htoCome : d.toCome = [] := by rw [toCome, hunread, hbelow]; rfl
        refine ⟨.eof, d, ?_, .inr ⟨?_, ?_⟩⟩
        · rw [htoCome]
          rfl
        · rw [htoCome]
          exact Nat.succ_pos _
        · rw [hbelow]
          rfl
      next heof =>
        obtain ⟨d₁, hrun, hd₁⟩ := collect_spec (d.r.rest.length + 1)
          { d with n := 0, stop := 0 } hd.room h.cipher_pos (Nat.lt_succ_self _)
        simp only [hrun]
        rcases decryptBuf_spec h hunread hd₁ with ⟨f, hf, htoCome, hbelow⟩ |
          ⟨d₂, hd₂, hready, hr, heof₂, htoCome, hbelow⟩
        · rw [hf]
          refine ⟨.failed f, d₁, ?_, .inr ⟨?_, ?_⟩⟩
          · rw [htoCome]
            rfl
          · rw [htoCome]
            exact Nat.succ_pos _
          · rw [hbelow]
            rfl
        · rw [hd₂, Returns, ← htoCome, ← hbelow]
          refine readLoop_spec h fuel d₂ (want + 1) hready ?_
          -- something was read, or the end
          rw [hr, heof₂]
          rw [if_neg heof] at hfuel
          by_cases hend : d₁.eof = true
          · rw [if_pos hend, hd₁.ended hend, List.length_nil]
            omega
          · have hless : d₁.r.rest.length < d.r.rest.length :=
              hd₁.less (Bool.eq_false_iff.mpr hend)
            rw [if_neg hend]
            omega

/-- The reader serves a text and a failure, or none. -/
def For (d : Dec bm) (text : Bytes) (fault : Option Fault) : Prop :=
  d.Ready ∧ d.toCome = text ∧ d.below.2 = fault

/-- Every call of a reader serves from the beginning of what is to come. -/
theorem serves_buffered (h : bm.Buffered) : Serves (@read bm) For := by
  rintro d text fault want ⟨hready, rfl, rfl⟩
  have hpos := h.cipher_pos
  obtain ⟨stop, d', hread, hstop⟩ := readLoop_spec h (want + d.r.rest.length + 2) d want hready
    (by split <;> omega)
  refine ⟨min want d.toCome.length, stop, d', Nat.min_le_right .., ?_, ?_⟩
  · rw [read, if_neg (by omega), hread, ← List.take_eq_take_min]
  · rcases hstop with ⟨hle, hmore, hready', htoCome, hbelow⟩ | ⟨hlt, hfinal⟩
    · rw [Nat.min_eq_left hle]
      exact .inl ⟨hmore, ⟨hready', htoCome, hbelow⟩, id⟩
    · exact .inr ⟨hfinal, Nat.min_eq_right (by omega)⟩

/-- The reader of a key stream serves what is left below under the key stream. -/
def ForRC4 {key : Nat → UInt8} (d : Dec (rc4Wrapper key)) (text : Bytes) (fault : Option Fault) :
    Prop := text = xorKeyStream key d.st d.r.rest ∧ fault = none

theorem read_rc4 (key : Nat → UInt8) (d : Dec (rc4Wrapper key)) (want : Nat) :
    let (data, eof, r) := d.r.read want
    d.read want = some (xorKeyStream key d.st data, if eof then .eof else .more,
      { d with st := Nat.add d.st data.length, r, eof }) := by
  rw [read, if_pos (show (rc4Wrapper key).cipherBlockSize = 0 from rfl)]
  generalize d.r.read want = piece
  have hpiece : (rc4Wrapper key).cryptPiece d.st piece.1 =
      .ok (xorKeyStream key d.st piece.1, Nat.add d.st piece.1.length) :=
    cryptPiece_rc4 key d.st piece.1
  simp only [hpiece]

/-- So does the reader without a buffer. -/
theorem serves_rc4 (key : Nat → UInt8) : Serves (@read (rc4Wrapper key)) ForRC4 := by
  rintro d text fault want ⟨rfl, rfl⟩
  have hread := read_rc4 key d want
  have happend := Source.read_append d.r want
  have hended := @Source.rest_of_end _ d.r want
  have hsome := @Source.read_ne_nil _ d.r want
  generalize d.r.read want = piece at hread happend hended hsome
  obtain ⟨data, eof, r⟩ := piece
  dsimp only at hread happend hended hsome
  have htext := xorKeyStream_append key d.st data r.rest
  have hlen := length_xorKeyStream key d.st data
  rw [happend] at htext
  rw [show xorKeyStream key d.st data = (xorKeyStream key d.st d.r.rest).take data.length by
    rw [htext, List.take_left' hlen]] at hread
  refine ⟨data.length, _, _, ?_, hread, ?_⟩
  · rw [htext, List.length_append]
    omega
  · cases eof with
    | true =>
      refine .inr ⟨rfl, ?_⟩
      rw [htext, hended rfl, List.length_append, hlen]
      rfl
    | false =>
      refine .inl ⟨rfl, ⟨?_, rfl⟩, fun hpos => List.length_pos_iff.mpr (hsome hpos rfl)⟩
      rw [htext, List.drop_left' hlen]
      rfl

theorem for_new (src : Bytes) (plan : Nat → Nat × Bool) :
    For (new bm ⟨src, plan, 0⟩) (emit bm.cryptBlocks bm.start (chunks bm.cipherBlockSize src)).1
      (emit bm.cryptBlocks bm.start (chunks bm.cipherBlockSize src)).2 :=
  ⟨⟨Nat.le_of_eq List.length_replicate.symm, Nat.zero_le _, nofun⟩, rfl, rfl⟩

/-- `decrypt` succeeds exactly if no chunk fails. -/
theorem decrypt_eq_ok_iff (h : bm.Buffered) : decrypt bm src = .ok msg ↔
    emit bm.cryptBlocks bm.start (chunks bm.cipherBlockSize src) = (msg, none) := by
  rw [h.decrypt_eq, transduceAll_eq_ok, emit_eq_iff]

/-- A new reader serves what `decrypt` makes of the whole input, piece by piece. -/
theorem readAll_of_decrypt (h : bm.Streams) (hdec : decrypt bm src = .ok msg)
    (plan : Nat → Nat × Bool) (sizes : List Nat) : ∃ data stop,
      readAll read sizes (new bm ⟨src, plan, 0⟩) = some (data, stop) ∧
      (stop = .more ∧ data <+: msg ∧ (sizes.filter (0 < ·)).length ≤ data.length ∨
        stop = .eof ∧ data = msg) := by
  rcases h with hbuffered | ⟨key, rfl⟩
  · have hfor := @for_new bm src plan
    rw [(decrypt_eq_ok_iff hbuffered).mp hdec] at hfor
    exact (serves_buffered hbuffered).readAll sizes hfor
  · have hmsg : msg = xorKeyStream key 0 src := Except.ok.inj (hdec.symm.trans (encrypt_rc4 key src))
    exact (serves_rc4 key).readAll sizes ⟨hmsg, rfl⟩

/-- What a new reader serves up to the end is what `decrypt` makes of the whole input. -/
theorem decrypt_of_readAll (h : bm.Streams)
    (hread : readAll read sizes (new bm ⟨src, plan, 0⟩) = some (msg, .eof)) :
    decrypt bm src = .ok msg := by
  obtain hbuffered | ⟨key, rfl⟩ := h
  · obtain ⟨data, stop, hall, hstop⟩ := (serves_buffered hbuffered).readAll sizes (for_new src plan)
    obtain ⟨rfl, rfl⟩ := Prod.mk.inj (Option.some.inj (hall.symm.trans hread))
    obtain ⟨hmore, -⟩ | ⟨hfinal, rfl⟩ := hstop
    · cases hmore
    · exact (decrypt_eq_ok_iff hbuffered).mpr (Prod.ext rfl (ReadEnd.final_eq_eof hfinal.symm))
  · -- RC4 never fails, so both are its key stream over the ciphertext.
    have hdec := encrypt_rc4 key src
    obtain ⟨data, stop, hall, hstop⟩ := readAll_of_decrypt (.inr ⟨key, rfl⟩) hdec plan sizes
    obtain ⟨rfl, rfl⟩ := Prod.mk.inj (Option.some.inj (hall.symm.trans hread))
    obtain ⟨hmore, -⟩ | ⟨-, rfl⟩ := hstop
    · cases hmore
    · exact hdec

end Dec

/-! ## Streams -/

theorem shouldPadding_of_supportStream {mode : CipherMode} (h : supportStream mode = true) :
    shouldPadding mode = false := by
  cases mode <;> first | rfl | cases h

theorem padded_of_supportStream (h : supportStream e.mode = true) (src : Bytes) : e.Padded src :=
  fun hpad => absurd hpad (by rw [shouldPadding_of_supportStream h]; nofun)

/-- A new reader of a ciphertext serves the message in any pieces, however the reader below returns
the ciphertext.  After the end was announced it is all there, and before that at most as many
calls for something were made as bytes were read. -/
def Reads (d : BlockMode) (out msg : Bytes) : Prop :=
  ∀ (plan : Nat → Nat × Bool) (sizes : List Nat), ∃ data stop,
    readAll Dec.read sizes (Dec.new d ⟨out, plan, 0⟩) = some (data, stop) ∧
    (stop = .more ∧ data <+: msg ∧ (sizes.filter (0 < ·)).length ≤ data.length ∨
      stop = .eof ∧ data = msg)

/-- One call more than there are bytes, each for a byte, gets to the end. -/
theorem Reads.served {out : Bytes} (h : Reads d out msg) (plan : Nat → Nat × Bool) :
    ∃ sizes, readAll Dec.read sizes (Dec.new d ⟨out, plan, 0⟩) = some (msg, .eof) := by
  obtain ⟨data, stop, hall, ⟨-, hdata, hcount⟩ | ⟨rfl, rfl⟩⟩ :=
    h plan (.replicate (msg.length + 1) 1)
  · have hlen := hdata.length_le
    simp at hcount
    omega
  · exact ⟨_, hall⟩

/-- What is read in any pieces is what `decrypt` returns. -/
theorem reads_iff_decrypt (h : d.Streams) {out : Bytes} : Reads d out msg ↔ decrypt d out = .ok msg := by
  constructor
  · intro hreads
    obtain ⟨sizes, hserved⟩ := hreads.served fun _ => (0, false)
    exact Dec.decrypt_of_readAll h hserved
  · exact Dec.readAll_of_decrypt h

/-- `Close` ends well exactly if it does not panic on the writer below, unless random bytes are
wanting.  Then what was written in any pieces is read again in any pieces. -/
theorem written_is_read_iff (lib : Library) (hlib : lib.Lawful) (algo : Option CipherAlgorithm)
    (mode : Option CipherMode) (key iv : Bytes) (e d : BlockMode)
    (he : newEncFunc lib algo mode key iv = .ok e) (hd : newDecFunc lib algo mode key iv = .ok d)
    (w : Sink) (writes : List Bytes) :
    (lib.RandomReads → ((∃ out, (Enc.new e).writeAll w writes = some (.ok out) ∧
        Reads d out writes.flatten) ↔ w ≠ .plain)) ∧
    ∀ out, (Enc.new e).writeAll w writes = some (.ok out) → Reads d out writes.flatten := by
  obtain ⟨hget, hmode, hstreams⟩ := newEncFunc_eq_ok hlib he
  obtain ⟨hget', -, hstreams'⟩ := newDecFunc_eq_ok hlib hd
  obtain ⟨⟨R, k, hpaired⟩, htotal⟩ := inverts_get hlib hget hget'
  have hpadded := padded_of_supportStream hmode writes.flatten
  have hplain : ∀ out, (Enc.new e).writeAll w writes = some (.ok out) → w ≠ .plain := by
    rintro out hout rfl
    exact Enc.run_plain_ne_ok _ _ hout
  have hread : ∀ out, (Enc.new e).writeAll w writes = some (.ok out) →
      Reads d out writes.flatten := by
    intro out hout
    rw [Enc.writeAll_new (hplain out hout) hstreams] at hout
    exact (reads_iff_decrypt hstreams').mpr
      (hpaired.decrypt_encrypt hpadded (Option.some.inj hout))
  refine ⟨fun hrandom => ⟨fun ⟨out, hout, _⟩ => hplain out hout, fun hw => ?_⟩, hread⟩
  obtain ⟨out, hout⟩ := hpaired.encrypt_total (htotal hrandom) hpadded
  have hwritten : (Enc.new e).writeAll w writes = some (.ok out) :=
    (Enc.writeAll_new hw hstreams writes).trans (congrArg some hout)
  exact ⟨out, hwritten, hread out hwritten⟩

/-- Two bytes in three pieces, and three calls for something. -/
theorem hi_is_read : ∃ e d,
    newEncFunc mirrors (some .aes) (some .gcm) zeroKey [] = .ok e ∧
    newDecFunc mirrors (some .aes) (some .gcm) zeroKey [] = .ok d ∧
    ∃ out, (Enc.new e).writeAll .closer [[104], [], [105]] = some (.ok out) ∧
      ∀ plan, readAll Dec.read [1, 0, 1, 7] (Dec.new d ⟨out, plan, 0⟩) =
        some ([104, 105], .eof) := by
  refine ⟨_, _, rfl, rfl, ?_⟩
  obtain ⟨out, hout, hread⟩ := ((written_is_read_iff mirrors mirrors_lawful (some .aes)
    (some .gcm) zeroKey [] _ _ rfl rfl .closer [[104], [], [105]]).1 fun _ _ => ⟨_, rfl⟩).mpr
    (by decide)
  refine ⟨out, hout, fun plan => ?_⟩
  obtain ⟨data, stop, hall, ⟨-, hprefix, hcount⟩ | ⟨rfl, rfl⟩⟩ := hread plan [1, 0, 1, 7]
  · have hlen := hprefix.length_le
    exact absurd (Nat.le_trans hcount hlen) (by decide)
  · exact hall

/-- A buffer is the writer below, and `Close` panics. -/
theorem buffer_close_panics : ∃ e,
    newEncFunc mirrors (some .aes) (some .gcm) zeroKey [] = .ok e ∧
    (Enc.new e).writeAll .plain [[104, 105]] = some (.error (.panic .raised)) := by
  have hbuffered := buffered_aeadEncryptWrapper mirrors
    (mirrors.gcm ⟨16, List.reverse, List.reverse⟩) (by decide : 0 < 16) .gcm
  have hwritten := Enc.writeAll_new (by decide : Sink.closer ≠ .plain) (.inl hbuffered) [[104, 105]]
  exact ⟨_, rfl, Enc.run_plain (hwritten.trans rfl)⟩

/-- The writer and `EncryptBytesFunc` make the same ciphertext, whatever the pieces, unless `Close`
panics on the writer below, which it does on one of a kind without a nil. -/
theorem written_eq_encryptBytes (lib : Library) (hlib : lib.Lawful) (algo : Option CipherAlgorithm)
    (mode : Option CipherMode) (key iv : Bytes) (e : BlockMode)
    (he : newEncFunc lib algo mode key iv = .ok e) :
    ∃ f, encryptBytesFunc lib algo mode key iv = .ok f ∧ ∀ writes,
      (∀ w, w ≠ .plain → (Enc.new e).writeAll w writes = some (f writes.flatten)) ∧
      ∀ out, f writes.flatten = .ok out →
        (Enc.new e).writeAll .plain writes = some (.error (.panic .raised)) := by
  obtain ⟨hget, hmode, hstreams⟩ := newEncFunc_eq_ok hlib he
  refine ⟨_, by rw [encryptBytesFunc, hget], fun writes => ?_⟩
  rw [shouldPadding_of_supportStream hmode, if_neg Bool.false_ne_true]
  refine ⟨fun w hw => Enc.writeAll_new hw hstreams writes, fun out hout => ?_⟩
  exact Enc.run_plain ((Enc.writeAll_new (by decide) hstreams writes).trans (congrArg some hout))

theorem gcm_written_eq_encryptBytes : ∃ e f,
    newEncFunc mirrors (some .aes) (some .gcm) zeroKey [] = .ok e ∧
    encryptBytesFunc mirrors (some .aes) (some .gcm) zeroKey [] = .ok f ∧ ∀ writes,
      (∀ w, w ≠ .plain → (Enc.new e).writeAll w writes = some (f writes.flatten)) ∧
      ∀ out, f writes.flatten = .ok out →
        (Enc.new e).writeAll .plain writes = some (.error (.panic .raised)) := by
  obtain ⟨f, h⟩ := written_eq_encryptBytes mirrors mirrors_lawful (some .aes) (some .gcm) zeroKey []
    _ rfl
  exact ⟨_, f, rfl, h⟩

/-- The reader serves a message and then the end exactly where `DecryptBytesFunc` returns that
message, however the reader below returns the ciphertext. -/
theorem served_iff_decryptBytes (lib : Library) (hlib : lib.Lawful)
    (algo : Option CipherAlgorithm) (mode : Option CipherMode) (key iv : Bytes) (d : BlockMode)
    (hd : newDecFunc lib algo mode key iv = .ok d) :
    ∃ f, decryptBytesFunc lib algo mode key iv = .ok f ∧ ∀ src msg plan,
      (∃ sizes, readAll Dec.read sizes (Dec.new d ⟨src, plan, 0⟩) = some (msg, .eof)) ↔
        f src = .ok msg := by
  obtain ⟨hget, hmode, hstreams⟩ := newDecFunc_eq_ok hlib hd
  refine ⟨_, by rw [decryptBytesFunc, hget], fun src msg plan => ?_⟩
  simp only [shouldPadding_of_supportStream hmode, Bool.false_eq_true, if_false]
  rw [show (decrypt d src >>= Except.ok) = decrypt d src from bind_pure _]
  constructor
  · rintro ⟨sizes, hread⟩
    exact Dec.decrypt_of_readAll hstreams hread
  · intro hdec
    exact Reads.served ((reads_iff_decrypt hstreams).mpr hdec) plan

theorem gcm_served_iff_decryptBytes : ∃ d f,
    newDecFunc mirrors (some .aes) (some .gcm) zeroKey [] = .ok d ∧
    decryptBytesFunc mirrors (some .aes) (some .gcm) zeroKey [] = .ok f ∧ ∀ src msg plan,
      (∃ sizes, readAll Dec.read sizes (Dec.new d ⟨src, plan, 0⟩) = some (msg, .eof)) ↔
        f src = .ok msg := by
  obtain ⟨f, h⟩ := served_iff_decryptBytes mirrors mirrors_lawful (some .aes) (some .gcm) zeroKey []
    _ rfl
  exact ⟨_, f, rfl, h⟩

end Gofusion.Cipher
