import Gofusion.Cipher.Splices
import Mathlib.Data.List.Nodup

/-!
# Flushes and bad ciphertext

A flush ends a chunk early.  With the key streams and CFB the chunks do not show in the ciphertext.
An ideal AEAD opens no chunk together with what follows it, so there a flush must come at the end
of a chunk, or behind the last byte.

The block ciphers panic on a part of a block.  Nothing else does.
-/

namespace Gofusion.Cipher

open Gofusion.Config (CipherAlgorithm CipherMode)
open Gofusion.Lib

variable {lib : Library} {algo : Option CipherAlgorithm} {mode : Option CipherMode}
  {key iv : Bytes} {e d bm : BlockMode}

/-! ## Streams -/

/-- The two sides of a key stream or of CFB. -/
inductive KeyPair : BlockMode → BlockMode → Prop
  | feedback (b : Block) (iv : Bytes) : KeyPair (wrapCFB b iv true) (wrapCFB b iv false)
  | keyed (key : Nat → UInt8) {mode : CipherMode} (h : shouldPadding mode = false) :
    KeyPair (wrapStream key mode) (wrapStream key mode)
  | rc4 (key : Nat → UInt8) : KeyPair (rc4Wrapper key) (rc4Wrapper key)

theorem withIV_eq_ok {b : Block} {bm' : BlockMode} (h : withIV b iv bm = .ok bm') : bm = bm' := by
  rw [withIV] at h
  split at h
  · exact Except.ok.inj h
  · cases h

theorem authenticated_of_block (hmap : cipherBlockMapping lib algo = some newCipher) :
    authenticated algo mode = (mode == some .gcm) := by
  match algo, hmap with
  | some .des, _ | some .tripleDES, _ | some .aes, _ | some .sm4, _ => rfl

/-- Two wrappers of one cipher. -/
theorem exists_of_map_eq_ok {ε α : Type} {x : Except ε α} {f g : α → BlockMode}
    (he : x.map f = .ok e) (hd : x.map g = .ok d) : ∃ a, x = .ok a ∧ f a = e ∧ g a = d := by
  obtain ⟨a, ha, rfl⟩ := except_map_eq_ok.mp he
  obtain ⟨a', ha', rfl⟩ := except_map_eq_ok.mp hd
  obtain rfl := Except.ok.inj (ha.symm.trans ha')
  exact ⟨a, ha, rfl, rfl⟩

/-- A stream is one of an AEAD or one of a key stream. -/
theorem stream_cases (he : newEncFunc lib algo mode key iv = .ok e)
    (hd : newDecFunc lib algo mode key iv = .ok d) :
    (authenticated algo mode = true ∧ ∃ a m, aeadOf lib algo key = .ok a ∧
      e = aeadEncryptWrapper lib a defaultBlockSize m ∧
      d = aeadDecryptWrapper a defaultBlockSize m) ∨
    authenticated algo mode = false ∧ KeyPair e d := by
  obtain ⟨he, hstream⟩ := bind_checkStream_eq_ok.mp he
  obtain ⟨hd, -⟩ := bind_checkStream_eq_ok.mp hd
  rw [getEncrypter] at he
  rw [getDecrypter] at hd
  rw [aeadOf]
  cases hmap : cipherBlockMapping lib algo with
  | some newCipher =>
    rw [hmap] at he hd
    rw [authenticated_of_block hmap]
    dsimp only at he hd
    cases hb : newCipher key with
    | error f =>
      rw [hb] at he
      cases he
    | ok b =>
    rw [hb] at he hd
    rcases mode with - | mode
    · cases he
    cases mode with
    | stream => cases he
    | ecb =>
      cases he
      cases hstream
    | cbc =>
      obtain rfl := withIV_eq_ok he
      cases hstream
    | cfb =>
      obtain rfl := withIV_eq_ok he
      obtain rfl := withIV_eq_ok hd
      exact .inr ⟨rfl, .feedback b iv⟩
    | ctr | ofb =>
      obtain rfl := withIV_eq_ok he
      obtain rfl := withIV_eq_ok hd
      exact .inr ⟨rfl, .keyed _ rfl⟩
    | gcm =>
      obtain ⟨a, ha, rfl, rfl⟩ := exists_of_map_eq_ok he hd
      have hsize := (newGCM_eq_ok.mp ha).1
      have haead := (congrArg (·.bind (newGCM lib)) hb).trans ha
      refine .inl ⟨rfl, a, .gcm, haead, ?_, ?_⟩ <;> rw [hsize] <;> rfl
  | none =>
    rw [hmap] at he hd
    rcases algo with - | algo
    · cases he
    cases algo with
    | des | tripleDES | aes | sm4 => cases he
    | rc4 =>
      obtain ⟨stream, hkey, rfl, rfl⟩ := exists_of_map_eq_ok he hd
      exact .inr ⟨rfl, .rc4 stream⟩
    | chaCha20poly1305 | xChaCha20poly1305 =>
      obtain ⟨a, ha, rfl, rfl⟩ := exists_of_map_eq_ok he hd
      exact .inl ⟨rfl, a, .stream, ha, rfl, rfl⟩

/-! ## Flushes -/

/-- A wrapper that computes a function and does not show where its input was cut. -/
structure BlockMode.Seamless (bm : BlockMode) (f : bm.State → Bytes → Bytes × bm.State) : Prop where
  ok : ∀ st src, bm.cryptBlocks st src = .ok (f st src)
  nil : ∀ st, f st [] = ([], st)
  append : ∀ st xs ys,
    f st (xs ++ ys) = ((f st xs).1 ++ (f (f st xs).2 ys).1, (f (f st xs).2 ys).2)

theorem seamless_wrapStream (key : Nat → UInt8) (mode : CipherMode) : (wrapStream key mode).Seamless
    fun (pos : Nat) src => (xorKeyStream key pos src, pos + src.length) where
  ok _ _ := rfl
  nil _ := rfl
  append (pos : Nat) xs ys := by
    refine Prod.ext (xorKeyStream_append key pos xs ys) ?_
    show pos + (xs ++ ys).length = pos + xs.length + ys.length
    rw [List.length_append, Nat.add_assoc]

theorem cfbXor_append (b : Block) (isEncoder : Bool) : ∀ (s : Feedback) (xs ys : Bytes),
    cfbXor b isEncoder s (xs ++ ys) =
      ((cfbXor b isEncoder s xs).1 ++ (cfbXor b isEncoder (cfbXor b isEncoder s xs).2 ys).1,
        (cfbXor b isEncoder (cfbXor b isEncoder s xs).2 ys).2)
  | _, [], _ => rfl
  | s, x :: xs, ys => by
    simp only [List.cons_append, cfbXor, cfbXor_append b isEncoder _ xs ys]

theorem seamless_wrapCFB (b : Block) (iv : Bytes) (isEncoder : Bool) :
    (wrapCFB b iv isEncoder).Seamless (cfbXor b isEncoder) :=
  ⟨fun _ _ => rfl, fun _ => rfl, cfbXor_append b isEncoder⟩

/-- Whatever the chunks, they are encrypted as all at once. -/
theorem BlockMode.Seamless.transduce {f : bm.State → Bytes → Bytes × bm.State}
    (h : bm.Seamless f) : ∀ (bs : List Bytes) (st : bm.State),
    (Lib.transduce bm.cryptBlocks st bs).map List.flatten = .ok (f st bs.flatten).1
  | [], st => by
    rw [List.flatten_nil, h.nil]
    rfl
  | b :: bs, st => by
    obtain ⟨cs, hcs, hflatten⟩ := except_map_eq_ok.mp (h.transduce bs (f st b).2)
    rw [transduce_cons_eq_ok.mpr ⟨_, _, cs, h.ok st b, hcs, rfl⟩, List.flatten_cons, h.append,
      ← hflatten]
    rfl

namespace Enc

/-- Every flush comes at the end of a chunk, or behind the last byte. -/
def FlushesWhole (size : Nat) (calls : List Call) : Prop :=
  ∀ before after, calls = before ++ .flush :: after →
    size ∣ (written before).length ∨ written after = []

theorem lead_append_behind (hpos : 0 < size) : ∀ calls : List Call,
    lead calls ++ (behind size calls).flatten = written calls
  | [] => rfl
  | .write p :: calls => by
    rw [lead, behind, written, List.append_assoc, lead_append_behind hpos calls]
  | .flush :: calls => by
    rw [lead, behind, written, List.flatten_append, (chunks_spec hpos _).2, List.nil_append,
      lead_append_behind hpos calls]

theorem behind_of_silent : ∀ {calls : List Call}, written calls = [] →
    lead calls = [] ∧ behind size calls = []
  | [], _ => ⟨rfl, rfl⟩
  | .write p :: calls, h => by
    obtain ⟨hp, hrest⟩ := List.append_eq_nil_iff.mp h
    obtain ⟨hlead, hbehind⟩ := @behind_of_silent size _ hrest
    exact ⟨by rw [lead, hp, hlead]; rfl, hbehind⟩
  | .flush :: calls, h => by
    obtain ⟨hlead, hbehind⟩ := @behind_of_silent size calls h
    exact ⟨rfl, by rw [behind, hlead, hbehind]; rfl⟩

theorem chunks_of_flushesWhole (hpos : 0 < size) : ∀ (calls : List Call) (acc : Bytes),
    (∀ before after, calls = before ++ .flush :: after →
      size ∣ (acc ++ written before).length ∨ written after = []) →
    chunks size (acc ++ lead calls) ++ behind size calls = chunks size (acc ++ written calls)
  | [], acc, _ => List.append_nil _
  | .write p :: calls, acc, h => by
    rw [lead, written, behind, ← List.append_assoc, ← List.append_assoc]
    refine chunks_of_flushesWhole hpos calls (acc ++ p) fun before after heq => ?_
    rw [List.append_assoc]
    exact h (.write p :: before) after (congrArg _ heq)
  | .flush :: calls, acc, h => by
    rw [lead, written, behind, List.append_nil]
    rcases h [] calls rfl with hdvd | hsilent
    · rw [written, List.append_nil] at hdvd
      have hrest := chunks_of_flushesWhole hpos calls [] fun before after heq => by
        refine (h (.flush :: before) after (congrArg _ heq)).imp_left fun hwhole => ?_
        rw [List.length_append] at hwhole
        exact (Nat.dvd_add_right hdvd).mp hwhole
      rw [List.nil_append, List.nil_append] at hrest
      rw [hrest, chunks_append_of_dvd hpos hdvd]
    · obtain ⟨hlead, hbehind⟩ := @behind_of_silent size _ hsilent
      rw [hlead, hbehind, hsilent, List.append_nil, List.append_nil]
      exact List.append_nil _

/-- The chunks that are encrypted in a run. -/
def cuts (size : Nat) (calls : List Call) : List Bytes := chunks size (lead calls) ++ behind size calls

theorem flatten_cuts (hpos : 0 < size) (calls : List Call) :
    (cuts size calls).flatten = written calls := by
  rw [cuts, List.flatten_append, (chunks_spec hpos _).2, lead_append_behind hpos]

theorem cuts_append_flush (size : Nat) : ∀ before after : List Call,
    lead (before ++ .flush :: after) = lead before ∧
      behind size (before ++ .flush :: after) = behind size before ++ cuts size after
  | [], _ => ⟨rfl, rfl⟩
  | .write p :: before, after => by
    obtain ⟨hlead, hbehind⟩ := cuts_append_flush size before after
    exact ⟨congrArg (p ++ ·) hlead, hbehind⟩
  | .flush :: before, after => by
    obtain ⟨hlead, hbehind⟩ := cuts_append_flush size before after
    refine ⟨rfl, ?_⟩
    rw [List.cons_append, behind, behind, hlead, hbehind, List.append_assoc]

/-- The chunks of a run are those of its bytes exactly if no flush cuts one short. -/
theorem aligned_cuts_iff (hpos : 0 < size) (calls : List Call) :
    Aligned size (cuts size calls) ↔ FlushesWhole size calls := by
  constructor
  · rintro h before after rfl
    obtain ⟨hlead, hbehind⟩ := cuts_append_flush size before after
    rw [cuts, hlead, hbehind, ← List.append_assoc] at h
    rw [← flatten_cuts hpos before, ← flatten_cuts hpos after]
    rcases h.full_or_nil with hfull | hnil
    · exact .inl (dvd_length_flatten hfull)
    · exact .inr (by rw [hnil]; rfl)
  · intro h
    have hcuts := chunks_of_flushesWhole hpos calls [] h
    rw [List.nil_append, List.nil_append] at hcuts
    rw [cuts, hcuts]
    exact (chunks_spec hpos _).1

/-- A run encrypts the parts between its flushes, cut into chunks. -/
theorem run_new {w : Sink} (hw : w ≠ .plain) (hpos : 0 < bm.plainBlockSize) (calls : List Call) :
    (new bm).run w calls = some ((transduce bm.cryptBlocks bm.start
      (cuts bm.plainBlockSize calls)).map List.flatten) := by
  rw [run_eq_ends hw hpos _ _ ⟨List.length_replicate, hpos⟩]
  rfl

end Enc

/-- Flushes do not show in the ciphertext of a key stream. -/
theorem KeyPair.run_eq (h : KeyPair e d) {w : Sink} (hw : w ≠ .plain) (calls : List Enc.Call) :
    (Enc.new e).run w calls = some (encrypt e (Enc.written calls)) := by
  have hseamless : ∀ {bm : BlockMode} {f}, bm.Buffered → bm.Seamless f →
      (Enc.new bm).run w calls = some (encrypt bm (Enc.written calls)) := by
    intro bm f hbuffered h
    rw [Enc.run_new hw hbuffered.plain_pos, hbuffered.encrypt_eq, transduceAll, h.transduce,
      h.transduce, Enc.flatten_cuts hbuffered.plain_pos, (chunks_spec hbuffered.plain_pos _).2]
  cases h with
  | feedback b iv => exact hseamless (buffered_wrapCFB b iv true) (seamless_wrapCFB b iv true)
  | keyed key h => exact hseamless (buffered_wrapStream key _) (seamless_wrapStream key _)
  | rc4 key =>
    rw [Enc.run_keyed hw rfl (fun st p => ⟨_, cryptPiece_rc4 key st p, rfl⟩) _ _ rfl, encrypt_rc4]
    rfl

/-- Such a pair streams, and decryption inverts encryption. -/
theorem KeyPair.inverts (h : KeyPair e d) (src : Bytes) :
    d.Streams ∧ ∃ out, encrypt e src = .ok out ∧ decrypt d out = .ok src := by
  have hout : ∀ {e d : BlockMode} {R k}, Paired e d R k → shouldPadding e.mode = false →
      (∀ st b, ∃ r, e.cryptBlocks st b = .ok r) →
      ∃ out, encrypt e src = .ok out ∧ decrypt d out = .ok src := by
    intro e d R k hpaired hpad htotal
    have hpadded : e.Padded src := fun h => absurd h (by simp [hpad])
    obtain ⟨out, hout⟩ := hpaired.encrypt_total (fun b _ st => htotal st b) hpadded
    exact ⟨out, hout, hpaired.decrypt_encrypt hpadded hout⟩
  cases h with
  | feedback b iv =>
    exact ⟨.inl (buffered_wrapCFB b iv false), hout (paired_cfb b iv) rfl fun _ _ => ⟨_, rfl⟩⟩
  | keyed key h =>
    exact ⟨.inl (buffered_wrapStream key _), hout (paired_wrapStream key h) h fun _ _ => ⟨_, rfl⟩⟩
  | rc4 key => exact ⟨.inr ⟨key, rfl⟩, hout (paired_rc4 key) rfl fun _ _ => ⟨_, rfl⟩⟩

section

variable {a : AEAD} {log : List (Bytes × Bytes)} (hideal : a.Ideal log)
  (hlog : ∀ call ∈ log, call.1.length = a.nonceSize ∧ call.2 ≠ [])
  (hfresh : (log.map Prod.fst).Nodup)
include hideal hlog hfresh

omit hfresh in
theorem written_ne_nil {call : Bytes × Bytes} (hcall : call ∈ log) : a.written call ≠ [] := by
  have := length_written hideal hlog hcall
  have := List.length_pos_iff.mpr (hlog call hcall).2
  exact List.ne_nil_of_length_pos (by omega)

/-- What was sealed under nonces of their own is told by its ciphertext. -/
theorem written_injective : ∀ {xs ys : List (Bytes × Bytes)}, (∀ x ∈ xs, x ∈ log) →
    (∀ y ∈ ys, y ∈ log) → (xs.map a.written).flatten = (ys.map a.written).flatten → xs = ys
  | [], [], _, _, _ => rfl
  | x :: _, [], hxs, _, h => by
    have hne := written_ne_nil hideal hlog (hxs x List.mem_cons_self)
    exact absurd (List.append_eq_nil_iff.mp h).1 hne
  | [], y :: _, _, hys, h => by
    have hne := written_ne_nil hideal hlog (hys y List.mem_cons_self)
    exact absurd (List.append_eq_nil_iff.mp h.symm).1 hne
  | x :: xs, y :: ys, hxs, hys, h => by
    obtain ⟨hx, hxs'⟩ := List.forall_mem_cons.mp hxs
    obtain ⟨hy, hys'⟩ := List.forall_mem_cons.mp hys
    simp only [List.map_cons, List.flatten_cons] at h
    have hnonce : x.1 = y.1 := by
      simp only [AEAD.written, List.append_assoc] at h
      exact (List.append_inj h ((hlog x hx).1.trans (hlog y hy).1.symm)).1
    obtain rfl := List.inj_on_of_nodup_map hfresh hx hy hnonce
    exact congrArg (x :: ·) (written_injective hxs' hys' (List.append_cancel_left h))

/-- The whole log is read again exactly if its chunks are full up to the last. -/
theorem splice_log_iff :
    Splice a log (log.map a.written).flatten (log.map Prod.snd).flatten ↔
      Aligned fullChunk (log.map Prod.snd) := by
  constructor
  · rintro ⟨calls, hcalls, haligned, hsrc, -⟩
    rwa [written_injective hideal hlog hfresh (fun _ h => h) hcalls hsrc]
  · exact fun h => ⟨log, fun _ h => h, h, rfl, rfl⟩

end

/-- What is sealed in a run. -/
def Enc.log (lib : Library) (a : AEAD) (calls : List Call) : List (Bytes × Bytes) :=
  sealCalls lib.random a.nonceSize 0 (cuts fullChunk calls)

theorem Enc.cuts_bounds (calls : List Call) :
    ∀ p ∈ cuts fullChunk calls, p ≠ [] ∧ p.length ≤ fullChunk := by
  have hchunks := fun xs : Bytes => (chunks_spec fullChunk_pos xs).1.ne_nil fullChunk_pos
  suffices h : ∀ calls, ∀ p ∈ behind fullChunk calls, p ≠ [] ∧ p.length ≤ fullChunk by
    intro p hp
    exact (List.mem_append.mp hp).elim (hchunks _ p) (h calls p)
  intro calls
  induction calls with
  | nil => nofun
  | cons c calls ih =>
    cases c with
    | write _ => exact ih
    | flush => exact fun p hp => (List.mem_append.mp hp).elim (hchunks _ p) (ih p)

/-- What is written between any flushes is read again exactly if `Close` does not panic on the
writer below and, with the AEADs, every flush comes at the end of a chunk or behind the last byte.
There an AEAD is taken to open nothing but what was sealed in the run, under nonces of their
own. -/
theorem flushed_is_read_iff (lib : Library) (hrandom : lib.RandomReads)
    (hlength : ∀ i n bs, lib.random i n = .ok bs → bs.length = n)
    (algo : Option CipherAlgorithm) (mode : Option CipherMode) (key iv : Bytes) (e d : BlockMode)
    (he : newEncFunc lib algo mode key iv = .ok e) (hd : newDecFunc lib algo mode key iv = .ok d)
    (w : Sink) (calls : List Enc.Call)
    (hideal : authenticated algo mode = true → ∀ a, aeadOf lib algo key = .ok a →
      a.Ideal (Enc.log lib a calls) ∧ ((Enc.log lib a calls).map Prod.fst).Nodup) :
    (∃ out, (Enc.new e).run w calls = some (.ok out) ∧ Reads d out (Enc.written calls)) ↔
      w ≠ .plain ∧ (authenticated algo mode = true → Enc.FlushesWhole fullChunk calls) := by
  by_cases hw : w = .plain
  · subst hw
    refine iff_of_false ?_ fun h => h.1 rfl
    rintro ⟨out, hout, -⟩
    exact Enc.run_plain_ne_ok _ _ hout
  rw [and_iff_right hw]
  have hstream := (bind_checkStream_eq_ok.mp he).2
  rcases stream_cases he hd with ⟨hauth, a, m, ha, rfl, rfl⟩ | ⟨hauth, hpair⟩
  · obtain ⟨hideal, hfresh⟩ := hideal hauth a ha
    have hbuffered := buffered_aeadDecryptWrapper a (by decide : 0 < defaultBlockSize) m
    have hbounds := Enc.cuts_bounds calls
    have hlog : ∀ call ∈ Enc.log lib a calls, call.1.length = a.nonceSize ∧ call.2 ≠ [] := by
      intro call hcall
      obtain ⟨⟨j, hnonce⟩, hmem⟩ := mem_sealCalls hcall
      exact ⟨hlength _ _ _ hnonce, (hbounds _ hmem).1⟩
    obtain ⟨cs, hcs⟩ := transduce_total (s := (0 : Nat)) fun p hp st =>
      total_aead hrandom a defaultBlockSize m p
        ⟨(hbounds p hp).1, fun _ => (hbounds p hp).2, fun h => absurd h
          (by rw [shouldPadding_of_supportStream hstream]; exact Bool.false_ne_true)⟩ st
    obtain ⟨rfl, hsnd⟩ := transduce_seal hbounds hcs
    have hrun : (Enc.new (aeadEncryptWrapper lib a defaultBlockSize m)).run w calls =
        some (.ok ((Enc.log lib a calls).map a.written).flatten) :=
      (Enc.run_new hw fullChunk_pos calls).trans (congrArg (some <| ·.map List.flatten) hcs)
    have hwritten : Enc.written calls = ((Enc.log lib a calls).map Prod.snd).flatten := by
      rw [Enc.log, hsnd, Enc.flatten_cuts fullChunk_pos]
    calc (∃ out, (Enc.new (aeadEncryptWrapper lib a defaultBlockSize m)).run w calls =
            some (.ok out) ∧ Reads (aeadDecryptWrapper a defaultBlockSize m) out (Enc.written calls))
        ↔ Splice a (Enc.log lib a calls) ((Enc.log lib a calls).map a.written).flatten
            ((Enc.log lib a calls).map Prod.snd).flatten := by
          simp only [hrun, hwritten, reads_iff_decrypt (.inl hbuffered),
            decrypt_eq_ok_iff_splice hideal hlog]
          simp
      _ ↔ Aligned fullChunk (Enc.cuts fullChunk calls) := by
          rw [splice_log_iff hideal hlog hfresh, Enc.log, hsnd]
      _ ↔ (authenticated algo mode = true → Enc.FlushesWhole fullChunk calls) := by
          rw [Enc.aligned_cuts_iff fullChunk_pos, forall_prop_of_true hauth]
  · obtain ⟨hstreams, out, hout, hdec⟩ := hpair.inverts (Enc.written calls)
    refine iff_of_true ⟨out, ?_, (reads_iff_decrypt hstreams).mpr hdec⟩ (by simp [hauth])
    rw [hpair.run_eq hw, hout]

/-- Two bytes and a flush with GCM. -/
theorem flushed_hi_is_read : ∃ e d,
    newEncFunc (registering [(List.replicate 12 0, [104, 105])]) (some .aes) (some .gcm) zeroKey [] =
      .ok e ∧
    newDecFunc (registering [(List.replicate 12 0, [104, 105])]) (some .aes) (some .gcm) zeroKey [] =
      .ok d ∧
    ∃ out, (Enc.new e).run .closer [.write [104, 105], .flush] = some (.ok out) ∧
      Reads d out [104, 105] := by
  have hflush : Enc.FlushesWhole fullChunk [.write [104, 105], .flush] := by
    rintro (_ | ⟨c, _ | ⟨c', before⟩⟩) after heq
    · cases heq
    · cases heq
      exact .inr rfl
    · simp at heq
  refine ⟨_, _, rfl, rfl, (flushed_is_read_iff (registering [(List.replicate 12 0, [104, 105])])
    (fun _ _ => ⟨_, rfl⟩) mirrors_lawful.random (some .aes) (some .gcm) zeroKey [] _ _ rfl rfl
    .closer _ fun _ a ha => ?_).mpr ⟨by decide, fun _ => hflush⟩⟩
  obtain rfl := Except.ok.inj ha
  exact ⟨ideal_registered _, List.nodup_singleton _⟩

/-- A flush after the first of two bytes with GCM: no reader serves the two bytes. -/
theorem flush_between_not_read : ∃ e d,
    newEncFunc mirrors (some .aes) (some .gcm) zeroKey [] = .ok e ∧
    newDecFunc mirrors (some .aes) (some .gcm) zeroKey [] = .ok d ∧
    ∃ out, (Enc.new e).run .closer [.write [1], .flush, .write [2]] = some (.ok out) ∧
      ∀ plan sizes, readAll Dec.read sizes (Dec.new d ⟨out, plan, 0⟩) ≠ some ([1, 2], .eof) := by
  have hpos : 0 < 16 := by decide
  refine ⟨_, _, rfl, rfl, List.replicate 12 0 ++ ([1] ++ List.replicate 16 0) ++
    (List.replicate 12 1 ++ ([2] ++ List.replicate 16 0)), ?_, fun plan sizes hread => ?_⟩
  · exact (Enc.run_new (by decide) (by decide) _).trans rfl
  · have hdec := Dec.decrypt_of_readAll (.inl (buffered_aeadDecryptWrapper _ hpos .gcm)) hread
    cases hdec

/-! ## Bad ciphertext -/

/-- A call of a function of `DecryptBytesFunc`. -/
def decryptCall (bm : BlockMode) (src : Bytes) : Except Fault Bytes := do
  let dst ← decrypt bm src
  if shouldPadding bm.mode then pkcs7Unpad dst else .ok dst

/-- Opening under a nonce of the right length does not panic. -/
def Library.Opens (lib : Library) : Prop := ∀ a, Scheme.Provided lib a →
  ∀ nonce c p, nonce.length = a.nonceSize → a.openWith nonce c ≠ .error (.panic p)

theorem pkcs7Unpad_ne_panic (data : Bytes) (p : Utils.Panic) :
    pkcs7Unpad data ≠ .error (.panic p) := by
  rw [pkcs7Unpad]
  split
  · simp
  · dsimp only
    split
    · simp
    · split <;> simp

theorem panic_of_decryptCall
    (h : decryptCall bm src = .error (.panic p)) :
    ∃ st, ∃ c ∈ chunks (bm.chunkSize bm.cipherBlockSize src) src,
      bm.cryptBlocks st c = .error (.panic p) := by
  rw [decryptCall, decrypt, transduceAll] at h
  cases hrun : transduce bm.cryptBlocks bm.start (chunks (bm.chunkSize bm.cipherBlockSize src) src)
  with
  | error f =>
    rw [hrun] at h
    cases h
    exact exists_of_transduce_error hrun
  | ok cs =>
    rw [hrun] at h
    change (if shouldPadding bm.mode then pkcs7Unpad cs.flatten else .ok cs.flatten) = _ at h
    split at h
    · exact absurd h (pkcs7Unpad_ne_panic _ _)
    · cases h

/-- A wrapper that panics on parts of a block panics unless there are whole blocks. -/
theorem decryptCall_panics_iff_dvd (hpos : 0 < bm.cipherBlockSize)
    (hplain : bm.plainBlockSize = bm.cipherBlockSize)
    (hfull : ∀ st c, c.length = bm.cipherBlockSize → ∃ r, bm.cryptBlocks st c = .ok r)
    (hpart : ∀ st c, c.length ≠ bm.cipherBlockSize →
      bm.cryptBlocks st c = .error (.panic .raised)) (src : Bytes) :
    (∃ p, decryptCall bm src = .error (.panic p)) ↔ ¬ bm.cipherBlockSize ∣ src.length := by
  have hsize : bm.chunkSize bm.cipherBlockSize src = bm.cipherBlockSize :=
    if_pos ⟨by omega, by omega⟩
  obtain ⟨haligned, hflatten⟩ := chunks_spec hpos src
  constructor
  · rintro ⟨p, h⟩ hdvd
    obtain ⟨st, c, hc, hstep⟩ := panic_of_decryptCall h
    rw [hsize] at hc
    obtain ⟨r, hr⟩ := hfull st c (haligned.full (hflatten.symm ▸ hdvd) c hc)
    cases hr.symm.trans hstep
  · intro hdvd
    refine ⟨.raised, ?_⟩
    rw [decryptCall, decrypt, hsize, transduceAll]
    cases hrun : transduce bm.cryptBlocks bm.start (chunks bm.cipherBlockSize src) with
    | error f =>
      obtain ⟨st, c, hc, hstep⟩ := exists_of_transduce_error hrun
      by_cases hlen : c.length = bm.cipherBlockSize
      · obtain ⟨r, hr⟩ := hfull st c hlen
        cases hr.symm.trans hstep
      · cases (hpart st c hlen).symm.trans hstep
        rfl
    | ok cs =>
      refine absurd (hflatten ▸ dvd_length_flatten fun c hc => ?_) hdvd
      by_contra hlen
      obtain ⟨st, r, hstep⟩ := exists_of_transduce hrun c hc
      cases hstep.symm.trans (hpart st c hlen)

/-- A decrypter panics, in whatever state, exactly on a part of a block with ECB and CBC. -/
theorem decrypter_panics_iff (lib : Library) (hlib : lib.Lawful) (hopens : lib.Opens)
    (algo : Option CipherAlgorithm) (mode : Option CipherMode) (key iv : Bytes) (d : BlockMode)
    (hd : getDecrypter lib algo mode key iv = .ok d) :
    decryptBytesFunc lib algo mode key iv = .ok (decryptCall d) ∧
      ∀ st src, (∃ p, decryptCall (d.resume st) src = .error (.panic p)) ↔
        shouldPadding d.mode = true ∧ ¬ d.cipherBlockSize ∣ src.length := by
  refine ⟨by rw [decryptBytesFunc, hd]; rfl, fun st src => ?_⟩
  -- a wrapper that never panics, and does not pad
  have hnever : ∀ bm : BlockMode, shouldPadding bm.mode = false →
      (∀ st c p, bm.cryptBlocks st c ≠ .error (.panic p)) →
      ((∃ p, decryptCall bm src = .error (.panic p)) ↔
        shouldPadding bm.mode = true ∧ ¬ bm.cipherBlockSize ∣ src.length) := by
    intro bm hpad h
    refine iff_of_false ?_ (by simp [hpad])
    rintro ⟨p, hp⟩
    obtain ⟨st, c, -, hstep⟩ := panic_of_decryptCall hp
    exact h st c p hstep
  obtain ⟨s, hs, rfl⟩ := scheme_of_getDecrypter hlib hd
  cases s with
  | block b =>
    refine (decryptCall_panics_iff_dvd hs.size_bounds.1 rfl ?_ ?_ src).trans
      (and_iff_right (show shouldPadding .ecb = true from rfl)).symm
    · exact fun st c hc => ⟨_, if_pos hc⟩
    · exact fun st c hc => if_neg hc
  | chained b iv =>
    refine (decryptCall_panics_iff_dvd hs.1.size_bounds.1 rfl ?_ ?_ src).trans
      (and_iff_right (show shouldPadding .cbc = true from rfl)).symm
    · exact fun st c hc => ⟨_, if_pos hc⟩
    · exact fun st c hc => if_neg hc
  | feedback b iv | rc4 key => exact hnever _ rfl fun _ _ _ h => by cases h
  | keyed key mode =>
    refine hnever _ ?_ fun _ _ _ h => by cases h
    rcases hs with rfl | rfl <;> rfl
  | sealed a mode =>
    refine hnever _ (by rcases hs.2 with rfl | ⟨rfl, -⟩ <;> rfl) fun st c p hstep => ?_
    change (aeadDecryptWrapper a defaultBlockSize mode).cryptBlocks () c = _ at hstep
    simp only [aeadDecryptWrapper] at hstep
    split at hstep
    · cases hstep
    · split at hstep
      · cases hstep
      next hlong =>
        have hnonce : (c.take a.nonceSize).length = a.nonceSize :=
          List.length_take_of_le (by omega)
        have hopen := hopens a hs.1 _
          ((c.drop a.nonceSize).take (min (a.overhead + defaultBlockSize * blockSizeTimes)
            (c.length - a.nonceSize))) p hnonce
        cases hres : a.openWith (c.take a.nonceSize) _ with
        | error f =>
          rw [hres] at hstep hopen
          cases hstep
          exact hopen rfl
        | ok _ =>
          rw [hres] at hstep
          cases hstep

theorem mirrors_opens : mirrors.Opens := by
  rintro a (⟨b, -, -, rfl⟩ | ⟨key, ha | ha⟩)
  · nofun
  · cases ha
  · cases ha

/-- With CBC a block is taken and a part of one is not. -/
theorem cbc_panics_on_part : ∃ d,
    getDecrypter mirrors (some .aes) (some .cbc) zeroKey (List.replicate 16 7) = .ok d ∧
    (∃ p, decryptCall d (List.replicate 15 0) = .error (.panic p)) ∧
    ¬ ∃ p, decryptCall d (List.replicate 16 0) = .error (.panic p) := by
  refine ⟨_, rfl, ?_⟩
  have h := (decrypter_panics_iff mirrors mirrors_lawful mirrors_opens (some .aes) (some .cbc) zeroKey
    (List.replicate 16 7) _ rfl).2 (List.replicate 16 7)
  exact ⟨(h _).mpr ⟨rfl, by decide⟩, fun hp => ((h _).mp hp).2 (by decide)⟩

/-- One byte is given to a decrypter with ECB. -/
theorem ecb_byte_panics : ∃ dec,
    decryptBytesFunc mirrors (some .aes) (some .ecb) zeroKey [] = .ok dec ∧
    dec [0] = .error (.panic .raised) := ⟨_, rfl, rfl⟩

end Gofusion.Cipher
