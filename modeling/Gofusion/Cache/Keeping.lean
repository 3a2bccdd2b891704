import Gofusion.Cache.Loading

/-!
# What was set is read again

A run of the local cache is a list of calls, of losses, where an entry expires or is evicted, and
of writes to byte slices that `Get` returned.  So `Get` returns what was set exactly if the
conversion of a value to an entry and back gives the value again, and gives no part of the entry.
-/

namespace Gofusion.Cache

open Gofusion.Payload Gofusion.Utils Gofusion.Lib

variable {T O K : Type} [DecidableEq T]

/-! ## Runs of the local cache -/

/-- The state of a cache with the local provider. -/
abbrev Local (O : Type) := State (GoMap Text (Data O))

/-- The place in an entry of the byte slice that `Get` returns, if it is a part of the entry: it is
neither decompressed nor deserialized nor converted to a string. -/
def view (c : Cache T O K) (b : Bytes) : Option Nat :=
  match openFrame b with
  | .ok (some (inf, next)) =>
    match unsealSections c.codecs inf next with
    | .ok sections =>
      if inf[0]? = some 1 ∧ SerializeType.isValid ⟨inf.getD 1 0⟩ = false ∧
          CompressType.isValid ⟨inf.getD 2 0⟩ = false ∧ (c.valueType = .bytes ∨ c.valueType = .any)
        then some (b.length - sections.data.length)
        else none
    | .error _ => none
  | _ => none

/-- A write to the byte slice that `Get` returns for an inner key. -/
def overwrite (c : Cache T O K) (store : GoMap Text (Data O)) (inner : Text) (i : Nat) (x : UInt8) :
    GoMap Text (Data O) :=
  match store.lookup inner with
  | some (.bytes b) =>
    match c.view b with
    | some start => store.insert inner (.bytes (b.set (start + i) x))
    | none => store
  | _ => store

/-- A call, the loss of an entry that expires or is evicted, or a write to what `Get` returned for
a key. -/
inductive Event (O K : Type)
  | get (keys : List K) (cb : Option (Callback K O))
  | getAll (cb : Option (Callback K O))
  | set (kvs : GoMap K (Data O)) (opt : SetOption K)
  | del (keys : List K)
  | clear
  | lose (inner : Text)
  | write (k : K) (i : Nat) (x : UInt8)

section

variable [DecidableEq K]

/-- What an event does, with the inner keys that it stores or removes. -/
def step (c : Cache T O K) (s : Local O) : Event O K → Except Panic (Local O × List Text)
  | .get keys cb => do
    let o ← c.get gCache s keys cb
    return (o.state, o.stored)
  | .getAll cb => do
    let o ← c.getAll gCache s cb
    return (o.state, o.stored)
  | .set kvs opt => do
    let (_, stored, s) ← c.set gCache s kvs opt
    return (s, stored)
  | .del keys => do
    let (_, s) ← c.del gCache s keys
    return (s, keys.map c.convKeyToInner)
  | .clear => do
    let (_, s') ← c.clear gCache s
    return (s', s.visited)
  | .lose inner => .ok (⟨s.store.erase inner, s.visited⟩, [inner])
  | .write k i x => .ok (⟨c.overwrite s.store (c.convKeyToInner k) i x, s.visited⟩, [])

/-- A run, with all inner keys that it touches. -/
def run (c : Cache T O K) : Local O → List (Event O K) → Except Panic (Local O × List Text)
  | s, [] => .ok (s, [])
  | s, e :: es => do
    let (s, touched) ← c.step s e
    let (s, touched') ← run c s es
    return (s, touched ++ touched')

end

/-! ## Entries that are not touched stay -/

variable {s : Local O} {t : DataType T} {codecs : Codecs T O} {r : Unsealed O}

section

variable {c : Cache T O K} {inner : Text}

theorem lookup_union_of_not_mem {a b : GoMap Text (Data O)} (h : inner ∉ a.keys) :
    (a ∪ b).lookup inner = b.lookup inner := AList.lookup_union_right h

/-- Erased entries are gone, the others stay. -/
theorem lookup_foldl_erase (innerKeys : List Text) (store : GoMap Text (Data O)) :
    (innerKeys.foldl (fun store key => store.erase key) store).lookup inner =
      if inner ∈ innerKeys then none else store.lookup inner := by
  induction innerKeys generalizing store with
  | nil => rfl
  | cons key _ ih =>
    rw [List.foldl_cons, ih]
    by_cases hkey : inner = key
    · subst hkey
      simp
    · simp [hkey, AList.lookup_erase_ne hkey]

variable {innerKeys touched : List Text} {s' : Local O} {d : Data O}

omit [DecidableEq T] in
theorem delInner_frame {failure : List K} (h : c.delInner gCache s innerKeys = .ok (failure, s'))
    (hinner : inner ∉ innerKeys) : s'.store.lookup inner = s.store.lookup inner := by
  obtain ⟨ks, -, h⟩ := bind_eq_ok.mp h
  cases h
  exact (lookup_foldl_erase innerKeys s.store).trans (if_neg hinner)

/-- An entry that has a part which `Get` returns. -/
def Shared (c : Cache T O K) (d : Data O) : Prop :=
  ∃ b start, d = .bytes b ∧ c.view b = some start ∧ start < b.length

theorem lookup_overwrite {store : GoMap Text (Data O)} (hd : store.lookup inner = some d)
    (hshared : ¬c.Shared d) (inner' : Text) (i : Nat) (x : UInt8) :
    (c.overwrite store inner' i x).lookup inner = some d := by
  unfold overwrite
  split
  · next b hb =>
    split
    · next start hview =>
      by_cases hinner : inner = inner'
      · subst hinner
        obtain rfl := Option.some.inj (hd.symm.trans hb)
        -- the part is empty, so the write changes nothing
        have hend : b.length ≤ start := Nat.le_of_not_lt fun hlt => hshared ⟨b, start, rfl, hview, hlt⟩
        rw [List.set_eq_of_length_le (Nat.le_trans hend (Nat.le_add_right _ _)), AList.lookup_insert]
      · rw [AList.lookup_insert_ne hinner]
        exact hd
    · exact hd
  · exact hd

variable [DecidableEq K]

/-- A load changes no entry but those it stores. -/
theorem load_frame {store : GoMap Text (Data O)} {cb : Option (Callback K O)}
    {l : Loaded O K (GoMap Text (Data O))} (h : c.load gCache store innerKeys cb = .ok l)
    (hinner : inner ∉ l.stored) : l.store.lookup inner = store.lookup inner := by
  obtain ⟨kvs, failed, -, ⟨-, rfl⟩ | ⟨f, ks, innerVals, failed', -, -, -, rfl⟩⟩ := load_cases h
  · rfl
  · exact lookup_union_of_not_mem hinner

/-- An event keeps an entry that it neither stores nor removes, unless it can be written to. -/
theorem step_frame {e : Event O K} (h : c.step s e = .ok (s', touched)) (hinner : inner ∉ touched)
    (hd : s.store.lookup inner = some d) (hshared : ¬c.Shared d) :
    s'.store.lookup inner = some d := by
  refine Eq.trans ?_ hd
  cases e with
  | get keys cb =>
    obtain ⟨o, ho, h⟩ := bind_eq_ok.mp h
    obtain ⟨l, hl, ho⟩ := bind_eq_ok.mp ho
    cases h
    cases ho
    exact load_frame hl hinner
  | getAll cb =>
    obtain ⟨o, ho, h⟩ := bind_eq_ok.mp h
    obtain ⟨l, hl, ho⟩ := bind_eq_ok.mp ho
    obtain ⟨ks, -, ho⟩ := bind_eq_ok.mp ho
    cases h
    cases ho
    exact load_frame hl hinner
  | set kvs opt =>
    obtain ⟨⟨failure, stored, s₁⟩, hset, h⟩ := bind_eq_ok.mp h
    obtain ⟨⟨innerVals, failed⟩, -, hset⟩ := bind_eq_ok.mp hset
    obtain ⟨ks, -, hset⟩ := bind_eq_ok.mp hset
    cases h
    cases hset
    exact lookup_union_of_not_mem hinner
  | del keys =>
    obtain ⟨⟨failure, s₁⟩, hdel, h⟩ := bind_eq_ok.mp h
    cases h
    exact delInner_frame hdel hinner
  | clear =>
    obtain ⟨⟨failure, s₁⟩, hclear, h⟩ := bind_eq_ok.mp h
    cases h
    exact delInner_frame hclear hinner
  | lose key =>
    cases h
    exact AList.lookup_erase_ne (List.ne_of_not_mem_cons hinner)
  | write k i x =>
    cases h
    exact (lookup_overwrite hd hshared _ i x).trans hd.symm

/-- An entry that a run does not touch, and that nobody shares, stays. -/
theorem run_frame (h : c.run s es = .ok (s', touched)) (hinner : inner ∉ touched)
    (hd : s.store.lookup inner = some d) (hshared : ¬c.Shared d) :
    s'.store.lookup inner = some d := by
  induction es generalizing s touched with
  | nil => cases h; exact hd
  | cons e es ih =>
    obtain ⟨⟨s₁, touched₁⟩, hstep, h⟩ := bind_eq_ok.mp h
    obtain ⟨⟨s₂, touched₂⟩, hrun, h⟩ := bind_eq_ok.mp h
    cases h
    rw [List.mem_append, not_or] at hinner
    exact ih hrun hinner.2 (step_frame hstep hinner.1 hd hshared)

end

/-! ## Setting and getting one key -/

variable [DecidableEq K] in
/-- `Set` stores a value without a failure, and after any run that does not touch its entry
`Get` returns exactly this value. -/
def Keeps (c : Cache T O K) (k : K) (v : Data O) : Prop :=
  ∀ (s : Local O) (opt : SetOption K), ∃ stored s₁,
    c.set gCache s (AList.singleton k v) opt = .ok ([], stored, s₁) ∧
    ∀ es s₂ touched, c.run s₁ es = .ok (s₂, touched) → c.convKeyToInner k ∉ touched →
      ∃ o, c.get gCache s₂ [k] none = .ok o ∧ o.values = [v]

/-- A value is converted to an entry and back, and it is no part of the entry. -/
def StoredBack (c : Cache T O K) (v : Data O) : Prop :=
  ∃ d, c.convValToInner v = .ok (.ok d) ∧ c.convInnerToVal d = .ok (.ok v) ∧ ¬c.Shared d

/-! ### Entries with a part that is read -/

theorem data_length_lt (f : Frame) : f.data.length < f.bytes.length := by
  simp only [Frame.bytes, Frame.body, List.length_append, Frame.inf_length, leBytes_length,
    sealTypeLength]
  omega

/-- The data of a frame is read as it stands: the frame has the known version and a context that
decodes, its data is neither serialized nor compressed, and it is not converted. -/
structure Plain (c : Cache T O K) (f : Frame) : Prop where
  reads : f.Reads c.codecs
  serialize : SerializeType.isValid ⟨f.serializeType⟩ = false
  compress : CompressType.isValid ⟨f.compressType⟩ = false
  type : c.valueType = .bytes ∨ c.valueType = .any

section

variable {c : Cache T O K} {f : Frame}

/-- A part of the bytes of a frame that is read is its data. -/
theorem view_frame_iff (f : Frame) (start : Nat) : c.view f.bytes = some start ↔
    c.Plain f ∧ start + f.data.length = f.bytes.length := by
  have hlt := data_length_lt f
  have hplain : c.Plain f ↔ Returns (readContext c.codecs f.context) ∧ f.version = 1 ∧
      SerializeType.isValid ⟨f.serializeType⟩ = false ∧
      CompressType.isValid ⟨f.compressType⟩ = false ∧ (c.valueType = .bytes ∨ c.valueType = .any) :=
    ⟨fun h => ⟨h.reads.2, h.reads.1, h.serialize, h.compress, h.type⟩,
      fun h => ⟨⟨h.2.1, h.1⟩, h.2.2.1, h.2.2.2.1, h.2.2.2.2⟩⟩
  rw [hplain, view, f.openFrame]
  dsimp only
  rw [unsealSections_frame]
  cases readContext c.codecs f.context with
  | error e => simp [Except.map, Returns]
  | ok ctx =>
    dsimp only [Except.map]
    split
    · next h =>
      rw [Option.some.injEq]
      exact ⟨fun hstart => ⟨⟨returns_ok ctx, Option.some.inj h.1, h.2⟩, by omega⟩, fun h => by omega⟩
    · next h => exact iff_of_false (by simp) fun h' => h ⟨congrArg some h'.1.2.1, h'.1.2.2⟩

theorem exists_frame_of_view (h : c.view b = some start) : ∃ f : Frame, b = f.bytes := by
  by_cases hsealed : Sealed b
  · obtain ⟨inf, next, hinf, hnext, rfl⟩ := hsealed.split
    rw [view, openFrame_append hinf hnext] at h
    dsimp only at h
    split at h
    · next s hs =>
      obtain ⟨f, rfl, rfl⟩ := exists_frame_of_unsealSections hinf hs
      exact ⟨f, rfl⟩
    · cases h
  · rw [view, openFrame_of_not_sealed hsealed] at h
    cases h

theorem Plain.convInnerToVal (h : c.Plain f) :
    c.convInnerToVal (.bytes f.bytes) = .ok (.ok (.bytes f.data)) := by
  obtain ⟨hversion, ctx, hctx⟩ := h.reads
  have hconvert : convertBytes c.codecs f.data c.valueType = some (.bytes f.data) := by
    rcases h.type with htype | htype <;> rw [htype] <;> rfl
  have hr : unsealT c.codecs {} c.valueType f.bytes = .ok { ctx, dst := .bytes f.data, ok := true } := by
    rw [unsealT_frame _ _ _ hversion, hctx]
    change decodeV1T c.codecs c.valueType ⟨f.serializeType⟩ ⟨f.compressType⟩ _ = _
    simp [decodeV1T, decompressData, h.serialize, h.compress, hconvert]
  simp [Cache.convInnerToVal, unsealVal, hr, bind, Except.bind, pure, Except.pure]

def withData (f : Frame) (data : Bytes) : Frame := { f with data }

theorem set_bytes (f : Frame) (hstart : start + f.data.length = f.bytes.length) (i : Nat) (x : UInt8) :
    f.bytes.set (start + i) x = (withData f (f.data.set i x)).bytes := by
  obtain ⟨before, hbytes⟩ : ∃ before, ∀ data, (withData f data).bytes = before ++ data :=
    ⟨leBytes 4 sealMagicNumber ++ (f.inf ++ (f.encrypted ++ (prefixed 8 f.context ++
      (prefixed 8 f.structName ++ f.length)))), by simp [withData, Frame.bytes, Frame.body, Frame.inf]⟩
  have hself : f.bytes = before ++ f.data := hbytes f.data
  rw [hself, List.length_append, Nat.add_right_cancel_iff] at hstart
  rw [hself, hbytes, hstart, List.set_append_right _ _ (Nat.le_add_right _ _), Nat.add_sub_cancel_left]

/-- What is read of an entry that has a part which is read is not the entry. -/
theorem Shared.ne (h : c.Shared v) : c.convInnerToVal v ≠ .ok (.ok v) := by
  obtain ⟨b, start, rfl, hview, hlt⟩ := h
  obtain ⟨f, rfl⟩ := exists_frame_of_view hview
  obtain ⟨hplain, hstart⟩ := (view_frame_iff f start).mp hview
  rw [hplain.convInnerToVal]
  intro heq
  have hlength := congrArg List.length (Data.bytes.inj (Except.ok.inj (Except.ok.inj heq)))
  exact Nat.ne_of_lt (data_length_lt f) hlength

end

section

variable {c : Cache T O K} {k : K} {v d : Data O}

theorem set_singleton_ok (h : c.convValToInner v = .ok (.ok d)) (s : Local O) (opt : SetOption K) :
    ∃ stored s₁, c.set gCache s (AList.singleton k v) opt = .ok ([], stored, s₁) ∧
      s₁.store.lookup (c.convKeyToInner k) = some d := by
  have hmap : c.convMapToInner (AList.singleton k v) =
      .ok (AList.insert (c.convKeyToInner k) d ∅, []) := by
    simp only [convMapToInner, AList.singleton_entries, convEntriesToInner, h, bind, Except.bind]
    rfl
  refine ⟨_, _, bind_eq_ok.mpr ⟨_, hmap, rfl⟩, ?_⟩
  change (AList.insert (c.convKeyToInner k) d ∅ ∪ s.store).lookup (c.convKeyToInner k) = some d
  rw [lookup_union, AList.lookup_insert]
  rfl

theorem exists_of_set_singleton
    (h : c.set gCache s (AList.singleton k v) opt = .ok ([], stored, s₁)) :
    ∃ d, c.convValToInner v = .ok (.ok d) := by
  obtain ⟨⟨innerVals, failed⟩, hmap, h⟩ := bind_eq_ok.mp h
  obtain ⟨failure, hfailure, h⟩ := bind_eq_ok.mp h
  cases h
  obtain ⟨r, hr, hmap⟩ := bind_eq_ok.mp hmap
  cases r with
  | ok d => exact ⟨d, hr⟩
  | error e =>
    -- the key is among those that failed
    cases hmap
    rw [List.cons_append, List.mapM_cons] at hfailure
    obtain ⟨k', -, hfailure⟩ := bind_eq_ok.mp hfailure
    obtain ⟨ks, -, hfailure⟩ := bind_eq_ok.mp hfailure
    cases hfailure

theorem convInnerToVal_eq_ok_iff : c.convInnerToVal d = .ok (.ok v) ↔ c.valueOf d = some v := by
  unfold valueOf
  split
  · next v' hv' => simp [hv']
  · next hne => exact iff_of_false (hne v) (by simp)

/-- A part of an entry that is read can be written to, and then it is read otherwise. -/
theorem exists_write (hd : c.Shared d) (hv : c.convInnerToVal d = .ok (.ok v)) :
    ∃ i x, ∀ s : Local O, s.store.lookup (c.convKeyToInner k) = some d →
      ∃ d', (c.overwrite s.store (c.convKeyToInner k) i x).lookup (c.convKeyToInner k) = some d' ∧
        c.convInnerToVal d' ≠ .ok (.ok v) := by
  obtain ⟨b, start, rfl, hview, hlt⟩ := hd
  obtain ⟨f, rfl⟩ := exists_frame_of_view hview
  obtain ⟨hplain, hstart⟩ := (view_frame_iff f start).mp hview
  have hdata : 0 < f.data.length := by omega
  refine ⟨0, f.data[0] + 1, fun s hs => ⟨_, by simp only [overwrite, hs, hview]; exact AList.lookup_insert _, ?_⟩⟩
  have hplain' : c.Plain (withData f (f.data.set 0 (f.data[0] + 1))) :=
    ⟨hplain.reads, hplain.serialize, hplain.compress, hplain.type⟩
  rw [set_bytes f hstart, hplain'.convInnerToVal, ← hv, hplain.convInnerToVal]
  simp only [withData, ne_eq, Except.ok.injEq, Data.bytes.injEq]
  intro heq
  have hfirst := congrArg (·[0]?) heq
  simp [hdata] at hfirst

variable [DecidableEq K]

theorem get_eq_of_no_callback (hcb : c.callback = none) (s : Local O) (keys : List K) :
    c.get gCache s keys none =
      (c.convInnerToMap (gCache.cached s.store (keys.map c.convKeyToInner))).map fun r =>
        { values := keys.filterMap fun k => r.1.lookup k
          called := none
          stored := []
          state := ⟨s.store, s.visited ∪ keys.map c.convKeyToInner⟩ } := by
  rw [get, hcb, load]
  cases c.convInnerToMap (gCache.cached s.store (keys.map c.convKeyToInner)) <;> rfl

/-- What `Get` of one key returns. -/
theorem get_singleton_iff (hcb : c.callback = none)
    (hd : s.store.lookup (c.convKeyToInner k) = some d) :
    (∃ o, c.get gCache s [k] none = .ok o ∧ o.values = [v]) ↔
      ReadBack c k ∧ c.convInnerToVal d = .ok (.ok v) := by
  rw [get_eq_of_no_callback hcb, convInnerToVal_eq_ok_iff]
  constructor
  · rintro ⟨o, ho, hvalues⟩
    cases hconv : c.convInnerToMap (gCache.cached s.store ([k].map c.convKeyToInner)) with
    | error e => rw [hconv] at ho; cases ho
    | ok r =>
      rw [hconv] at ho
      cases ho
      have hlookup : r.1.lookup k = some v := by
        cases hr : r.1.lookup k <;> simp_all
      rw [lookup_convEntriesToMap hconv] at hlookup
      obtain ⟨⟨inner, d'⟩, hmem, hvalue⟩ := List.exists_of_findSome?_eq_some hlookup
      obtain ⟨hinner, hget⟩ := (mem_cached_iff _ _).mp hmem
      obtain rfl := List.mem_singleton.mp hinner
      have hback : ReadBack c k := readBack_of_valueFor hvalue
      obtain rfl := Option.some.inj (hd.symm.trans hget)
      exact ⟨hback, valueFor_readBack hback d ▸ hvalue⟩
  · rintro ⟨hback, hvalue⟩
    have hback' : ∀ k' ∈ [k], ReadBack c k' := by simpa using hback
    have hdecodes : c.Decodes gCache s.store [k] := by
      simp only [Decodes, List.mem_singleton, forall_eq]
      rintro d' hd'
      rw [← Option.some.inj (hd.symm.trans hd'), hvalue]
      rfl
    obtain ⟨kvs, failed, hconv⟩ := convInnerToMap_ok hback' hdecodes
    have hlookup := lookup_eq_served hback' hconv k List.mem_cons_self
    have hserved : c.served gCache s.store k = some v := by
      rw [served, show gCache.get s.store _ = _ from hd, Option.bind_some,
        valueFor_readBack hback, hvalue]
    rw [hconv]
    exact ⟨_, rfl, by simp [hlookup, hserved]⟩

/-- What was set is read again exactly if the key is read back and the value is stored and read
back. -/
theorem keeps_iff (hcb : c.callback = none) : c.Keeps k v ↔ ReadBack c k ∧ c.StoredBack v := by
  constructor
  · intro h
    obtain ⟨stored, s₁, hset, hget⟩ := h ⟨∅, []⟩ {}
    obtain ⟨d, hd⟩ := exists_of_set_singleton hset
    obtain ⟨stored', s₁', hset', hlookup⟩ := set_singleton_ok hd ⟨∅, []⟩ {}
    cases hset.symm.trans hset'
    obtain ⟨hback, hv⟩ := (get_singleton_iff hcb hlookup).mp (hget [] s₁ [] rfl List.not_mem_nil)
    refine ⟨hback, d, hd, hv, fun hshared => ?_⟩
    obtain ⟨i, x, hwrite⟩ := exists_write (k := k) hshared hv
    obtain ⟨d', hd', hne⟩ := hwrite s₁ hlookup
    exact hne ((get_singleton_iff hcb hd').mp (hget [.write k i x] _ [] rfl List.not_mem_nil)).2
  · rintro ⟨hback, d, hd, hv, hshared⟩ s opt
    obtain ⟨stored, s₁, hset, hlookup⟩ := set_singleton_ok (k := k) hd s opt
    refine ⟨stored, s₁, hset, fun es s₂ touched hrun htouched => ?_⟩
    exact (get_singleton_iff hcb (run_frame hrun htouched hlookup hshared)).mpr ⟨hback, hv⟩

end

/-! ## Values that are stored and read back -/

/-- A value of the value type.  A nil pointer is a value of an object type. -/
def Typed (c : Cache T O K) (v : Data O) : Prop :=
  match c.valueType, v with
  | .bytes, .bytes _ | .string, .string _ | .any, _ | .object _, .nil => True
  | .object t, .object o => c.codecs.type o = t
  | _, _ => False

/-- A serialize or a compress type is configured. -/
def Seals (c : Cache T O K) : Prop :=
  c.conf.serializeType.isValid = true ∨ c.conf.compressType.isValid = true

/-- The serializer and the compressor preserve a value. -/
structure Preserves (c : Cache T O K) (v : Data O) : Prop where
  serializer : ∀ o, v = .object o → ∃ m, c.codecs.marshal c.conf.serializeType o = .ok m ∧
    c.codecs.unmarshal c.conf.serializeType c.valueType m = .ok (.object o)
  compressor : ∀ m, marshalData c.codecs c.sealOptions v = .ok (.ok m) →
    ∃ out, c.codecs.compress c.conf.compressType m = .ok out ∧
      c.codecs.decompress c.conf.compressType out = .ok m

def rawBytes : Data O → Option Bytes
  | .bytes b | .string b => some b
  | _ => none

/-- The serializer or the compressor named in a frame makes a value of its data. -/
def Yields (c : Cache T O K) (f : Frame) (v : Data O) : Prop :=
  if SerializeType.isValid ⟨f.serializeType⟩ then
    ∃ m, (if CompressType.isValid ⟨f.compressType⟩ then
        c.codecs.decompress ⟨f.compressType⟩ f.data else .ok f.data) = .ok m ∧
      c.codecs.unmarshal ⟨f.serializeType⟩ c.valueType m = .ok v
  else
    CompressType.isValid ⟨f.compressType⟩ = true ∧
      ∃ m, c.codecs.decompress ⟨f.compressType⟩ f.data = .ok m ∧
        convertBytes c.codecs m c.valueType = some v

/-- The values that are read as they were set.  A sealed value must not be `nil`, a string in
a cache of `any` comes back as a byte slice, and a byte slice must be empty or compressed.  A value
that is stored as it is must not be `nil` in a cache of `any`, and must not begin like a sealed
payload, unless it is one whose own data yields it. -/
def Kept (c : Cache T O K) (v : Data O) : Prop :=
  (c.Seals → v ≠ .nil ∧ ¬(c.valueType = .any ∧ ∃ s, v = .string s) ∧
    (c.conf.compressType.isValid = false → ∀ b, v = .bytes b → b = [])) ∧
  (¬c.Seals → (c.valueType = .any → v ≠ .nil) ∧ ∀ b, rawBytes v = some b → Sealed b →
    ∃ f : Frame, b = f.bytes ∧ f.Reads c.codecs ∧ c.Yields f v)

section

variable {c : Cache T O K} {v : Data O} {m : Bytes}

section

omit [DecidableEq T]

theorem not_seals_iff : (!c.conf.serializeType.isValid && !c.conf.compressType.isValid) = true ↔
    ¬c.Seals := by
  simp [Seals]

theorem Seals.serializes (h : c.Seals) : c.conf.serializeType.isValid = true :=
  h.elim id c.conf.serializes

theorem marshalData_object (hseals : c.Seals) (o : O) :
    marshalData c.codecs c.sealOptions (.object o) =
      .ok (c.codecs.marshal c.conf.serializeType o) := if_pos hseals.serializes

theorem exists_marshalData (hseals : c.Seals) (h : c.Preserves v) (hnil : v ≠ .nil) :
    ∃ t m, typeOfData c.codecs v = .ok t ∧
      marshalData c.codecs c.sealOptions v = .ok (.ok m) := by
  cases v with
  | nil => exact absurd rfl hnil
  | bytes b | string b => exact ⟨_, _, rfl, rfl⟩
  | object o =>
    obtain ⟨m, hm, -⟩ := h.serializer o rfl
    exact ⟨_, m, rfl, by rw [marshalData_object hseals, hm]⟩

theorem exists_compressData (h : c.Preserves v)
    (hm : marshalData c.codecs c.sealOptions v = .ok (.ok m)) :
    ∃ out, compressData c.codecs c.sealOptions m = .ok out ∧
      decompressData c.codecs c.conf.compressType out = .ok m := by
  by_cases hvalid : c.conf.compressType.isValid = true
  · obtain ⟨out, hout, hback⟩ := h.compressor m hm
    refine ⟨out, (if_pos hvalid).trans hout, (if_pos hvalid).trans hback⟩
  · exact ⟨m, if_neg hvalid, if_neg hvalid⟩

theorem sealedFrame_reads : (sealedFrame c.codecs c.sealOptions t isRaw out).Reads c.codecs :=
  ⟨(sealedFrame_version_iff isRaw).mpr (by decide : (0 : UInt8) ≤ 1), none, rfl⟩

end

theorem assertType_typed (htyped : c.Typed v) (hnil : c.valueType = .any → v ≠ .nil) :
    c.assertType v = .ok v := by
  cases htype : c.valueType <;> cases v <;> simp_all [Typed, assertType]

theorem assertType_nil (h : c.valueType = .any) :
    c.assertType .nil = .error .typeAssertion := by
  simp [assertType, h]

/-- What is read of a frame whose context decodes. -/
theorem unsealVal_frame_iff {f : Frame} (hreads : f.Reads c.codecs) :
    c.unsealVal v f.bytes = .ok (.ok v') ↔
      ∃ m, decompressData c.codecs ⟨f.compressType⟩ f.data = .ok m ∧
        if SerializeType.isValid ⟨f.serializeType⟩ then
          c.codecs.unmarshal ⟨f.serializeType⟩ c.valueType m = .ok v'
        else convertBytes c.codecs m c.valueType = some v' := by
  obtain ⟨hversion, ctx, hctx⟩ := hreads
  have hr : unsealT c.codecs {} c.valueType f.bytes = decodeV1T c.codecs c.valueType
      ⟨f.serializeType⟩ ⟨f.compressType⟩ ⟨ctx, f.structName, f.data⟩ := by
    rw [unsealT_frame _ _ _ hversion, hctx]
    rfl
  rw [unsealVal, hr, decodeV1T]
  cases decompressData c.codecs ⟨f.compressType⟩ f.data with
  | error e => simp [bind, Except.bind, pure, Except.pure]
  | ok m =>
    dsimp only
    split
    · cases hu : c.codecs.unmarshal ⟨f.serializeType⟩ c.valueType m <;>
        simp [bind, Except.bind, pure, Except.pure, Unsealed.ofExcept, hu]
    · cases hb : convertBytes c.codecs m c.valueType <;>
        simp [bind, Except.bind, pure, Except.pure, hb]

/-- Data that is neither serialized nor compressed is shorter than its frame. -/
theorem unsealVal_self_iff {f : Frame} (hreads : f.Reads c.codecs) (hraw : rawBytes v = some f.bytes) :
    c.unsealVal v f.bytes = .ok (.ok v) ↔ c.Yields f v := by
  rw [unsealVal_frame_iff hreads, Yields, decompressData]
  by_cases hser : SerializeType.isValid ⟨f.serializeType⟩ = true
  · simp only [hser, if_true]
  · simp only [hser, Bool.false_eq_true, if_false]
    by_cases hcomp : CompressType.isValid ⟨f.compressType⟩ = true
    · simp only [hcomp, if_true, true_and]
    · simp only [hcomp, Bool.false_eq_true, if_false, false_and, iff_false, Except.ok.injEq,
        exists_eq_left']
      intro hconvert
      have hself : f.data = f.bytes := by
        cases htype : c.valueType <;> rw [htype] at hconvert
        case object =>
          obtain ⟨o, -, rfl⟩ := Option.map_eq_some_iff.mp hconvert
          cases hraw
        all_goals
          cases hconvert
          exact Option.some.inj hraw
      exact Nat.ne_of_lt (data_length_lt f) (congrArg List.length hself)

/-- Bytes are read as they are, unless they begin like a sealed payload. -/
theorem unsealVal_iff (hassert : c.assertType v = .ok v) (hraw : rawBytes v = some b) :
    c.unsealVal v b = .ok (.ok v) ↔ (Sealed b →
      ∃ f : Frame, b = f.bytes ∧ f.Reads c.codecs ∧ c.Yields f v) := by
  by_cases hsealed : Sealed b
  · simp only [hsealed, true_implies]
    constructor
    · intro h
      obtain ⟨r, hr, -⟩ := bind_eq_ok.mp h
      obtain ⟨f, rfl, hreads, -⟩ := (unsealT_returns_iff _ _).mp ⟨r, hr⟩ hsealed
      exact ⟨f, rfl, hreads, (unsealVal_self_iff hreads hraw).mp h⟩
    · rintro ⟨f, rfl, hreads, h⟩
      exact (unsealVal_self_iff hreads hraw).mpr h
  · have hr : unsealT c.codecs {} c.valueType b = .ok { dst := zeroOf c.codecs c.valueType } := by
      rw [unsealT, openFrame_of_not_sealed hsealed]
      rfl
    refine iff_of_true ?_ fun h => absurd h hsealed
    simp [unsealVal, hr, cloneVal, hassert, bind, Except.bind, pure, Except.pure]

theorem storedBack_plain_iff (hplain : ¬c.Seals) (htyped : c.Typed v) :
    c.StoredBack v ↔ (c.valueType = .any → v ≠ .nil) ∧ ∀ b, rawBytes v = some b → Sealed b →
      ∃ f : Frame, b = f.bytes ∧ f.Reads c.codecs ∧ c.Yields f v := by
  have hconv : c.convValToInner v = (c.assertType v).map .ok := by
    rw [convValToInner, if_pos (not_seals_iff.mpr hplain)]
    rfl
  by_cases hnil : ¬(c.valueType = .any → v ≠ .nil)
  · refine iff_of_false ?_ fun h => hnil h.1
    obtain ⟨hany, rfl⟩ : c.valueType = .any ∧ v = .nil := by simpa using hnil
    rintro ⟨d, hd, -⟩
    rw [hconv, assertType_nil hany] at hd
    cases hd
  rw [not_not] at hnil
  have hassert := assertType_typed htyped hnil
  have hstored : c.StoredBack v ↔ c.convInnerToVal v = .ok (.ok v) := by
    rw [hassert] at hconv
    refine ⟨?_, fun hv => ⟨v, hconv, hv, fun hshared => hshared.ne hv⟩⟩
    rintro ⟨d, hd, hv, -⟩
    exact (Except.ok.inj (Except.ok.inj (hconv.symm.trans hd))) ▸ hv
  rw [hstored, and_iff_right hnil]
  cases v with
  | nil | object o =>
    simp [convInnerToVal, cloneVal, hassert, rawBytes, bind, Except.bind, pure, Except.pure]
  | bytes b | string b =>
    rw [convInnerToVal, unsealVal_iff hassert rfl]
    simp [rawBytes]

/-- A sealed value is a part of its entry if it is raw, not compressed and not empty. -/
theorem shared_sealedFrame_iff (hseals : c.Seals) : c.Shared
    (.bytes (sealedFrame c.codecs c.sealOptions t isRaw out).bytes) ↔
      isRaw = true ∧ c.conf.compressType.isValid = false ∧
        (c.valueType = .bytes ∨ c.valueType = .any) ∧ out ≠ [] := by
  have hser : isRaw = true ↔ SerializeType.isValid
      ⟨(sealedFrame c.codecs c.sealOptions t isRaw out).serializeType⟩ = false := by
    cases isRaw with
    | true => exact iff_of_true rfl rfl
    | false => exact iff_of_false Bool.false_ne_true (ne_of_eq_of_ne hseals.serializes (by decide))
  constructor
  · rintro ⟨b, start, ⟨rfl⟩, hview, hlt⟩
    obtain ⟨hplain, hstart⟩ := (view_frame_iff _ _).mp hview
    refine ⟨hser.mpr hplain.serialize, hplain.compress, hplain.type, ?_⟩
    rintro rfl
    exact Nat.ne_of_lt hlt hstart
  · rintro ⟨hraw, hcompress, htype, hout⟩
    have hlt := data_length_lt (sealedFrame c.codecs c.sealOptions t isRaw out)
    have hpos : 0 < (sealedFrame c.codecs c.sealOptions t isRaw out).data.length :=
      List.length_pos_iff.mpr hout
    refine ⟨_, _, rfl, (view_frame_iff _ _).mpr ⟨⟨sealedFrame_reads, hser.mp hraw, hcompress, htype⟩,
      Nat.sub_add_cancel (Nat.le_of_lt hlt)⟩, by omega⟩

/-- A sealed value is unsealed.  Raw data is converted to the value type. -/
theorem storedBack_sealed_iff (hseals : c.Seals) (htyped : c.Typed v) (h : c.Preserves v) :
    c.StoredBack v ↔ v ≠ .nil ∧ ¬(c.valueType = .any ∧ ∃ s, v = .string s) ∧
      (c.conf.compressType.isValid = false → ∀ b, v = .bytes b → b = []) := by
  have hconv : c.convValToInner v =
      (sealData c.codecs c.sealOptions v).map fun r => r.map .bytes := by
    rw [convValToInner, if_neg (mt not_seals_iff.mp (not_not.mpr hseals))]
    rfl
  by_cases hnil : v = .nil
  · subst hnil
    refine iff_of_false ?_ fun h => h.1 rfl
    rintro ⟨d, hd, -⟩
    rw [hconv] at hd
    cases hd
  obtain ⟨t, m, ht, hm⟩ := exists_marshalData hseals h hnil
  obtain ⟨out, hout, hback⟩ := exists_compressData h hm
  rw [sealData_eq ht hm hout] at hconv
  have hstored : c.StoredBack v ↔
      c.unsealVal (.bytes (sealedFrame c.codecs c.sealOptions t v.isRaw out).bytes)
        (sealedFrame c.codecs c.sealOptions t v.isRaw out).bytes = .ok (.ok v) ∧
      ¬c.Shared (.bytes (sealedFrame c.codecs c.sealOptions t v.isRaw out).bytes) := by
    refine ⟨fun ⟨d, hd, hv⟩ => ?_, fun hv => ⟨_, hconv, hv⟩⟩
    cases hconv.symm.trans hd
    exact hv
  have hread : ∀ v', c.unsealVal (.bytes (sealedFrame c.codecs c.sealOptions t v.isRaw out).bytes)
      (sealedFrame c.codecs c.sealOptions t v.isRaw out).bytes = .ok (.ok v') ↔
      if v.isRaw then convertBytes c.codecs m c.valueType = some v'
        else c.codecs.unmarshal c.conf.serializeType c.valueType m = .ok v' := by
    intro v'
    rw [unsealVal_frame_iff sealedFrame_reads]
    change (∃ m', decompressData c.codecs c.conf.compressType out = .ok m' ∧ _) ↔ _
    simp only [hback, Except.ok.injEq, exists_eq_left']
    cases v.isRaw with
    | true => rfl
    | false => exact iff_of_eq (if_pos hseals.serializes)
  rw [hstored, hread, shared_sealedFrame_iff hseals, and_iff_right hnil]
  cases v with
  | nil => exact absurd rfl hnil
  | object o =>
    obtain ⟨m', hm', hu⟩ := h.serializer o rfl
    rw [marshalData_object hseals, hm'] at hm
    cases hm
    simp [Data.isRaw, hu]
  | bytes b =>
    cases hm
    have hsame : c.conf.compressType.isValid = false → out = m := fun hinvalid =>
      (Except.ok.inj ((if_neg (by simp [sealOptions, hinvalid])).symm.trans hout)).symm
    cases htype : c.valueType <;> simp_all [Typed, Data.isRaw, convertBytes]
  | string b =>
    cases hm
    cases htype : c.valueType <;> simp_all [Typed, Data.isRaw, convertBytes]

end

section

variable [DecidableEq K]

/-- What was set is read again, while its entry is not touched, exactly if the key is read back
from its inner key and the value is one of those that are kept. -/
theorem cache_returns_set_iff (c : Cache T O K) (k : K) (v : Data O) (hcb : c.callback = none)
    (htyped : c.Typed v) (hcodecs : c.Preserves v) : c.Keeps k v ↔ ReadBack c k ∧ c.Kept v := by
  rw [keeps_iff hcb]
  refine and_congr_right fun _ => ?_
  by_cases hseals : c.Seals
  · rw [storedBack_sealed_iff hseals htyped hcodecs]
    exact ⟨fun h => ⟨fun _ => h, fun hnot => absurd hseals hnot⟩, fun h => h.1 hseals⟩
  · rw [storedBack_plain_iff hseals htyped]
    exact ⟨fun h => ⟨fun hnot => absurd hnot hseals, fun _ => h⟩, fun h => h.2 hseals⟩

end

/-! ## A string that begins like a payload -/

/-- A cache of strings without serialization and compression. -/
def plainStrings : Cache Unit Unit Text := { strings with codecs := plainCodecs }

theorem plainStrings_keeps_hi : plainStrings.Keeps ['a'] (.string (ascii "hi")) := by
  refine (cache_returns_set_iff plainStrings ['a'] (.string (ascii "hi")) rfl trivial ?_).mpr
    ⟨rfl, ?_, ?_⟩
  · exact ⟨nofun, fun m hm => ⟨m, rfl, rfl⟩⟩
  · rintro (h | h) <;> cases h
  · refine fun _ => ⟨nofun, ?_⟩
    rintro b ⟨rfl⟩ ⟨hlength, -⟩
    exact absurd hlength (by decide)

/-- The bytes of a sealed payload, as a string. -/
def sealedHi : Data Unit :=
  .string (sealedFrame plainCodecs ({} : Options Unit) .string true (ascii "hi")).bytes

/-- After `Set` with this string `Get` returns `hi`. -/
theorem plainStrings_unseals_hi : ¬plainStrings.Keeps ['a'] sealedHi := by
  intro h
  obtain ⟨stored, s₁, ⟨rfl⟩, hget⟩ := h ⟨∅, []⟩ {}
  obtain ⟨o, ⟨rfl⟩, hvalues⟩ := hget [] _ [] rfl List.not_mem_nil
  exact absurd hvalues (by decide)

end Gofusion.Cache
