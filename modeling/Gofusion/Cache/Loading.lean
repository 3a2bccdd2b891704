import Gofusion.Cache.Basic
import Gofusion.Payload.RoundTrip

/-!
# Which keys are loaded

`Get` asks the callback for the keys that the provider does not have.  A key whose entry cannot
be decoded is not among them.  So it is complete exactly if every entry it finds can be decoded.
-/

namespace Gofusion.Cache

open Gofusion.Payload Gofusion.Utils Gofusion.Lib

variable {T O K σ : Type}

/-! ## Inner keys -/

variable {k : K} {innerKeys : List Text} {d : Data O}

section

variable (c : Cache T O K)

def ReadBack (k : K) : Prop := c.convInnerToKey (c.convKeyToInner k) = .ok k

theorem convInnerToKey_convKeyToInner (k : K) :
    c.convInnerToKey (c.convKeyToInner k) = c.keys.ofText (c.keys.toText k) := by
  have htrim : trimHead c.head (c.head ++ c.keys.toText k) = c.keys.toText k := by
    rw [trimHead, if_pos (List.isPrefixOf_iff_prefix.mpr (List.prefix_append ..)),
      List.drop_left]
  rw [convInnerToKey, convKeyToInner, htrim]

variable {c}

variable {k' : K}

/-- Only keys that are read back come out of inner keys. -/
theorem ReadBack.of_inner (h : c.convInnerToKey (c.convKeyToInner k') = .ok k) : ReadBack c k := by
  rw [convInnerToKey_convKeyToInner] at h
  rw [ReadBack, convInnerToKey_convKeyToInner]
  exact c.keys.idem _ _ h

theorem ReadBack.eq_of_inner (hk' : ReadBack c k')
    (h : c.convInnerToKey (c.convKeyToInner k') = .ok k) : k' = k :=
  Except.ok.inj (hk'.symm.trans h)

end

/-! ## What the provider has -/

section

variable (p : Provider σ O) (store : σ)

theorem lookup_foldl_collect (innerKeys : List Text) (m : GoMap Text (Data O)) (key : Text) :
    (innerKeys.foldl (p.collect store) m).lookup key =
      ((if key ∈ innerKeys then p.get store key else none) <|> m.lookup key) := by
  induction innerKeys generalizing m with
  | nil => simp
  | cons first rest ih =>
    rw [List.foldl_cons, ih]
    by_cases hkey : key = first
    · subst hkey
      cases hget : p.get store key with
      | none => simp [Provider.collect, hget]
      | some d => by_cases hrest : key ∈ rest <;> simp [Provider.collect, hget, hrest]
    · cases hget : p.get store first with
      | none => simp [Provider.collect, hget, hkey]
      | some d => simp [Provider.collect, hget, hkey, AList.lookup_insert_ne hkey]

theorem lookup_cached (innerKeys : List Text) (key : Text) :
    (p.cached store innerKeys).lookup key =
      if key ∈ innerKeys then p.get store key else none := by
  rw [Provider.cached, lookup_foldl_collect]
  simp

/-- The entries that the provider has of some keys. -/
theorem mem_cached_iff :
    (⟨key, d⟩ : Σ _ : Text, Data O) ∈ (p.cached store innerKeys).entries ↔
      key ∈ innerKeys ∧ p.get store key = some d := by
  rw [← AList.mem_lookup_iff, lookup_cached]
  by_cases hkey : key ∈ innerKeys <;> simp [hkey]

end

/-! ## Converting it -/

variable {entries : List (Σ _ : Text, Data O)} {kvs : GoMap K (Data O)} {failed : List Text}

section

variable [DecidableEq T] [DecidableEq K] {c : Cache T O K}

def valueOf (c : Cache T O K) (d : Data O) : Option (Data O) :=
  match c.convInnerToVal d with
  | .ok (.ok v) => some v
  | _ => none

def valueFor (c : Cache T O K) (k : K) (e : Σ _ : Text, Data O) : Option (Data O) :=
  match c.convInnerToKey e.1 with
  | .ok k' => if k' = k then c.valueOf e.2 else none
  | .error _ => none

theorem exists_of_convEntriesToMap {inner : Text}
    (h : convEntriesToMap c (⟨inner, d⟩ :: entries) = .ok (kvs, failed)) :
    ∃ k r kvs' failed', c.convInnerToKey inner = .ok k ∧ c.convInnerToVal d = .ok r ∧
      convEntriesToMap c entries = .ok (kvs', failed') ∧
      kvs = r.toOption.elim kvs' fun v => kvs'.insert k v := by
  obtain ⟨k, hk, h⟩ := bind_eq_ok.mp h
  obtain ⟨r, hr, h⟩ := bind_eq_ok.mp h
  obtain ⟨⟨kvs', failed'⟩, hrest, h⟩ := bind_eq_ok.mp h
  refine ⟨k, r, kvs', failed', hk, hr, hrest, ?_⟩
  cases r with
  | error e => cases h; rfl
  | ok v => cases h; rfl

theorem convEntriesToMap_ok
    (h : ∀ e ∈ entries, (∃ k, c.convInnerToKey e.1 = .ok k) ∧ ∃ r, c.convInnerToVal e.2 = .ok r) :
    ∃ kvs failed, convEntriesToMap c entries = .ok (kvs, failed) := by
  induction entries with
  | nil => exact ⟨∅, [], rfl⟩
  | cons e entries ih =>
    rw [List.forall_mem_cons] at h
    obtain ⟨⟨⟨k, hk⟩, r, hr⟩, hrest⟩ := h
    obtain ⟨kvs, failed, hkvs⟩ := ih hrest
    simp only [convEntriesToMap, hk, hr, hkvs, bind, Except.bind]
    cases r with
    | error e | ok v => exact ⟨_, _, rfl⟩

/-- A key gets the value of the first entry for it. -/
theorem lookup_convEntriesToMap (h : convEntriesToMap c entries = .ok (kvs, failed)) (k : K) :
    kvs.lookup k = entries.findSome? (c.valueFor k) := by
  induction entries generalizing kvs failed with
  | nil => cases h; rfl
  | cons e entries ih =>
    obtain ⟨k', r, kvs', failed', hk, hr, hrest, rfl⟩ := exists_of_convEntriesToMap h
    have hvalue : c.valueOf e.2 = r.toOption := by
      rw [valueOf, hr]
      cases r <;> rfl
    rw [List.findSome?_cons, valueFor, hk, hvalue, ← ih hrest]
    by_cases hkk : k' = k
    · subst hkk
      cases r with
      | error e | ok v => simp [Except.toOption]
    · cases r with
      | error e => simp [Except.toOption, hkk]
      | ok v => simp [Except.toOption, hkk, AList.lookup_insert_ne (Ne.symm hkk)]

end

/-! ## What a cache can serve -/

section

variable [DecidableEq T] [DecidableEq K] (c : Cache T O K) (p : Provider σ O) (store : σ)

/-- The value of a key in the cache: of an entry that can be decoded, and whose inner key is
read back as this key. -/
def served (k : K) : Option (Data O) :=
  (p.get store (c.convKeyToInner k)).bind fun d => c.valueFor k ⟨c.convKeyToInner k, d⟩

/-- The entries that are found for some keys can be decoded. -/
def Decodes (keys : List K) : Prop :=
  ∀ k ∈ keys, ∀ d, p.get store (c.convKeyToInner k) = some d → (c.valueOf d).isSome

/-- The keys that the provider does not have. -/
def absent (keys : List K) : List K :=
  keys.filter fun k => (p.get store (c.convKeyToInner k)).isNone

/-- Storing what the callback returns does not panic. -/
def Stores (keys : List K) (cb : Callback K O) : Prop :=
  c.absent p store keys ≠ [] → ∃ r, c.convMapToInner (cb (c.absent p store keys)).1 = .ok r

variable {c p store}

theorem valueFor_readBack (h : ReadBack c k) (d : Data O) :
    c.valueFor k ⟨c.convKeyToInner k, d⟩ = c.valueOf d := by
  rw [valueFor, show c.convInnerToKey _ = _ from h]
  exact if_pos rfl

theorem readBack_of_valueFor {e : Σ _ : Text, Data O} (h : c.valueFor k e = some v) :
    c.convInnerToKey e.1 = .ok k := by
  unfold valueFor at h
  split at h
  · next k' hk' =>
    split at h
    · next heq => exact heq ▸ hk'
    · cases h
  · cases h

variable {keys : List K}

theorem lookup_eq_served (hback : ∀ k ∈ keys, ReadBack c k)
    (h : c.convInnerToMap (p.cached store (keys.map c.convKeyToInner)) = .ok (kvs, failed)) :
    ∀ k ∈ keys, kvs.lookup k = c.served p store k := by
  intro k hk
  rw [lookup_convEntriesToMap h]
  have hunique : ∀ e ∈ (p.cached store (keys.map c.convKeyToInner)).entries, ∀ v,
      c.valueFor k e = some v → c.served p store k = some v := by
    rintro ⟨inner, d⟩ hmem v hv
    obtain ⟨hinner, hget⟩ := mem_cached_iff p store |>.mp hmem
    obtain ⟨k', hk', rfl⟩ := List.mem_map.mp hinner
    obtain rfl := (hback k' hk').eq_of_inner (readBack_of_valueFor hv)
    rw [served, hget]
    exact hv
  cases hfind : (p.cached store (keys.map c.convKeyToInner)).entries.findSome? (c.valueFor k) with
  | some v =>
    obtain ⟨e, hmem, hv⟩ := List.exists_of_findSome?_eq_some hfind
    exact (hunique e hmem v hv).symm
  | none =>
    rw [List.findSome?_eq_none_iff] at hfind
    unfold served
    cases hget : p.get store (c.convKeyToInner k) with
    | none => rfl
    | some d =>
      have hmem := (mem_cached_iff p store).mpr ⟨List.mem_map_of_mem hk, hget⟩
      exact (hfind _ hmem).symm

/-- What is found for the keys is converted without a panic if the keys are read back and the
entries can be decoded. -/
theorem convInnerToMap_ok (hback : ∀ k ∈ keys, ReadBack c k) (hdecodes : c.Decodes p store keys) :
    ∃ kvs failed, c.convInnerToMap (p.cached store (keys.map c.convKeyToInner)) =
      .ok (kvs, failed) := by
  refine convEntriesToMap_ok ?_
  rintro ⟨inner, d⟩ hmem
  obtain ⟨hinner, hget⟩ := mem_cached_iff p store |>.mp hmem
  obtain ⟨k, hk, rfl⟩ := List.mem_map.mp hinner
  refine ⟨⟨k, hback k hk⟩, ?_⟩
  have hvalue := hdecodes k hk d hget
  unfold valueOf at hvalue
  split at hvalue
  · next v hv => exact ⟨_, hv⟩
  · cases hvalue

omit [DecidableEq T] [DecidableEq K] in
theorem missed_eq (keys : List K) : p.missed store (keys.map c.convKeyToInner) =
    (c.absent p store keys).map c.convKeyToInner := by
  rw [Provider.missed, List.filter_map]
  rfl

omit [DecidableEq T] [DecidableEq K] in
theorem mapM_inner (hback : ∀ k ∈ keys, ReadBack c k) :
    (keys.map c.convKeyToInner).mapM c.convInnerToKey = .ok keys := by
  induction keys with
  | nil => rfl
  | cons k keys ih =>
    rw [List.forall_mem_cons] at hback
    rw [List.map_cons, List.mapM_cons, show c.convInnerToKey _ = _ from hback.1, ih hback.2]
    rfl

omit [DecidableEq T] [DecidableEq K] in
theorem mapM_absent (hback : ∀ k ∈ keys, ReadBack c k) :
    ((c.absent p store keys).map c.convKeyToInner).mapM c.convInnerToKey =
      .ok (c.absent p store keys) :=
  mapM_inner fun k hk => hback k (List.mem_filter.mp hk).1

omit [DecidableEq T] [DecidableEq K] in
theorem exists_of_mapM (h : innerKeys.mapM c.convInnerToKey = .ok keys) :
    ∀ k ∈ keys, ∃ inner ∈ innerKeys, c.convInnerToKey inner = .ok k := by
  induction innerKeys generalizing keys with
  | nil => cases h; simp
  | cons inner _ ih =>
    rw [List.mapM_cons] at h
    obtain ⟨k, hk, h⟩ := bind_eq_ok.mp h
    obtain ⟨ks, hks, h⟩ := bind_eq_ok.mp h
    cases h
    intro k' hk'
    rcases List.mem_cons.mp hk' with rfl | hk'
    · exact ⟨inner, List.mem_cons_self, hk⟩
    · obtain ⟨inner', hmem, hinner'⟩ := ih hks k' hk'
      exact ⟨inner', List.mem_cons_of_mem _ hmem, hinner'⟩

end

/-! ## Loading -/

/-- What the callback returned, if it was called. -/
def returned (cb : Callback K O) : Option (List K) → GoMap K (Data O)
  | none => ∅
  | some keys => (cb keys).1

theorem lookup_union [DecidableEq K] (a b : GoMap K (Data O)) (k : K) :
    (a ∪ b).lookup k = (a.lookup k <|> b.lookup k) := by
  by_cases hk : k ∈ a
  · obtain ⟨v, hv⟩ := Option.isSome_iff_exists.mp (AList.lookup_isSome.mpr hk)
    rw [AList.lookup_union_left hk, hv]
    rfl
  · rw [AList.lookup_union_right hk, AList.lookup_eq_none.mpr hk]
    rfl

section

variable [DecidableEq T] [DecidableEq K] {c : Cache T O K} {p : Provider σ O} {store : σ}
  {keys : List K} {cb : Callback K O}

variable {l : Loaded O K σ}

/-- A load finds everything, or it calls the callback and stores what that returns. -/
theorem load_cases {cb : Option (Callback K O)} (h : c.load p store innerKeys cb = .ok l) :
    ∃ kvs failed, c.convInnerToMap (p.cached store innerKeys) = .ok (kvs, failed) ∧
      (((cb = none ∨ p.missed store innerKeys = []) ∧ l = ⟨kvs, none, [], store⟩) ∨
        ∃ f ks innerVals failed', cb = some f ∧
          (p.missed store innerKeys).mapM c.convInnerToKey = .ok ks ∧
          c.convMapToInner (f ks).1 = .ok (innerVals, failed') ∧
          l = ⟨(f ks).1 ∪ kvs, some ks, innerVals.keys,
            (p.set store innerVals (c.parseCallbackOption ((f ks).1 ∪ kvs) (f ks).2)).1⟩) := by
  obtain ⟨⟨kvs, failed⟩, hkvs, h⟩ := bind_eq_ok.mp h
  refine ⟨kvs, failed, hkvs, ?_⟩
  cases cb with
  | none =>
    cases h
    exact .inl ⟨.inl rfl, rfl⟩
  | some f =>
    dsimp only at h
    split at h
    · next hnil =>
      cases h
      exact .inl ⟨.inr hnil, rfl⟩
    · obtain ⟨ks, hks, h⟩ := bind_eq_ok.mp h
      obtain ⟨⟨innerVals, failed'⟩, hvals, h⟩ := bind_eq_ok.mp h
      cases h
      exact .inr ⟨f, ks, innerVals, failed', rfl, hks, hvals, rfl⟩

/-- Every key that the cache cannot serve is given to the callback. -/
def Asks (c : Cache T O K) (p : Provider σ O) (store : σ) (keys : List K)
    (called : Option (List K)) : Prop :=
  ∀ k ∈ keys, c.served p store k = none → ∃ ks, called = some ks ∧ k ∈ ks

/-- What can be loaded without missing a key. -/
def Loadable (c : Cache T O K) (p : Provider σ O) (store : σ) (keys : List K)
    (cb : Callback K O) : Prop :=
  (∀ k ∈ keys, ReadBack c k) ∧ c.Decodes p store keys ∧ c.Stores p store keys cb

/-- Keys are loaded completely only if they are read back, their entries can be decoded and
the callback's values can be stored. -/
theorem loadable_of_load (h : c.load p store (keys.map c.convKeyToInner) (some cb) = .ok l)
    (hasks : c.Asks p store keys l.called) : c.Loadable p store keys cb := by
  obtain ⟨kvs, failed, hkvs, hcases⟩ := load_cases h
  -- a key that the callback was called with comes from an inner key that is missed
  have hcalled : ∀ ks, l.called = some ks → ∀ k ∈ ks, ∃ k' ∈ c.absent p store keys,
      c.convInnerToKey (c.convKeyToInner k') = .ok k := by
    intro ks hks k hk
    rcases hcases with ⟨-, rfl⟩ | ⟨f, ks', innerVals, failed', -, hmap, -, rfl⟩
    · cases hks
    · cases hks
      rw [missed_eq] at hmap
      obtain ⟨inner, hinner, hk⟩ := exists_of_mapM hmap k hk
      obtain ⟨k', hk', rfl⟩ := List.mem_map.mp hinner
      exact ⟨k', hk', hk⟩
  have hback : ∀ k ∈ keys, ReadBack c k := by
    intro k hk
    cases hserved : c.served p store k with
    | none =>
      obtain ⟨ks, hks, hmem⟩ := hasks k hk hserved
      obtain ⟨k', -, hk'⟩ := hcalled ks hks k hmem
      exact .of_inner hk'
    | some v =>
      obtain ⟨d, -, hd⟩ := Option.bind_eq_some_iff.mp hserved
      exact readBack_of_valueFor hd
  refine ⟨hback, ?_, ?_⟩
  · intro k hk d hget
    by_contra hnone
    have hserved : c.served p store k = none := by
      rw [served, hget, Option.bind_some, valueFor_readBack (hback k hk)]
      exact Option.not_isSome_iff_eq_none.mp hnone
    obtain ⟨ks, hks, hmem⟩ := hasks k hk hserved
    obtain ⟨k', hk', hinner⟩ := hcalled ks hks k hmem
    obtain ⟨hmem', habsent⟩ := List.mem_filter.mp hk'
    obtain rfl := (hback k' hmem').eq_of_inner hinner
    rw [hget] at habsent
    cases habsent
  · intro hne
    rcases hcases with ⟨hnone | hnil, -⟩ | ⟨f, ks, innerVals, failed', hcb, hmap, hvals, -⟩
    · cases hnone
    · rw [missed_eq, List.map_eq_nil_iff] at hnil
      exact absurd hnil hne
    · cases hcb
      rw [missed_eq, mapM_absent hback] at hmap
      cases hmap
      exact ⟨_, hvals⟩

/-- Then they are loaded completely, and each key has the loaded or the cached value. -/
theorem load_of_loadable (h : c.Loadable p store keys cb) :
    ∃ l, c.load p store (keys.map c.convKeyToInner) (some cb) = .ok l ∧
      c.Asks p store keys l.called ∧
      ∀ k ∈ keys, l.kvs.lookup k =
        ((returned cb l.called).lookup k <|> c.served p store k) := by
  obtain ⟨hback, hdecodes, hstores⟩ := h
  obtain ⟨kvs, failed, hkvs⟩ := convInnerToMap_ok hback hdecodes
  have hlookup := lookup_eq_served hback hkvs
  -- only absent keys are not served
  have habsent : ∀ k ∈ keys, c.served p store k = none → k ∈ c.absent p store keys := by
    intro k hk hserved
    refine List.mem_filter.mpr ⟨hk, ?_⟩
    cases hget : p.get store (c.convKeyToInner k) with
    | none => rfl
    | some d =>
      rw [served, hget, Option.bind_some, valueFor_readBack (hback k hk)] at hserved
      have hsome := hdecodes k hk d hget
      rw [hserved] at hsome
      cases hsome
  by_cases hnil : c.absent p store keys = []
  · refine ⟨⟨kvs, none, [], store⟩, ?_, ?_, ?_⟩
    · simp only [load, hkvs, missed_eq, List.map_eq_nil_iff, hnil, if_true, bind, Except.bind]
      rfl
    · intro k hk hserved
      have hmem := habsent k hk hserved
      rw [hnil] at hmem
      cases hmem
    · intro k hk
      simpa [returned] using hlookup k hk
  · obtain ⟨⟨innerVals, failed'⟩, hvals⟩ := hstores hnil
    have hload : c.load p store (keys.map c.convKeyToInner) (some cb) = .ok
        ⟨(cb (c.absent p store keys)).1 ∪ kvs, some (c.absent p store keys), innerVals.keys,
          (p.set store innerVals (c.parseCallbackOption ((cb (c.absent p store keys)).1 ∪ kvs)
            (cb (c.absent p store keys)).2)).1⟩ := by
      simp only [load, hkvs, missed_eq, List.map_eq_nil_iff, hnil, if_false, mapM_absent hback,
        hvals, bind, Except.bind]
      rfl
    refine ⟨_, hload, ?_, ?_⟩
    · exact fun k hk hserved => ⟨_, rfl, habsent k hk hserved⟩
    · intro k hk
      rw [lookup_union, hlookup k hk]
      rfl

/-- A call asks for every key that the cache cannot serve, and returns the loaded or the cached
value of each key, in the order of the keys. -/
def Complete (c : Cache T O K) (p : Provider σ O) (store : σ) (keys : List K) (cb : Callback K O)
    (r : Except Panic (Outcome O K σ)) : Prop :=
  ∃ o, r = .ok o ∧ c.Asks p store keys o.called ∧
    o.values = keys.filterMap fun k =>
      (returned cb o.called).lookup k <|> c.served p store k

/-- `Get` is complete exactly if the keys can be loaded. -/
theorem get_complete_iff :
    c.Complete p store keys cb (c.get p ⟨store, visited⟩ keys (some cb)) ↔
      c.Loadable p store keys cb := by
  constructor
  · rintro ⟨o, ho, hasks, -⟩
    obtain ⟨l, hl, ho⟩ := bind_eq_ok.mp ho
    cases ho
    exact loadable_of_load hl hasks
  · intro h
    obtain ⟨l, hl, hasks, hlookup⟩ := load_of_loadable h
    refine ⟨_, bind_eq_ok.mpr ⟨l, hl, rfl⟩, hasks, ?_⟩
    exact List.filterMap_congr hlookup

/-- The same for `GetAll` and the keys that were visited. -/
theorem getAll_complete_iff :
    c.Complete p store keys cb
        (c.getAll p ⟨store, keys.map c.convKeyToInner⟩ (some cb)) ↔
      c.Loadable p store keys cb := by
  constructor
  · rintro ⟨o, ho, hasks, -⟩
    obtain ⟨l, hl, ho⟩ := bind_eq_ok.mp ho
    obtain ⟨ks, -, ho⟩ := bind_eq_ok.mp ho
    cases ho
    exact loadable_of_load hl hasks
  · intro h
    obtain ⟨l, hl, hasks, hlookup⟩ := load_of_loadable h
    refine ⟨_, bind_eq_ok.mpr ⟨l, hl, bind_eq_ok.mpr ⟨keys, mapM_inner h.1, rfl⟩⟩, hasks, ?_⟩
    exact List.filterMap_congr hlookup

end

/-- `Get` is complete on some keys, and `GetAll` on the keys that were visited, exactly if the
keys are read back from their inner keys, every entry that is found can be decoded, and storing
what the callback returns does not panic. -/
theorem missing_keys_loaded_iff [DecidableEq T] [DecidableEq K] (c : Cache T O K)
    (p : Provider σ O) (store : σ) (visited : List Text) (keys : List K) (cb : Callback K O) :
    (c.Complete p store keys cb (c.get p ⟨store, visited⟩ keys (some cb)) ↔
      c.Loadable p store keys cb) ∧
    (c.Complete p store keys cb (c.getAll p ⟨store, keys.map c.convKeyToInner⟩ (some cb)) ↔
      c.Loadable p store keys cb) :=
  ⟨get_complete_iff, getAll_complete_iff⟩

/-! ## An entry that cannot be decoded -/

def textKeys : KeyTexts Text where
  toText := id
  ofText := .ok
  idem _ _ _ := rfl

/-- A cache of strings whose decompressor fails. -/
def strings : Cache Unit Unit Text where
  codecs := { plainCodecs with decompress := fun _ _ => .error .decompress }
  keys := textKeys
  base := "app:names".toList
  valueType := .string
  conf := {}

/-- An entry that was compressed with S2. -/
def compressedHi : Data Unit :=
  .bytes (sealedFrame plainCodecs { compressType := ⟨3⟩ } .string true (ascii "hi")).bytes

/-- The callback has a value, but it is not called, and nothing is returned. -/
theorem undecodable_not_loaded :
    ¬strings.Complete gCache (AList.singleton (strings.convKeyToInner ['a']) compressedHi) [['a']]
        (fun _ => (AList.singleton ['a'] (.string (ascii "hi")), {}))
        (strings.get gCache ⟨AList.singleton (strings.convKeyToInner ['a']) compressedHi, []⟩
          [['a']] (some fun _ => (AList.singleton ['a'] (.string (ascii "hi")), {}))) := by
  rintro ⟨o, ⟨rfl⟩, hasks, -⟩
  obtain ⟨ks, hks, -⟩ := hasks ['a'] (by simp) rfl
  cases hks

end Gofusion.Cache
