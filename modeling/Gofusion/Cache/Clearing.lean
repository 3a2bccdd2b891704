import Gofusion.Cache.Keeping
import Mathlib.Data.Set.List

/-!
# Expiries, and what is left behind

`parseCallbackOption` writes the expiry of a key up to three times.  The second time it writes the
configured expiry again, so the option counts only where it is the same.

`visited` is what `Clear` deletes.  It has the keys that were asked for or set, but not those that
a callback returns on its own.
-/

namespace Gofusion.Cache

open Gofusion.Payload Gofusion.Utils Gofusion.Lib

variable {T O K σ : Type}

/-! ## Expiries -/

section

variable [DecidableEq K] {c : Cache T O K} {k : K}

def expiryOf (c : Cache T O K) (opt : SetOption K) (k : K) : Option Int :=
  (opt.keyExpired.lookup k).or (if 0 < opt.expired then some opt.expired
    else if 0 < c.conf.expired then some c.conf.expired else none)

/-- The expiry in the options is the configured one, or the key has its own. -/
def Agrees (c : Cache T O K) (opt : SetOption K) (k : K) : Prop :=
  0 < opt.expired → opt.expired = c.conf.expired ∨ k ∈ opt.keyExpired

variable (hinj : Function.Injective c.convKeyToInner)
include hinj

theorem lookup_expireAll (keys : List K) (e : Int) (exp : GoMap Text Int) :
    (c.expireAll keys e exp).lookup (c.convKeyToInner k) =
      if k ∈ keys then some e else exp.lookup (c.convKeyToInner k) := by
  induction keys generalizing exp with
  | nil => simp [expireAll]
  | cons k' keys ih =>
    rw [expireAll, List.foldl_cons, ← expireAll, ih]
    by_cases hk : k = k'
    · subst hk
      simp
    · simp [hk, AList.lookup_insert_ne (hinj.ne hk)]

/-- An expiry of the options goes before the one that was there. -/
theorem lookup_foldl_expired (entries : List (Σ _ : K, Int)) (hnodup : entries.NodupKeys)
    (exp : GoMap Text Int) :
    (entries.foldl (fun exp e => exp.insert (c.convKeyToInner e.1) e.2) exp).lookup
        (c.convKeyToInner k) =
      (entries.dlookup k).or (exp.lookup (c.convKeyToInner k)) := by
  induction entries generalizing exp with
  | nil => rfl
  | cons e entries ih =>
    obtain ⟨k', e⟩ := e
    obtain ⟨hnew, hnodup⟩ := List.nodupKeys_cons.mp hnodup
    rw [List.foldl_cons, ih hnodup]
    by_cases hk : k = k'
    · subst hk
      simp [List.dlookup_eq_none.mpr hnew]
    · rw [AList.lookup_insert_ne (hinj.ne hk), List.dlookup_cons_ne entries ⟨k', e⟩ hk]

/-- What is written for a key is what it should have, if the options agree. -/
theorem lookup_parseCallbackOption_iff (hk : k ∈ kvs) (opt : SetOption K) :
    (c.parseCallbackOption kvs opt).lookup (c.convKeyToInner k) = c.expiryOf opt k ↔
      c.Agrees opt k := by
  have hmem : k ∈ kvs.keys := hk
  rw [parseCallbackOption, lookup_foldl_expired hinj _ opt.keyExpired.nodupKeys, expiryOf, Agrees]
  change (opt.keyExpired.lookup k).or _ = _ ↔ _
  cases hkey : opt.keyExpired.lookup k with
  | some e => exact iff_of_true rfl fun _ => .inr (AList.lookup_isSome.mp (by simp [hkey]))
  | none =>
    have hnone : k ∉ opt.keyExpired := AList.lookup_eq_none.mp hkey
    by_cases ho : 0 < opt.expired
    · simp [ho, hnone, lookup_expireAll hinj, hmem, eq_comm]
    · by_cases hc : 0 < c.conf.expired <;> simp [ho, hc, lookup_expireAll hinj, hmem]

end

section

variable [DecidableEq T] {c : Cache T O K}

theorem mem_keys_convEntriesToInner {entries : List (Σ _ : K, Data O)}
    {innerVals : GoMap Text (Data O)}
    (h : c.convEntriesToInner entries = .ok (innerVals, failed)) :
    ∀ inner ∈ innerVals.keys, ∃ k ∈ entries.keys, inner = c.convKeyToInner k := by
  induction entries generalizing innerVals failed with
  | nil => cases h; simp
  | cons e entries ih =>
    obtain ⟨r, -, h⟩ := bind_eq_ok.mp h
    obtain ⟨⟨innerVals', failed'⟩, hrest, h⟩ := bind_eq_ok.mp h
    intro inner hinner
    have hold : inner ∈ innerVals'.keys → ∃ k ∈ (e :: entries).keys, inner = c.convKeyToInner k := by
      intro hinner
      obtain ⟨k, hk, rfl⟩ := ih hrest inner hinner
      exact ⟨k, List.mem_cons_of_mem _ hk, rfl⟩
    cases r with
    | error e => cases h; exact hold hinner
    | ok d =>
      cases h
      rcases (AList.mem_insert innerVals').mp hinner with rfl | hinner
      · exact ⟨e.1, List.mem_cons_self, rfl⟩
      · exact hold hinner

variable [DecidableEq K]

omit [DecidableEq T] in
/-- Two keys with one text: the expiry of the one is written for the other. -/
theorem injective_of_expiries (h : ∀ (kvs : GoMap K (Data O)) opt, ∀ k ∈ kvs, c.Agrees opt k →
      (c.parseCallbackOption kvs opt).lookup (c.convKeyToInner k) = c.expiryOf opt k) :
    Function.Injective c.keys.toText := by
  intro k k' htext
  by_contra hne
  have hinner : c.convKeyToInner k' = c.convKeyToInner k :=
    congrArg (c.head ++ ·) htext.symm
  let once : GoMap K Int := AList.singleton k' (c.conf.expired + 1)
  have hother : once.lookup k = none := AList.lookup_eq_none.mpr fun hmem => hne (by
    simpa [once, AList.mem_keys] using hmem)
  have heq := h (AList.singleton k .nil) { keyExpired := once } k (by simp [AList.mem_keys])
    (fun hlt => absurd hlt (Int.lt_irrefl 0))
  simp only [parseCallbackOption, expiryOf, hother, Option.none_or, once, AList.singleton_entries,
    List.foldl_cons, List.foldl_nil, hinner, AList.lookup_insert] at heq
  split_ifs at heq
  all_goals
    have := Option.some.inj heq
    omega

/-- If no two keys have the same text, and only then, it is exactly the keys whose options agree
that have the expiry they should have: no expiry in the options, the configured one, or one for the
key.  For `Get` and `GetAll` this is so for the keys that are stored from the callback. -/
theorem expiry_precedence_iff (c : Cache T O K) :
    ((∀ (kvs : GoMap K (Data O)) opt, ∀ k ∈ kvs,
        (c.parseCallbackOption kvs opt).lookup (c.convKeyToInner k) = c.expiryOf opt k ↔
          c.Agrees opt k) ↔ Function.Injective c.keys.toText) ∧
    (Function.Injective c.keys.toText → ∀ (p : Provider σ O) store innerKeys f l ks,
      c.load p store innerKeys (some f) = .ok l → l.called = some ks →
      ∃ innerVals exp, l.store = (p.set store innerVals exp).1 ∧ l.stored = innerVals.keys ∧
        ∀ inner ∈ innerVals.keys, ∃ k ∈ (f ks).1, inner = c.convKeyToInner k ∧
          (exp.lookup inner = c.expiryOf (f ks).2 k ↔ c.Agrees (f ks).2 k)) := by
  have hinner : Function.Injective c.keys.toText → Function.Injective c.convKeyToInner :=
    fun htexts _ _ heq => htexts (List.append_cancel_left heq)
  refine ⟨⟨fun h => injective_of_expiries fun kvs opt k hk => (h kvs opt k hk).mpr,
    fun htexts kvs opt k hk => lookup_parseCallbackOption_iff (hinner htexts) hk opt⟩, ?_⟩
  intro htexts p store innerKeys f l ks hload hcalled
  obtain ⟨kvs, failed, -, ⟨-, rfl⟩ | ⟨f', ks', innerVals, failed', hf, -, hvals, rfl⟩⟩ :=
    load_cases hload
  · cases hcalled
  · cases hf
    cases hcalled
    refine ⟨innerVals, _, rfl, rfl, fun inner hinner' => ?_⟩
    obtain ⟨k, hk, rfl⟩ := mem_keys_convEntriesToInner hvals inner hinner'
    exact ⟨k, hk, rfl, lookup_parseCallbackOption_iff (hinner htexts)
      (AList.mem_union.mpr (.inl hk)) _⟩

end

/-- A cache where entries expire after 7 ns. -/
def timed : Cache Unit Unit Text := { plainStrings with conf := { strings.conf with expired := 7 } }

/-- A callback that has one key, with an expiry for it. -/
def once : Callback Text Unit := fun _ =>
  (AList.singleton ['a'] (.string []), { expired := 5, keyExpired := AList.singleton ['a'] 3 })

/-- The missing key is stored from the callback, with the expiry that is for it. -/
theorem timed_expiry : ∃ (innerVals : GoMap Text (Data Unit)) (exp : GoMap Text Int),
    gCache.get (gCache.set ∅ innerVals exp).1 (timed.convKeyToInner ['a']) = some (.string []) ∧
      ∀ inner ∈ innerVals.keys, ∃ k ∈ (once [['a']]).1, inner = timed.convKeyToInner k ∧
        (exp.lookup inner = timed.expiryOf (once [['a']]).2 k ↔ timed.Agrees (once [['a']]).2 k) := by
  obtain ⟨innerVals, exp, hstore, -, h⟩ := (expiry_precedence_iff timed).2 (fun _ _ h => h) gCache ∅
    [timed.convKeyToInner ['a']] once _ _ rfl rfl
  exact ⟨innerVals, exp, hstore ▸ by decide, h⟩

/-- The option asks for 5 ns, nothing is configured, and the key gets 0. -/
theorem option_expiry_ignored :
    (plainStrings.parseCallbackOption (AList.singleton ['a'] (.string [])) { expired := 5 }).lookup
        (plainStrings.convKeyToInner ['a']) = some 0 ∧
      plainStrings.expiryOf { expired := 5 } ['a'] = some 5 := by
  decide

/-! ## What is left behind -/

section

variable [DecidableEq T] [DecidableEq K] {c : Cache T O K}

inductive Call (O K : Type)
  | get (keys : List K) (cb : Option (Callback K O))
  | getAll (cb : Option (Callback K O))
  | set (kvs : GoMap K (Data O)) (opt : SetOption K)
  | del (keys : List K)

/-- A call, with the inner keys that it stores. -/
def perform (c : Cache T O K) (p : Provider σ O) (s : State σ) :
    Call O K → Except Panic (List Text × State σ)
  | .get keys cb => do
    let o ← c.get p s keys cb
    return (o.stored, o.state)
  | .getAll cb => do
    let o ← c.getAll p s cb
    return (o.stored, o.state)
  | .set kvs opt => do
    let (_, stored, s) ← c.set p s kvs opt
    return (stored, s)
  | .del keys => do
    let (_, s) ← c.del p s keys
    return ([], s)

/-- The states after calls of some kind, with the inner keys that were stored.  Between the calls
entries are lost. -/
inductive History (c : Cache T O K) (p : Provider σ O) (good : State σ → Call O K → Prop) :
    List Text → State σ → Prop
  | start (store : σ) : History c p good [] ⟨store, []⟩
  | call {stored new s s' call} : History c p good stored s → good s call →
    c.perform p s call = .ok (new, s') → History c p good (new ++ stored) s'
  | lose {stored s store} : History c p good stored s →
    (∀ key, (p.get store key).isSome → (p.get s.store key).isSome) →
    History c p good stored ⟨store, s.visited⟩

/-- After a `Clear` without a failure nothing is left of what was stored. -/
def Clears (c : Cache T O K) (p : Provider σ O) (good : State σ → Call O K → Prop) : Prop :=
  ∀ stored s s', History c p good stored s → c.clear p s = .ok ([], s') →
    ∀ inner ∈ stored, p.get s'.store inner = none

/-- What a provider does to its entries: `set` adds only those it is given, and `del` adds none
and removes those it is given, unless it reports them. -/
structure Provider.Lawful (p : Provider σ O) : Prop where
  set : ∀ store kvs exp key, (p.get (p.set store kvs exp).1 key).isSome →
    key ∈ kvs.keys ∨ (p.get store key).isSome
  del : ∀ store keys key, (p.get (p.del store keys).1 key).isSome →
    (p.get store key).isSome ∧ (key ∈ keys → key ∈ (p.del store keys).2)

/-- The callback returns only keys that it is asked for. -/
def Only (cb : Option (Callback K O)) : Prop := ∀ f, cb = some f → ∀ ks, ∀ k ∈ (f ks).1, k ∈ ks

/-- The calls after which `visited` still has every key that was stored. -/
def Tracked (c : Cache T O K) (p : Provider σ O) (s : State σ) : Call O K → Prop
  | .get _ cb => Only (cb <|> c.callback)
  | .getAll cb => Only (cb <|> c.callback) ∧
    ∀ inner ∈ s.visited, ∀ d, p.get s.store inner = some d → (c.valueOf d).isSome
  | .set _ _ => True
  | .del keys => (p.del s.store (keys.map c.convKeyToInner)).2 = []

/-- What is stored and still there is in `visited`, which has inner keys only. -/
structure Tracks (c : Cache T O K) (p : Provider σ O) (stored : List Text) (s : State σ) : Prop where
  inner : ∀ inner ∈ s.visited, inner ∈ Set.range c.convKeyToInner
  stored : ∀ inner ∈ stored, (p.get s.store inner).isSome → inner ∈ s.visited

section

variable {p : Provider σ O} {store : σ} {keys : List K} {cb : Option (Callback K O)}
  {l : Loaded O K σ} (h : c.load p store (keys.map c.convKeyToInner) cb = .ok l)
include h

/-- What is there after loading was stored, or was there before. -/
theorem get_of_load {inner : Text} (hlawful : p.Lawful)
    (hsome : (p.get l.store inner).isSome) :
    inner ∈ l.stored ∨ (p.get store inner).isSome := by
  obtain ⟨kvs, failed, -, ⟨-, rfl⟩ | ⟨f, ks, innerVals, failed', -, -, -, rfl⟩⟩ := load_cases h
  · exact .inr hsome
  · exact hlawful.set _ _ _ _ hsome

variable (hback : ∀ k, ReadBack c k)
include hback

/-- What is stored is stored for a key that was asked for, and has a value. -/
theorem exists_of_load {inner : Text} (honly : Only cb) (hinner : inner ∈ l.stored) :
    ∃ k ∈ keys, c.convKeyToInner k = inner ∧ (l.kvs.lookup k).isSome := by
  obtain ⟨kvs, failed, -, ⟨-, rfl⟩ | ⟨f, ks, innerVals, failed', rfl, hks, hvals, rfl⟩⟩ :=
    load_cases h
  · cases hinner
  · obtain ⟨k, hk, rfl⟩ := mem_keys_convEntriesToInner hvals inner hinner
    rw [missed_eq, mapM_absent fun k _ => hback k] at hks
    cases hks
    refine ⟨k, (List.mem_filter.mp (honly f rfl _ k hk)).1, rfl, ?_⟩
    simp [lookup_union, AList.lookup_isSome.mpr hk]

theorem lookup_of_load (hk : k ∈ keys)
    (hget : p.get store (c.convKeyToInner k) = some d) (hdecodes : (c.valueOf d).isSome) :
    (l.kvs.lookup k).isSome := by
  obtain ⟨kvs, failed, hkvs, hl⟩ := load_cases h
  have hlookup : (kvs.lookup k).isSome := by
    rwa [lookup_eq_served (fun k _ => hback k) hkvs k hk, served, hget, Option.bind_some,
      valueFor_readBack (hback k)]
  obtain ⟨-, rfl⟩ | ⟨f, ks, innerVals, failed', -, -, -, rfl⟩ := hl
  · exact hlookup
  · simp [lookup_union, hlookup]

end

variable {p : Provider σ O} {stored new : List Text} {s s' : State σ}

theorem mem_removeAll {inner : Text} {a b : List Text} :
    inner ∈ a.removeAll b ↔ inner ∈ a ∧ inner ∉ b := by
  simp [List.removeAll]

omit [DecidableEq T] [DecidableEq K] in
theorem Tracks.del (h : Tracks c p stored s) (hlawful : p.Lawful)
    (hnone : (p.del s.store innerKeys).2 = []) :
    Tracks c p stored ⟨(p.del s.store innerKeys).1, s.visited.removeAll innerKeys⟩ := by
  refine ⟨fun inner hinner => h.inner inner (mem_removeAll.mp hinner).1, ?_⟩
  intro inner hinner hsome
  obtain ⟨hbefore, hfailed⟩ := hlawful.del _ _ _ hsome
  refine mem_removeAll.mpr ⟨h.stored inner hinner hbefore, fun hmem => ?_⟩
  have hmem := hfailed hmem
  rw [hnone] at hmem
  cases hmem

variable (hlawful : p.Lawful) (hback : ∀ k, ReadBack c k)
include hlawful hback

/-- What is there after loading is a key that was asked for, or was tracked before. -/
theorem Tracks.load (htracks : Tracks c p stored s) {keys : List K}
    {l : Loaded O K σ} (h : c.load p s.store (keys.map c.convKeyToInner) cb = .ok l)
    (honly : Only cb) {inner : Text} (hinner : inner ∈ l.stored ++ stored)
    (hsome : (p.get l.store inner).isSome) :
    inner ∈ s.visited ∨ inner ∈ keys.map c.convKeyToInner := by
  have hnew : inner ∈ l.stored → inner ∈ keys.map c.convKeyToInner := by
    intro hinner
    obtain ⟨k, hk, rfl, -⟩ := exists_of_load h hback honly hinner
    exact List.mem_map_of_mem hk
  rcases List.mem_append.mp hinner with hinner | hinner
  · exact .inr (hnew hinner)
  · rcases get_of_load h hlawful hsome with hinner' | hbefore
    · exact .inr (hnew hinner')
    · exact .inl (htracks.stored inner hinner hbefore)

theorem Tracks.getAll (htracks : Tracks c p stored s) {cb : Option (Callback K O)}
    (hgood : c.Tracked p s (.getAll cb)) {o : Outcome O K σ} (h : c.getAll p s cb = .ok o) :
    Tracks c p (o.stored ++ stored) o.state := by
  obtain ⟨store, visited⟩ := s
  obtain ⟨honly, hdecodes⟩ := hgood
  obtain ⟨ks, rfl⟩ : visited ∈ Set.range (List.map c.convKeyToInner) := by
    rw [Set.range_list_map]
    exact htracks.inner
  obtain ⟨l, hl, h⟩ := bind_eq_ok.mp h
  rw [mapM_inner fun k _ => hback k] at h
  cases h
  refine ⟨fun inner hinner => htracks.inner inner (mem_removeAll.mp hinner).1, ?_⟩
  intro inner hinner hsome
  have hvisited := or_self_iff.mp (htracks.load hlawful hback hl honly hinner hsome)
  refine mem_removeAll.mpr ⟨hvisited, fun hremoved => ?_⟩
  -- a key that is taken out has no value, but an entry that is there gives it one
  obtain ⟨k, hk, rfl⟩ := List.mem_map.mp hremoved
  obtain ⟨hk, hnone⟩ := List.mem_filter.mp hk
  have hvalue : (l.kvs.lookup k).isSome := by
    rcases get_of_load hl hlawful hsome with hnew | hbefore
    · obtain ⟨k', -, heq, hvalue⟩ := exists_of_load hl hback honly hnew
      obtain rfl := (hback k').eq_of_inner ((congrArg c.convInnerToKey heq).trans (hback k))
      exact hvalue
    · obtain ⟨d, hd⟩ := Option.isSome_iff_exists.mp hbefore
      exact lookup_of_load hl hback hk hd (hdecodes _ (List.mem_map_of_mem hk) d hd)
  rw [Option.isNone_iff_eq_none.mp hnone] at hvalue
  cases hvalue

/-- A call keeps track of what it stores. -/
theorem Tracks.perform {call : Call O K} (htracks : Tracks c p stored s)
    (hgood : c.Tracked p s call) (h : c.perform p s call = .ok (new, s')) :
    Tracks c p (new ++ stored) s' := by
  cases call with
  | get keys cb =>
    obtain ⟨o, ho, h⟩ := bind_eq_ok.mp h
    obtain ⟨l, hl, ho⟩ := bind_eq_ok.mp ho
    cases ho
    cases h
    refine ⟨fun inner hinner => ?_, fun inner hinner hsome =>
      List.mem_union_iff.mpr (htracks.load hlawful hback hl hgood hinner hsome)⟩
    rcases List.mem_union_iff.mp hinner with hinner | hinner
    · exact htracks.inner inner hinner
    · obtain ⟨k, -, rfl⟩ := List.mem_map.mp hinner
      exact ⟨k, rfl⟩
  | getAll cb =>
    obtain ⟨o, ho, h⟩ := bind_eq_ok.mp h
    cases h
    exact htracks.getAll hlawful hback hgood ho
  | set kvs opt =>
    obtain ⟨⟨failure, new', s''⟩, hset, h⟩ := bind_eq_ok.mp h
    obtain ⟨⟨innerVals, failed⟩, hvals, hset⟩ := bind_eq_ok.mp hset
    obtain ⟨ks, -, hset⟩ := bind_eq_ok.mp hset
    cases hset
    cases h
    refine ⟨fun inner hinner => ?_, fun inner hinner hsome => List.mem_union_iff.mpr ?_⟩
    · rcases List.mem_union_iff.mp hinner with hinner | hinner
      · exact htracks.inner inner hinner
      · obtain ⟨k, -, rfl⟩ := mem_keys_convEntriesToInner hvals inner hinner
        exact ⟨k, rfl⟩
    · rcases List.mem_append.mp hinner with hnew | hinner
      · exact .inr hnew
      · exact (hlawful.set _ _ _ _ hsome).symm.imp_left (htracks.stored inner hinner)
  | del keys =>
    obtain ⟨⟨failure, s''⟩, hdel, h⟩ := bind_eq_ok.mp h
    obtain ⟨ks, -, hdel⟩ := bind_eq_ok.mp hdel
    cases hdel
    cases h
    exact htracks.del hlawful hgood

/-- So does a history of calls. -/
theorem History.tracks (h : History c p (c.Tracked p) stored s) : Tracks c p stored s := by
  induction h with
  | start store => exact ⟨nofun, nofun⟩
  | call _ hgood hcall ih => exact ih.perform hlawful hback hgood hcall
  | lose _ hlost ih =>
    exact ⟨ih.inner, fun inner hinner hsome => ih.stored inner hinner (hlost inner hsome)⟩

end

/-- Nothing is left of what a cache stored if its callbacks return only keys they are asked for,
`GetAll` meets only entries that can be decoded, and `Del` does not fail. -/
theorem clear_removes_stored [DecidableEq T] [DecidableEq K] (c : Cache T O K) (p : Provider σ O)
    (hlawful : p.Lawful) (hback : ∀ k, ReadBack c k) : c.Clears p (c.Tracked p) := by
  intro stored s s' hhistory hclear inner hinner
  have htracks := hhistory.tracks hlawful hback
  obtain ⟨ks, hks, hclear⟩ := bind_eq_ok.mp hclear
  cases hclear
  by_contra hsome
  obtain ⟨hbefore, hfailed⟩ := hlawful.del _ _ _ (Option.isSome_iff_ne_none.mpr hsome)
  have hmem := hfailed (htracks.stored inner hinner hbefore)
  cases hdel : (p.del s.store s.visited).2 with
  | nil =>
    rw [hdel] at hmem
    cases hmem
  | cons _ _ =>
    rw [hdel, List.mapM_cons] at hks
    obtain ⟨k, -, hks⟩ := bind_eq_ok.mp hks
    obtain ⟨ks, -, hks⟩ := bind_eq_ok.mp hks
    cases hks

/-- The local provider stores and deletes what it is told to. -/
theorem gCache_lawful : (gCache : Provider _ O).Lawful where
  set store kvs exp key hsome := AList.mem_union.mp (AList.lookup_isSome.mp hsome)
    |>.imp_right AList.lookup_isSome.mpr
  del store keys key hsome := by
    change (AList.lookup key (keys.foldl _ store)).isSome at hsome
    rw [lookup_foldl_erase] at hsome
    split_ifs at hsome with hkey
    · cases hsome
    · exact ⟨hsome, fun hmem => absurd hmem hkey⟩

theorem strings_clears_tracked : strings.Clears gCache (strings.Tracked gCache) :=
  clear_removes_stored strings gCache gCache_lawful fun k => convInnerToKey_convKeyToInner strings k

/-- A callback that is asked for `a` returns `b`. -/
def returnsOther : Callback Text Unit := fun _ => (AList.singleton ['b'] (.string (ascii "hi")), {})

/-- The callback returns a key that was not asked for, and `Clear` does not delete it. -/
theorem unasked_key_survives : ¬strings.Clears gCache fun _ _ => True := by
  intro h
  have hstart : History strings gCache (fun _ _ => True) [] ⟨∅, []⟩ := .start ∅
  have hget : strings.perform gCache ⟨∅, []⟩ (.get [['a']] (some returnsOther)) = .ok _ := rfl
  have hhistory := hstart.call trivial hget
  have hnone := h _ _ _ hhistory rfl (strings.convKeyToInner ['b']) (by decide)
  cases hnone

end Gofusion.Cache
