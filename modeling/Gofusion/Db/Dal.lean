import Gofusion.Db.Sharding.Partition
import Gofusion.Lib.Chunks

/-!
# Writing lists of models

`InsertInBatches`, `Save` and `Delete` of `db/dal.go` on a list of models.  The list is sorted into
groups by shard, and gorm is called for one group after the other, in the order of a Go map and
not in a transaction.
-/

namespace Gofusion.Db

open Gofusion.Lib

/-! ## The loops -/

inductive DalOp
  | insertInBatches (batchSize : Nat)
  | save
  | delete
deriving DecidableEq, Repr

/-- `writeWithTableSharding`, up to the order of the groups. -/
def writeWithTableSharding (plugin : Option TableSharding) (src : List Model) :
    Except DbError (List (List Model)) :=
  match src, plugin with
  | [], _ => .ok []
  | src, none => .ok [src]
  | src, some t => (t.shardingByModelList src).map (·.map Prod.snd)

/-- The groups that gorm is called for.  `Delete` with an empty list takes it for a condition. -/
def DalOp.groups (op : DalOp) (plugin : Option TableSharding) (src : List Model) :
    Except DbError (List (List Model)) :=
  match op, src with
  | .delete, [] => .ok [[]]
  | _, src => writeWithTableSharding plugin src

/-- The calls of gorm, with the number of rows that each one has written, up to the first that
fails. -/
def writeGroups (call : List Model → Except DbError Nat) :
    List (List Model) → List (List Model × Nat) × Option DbError
  | [] => ([], none)
  | g :: gs =>
    match call g with
    | .error e => ([], some e)
    | .ok n => ((g, n) :: (writeGroups call gs).1, (writeGroups call gs).2)

/-- `InsertInBatches`, `Save` or `Delete`: the calls that were made and succeeded, and the error.
`order` is the order in which a map is gone through. -/
def DalOp.run (op : DalOp) (plugin : Option TableSharding)
    (call : List Model → Except DbError Nat) (order : List (List Model) → List (List Model))
    (src : List Model) : List (List Model × Nat) × Option DbError :=
  match op.groups plugin src with
  | .error e => ([], some e)
  | .ok groups => writeGroups call (order groups)

/-! ## All or nothing -/

def AllOrNothing (r : List (List Model × Nat) × Option DbError) : Prop :=
  r.2 ≠ none → ∀ c ∈ r.1, c.2 = 0

section

variable {call : List Model → Except DbError Nat} {groups : List (List Model)}

theorem mem_writeGroups {c : List Model × Nat} (h : c ∈ (writeGroups call groups).1) :
    c.1 ∈ groups ∧ call c.1 = .ok c.2 := by
  induction groups with
  | nil => cases h
  | cons g gs ih =>
    rw [writeGroups] at h
    cases hcall : call g with
    | error e => rw [hcall] at h; cases h
    | ok n =>
      rw [hcall] at h
      rcases List.mem_cons.mp h with rfl | h
      · exact ⟨List.mem_cons_self, hcall⟩
      · exact ⟨List.mem_cons_of_mem _ (ih h).1, (ih h).2⟩

/-- The loop has no error exactly if no call has one. -/
theorem writeGroups_error_iff :
    (writeGroups call groups).2 = none ↔ ∀ g ∈ groups, ∃ n, call g = .ok n := by
  induction groups with
  | nil => exact iff_of_true rfl nofun
  | cons g gs ih =>
    rw [writeGroups]
    cases hcall : call g with
    | error e => simp [hcall]
    | ok n => simpa [hcall] using ih

/-- Whatever the order of the groups, an error means that no row was written, if and only if no
call fails or no call writes a row. -/
theorem writeGroups_allOrNothing_iff :
    (∀ groups' : List (List Model), groups'.Perm groups → AllOrNothing (writeGroups call groups')) ↔
      (∀ g ∈ groups, ∃ n, call g = .ok n) ∨ ∀ g ∈ groups, ∀ n, call g = .ok n → n = 0 := by
  constructor
  · intro h
    by_contra hno
    simp only [not_or, not_forall, not_exists] at hno
    obtain ⟨⟨bad, hbad, hfail⟩, good, hgood, n, hn, hpos⟩ := hno
    -- the group that writes rows comes first
    obtain ⟨before, after, rfl⟩ := List.append_of_mem hgood
    have hperm : (good :: (before ++ after)).Perm (before ++ good :: after) :=
      List.perm_middle.symm
    have herr : (writeGroups call (good :: (before ++ after))).2 ≠ none := fun hnone => by
      obtain ⟨n', hn'⟩ := writeGroups_error_iff.mp hnone bad (hperm.mem_iff.mpr hbad)
      exact hfail n' hn'
    have hmem : (good, n) ∈ (writeGroups call (good :: (before ++ after))).1 := by
      rw [writeGroups, hn]
      exact List.mem_cons_self
    exact hpos (h _ hperm herr _ hmem)
  · rintro (hall | hzero) groups' hperm herr c hc
    · exact absurd (writeGroups_error_iff.mpr fun g hg => hall g (hperm.mem_iff.mp hg)) herr
    · obtain ⟨hg, hcall⟩ := mem_writeGroups hc
      exact hzero c.1 (hperm.mem_iff.mp hg) c.2 hcall

end

/-- A write that fails has written no row, whatever the order of the shards, if and only if no call
for a shard fails or no call that succeeds writes a row. -/
theorem all_or_nothing_iff (op : DalOp) (plugin : Option TableSharding)
    (call : List Model → Except DbError Nat) (src : List Model) :
    (∀ order : List (List Model) → List (List Model), (∀ groups, (order groups).Perm groups) →
        AllOrNothing (op.run plugin call order src)) ↔
      ∀ groups, op.groups plugin src = .ok groups →
        (∀ g ∈ groups, ∃ n, call g = .ok n) ∨ ∀ g ∈ groups, ∀ n, call g = .ok n → n = 0 := by
  cases hgroups : op.groups plugin src with
  | error e =>
    refine iff_of_true (fun order _ => ?_) nofun
    simp only [DalOp.run, hgroups]
    exact fun _ => nofun
  | ok groups =>
    have hrun : ∀ order, op.run plugin call order src = writeGroups call (order groups) := by
      intro order
      simp only [DalOp.run, hgroups]
    simp only [hrun, Except.ok.injEq, forall_eq']
    rw [← writeGroups_allOrNothing_iff]
    constructor
    · intro h groups' hperm
      classical
      have := h (fun gs => if gs = groups then groups' else gs) fun gs => by
        split
        · next heq => rw [heq]; exact hperm
        · exact .refl _
      simpa using this
    · exact fun h order horder => h _ (horder groups)

/-- The write of the first shard succeeds, the one of the second fails. -/
def secondFails (g : List Model) : Except DbError Nat :=
  match g.head?.bind fun m => m.field "user_id".toList with
  | some (.num _ 1) => .ok 1
  | _ => .error (.other "connection lost".toList)

/-- The orders of two users are in two shards.  The row of the first stays. -/
theorem first_shard_stays :
    DalOp.save.run (some rawOrders) secondFails id [orderModel 1, orderModel 2] =
        ([([orderModel 1], 1)], some (.other "connection lost".toList)) ∧
      DalOp.delete.run (some rawOrders) secondFails id [orderModel 1, orderModel 2] =
        ([([orderModel 1], 1)], some (.other "connection lost".toList)) ∧
      (DalOp.insertInBatches 10).run (some rawOrders) secondFails id
          [orderModel 1, orderModel 2] =
        ([([orderModel 1], 1)], some (.other "connection lost".toList)) :=
  ⟨rfl, rfl, rfl⟩

/-! ## The tables of the statements -/

/-- The statements of one call.  `CreateInBatches` makes one for each batch. -/
def DalOp.statements : DalOp → List Model → List (List Model)
  | .insertInBatches batchSize, g => chunks batchSize g
  | .save, g | .delete, g => [g]

/-- What the callback of the plugin does with a statement. -/
def DalOp.dispatch (op : DalOp) (t : TableSharding) (env : Env) (p : Option PrimaryKey)
    (st : List Model) : ByModel :=
  match op with
  | .delete => t.dispatchTableByModel env ⟨t.table, some (.slice st)⟩
  | _ => t.dispatchCreateByModel env p ⟨t.table, some (.slice st)⟩

/-- The table that a model is sent to, if the model decides it. -/
def ByModel.table : ByModel → Option Text
  | .routed table => some table
  | _ => none

/-- The models that are written, with their tables. -/
def DalOp.writes (op : DalOp) (t : TableSharding) (env : Env) (p : Option PrimaryKey)
    (groups : List (List Model)) : List (Option Text × Model) :=
  groups.flatMap fun g => (op.statements g).flatMap fun st =>
    st.map fun m => ((op.dispatch t env p st).table, m)

def TableSharding.ownTable (t : TableSharding) (m : Model) : Option Text :=
  (t.modelSuffix m).toOption.map (t.table ++ ·)

/-- A map with the values of a model for the sharding keys. -/
def TableSharding.SameValues (t : TableSharding) (m : Model) (col : ValueMap) : Prop :=
  ∀ key ∈ t.shardingKeys, col key = m.field key

def DalOp.Batched : DalOp → Prop
  | .insertInBatches batchSize => 0 < batchSize
  | _ => True

/-- The partition of a list agrees with the dispatcher. -/
structure PartitionMatches (t : TableSharding) (env : Env) (p : Option PrimaryKey)
    (ms : List Model) (gs : List (Text × List Model)) : Prop where
  /-- The groups have each model once, in the order of the list. -/
  grouped : Grouped t.modelShard ms gs
  /-- Each group passes the batch check and is sent to the table with its suffix. -/
  dispatched : ∀ g ∈ gs, t.checkDiffSuffixesByModel (.slice g.2) = .ok g.1 ∧
    t.dispatchTableByModel env ⟨t.table, some (.slice g.2)⟩ = .routed (t.table ++ g.1)
  /-- Maps with the same values have the same groups. -/
  values : ∀ cols, List.Forall₂ t.SameValues ms cols →
    ∃ gs', t.shardingByValues cols = .ok gs' ∧ SameGroups t.SameValues gs gs'
  /-- Each model is written once, to the table of its keys. -/
  written : ∀ op : DalOp, op.Batched → ∀ groups, groups.Perm (gs.map Prod.snd) →
    (op.writes t env p groups).Perm (ms.map fun m => (t.ownTable m, m))

section

variable {t : TableSharding} {env : Env} {p : Option PrimaryKey} {ms : List Model}
  {gs : List (Text × List Model)} {op : DalOp}

theorem DalOp.statements_flatten (hop : op.Batched) (g : List Model) :
    (op.statements g).flatten = g := by
  cases op with
  | insertInBatches _ => exact (chunks_spec hop g).2
  | save | delete => exact List.flatten_singleton

variable {m : Model} {g : Text × List Model} {suffix : Text} {st : List Model}

theorem modelSuffix_of_grouped (h : Grouped t.modelShard ms gs) (hg : g ∈ gs) (hm : m ∈ g.2) :
    t.modelSuffix m = .ok g.1 := by
  rw [h.group g hg, withKey, List.mem_filter] at hm
  have hkey := of_decide_eq_true hm.2
  cases hs : t.modelShard m with
  | error e => rw [hs] at hkey; cases hkey
  | ok suffix =>
    rw [hs] at hkey
    rw [← Option.some.inj hkey]
    exact modelSuffix_of_modelShard hs

theorem ownTable_of_modelSuffix (h : t.modelSuffix m = .ok suffix) :
    t.ownTable m = some (t.table ++ suffix) := by
  rw [TableSharding.ownTable, h]
  rfl

/-- Each operation dispatches its models by `dispatchTableByModel`. -/
theorem DalOp.dispatch_eq
    (hpk : t.isShardingPrimaryKey = true → ∀ q, p = some q → ∀ m ∈ st, q.isZero m = false) :
    op.dispatch t env p st = t.dispatchTableByModel env ⟨t.table, some (.slice st)⟩ := by
  cases op with
  | delete => rfl
  | insertInBatches batchSize | save => exact dispatchCreateByModel_slice hpk

/-- The statements of a group write its models, each to its own table. -/
theorem writes_group (hop : op.Batched) {g : List Model}
    (h : ∀ st ∈ op.statements g, ∀ m ∈ st, (op.dispatch t env p st).table = t.ownTable m) :
    ((op.statements g).flatMap fun st => st.map fun m => ((op.dispatch t env p st).table, m)) =
      g.map fun m => (t.ownTable m, m) := by
  have hmap : ((op.statements g).flatMap fun st =>
      st.map fun m => ((op.dispatch t env p st).table, m)) =
        (op.statements g).flatMap fun st => st.map fun m => (t.ownTable m, m) :=
    List.flatMap_congr fun st hst => List.map_congr_left fun m hm => by rw [h st hst m hm]
  have hflat : ((op.statements g).flatMap fun st => st) = g :=
    List.flatMap_id.trans (DalOp.statements_flatten hop g)
  rw [hmap, ← List.map_flatMap, hflat]

variable (hpk : t.isShardingPrimaryKey = true → ∀ q, p = some q → ∀ m ∈ ms, q.isZero m = false)
  (hcreate : ∀ suffix, env.createTable suffix = .ok ())
  (hgs : t.shardingByModelList ms = .ok gs)
include hpk hcreate hgs

/-- When a statement for models of a group is routed to its shard. -/
theorem dispatch_statement_iff (hg : g ∈ gs) (hst : ∀ m' ∈ m :: st, m' ∈ g.2) :
    op.dispatch t env p (m :: st) = .routed (t.table ++ g.1) ↔
      m.blank = false ∧ noSuffix g.1 = false := by
  have hgrouped := (groupM_spec hgs).1
  have hmem : ∀ m' ∈ m :: st, m' ∈ ms := fun m' hm' =>
    hgrouped.perm.mem_iff.mp (List.mem_flatMap.mpr ⟨g, hg, hst m' hm'⟩)
  rw [DalOp.dispatch_eq fun hsp q hq m' hm' => hpk hsp q hq m' (hmem m' hm')]
  exact dispatch_group_iff (fun m' hm' => modelSuffix_of_grouped hgrouped hg (hst m' hm'))
    (hcreate g.1)

theorem not_blank_of_written (h : (DalOp.writes (.insertInBatches 1) t env p (gs.map Prod.snd)).Perm
      (ms.map fun m => (t.ownTable m, m))) (hm : m ∈ ms) (hsuffix : t.modelSuffix m = .ok suffix) :
    m.blank = false ∧ noSuffix suffix = false := by
  have hgrouped := (groupM_spec hgs).1
  obtain ⟨g, hg, hmg⟩ := List.mem_flatMap.mp (hgrouped.perm.mem_iff.mpr hm)
  have hflat : m ∈ (chunks 1 g.2).flatten := by
    rw [(chunks_spec Nat.one_pos g.2).2]
    exact hmg
  obtain ⟨st, hst, hmst⟩ := List.mem_flatten.mp hflat
  obtain ⟨hne, hlen⟩ := (chunks_spec Nat.one_pos g.2).1.ne_nil Nat.one_pos st hst
  obtain rfl : st = [m] := by
    have hone : st.length = 1 := by
      have := List.length_pos_of_ne_nil hne
      omega
    obtain ⟨m', rfl⟩ := List.length_eq_one_iff.mp hone
    rw [List.mem_singleton.mp hmst]
  have hwrite : ((DalOp.dispatch (.insertInBatches 1) t env p [m]).table, m) ∈
      ms.map fun m => (t.ownTable m, m) := by
    refine h.mem_iff.mp (List.mem_flatMap.mpr ⟨g.2, List.mem_map_of_mem hg, ?_⟩)
    exact List.mem_flatMap.mpr ⟨[m], hst, List.mem_map_of_mem (List.mem_singleton.mpr rfl)⟩
  obtain ⟨m', -, heq⟩ := List.mem_map.mp hwrite
  obtain ⟨htable, rfl⟩ := Prod.mk.inj heq
  have hown := modelSuffix_of_grouped hgrouped hg hmg
  obtain rfl : suffix = g.1 := Except.ok.inj (hsuffix.symm.trans hown)
  have hiff : DalOp.dispatch (.insertInBatches 1) t env p [m'] = .routed (t.table ++ g.1) ↔
      m'.blank = false ∧ noSuffix g.1 = false :=
    dispatch_statement_iff hpk hcreate hgs hg fun m'' hm'' => List.mem_singleton.mp hm'' ▸ hmg
  rw [← hiff]
  rw [ownTable_of_modelSuffix hown] at htable
  cases hd : DalOp.dispatch (.insertInBatches 1) t env p [m'] with
  | routed table =>
    rw [hd] at htable
    rw [Option.some.inj htable]
  | skip | otherTable | failed e => rw [hd] at htable; cases htable

/-- On success the partition of a list agrees with the dispatcher if and only if no model is blank
and no suffix is blank or a single underscore. -/
theorem partition_matches_dispatch_iff :
    PartitionMatches t env p ms gs ↔
      ∀ m ∈ ms, m.blank = false ∧ ∀ suffix, t.modelSuffix m = .ok suffix → noSuffix suffix = false := by
  obtain ⟨hgrouped, hkeys⟩ := groupM_spec hgs
  constructor
  · intro h m hm
    obtain ⟨suffix, hsuffix⟩ := hkeys m hm
    have hwritten := h.written (.insertInBatches 1) Nat.one_pos _ (.refl _)
    exact ⟨(not_blank_of_written hpk hcreate hgs hwritten hm
      (modelSuffix_of_modelShard hsuffix)).1, fun suffix' hsuffix' =>
        (not_blank_of_written hpk hcreate hgs hwritten hm hsuffix').2⟩
  · intro h
    have hmem : ∀ g ∈ gs, ∀ m ∈ g.2, m ∈ ms := fun g hg m hm =>
      hgrouped.perm.mem_iff.mp (List.mem_flatMap.mpr ⟨g, hg, hm⟩)
    have hrouted : ∀ (op : DalOp) (g : Text × List Model), g ∈ gs → ∀ st : List Model, st ≠ [] →
        (∀ m ∈ st, m ∈ g.2) → op.dispatch t env p st = .routed (t.table ++ g.1) := by
      intro op g hg st hne hst
      cases st with
      | nil => exact absurd rfl hne
      | cons m st =>
        have hm := hst m List.mem_cons_self
        obtain ⟨hblank, hno⟩ := h m (hmem g hg m hm)
        exact (dispatch_statement_iff hpk hcreate hgs hg hst).mpr
          ⟨hblank, hno _ (modelSuffix_of_grouped hgrouped hg hm)⟩
    refine ⟨hgrouped, fun g hg => ⟨?_, ?_⟩, fun cols hcols => ?_, fun op hop groups hperm => ?_⟩
    · exact checkDiffSuffixes_slice (fun m hm => modelSuffix_of_grouped hgrouped hg hm)
        (hgrouped.nonempty g hg)
    · exact hrouted .delete g hg g.2 (hgrouped.nonempty g hg) fun m hm => hm
    · have hkey : ∀ m col suffix, t.SameValues m col → t.modelShard m = .ok suffix →
          t.valuesShard col = .ok suffix := fun m col suffix => valuesShard_of_modelShard
      exact groupM_related hkey hcols hgs
    · have hgroup : ∀ g ∈ gs, ((op.statements g.2).flatMap fun st =>
          st.map fun m => ((op.dispatch t env p st).table, m)) =
            g.2.map fun m => (t.ownTable m, m) := by
        intro g hg
        refine writes_group hop fun st hst m hm => ?_
        have hin : ∀ m' ∈ st, m' ∈ g.2 := fun m' hm' => by
          rw [← DalOp.statements_flatten hop g.2]
          exact List.mem_flatten.mpr ⟨st, hst, hm'⟩
        rw [hrouted op g hg st (List.ne_nil_of_mem hm) hin,
          ownTable_of_modelSuffix (modelSuffix_of_grouped hgrouped hg (hin m hm))]
        rfl
      have hwrites : op.writes t env p (gs.map Prod.snd) =
          (gs.flatMap Prod.snd).map fun m => (t.ownTable m, m) := by
        rw [DalOp.writes, List.flatMap_map, List.flatMap_congr hgroup, List.map_flatMap]
      refine (hperm.flatMap_right _).trans ?_
      rw [← DalOp.writes, hwrites]
      exact hgrouped.perm.map _

end

def tenantModel (tenant : String) : Model :=
  ⟨false, fun column => if column = "tenant".toList then some (.string tenant.toList) else none⟩

/-- A table with the raw value of `tenant` as its suffix. -/
def rawTenants : TableSharding := rawSharding "users".toList ["tenant".toList] castString

/-- The users of two tenants. -/
theorem tenants_partitioned :
    PartitionMatches rawTenants noEnv none [tenantModel "a", tenantModel "b"]
      [("_a".toList, [tenantModel "a"]), ("_b".toList, [tenantModel "b"])] := by
  refine (partition_matches_dispatch_iff (fun _ q hq => by cases hq) (fun _ => rfl) rfl).mpr ?_
  intro m hm
  simp only [List.mem_cons, List.not_mem_nil, or_false] at hm
  rcases hm with rfl | rfl
  · exact ⟨rfl, fun suffix hs => by cases hs; rfl⟩
  · exact ⟨rfl, fun suffix hs => by cases hs; rfl⟩

/-- A user without a tenant is put under the suffix `_`, and `dispatchTableByModel` leaves the
group alone. -/
theorem no_tenant_not_dispatched :
    rawTenants.shardingByModelList [tenantModel ""] = .ok [("_".toList, [tenantModel ""])] ∧
      rawTenants.dispatchTableByModel noEnv ⟨"users".toList, some (.slice [tenantModel ""])⟩ =
        .skip :=
  ⟨rfl, rfl⟩

end Gofusion.Db
