import Kvdb.Command.Elements
import Kvdb.Command.Writes

/-!
# A stored set refines a finite set

The elements of a set are its members, each stored once with an empty value.
`SADD` and `SREM` look members up in the store as it was before the command, but
handle a repeated argument only once, so what they count is by how much the
number of members changes. The size of the record is that number as long as it
fits a counter.
-/

namespace Kvdb

open Data Semantics Cmd

variable {ctx : CommandContext} {key : Bytes} {v : UInt64} {store after : Store} {env : Env}
  {meta' : Metadata} {members : Finset Bytes}

section FirstTimes

variable {α : Type} [DecidableEq α] {test : α → Bool} {m : α}

/-- The arguments that pass a test, each at its first occurrence, without those
seen before. -/
def firstTimes (test : α → Bool) : List α → List α → List α
  | [], _ => []
  | m :: rest, seen =>
    if m ∈ seen then firstTimes test rest seen
    else if test m then m :: firstTimes test rest (m :: seen)
    else firstTimes test rest (m :: seen)

theorem mem_firstTimes {args seen : List α} :
    m ∈ firstTimes test args seen ↔ m ∈ args ∧ m ∉ seen ∧ test m = true := by
  fun_induction firstTimes test args seen with
  | case1 => simp
  | case2 first rest seen old ih =>
    rw [ih, List.mem_cons]
    -- The argument that is skipped was seen before.
    have other : m ∉ seen → m ≠ first := fun unseen same => unseen (same ▸ old)
    tauto
  | case3 first rest seen fresh passes ih =>
    rw [List.mem_cons, ih, List.mem_cons, List.mem_cons]
    by_cases same : m = first
    · subst same
      simp [fresh, passes]
    · simp [same]
  | case4 first rest seen fresh fails ih =>
    rw [ih, List.mem_cons, List.mem_cons]
    by_cases same : m = first
    · subst same
      simp [fails]
    · simp [same]

theorem firstTimes_nodup (args seen : List α) : (firstTimes test args seen).Nodup := by
  fun_induction firstTimes test args seen with
  | case1 => exact List.nodup_nil
  | case2 first rest seen old ih => exact ih
  | case3 first rest seen fresh passes ih =>
    refine List.nodup_cons.mpr ⟨fun inside => ?_, ih⟩
    exact (mem_firstTimes.mp inside).2.1 List.mem_cons_self
  | case4 first rest seen fresh fails ih => exact ih

end FirstTimes

section Loops

/-- A member is not stored yet. -/
def isNewMember (ctx : CommandContext) (key : Bytes) (v : UInt64) (store : Store) (m : Bytes) :
    Bool :=
  (store.get .subkey (ctx.subKey key v m)).isNone

def isMember (ctx : CommandContext) (key : Bytes) (v : UInt64) (store : Store) (m : Bytes) : Bool :=
  (store.get .subkey (ctx.subKey key v m)).isSome

theorem exec_saddLoop (args seen : List Bytes) (batch : WriteBatch) (added : Int64) :
    let names := firstTimes (isNewMember ctx key v store) args seen
    exec env (saddLoop ctx key v args seen batch added) store =
      (.ok (batch ++ putElements ctx key v (names.map fun m => (m, [])),
        added + Int64.ofNat names.length), store) := by
  induction args generalizing seen batch added with
  | nil => simp [saddLoop, firstTimes, putElements]
  | cons m rest ih =>
    rw [saddLoop, firstTimes]
    by_cases old : m ∈ seen
    · rw [if_pos old, if_pos old]
      exact ih seen batch added
    rw [if_neg old, if_neg old, exec_get_bind]
    cases found : store.get .subkey (ctx.subKey key v m) with
    | some value =>
      rw [if_neg (by simp [isNewMember, found])]
      exact ih (m :: seen) batch added
    | none =>
      rw [if_pos (by simp [isNewMember, found])]
      intro names
      refine (ih (m :: seen) _ _).trans ?_
      rw [int64_add_one_add]
      simp [names, putElements]

theorem exec_sremLoop (args seen : List Bytes) (batch : WriteBatch) (removed : Int64) :
    let names := firstTimes (isMember ctx key v store) args seen
    exec env (sremLoop ctx key v args seen batch removed) store =
      (.ok (batch ++ deleteElements ctx key v names, removed + Int64.ofNat names.length),
        store) := by
  induction args generalizing seen batch removed with
  | nil => simp [sremLoop, firstTimes, deleteElements]
  | cons m rest ih =>
    rw [sremLoop, firstTimes]
    by_cases old : m ∈ seen
    · rw [if_pos old, if_pos old]
      exact ih seen batch removed
    rw [if_neg old, if_neg old, exec_get_bind]
    cases found : store.get .subkey (ctx.subKey key v m) with
    | none =>
      rw [if_neg (by simp [isMember, found])]
      exact ih (m :: seen) batch removed
    | some value =>
      rw [if_pos (by simp [isMember, found])]
      intro names
      refine (ih (m :: seen) _ _).trans ?_
      rw [int64_add_one_add]
      simp [names, deleteElements]

end Loops

section Contents

/-- Which members are stored after some were added. -/
theorem isMember_putElements (names : List Bytes) (m : Bytes) :
    isMember ctx key v (store.write (putElements ctx key v (names.map fun m => (m, [])))) m = true ↔
      isMember ctx key v store m = true ∨ m ∈ names := by
  induction names generalizing store with
  | nil => simp [putElements]
  | cons first names ih =>
    have stored :
        isMember ctx key v (store.apply (.put .subkey (ctx.subKey key v first) [])) m = true ↔
          isMember ctx key v store m = true ∨ m = first := by
      by_cases same : m = first <;> simp [isMember, Store.get_apply_put, same]
    rw [List.mem_cons, ← or_assoc, ← stored]
    exact ih

/-- Which members are stored after some were deleted. -/
theorem isMember_deleteElements (names : List Bytes) (m : Bytes) :
    isMember ctx key v (store.write (deleteElements ctx key v names)) m = true ↔
      isMember ctx key v store m = true ∧ m ∉ names := by
  induction names generalizing store with
  | nil => simp [deleteElements]
  | cons first names ih =>
    have stored :
        isMember ctx key v (store.apply (.delete .subkey (ctx.subKey key v first))) m = true ↔
          isMember ctx key v store m = true ∧ m ≠ first := by
      by_cases same : m = first <;> simp [isMember, Store.get_apply_delete, same]
    rw [List.mem_cons, not_or, ← and_assoc, ← stored]
    exact ih

/-- The elements of the record's version are the members, and its size counts
them. -/
structure SetHolds (ctx : CommandContext) (key : Bytes) (members : Finset Bytes) (meta' : Metadata)
    (store : Store) : Prop where
  proper : meta'.Proper .set
  size : meta'.size.toNat = members.card
  stored : ∀ m, isMember ctx key meta'.version store m = true ↔ m ∈ members

/-- The key is absent and has no members, or its record holds them. -/
def SetRefines (ctx : CommandContext) (key : Bytes) (members : Finset Bytes) (store : Store) :
    Prop :=
  (ctx.lookupMeta store key = none ∧ members = ∅) ∨
    ∃ meta', Recorded ctx key meta' store ∧ SetHolds ctx key members meta' store

theorem SetHolds.new (unused : Unused ctx key v store) :
    SetHolds ctx key ∅ (Metadata.new .set v) store where
  proper := Metadata.new_proper .set v
  size := rfl
  stored := by
    intro m
    have missing := unused .subkey (by decide) m
    simp [isMember, Metadata.new, missing]

/-- A batch on the elements and then the record with the new size. -/
theorem SetHolds.wrote {members' : Finset Bytes} {size : UInt64} {batch : WriteBatch}
    (holds : SetHolds ctx key members meta' store) (counted : size.toNat = members'.card)
    (stored : ∀ m, isMember ctx key meta'.version (store.write batch) m = true ↔ m ∈ members') :
    SetRefines ctx key members' (store.write (batch ++
      [.put .metadata (ctx.metaKey key) (encodeMetadata { meta' with size })])) := by
  rw [Store.write_append, Store.write_singleton]
  refine .inr ⟨{ meta' with size }, recorded_put, holds.proper.resize size, counted, fun m => ?_⟩
  rw [← stored m, isMember, isMember, Store.get_apply_of_ne _ (by simp [BatchOp.cf])]

/-- The loop of `SADD` prepares to store the arguments that are no members yet. -/
theorem SetHolds.exec_saddLoop (holds : SetHolds ctx key members meta' store) (args : List Bytes) :
    ∃ names : List Bytes, names.toFinset = args.toFinset \ members ∧ names.Nodup ∧
      exec env (saddLoop ctx key meta'.version args [] [] 0) store =
        (.ok (putElements ctx key meta'.version (names.map fun m => (m, [])),
          Int64.ofNat names.length), store) := by
  refine ⟨firstTimes (isNewMember ctx key meta'.version store) args [], ?_,
    firstTimes_nodup _ _, ?_⟩
  · ext m
    rw [List.mem_toFinset, mem_firstTimes, Finset.mem_sdiff, ← holds.stored m,
      isNewMember, isMember]
    cases store.get .subkey (ctx.subKey key meta'.version m) <;> simp
  · rw [Kvdb.exec_saddLoop, Int64.zero_add, List.nil_append]

/-- The loop of `SREM` prepares to delete the arguments that are members. -/
theorem SetHolds.exec_sremLoop (holds : SetHolds ctx key members meta' store) (args : List Bytes) :
    ∃ names : List Bytes, names.toFinset = args.toFinset ∩ members ∧ names.Nodup ∧
      exec env (sremLoop ctx key meta'.version args [] [] 0) store =
        (.ok (deleteElements ctx key meta'.version names, Int64.ofNat names.length), store) := by
  refine ⟨firstTimes (isMember ctx key meta'.version store) args [], ?_, firstTimes_nodup _ _, ?_⟩
  · ext m
    rw [List.mem_toFinset, mem_firstTimes, Finset.mem_inter, ← holds.stored m]
    simp
  · rw [Kvdb.exec_sremLoop, Int64.zero_add, List.nil_append]

end Contents

section Commands

variable {member : Bytes} {rest : List Bytes}

/-- What `SADD` starts from. -/
theorem SetRefines.base (refines : SetRefines ctx key members store)
    (unused : ctx.lookupMeta store key = none → Unused ctx key env.version store) :
    ∃ meta' isNew, exec env (ensureSetMeta ctx key) store = (.ok (meta', isNew), store) ∧
      SetHolds ctx key members meta' store ∧ (isNew = false → Recorded ctx key meta' store) := by
  rcases refines with ⟨absent, rfl⟩ | ⟨meta', recorded, holds⟩
  · refine ⟨Metadata.new .set env.version, true, ?_, .new (unused absent), nofun⟩
    exact exec_bind_ok (exec_loadLiveMeta_of_absent absent)
  · refine ⟨meta', false, ?_, holds, fun _ => recorded⟩
    exact exec_bind_ok (exec_loadLiveMeta_of_recorded recorded holds.proper (by decide))

theorem toNat_saturatingAdd_ofNat {size : UInt64} {n : ℕ} (fits : size.toNat + n < 2 ^ 64) :
    (saturatingAdd size (Int64.ofNat n).toUInt64).toNat = size.toNat + n := by
  have added : (Int64.ofNat n).toUInt64.toNat = n := Nat.mod_eq_of_lt (by omega)
  rw [saturatingAdd, added, if_pos fits, UInt64.toNat_add, added, Nat.mod_eq_of_lt fits]

/-- `SADD` adds its arguments to the set and replies by how much it grew. -/
theorem SetRefines.exec_sadd (refines : SetRefines ctx key members store)
    (unused : ctx.lookupMeta store key = none → Unused ctx key env.version store)
    (small : ((member :: rest).toFinset \ members).card < 2 ^ 63)
    (fits : (members ∪ (member :: rest).toFinset).card < 2 ^ 64) :
    ∃ after, exec env (Cmd.sadd ctx (key :: member :: rest)) store =
        (.ok (.integer (Int64.ofNat ((member :: rest).toFinset \ members).card)), after) ∧
      SetRefines ctx key (members ∪ (member :: rest).toFinset) after := by
  obtain ⟨meta', isNew, loaded, holds, recorded⟩ := refines.base unused
  obtain ⟨names, added, nodup, ran⟩ := @SetHolds.exec_saddLoop ctx key store env meta' members holds
    (member :: rest)
  have grown : members ∪ (member :: rest).toFinset = members ∪ names.toFinset := by
    rw [added, Finset.union_sdiff_self_eq_union]
  have card : (members ∪ names.toFinset).card = members.card + names.length := by
    rw [Finset.card_union_of_disjoint (added ▸ Finset.disjoint_sdiff),
      List.toFinset_card_of_nodup nodup]
  rw [← added, List.toFinset_card_of_nodup nodup] at small ⊢
  rw [grown] at fits ⊢
  by_cases writes : 0 < Int64.ofNat names.length ∨ isNew = true
  · have counted : (saturatingAdd meta'.size (Int64.ofNat names.length).toUInt64).toNat =
        (members ∪ names.toFinset).card := by
      have size := holds.size
      rw [toNat_saturatingAdd_ofNat (by omega), size, card]
    have stored : ∀ m, isMember ctx key meta'.version (store.write
        (putElements ctx key meta'.version (names.map fun m => (m, [])))) m = true ↔
        m ∈ members ∪ names.toFinset := by
      intro m
      rw [isMember_putElements, holds.stored, Finset.mem_union, List.mem_toFinset]
    refine ⟨_, ?_, holds.wrote counted stored⟩
    rw [Cmd.sadd, exec_bind_ok loaded, exec_bind_ok ran]
    simp only [if_pos writes]
    rfl
  · -- Nothing is written when there is nothing to add to a set that exists.
    obtain ⟨none, old⟩ := not_or.mp writes
    rw [int64_ofNat_pos small, Nat.pos_iff_ne_zero, not_not] at none
    refine ⟨store, ?_, ?_⟩
    · rw [Cmd.sadd, exec_bind_ok loaded, exec_bind_ok ran]
      simp only [if_neg writes]
      rfl
    · rw [List.length_eq_zero_iff.mp none, List.toFinset_nil, Finset.union_empty]
      exact .inr ⟨meta', recorded (Bool.not_eq_true _ ▸ old), holds⟩

/-- `SREM` takes its arguments out of the set and replies by how much it
shrank. -/
theorem SetRefines.exec_srem (refines : SetRefines ctx key members store)
    (fits : members.card < 2 ^ 63) (env : Env) (member : Bytes) (rest : List Bytes) :
    ∃ after, exec env (Cmd.srem ctx (key :: member :: rest)) store =
        (.ok (.integer (Int64.ofNat ((member :: rest).toFinset ∩ members).card)), after) ∧
      SetRefines ctx key (members \ (member :: rest).toFinset) after := by
  rcases refines with ⟨absent, rfl⟩ | ⟨meta', recorded, holds⟩
  · refine ⟨store, ?_, .inl ⟨absent, Finset.empty_sdiff _⟩⟩
    rw [Finset.inter_empty]
    exact exec_bind_ok (exec_loadLiveMeta_of_absent absent)
  have loaded : exec env (readSetMetadata ctx key) store = (.ok (some meta'), store) :=
    exec_loadLiveMeta_of_recorded recorded holds.proper (by decide)
  obtain ⟨names, removed, nodup, ran⟩ :=
    @SetHolds.exec_sremLoop ctx key store env meta' members holds
    (member :: rest)
  have shrunk : members \ (member :: rest).toFinset = members \ names.toFinset := by
    rw [removed, Finset.inter_comm, Finset.sdiff_inter_self_left]
  have within : names.toFinset ⊆ members := removed ▸ Finset.inter_subset_right
  have card : (members \ names.toFinset).card = members.card - names.length := by
    rw [Finset.card_sdiff_of_subset within, List.toFinset_card_of_nodup nodup]
  have few : names.length ≤ members.card := by
    rw [← List.toFinset_card_of_nodup nodup]
    exact Finset.card_le_card within
  rw [← removed, List.toFinset_card_of_nodup nodup, shrunk]
  by_cases writes : 0 < Int64.ofNat names.length
  · have taken : (Int64.ofNat names.length).toUInt64.toNat = names.length :=
      Nat.mod_eq_of_lt (by omega)
    have counted : (saturatingSub meta'.size (Int64.ofNat names.length).toUInt64).toNat =
        (members \ names.toFinset).card := by
      rw [toNat_saturatingSub, taken, holds.size, card]
    have stored : ∀ m, isMember ctx key meta'.version
        (store.write (deleteElements ctx key meta'.version names)) m = true ↔
        m ∈ members \ names.toFinset := by
      intro m
      rw [isMember_deleteElements, holds.stored, Finset.mem_sdiff, List.mem_toFinset]
    refine ⟨_, ?_, holds.wrote counted stored⟩
    rw [Cmd.srem, exec_bind_ok loaded]
    simp only [exec_bind_ok ran, if_pos writes]
    rfl
  · have none := writes
    rw [int64_ofNat_pos (by omega), Nat.pos_iff_ne_zero, not_not] at none
    refine ⟨store, ?_, ?_⟩
    · rw [Cmd.srem, exec_bind_ok loaded]
      simp only [exec_bind_ok ran, if_neg writes]
      rfl
    · rw [List.length_eq_zero_iff.mp none, List.toFinset_nil, Finset.sdiff_empty]
      exact .inr ⟨meta', recorded, holds⟩

end Commands

section Reads

theorem SetRefines.exec_scard (refines : SetRefines ctx key members store) :
    exec env (Cmd.scard ctx [key]) store = (.ok (.integer (Int64.ofNat members.card)), store) := by
  rcases refines with ⟨absent, rfl⟩ | ⟨meta', recorded, holds⟩
  · exact exec_bind_ok (exec_loadLiveMeta_of_absent absent)
  · refine (exec_bind_ok (exec_loadLiveMeta_of_recorded recorded holds.proper (by decide))).trans ?_
    rw [← holds.size, ← toInt64_eq_ofNat]
    rfl

theorem SetRefines.exec_sismember (refines : SetRefines ctx key members store) (m : Bytes) :
    exec env (sismember ctx [key, m]) store =
      (.ok (.integer (if m ∈ members then 1 else 0)), store) := by
  rcases refines with ⟨absent, rfl⟩ | ⟨meta', recorded, holds⟩
  · exact exec_bind_ok (exec_loadLiveMeta_of_absent absent)
  · refine (exec_bind_ok (exec_loadLiveMeta_of_recorded recorded holds.proper (by decide))).trans ?_
    simp only [← holds.stored m]
    rfl

def setMembers (ctx : CommandContext) (env : Env) (store : Store) (key : Bytes) : Finset Bytes :=
  match ctx.liveMeta env store .set "invalid set metadata" key with
  | .ok (some meta') => ((elements ctx .subkey key meta'.version store).map Prod.fst).toFinset
  | _ => ∅

theorem SetHolds.toFinset_elements (holds : SetHolds ctx key members meta' store) :
    ((elements ctx .subkey key meta'.version store).map Prod.fst).toFinset = members := by
  ext m
  rw [← holds.stored m, isMember, List.mem_toFinset, List.mem_map, Option.isSome_iff_exists]
  constructor
  · rintro ⟨⟨name, value⟩, inside, rfl⟩
    exact ⟨value, mem_elements.mp inside⟩
  · rintro ⟨value, stored⟩
    exact ⟨(m, value), mem_elements.mpr stored, rfl⟩

theorem SetRefines.setMembers_eq (refines : SetRefines ctx key members store) (env : Env) :
    setMembers ctx env store key = members := by
  rcases refines with ⟨absent, rfl⟩ | ⟨meta', recorded, holds⟩
  · rw [setMembers, liveMeta_of_absent absent]
  · rw [setMembers, liveMeta_of_recorded recorded holds.proper (by decide)]
    exact holds.toFinset_elements

/-- `SMEMBERS` lists every member once. -/
theorem SetRefines.exec_smembers (refines : SetRefines ctx key members store)
    (short : key.length < 2 ^ 32) (env : Env) :
    ∃ listed : List Bytes, listed.Nodup ∧ listed.toFinset = members ∧
      exec env (smembers ctx [key]) store =
        (.ok (.array (listed.map fun m => .bulkString (some m))), store) := by
  rcases refines with ⟨absent, rfl⟩ | ⟨meta', recorded, holds⟩
  · exact ⟨[], List.nodup_nil, rfl, exec_bind_ok (exec_loadLiveMeta_of_absent absent)⟩
  let names := (elements ctx .subkey key meta'.version store).map Prod.fst
  have nodup : names.Nodup := elements_nodup ..
  have loaded : exec env (loadMembers ctx key meta') store =
      (.ok (env.hashOrder names), store) := by
    rw [loadMembers, exec_bind_ok exec_prefixScan, behind_eq_elements, List.filterMap_map]
    -- Every key of the scan is one of this version, so its member is kept.
    simp only [Function.comp_def, ctx.parseSubkey_subKey _ _ short, and_self, if_true,
      List.filterMap_eq_map']
    rw [nodup.dedup]
    rfl
  have perm := env.hashOrder_perm names
  refine ⟨env.hashOrder names, perm.nodup_iff.mpr nodup, ?_, ?_⟩
  · rw [List.toFinset_eq_of_perm _ _ perm]
    exact holds.toFinset_elements
  · refine (exec_bind_ok (exec_loadLiveMeta_of_recorded recorded holds.proper (by decide))).trans ?_
    exact exec_bind_ok loaded

end Reads

section Requests

/-- What a request does to the set itself. -/
def Request.onMembers (members : Finset Bytes) (request : Request) : Finset Bytes :=
  match request.command with
  | .sadd => members ∪ request.args.tail.toFinset
  | .srem => members \ request.args.tail.toFinset
  | _ => members

/-- A request on the set of a key, with any arguments. A version that is drawn
for an absent key is a new one. -/
structure SetRequest (ctx : CommandContext) (key : Bytes) (store : Store) (request : Request) :
    Prop where
  listed : request.command ∈ [Command.sadd, .srem]
  onKey : request.args.head? = some key
  unused : ctx.lookupMeta store key = none → Unused ctx key request.env.version store

/-- A request changes the stored set as it changes the set itself. -/
theorem SetRefines.step {request : Request} (refines : SetRefines ctx key members store)
    (allowed : SetRequest ctx key store request) (before : members.card < 2 ^ 63)
    (bounded : (request.onMembers members).card < 2 ^ 63) :
    SetRefines ctx key (request.onMembers members) (request.after ctx store) := by
  obtain ⟨command, args, env⟩ := request
  obtain ⟨listed, onKey, unused⟩ := allowed
  obtain ⟨rest, rfl⟩ := List.head?_eq_some_iff.mp onKey
  simp only [List.mem_cons, List.not_mem_nil, or_false] at listed
  rcases listed with rfl | rfl
  · cases rest with
    | nil =>
      have same : Request.onMembers members ⟨.sadd, [key], env⟩ = members := Finset.union_empty _
      rwa [same]
    | cons member rest =>
      have small : ((member :: rest).toFinset \ members).card < 2 ^ 63 :=
        (Finset.card_le_card (Finset.sdiff_subset.trans Finset.subset_union_right)).trans_lt bounded
      obtain ⟨after, ran, refines'⟩ :=
        refines.exec_sadd unused small (bounded.trans (by decide))
      rw [Request.after_eq_of_exec ctx ran]
      exact refines'
  · cases rest with
    | nil =>
      have same : Request.onMembers members ⟨.srem, [key], env⟩ = members := Finset.sdiff_empty
      rwa [same]
    | cons member rest =>
      obtain ⟨after, ran, refines'⟩ := refines.exec_srem before env member rest
      rw [Request.after_eq_of_exec ctx ran]
      exact refines'

/-- In a run of set commands the set itself stays below `2 ^ 63` members. -/
def FewMembers (requests : List Request) : Prop :=
  AtEveryState Request.onMembers (fun _ members => members.card < 2 ^ 63) ∅ requests

theorem SetRefines.run {start : Store} {requests : List Request}
    (run : Runs ctx (SetRequest ctx key) start requests store)
    (absent : ctx.lookupMeta start key = none) (few : FewMembers requests) :
    SetRefines ctx key (requests.foldl Request.onMembers ∅) store := by
  refine run.invariant_of_steps (fun requests store => FewMembers requests →
    SetRefines ctx key (requests.foldl Request.onMembers ∅) store)
      (fun _ => .inl ⟨absent, rfl⟩) ?_ few
  intro requests state request _ allowed refines few
  obtain ⟨earlier, last⟩ := (atEveryState_concat request).mp few
  have before := earlier requests.length le_rfl
  rw [List.take_length] at before
  rw [List.foldl_concat] at last ⊢
  exact (refines earlier).step allowed before last

/-- In every run of `SADD` and `SREM` on a key, starting where the key is absent,
the members under the live version are the set itself: `SCARD` replies its
cardinality, `SISMEMBER` whether a member is in it, and `SMEMBERS` lists it.
`SADD` replies by how much the set grows and `SREM` by how much it shrinks. This
is provided that the set never has `2 ^ 63` members, which no reply can count. -/
theorem set_refines_finset {start : Store} {requests : List Request} (short : key.length < 2 ^ 32)
    (run : Runs ctx (SetRequest ctx key) start requests store)
    (absent : ctx.lookupMeta start key = none) (few : FewMembers requests) (env : Env) :
    let members := requests.foldl Request.onMembers ∅
    setMembers ctx env store key = members ∧
    (∃ n : Int64, n.toInt = members.card ∧
      Request.reply ctx store ⟨.scard, [key], env⟩ = .ok (.integer n)) ∧
    (∀ m, Request.reply ctx store ⟨.sismember, [key, m], env⟩ =
      .ok (.integer (if m ∈ members then 1 else 0))) ∧
    (∃ listed : List Bytes, listed.Nodup ∧ listed.toFinset = members ∧
      Request.reply ctx store ⟨.smembers, [key], env⟩ =
        .ok (.array (listed.map fun m => .bulkString (some m)))) ∧
    (∀ args, args ≠ [] → SetRequest ctx key store ⟨.sadd, key :: args, env⟩ →
      (members ∪ args.toFinset).card < 2 ^ 63 →
      ∃ n : Int64, n.toInt = (members ∪ args.toFinset).card - members.card ∧
        Request.reply ctx store ⟨.sadd, key :: args, env⟩ = .ok (.integer n)) ∧
    ∀ args, args ≠ [] →
      ∃ n : Int64, n.toInt = members.card - (members \ args.toFinset).card ∧
        Request.reply ctx store ⟨.srem, key :: args, env⟩ = .ok (.integer n) := by
  intro members
  have refines : SetRefines ctx key members store := SetRefines.run run absent few
  have bounded : members.card < 2 ^ 63 := by
    have last := few requests.length le_rfl
    rwa [List.take_length] at last
  refine ⟨refines.setMembers_eq env, ?_, ?_, ?_, ?_, ?_⟩
  · exact ⟨_, Int64.toInt_ofNat_of_lt bounded, Request.reply_eq_ok ctx refines.exec_scard⟩
  · intro m
    exact Request.reply_eq_ok ctx (refines.exec_sismember m)
  · obtain ⟨listed, nodup, same, ran⟩ := refines.exec_smembers short env
    exact ⟨listed, nodup, same, Request.reply_eq_ok ctx ran⟩
  · intro args some allowed room
    obtain ⟨member, rest, rfl⟩ := List.exists_cons_of_ne_nil some
    have small : ((member :: rest).toFinset \ members).card < 2 ^ 63 :=
      (Finset.card_le_card (Finset.sdiff_subset.trans Finset.subset_union_right)).trans_lt room
    obtain ⟨after, ran, -⟩ := refines.exec_sadd allowed.unused small (room.trans (by decide))
    refine ⟨_, ?_, Request.reply_eq_ok ctx ran⟩
    rw [Int64.toInt_ofNat_of_lt small, ← Finset.union_sdiff_self_eq_union,
      Finset.card_union_of_disjoint Finset.disjoint_sdiff]
    omega
  · intro args some
    obtain ⟨member, rest, rfl⟩ := List.exists_cons_of_ne_nil some
    obtain ⟨after, ran, -⟩ := refines.exec_srem bounded env member rest
    refine ⟨_, ?_, Request.reply_eq_ok ctx ran⟩
    have split := Finset.card_sdiff_add_card_inter members (member :: rest).toFinset
    rw [Int64.toInt_ofNat_of_lt (by rw [Finset.inter_comm]; omega), Finset.inter_comm]
    omega

/-- Repeated members within and across commands, the empty one among them. -/
theorem set_refines_finset_of_repeats :
    let first : Request := ⟨.sadd, [ascii "s", [], ascii "a", []], .plain 7⟩
    let second : Request := ⟨.srem, [ascii "s", ascii "a", ascii "b", ascii "a"], .plain 8⟩
    let store := second.after .plain (first.after .plain .empty)
    setMembers .plain (.plain 9) store (ascii "s") = {[]} ∧
    ∃ n : Int64, n.toInt = 1 ∧ Request.reply .plain store ⟨.scard, [ascii "s"], .plain 9⟩ =
      .ok (.integer n) := by
  intro first second store
  have unused : Unused .plain (ascii "s") (Env.plain 7).version .empty := fun _ _ _ => rfl
  have present : CommandContext.plain.lookupMeta (first.after .plain .empty)
      (ascii "s") ≠ none := by
    decide
  have run : Runs .plain (SetRequest .plain (ascii "s")) .empty [first, second] store := by
    refine .next (.single ⟨by decide, rfl, fun _ => unused⟩) ⟨by decide, rfl, fun absent => ?_⟩
    exact absurd absent present
  have few : FewMembers [first, second] := by
    have two : ∀ n ≤ 2, (([first, second].take n).foldl Request.onMembers ∅).card ≤ 2 := by
      decide
    intro n within
    exact (two n within).trans_lt (by decide)
  obtain ⟨stored, ⟨n, counts, reply⟩, -⟩ :=
    set_refines_finset (by decide) run rfl few (.plain 9)
  exact ⟨stored, n, counts, reply⟩

def addNumber (i : ℕ) : Request := ⟨.sadd, [ascii "s", u64Bytes (UInt64.ofNat i)], .plain 7⟩

def numberMembers (n : ℕ) : Finset Bytes :=
  (Finset.range n).image fun i => u64Bytes (UInt64.ofNat i)

theorem card_numberMembers {n : ℕ} (small : n ≤ 2 ^ 64) : (numberMembers n).card = n := by
  rw [numberMembers, Finset.card_image_of_injOn, Finset.card_range]
  intro i inside j inside' same
  have less := Finset.mem_range.mp inside
  have less' := Finset.mem_range.mp inside'
  have words : UInt64.ofNat i = UInt64.ofNat j := u64Bytes_injective same
  have values := congrArg UInt64.toNat words
  rwa [UInt64.toNat_ofNat', UInt64.toNat_ofNat', Nat.mod_eq_of_lt (by omega),
    Nat.mod_eq_of_lt (by omega)] at values

theorem numberMembers_succ (n : ℕ) :
    numberMembers (n + 1) = (addNumber n).onMembers (numberMembers n) := by
  ext m
  simp [numberMembers, Request.onMembers, addNumber, Finset.range_add_one]

/-- Adding one number after the other. -/
theorem run_addNumber (n : ℕ) (small : n ≤ 2 ^ 63) :
    ∃ store,
      Runs .plain (SetRequest .plain (ascii "s")) .empty ((List.range n).map addNumber) store ∧
      SetRefines .plain (ascii "s") (numberMembers n) store ∧
      ((List.range n).map addNumber).foldl Request.onMembers ∅ = numberMembers n := by
  induction n with
  | zero => exact ⟨.empty, .refl, .inl ⟨rfl, rfl⟩, rfl⟩
  | succ n ih =>
    obtain ⟨store, run, refines, same⟩ := ih (by omega)
    have count := @card_numberMembers n (by omega)
    have count' := @card_numberMembers (n + 1) (by omega)
    have unused : CommandContext.plain.lookupMeta store (ascii "s") = none →
        Unused .plain (ascii "s") (Env.plain 7).version store := by
      intro absent
      -- The key is absent only before the first request.
      cases n with
      | zero =>
        obtain rfl := run.eq_foldl
        exact fun _ _ _ => rfl
      | succ n =>
        rcases refines with ⟨-, none⟩ | ⟨meta', recorded, -⟩
        · rw [none, Finset.card_empty] at count
          omega
        · rw [recorded.lookup] at absent
          cases absent
    have one : ([u64Bytes (UInt64.ofNat n)].toFinset \ numberMembers n).card ≤ 1 :=
      Finset.card_le_card Finset.sdiff_subset
    rw [numberMembers_succ] at count'
    obtain ⟨after, ran, refines'⟩ := refines.exec_sadd unused (one.trans_lt (by decide))
      (count'.trans_lt (by omega))
    have next : (addNumber n).after .plain store = after := Request.after_eq_of_exec .plain ran
    rw [List.range_succ, List.map_append, List.map_singleton]
    refine ⟨(addNumber n).after .plain store, run.next ⟨List.mem_cons_self, rfl, unused⟩, ?_, ?_⟩
    · rw [next, numberMembers_succ]
      exact refines'
    · rw [List.foldl_concat, same, numberMembers_succ]

/-- After `2 ^ 63` members were added, one by one, `SCARD` replies a negative
number. -/
theorem scard_negative :
    ∃ requests store, Runs .plain (SetRequest .plain (ascii "s")) .empty requests store ∧
      (requests.foldl Request.onMembers ∅).card = 2 ^ 63 ∧
      Request.reply .plain store ⟨.scard, [ascii "s"], .plain 7⟩ =
        .ok (.integer Int64.minValue) := by
  obtain ⟨store, run, refines, same⟩ := run_addNumber (2 ^ 63) le_rfl
  have count := @card_numberMembers (2 ^ 63) (by decide)
  refine ⟨_, store, run, same ▸ count, ?_⟩
  have wrapped : Int64.ofNat (2 ^ 63) = Int64.minValue := by decide
  rw [← wrapped, ← count]
  exact Request.reply_eq_ok .plain refines.exec_scard

end Requests

end Kvdb
