import Kvdb.Deletion
import Kvdb.Namespaces

/-!
# How many keys there are

`DBSIZE` pages through the metadata of a namespace and counts the values whose
deadline has not passed. `EXISTS` looks a key up and asks for no deadline, and in a
named namespace it also looks where the key would be without one. The two count the
same keys as long as no stored key has passed its deadline and no stored entry can be
mistaken for one without a namespace.
-/

namespace Kvdb

open Data Semantics Cmd

section Counts

variable {ctx : CommandContext} {env : Env} {store : Store}

/-- The value has passed its deadline, which `DBSIZE` reads in the layout of strings. -/
def lapsed (env : Env) (value : Bytes) : Bool :=
  match decodeString value with
  | none => false
  | some (_, expire, _) => expiredAt expire env.nowMs

theorem exec_dbsizeBody (count : Int64) (item : Entry) :
    exec env (dbsizeBody count item) store =
      (.ok (.yield (if lapsed env item.2 then count else count + 1)), store) := by
  unfold dbsizeBody lapsed
  cases decodeString item.2 with
  | none => rfl
  | some fields => rfl

theorem exec_forEach_dbsizeBody (items : List Entry) (count : Int64) :
    exec env (forEach dbsizeBody items count) store =
      (.ok (.yield (count + Int64.ofNat (items.filter fun e => !lapsed env e.2).length)),
        store) := by
  induction items generalizing count with
  | nil => simp [forEach]
  | cons item items ih =>
    rw [forEach, exec_bind_ok (exec_dbsizeBody count item)]
    dsimp only
    rw [ih]
    by_cases gone : lapsed env item.2
    · rw [if_pos gone, List.filter_cons_of_neg (by simpa using gone)]
    · rw [if_neg gone, List.filter_cons_of_pos (by simpa using gone), List.length_cons,
        int64_add_one_add]

/-- `DBSIZE` counts the entries of the namespace that have not passed their deadline. -/
theorem reply_dbsize (args : List Bytes) :
    Request.reply ctx store ⟨.dbsize, args, env⟩ =
      .ok (.integer (Int64.ofNat ((store.behind .metadata (namespacePrefix ctx)).filter
        fun e => !lapsed env e.2).length)) := by
  have positive : 0 < flushBatchSize := by decide
  have small : flushBatchSize ≤ maxPageLimit := by decide
  have counted := @exec_forEachPage store .metadata (namespacePrefix ctx) flushBatchSize env
    Entry Int64 (fun start => prefixScanPage .metadata (namespacePrefix ctx) start flushBatchSize)
    id dbsizeBody
    (fun start rest position => by rw [exec_prefixScanPage position positive small, List.map_id])
    (fun count item => by rw [exec_dbsizeBody]) positive (.inr (.inl (by decide))) 0
  rw [List.map_id, exec_bind_ok (exec_forEach_dbsizeBody _ _), Int64.zero_add] at counted
  exact Request.reply_eq_ok ctx (exec_bind_ok counted)

theorem reply_exists_eq_one (key : Bytes) :
    Request.reply ctx store ⟨.exists', [key], env⟩ = .ok (.integer 1) ↔
      (ctx.lookupMeta store key).isSome := by
  rw [reply_exists]
  by_cases found : (ctx.lookupMeta store key).isSome <;> simp [found]

end Counts

section Keys

variable {ctx : CommandContext} {store : Store} {key : Bytes}

/-- The metadata of a store that one namespace has written is all under its keys. -/
def Store.OfNamespace (ctx : CommandContext) (store : Store) : Prop :=
  ∀ phys value, store.get .metadata phys = some value → ∃ key, phys = ctx.metaKey key

theorem Store.ofNamespace_of_run {requests : List Request}
    (run : Runs ctx (fun _ _ => True) .empty requests store) : store.OfNamespace ctx := by
  have keyed : ∀ phys value, store.get .metadata phys = some value →
      ∃ key, True ∧ phys = ctx.metaKey key := by
    refine run.invariant_of_steps
      (fun _ store => ∀ phys value, store.get .metadata phys = some value →
      ∃ key, True ∧ phys = ctx.metaKey key) nofun ?_
    intro _ _ _ _ _ held
    exact Store.metaKeys_after held fun _ _ => trivial
  intro phys value stored
  obtain ⟨key, -, same⟩ := keyed phys value stored
  exact ⟨key, same⟩

/-- `DBSIZE` scans everything that the namespace has written. -/
theorem Store.OfNamespace.behind_eq (owned : store.OfNamespace ctx) :
    store.behind .metadata (namespacePrefix ctx) = (store.family .metadata).entries := by
  refine List.filter_eq_self.mpr ?_
  rintro ⟨phys, value⟩ inside
  obtain ⟨key, rfl⟩ := owned phys value ((OrderedMap.mem_entries _).mp inside)
  exact startsWith_iff.mpr (namespacePrefix_metaKey key)

/-- The keys of a namespace, one for each metadata entry. -/
theorem Store.OfNamespace.exists_keys (owned : store.OfNamespace ctx) :
    ∃ keys : List Bytes, keys.Nodup ∧ keys.length = (store.family .metadata).entries.length ∧
      ∀ key, key ∈ keys ↔ (store.get .metadata (ctx.metaKey key)).isSome := by
  have named : ∀ phys ∈ (store.family .metadata).entries.map Prod.fst,
      phys ∈ Set.range ctx.metaKey := by
    intro phys inside
    obtain ⟨⟨phys, value⟩, stored, rfl⟩ := List.mem_map.mp inside
    obtain ⟨key, same⟩ := owned phys value ((OrderedMap.mem_entries _).mp stored)
    exact ⟨key, same.symm⟩
  obtain ⟨keys, mapped⟩ := (Set.ext_iff.mp (Set.range_list_map ctx.metaKey) _).mpr named
  have distinct : ((store.family .metadata).entries.map Prod.fst).Nodup := by
    refine List.Pairwise.map Prod.fst (fun _ _ less => ?_) (store.family .metadata).ordered
    exact ne_of_lt less
  refine ⟨keys, List.Nodup.of_map ctx.metaKey (mapped ▸ distinct), ?_, fun key => ?_⟩
  · have lengths := congrArg List.length mapped
    rwa [List.length_map, List.length_map] at lengths
  · have injective : Function.Injective ctx.metaKey := fun _ _ same => metadataKey_inj same
    rw [← List.mem_map_of_injective injective, mapped, List.mem_map, Option.isSome_iff_exists]
    constructor
    · rintro ⟨⟨phys, value⟩, inside, rfl⟩
      exact ⟨value, (OrderedMap.mem_entries _).mp inside⟩
    · rintro ⟨value, stored⟩
      exact ⟨(_, value), (OrderedMap.mem_entries _).mpr stored, rfl⟩

end Keys

section Agreement

variable {ctx : CommandContext} {env : Env} {store : Store} {args : List Bytes}

/-- `DBSIZE` is the number of keys that `EXISTS` reports. -/
def DbsizeCountsExisting (ctx : CommandContext) (env : Env) (store : Store) (args : List Bytes) :
    Prop :=
  ∃ keys : List Bytes, keys.Nodup ∧
    (∀ key, key ∈ keys ↔ Request.reply ctx store ⟨.exists', [key], env⟩ = .ok (.integer 1)) ∧
    Request.reply ctx store ⟨.dbsize, args, env⟩ = .ok (.integer (Int64.ofNat keys.length))

/-- No key of the namespace has passed its deadline, and no entry of the namespace is
where another key would be without a namespace, unless that key has an entry too. -/
structure CountedAlike (ctx : CommandContext) (env : Env) (store : Store) : Prop where
  live : ∀ key value, store.get .metadata (ctx.metaKey key) = some value → lapsed env value = false
  told : ctx.tenant ≠ [] → ∀ key, (store.get .metadata (metadataKey key [])).isSome →
    (store.get .metadata (ctx.metaKey key)).isSome

theorem isSome_lookupMeta (key : Bytes) : (ctx.lookupMeta store key).isSome ↔
    (store.get .metadata (ctx.metaKey key)).isSome ∨
      ctx.tenant ≠ [] ∧ (store.get .metadata (metadataKey key [])).isSome := by
  rw [CommandContext.lookupMeta, Option.isSome_or, Bool.or_eq_true]
  by_cases unnamed : ctx.tenant = [] <;> simp [unnamed]

theorem CountedAlike.counts (alike : CountedAlike ctx env store) (owned : store.OfNamespace ctx)
    (args : List Bytes) : DbsizeCountsExisting ctx env store args := by
  obtain ⟨keys, distinct, length, members⟩ := owned.exists_keys
  refine ⟨keys, distinct, fun key => ?_, ?_⟩
  · rw [members, reply_exists_eq_one, isSome_lookupMeta]
    refine ⟨.inl, ?_⟩
    rintro (own | ⟨named, legacy⟩)
    · exact own
    · exact alike.told named key legacy
  · have all : ((store.family .metadata).entries.filter fun e => !lapsed env e.2) =
        (store.family .metadata).entries := by
      refine List.filter_eq_self.mpr ?_
      rintro ⟨phys, value⟩ inside
      have stored := (OrderedMap.mem_entries _).mp inside
      obtain ⟨key, rfl⟩ := owned phys value stored
      simp [alike.live key value stored]
    rw [reply_dbsize, owned.behind_eq, all, length]

/-- Different keys that are all in a list under an injective function are no more than
the list has. -/
private theorem length_le_of_injective {keys : List Bytes} (places : List Bytes)
    (place : Bytes → Bytes) (injective : Function.Injective place) (distinct : keys.Nodup)
    (inside : ∀ key ∈ keys, place key ∈ places) : keys.length ≤ places.length := by
  have within : keys.map place ⊆ places := by
    intro phys mapped
    obtain ⟨key, member, rfl⟩ := List.mem_map.mp mapped
    exact inside key member
  have le := ((distinct.map injective).subperm within).length_le
  rwa [List.length_map] at le

/-- The keys that `EXISTS` reports are at most twice as many as the entries. -/
theorem length_le_of_existing {keys : List Bytes} (distinct : keys.Nodup)
    (existing : ∀ key ∈ keys, (ctx.lookupMeta store key).isSome) :
    keys.length ≤ 2 * (store.family .metadata).entries.length := by
  have stored : ∀ phys, (store.get .metadata phys).isSome →
      phys ∈ (store.family .metadata).entries.map Prod.fst := by
    intro phys found
    obtain ⟨value, found⟩ := Option.isSome_iff_exists.mp found
    exact List.mem_map.mpr ⟨(phys, value), (OrderedMap.mem_entries _).mpr found, rfl⟩
  have own := length_le_of_injective ((store.family .metadata).entries.map Prod.fst) ctx.metaKey
    (fun _ _ same => metadataKey_inj same)
    (distinct.filter fun key => (store.get .metadata (ctx.metaKey key)).isSome)
    fun key inside => stored _ (List.mem_filter.mp inside).2
  have legacy := length_le_of_injective ((store.family .metadata).entries.map Prod.fst)
    (fun key => metadataKey key []) (fun _ _ same => metadataKey_inj same)
    (distinct.filter fun key => !(store.get .metadata (ctx.metaKey key)).isSome)
    fun key inside => by
      obtain ⟨member, absent⟩ := List.mem_filter.mp inside
      refine stored _ (((isSome_lookupMeta key).mp (existing key member)).resolve_left ?_).2
      simpa using absent
  have parts := List.length_eq_length_filter_add
    (l := keys) fun key => (store.get .metadata (ctx.metaKey key)).isSome
  rw [List.length_map] at own legacy
  omega

theorem countedAlike_of_counts (owned : store.OfNamespace ctx)
    (few : (store.family .metadata).entries.length < 2 ^ 63)
    (counts : DbsizeCountsExisting ctx env store args) : CountedAlike ctx env store := by
  obtain ⟨keys, distinct, existing, counted⟩ := counts
  simp only [reply_exists_eq_one] at existing
  obtain ⟨own, distinct', length, members⟩ := owned.exists_keys
  have within : own ⊆ keys := fun key inside =>
    (existing key).mpr ((isSome_lookupMeta key).mpr (.inl ((members key).mp inside)))
  have upper := length_le_of_existing distinct fun key => (existing key).mp
  have lower := (distinct'.subperm within).length_le
  rw [reply_dbsize, owned.behind_eq] at counted
  have fewer : ((store.family .metadata).entries.filter fun e => !lapsed env e.2).length ≤
      (store.family .metadata).entries.length :=
    List.length_filter_le _ _
  -- The two numbers agree as words of 64 bits, and neither exceeds one.
  have equal : ((store.family .metadata).entries.filter fun e => !lapsed env e.2).length =
      keys.length := by
    have words :
        ((store.family .metadata).entries.filter fun e => !lapsed env e.2).length % 2 ^ 64 =
        keys.length % 2 ^ 64 := by
      have same := congrArg (fun n : Int64 => n.toBitVec.toNat)
        (RespValue.integer.inj (Except.ok.inj counted))
      simpa only [Int64.toBitVec_ofNat', BitVec.toNat_ofNat] using same
    rwa [Nat.mod_eq_of_lt (by omega), Nat.mod_eq_of_lt (by omega)] at words
  refine ⟨fun key value stored => ?_, fun named key legacy => ?_⟩
  · have all := List.length_filter_eq_length_iff.mp
      (show ((store.family .metadata).entries.filter fun e => !lapsed env e.2).length =
        (store.family .metadata).entries.length by omega)
    simpa using all (ctx.metaKey key, value) ((OrderedMap.mem_entries _).mpr stored)
  · have same : own.Perm keys := (distinct'.subperm within).perm_of_length_le (by omega)
    exact (members key).mp (same.mem_iff.mpr ((existing key).mpr
      ((isSome_lookupMeta key).mpr (.inr ⟨named, legacy⟩))))

/-- In a store that one namespace has written, `DBSIZE` is the number of keys that
`EXISTS` reports if every key is live and none is mistaken for one without a namespace,
and only then, unless there are so many keys that the counter wraps around. -/
theorem dbsize_counts_existing_iff {requests : List Request}
    (run : Runs ctx (fun _ _ => True) .empty requests store) (env : Env) (args : List Bytes) :
    (CountedAlike ctx env store → DbsizeCountsExisting ctx env store args) ∧
      ((store.family .metadata).entries.length < 2 ^ 63 →
        (DbsizeCountsExisting ctx env store args ↔ CountedAlike ctx env store)) := by
  have owned := Store.ofNamespace_of_run run
  exact ⟨fun alike => alike.counts owned args,
    fun few => ⟨countedAlike_of_counts owned few, fun alike => alike.counts owned args⟩⟩

/-- One string key without a deadline is counted alike. -/
theorem dbsize_counts_one_key :
    let request : Request := ⟨.set, [ascii "k", ascii "v"], .plain 1⟩
    DbsizeCountsExisting .plain (.plain 10) (request.after .plain .empty) [] := by
  intro request
  have run : Runs .plain (fun _ _ => True) .empty [request] (request.after .plain .empty) :=
    .next .refl trivial
  refine (dbsize_counts_existing_iff run (.plain 10) []).1
    ⟨fun key value stored => ?_, fun named => ?_⟩
  · have each : ∀ e ∈ ((request.after .plain .empty).family .metadata).entries,
        lapsed (.plain 10) e.2 = false := by
      decide
    exact each _ ((OrderedMap.mem_entries _).mpr stored)
  · exact absurd rfl named

/-- A key whose deadline has passed is no longer in `DBSIZE`, but still exists. -/
theorem expired_key_exists :
    let request : Request := ⟨.set, [ascii "k", ascii "v", ascii "PX", ascii "1"], .plain 1⟩
    Request.reply .plain (request.after .plain .empty) ⟨.dbsize, [], .plain 10⟩ = .ok (.integer 0) ∧
      Request.reply .plain (request.after .plain .empty) ⟨.exists', [ascii "k"], .plain 10⟩ =
        .ok (.integer 1) := by
  decide

end Agreement

end Kvdb
