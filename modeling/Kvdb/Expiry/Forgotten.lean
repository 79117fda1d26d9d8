import Kvdb.Command.Writes
import Kvdb.Expiry.Absence

/-!
# Expired keys and absent keys

To delete the metadata entry of an expired key changes no reply of a command
that takes the key for absent. Which commands do depends on the type of the
record: those of its own type, except for hashes, the sorted-set commands for
every composite type, and `SET`, `MSET`, `TTL` and `PTTL`. All other commands
that name the key can tell the two apart.
-/

namespace Kvdb

open Data Semantics Cmd

variable {ctx : CommandContext} {key : Bytes} {type : DataType} {env : Env} {store store' : Store}
  {command : Command} {args : List Bytes}

section Stores

/-- Where the metadata of a key is found. -/
def CommandContext.place (ctx : CommandContext) (store : Store) (key : Bytes) : Bytes :=
  if (store.get .metadata (ctx.metaKey key)).isSome then ctx.metaKey key else metadataKey key []

/-- The store without the metadata entry of a key. -/
def Store.forget (ctx : CommandContext) (store : Store) (key : Bytes) : Store :=
  store.apply (.delete .metadata (ctx.place store key))

/-- The stores differ in one metadata entry at most. -/
def SameBut (place : Bytes) (store store' : Store) : Prop :=
  ∀ cf phys, ¬ (cf = .metadata ∧ phys = place) → store'.get cf phys = store.get cf phys

theorem sameBut_forget : SameBut (ctx.place store key) store (store.forget ctx key) :=
  fun cf phys other => by rw [Store.forget, Store.get_apply_delete, if_neg other]

variable {place : Bytes}

theorem SameBut.beyond (same : SameBut place store store') : SameBeyondMetadata store store' :=
  fun cf element phys => same cf phys fun both => element both.1

theorem SameBut.lookupMeta (same : SameBut place store store') (apart : place ∉ ctx.places key) :
    ctx.lookupMeta store' key = ctx.lookupMeta store key :=
  ctx.lookupMeta_congr fun phys here => same .metadata phys fun both => apart (both.2 ▸ here)

/-- Another key is seen as before. -/
theorem SameBut.seenAlike (same : SameBut place store store') (apart : place ∉ ctx.places key) :
    SeenAlike ctx key env env store store' :=
  ⟨⟨rfl, same.lookupMeta apart, fun _ _ => rfl⟩, fun _ _ _ => same.beyond.elements key _⟩

theorem SameBut.apply (same : SameBut place store store') (op : BatchOp) :
    SameBut place (store.apply op) (store'.apply op) := by
  intro cf phys other
  cases op with
  | put cf' phys' value => rw [Store.get_apply_put, Store.get_apply_put, same cf phys other]
  | delete cf' phys' => rw [Store.get_apply_delete, Store.get_apply_delete, same cf phys other]

theorem SameBut.without (same : SameBut place store store') (cf : ColumnFamily) (pre : Bytes) :
    SameBut place (store.without cf pre) (store'.without cf pre) := by
  intro cf' phys other
  rw [Store.get_without, Store.get_without, same cf' phys other]

end Stores

section Agreement

/-- Two runs of a program end with the same value or the same error. -/
def Agrees {α : Type} (env : Env) (store store' : Store) (program : Prog α) : Prop :=
  (exec env program store').1 = (exec env program store).1

theorem Agrees.reply (agrees : Agrees env store store' (command.run ctx args)) :
    Request.reply ctx store' ⟨command, args, env⟩ =
      Request.reply ctx store ⟨command, args, env⟩ := by
  unfold Agrees at agrees
  rw [Request.reply, Request.reply, exec_dispatch, exec_dispatch]
  rcases first : exec env (command.run ctx args) store with ⟨result, after⟩
  rcases second : exec env (command.run ctx args) store' with ⟨result', after'⟩
  obtain rfl : result' = result := by simpa only [first, second] using agrees
  rcases result' with (_ | _ | _) | _ <;> rfl

theorem Agrees.map {α β : Type} {program : Prog α} (agrees : Agrees env store store' program)
    (f : α → β) :
    Agrees env store store' (program >>= fun value => pure (f value)) := by
  unfold Agrees at agrees ⊢
  rw [exec_bind, exec_bind]
  rcases first : exec env program store with ⟨result, after⟩
  rcases second : exec env program store' with ⟨result', after'⟩
  obtain rfl : result' = result := by simpa only [first, second] using agrees
  cases result' <;> rfl

theorem Commits.agrees {allowed : WriteBatch → Prop} {program : Prog RespValue}
    (commits : Commits (.pair env env store store') allowed program) :
    Agrees env store store' program :=
  commits

theorem Same.agrees {program : Prog RespValue} (same : Same env env store store' program) :
    Agrees env store store' program := by
  obtain ⟨result, ran, ran'⟩ := same
  exact (congrArg Prod.fst ran').trans (congrArg Prod.fst ran).symm

/-- Deleting the elements of a value does the same to both stores. -/
theorem exec_purgeValue (key value : Bytes) : ∃ purge : Store → Store,
    (∀ env store, exec env (purgeValue ctx key value) store = (.ok (), purge store)) ∧
      ∀ place store store', SameBut place store store' →
        SameBut place (purge store) (purge store') := by
  by_cases composite : value ≠ [] ∧ firstByte value &&& flagsTypeMask ≠ DataType.string.code
  · cases decoded : decodeMetadata value with
    | none =>
      refine ⟨id, fun env store => ?_, fun _ _ _ same => same⟩
      simp [purgeValue, composite, decoded]
    | some meta' =>
      let pre := ctx.subKey key meta'.version []
      let purge (store : Store) : Store := if decide (meta'.dataType = some .zset) then
        (store.without .subkey pre).without .zsetScore pre else store.without .subkey pre
      refine ⟨purge, fun env store => ?_, fun place store store' same => ?_⟩
      · rw [purgeValue, if_pos composite, decoded]
        exact exec_purgeSubkeys ctx key _ _
      · dsimp only [purge]
        split_ifs
        · exact (same.without _ _).without _ _
        · exact same.without _ _
  · refine ⟨id, fun env store => ?_, fun _ _ _ same => same⟩
    rw [purgeValue, if_neg composite]
    rfl

/-- Deleting other keys counts the same. -/
theorem agrees_delLoop {place : Bytes} (same : SameBut place store store')
    (apart : ∀ key ∈ args, place ∉ ctx.places key) (count : Int64) :
    Agrees env store store' (delLoop ctx args count) := by
  induction args generalizing store store' count with
  | nil => rfl
  | cons key args ih =>
    obtain ⟨first, rest⟩ := List.forall_mem_cons.mp apart
    rw [Agrees, delLoop, ctx.exec_getMeta_bind, ctx.exec_getMeta_bind, same.lookupMeta first]
    cases ctx.lookupMeta store key with
    | none => exact ih same rest count
    | some value =>
      obtain ⟨purge, purged, kept⟩ := @exec_purgeValue ctx key value
      dsimp only
      rw [exec_bind_ok (purged env store), exec_bind_ok (purged env store'), exec_delete_bind,
        exec_delete_bind]
      exact ih ((kept place store store' same).apply _) rest (count + 1)

/-- A command replies the same where the keys it names are apart from the one entry
that differs. -/
theorem SameBut.agrees {place : Bytes} (same : SameBut place store store')
    (listed : command ∉ [.ping, .echo, .dbsize, .flushdb])
    (apart : ∀ other ∈ command.readKeys args, place ∉ ctx.places other) :
    Agrees env store store' (command.run ctx args) := by
  by_cases several : command = .del
  · subst several
    match args with
    | [] => rfl
    | key :: rest =>
      have counted : Agrees env store store' (delLoop ctx (key :: rest) 0) :=
        agrees_delLoop same apart 0
      exact counted.map _
  · have aligned : Observer.Aligned (.pair env env store store') := ⟨rfl, same.beyond⟩
    exact (Command.commits (by simp_all) aligned fun other named =>
      (same.seenAlike (apart other named)).meets command).agrees

end Agreement

section Expired

/-- A key has a record of a type whose deadline has passed, and no other record
behind it. -/
structure Lapsed (ctx : CommandContext) (key : Bytes) (type : DataType) (env : Env)
    (store : Store) : Prop where
  expired : ∃ v ∈ ctx.lookupMeta store key, recordType v = some type ∧
    expiredAt (deadlineOf v) env.nowMs = true
  sole : ctx.lookupMeta (store.forget ctx key) key = none

/-- No other key of a list is looked up where the metadata of the key is found.
Only enormous keys share a place. -/
def Alone (ctx : CommandContext) (store : Store) (key : Bytes) (keys : List Bytes) : Prop :=
  ∀ other ∈ keys, other ≠ key → ctx.place store key ∉ ctx.places other

/-- A command takes an expired record of a type for absent. -/
def Command.forgives (command : Command) (stored : DataType) : Bool :=
  match command.family with
  | some reader => Overlooks reader stored
  | none => command ∈ [.set, .mset, .ttl, .pttl]

section Replies

variable (lapsed : Lapsed ctx key type env store)
include lapsed

/-- An expired key does not exist. -/
theorem Lapsed.keyExists :
    Same env env store (store.forget ctx key) (keyExists ctx key) := by
  obtain ⟨v, stored, typed, expired⟩ := lapsed.expired
  refine ⟨.ok false, ?_, ?_⟩
  · change exec env (Cmd.keyExists ctx key) store = _
    rw [Cmd.keyExists, ctx.exec_getMeta_bind, stored]
    dsimp only
    rw [exec_nowMs_bind, isExpiredValue_eq typed, expired]
    rfl
  · change exec env (Cmd.keyExists ctx key) _ = _
    rw [Cmd.keyExists, ctx.exec_getMeta_bind, lapsed.sole]
    rfl

/-- An expired key has no time to live. -/
theorem Lapsed.timeToLive (name : String) (remaining : Int64 → Int64) :
    Same env env store (store.forget ctx key) (timeToLive ctx name remaining [key]) := by
  obtain ⟨v, stored, typed, expired⟩ := lapsed.expired
  have positive : 0 < deadlineOf v := by
    unfold expiredAt at expired
    grind
  have past : deadlineOf v ≤ env.nowMs := by
    unfold expiredAt at expired
    grind
  have found : exec env (readExpire ctx key) store = (.ok (some (some (deadlineOf v))), store) := by
    rw [exec_readExpire_of_typed stored typed, if_pos positive]
  have absent : exec env (readExpire ctx key) (store.forget ctx key) =
      (.ok none, store.forget ctx key) := by
    rw [readExpire, ctx.exec_getMeta_bind, lapsed.sole]
    rfl
  refine ⟨.ok (.integer (-2)), ?_, exec_bind_ok absent⟩
  refine (exec_bind_ok found).trans ?_
  dsimp only
  rw [exec_nowMs_bind, if_pos past]
  rfl

variable (alone : Alone ctx store key (command.readKeys args))
include alone

omit lapsed in
/-- A command that does not read the record of the key cannot tell that it is
gone. -/
theorem agrees_of_unread (listed : command ∉ [.ping, .echo, .dbsize, .flushdb])
    (unread : key ∉ command.readKeys args) :
    Agrees env store (store.forget ctx key) (command.run ctx args) :=
  sameBut_forget.agrees listed fun other named => alone other named fun here =>
    unread (here ▸ named)

/-- A command that takes the key for absent replies as if its record were gone. -/
theorem Lapsed.agrees_of_forgives (forgives : command.forgives type = true) :
    Agrees env store (store.forget ctx key) (command.run ctx args) := by
  have same : SameBut (ctx.place store key) store (store.forget ctx key) := sameBut_forget
  have aligned : Observer.Aligned (.pair env env store (store.forget ctx key)) := ⟨rfl, same.beyond⟩
  cases family : command.family with
  | some reader =>
    have overlooked : Overlooks reader type = true := by
      simpa [Command.forgives, family] using forgives
    have single : command ∉ [.del, .flushdb, .dbsize] := by
      rintro listed
      simp only [List.mem_cons, List.not_mem_nil, or_false] at listed
      rcases listed with rfl | rfl | rfl <;> cases family
    refine (Command.commits single aligned fun other named => ?_).agrees
    by_cases here : other = key
    · obtain ⟨v, stored, typed, expired⟩ := lapsed.expired
      rw [here, Observer.Meets, family]
      refine alikeAs_of_absent (fun w member => ?_) fun w member => ?_
      · obtain rfl : v = w := Option.some.inj (stored.symm.trans member)
        exact ⟨expired, type, typed, overlooked⟩
      · exact nomatch lapsed.sole.symm.trans member
    · exact (same.seenAlike (alone other named here)).meets command
  | none =>
    have kind : command ∈ [Command.set, .mset, .ttl, .pttl] := by
      simpa [Command.forgives, family] using forgives
    by_cases unread : key ∈ command.readKeys args
    · simp only [List.mem_cons, List.not_mem_nil, or_false] at kind
      match args with
      | [] => rcases kind with rfl | rfl | rfl | rfl <;> cases unread
      | other :: rest =>
        rcases kind with rfl | rfl | rfl | rfl
        · obtain rfl := List.mem_singleton.mp unread
          exact (commits_set aligned.clock lapsed.keyExists.viewed rest).agrees
        · cases unread
        · obtain rfl := List.mem_singleton.mp unread
          cases rest with
          | nil => exact (lapsed.timeToLive "TTL" fun left => (left + 999) / 1000).agrees
          | cons _ _ => rfl
        · obtain rfl := List.mem_singleton.mp unread
          cases rest with
          | nil => exact (lapsed.timeToLive "PTTL" fun left => left).agrees
          | cons _ _ => rfl
    · refine agrees_of_unread alone ?_ unread
      rintro listed
      simp only [List.mem_cons, List.not_mem_nil, or_false] at kind listed
      rcases kind with rfl | rfl | rfl | rfl <;> simp at listed

end Replies

section Samples

/-- An expired record of each type. -/
def expiredRecord : DataType → Bytes
  | .string => encodeString stringFlags 5 (ascii "v")
  | type => encodeMetadata { Metadata.new type 0 with expire := 5, size := 1 }

/-- A store with an expired record, and an element that a hash would have. -/
def expiredStore (type : DataType) : Store :=
  Store.empty.write
    [.put .metadata (CommandContext.plain.metaKey (ascii "k")) (expiredRecord type),
      .put .subkey (CommandContext.plain.subKey (ascii "k") 0 (ascii "f")) (ascii "v")]

/-- Arguments with which a command looks at the key. -/
def Command.probe (command : Command) : List Bytes :=
  (match command with
  | .append => ["k", "x"]
  | .expire | .pexpire => ["k", "1"]
  | .hset => ["k", "f", "w"]
  | .hget | .hmget | .hdel | .hexists => ["k", "f"]
  | .hscan | .lindex | .getbit => ["k", "0"]
  | .lpush | .rpush | .sadd | .srem | .sismember | .zrem | .zrank | .zrevrank | .zscore =>
    ["k", "m"]
  | .lrange | .zrange | .zrevrange => ["k", "0", "-1"]
  | .zadd | .zincrby => ["k", "inf", "m"]
  | .zrangebyscore => ["k", "-inf", "inf"]
  | .zrevrangebyscore => ["k", "inf", "-inf"]
  | .xadd => ["k", "1-1", "f", "v"]
  | .xrange => ["k", "-", "+"]
  | .xread => ["STREAMS", "k", "0-0"]
  | .setbit => ["k", "0", "1"]
  | .bitop => ["AND", "d", "k"]
  | _ => ["k"]).map ascii

def DataType.all : List DataType := [.string, .hash, .list, .set, .zset, .stream, .bitmap]

theorem DataType.mem_all (type : DataType) : type ∈ DataType.all := by cases type <;> decide

theorem Command.mem_all (command : Command) : command ∈ Command.all := by cases command <;> decide

/-- Every command that does not take the record for absent can tell. -/
theorem reply_probe_ne : ∀ command ∈ Command.all, command ∉ [.ping, .echo, .dbsize, .flushdb] →
    ∀ type ∈ DataType.all, command.forgives type = false →
      Request.reply .plain (expiredStore type) ⟨command, command.probe, .plain 7⟩ ≠
        Request.reply .plain ((expiredStore type).forget .plain (ascii "k"))
          ⟨command, command.probe, .plain 7⟩ := by
  decide +kernel

theorem eq_of_mem_probe : ∀ command ∈ Command.all, ∀ other ∈ command.readKeys command.probe,
    other = ascii "k" := by
  decide

theorem lapsed_expiredStore : ∀ type ∈ DataType.all,
    Lapsed .plain (ascii "k") type (.plain 7) (expiredStore type) := by
  have found : ∀ type ∈ DataType.all,
      CommandContext.plain.lookupMeta (expiredStore type) (ascii "k") = some (expiredRecord type) ∧
      recordType (expiredRecord type) = some type ∧
      expiredAt (deadlineOf (expiredRecord type)) (Env.plain 7).nowMs = true ∧
      CommandContext.plain.lookupMeta ((expiredStore type).forget .plain (ascii "k")) (ascii "k") =
        none := by
    decide
  intro type member
  obtain ⟨stored, typed, expired, sole⟩ := found type member
  exact ⟨⟨_, stored, typed, expired⟩, sole⟩

end Samples

/-- For each command and each type of record: to delete the metadata entry of an
expired key of that type changes no reply of the command, whatever its arguments,
if and only if the command takes such records for absent. It changes no reply to
a request that does not read the entry. -/
theorem expired_as_absent_iff (listed : command ∉ [.ping, .echo, .dbsize, .flushdb])
    (type : DataType) :
    ((∀ (ctx : CommandContext) (key : Bytes) (store : Store) (args : List Bytes) (env : Env),
        Lapsed ctx key type env store → Alone ctx store key (command.readKeys args) →
        Request.reply ctx store ⟨command, args, env⟩ =
          Request.reply ctx (store.forget ctx key) ⟨command, args, env⟩) ↔
      command.forgives type = true) ∧
    ∀ (ctx : CommandContext) (key : Bytes) (store : Store) (args : List Bytes) (env : Env),
      Lapsed ctx key type env store → Alone ctx store key (command.readKeys args) →
      key ∉ command.readKeys args →
      Request.reply ctx store ⟨command, args, env⟩ =
        Request.reply ctx (store.forget ctx key) ⟨command, args, env⟩ := by
  refine ⟨⟨fun same => ?_, fun forgives ctx key store args env lapsed alone => ?_⟩,
    fun ctx key store args env _ alone unread => ?_⟩
  · by_contra unforgiving
    have ne := reply_probe_ne command command.mem_all listed type type.mem_all
      (Bool.eq_false_iff.mpr unforgiving)
    refine ne (same .plain (ascii "k") (expiredStore type) command.probe (.plain 7)
      (lapsed_expiredStore type type.mem_all) fun other member otherwise => ?_)
    exact absurd (eq_of_mem_probe command command.mem_all other member) otherwise
  · exact (lapsed.agrees_of_forgives alone forgives).reply.symm
  · exact (agrees_of_unread alone listed unread).reply.symm

/-- A `GET` of an expired string answers as if there were no string. -/
theorem expired_as_absent_get :
    Request.reply .plain (expiredStore .string) ⟨.get, [ascii "k"], .plain 7⟩ =
      Request.reply .plain ((expiredStore .string).forget .plain (ascii "k"))
        ⟨.get, [ascii "k"], .plain 7⟩ :=
  (@expired_as_absent_iff .get (by decide) .string).1.mpr rfl .plain (ascii "k")
    (expiredStore .string) [ascii "k"] (.plain 7) (lapsed_expiredStore .string (by decide))
    (fun _ member otherwise => absurd (List.mem_singleton.mp member) otherwise)

/-- A hash that expired two milliseconds ago still answers `HGET` with its field
and `EXISTS` with one, and an expired string still refuses `LPUSH`. With the entry
deleted the three requests see no key. -/
theorem expired_key_observed :
    let hash := expiredStore .hash
    let string := expiredStore .string
    let get : Request := ⟨.hget, [ascii "k", ascii "f"], .plain 7⟩
    let known : Request := ⟨.exists', [ascii "k"], .plain 7⟩
    let push : Request := ⟨.lpush, [ascii "k", ascii "m"], .plain 7⟩
    Request.reply .plain hash get = .ok (.bulkString (some (ascii "v"))) ∧
    Request.reply .plain (hash.forget .plain (ascii "k")) get = .ok (.bulkString none) ∧
    Request.reply .plain hash known = .ok (.integer 1) ∧
    Request.reply .plain (hash.forget .plain (ascii "k")) known = .ok (.integer 0) ∧
    Request.reply .plain string push ≠
      Request.reply .plain (string.forget .plain (ascii "k")) push := by
  decide

end Expired

end Kvdb
