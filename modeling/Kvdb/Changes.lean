import Kvdb.Command.Edits
import Kvdb.Deletion

/-!
# The changes that requests make

Every request changes the store in one of a few ways. What an invariant of whole
runs has to survive are these ways, not the sixty commands.
-/

namespace Kvdb

open Data Semantics Cmd

variable {ctx : CommandContext} {store : Store} {request : Request}

section Values

variable {type : DataType} {v : UInt64} {value : Bytes}

theorem RecordOf.valueType_eq (record : RecordOf type v value) : valueType value = some type := by
  cases record with
  | common composite known => exact known.typed
  | stream streams known => rw [streams]; exact known

theorem RecordOf.versionOf_eq (record : RecordOf type v value) : versionOf value = v := by
  cases record with
  | common composite known version =>
    have decoded := decodeMetadata_encodeMetadata known.typed known.normal
    exact (decodeMetadata_fields decoded).2.1.symm.trans version
  | stream streams known version =>
    exact (decodeMetadata_fields (decodeMetadata_encodeStream known)).2.1.symm.trans version

theorem RecordOf.composite (record : RecordOf type v value) : type ≠ .string := by
  cases record with
  | common composite => exact composite
  | stream streams => rw [streams]; decide

theorem valueType_encodeString (expire : Int64) (payload : Bytes) :
    valueType (encodeString stringFlags expire payload) = some .string := by
  have first : firstByte (encodeString stringFlags expire payload) = stringFlags := rfl
  rw [valueType, first]
  decide

theorem valueType_eq_string :
    valueType value = some .string ↔ firstByte value &&& flagsTypeMask = DataType.string.code :=
  dataTypeFromFlags_eq_some

/-- A stored value that is no string is a record of its type and version. -/
theorem Storable.isRecord (storable : Storable value) (composite : valueType value ≠ some .string) :
    ∃ meta', IsRecord value meta' ∧ meta'.dataType = valueType value ∧
      meta'.version = versionOf value := by
  have other := fun text => composite (valueType_eq_string.mpr text)
  obtain ⟨meta', decoded⟩ := storable.decoded other
  exact ⟨meta', ⟨⟨storable.ne_nil, other⟩, decoded⟩, (valueType_of_decoded decoded).symm,
    (decodeMetadata_fields decoded).2.1⟩

/-- Another deadline leaves the type and, in a record, the version. -/
theorem valueType_withExpire {encoded : Bytes} {expireMs : Int64}
    (changed : withExpire value expireMs = .ok encoded) :
    valueType encoded = valueType value ∧
      (valueType value ≠ some .string → versionOf encoded = versionOf value) := by
  cases redates_of_withExpire changed with
  | text typed => exact ⟨rfl, fun other => absurd (valueType_eq_string.mpr typed) other⟩
  | @record meta' type other decoded flags known =>
    have again := @decodeMetadata_encodeMetadata { meta' with expire := expireMs } type
      known.typed known.normal
    exact ⟨(valueType_of_decoded again).trans (valueType_of_decoded decoded).symm, fun _ =>
      (decodeMetadata_fields again).2.1.symm.trans (decodeMetadata_fields decoded).2.1⟩

end Values

section Batches

variable {key other : Bytes} {type : DataType} {v w : UInt64} {removed : List Bytes}
  {batch : WriteBatch}
  {cf : ColumnFamily}

/-- The record of an edited key is as it was, or a record of the version. -/
theorem BatchEdits.metaKey_cases (edits : BatchEdits ctx key type v removed batch) (store : Store) :
    (store.write batch).get .metadata (ctx.metaKey key) = store.get .metadata (ctx.metaKey key) ∨
      ∃ value, (store.write batch).get .metadata (ctx.metaKey key) = some value ∧
        RecordOf type v value := by
  rcases store.get_write_cases batch .metadata (ctx.metaKey key) with
    ⟨-, same⟩ | ⟨value, inside, put⟩ | ⟨inside, -⟩
  · exact .inl same
  · have op := edits _ inside
    cases op with
    | record record => exact .inr ⟨value, put, record⟩
  · have op := edits _ inside
    cases op

theorem Additions.metaKey (additions : Additions ctx key type v batch) (store : Store) :
    ∃ value, (store.write batch).get .metadata (ctx.metaKey key) = some value ∧
      RecordOf type v value := by
  obtain ⟨value, inside⟩ := additions.recorded
  rcases store.get_write_cases batch .metadata (ctx.metaKey key) with
    ⟨elsewhere, -⟩ | ⟨value, inside, put⟩ | ⟨inside, -⟩
  · exact absurd ⟨rfl, rfl⟩ (elsewhere _ inside)
  · have op := additions.edits _ inside
    cases op with
    | record record => exact ⟨value, put, record⟩
  · have op := additions.edits _ inside
    cases op

/-- An element that an edit changes is of the version, and it is there afterwards
or was to be removed. -/
theorem BatchEdits.element_cases (edits : BatchEdits ctx key type v removed batch) (store : Store)
    (element : cf ≠ .metadata) (phys : Bytes) :
    (store.write batch).get cf phys = store.get cf phys ∨
      ∃ sub, phys = ctx.subKey key v sub ∧ (cf = .zsetScore → type = .zset) ∧
        ((∃ value, (store.write batch).get cf phys = some value) ∨
          (cf = .subkey → sub ∈ removed)) := by
  rcases store.get_write_cases batch cf phys with ⟨-, same⟩ | ⟨value, inside, put⟩ | ⟨inside, -⟩
  · exact .inl same
  · have op := edits _ inside
    cases op with
    | put => exact .inr ⟨_, rfl, nofun, .inl ⟨value, put⟩⟩
    | putScore sorted => exact .inr ⟨_, rfl, fun _ => sorted, .inl ⟨value, put⟩⟩
    | record => exact absurd rfl element
  · have op := edits _ inside
    cases op with
    | delete named => exact .inr ⟨_, rfl, nofun, .inr fun _ => named⟩
    | deleteScore sorted => exact .inr ⟨_, rfl, fun _ => sorted, .inr nofun⟩

theorem Cmd.Texts.element {keys : List Bytes} (texts : Cmd.Texts ctx keys batch) (store : Store)
    (element : cf ≠ .metadata) (phys : Bytes) :
    (store.write batch).get cf phys = store.get cf phys := by
  refine store.get_write_of_forall_ne fun op inside => ?_
  obtain ⟨k, -, expire, payload, rfl⟩ := texts op inside
  exact fun both => element both.1

theorem Cmd.Texts.metadata_cases {keys : List Bytes} (texts : Cmd.Texts ctx keys batch)
    (store : Store) (phys : Bytes) :
    (store.write batch).get .metadata phys = store.get .metadata phys ∨
      ∃ k ∈ keys, phys = ctx.metaKey k ∧ ∃ expire payload, (store.write batch).get .metadata phys =
        some (encodeString stringFlags expire payload) := by
  rcases store.get_write_cases batch .metadata phys with ⟨-, same⟩ | ⟨value, inside, put⟩
    | ⟨inside, -⟩
  · exact .inl same
  · obtain ⟨k, named, expire, payload, op⟩ := texts _ inside
    cases op
    exact .inr ⟨k, named, rfl, expire, payload, put⟩
  · obtain ⟨k, named, expire, payload, op⟩ := texts _ inside
    cases op

theorem Cmd.Redated.element {value : Bytes} (redated : Redated ctx key value batch)
    (store : Store) (element : cf ≠ .metadata) (phys : Bytes) :
    (store.write batch).get cf phys = store.get cf phys := by
  refine store.get_write_of_forall_ne fun op inside => ?_
  obtain ⟨expireMs, encoded, -, rfl⟩ := redated op inside
  exact fun both => element both.1

/-- Under a new deadline a value has its type and version. -/
theorem Cmd.Redated.metadata_cases {value : Bytes} (redated : Redated ctx key value batch)
    (store : Store) (phys : Bytes) :
    (store.write batch).get .metadata phys = store.get .metadata phys ∨
      phys = ctx.metaKey key ∧ ∃ encoded, (store.write batch).get .metadata phys = some encoded ∧
        valueType encoded = valueType value ∧
        (valueType value ≠ some .string → versionOf encoded = versionOf value) := by
  rcases store.get_write_cases batch .metadata phys with ⟨-, same⟩ | ⟨_, inside, put⟩ | ⟨inside, -⟩
  · exact .inl same
  · obtain ⟨expireMs, encoded, changed, op⟩ := redated _ inside
    cases op
    exact .inr ⟨rfl, _, put, valueType_withExpire changed⟩
  · obtain ⟨expireMs, encoded, -, op⟩ := redated _ inside
    cases op

end Batches

section Names

variable {command : Command} {args : List Bytes} {key : Bytes} {type : DataType}

theorem Command.writtenKeys_of_adds (adds : command.adds = some type) :
    command.writtenKeys (key :: args) = [key] := by
  cases command <;> cases adds <;> rfl

theorem Command.writtenKeys_of_removes (removes : command.removes = some type) :
    command.writtenKeys (key :: args) = [key] := by
  cases command <;> cases removes <;> rfl

end Names

inductive Request.Change (ctx : CommandContext) (store : Store) (request : Request) : Store → Prop
  | none : Change ctx store request store
  | texts {batch : WriteBatch}
      (texts : Cmd.Texts ctx (request.command.writtenKeys request.args) batch)
      (overwrites : request.command = .set ∨ request.command = .mset ∨
        ∀ key ∈ request.command.writtenKeys request.args, ∀ value,
          ctx.lookupMeta store key = some value → valueType value = some .string) :
      Change ctx store request (store.write batch)
  | redated {key value : Bytes} {batch : WriteBatch}
      (deadline : request.command ∈ [.expire, .pexpire, .persist])
      (named : request.command.writtenKeys request.args = [key])
      (stored : ctx.lookupMeta store key = some value) (redated : Redated ctx key value batch) :
      Change ctx store request (store.write batch)
  | added {key : Bytes} {args : List Bytes} {type : DataType} {v : UInt64} {batch : WriteBatch}
      (adds : request.command.adds = some type) (named : request.args = key :: args)
      (opened : Opened ctx request.env store key type v)
        (additions : Additions ctx key type v batch) :
      Change ctx store request (store.write batch)
  | renewed {key : Bytes} {batch : WriteBatch} (bitop : request.command = .bitop)
      (named : request.command.writtenKeys request.args = [key])
      (additions : Additions ctx key .bitmap request.env.version batch) :
      Change ctx store request (store.write batch)
  | removed {key value : Bytes} {args : List Bytes} {type : DataType} {meta' : Metadata}
      {batch : WriteBatch} (removes : request.command.removes = some type)
      (named : request.args = key :: args)
      (removal : Removal ctx request.env store key type value meta')
      (edits :
      BatchEdits ctx key type meta'.version (request.command.removedNames args meta') batch) :
      Change ctx store request (store.write batch)
  | deleted (del : request.command = .del) :
      Change ctx store request (request.args.foldl (Store.deleted ctx) store)
  | flushed (flush : request.command = .flushdb) :
      Change ctx store request (((store.without .metadata (namespacePrefix ctx)).without .subkey
        (namespacePrefix ctx)).without .zsetScore (namespacePrefix ctx))

section Commands

variable {command : Command} {args : List Bytes} {env : Env} {key : Bytes} {type : DataType}

theorem change_of_adds (regular : store.Regular) (adds : command.adds = some type) :
    Request.Change ctx store ⟨command, key :: args, env⟩
      (exec env (command.run ctx (key :: args)) store).2 := by
  rcases Command.exec_adds regular adds with same | ⟨v, batch, opened, additions, after⟩
  · rw [same]
    exact .none
  · rw [after]
    exact .added adds rfl opened additions

theorem change_of_removes (removes : command.removes = some type) :
    Request.Change ctx store ⟨command, key :: args, env⟩
      (exec env (command.run ctx (key :: args)) store).2 := by
  rcases Command.exec_removes removes with same | ⟨value, meta', batch, removal, edits, after⟩
  · rw [same]
    exact .none
  · rw [after]
    exact .removed removes rfl removal edits

theorem change_of_redated (deadline : command ∈ [.expire, .pexpire, .persist])
    (named : command.writtenKeys (key :: args) = [key])
    (revises : Revises .single (ctx.getMeta key) (fun _ => True) (FoundRedated ctx key)
      (command.run ctx (key :: args))) :
    Request.Change ctx store ⟨command, key :: args, env⟩
      (exec env (command.run ctx (key :: args)) store).2 := by
  rcases exec_redated revises with same | ⟨value, batch, stored, redated, after⟩
  · rw [same]
    exact .none
  · rw [after]
    exact .redated deadline named stored redated

theorem change_of_texts (commits : Commits .single (Cmd.Texts ctx (command.writtenKeys args))
      (command.run ctx args)) (overwrites : command = .set ∨ command = .mset) :
    Request.Change ctx store ⟨command, args, env⟩ (exec env (command.run ctx args) store).2 := by
  rcases commits.1.exec fun _ _ => Cmd.Texts.append with same | ⟨batch, texts, after⟩
  · rw [same]
    exact .none
  · rw [after]
    exact .texts texts (overwrites.imp_right .inl)

theorem change_of_plain (named : command.writtenKeys (key :: args) = [key])
    (cases' : (exec env (command.run ctx (key :: args)) store).2 = store ∨ ∃ batch,
      Cmd.Texts ctx [key] batch ∧
      (∀ value, ctx.lookupMeta store key = some value → valueType value = some .string) ∧
      (exec env (command.run ctx (key :: args)) store).2 = store.write batch) :
    Request.Change ctx store ⟨command, key :: args, env⟩
      (exec env (command.run ctx (key :: args)) store).2 := by
  rcases cases' with same | ⟨batch, texts, plain, after⟩
  · rw [same]
    exact .none
  · rw [after]
    refine .texts (by rw [named]; exact texts) (.inr (.inr ?_))
    rw [named]
    exact List.forall_mem_singleton.mpr plain

theorem change_bitop : Request.Change ctx store ⟨.bitop, args, env⟩
    (exec env (Cmd.bitop ctx args) store).2 := by
  match args with
  | [] | [_] => exact .none
  | operation :: key :: args =>
    rcases @exec_bitop_cases ctx key env store args operation with same | ⟨batch, additions, after⟩
    · rw [same]
      exact .none
    · rw [after]
      exact .renewed rfl rfl additions

/-- Every request makes one of the changes. -/
theorem Request.change (regular : store.Regular) (request : Request) :
    request.Change ctx store (request.after ctx store) := by
  obtain ⟨command, args, env⟩ := request
  rw [Request.after_eq]
  by_cases reads : command.reads = true
  · rw [(Command.readOnly ctx reads args).exec_state]
    exact .none
  · match command, args with
    | .flushdb, args =>
      show Request.Change ctx store _ (exec env (flushdb ctx args) store).2
      rw [exec_flushdb]
      exact .flushed rfl
    | .mset, args => exact change_of_texts (commits_mset args) (.inr rfl)
    | .bitop, args => exact change_bitop
    | .del, key :: args =>
      show Request.Change ctx store _ (exec env (Cmd.del ctx (key :: args)) store).2
      rw [exec_del (List.cons_ne_nil _ _)]
      exact .deleted rfl
    | .set, key :: args => exact change_of_texts (commits_set Observer.shares_single
      (viewed_keyExists Observer.shares_single) args) (.inl rfl)
    | .incr, key :: args | .decr, key :: args =>
      exact change_of_plain rfl
        (lockedText_stepInteger (plain_of_chars rfl (by decide)) _ args).exec_cases
    | .append, key :: args => exact change_of_plain rfl (lockedText_append args).exec_cases
    | .expire, key :: args | .pexpire, key :: args =>
      exact change_of_redated (by decide) rfl (revises_expireIn Observer.shares_single
        (plain_of_chars rfl (by decide)) _ args)
    | .persist, key :: args =>
      exact change_of_redated (by decide) rfl (revises_persist Observer.shares_single args)
    | .hset, key :: args | .lpush, key :: args | .rpush, key :: args | .sadd, key :: args
    | .zadd, key :: args | .zincrby, key :: args | .setbit, key :: args | .xadd, key :: args =>
      exact change_of_adds regular rfl
    | .hdel, key :: args | .lpop, key :: args | .rpop, key :: args | .srem, key :: args
    | .zrem, key :: args => exact change_of_removes rfl
    | .del, [] | .set, [] | .incr, [] | .decr, [] | .append, [] | .expire, [] | .pexpire, []
    | .persist, [] | .hset, [] | .lpush, [] | .rpush, [] | .sadd, [] | .zadd, [] | .zincrby, []
    | .setbit, [] | .xadd, [] | .hdel, [] | .lpop, [] | .rpop, [] | .srem, [] | .zrem, [] =>
      exact .none
    | .get, _ | .mget, _ | .exists', _ | .ttl, _ | .pttl, _ | .ping, _ | .echo, _ | .dbsize, _
    | .hget, _ | .hmget, _ | .hgetall, _ | .hexists, _ | .hlen, _ | .hscan, _ | .lrange, _
    | .lindex, _ | .llen, _ | .sismember, _ | .smembers, _ | .scard, _ | .sinter, _ | .sdiff, _
    | .sunion, _ | .zrange, _ | .zrangebyscore, _ | .zrevrange, _ | .zrevrangebyscore, _
    | .zrank, _ | .zrevrank, _ | .zscore, _ | .zcard, _ | .xlen, _ | .xrange, _ | .xread, _
    | .getbit, _ | .bitcount, _ => exact absurd rfl reads

end Commands

section Records

variable {key : Bytes} {after : Store}

def Request.Draws (ctx : CommandContext) (store : Store) (request : Request) (key : Bytes) : Prop :=
  request.command = .bitop ∨ ∃ type, request.command.adds = some type ∧
    (ctx.lookupMeta store key = none ∨ type ≠ .hash ∧ ∃ value,
      ctx.lookupMeta store key = some value ∧
      expiredAt (deadlineOf value) request.env.nowMs = true)

/-- Where the record that a key has after a request comes from: it was there, it is
the earlier record under the same version, or it has a drawn version. An expired
record is taken over by the commands on deadlines, and if it is a hash. -/
inductive Request.RecordSource (ctx : CommandContext) (store : Store) (request : Request)
    (key : Bytes) (record : Bytes) : Prop
  | kept (own : store.get .metadata (ctx.metaKey key) = some record)
  | rewritten {value : Bytes} (named : key ∈ request.command.writtenKeys request.args)
      (own : store.get .metadata (ctx.metaKey key) = some value)
      (version : versionOf record = versionOf value) (type : valueType record = valueType value)
      (live : expiredAt (deadlineOf value) request.env.nowMs = true →
        request.command ∈ [.expire, .pexpire, .persist] ∨ valueType value = some .hash)
  | drawn (named : key ∈ request.command.writtenKeys request.args)
    (draws : request.Draws ctx store key)
      (version : versionOf record = request.env.version)

/-- Edits of one key leave the records of the others. -/
theorem BatchEdits.metaKey_of_ne {other : Bytes} {type : DataType} {v : UInt64}
    {removed : List Bytes} {batch : WriteBatch} (edits : BatchEdits ctx other type v removed batch)
    (different : key ≠ other) :
    (store.write batch).get .metadata (ctx.metaKey key) = store.get .metadata (ctx.metaKey key) :=
  edits.onKeys.record_apart (by simpa using different) store

theorem Store.get_foldl_deleted_metaKey {record : Bytes} {keys : List Bytes}
    (own : (keys.foldl (Store.deleted ctx) store).get .metadata (ctx.metaKey key) = some record) :
    store.get .metadata (ctx.metaKey key) = some record := by
  rcases @Store.get_foldl_deleted ctx (ctx.metaKey key) keys .metadata store with none | same
  · exact absurd (none.symm.trans own) nofun
  · exact same.symm.trans own

theorem Request.Change.recordSource (change : request.Change ctx store after)
    (owned : store.Owned ctx) (shortKeys : request.ShortKeys) (short : key.length < 2 ^ 24)
    {record : Bytes}
    (own : after.get .metadata (ctx.metaKey key) = some record)
    (composite : valueType record ≠ some .string) : request.RecordSource ctx store key record := by
  unfold Request.ShortKeys at shortKeys
  cases change with
  | none => exact .kept own
  | texts texts =>
    rcases texts.metadata_cases store (ctx.metaKey key) with same | ⟨_, -, -, expire, payload, put⟩
    · exact .kept (same.symm.trans own)
    · obtain rfl := Option.some.inj (put.symm.trans own)
      exact absurd (valueType_encodeString expire payload) composite
  | @redated other value batch deadline named found redated =>
    rw [named, List.forall_mem_singleton] at shortKeys
    rw [owned.lookupMeta shortKeys] at found
    rcases redated.metadata_cases store (ctx.metaKey key) with
      same | ⟨same, encoded, put, type, version⟩
    · exact .kept (same.symm.trans own)
    · obtain rfl := metadataKey_inj same
      obtain rfl := Option.some.inj (put.symm.trans own)
      rw [type] at composite
      exact .rewritten (by simp [named]) found (version composite) type fun _ => .inl deadline
  -- The record is the one the command has found, or a new one.
  | @added other args type v batch adds named opened additions =>
    have names : request.command.writtenKeys request.args = [other] := by
      rw [named, Command.writtenKeys_of_adds adds]
    rw [names, List.forall_mem_singleton] at shortKeys
    by_cases here : key = other
    · subst here
      obtain ⟨_, put, recordOf⟩ := additions.metaKey store
      obtain rfl := Option.some.inj (put.symm.trans own)
      have written : key ∈ request.command.writtenKeys request.args := by simp [names]
      cases opened with
      | found stored typed live =>
        refine .rewritten written ((owned.lookupMeta short).symm.trans stored) recordOf.versionOf_eq
          (recordOf.valueType_eq.trans typed.symm) fun expired => .inr ?_
        rcases live with rfl | live
        · exact typed
        · exact absurd (live.symm.trans expired) nofun
      | absent none => exact .drawn written (.inr ⟨type, adds, .inl none⟩) recordOf.versionOf_eq
      | expired stored other expired =>
        exact .drawn written (.inr ⟨type, adds, .inr ⟨other, _, stored, expired⟩⟩)
          recordOf.versionOf_eq
    · exact .kept ((additions.edits.metaKey_of_ne here).symm.trans own)
  | @renewed other batch bitop named additions =>
    rw [named, List.forall_mem_singleton] at shortKeys
    by_cases here : key = other
    · subst here
      obtain ⟨_, put, recordOf⟩ := additions.metaKey store
      obtain rfl := Option.some.inj (put.symm.trans own)
      exact .drawn (by simp [named]) (.inl bitop) recordOf.versionOf_eq
    · exact .kept ((additions.edits.metaKey_of_ne here).symm.trans own)
  | @removed other value args type meta' batch removes named removal edits =>
    have names : request.command.writtenKeys request.args = [other] := by
      rw [named, Command.writtenKeys_of_removes removes]
    rw [names, List.forall_mem_singleton] at shortKeys
    by_cases here : key = other
    · subst here
      rcases edits.metaKey_cases store with same | ⟨_, put, recordOf⟩
      · exact .kept (same.symm.trans own)
      · obtain rfl := Option.some.inj (put.symm.trans own)
        refine .rewritten (by simp [names]) ((owned.lookupMeta short).symm.trans removal.stored)
          (recordOf.versionOf_eq.trans (decodeMetadata_fields removal.decoded).2.1)
          (recordOf.valueType_eq.trans removal.typed.symm) fun expired => .inr ?_
        rcases removal.live with rfl | live
        · exact removal.typed
        · exact absurd (live.symm.trans expired) nofun
    · exact .kept ((edits.metaKey_of_ne here).symm.trans own)
  | deleted => exact .kept (Store.get_foldl_deleted_metaKey own)
  | flushed =>
    refine .kept ?_
    simp only [Store.get_without] at own
    split_ifs at own <;> simp_all

end Records

section Types

variable {key value record : Bytes} {requests : List Request}

/-- Edits of a composite type write no string. -/
theorem BatchEdits.keeps_strings {other : Bytes} {type : DataType} {v : UInt64}
    {removed : List Bytes} {batch : WriteBatch} (edits : BatchEdits ctx other type v removed batch)
    (own : (store.write batch).get .metadata (ctx.metaKey key) = some record)
    (text : valueType record = some .string) :
    store.get .metadata (ctx.metaKey key) = some record := by
  by_cases here : key = other
  · subst here
    rcases edits.metaKey_cases store with same | ⟨_, put, recordOf⟩
    · exact same.symm.trans own
    · obtain rfl := Option.some.inj (put.symm.trans own)
      exact absurd (Option.some.inj (recordOf.valueType_eq.symm.trans text)) recordOf.composite
  · exact (edits.metaKey_of_ne here).symm.trans own

/-- A string that a request has put under a key with a value of another type. -/
theorem Request.Change.overwrites {after : Store} (change : request.Change ctx store after)
    (owned : store.Owned ctx) (shortKeys : request.ShortKeys) (short : key.length < 2 ^ 24)
    (before : store.get .metadata (ctx.metaKey key) = some value)
    (own : after.get .metadata (ctx.metaKey key) = some record)
    (text : valueType record = some .string) (other : valueType value ≠ some .string) :
    key ∈ request.command.writtenKeys request.args ∧
      (request.command = .set ∨ request.command = .mset) := by
  have kept : store.get .metadata (ctx.metaKey key) ≠ some record := by
    rintro same
    obtain rfl := Option.some.inj (before.symm.trans same)
    exact other text
  have stored := (owned.lookupMeta short).trans before
  cases change with
  | none => exact absurd own kept
  | texts texts overwrites =>
    rcases texts.metadata_cases store (ctx.metaKey key) with same | ⟨k, named, same, -⟩
    · exact absurd (same.symm.trans own) kept
    · obtain rfl := metadataKey_inj same
      refine ⟨named, ?_⟩
      rcases overwrites with set | mset | plain
      · exact .inl set
      · exact .inr mset
      · exact absurd (plain key named value stored) other
  | redated _ named found redated =>
    unfold Request.ShortKeys at shortKeys
    rw [named, List.forall_mem_singleton] at shortKeys
    rw [owned.lookupMeta shortKeys] at found
    rcases redated.metadata_cases store (ctx.metaKey key) with
      same | ⟨same, encoded, put, type, -⟩
    · exact absurd (same.symm.trans own) kept
    · obtain rfl := metadataKey_inj same
      obtain rfl := Option.some.inj (before.symm.trans found)
      obtain rfl := Option.some.inj (put.symm.trans own)
      exact absurd (type.symm.trans text) other
  | added _ _ _ additions => exact absurd (additions.edits.keeps_strings own text) kept
  | renewed _ _ additions => exact absurd (additions.edits.keeps_strings own text) kept
  | removed _ _ _ edits => exact absurd (edits.keeps_strings own text) kept
  | deleted => exact absurd (Store.get_foldl_deleted_metaKey own) kept
  | flushed =>
    simp only [Store.get_without] at own
    split_ifs at own <;> simp_all

/-- Where a namespace has written all, a key that has a value gets one of another type from `SET`,
`MSET` and `BITOP` alone, or when its deadline has passed, and only if the request names it. -/
theorem type_changes_only
    (run : Runs ctx (fun _ request => request.ShortKeys) .empty requests store)
    (shortKeys : request.ShortKeys) (short : key.length < 2 ^ 24)
    (before : store.get .metadata (ctx.metaKey key) = some value)
    (after : (request.after ctx store).get .metadata (ctx.metaKey key) = some record)
    (other : valueType record ≠ valueType value) :
    key ∈ request.command.writtenKeys request.args ∧ (request.command ∈ [.set, .mset, .bitop] ∨
      (∃ type, request.command.adds = some type ∧ type ≠ .hash) ∧
        expiredAt (deadlineOf value) request.env.nowMs = true) := by
  have regular : store.Regular := run.invariant Store.regular_empty
    fun _ request _ regular => request.regular_after regular
  have owned : store.Owned ctx :=
    run.invariant Store.owned_empty fun _ _ short owned => owned.after short
  have stored := (owned.lookupMeta short).trans before
  have change : request.Change ctx store (request.after ctx store) := request.change regular
  by_cases text : valueType record = some .string
  · obtain ⟨named, set | mset⟩ := change.overwrites owned shortKeys short before after text
      fun same => other (text.trans same.symm)
    · exact ⟨named, .inl (by simp [set])⟩
    · exact ⟨named, .inl (by simp [mset])⟩
  · cases change.recordSource owned shortKeys short after text with
    | kept own =>
      obtain rfl := Option.some.inj (before.symm.trans own)
      exact absurd rfl other
    | rewritten _ own _ type =>
      obtain rfl := Option.some.inj (before.symm.trans own)
      exact absurd type other
    | drawn named draws =>
      -- The record is a new one: of `BITOP`, or in the place of an expired one.
      refine ⟨named, ?_⟩
      rcases draws with bitop | ⟨type, adds, none | ⟨plain, _, found, expired⟩⟩
      · simp [bitop]
      · exact absurd (none.symm.trans stored) nofun
      · obtain rfl := Option.some.inj (found.symm.trans stored)
        exact .inr ⟨⟨type, adds, plain⟩, expired⟩

/-- A list becomes a string. -/
theorem type_changes_only_of_set :
    let store := Request.after .plain .empty ⟨.rpush, [ascii "k", ascii "x"], .plain 1⟩
    let value := (store.get .metadata (CommandContext.plain.metaKey (ascii "k"))).getD []
    let request : Request := ⟨.set, [ascii "k", ascii "v"], .plain 2⟩
    valueType value = some .list ∧ ascii "k" ∈ request.command.writtenKeys request.args ∧
      (request.command ∈ [.set, .mset, .bitop] ∨
        (∃ type, request.command.adds = some type ∧ type ≠ .hash) ∧
          expiredAt (deadlineOf value) request.env.nowMs = true) := by
  intro store value request
  have run : Runs .plain (fun _ request => request.ShortKeys) .empty [_] store :=
    Run.single (by decide)
  have after : (request.after .plain store).get .metadata
      (CommandContext.plain.metaKey (ascii "k")) =
      some (encodeString stringFlags 0 (ascii "v")) := by decide
  exact ⟨by decide, type_changes_only run (by decide) (by decide) (by decide) after
    (by decide)⟩

end Types

end Kvdb
