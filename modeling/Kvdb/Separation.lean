import Kvdb.Expiry.Forgotten
import Kvdb.HashScan
import Kvdb.Namespaces

/-!
# Commands touch only the keys they name

A command other than `FLUSHDB` changes entries of the keys it writes and of no
other key, because no entry of one short key begins with the metadata key of
another. Reading commands on other keys reply as before. There are two
exceptions. The cursor of `HSCAN` is a physical key that a client may make up. If
it sorts before the hash, the elements of a key in between stop the scan. And the
metadata key that a namespace gives to one key may be the legacy metadata key of
another, enormous one.
-/

namespace Kvdb

open Data Semantics Cmd

variable {ctx : CommandContext} {key other phys : Bytes} {cf : ColumnFamily} {env : Env}
  {store store' : Store} {request : Request} {command : Command} {args : List Bytes}

section Entries

/-- No entry of a key begins with the metadata key of another. -/
theorem metaKey_not_isPrefix (short : key.length < 2 ^ 32) (short' : other.length < 2 ^ 32)
    (distinct : key ≠ other) (rest : Bytes) : ¬ ctx.metaKey other <+: ctx.metaKey key ++ rest := by
  rintro ⟨rest', same⟩
  exact distinct (metadataKey_append_inj short' short same).1.symm

/-- What a request changes is a metadata entry or an element of a key it writes. -/
theorem Request.mem_of_changed (kept : request.command ≠ .flushdb)
    (changed : (request.after ctx store).get cf phys ≠ store.get cf phys) :
    ∃ key ∈ request.command.writtenKeys request.args,
      cf = .metadata ∧ phys = ctx.metaKey key ∨
        cf ≠ .metadata ∧ ∃ v sub, phys = ctx.subKey key v sub := by
  by_contra apart
  refine changed ?_
  rw [Request.after_eq]
  refine (Command.footprint ctx kept request.args).invariant
    (fun before batch onKeys (held : before.get cf phys = store.get cf phys) => ?_) rfl
  rw [before.get_write_of_forall_ne, held]
  rintro op inside ⟨rfl, rfl⟩
  rcases onKeys op inside with ⟨named, -⟩ | named | ⟨named, element⟩ | ⟨named, element⟩
  · exact apart ⟨_, named, .inl ⟨rfl, rfl⟩⟩
  · exact apart ⟨_, named, .inl ⟨rfl, rfl⟩⟩
  · exact apart ⟨_, named, .inr ⟨element, _, _, rfl⟩⟩
  · exact apart ⟨_, named, .inr ⟨element, _, _, rfl⟩⟩

theorem Request.prefix_of_changed (kept : request.command ≠ .flushdb)
    (changed : (request.after ctx store).get cf phys ≠ store.get cf phys) :
    ∃ key ∈ request.command.writtenKeys request.args, ctx.metaKey key <+: phys := by
  obtain ⟨key, named, ⟨-, rfl⟩ | ⟨-, v, sub, rfl⟩⟩ := Request.mem_of_changed kept changed
  · exact ⟨key, named, List.prefix_rfl⟩
  · exact ⟨key, named, List.prefix_append _ _⟩

end Entries

section Views

/-- The key's metadata is not looked up where another key's is stored. -/
def CommandContext.Separate (ctx : CommandContext) (key : Bytes) : Prop :=
  ∀ other : Bytes, other.length < 2 ^ 32 → other ≠ key → ctx.metaKey other ∉ ctx.places key

/-- Short keys share no place. -/
theorem CommandContext.separate_of_short (short : key.length < 2 ^ 24) : ctx.Separate key := by
  intro other short' otherwise shared
  unfold CommandContext.places at shared
  have own : ctx.metaKey other ≠ ctx.metaKey key := fun same =>
    otherwise (metadataKey_inj same)
  split_ifs at shared with unnamed
  · exact own (List.mem_singleton.mp shared)
  · have legacy : metadataKey other ctx.tenant = metadataKey key [] :=
      List.mem_singleton.mp ((List.mem_cons.mp shared).resolve_left own)
    -- The legacy key of a short key begins with zero, a named one with the length of the name.
    obtain ⟨rest, zero⟩ := u32Bytes_of_lt short
    rw [metadataKey_eq, metadataKey_eq, if_neg unnamed, if_pos rfl, zero] at legacy
    have marker := congrArg UInt8.toNat (List.cons.inj legacy).1
    have named : 0 < ctx.tenant.length := List.length_pos_iff.mpr unnamed
    have small := ctx.tenant_le
    rw [UInt8.toNat_ofNat'] at marker
    simp only [UInt8.toNat_zero] at marker
    omega

/-- No element of another key can stand between the start key of a scan and the
entries of the key. -/
def CommandContext.Unbarred (ctx : CommandContext) (key start : Bytes) : Prop :=
  start ≠ [] → ∀ other : Bytes, other.length < 2 ^ 32 → other ≠ key → ∀ v sub,
    ¬ (start < ctx.subKey other v sub ∧ ctx.subKey other v sub < ctx.metaKey key)

/-- The request is one on other keys: it writes neither on the keys of the list nor
on all keys. -/
structure Request.Elsewhere (request : Request) (keys : List Bytes) : Prop where
  kept : request.command ≠ .flushdb
  short : ∀ key ∈ request.command.writtenKeys request.args, key.length < 2 ^ 32
  apart : ∀ key ∈ request.command.writtenKeys request.args, key ∉ keys

variable {keys : List Bytes}

theorem Request.Elsewhere.lookupMeta (elsewhere : request.Elsewhere keys) (named : key ∈ keys)
    (separate : ctx.Separate key) :
    ctx.lookupMeta (request.after ctx store) key = ctx.lookupMeta store key := by
  refine ctx.lookupMeta_congr fun place here => ?_
  by_contra changed
  obtain ⟨other, written, ⟨-, rfl⟩ | ⟨element, -⟩⟩ := Request.mem_of_changed elsewhere.kept changed
  · refine separate other (elsewhere.short other written) ?_ here
    rintro rfl
    exact elsewhere.apart _ written named
  · exact element rfl

theorem Request.Elsewhere.elements (elsewhere : request.Elsewhere keys) (named : key ∈ keys)
    (short : key.length < 2 ^ 32) (version : UInt64) :
    SameElements ctx key version store (request.after ctx store) := by
  intro cf element sub
  by_contra changed
  obtain ⟨other, written, inside⟩ := Request.prefix_of_changed elsewhere.kept changed
  refine metaKey_not_isPrefix short (elsewhere.short other written) ?_ _ inside
  rintro rfl
  exact elsewhere.apart _ written named

/-- A key of the list is seen as before. -/
theorem Request.Elsewhere.seenAlike (elsewhere : request.Elsewhere keys) (named : key ∈ keys)
    (short : key.length < 2 ^ 32) (separate : ctx.Separate key) :
    SeenAlike ctx key env env store (request.after ctx store) :=
  ⟨⟨rfl, elsewhere.lookupMeta named separate, fun _ _ => rfl⟩,
    fun _ _ _ => elsewhere.elements named short _⟩

/-- What bars a scan is no entry of the key itself. -/
theorem lt_metaKey_of_lt_subKey {v : UInt64} (below : phys < ctx.subKey key v [])
    (outside : ¬ ctx.metaKey key <+: phys) : phys < ctx.metaKey key := by
  by_contra lower
  exact outside (prefix_of_between lower below (List.prefix_append _ _))

theorem Request.Elsewhere.barred_iff (elsewhere : request.Elsewhere keys) (named : key ∈ keys)
    (short : key.length < 2 ^ 32) {start : Bytes} (nonempty : start ≠ [])
    (unbarred : ctx.Unbarred key start) (version : UInt64) :
    (request.after ctx store).Barred .subkey start (ctx.subKey key version []) ↔
      store.Barred .subkey start (ctx.subKey key version []) := by
  have kept : ∀ phys, start < phys → phys < ctx.subKey key version [] →
      (request.after ctx store).get .subkey phys = store.get .subkey phys := by
    intro phys beyond below
    by_contra changed
    obtain ⟨other, written, ⟨element, -⟩ | ⟨-, v, sub, rfl⟩⟩ :=
      Request.mem_of_changed elsewhere.kept changed
    · exact nomatch element
    have otherwise : other ≠ key := by
      rintro rfl
      exact elsewhere.apart _ written named
    have short' := elsewhere.short other written
    exact unbarred nonempty other short' otherwise v sub ⟨beyond,
      lt_metaKey_of_lt_subKey below (metaKey_not_isPrefix short' short otherwise _)⟩
  constructor
  · rintro ⟨phys, value, stored, beyond, below⟩
    exact ⟨phys, value, kept phys beyond below ▸ stored, beyond, below⟩
  · rintro ⟨phys, value, stored, beyond, below⟩
    exact ⟨phys, value, (kept phys beyond below).trans stored, beyond, below⟩

end Views

section Readers

/-- The cursor of an `HSCAN`, if that is the command, lets no other key bar the
scan. -/
def CommandContext.CursorFree (ctx : CommandContext) (command : Command) (args : List Bytes) :
    Prop :=
  command = .hscan → ∀ key ∈ args.head?, ∀ start,
    args[1]?.map decodeCursor = some (.ok (some start)) → ctx.Unbarred key start

/-- Requests on other keys do not change the reply. -/
def CommandContext.Unaffected (ctx : CommandContext) (command : Command) (args : List Bytes) :
    Prop :=
  ∀ (store : Store) (request : Request) (env : Env),
    request.Elsewhere (command.readKeys args) →
      Request.reply ctx (request.after ctx store) ⟨command, args, env⟩ =
        Request.reply ctx store ⟨command, args, env⟩

/-- A reading command replies as before where its keys are separate. -/
theorem CommandContext.unaffected_of_separate (reads : command.reads = true)
    (named : command ≠ .dbsize) (short : ∀ key ∈ command.readKeys args, key.length < 2 ^ 32)
    (separate : ∀ key ∈ command.readKeys args, ctx.Separate key)
    (cursor : ctx.CursorFree command args) : ctx.Unaffected command args := by
  intro store request env elsewhere
  suffices same : Same env env store (request.after ctx store) (command.run ctx args) from
    Same.reply same
  refine Command.same reads named rfl (fun key member => ?_) ?_
  · exact (elsewhere.seenAlike member (short key member) (separate key member)).meets command
  · rintro rfl key member meta' start count - decoded
    have inside : key ∈ Command.hscan.readKeys args := mem_take_one member
    refine alike_prefixScanPage ?_ fun nonempty => ?_
    · exact (elsewhere.elements inside (short key inside) _).behind (by decide)
    · exact elsewhere.barred_iff inside (short key inside) nonempty
        (cursor rfl key member start decoded) _

end Readers

section Necessity

variable {cursor start : Bytes}

/-- The request `MSET key v` with a short key. -/
theorem elsewhere_mset (short : other.length < 2 ^ 32) (otherwise : other ≠ key) :
    Request.Elsewhere ⟨.mset, [other, ascii "v"], .plain 0⟩ [key] where
  kept := nofun
  short _ member := List.mem_singleton.mp member ▸ short
  apart _ member named :=
    otherwise ((List.mem_singleton.mp member).symm.trans (List.mem_singleton.mp named))

theorem Request.after_mset {value : Bytes} :
    Request.after ctx store ⟨.mset, [key, value], env⟩ =
      store.apply (.put .metadata (ctx.metaKey key) (encodeString stringFlags 0 value)) := by
  rw [Request.after_eq]
  change (exec _ (Cmd.mset ctx [key, value]) store).2 = _
  rw [Cmd.mset, if_neg (by simp)]
  rfl

theorem lookupMeta_after_mset (shared : ctx.metaKey other ∈ ctx.places key) :
    ctx.lookupMeta (Request.after ctx .empty ⟨.mset, [other, ascii "v"], .plain 0⟩) key =
      some (encodeString stringFlags 0 (ascii "v")) := by
  rw [Request.after_mset, CommandContext.lookupMeta, Store.get_apply_put, Store.get_apply_put]
  unfold CommandContext.places at shared
  by_cases own : ctx.metaKey key = ctx.metaKey other
  · simp [own]
  · split_ifs at shared with unnamed
    · exact absurd (List.mem_singleton.mp shared).symm own
    · have legacy : ctx.metaKey other = metadataKey key [] := by
        simpa [Ne.symm own] using shared
      rw [if_neg (own ∘ And.right), if_neg unnamed, if_pos ⟨rfl, legacy.symm⟩]
      rfl

theorem exec_get :
    exec env (Cmd.get ctx [key]) store =
      (((ctx.lookupMeta store key).elim (.ok none) fun v => judgeString v env.nowMs).map
        RespValue.bulkString, store) := by
  rw [Cmd.get, exec_bind, judges_readString]
  generalize (ctx.lookupMeta store key).elim (Except.ok none) (fun v => judgeString v env.nowMs) =
      found
  cases found <;> rfl

/-- If the metadata of the key is looked up where another key's is stored, `GET`
finds the other string. -/
theorem CommandContext.separate_of_get (unaffected : ctx.Unaffected .get [key]) :
    ctx.Separate key := by
  intro other short otherwise shared
  have same := unaffected .empty _ (.plain 0) (elsewhere_mset short otherwise)
  have string : judgeString (encodeString stringFlags 0 (ascii "v")) (Env.plain 0).nowMs =
      .ok (some (ascii "v")) := by decide
  have before : Request.reply ctx .empty ⟨.get, [key], .plain 0⟩ = .ok (.bulkString none) :=
    Request.reply_eq_ok ctx (exec_get.trans (by rw [ctx.lookupMeta_empty]; rfl))
  rw [before, Request.reply_eq_ok ctx (exec_get.trans (by
    rw [lookupMeta_after_mset shared, Option.elim, string]; rfl))] at same
  exact absurd same (by decide)

/-- So does `HSCAN`, and refuses it. -/
theorem CommandContext.separate_of_hscan (text : isUtf8 cursor = true)
    (decoded : decodeCursor cursor = .ok (some start))
    (unaffected : ctx.Unaffected .hscan [key, cursor]) : ctx.Separate key := by
  intro other short otherwise shared
  have same := unaffected .empty _ (.plain 0) (elsewhere_mset short otherwise)
  have string : decodeAndCheckHash (encodeString stringFlags 0 (ascii "v")) =
      .error wrongTypeError := by decide
  have before : Request.reply ctx .empty ⟨.hscan, [key, cursor], .plain 0⟩ =
      .ok (.array [.bulkString (some (ascii "0")), .array []]) :=
    Request.reply_eq_ok ctx ((exec_hscan text decoded rfl).trans (by
      rw [hashMeta_of_absent ctx.lookupMeta_empty]))
  have refused : exec (.plain 0) (Cmd.hscan ctx [key, cursor])
      (Request.after ctx .empty ⟨.mset, [other, ascii "v"], .plain 0⟩) =
      (.error wrongTypeError, Request.after ctx .empty ⟨.mset, [other, ascii "v"], .plain 0⟩) := by
    rw [exec_hscan text decoded rfl, CommandContext.hashMeta, lookupMeta_after_mset shared]
    simp only [string]
  have after : Request.reply ctx _ ⟨.hscan, [key, cursor], .plain 0⟩ = _ :=
    Request.reply_eq_error ctx refused
  cases before.symm.trans (same.symm.trans after)

/-- A hash with one field, and another hash at a version of its own. -/
def twoHashes (ctx : CommandContext) (key other : Bytes) (v : UInt64) : Store :=
  Store.empty.write
    [.put .subkey (ctx.subKey key 0 []) (ascii "v"),
      .put .metadata (ctx.metaKey key) (encodeMetadata (Metadata.new .hash 0)),
      .put .metadata (ctx.metaKey other) (encodeMetadata (Metadata.new .hash v))]

theorem get_subkey_twoHashes {v : UInt64} :
    (twoHashes ctx key other v).get .subkey phys =
      if phys = ctx.subKey key 0 [] then some (ascii "v") else none := by
  simp [twoHashes, Store.get_apply_put]

theorem recorded_twoHashes {v : UInt64} (otherwise : other ≠ key) :
    Recorded ctx key (Metadata.new .hash 0) (twoHashes ctx key other v) := by
  have apart : ctx.metaKey key ≠ ctx.metaKey other := fun same =>
    otherwise (metadataKey_inj same).symm
  simp [Recorded, twoHashes, Store.get_apply_put, apart]

theorem behind_twoHashes {v : UInt64} :
    (twoHashes ctx key other v).behind .subkey (ctx.subKey key 0 []) =
      [(ctx.subKey key 0 [], ascii "v")] := by
  refine eq_of_ordered (Store.behind_ordered ..) (List.pairwise_singleton ..) ?_
  rintro ⟨phys, value⟩
  rw [Store.mem_behind, get_subkey_twoHashes, List.mem_singleton, Prod.mk.injEq]
  constructor
  · rintro ⟨stored, -⟩
    split_ifs at stored with here
    exact ⟨here, (Option.some.inj stored).symm⟩
  · rintro ⟨rfl, rfl⟩
    exact ⟨if_pos rfl, List.prefix_rfl⟩

/-- `HSET` stores the field that is to bar the scan. -/
theorem get_after_hset {v : UInt64} {sub : Bytes}
    (recorded : Recorded ctx other (Metadata.new .hash v) store) :
    (Request.after ctx store ⟨.hset, [other, sub, ascii "v"], .plain 0⟩).get .subkey
      (ctx.subKey other v sub) = some (ascii "v") := by
  have base : ctx.hashBase (.plain 0) store other = .ok (Metadata.new .hash v) := by
    rw [CommandContext.hashBase, hashMeta_of_recorded recorded (Metadata.new_proper .hash v)]
    rfl
  obtain ⟨reply, record, done⟩ : ∃ reply record,
      exec (.plain 0) (Cmd.hset ctx [other, sub, ascii "v"]) store =
        (.ok reply, store.write [.put .subkey (ctx.subKey other v sub) (ascii "v"),
          .put .metadata (ctx.metaKey other) record]) := by
    rw [Cmd.hset, if_neg (by simp), exec_bind_ok (exec_ensureHashMeta.trans (by rw [base])),
      exec_bind_ok (exec_hsetLoop ..)]
    exact ⟨_, _, rfl⟩
  rw [Request.after_eq_of_exec ctx done]
  simp [Store.get_apply_put]

/-- The page of `HSCAN` on the hash with one field. -/
theorem reply_hscan_page (text : isUtf8 cursor = true)
    (decoded : decodeCursor cursor = .ok (some start))
    (recorded : Recorded ctx key (Metadata.new .hash 0) store) {items : List Entry}
    {fields : List RespValue}
    (page : exec env (prefixScanPage .subkey (ctx.subKey key 0 []) start 10) store =
      (.ok (items, none), store))
    (pushed : exec env (pushFields ctx items []) store = (.ok fields, store)) :
    Request.reply ctx store ⟨.hscan, [key, cursor], env⟩ =
      .ok (.array [.bulkString (some (encodeCursor [])), .array fields]) := by
  have ran : exec env (Cmd.hscan ctx [key, cursor]) store =
      (.ok (.array [.bulkString (some (encodeCursor [])), .array fields]), store) := by
    rw [exec_hscan text decoded rfl, hashMeta_of_recorded recorded (Metadata.new_proper .hash 0)]
    exact (exec_bind_ok page).trans (exec_bind_ok pushed)
  exact Request.reply_eq_ok ctx ran

/-- If an element of another key can stand between the cursor and the hash, the
scan stops at it. -/
theorem CommandContext.unbarred_of_hscan (short : key.length < 2 ^ 32)
    (text : isUtf8 cursor = true) (decoded : decodeCursor cursor = .ok (some start))
    (unaffected : ctx.Unaffected .hscan [key, cursor]) : ctx.Unbarred key start := by
  rintro nonempty other short' otherwise v sub ⟨beyond, below⟩
  have reached : start < ctx.subKey key 0 [] := by
    refine lt_of_lt_of_le (lt_trans beyond below) (not_lt.mp (not_lt_of_isPrefix ?_))
    exact List.prefix_append _ _
  have below' : ctx.subKey other v sub < ctx.subKey key 0 [] :=
    lt_of_lt_of_le below (not_lt.mp (not_lt_of_isPrefix (List.prefix_append _ _)))
  let request : Request := ⟨.hset, [other, sub, ascii "v"], .plain 0⟩
  have elsewhere : request.Elsewhere [key] := by
    refine ⟨nofun, fun _ member => List.mem_singleton.mp member ▸ short', fun _ member named => ?_⟩
    exact otherwise ((List.mem_singleton.mp member).symm.trans (List.mem_singleton.mp named))
  have same := unaffected (twoHashes ctx key other v) request (.plain 0) elsewhere
  have recorded : Recorded ctx key _ (twoHashes ctx key other v) :=
    recorded_twoHashes otherwise
  have recorded' : Recorded ctx other (Metadata.new .hash v) (twoHashes ctx key other v) := by
    simp [Recorded, twoHashes, Store.get_apply_put]
  have kept : Recorded ctx key (Metadata.new .hash 0)
      (request.after ctx (twoHashes ctx key other v)) := by
    refine Eq.trans ?_ recorded
    by_contra changed
    obtain ⟨_, written, inside⟩ := Request.prefix_of_changed elsewhere.kept changed
    obtain rfl := List.mem_singleton.mp written
    exact metaKey_not_isPrefix short short' otherwise.symm [] (by simpa using inside)
  have free : ¬ (twoHashes ctx key other v).Barred .subkey start (ctx.subKey key 0 []) := by
    rintro ⟨phys, value, stored, -, early⟩
    rw [get_subkey_twoHashes] at stored
    split_ifs at stored with here
    exact lt_irrefl _ (here ▸ early)
  have page : exec (.plain 0) (prefixScanPage .subkey (ctx.subKey key 0 []) start 10)
      (twoHashes ctx key other v) =
      (.ok ([(ctx.subKey key 0 [], ascii "v")], none), twoHashes ctx key other v) := by
    rw [exec_prefixScanPage_free nonempty (by decide) (by decide) free, behind_twoHashes,
      entriesAfter_eq_self (by simpa using reached)]
    rfl
  have pushed : exec (.plain 0) (pushFields ctx [(ctx.subKey key 0 [], ascii "v")] [])
      (twoHashes ctx key other v) =
      (.ok [.bulkString (some []), .bulkString (some (ascii "v"))], twoHashes ctx key other v) := by
    rw [pushFields, pushField, ctx.parseSubkey_subKey _ _ short]
    rfl
  have barred : exec (.plain 0) (prefixScanPage .subkey (ctx.subKey key 0 []) start 10)
      (request.after ctx (twoHashes ctx key other v)) = (.ok ([], none), _) :=
    exec_prefixScanPage_barred nonempty (by decide) (by decide)
      ⟨_, _, get_after_hset recorded', beyond, below'⟩
  rw [reply_hscan_page text decoded recorded page pushed,
    reply_hscan_page text decoded kept barred rfl] at same
  exact absurd same (by decide)

end Necessity

/-- A command other than `FLUSHDB` changes entries of the keys it writes only, and
no entry of a key begins with the metadata key of another. Requests on other keys
leave alone what reading commands reply about some keys, `HSCAN` with a bad cursor
apart, if and only if the metadata of those keys is looked up at places of their
own. They leave alone what `HSCAN` replies if and only if, moreover, no element of
another key can stand between the cursor and the hash. -/
theorem commands_touch_named_keys (ctx : CommandContext) :
    (∀ (request : Request) (store : Store) (cf : ColumnFamily) (phys : Bytes),
      request.command ≠ .flushdb →
      (request.after ctx store).get cf phys ≠ store.get cf phys →
      ∃ key ∈ request.command.writtenKeys request.args, ctx.metaKey key <+: phys) ∧
    (∀ key other : Bytes, key.length < 2 ^ 32 → other.length < 2 ^ 32 → key ≠ other →
      ¬ ctx.metaKey other <+: ctx.metaKey key ∧
        ∀ v sub, ¬ ctx.metaKey other <+: ctx.subKey key v sub) ∧
    (∀ keys : List Bytes, (∀ key ∈ keys, key.length < 2 ^ 32) →
      ((∀ (command : Command) (args : List Bytes), command.reads = true → command ≠ .dbsize →
          (∀ key ∈ command.readKeys args, key ∈ keys) → ctx.CursorFree command args →
          ctx.Unaffected command args) ↔
        ∀ key ∈ keys, ctx.Separate key)) ∧
    ∀ key cursor start : Bytes, key.length < 2 ^ 32 → isUtf8 cursor = true →
      decodeCursor cursor = .ok (some start) →
      (ctx.Unaffected .hscan [key, cursor] ↔ ctx.Separate key ∧ ctx.Unbarred key start) := by
  refine ⟨fun request store cf phys kept changed => Request.prefix_of_changed kept changed,
    fun key other short short' distinct =>
      ⟨?_, fun v sub => metaKey_not_isPrefix short short' distinct _⟩,
    fun keys short =>
      ⟨fun unaffected key member => ?_, fun separate command args reads named within => ?_⟩,
    fun key cursor start short text decoded => ⟨fun unaffected => ?_, ?_⟩⟩
  · simpa using metaKey_not_isPrefix short short' distinct []
  · refine CommandContext.separate_of_get (unaffected .get [key] rfl (by decide) ?_ nofun)
    exact fun other here => List.mem_singleton.mp here ▸ member
  · exact CommandContext.unaffected_of_separate reads named
      (fun key here => short key (within key here)) fun key here => separate key (within key here)
  · exact ⟨CommandContext.separate_of_hscan text decoded unaffected,
      CommandContext.unbarred_of_hscan short text decoded unaffected⟩
  · rintro ⟨separate, unbarred⟩
    refine CommandContext.unaffected_of_separate rfl (by decide)
      (fun _ here => List.mem_singleton.mp here ▸ short)
      (fun _ here => List.mem_singleton.mp here ▸ separate) ?_
    rintro - _ ⟨⟩ start' same
    obtain rfl : start = start' := by simpa [decoded] using same
    exact unbarred

/-- With the cursor `00` a scan of the hash `b` starts at the beginning of the
family. It lists the field until a hash `a` gets one of its own. -/
theorem hscan_stops_at_other_key :
    let hashed : Store :=
      Request.after .plain .empty ⟨.hset, [ascii "b", ascii "f", ascii "v"], .plain 1⟩
    let scan : Request := ⟨.hscan, [ascii "b", ascii "00"], .plain 1⟩
    let request : Request := ⟨.hset, [ascii "a", ascii "f", ascii "v"], .plain 1⟩
    request.command.writtenKeys request.args = [ascii "a"] ∧
    scan.reply .plain hashed = .ok (.array [.bulkString (some (ascii "0")),
      .array [.bulkString (some (ascii "f")), .bulkString (some (ascii "v"))]]) ∧
    scan.reply .plain (request.after .plain hashed) =
      .ok (.array [.bulkString (some (ascii "0")), .array []]) := by
  decide

end Kvdb
