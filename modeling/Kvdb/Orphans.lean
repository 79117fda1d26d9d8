import Kvdb.Changes

/-!
# Elements that no key reaches

An element is found through the version in the record of its key. `DEL` and
`FLUSHDB` delete the elements with the record. A string that is set over a
collection, a result of `BITOP` over its destination, and the new record of a key
that has expired take the place of the record and leave its elements, and nothing
finds them again.
-/

namespace Kvdb

open Data Semantics

variable {ctx : CommandContext} {store : Store} {request : Request} {key : Bytes}
  {cf : ColumnFamily}

section Statement

/-- Every element belongs to a key whose record has its version. -/
def NoOrphans (ctx : CommandContext) (store : Store) : Prop :=
  ∀ cf, cf ≠ .metadata → ∀ phys value, store.get cf phys = some value →
    ∃ key sub record meta', phys = ctx.subKey key meta'.version sub ∧
      store.get .metadata (ctx.metaKey key) = some record ∧ IsRecord record meta'

/-- The request puts a value of its own in the place of what the key has. -/
def Request.Replaces (ctx : CommandContext) (store : Store) (request : Request) (key : Bytes) :
    Prop :=
  request.command ∈ [.set, .mset, .bitop] ∨
    request.command.adds.any (· ≠ .hash) ∧
      ∃ value, ctx.lookupMeta store key = some value ∧
        expiredAt (deadlineOf value) request.env.nowMs = true

/-- The request replaces no record that has elements. -/
structure Request.Tidies (ctx : CommandContext) (store : Store) (request : Request) : Prop where
  short : request.ShortKeys
  bare : ∀ key ∈ request.command.writtenKeys request.args, request.Replaces ctx store key →
    Bare ctx store key

end Statement

section Invariant

/-- The entry is an element of the record of a short key. In the score index it is
one of a sorted set. -/
def Reached (ctx : CommandContext) (store : Store) (cf : ColumnFamily) (phys : Bytes) : Prop :=
  ∃ key sub record, key.length < 2 ^ 24 ∧ phys = ctx.subKey key (versionOf record) sub ∧
    store.get .metadata (ctx.metaKey key) = some record ∧ valueType record ≠ some .string ∧
    (cf = .zsetScore → valueType record = some .zset)

/-- What a run keeps up: all elements are reached. -/
structure AllReached (ctx : CommandContext) (store : Store) : Prop where
  regular : store.Regular
  owned : store.Owned ctx
  reached : ∀ cf, cf ≠ .metadata → ∀ phys value, store.get cf phys = some value →
    Reached ctx store cf phys

theorem AllReached.noOrphans (reaches : AllReached ctx store) : NoOrphans ctx store := by
  intro cf element phys value stored
  obtain ⟨key, sub, record, -, rfl, own, composite, -⟩ :=
    reaches.reached cf element phys value stored
  obtain ⟨meta', isRecord, -, version⟩ := (reaches.regular _ _ own).isRecord composite
  exact ⟨key, sub, record, meta', by rw [version], own, isRecord⟩

theorem allReached_empty : AllReached ctx .empty where
  regular := Store.regular_empty
  owned := Store.owned_empty
  reached := by
    intro cf _ phys value stored
    cases cf <;> cases stored

/-- An entry stays reached where the record of its key keeps type and version. -/
theorem Reached.kept {after : Store} {phys : Bytes} (reached : Reached ctx store cf phys)
    (same : ∀ key sub record, key.length < 2 ^ 24 → phys = ctx.subKey key (versionOf record) sub →
      store.get .metadata (ctx.metaKey key) = some record → valueType record ≠ some .string →
      ∃ record', after.get .metadata (ctx.metaKey key) = some record' ∧
        versionOf record' = versionOf record ∧ valueType record' = valueType record) :
    Reached ctx after cf phys := by
  obtain ⟨key, sub, record, short, named, own, composite, sorted⟩ := reached
  obtain ⟨record', own', version, type⟩ := same key sub record short named own composite
  exact ⟨key, sub, record', short, by rw [version, named], own', by rwa [type], by rwa [type]⟩

/-- A bare key has no elements to leave behind. -/
theorem AllReached.not_bare (reaches : AllReached ctx store) {sub record value : Bytes}
    (short : key.length < 2 ^ 24) (element : cf ≠ .metadata)
    (own : store.get .metadata (ctx.metaKey key) = some record)
    (composite : valueType record ≠ some .string)
    (stored : store.get cf (ctx.subKey key (versionOf record) sub) = some value) :
    ¬ Bare ctx store key := by
  intro bare
  have found := (reaches.owned.lookupMeta short).trans own
  have none :=
    bare record found (fun text => composite (valueType_eq_string.mpr text)) cf element sub
  rw [none] at stored
  cases stored

end Invariant

section Steps

variable {batch : WriteBatch} {type : DataType} {v : UInt64} {removed : List Bytes}

/-- Strings take the place of nothing that has elements. -/
theorem AllReached.texts (reaches : AllReached ctx store) {keys : List Bytes}
    (texts : Cmd.Texts ctx keys batch)
    (free : ∀ key ∈ keys, ∀ record, store.get .metadata (ctx.metaKey key) = some record →
      valueType record ≠ some .string → Bare ctx store key)
    (element : cf ≠ .metadata) {phys value : Bytes}
    (stored : (store.write batch).get cf phys = some value) :
    Reached ctx (store.write batch) cf phys := by
  rw [texts.element store element] at stored
  refine (reaches.reached cf element phys value stored).kept ?_
  rintro key sub record short' rfl own composite
  rcases texts.metadata_cases store (ctx.metaKey key) with same | ⟨other, named, same, -⟩
  · exact ⟨record, same.trans own, rfl, rfl⟩
  · obtain rfl := metadataKey_inj same
    exact absurd (free key named record own composite)
      (reaches.not_bare short' element own composite stored)

theorem AllReached.redated (reaches : AllReached ctx store) {value : Bytes}
    (short : key.length < 2 ^ 24) (found : ctx.lookupMeta store key = some value)
    (redated : Cmd.Redated ctx key value batch) (element : cf ≠ .metadata) {phys value' : Bytes}
    (stored : (store.write batch).get cf phys = some value') :
    Reached ctx (store.write batch) cf phys := by
  rw [reaches.owned.lookupMeta short] at found
  rw [redated.element store element] at stored
  refine (reaches.reached cf element phys value' stored).kept ?_
  rintro other sub record short' rfl own composite
  rcases redated.metadata_cases store (ctx.metaKey other) with
    same | ⟨same, encoded, put, type, version⟩
  · exact ⟨record, same.trans own, rfl, rfl⟩
  · obtain rfl := metadataKey_inj same
    obtain rfl := Option.some.inj (own.symm.trans found)
    exact ⟨encoded, put, version composite, type⟩

/-- Edits of the version that the record of the key has, if elements depend on it,
and has afterwards. -/
theorem AllReached.edited (reaches : AllReached ctx store) (short : key.length < 2 ^ 24)
    (edits : BatchEdits ctx key type v removed batch)
    (current : ∀ record, store.get .metadata (ctx.metaKey key) = some record →
      valueType record ≠ some .string → Bare ctx store key ∨
        versionOf record = v ∧ valueType record = some type)
    (recorded : ∃ record, (store.write batch).get .metadata (ctx.metaKey key) = some record ∧
      versionOf record = v ∧ valueType record = some type)
    (composite : type ≠ .string) (element : cf ≠ .metadata) {phys value : Bytes}
    (stored : (store.write batch).get cf phys = some value) :
    Reached ctx (store.write batch) cf phys := by
  obtain ⟨record', own', version', type'⟩ := recorded
  rcases edits.element_cases store element phys with same | ⟨sub, rfl, sorted, -⟩
  · rw [same] at stored
    refine (reaches.reached cf element phys value stored).kept ?_
    rintro other sub record short' rfl own composite
    by_cases here : other = key
    · subst here
      rcases current record own composite with bare | ⟨version, type⟩
      · exact absurd bare (reaches.not_bare short element own composite stored)
      · exact ⟨record', own', version'.trans version.symm, type'.trans type.symm⟩
    · refine ⟨record, ?_, rfl, rfl⟩
      rw [edits.onKeys.record_apart (by simpa using here) store]
      exact own
  · refine ⟨key, sub, record', short, by rw [version'], own', ?_, fun index => ?_⟩
    · rw [type']
      exact fun same => composite (Option.some.inj same)
    · rw [type', sorted index]

/-- Deleting a key takes the elements of its record. -/
theorem AllReached.deleted (reaches : AllReached ctx store) (short : key.length < 2 ^ 24) :
    AllReached ctx (store.deleted ctx key) where
  regular := fun phys value stored => by
    rcases @Store.get_deleted ctx key phys .metadata store with none | same
    · rw [none] at stored
      cases stored
    · exact reaches.regular phys value (same.symm.trans stored)
  owned := fun cf phys value stored => by
    rcases @Store.get_deleted ctx key phys cf store with none | same
    · rw [none] at stored
      cases stored
    · exact reaches.owned cf phys value (same.symm.trans stored)
  reached := fun cf element phys value stored => by
    rcases @Store.get_deleted ctx key phys cf store with none | same
    · rw [none] at stored
      cases stored
    · obtain ⟨other, sub, record, short', rfl, own, composite, sorted⟩ :=
        reaches.reached cf element phys value (same.symm.trans stored)
      by_cases here : other = key
      · -- The version of the record is the one that is cleared.
        subst here
        obtain ⟨meta', isRecord, type, version⟩ := (reaches.regular _ _ own).isRecord composite
        have clears : Clears meta' cf := by
          cases cf with
          | metadata => exact absurd rfl element
          | subkey => exact .inl rfl
          | zsetScore => exact .inr ⟨rfl, type.trans (sorted rfl)⟩
        rw [← version,
          Store.get_element_deleted ((reaches.owned.lookupMeta short).trans own) isRecord
          element, if_pos clears] at stored
        cases stored
      · refine ⟨other, sub, record, short', rfl, ?_, composite, sorted⟩
        rw [Store.get_deleted_of_ne (fun _ => ?_) (fun absent => absurd rfl absent)]
        · exact own
        · intro same
          exact here (metadataKey_inj same)

theorem AllReached.foldl_deleted {keys : List Bytes} (reaches : AllReached ctx store)
    (short : ∀ key ∈ keys, key.length < 2 ^ 24) :
    AllReached ctx (keys.foldl (Store.deleted ctx) store) := by
  induction keys generalizing store with
  | nil => exact reaches
  | cons key rest ih =>
    obtain ⟨first, others⟩ := List.forall_mem_cons.mp short
    exact ih (reaches.deleted first) others

/-- A request that replaces no record with elements keeps all elements reached. -/
theorem AllReached.after (reaches : AllReached ctx store) (tidies : request.Tidies ctx store) :
    AllReached ctx (request.after ctx store) := by
  refine ⟨request.regular_after reaches.regular, reaches.owned.after tidies.short, ?_⟩
  intro cf element phys value stored
  have change := @Request.change ctx store reaches.regular request
  have short := tidies.short
  have bare := tidies.bare
  unfold Request.ShortKeys at short
  generalize request.after ctx store = after at change stored ⊢
  cases change with
  | none => exact reaches.reached cf element phys value stored
  | texts texts overwrites =>
    refine reaches.texts texts (fun key named record own composite => ?_) element stored
    rcases overwrites with set | mset | plain
    · exact bare key named (.inl (by simp [set]))
    · exact bare key named (.inl (by simp [mset]))
    · exact absurd (plain key named record ((reaches.owned.lookupMeta (short key named)).trans own))
        composite
  | redated deadline named found redated =>
    rw [named, List.forall_mem_singleton] at short
    exact reaches.redated short found redated element stored
  | @added key args type v batch adds named opened additions =>
    rw [named, Command.writtenKeys_of_adds adds, List.forall_mem_singleton] at short bare
    have recorded := additions.metaKey store
    refine reaches.edited short additions.edits ?_ ?_ ?_ element stored
    · intro record own composite
      have found := (reaches.owned.lookupMeta short).trans own
      cases opened with
      | found stored' typed =>
        obtain rfl := Option.some.inj (found.symm.trans stored')
        exact .inr ⟨rfl, typed⟩
      | absent none => exact absurd (none.symm.trans found) nofun
      -- A new version abandons the elements of the expired record.
      | expired stored' other expired =>
        exact .inl (bare (.inr ⟨by simpa [adds] using other, _, stored', expired⟩))
    · exact recorded.imp fun _ both => ⟨both.1, both.2.versionOf_eq, both.2.valueType_eq⟩
    · exact recorded.elim fun _ both => both.2.composite
  | @renewed key batch bitop named additions =>
    rw [named, List.forall_mem_singleton] at short bare
    have recorded := additions.metaKey store
    refine reaches.edited short additions.edits ?_ ?_ (by decide) element stored
    · exact fun record own composite => .inl (bare (.inl (by simp [bitop])))
    · exact recorded.imp fun _ both => ⟨both.1, both.2.versionOf_eq, both.2.valueType_eq⟩
  | @removed key value args type meta' batch removes named removal edits =>
    rw [named, Command.writtenKeys_of_removes removes, List.forall_mem_singleton] at short
    have own := (reaches.owned.lookupMeta short).symm.trans removal.stored
    have version := (decodeMetadata_fields removal.decoded).2.1.symm
    refine reaches.edited short edits ?_ ?_ ?_ element stored
    · intro record own' composite
      obtain rfl := Option.some.inj (own'.symm.trans own)
      exact .inr ⟨version, removal.typed⟩
    · rcases edits.metaKey_cases store with same | ⟨record, put, recordOf⟩
      · exact ⟨value, same.trans own, version, removal.typed⟩
      · exact ⟨record, put, recordOf.versionOf_eq, recordOf.valueType_eq⟩
    · generalize request.command = command at removes
      rintro rfl
      cases command <;> cases removes
  | deleted del =>
    rw [del] at short
    exact (reaches.foldl_deleted short).reached cf element phys value stored
  | flushed =>
    have there : store.get cf phys = some value ∧ ¬ Cmd.namespacePrefix ctx <+: phys := by
      simp only [Store.get_without] at stored
      cases cf <;> simp_all
    refine (reaches.reached cf element phys value there.1).kept ?_
    rintro key sub record - rfl own -
    refine ⟨record, ?_, rfl, rfl⟩
    have outside : ¬ Cmd.namespacePrefix ctx <+: ctx.metaKey key := fun inside =>
      there.2 (inside.trans (List.prefix_append _ _))
    simpa [Store.get_without, outside] using own

end Steps

section Runs

variable {requests : List Request}

/-- In a run of requests that replace no record with elements, every element belongs
to a key whose record has its version. -/
theorem no_orphans_of_tidies
    (run : Runs ctx (fun before request => request.Tidies ctx before) .empty requests store) :
    NoOrphans ctx store := by
  have reaches : AllReached ctx store :=
    run.invariant allReached_empty fun _ _ tidies reaches => reaches.after tidies
  exact reaches.noOrphans

/-- A hash is deleted before the string is set. -/
theorem no_orphan_of_deleted_hash :
    let requests : List Request := [⟨.hset, ["k", "f", "1"].map ascii, .plain 1⟩,
      ⟨.del, ["k"].map ascii, .plain 2⟩, ⟨.set, ["k", "v"].map ascii, .plain 3⟩]
    NoOrphans .plain (requests.foldl (Request.after .plain) .empty) := by
  intro requests
  have first : Request.Tidies .plain .empty ⟨.hset, ["k", "f", "1"].map ascii, .plain 1⟩ :=
    ⟨by decide, fun key _ replaces => by simp [Request.Replaces, Command.adds] at replaces⟩
  have second (store : Store) : Request.Tidies .plain store ⟨.del, ["k"].map ascii, .plain 2⟩ :=
    ⟨by decide, fun key _ replaces => by simp [Request.Replaces, Command.adds] at replaces⟩
  have third : Request.Tidies .plain ((requests.take 2).foldl (Request.after .plain) .empty)
      ⟨.set, ["k", "v"].map ascii, .plain 3⟩ := by
    refine ⟨by decide, fun key named _ value stored => ?_⟩
    obtain rfl : key = ascii "k" := List.mem_singleton.mp named
    have absent : CommandContext.plain.lookupMeta
        ((requests.take 2).foldl (Request.after .plain) .empty)
        (ascii "k") = none := by decide
    exact absurd (absent.symm.trans stored) nofun
  exact no_orphans_of_tidies (.next (.next (.next .refl first) (second _)) third)

/-- `SET` over a hash leaves the field of the hash. -/
theorem set_orphans_field :
    let requests : List Request :=
      [⟨.hset, ["k", "f", "1"].map ascii, .plain 1⟩, ⟨.set, ["k", "v"].map ascii, .plain 2⟩]
    ¬ NoOrphans .plain (requests.foldl (Request.after .plain) .empty) := by
  intro requests none
  have stored : (requests.foldl (Request.after .plain) .empty).get .subkey
      (CommandContext.plain.subKey (ascii "k") (Env.plain 1).version (ascii "f")) =
        some (ascii "1") := by
    decide
  obtain ⟨key, sub, record, meta', -, own, ⟨-, text⟩, -⟩ := none .subkey (by decide) _ _ stored
  -- The one metadata value is the string.
  have strings :
      ∀ entry ∈ ((requests.foldl (Request.after .plain) .empty).family .metadata).entries,
      firstByte entry.2 &&& flagsTypeMask = DataType.string.code := by
    decide
  exact text (strings _ ((OrderedMap.mem_entries _).mpr own))

end Runs

end Kvdb
