import Kvdb.Separation

/-!
# What DEL deletes

`DEL` finds the metadata of a key in its own place or in the legacy one, deletes the
elements under its version, and then the entry in its own place. A legacy entry
stays, so the key is still there afterwards. The score index is cleared for sorted
sets only.
-/

namespace Kvdb

open Data Semantics Cmd

variable {ctx : CommandContext} {key other phys : Bytes} {keys : List Bytes} {cf : ColumnFamily}
  {env : Env} {store : Store} {meta' : Metadata}

section Stores

/-- The metadata value is one of a composite type, with a record that can be read. -/
def IsRecord (value : Bytes) (meta' : Metadata) : Prop :=
  (value ≠ [] ∧ firstByte value &&& flagsTypeMask ≠ DataType.string.code) ∧
    decodeMetadata value = some meta'

/-- The store without the elements a metadata value stands for. -/
def Store.purged (ctx : CommandContext) (key value : Bytes) (store : Store) : Store :=
  if value ≠ [] ∧ firstByte value &&& flagsTypeMask ≠ DataType.string.code then
    match decodeMetadata value with
    | none => store
    | some meta' =>
      let pre := ctx.subKey key meta'.version []
      if meta'.dataType = some .zset then
        (store.without .subkey pre).without .zsetScore pre
      else store.without .subkey pre
  else store

def Store.deleted (ctx : CommandContext) (store : Store) (key : Bytes) : Store :=
  match ctx.lookupMeta store key with
  | none => store
  | some value => (store.purged ctx key value).apply (.delete .metadata (ctx.metaKey key))

/-- How many keys of a list `DEL` finds. -/
def deletedCount (ctx : CommandContext) : List Bytes → Store → ℕ
  | [], _ => 0
  | key :: rest, store =>
    (if (ctx.lookupMeta store key).isSome then 1 else 0) + deletedCount ctx rest
      (store.deleted ctx key)

theorem exec_purgeValue_eq (key value : Bytes) :
    exec env (purgeValue ctx key value) store = (.ok (), store.purged ctx key value) := by
  unfold purgeValue Store.purged
  split_ifs with composite
  · cases decodeMetadata value with
    | none => rfl
    | some meta' =>
      refine (exec_purgeSubkeys ctx key _ _).trans ?_
      simp
  · rfl

theorem exec_delLoop (keys : List Bytes) (count : Int64) :
    exec env (delLoop ctx keys count) store =
      (.ok (count + Int64.ofNat (deletedCount ctx keys store)),
        keys.foldl (Store.deleted ctx) store) := by
  induction keys generalizing count store with
  | nil => simp [delLoop, deletedCount]
  | cons key rest ih =>
    rw [delLoop, ctx.exec_getMeta_bind, List.foldl_cons, deletedCount]
    cases found : ctx.lookupMeta store key with
    | none =>
      have same : store.deleted ctx key = store := by rw [Store.deleted, found]
      simp only [same, Option.isSome_none, Bool.false_eq_true, if_false, Nat.zero_add]
      exact ih count
    | some value =>
      have gone : store.deleted ctx key =
          (store.purged ctx key value).apply (.delete .metadata (ctx.metaKey key)) := by
        rw [Store.deleted, found]
      simp only [Option.isSome_some, if_true]
      rw [exec_bind_ok (exec_purgeValue_eq key value), exec_delete_bind, ← gone, ih,
        Nat.add_comm 1, ← int64_add_one_add]

theorem exec_del (nonempty : keys ≠ []) :
    exec env (Cmd.del ctx keys) store =
      (.ok (.integer (Int64.ofNat (deletedCount ctx keys store))),
        keys.foldl (Store.deleted ctx) store) := by
  cases keys with
  | nil => exact absurd rfl nonempty
  | cons key rest =>
    rw [Cmd.del]
    · rw [exec_bind_ok (exec_delLoop (key :: rest) 0), Int64.zero_add]
      rfl
    · exact nonempty

end Stores

section Entries

variable {value : Bytes}

/-- The elements of a record in a family are deleted with it. -/
def Clears (meta' : Metadata) (cf : ColumnFamily) : Prop :=
  cf = .subkey ∨ cf = .zsetScore ∧ meta'.dataType = some .zset

instance Clears.decidable : Decidable (Clears meta' cf) := inferInstanceAs (Decidable (_ ∨ _))

theorem Store.get_purged (record : IsRecord value meta') :
    (store.purged ctx key value).get cf phys =
      if Clears meta' cf ∧ ctx.subKey key meta'.version [] <+: phys then none
      else store.get cf phys := by
  unfold Store.purged
  rw [if_pos record.1, record.2]
  dsimp only
  by_cases sorted : meta'.dataType = some .zset
  · rw [if_pos sorted, Store.get_without, Store.get_without]
    cases cf <;> simp [Clears, sorted]
  · rw [if_neg sorted, Store.get_without]
    cases cf <;> simp [Clears, sorted]

theorem Store.purged_of_no_record (none : ¬ ∃ meta', IsRecord value meta') :
    store.purged ctx key value = store := by
  unfold Store.purged
  split_ifs with composite
  · cases decoded : decodeMetadata value with
    | none => rfl
    | some meta' => exact absurd ⟨meta', composite, decoded⟩ none
  · rfl

/-- The key's record, if it has one, has no elements. -/
def Bare (ctx : CommandContext) (store : Store) (key : Bytes) : Prop :=
  ∀ value, ctx.lookupMeta store key = some value →
    firstByte value &&& flagsTypeMask ≠ DataType.string.code →
    ∀ cf, cf ≠ .metadata → ∀ sub, store.get cf (ctx.subKey key (versionOf value) sub) = none

theorem Store.behind_eq_nil {v : UInt64}
    (none : ∀ sub, store.get cf (ctx.subKey key v sub) = none) :
    store.behind cf (ctx.subKey key v []) = [] := by
  refine List.eq_nil_iff_forall_not_mem.mpr ?_
  rintro ⟨phys, value⟩ inside
  obtain ⟨stored, extends'⟩ := Store.mem_behind.mp inside
  obtain ⟨sub, rfl⟩ := ctx.subKey_prefix_iff.mp extends'
  rw [none sub] at stored
  cases stored

/-- Deleting a key takes its own metadata entry, and elements under a version of
it. -/
theorem Store.get_deleted_of_ne (named : cf = .metadata → phys ≠ ctx.metaKey key)
    (element : cf ≠ .metadata → ¬ ctx.metaKey key <+: phys) :
    (store.deleted ctx key).get cf phys = store.get cf phys := by
  rw [Store.deleted]
  cases ctx.lookupMeta store key with
  | none => rfl
  | some value =>
    dsimp only
    rw [Store.get_apply_delete, if_neg fun both => named both.1 both.2]
    by_cases record : ∃ meta', IsRecord value meta'
    · obtain ⟨meta', record⟩ := record
      rw [Store.get_purged record, if_neg]
      rintro ⟨clears, behind⟩
      refine element ?_ ((List.prefix_append _ _).trans behind)
      rintro rfl
      simp [Clears] at clears
    · rw [Store.purged_of_no_record record]

theorem Store.get_metaKey_deleted :
    (store.deleted ctx key).get .metadata (ctx.metaKey key) = none := by
  rw [Store.deleted]
  cases found : ctx.lookupMeta store key with
  | none =>
    rw [CommandContext.lookupMeta, Option.or_eq_none_iff] at found
    exact found.1
  | some value =>
    dsimp only
    rw [Store.get_apply_delete, if_pos ⟨rfl, rfl⟩]

/-- Whatever remains is as it was. -/
theorem Store.get_deleted : (store.deleted ctx key).get cf phys = none ∨
    (store.deleted ctx key).get cf phys = store.get cf phys := by
  by_cases own : cf = .metadata ∧ phys = ctx.metaKey key
  · obtain ⟨rfl, rfl⟩ := own
    exact .inl Store.get_metaKey_deleted
  · rw [Store.deleted]
    cases ctx.lookupMeta store key with
    | none => exact .inr rfl
    | some value =>
      dsimp only
      rw [Store.get_apply_delete, if_neg own]
      by_cases record : ∃ meta', IsRecord value meta'
      · obtain ⟨meta', record⟩ := record
        rw [Store.get_purged record]
        split_ifs <;> simp
      · rw [Store.purged_of_no_record record]
        exact .inr rfl

/-- The elements of the record go, where the family is cleared. -/
theorem Store.get_element_deleted (found : ctx.lookupMeta store key = some value)
    (record : IsRecord value meta') (element : cf ≠ .metadata) (sub : Bytes) :
    (store.deleted ctx key).get cf (ctx.subKey key meta'.version sub) =
      if Clears meta' cf then none else store.get cf (ctx.subKey key meta'.version sub) := by
  have behind : ctx.subKey key meta'.version [] <+: ctx.subKey key meta'.version sub :=
    ctx.subKey_prefix_iff.mpr ⟨sub, rfl⟩
  rw [Store.deleted, found]
  dsimp only
  rw [Store.get_apply_delete, if_neg fun both => element both.1, Store.get_purged record]
  simp [behind]

/-- Another key is found as before. -/
theorem lookupMeta_deleted (separate : ctx.Separate other) (short : key.length < 2 ^ 32)
    (distinct : key ≠ other) :
    ctx.lookupMeta (store.deleted ctx key) other = ctx.lookupMeta store other := by
  refine ctx.lookupMeta_congr fun place here => ?_
  refine Store.get_deleted_of_ne (fun _ => ?_) fun element => absurd rfl element
  rintro rfl
  exact separate key short distinct here

/-- There is no legacy entry of the key. -/
def CommandContext.Unshadowed (ctx : CommandContext) (store : Store) (key : Bytes) : Prop :=
  ctx.tenant ≠ [] → store.get .metadata (metadataKey key []) = none

theorem CommandContext.Unshadowed.deleted (unshadowed : ctx.Unshadowed store key) (other : Bytes) :
    ctx.Unshadowed (store.deleted ctx other) key := by
  intro named
  rcases @Store.get_deleted ctx other (metadataKey key []) .metadata store with gone | same
  · exact gone
  · exact same.trans (unshadowed named)

/-- The key is gone if and only if there was no legacy entry. -/
theorem lookupMeta_deleted_self : ctx.lookupMeta (store.deleted ctx key) key = none ↔
    ctx.Unshadowed store key := by
  rw [CommandContext.lookupMeta, Store.get_metaKey_deleted, Option.none_or]
  split_ifs with unnamed
  · exact iff_of_true rfl fun named => absurd unnamed named
  · rw [Store.get_deleted_of_ne (fun _ => ctx.metaKey_ne_legacy unnamed key)
      fun element => absurd rfl element]
    exact ⟨fun free _ => free, fun free => free unnamed⟩

end Entries

section Lists

theorem Store.get_foldl_deleted :
    (keys.foldl (Store.deleted ctx) store).get cf phys = none ∨
      (keys.foldl (Store.deleted ctx) store).get cf phys = store.get cf phys := by
  induction keys generalizing store with
  | nil => exact .inr rfl
  | cons key rest ih =>
    rcases @ih (store.deleted ctx key) with gone | kept
    · exact .inl gone
    · rw [List.foldl_cons, kept]
      exact Store.get_deleted

theorem Store.get_foldl_deleted_of_ne
    (named : ∀ key ∈ keys, cf = .metadata → phys ≠ ctx.metaKey key)
    (element : ∀ key ∈ keys, cf ≠ .metadata → ¬ ctx.metaKey key <+: phys) :
    (keys.foldl (Store.deleted ctx) store).get cf phys = store.get cf phys := by
  induction keys generalizing store with
  | nil => rfl
  | cons key rest ih =>
    rw [List.forall_mem_cons] at named element
    rw [List.foldl_cons, ih named.2 element.2, Store.get_deleted_of_ne named.1 element.1]

theorem Store.get_metaKey_foldl (member : key ∈ keys) :
    (keys.foldl (Store.deleted ctx) store).get .metadata (ctx.metaKey key) = none := by
  induction keys generalizing store with
  | nil => cases member
  | cons first rest ih =>
    rw [List.foldl_cons]
    rcases List.mem_cons.mp member with rfl | later
    · rcases @Store.get_foldl_deleted ctx (ctx.metaKey key) rest .metadata
        (store.deleted ctx key) with
        gone | kept
      · exact gone
      · exact kept.trans Store.get_metaKey_deleted
    · exact ih later

variable (short : ∀ key ∈ keys, key.length < 2 ^ 32) (separate : ∀ key ∈ keys, ctx.Separate key)

include short separate

/-- A key of the list is gone if and only if it had no legacy entry. -/
theorem lookupMeta_foldl_deleted (member : key ∈ keys) :
    ctx.lookupMeta (keys.foldl (Store.deleted ctx) store) key = none ↔
      ctx.Unshadowed store key := by
  rw [CommandContext.lookupMeta, Store.get_metaKey_foldl member, Option.none_or]
  split_ifs with unnamed
  · exact iff_of_true rfl fun named => absurd unnamed named
  · have legacy : metadataKey key [] ∈ ctx.places key := by
      simp [CommandContext.places, unnamed]
    rw [Store.get_foldl_deleted_of_ne (fun other inside _ => ?_) fun _ _ element =>
      absurd rfl element]
    · exact ⟨fun free _ => free, fun free => free unnamed⟩
    · by_cases here : other = key
      · exact here ▸ ctx.metaKey_ne_legacy unnamed key
      · rintro same
        exact separate key member other (short other inside) here (same ▸ legacy)

omit short separate in
/-- The elements of a key that is not there stay. -/
theorem Store.get_element_of_absent (short : ∀ key ∈ keys, key.length < 2 ^ 32)
    (short' : key.length < 2 ^ 32) (separate : ctx.Separate key)
    (absent : ctx.lookupMeta store key = none) (v : UInt64) (sub : Bytes)
    (element : cf ≠ .metadata) :
    (keys.foldl (Store.deleted ctx) store).get cf (ctx.subKey key v sub) =
      store.get cf (ctx.subKey key v sub) := by
  induction keys generalizing store with
  | nil => rfl
  | cons first rest ih =>
    rw [List.forall_mem_cons] at short
    rw [List.foldl_cons]
    by_cases here : first = key
    · have same : store.deleted ctx first = store := by rw [Store.deleted, here, absent]
      rw [same]
      exact ih short.2 absent
    · rw [ih short.2 ((lookupMeta_deleted separate short.1 here).trans absent)]
      refine Store.get_deleted_of_ne (fun metadata => absurd metadata element) fun _ => ?_
      exact metaKey_not_isPrefix short' short.1 (Ne.symm here) _

/-- The elements of a key of the list go, where their family is cleared. -/
theorem Store.get_element_foldl {value : Bytes} (member : key ∈ keys)
    (unshadowed : ctx.Unshadowed store key) (found : ctx.lookupMeta store key = some value)
    (record : IsRecord value meta') (element : cf ≠ .metadata) (sub : Bytes) :
    (keys.foldl (Store.deleted ctx) store).get cf (ctx.subKey key meta'.version sub) =
      if Clears meta' cf then none else store.get cf (ctx.subKey key meta'.version sub) := by
  induction keys generalizing store with
  | nil => cases member
  | cons first rest ih =>
    have short' := short key member
    have separate' := separate key member
    rw [List.forall_mem_cons] at short separate
    rw [List.foldl_cons]
    by_cases here : first = key
    · -- Deleting the key again finds nothing.
      subst here
      rw [Store.get_element_of_absent short.2 short' separate'
        (lookupMeta_deleted_self.mpr unshadowed) _ _ element,
          Store.get_element_deleted found record element]
    · have lookup : ctx.lookupMeta (store.deleted ctx first) key = some value :=
        (lookupMeta_deleted separate' short.1 here).trans found
      have kept : (store.deleted ctx first).get cf (ctx.subKey key meta'.version sub) =
          store.get cf (ctx.subKey key meta'.version sub) := by
        refine Store.get_deleted_of_ne (fun metadata => absurd metadata element) fun _ => ?_
        exact metaKey_not_isPrefix short' short.1 (Ne.symm here) _
      have unshadowed' := unshadowed.deleted first
      rw [ih short.2 separate.2 ((List.mem_cons.mp member).resolve_left (Ne.symm here)) unshadowed'
        lookup, kept]

/-- `DEL` counts every key once. -/
theorem deletedCount_eq (unshadowed : ∀ key ∈ keys, ctx.Unshadowed store key) :
    deletedCount ctx keys store =
      (keys.toFinset.filter fun key => (ctx.lookupMeta store key).isSome).card := by
  induction keys generalizing store with
  | nil => rfl
  | cons first rest ih =>
    rw [List.forall_mem_cons] at short separate unshadowed
    have later : deletedCount ctx rest (store.deleted ctx first) = _ :=
      ih short.2 separate.2 fun key member => (unshadowed.2 key member).deleted first
    -- Of the rest, the first key is not found again.
    have found : (rest.toFinset.filter fun key =>
        (ctx.lookupMeta (store.deleted ctx first) key).isSome) =
        (rest.toFinset.erase first).filter fun key => (ctx.lookupMeta store key).isSome := by
      ext key
      simp only [Finset.mem_filter, Finset.mem_erase, List.mem_toFinset]
      by_cases here : key = first
      · subst here
        simp [lookupMeta_deleted_self.mpr unshadowed.1]
      · refine ⟨fun ⟨member, there⟩ => ⟨⟨here, member⟩, ?_⟩,
          fun ⟨⟨_, member⟩, there⟩ => ⟨member, ?_⟩⟩
        · rwa [lookupMeta_deleted (separate.2 key member) short.1 (Ne.symm here)] at there
        · rwa [lookupMeta_deleted (separate.2 key member) short.1 (Ne.symm here)]
    have split : (first :: rest).toFinset = insert first (rest.toFinset.erase first) := by
      rw [List.toFinset_cons, ← Finset.insert_erase (Finset.mem_insert_self first rest.toFinset),
        Finset.erase_insert_eq_erase]
    rw [deletedCount, later, found, split, Finset.filter_insert]
    split_ifs with there
    · rw [Finset.card_insert_of_notMem (by simp), Nat.add_comm]
    · exact Nat.zero_add _

end Lists

section Deletions

variable {value : Bytes}

/-- Reads of keys that are not there reply as on an empty store. -/
theorem reply_of_absent {command : Command} {args : List Bytes} (reads : command.reads = true)
    (named : command ≠ .dbsize)
    (absent : ∀ key ∈ command.readKeys args, ctx.lookupMeta store key = none) :
    Request.reply ctx store ⟨command, args, env⟩ =
      Request.reply ctx .empty ⟨command, args, env⟩ := by
  suffices same : Same env env .empty store (command.run ctx args) from same.reply
  have lookup : ∀ key ∈ command.readKeys args,
      ctx.lookupMeta store key = ctx.lookupMeta .empty key := fun key member => by
    rw [absent key member, ctx.lookupMeta_empty]
  refine Command.same reads named rfl (fun key member => ?_) ?_
  · refine SeenAlike.meets ⟨⟨rfl, lookup key member, fun _ _ => rfl⟩, fun v stored => ?_⟩ command
    rw [ctx.lookupMeta_empty] at stored
    cases stored
  · rintro rfl key member meta' start count loaded -
    rw [exec_readHashMeta, hashMeta_of_absent ctx.lookupMeta_empty] at loaded
    cases loaded

/-- `DEL` of some keys deletes them: reads find no key, no element is left under the
version of a record, the reply is the number of keys that were there, and all other
keys are as before. It does so if and only if no key of the list has a legacy entry,
and no key that is no sorted set has entries in the score index under its version. -/
theorem del_deletes_iff (nonempty : keys ≠ []) (short : ∀ key ∈ keys, key.length < 2 ^ 32)
    (separate : ∀ key ∈ keys, ctx.Separate key) :
    let request : Request := ⟨.del, keys, env⟩
    let after := request.after ctx store
    ((∀ (command : Command) (args : List Bytes) (env' : Env), command.reads = true →
        command ≠ .dbsize → (∀ key ∈ command.readKeys args, key ∈ keys) →
        Request.reply ctx after ⟨command, args, env'⟩ =
          Request.reply ctx .empty ⟨command, args, env'⟩) ∧
      (∀ key ∈ keys, ∀ value meta', ctx.lookupMeta store key = some value → IsRecord value meta' →
        ∀ cf, cf ≠ .metadata → ∀ sub, after.get cf (ctx.subKey key meta'.version sub) = none) ∧
      request.reply ctx store = .ok (.integer (Int64.ofNat
        (keys.toFinset.filter fun key => (ctx.lookupMeta store key).isSome).card)) ∧
      ∀ other : Bytes, other.length < 2 ^ 32 → other ∉ keys → ∀ cf phys,
        ctx.metaKey other <+: phys →
        after.get cf phys = store.get cf phys) ↔
    ∀ key ∈ keys, ctx.Unshadowed store key ∧
      ∀ value meta', ctx.lookupMeta store key = some value → IsRecord value meta' →
        meta'.dataType ≠ some .zset →
        ∀ sub, store.get .zsetScore (ctx.subKey key meta'.version sub) = none := by
  intro request after
  have ran : exec env (Cmd.del ctx keys) store = _ := exec_del nonempty
  have reached : after = keys.foldl (Store.deleted ctx) store := Request.after_eq_of_exec ctx ran
  have replied : request.reply ctx store = _ := Request.reply_eq_ok ctx ran
  rw [replied, reached]
  constructor
  · rintro ⟨gone, cleared, -⟩ key member
    have unshadowed : ctx.Unshadowed store key := by
      rw [← lookupMeta_foldl_deleted short separate member, ← Option.not_isSome_iff_eq_none]
      intro there
      -- A record of the default namespace would still be seen by `EXISTS`.
      have zero := gone .exists' [key] env rfl (by decide) fun other here =>
        List.mem_singleton.mp here ▸ member
      rw [reply_exists, reply_exists, ctx.lookupMeta_empty, if_pos there] at zero
      exact absurd zero (by decide)
    refine ⟨unshadowed, fun value meta' found record other sub => ?_⟩
    have none := cleared key member value meta' found record .zsetScore (by decide) sub
    rw [Store.get_element_foldl short separate member unshadowed found record (by decide),
      if_neg (by simp [Clears, other])] at none
    exact none
  · intro free
    refine ⟨fun command args env' reads named within => ?_, ?_, ?_, ?_⟩
    · refine reply_of_absent reads named fun key here => ?_
      exact (lookupMeta_foldl_deleted short separate (within key here)).mpr
        (free key (within key here)).1
    · intro key member value meta' found record cf element sub
      rw [Store.get_element_foldl short separate member (free key member).1 found record element]
      split_ifs with clears
      · rfl
      · cases cf with
        | metadata => exact absurd rfl element
        | subkey => exact absurd (.inl rfl) clears
        | zsetScore =>
          refine (free key member).2 value meta' found record (fun sorted => ?_) sub
          exact clears (.inr ⟨rfl, sorted⟩)
    · rw [deletedCount_eq short separate fun key member => (free key member).1]
    · intro other short' outside cf phys inside
      have apart : ∀ key ∈ keys, ¬ ctx.metaKey key <+: phys := by
        rintro key member ⟨rest, rfl⟩
        refine metaKey_not_isPrefix (short key member) short' ?_ rest inside
        rintro rfl
        exact outside member
      refine Store.get_foldl_deleted_of_ne (fun key member _ same => ?_) fun key member _ =>
        apart key member
      exact apart key member (same ▸ List.prefix_rfl)

/-- A hash of two fields and a missing key, in the default namespace. -/
theorem del_deletes_hash :
    let set : Request := ⟨.hset, ["h", "f", "1", "g", "2"].map ascii, .plain 1⟩
    let request : Request := ⟨.del, ["h", "k", "h"].map ascii, .plain 2⟩
    request.reply .plain (set.after .plain .empty) = .ok (.integer 1) := by
  intro set request
  have short : ∀ key ∈ ["h", "k", "h"].map ascii, key.length < 2 ^ 32 := by decide
  have separate : ∀ key ∈ ["h", "k", "h"].map ascii, CommandContext.plain.Separate key :=
    fun key member => CommandContext.separate_of_short
      ((by decide : ∀ key ∈ ["h", "k", "h"].map ascii, key.length < 2 ^ 24) key member)
  have free := (@del_deletes_iff .plain _ (.plain 2) (set.after .plain .empty) (by decide) short
    separate).mpr ?_
  · refine free.2.2.1.trans ?_
    decide
  · intro key _
    refine ⟨fun named => absurd rfl named, fun value meta' _ _ _ sub => ?_⟩
    -- There are no sorted sets at all.
    have none : ((set.after .plain .empty).family .zsetScore).entries = [] := by decide
    refine Option.eq_none_iff_forall_ne_some.mpr fun score stored => ?_
    have inside := (OrderedMap.mem_entries _).mpr stored
    rw [none] at inside
    cases inside

/-- A string of the default namespace, seen from namespace "t": `DEL` claims to have
deleted it, twice if asked twice, and it is still there. -/
theorem del_keeps_legacy_string :
    let ctx : CommandContext := .named (ascii "t") (by decide)
    let set : Request := ⟨.set, ["k", "v"].map ascii, .plain 1⟩
    let request : Request := ⟨.del, ["k", "k"].map ascii, .plain 2⟩
    let before := set.after .plain .empty
    let after := request.after ctx before
    request.reply ctx before = .ok (.integer 2) ∧
      Request.reply ctx after ⟨.exists', [ascii "k"], .plain 3⟩ = .ok (.integer 1) ∧
      Request.reply ctx after ⟨.get, [ascii "k"], .plain 3⟩ =
        .ok (.bulkString (some (ascii "v"))) := by
  decide

end Deletions

end Kvdb
