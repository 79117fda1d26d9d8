import Kvdb.Deletion

/-!
# Cutting a deletion short

`DEL` deletes the elements of a record in batches and its metadata entry last. A
process that is killed in between leaves the metadata of a record that has lost
elements. Only a key without elements is deleted in one write.
-/

namespace Kvdb

open Data Semantics Cmd

variable {ctx : CommandContext} {key value : Bytes} {cf : ColumnFamily} {env : Env}
  {store : Store} {meta' : Metadata} {holds : Store → Prop} {α : Type}

section Writes

theorem ReadOnly.throughout {program : Prog α} (reads : ReadOnly program) (held : holds store) :
    program.Throughout env.handle holds store := by
  refine Program.Respects.throughout reads (fun op idle state => ?_) held
  cases op with
  | write batch => exact absurd rfl (idle batch)
  | get | iterate | size | now | random | hashOrder | lock | unlock => rfl

/-- The states of two programs in sequence, where the first is known to return. -/
theorem throughout_bind_of_exec {β : Type} {program : Prog α} {rest : α → Prog β} {found : α}
    {after : Store} (ran : exec env program store = (.ok found, after)) :
    (program >>= rest).Throughout env.handle holds store ↔
      program.Throughout env.handle holds store ∧ (rest found).Throughout env.handle holds after :=
  Program.throughout_bind_ok ran

/-- Deleting nothing writes nothing. -/
theorem throughout_deletePrefix {pre : Bytes} (none : store.behind cf pre = [])
    (held : holds store) :
    (deletePrefix cf pre delBatchSize).Throughout env.handle holds store := by
  have empty : exec env (prefixScanPage cf pre [] delBatchSize) store =
      (.ok ([], Option.none), store) :=
    exec_prefixScanPage_of_nil none (by decide) (by decide)
  refine Program.throughout_request.mpr ⟨held, (throughout_bind_of_exec empty).mpr ⟨?_, ?_⟩⟩
  · exact (readOnly_prefixScanPage cf pre [] _).throughout held
  · exact Program.throughout_done.mpr held

/-- No element is stored that `DEL` would delete with the record. -/
def Hollow (ctx : CommandContext) (store : Store) (key : Bytes) : Prop :=
  ∀ value meta', ctx.lookupMeta store key = some value → IsRecord value meta' →
    ∀ cf, Clears meta' cf → ∀ sub, store.get cf (ctx.subKey key meta'.version sub) = none

theorem Hollow.throughout_purgeValue (hollow : Hollow ctx store key)
    (found : ctx.lookupMeta store key = some value) (held : holds store) :
    (purgeValue ctx key value).Throughout env.handle holds store := by
  unfold purgeValue
  split_ifs with composite
  · cases decoded : decodeMetadata value with
    | none => exact Program.throughout_done.mpr held
    | some meta' =>
      have empty := hollow value meta' found ⟨composite, decoded⟩
      have none := Store.behind_eq_nil (empty .subkey (.inl rfl))
      have kept : exec env (deletePrefix .subkey (ctx.subKey key meta'.version []) delBatchSize)
          store = (.ok (), store) := by
        rw [exec_deletePrefix (by decide) (by decide), Store.without_eq_self none]
      refine (throughout_bind_of_exec kept).mpr ⟨throughout_deletePrefix none held, ?_⟩
      split_ifs with sorted
      · exact throughout_deletePrefix
          (Store.behind_eq_nil (empty .zsetScore (.inr ⟨rfl, of_decide_eq_true sorted⟩))) held
      · exact Program.throughout_done.mpr held
  · exact Program.throughout_done.mpr held

/-- The purge ends in the store without the elements. -/
theorem holds_purged (purging : (purgeValue ctx key value).Throughout env.handle holds store) :
    holds (store.purged ctx key value) := by
  have ended : (exec env (purgeValue ctx key value) store).2 = store.purged ctx key value := by
    rw [exec_purgeValue_eq]
  exact ended ▸ purging.run

/-- The states that a deletion passes through are those of the purge, and the one
without the metadata entry. -/
theorem throughout_del : (Cmd.del ctx [key]).Throughout env.handle holds store ↔
    holds store ∧ ∀ value, ctx.lookupMeta store key = some value →
      (purgeValue ctx key value).Throughout env.handle holds store ∧
        holds (store.deleted ctx key) := by
  have looked : exec env (ctx.getMeta key) store = (.ok (ctx.lookupMeta store key), store) :=
    CommandContext.exec_getMeta key
  have counts : exec env (delLoop ctx [key] 0) store = _ := exec_delLoop [key] 0
  have whole : (Cmd.del ctx [key]).Throughout env.handle holds store ↔
      (delLoop ctx [key] 0).Throughout env.handle holds store ∧ holds (store.deleted ctx key) := by
    rw [Cmd.del]
    · rw [throughout_bind_of_exec counts]
      exact and_congr_right fun _ => Program.throughout_done
    · exact List.cons_ne_nil key []
  rw [whole, delLoop, throughout_bind_of_exec looked]
  cases found : ctx.lookupMeta store key with
  | none =>
    have same : store.deleted ctx key = store := by rw [Store.deleted, found]
    rw [same]
    refine ⟨fun held => ⟨held.2, fun value there => ?_⟩, fun held => ⟨⟨?_, ?_⟩, held.1⟩⟩
    · cases there
    · exact (ctx.readOnly_getMeta key).throughout held.1
    · exact Program.throughout_done.mpr held.1
  | some value =>
    have gone : store.deleted ctx key =
        (store.purged ctx key value).apply (.delete .metadata (ctx.metaKey key)) := by
      rw [Store.deleted, found]
    rw [throughout_bind_of_exec (exec_purgeValue_eq key value)]
    constructor
    · rintro ⟨⟨started, purging, -⟩, last⟩
      refine ⟨started.start, ?_⟩
      rintro _ ⟨⟩
      exact ⟨purging, last⟩
    · rintro ⟨held, onward⟩
      obtain ⟨purging, last⟩ := onward value rfl
      refine ⟨⟨(ctx.readOnly_getMeta key).throughout held, purging, ?_⟩, last⟩
      refine Program.throughout_request.mpr ⟨holds_purged purging, Program.throughout_done.mpr ?_⟩
      rw [gone] at last
      exact last

end Writes

section Interruptions

/-- The key is as it was: it has the same metadata, and all elements of its record. -/
structure Intact (ctx : CommandContext) (key : Bytes) (store reached : Store) : Prop where
  record : ctx.lookupMeta reached key = ctx.lookupMeta store key
  elements : ∀ value meta', ctx.lookupMeta store key = some value → IsRecord value meta' →
    SameElements ctx key meta'.version store reached

theorem Intact.refl : Intact ctx key store store := ⟨rfl, fun _ _ _ _ _ _ _ => rfl⟩

theorem lookupMeta_purged (record : IsRecord value meta') :
    ctx.lookupMeta (store.purged ctx key value) key = ctx.lookupMeta store key := by
  refine ctx.lookupMeta_congr fun place _ => ?_
  rw [Store.get_purged record, if_neg]
  simp [Clears]

/-- What is found after a deletion is the legacy entry. -/
theorem lookupMeta_deleted_named (named : ctx.tenant ≠ []) :
    ctx.lookupMeta (store.deleted ctx key) key = store.get .metadata (metadataKey key []) := by
  rw [CommandContext.lookupMeta, Store.get_metaKey_deleted, Option.none_or, if_neg named,
    Store.get_deleted_of_ne (fun _ => ctx.metaKey_ne_legacy named key) fun element =>
      absurd rfl element]

/-- Wherever `DEL` of a key is cut short, the key is intact or absent: it is so if
and only if no element is stored that `DEL` would delete, and a legacy entry of the
key does not differ from what the key is. -/
theorem del_crash_safe_iff :
    (Cmd.del ctx [key]).Throughout env.handle
        (fun reached => Intact ctx key store reached ∨ ctx.lookupMeta reached key = none) store ↔
      Hollow ctx store key ∧ (ctx.Unshadowed store key ∨
        store.get .metadata (metadataKey key []) = ctx.lookupMeta store key) := by
  rw [throughout_del]
  constructor
  · rintro ⟨-, onward⟩
    constructor
    · intro value meta' found record cf clears sub
      obtain ⟨purging, -⟩ := onward value found
      -- The metadata entry goes last, so after the purge the key has to be intact.
      rcases holds_purged purging with intact | gone
      · have kept := intact.elements value meta' found record cf
          (by rintro rfl; simp [Clears] at clears) sub
        rw [Store.get_purged record, if_pos ⟨clears, ctx.subKey_prefix_iff.mpr ⟨sub, rfl⟩⟩] at kept
        exact kept.symm
      · rw [lookupMeta_purged record, found] at gone
        cases gone
    · by_cases named : ctx.tenant = []
      · exact .inl fun otherwise => absurd named otherwise
      · cases found : ctx.lookupMeta store key with
        | none =>
          refine .inl fun _ => ?_
          rw [CommandContext.lookupMeta, if_neg named, Option.or_eq_none_iff] at found
          exact found.2
        | some value =>
          rcases (onward value found).2 with intact | gone
          · right
            rw [← lookupMeta_deleted_named named, intact.record, found]
          · exact .inl (lookupMeta_deleted_self.mp gone)
  · rintro ⟨hollow, shadow⟩
    refine ⟨.inl .refl, fun value found => ⟨hollow.throughout_purgeValue found (.inl .refl), ?_⟩⟩
    rcases shadow with unshadowed | same
    · exact .inr (lookupMeta_deleted_self.mpr unshadowed)
    · by_cases named : ctx.tenant = []
      · exact .inr (lookupMeta_deleted_self.mpr fun otherwise => absurd named otherwise)
      · refine .inl ⟨(lookupMeta_deleted_named named).trans same, ?_⟩
        intro value meta' found record cf element sub
        rw [Store.get_element_deleted found record element]
        split_ifs with clears
        · exact (hollow value meta' found record cf clears sub).symm
        · rfl

/-- A hash with a field: after the first write of `DEL` the field is gone, and
`HLEN` still counts it. -/
theorem del_cut_short_loses_field :
    let set : Request := ⟨.hset, ["h", "f", "1"].map ascii, .plain 1⟩
    let store := set.after .plain .empty
    Request.reply .plain store ⟨.hgetall, [ascii "h"], .plain 3⟩ =
        .ok (.array [.bulkString (some (ascii "f")), .bulkString (some (ascii "1"))]) ∧
      ∃ reached ∈ (Cmd.del .plain [ascii "h"]).passed (Env.plain 2).handle store,
        Request.reply .plain reached ⟨.hgetall, [ascii "h"], .plain 3⟩ = .ok (.array []) ∧
          Request.reply .plain reached ⟨.hlen, [ascii "h"], .plain 3⟩ = .ok (.integer 1) := by
  decide

end Interruptions

end Kvdb
