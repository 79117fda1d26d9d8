import Kvdb.SortedSet.Commands

/-!
# The recorded size of a sorted set

The metadata of a sorted set counts its members by hand. Additions count right,
because the updates of one command name each member once. Removals count every
occurrence of a stored member among the arguments, so the size is right as long
as no command removes a member twice.
-/

namespace Kvdb

open Data Semantics

variable {ctx : CommandContext} {key : Bytes} {store after : Store} {env : Env} {meta' : Metadata}

section Invariant

/-- The record counts the members of its version. -/
structure ZsetSized (ctx : CommandContext) (key : Bytes) (bound : ℕ) (meta' : Metadata)
    (store : Store) : Prop where
  proper : meta'.Proper .zset
  indexed : Indexed ctx key meta'.version store
  size : meta'.size.toNat = elementCount ctx key meta'.version store
  few : elementCount ctx key meta'.version store ≤ bound

/-- The key is absent, or its record counts its members. -/
def ZsetCounted (ctx : CommandContext) (key : Bytes) (bound : ℕ) (store : Store) : Prop :=
  ctx.lookupMeta store key = none ∨
    ∃ meta', Recorded ctx key meta' store ∧ ZsetSized ctx key bound meta' store

variable {bound : ℕ}

/-- A record of a sorted set is loaded until it expires. -/
theorem zsetMeta_recorded (recorded : Recorded ctx key meta' store)
    (typed : meta'.dataType = some .zset) (normal : meta'.Normal) :
    ctx.zsetMeta env store key = .ok (if meta'.isExpired env.nowMs then none else some meta') := by
  have code : firstByte (encodeMetadata meta') &&& 0x0F = DataType.zset.code :=
    dataTypeFromFlags_eq_some.mp typed
  have nonempty : encodeMetadata meta' ≠ [] := List.cons_ne_nil _ _
  rw [CommandContext.zsetMeta, recorded.lookup]
  simp only [judgeZset, if_neg nonempty, code, DataType.fromCode_code, reduceCtorEq, if_false,
    decodeMetadata_encodeMetadata typed normal, typed, ne_eq, not_true_eq_false]
  split_ifs <;> rfl

theorem zsetMeta_of_recorded (recorded : Recorded ctx key meta' store)
    (proper : meta'.Proper .zset) :
    ctx.zsetMeta env store key = .ok (some meta') := by
  rw [zsetMeta_recorded recorded proper.typed proper.normal, proper.not_expired]
  rfl

/-- A record for a version that nothing is stored under counts no members. -/
theorem ZsetSized.new {v : UInt64} (unused : Unused ctx key v store) :
    ZsetSized ctx key bound (Metadata.new .zset v) store where
  proper := Metadata.new_proper .zset v
  indexed := .of_none (unused .subkey (by decide)) (unused .zsetScore (by decide))
  size := unused.elementCount.symm
  few := by simp [Metadata.new, unused.elementCount]

/-- What a writing command starts from. -/
theorem ZsetCounted.base (counted : ZsetCounted ctx key bound store)
    (unused : ctx.lookupMeta store key = none → Unused ctx key env.version store) {meta' : Metadata}
    (base : ctx.zsetBase env store key = .ok meta') : ZsetSized ctx key bound meta' store := by
  rw [CommandContext.zsetBase] at base
  rcases counted with absent | ⟨record, recorded, sized⟩
  · rw [CommandContext.zsetMeta, absent] at base
    cases base
    exact .new (unused absent)
  · rw [zsetMeta_of_recorded recorded sized.proper] at base
    cases base
    exact sized

/-- The number of members changes by what the write says. -/
theorem ZsetWrote.count {change : ℤ} {size : UInt64}
    (wrote : ZsetWrote ctx key meta' change size store after) :
    (elementCount ctx key meta'.version after : ℤ) =
      elementCount ctx key meta'.version store + change := by
  obtain ⟨touched, middle, steps, rfl⟩ := wrote
  rw [← steps.count, elementCount_congr]
  exact fun phys => middle.get_apply_of_ne (by simp [BatchOp.cf])

/-- A new size that counts the members the write leaves. -/
theorem ZsetSized.wrote (sized : ZsetSized ctx key bound meta' store) {change : ℤ} {size : UInt64}
    (wrote : ZsetWrote ctx key meta' change size store after) {bound' : ℕ}
    (counted : size.toNat = elementCount ctx key meta'.version after)
    (few : elementCount ctx key meta'.version after ≤ bound') :
    Recorded ctx key { meta' with size } after ∧
      ZsetSized ctx key bound' { meta' with size } after := by
  obtain ⟨touched, middle, steps, rfl⟩ := wrote
  have indexed : Indexed ctx key meta'.version (middle.apply (.put .metadata (ctx.metaKey key)
      (encodeMetadata { meta' with size }))) := by
    refine (steps.indexed sized.indexed).of_same (fun m => ?_) fun sub => ?_ <;>
      exact middle.get_apply_of_ne (by simp [BatchOp.cf])
  exact ⟨recorded_put, sized.proper.resize size, indexed, counted, few⟩

theorem ZsetSized.grew (sized : ZsetSized ctx key bound meta' store) {more : ℕ}
    (grew : ZsetGrew ctx key meta' more store after) (bounded : bound + more < 2 ^ 63) :
    ZsetCounted ctx key (bound + more) after := by
  obtain ⟨n, le, wrote⟩ := grew
  have count := wrote.count
  have size := sized.size
  have few := sized.few
  refine .inr ⟨_, sized.wrote wrote ?_ ?_⟩
  · -- The counter does not wrap.
    rw [UInt64.toNat_add, UInt64.toNat_ofNat', Nat.mod_eq_of_lt (by omega : n < 2 ^ 64),
      Nat.mod_eq_of_lt (by omega)]
    omega
  · omega

theorem ZsetCounted.mono (counted : ZsetCounted ctx key bound store) {bound' : ℕ}
    (le : bound ≤ bound') : ZsetCounted ctx key bound' store := by
  refine counted.imp_right ?_
  rintro ⟨meta', recorded, proper, indexed, size, few⟩
  exact ⟨meta', recorded, proper, indexed, size, few.trans le⟩

end Invariant

section Requests

/-- A request on the sorted set of a key. A version that is drawn for an absent
key is a new one, and no removal names a stored member twice. -/
structure ZsetRequest (ctx : CommandContext) (key : Bytes) (store : Store) (request : Request) :
    Prop where
  listed : request.command ∈ [Command.zadd, .zincrby, .zrem]
  onKey : request.args.head? = some key
  unused : ctx.lookupMeta store key = none → Unused ctx key request.env.version store
  once : request.command = .zrem → ∀ meta', ctx.zsetMeta request.env store key = .ok (some meta') →
    (storedNames ctx key meta'.version store request.args.tail).Nodup

variable {total : ℕ}

theorem zadd_counted {args : List Bytes} (counted : ZsetCounted ctx key total store)
    (unused : ctx.lookupMeta store key = none → Unused ctx key env.version store)
    (bounded : total + (args.length + 1) < 2 ^ 63) :
    ZsetCounted ctx key (total + (args.length + 1))
      (exec env (Cmd.zadd ctx (key :: args)) store).2 := by
  have same : ZsetCounted ctx key (total + (args.length + 1)) store :=
    counted.mono (Nat.le_add_right _ _)
  refine Program.Ends.run_state (Program.Ends.mono
    (zadd_ends key args fun _ base => (counted.base unused base).indexed) ?_ ?_)
  · rintro _ after (rfl | ⟨meta', base, grew⟩)
    · exact same
    · exact ((counted.base unused base).grew grew (by omega)).mono (by omega)
  · rintro _ _ rfl
    exact same

theorem zincrby_counted {args : List Bytes} (counted : ZsetCounted ctx key total store)
    (unused : ctx.lookupMeta store key = none → Unused ctx key env.version store)
    (bounded : total + (args.length + 1) < 2 ^ 63) :
    ZsetCounted ctx key (total + (args.length + 1))
      (exec env (Cmd.zincrby ctx (key :: args)) store).2 := by
  refine Program.Ends.run_state (Program.Ends.mono
    (zincrby_ends key args fun _ base => (counted.base unused base).indexed) ?_ ?_)
  · rintro _ after ⟨meta', base, grew⟩
    exact ((counted.base unused base).grew grew (by omega)).mono (by omega)
  · rintro _ _ rfl
    exact counted.mono (Nat.le_add_right _ _)

/-- The number of members of the live sorted set of a key. -/
def zsetCardinality (ctx : CommandContext) (env : Env) (store : Store) (key : Bytes) : ℕ :=
  match ctx.zsetMeta env store key with
  | .ok (some meta') => elementCount ctx key meta'.version store
  | _ => 0

theorem zsetCardinality_of_recorded (recorded : Recorded ctx key meta' store)
    (sized : ZsetSized ctx key total meta' store) :
    zsetCardinality ctx env store key = elementCount ctx key meta'.version store := by
  rw [zsetCardinality, zsetMeta_of_recorded recorded sized.proper]

/-- A removal that names no stored member twice counts right, and replies by how
much the number of members went down. -/
theorem zrem_counted {member : Bytes} {rest : List Bytes}
    (counted : ZsetCounted ctx key total store) (bounded : (member :: rest).length < 2 ^ 63)
    (once : ∀ meta', ctx.zsetMeta env store key = .ok (some meta') →
      (storedNames ctx key meta'.version store (member :: rest)).Nodup) :
    Program.Ends env.handle (Cmd.zrem ctx (key :: member :: rest)) store
      (fun reply after => ZsetCounted ctx key total after ∧
        ∃ n, reply = .integer (Int64.ofNat n) ∧
          zsetCardinality ctx env store key = zsetCardinality ctx env after key + n)
      (fun _ _ => False) := by
  have indexed : ∀ meta', ctx.zsetMeta env store key = .ok (some meta') →
      Indexed ctx key meta'.version store := by
    intro meta' loaded
    rcases counted with absent | ⟨record, recorded, sized⟩
    · simp [CommandContext.zsetMeta, absent] at loaded
    · rw [zsetMeta_of_recorded recorded sized.proper] at loaded
      cases loaded
      exact sized.indexed
  refine Program.Ends.mono (zrem_ends key member rest indexed) ?_ ?_
  · rintro reply after (⟨missing, rfl, rfl⟩ | ⟨meta', loaded, rfl, outcome⟩)
    · exact ⟨counted, 0, rfl, rfl⟩
    have nodup := once meta' loaded
    rcases counted with absent | ⟨record, recorded, sized⟩
    · simp [CommandContext.zsetMeta, absent] at loaded
    rw [zsetMeta_of_recorded recorded sized.proper] at loaded
    cases loaded
    have few : (storedNames ctx key meta'.version store (member :: rest)).length ≤
        (member :: rest).length :=
      List.length_filter_le _ _
    split_ifs at outcome with positive
    · obtain ⟨change, size, wrote, tally, shrunk⟩ := outcome
      have count := wrote.count
      have before := sized.size
      have bound := sized.few
      rw [tally nodup] at count
      obtain ⟨recorded', sized'⟩ : Recorded ctx key { meta' with size } after ∧
          ZsetSized ctx key total { meta' with size } after :=
        sized.wrote wrote (by omega) (by omega)
      refine ⟨.inr ⟨_, recorded', sized'⟩, _, rfl, ?_⟩
      rw [zsetCardinality_of_recorded recorded sized, zsetCardinality_of_recorded recorded' sized']
      show _ = elementCount ctx key meta'.version after + _
      omega
    · subst outcome
      refine ⟨.inr ⟨meta', recorded, sized⟩, _, rfl, ?_⟩
      rw [int64_ofNat_pos (by omega)] at positive
      omega
  · rintro fault _ ⟨failed, -⟩
    rcases counted with absent | ⟨record, recorded, sized⟩
    · simp [CommandContext.zsetMeta, absent] at failed
    · simp [zsetMeta_of_recorded recorded sized.proper] at failed

theorem ZsetCounted.step {request : Request} (counted : ZsetCounted ctx key total store)
    (allowed : ZsetRequest ctx key store request) (bounded : total + request.args.length < 2 ^ 63) :
    ZsetCounted ctx key (total + request.args.length) (request.after ctx store) := by
  obtain ⟨command, args, env⟩ := request
  obtain ⟨listed, onKey, unused, once⟩ := allowed
  rw [Request.after_eq]
  simp only [List.mem_cons, List.not_mem_nil, or_false] at listed
  match args, onKey with
  | key :: rest, rfl =>
    rw [List.length_cons] at bounded ⊢
    rcases listed with rfl | rfl | rfl
    · exact zadd_counted counted unused bounded
    · exact zincrby_counted counted unused bounded
    · match rest with
      | [] => exact counted.mono (Nat.le_add_right _ _)
      | member :: rest =>
        have removed := zrem_counted counted (by omega) (once rfl)
        exact Program.Ends.run_state (removed.mono
          (fun _ _ holds => holds.1.mono (Nat.le_add_right _ _)) fun _ _ => False.elim)

/-- `ZCARD` replies the recorded size. -/
theorem zcard_reply (counted : ZsetCounted ctx key total store) :
    Request.reply ctx store ⟨.zcard, [key], env⟩ =
      .ok (.integer (Int64.ofNat (zsetCardinality ctx env store key))) := by
  have returned : exec env (Cmd.zcard ctx [key]) store =
      (.ok (.integer (Int64.ofNat (zsetCardinality ctx env store key))), store) := by
    rw [Cmd.zcard, exec_bind, exec_readZsetMeta, zsetCardinality]
    rcases counted with absent | ⟨meta', recorded, sized⟩
    · rw [CommandContext.zsetMeta, absent]
      rfl
    · rw [zsetMeta_of_recorded recorded sized.proper]
      simp only [exec_pure, toInt64_eq_ofNat, sized.size]
  exact Request.reply_eq_ok ctx returned

end Requests

section Runs

/-- In every run of additions and removals on a key, starting where the key is
absent, the recorded size of the sorted set is the number of its members, and
each removal replies by how much this number went down, provided that no removal
names a stored member twice and that the run has fewer than `2 ^ 63` arguments
in all. -/
theorem zcard_counts_members {start : Store} {requests : List Request}
    (run : Runs ctx (ZsetRequest ctx key) start requests store)
    (absent : ctx.lookupMeta start key = none)
    (few : (requests.map fun request => request.args.length).sum < 2 ^ 63) (env : Env) :
    (∀ meta', ctx.zsetMeta env store key = .ok (some meta') →
      meta'.size.toNat = elementCount ctx key meta'.version store) ∧
    Request.reply ctx store ⟨.zcard, [key], env⟩ =
      .ok (.integer (Int64.ofNat (zsetCardinality ctx env store key))) ∧
    ∀ member rest, (member :: rest).length < 2 ^ 63 →
      ZsetRequest ctx key store ⟨.zrem, key :: member :: rest, env⟩ →
      ∃ n, Request.reply ctx store ⟨.zrem, key :: member :: rest, env⟩ =
          .ok (.integer (Int64.ofNat n)) ∧
        zsetCardinality ctx env store key =
          zsetCardinality ctx env (Request.after ctx store ⟨.zrem, key :: member :: rest, env⟩) key
            + n := by
  have counted :
      ZsetCounted ctx key (requests.map fun request => request.args.length).sum store := by
    -- The bound on the arguments is part of the invariant, so that earlier states have it too.
    refine run.invariant_of_cost (fun request => request.args.length)
      (fun total store => total < 2 ^ 63 → ZsetCounted ctx key total store)
      (fun _ => .inl absent) ?_ few
    intro total state request allowed counted bounded
    exact (counted (by omega)).step allowed bounded
  refine ⟨fun meta' loaded => ?_, zcard_reply counted, fun member rest short allowed => ?_⟩
  · rcases counted with missing | ⟨record, recorded, sized⟩
    · simp [CommandContext.zsetMeta, missing] at loaded
    · rw [zsetMeta_of_recorded recorded sized.proper] at loaded
      cases loaded
      exact sized.size
  · obtain ⟨reply, after, ran, -, n, rfl, decrease⟩ :=
      (zrem_counted counted short (allowed.once rfl)).succeeds
    refine ⟨n, Request.reply_eq_ok ctx ran, ?_⟩
    rw [Request.after_eq_of_exec ctx ran]
    exact decrease

/-- Removing one of two members by name. -/
theorem zcard_counts_members_of_zrem :
    let added : Request :=
      ⟨.zadd, [ascii "k", ascii "inf", ascii "m", ascii "inf", ascii "n"], .plain 7⟩
    let store := added.after .plain .empty
    let removed : Request := ⟨.zrem, [ascii "k", ascii "m"], .plain 8⟩
    zsetCardinality .plain (.plain 8) store (ascii "k") = 2 ∧
    ∃ n, removed.reply .plain store = .ok (.integer (Int64.ofNat n)) ∧
      zsetCardinality .plain (.plain 8) store (ascii "k") =
        zsetCardinality .plain (.plain 8) (removed.after .plain store) (ascii "k") + n := by
  intro added store removed
  have run : Runs .plain (ZsetRequest .plain (ascii "k")) .empty [added] store :=
    .next .refl ⟨by decide, rfl, fun _ _ _ _ => rfl, nofun⟩
  have present : CommandContext.plain.lookupMeta store (ascii "k") ≠ none := by decide
  have allowed : ZsetRequest .plain (ascii "k") store removed :=
    ⟨by decide, rfl, fun absent => absurd absent present,
      fun _ _ _ => (List.nodup_singleton _).filter _⟩
  exact ⟨by decide,
    (zcard_counts_members run rfl (by decide) (.plain 8)).2.2 _ _ (by decide) allowed⟩

/-- `ZREM k m m` on the members `m` and `n` replies two, and records that no
member is left, while `n` is still stored. -/
theorem zrem_counts_member_twice :
    let added : Request :=
      ⟨.zadd, [ascii "k", ascii "inf", ascii "m", ascii "inf", ascii "n"], .plain 7⟩
    let removed : Request := ⟨.zrem, [ascii "k", ascii "m", ascii "m"], .plain 8⟩
    let before := added.after .plain .empty
    let after := removed.after .plain before
    removed.reply .plain before = .ok (.integer 2) ∧
    zsetCardinality .plain (.plain 8) before (ascii "k") = 2 ∧
    zsetCardinality .plain (.plain 8) after (ascii "k") = 1 ∧
    Request.reply .plain after ⟨.zcard, [ascii "k"], .plain 8⟩ = .ok (.integer 0) ∧
    ¬ ∀ meta', CommandContext.plain.zsetMeta (.plain 8) after (ascii "k") = .ok (some meta') →
      meta'.size.toNat = elementCount .plain (ascii "k") meta'.version after := by
  refine ⟨by decide, by decide, by decide, by decide, fun all => ?_⟩
  have wrong := all ⟨buildFlags .zset, 0, (Env.plain 7).version, 0, 0, -1⟩ (by decide)
  exact absurd wrong (by decide)

end Runs

end Kvdb
