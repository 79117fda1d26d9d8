import Kvdb.SortedSet.Commands

/-!
# The two indexes never drift apart

In a store that only holds strings and sorted sets, every command on them keeps
the two indexes of every version of every key in agreement. Deleting a key
empties both indexes of its version, and flushing empties all of them.
-/

namespace Kvdb

open Data Semantics Cmd

variable {ctx : CommandContext} {store after : Store} {env : Env}

section Invariant

/-- The type code of a metadata value is that of a string or of a sorted set. -/
def TextOrZset (value : Bytes) : Prop :=
  firstByte value &&& flagsTypeMask = DataType.string.code ∨
    firstByte value &&& flagsTypeMask = DataType.zset.code

/-- All indexes agree, and there are only strings and sorted sets. -/
structure Agreeing (ctx : CommandContext) (store : Store) : Prop where
  indexed : ∀ key v, key.length < 2 ^ 32 → Indexed ctx key v store
  typed : ∀ phys value, store.get .metadata phys = some value → TextOrZset value

theorem agreeing_empty : Agreeing ctx .empty where
  indexed _ _ _ := .of_none (fun _ => rfl) fun _ => rfl
  typed _ _ stored := by cases stored

theorem Agreeing.lookup (agreeing : Agreeing ctx store) {key value : Bytes}
    (found : ctx.lookupMeta store key = some value) : TextOrZset value := by
  rw [CommandContext.lookupMeta] at found
  rcases Option.or_eq_some_iff.mp found with own | ⟨-, legacy⟩
  · exact agreeing.typed _ _ own
  · split_ifs at legacy
    exact agreeing.typed _ _ legacy

/-- Indexes do not depend on the metadata family. -/
theorem Agreeing.metadata (agreeing : Agreeing ctx store) {op : BatchOp}
    (family : op.cf = .metadata)
    (typed : ∀ phys value, (store.apply op).get .metadata phys = some value → TextOrZset value) :
    Agreeing ctx (store.apply op) where
  indexed key v short := by
    refine (agreeing.indexed key v short).of_same (fun m => ?_) fun sub => ?_
    · exact store.get_apply_of_ne (by simp [family])
    · exact store.get_apply_of_ne (by simp [family])
  typed := typed

theorem Agreeing.putMetadata (agreeing : Agreeing ctx store) (phys : Bytes) {value : Bytes}
    (typed : TextOrZset value) : Agreeing ctx (store.apply (.put .metadata phys value)) := by
  refine agreeing.metadata rfl fun phys' value' stored => ?_
  rw [Store.get_apply_put] at stored
  split_ifs at stored
  · rwa [← Option.some.inj stored]
  · exact agreeing.typed _ _ stored

theorem Agreeing.deleteMetadata (agreeing : Agreeing ctx store) (phys : Bytes) :
    Agreeing ctx (store.apply (.delete .metadata phys)) := by
  refine agreeing.metadata rfl fun phys' value' stored => ?_
  rw [Store.get_apply_delete] at stored
  split_ifs at stored
  exact agreeing.typed _ _ stored

theorem Agreeing.wrote (agreeing : Agreeing ctx store) {key : Bytes} (short : key.length < 2 ^ 32)
    {meta' : Metadata} (zset : meta'.dataType = some .zset) {change : ℤ} {size : UInt64}
    (wrote : ZsetWrote ctx key meta' change size store after) : Agreeing ctx after := by
  obtain ⟨touched, middle, steps, rfl⟩ := wrote
  have between : Agreeing ctx middle := by
    refine ⟨fun other w short' => ?_, fun phys value stored => ?_⟩
    · by_cases same : other = key ∧ w = meta'.version
      · obtain ⟨rfl, rfl⟩ := same
        exact steps.indexed (agreeing.indexed _ _ short)
      · exact steps.elsewhere short short' same (agreeing.indexed other w short')
    · rw [steps.metadata] at stored
      exact agreeing.typed _ _ stored
  exact between.putMetadata _ (.inr (dataTypeFromFlags_eq_some.mp zset))

/-- Emptying both indexes of one version. -/
theorem Agreeing.purged (agreeing : Agreeing ctx store) {key : Bytes} (short : key.length < 2 ^ 32)
    (v : UInt64) :
    Agreeing ctx ((store.without .subkey (ctx.subKey key v [])).without .zsetScore
      (ctx.subKey key v [])) where
  indexed other w short' := by
    by_cases same : other = key ∧ w = v
    · obtain ⟨rfl, rfl⟩ := same
      have inside : ∀ sub, ctx.subKey other w [] <+: ctx.subKey other w sub := fun sub =>
        ctx.subKey_prefix_iff.mpr ⟨sub, rfl⟩
      exact .of_none (fun m => by simp [Store.get_without, inside])
        fun sub => by simp [Store.get_without, inside]
    · have outside : ∀ sub, ¬ ctx.subKey key v [] <+: ctx.subKey other w sub := by
        intro sub inside
        obtain ⟨sub', clash⟩ := ctx.subKey_prefix_iff.mp inside
        exact ctx.subKey_ne short' short same clash
      exact (agreeing.indexed other w short').of_same
        (fun m => by simp [Store.get_without, outside])
        fun sub => by simp [Store.get_without, outside]
  typed phys value stored := by
    rw [Store.get_without, Store.get_without] at stored
    exact agreeing.typed phys value (by simpa using stored)

end Invariant

section Commands

variable {key : Bytes}

/-- The type code stays when the deadline changes. -/
theorem textOrZset_withExpire {value encoded : Bytes} {deadline : Int64}
    (typed : TextOrZset value) (known : withExpire value deadline = .ok encoded) :
    TextOrZset encoded := by
  have head : firstByte encoded = firstByte value := by
    cases redates_of_withExpire known with
    | text => rfl
    | record _ _ flags => exact flags
  rwa [TextOrZset, head]

theorem set_agreeing (args : List Bytes) (agreeing : Agreeing ctx store) :
    Program.Ends env.handle (Cmd.set ctx args) store (fun _ => Agreeing ctx)
      (fun _ => Agreeing ctx) := by
  match args with
  | [] | [_] => exact agreeing
  | key :: value :: options =>
    rw [Cmd.set]
    refine (viewed_setOptions Observer.shares_single _ _).readOnly.ends_bind (fun _ => agreeing)
      fun opts _ => ?_
    split_ifs
    · exact agreeing
    refine (viewed_keyExists Observer.shares_single).readOnly.ends_bind (fun _ => agreeing)
      fun found _ => ?_
    split_ifs
    · exact agreeing
    · exact agreeing
    · exact agreeing.putMetadata _ (.inl (buildFlags_typeCode .string))

theorem setExpireMs_agreeing (key : Bytes) (deadline : Int64) (agreeing : Agreeing ctx store) :
    Program.Ends env.handle (setExpireMs ctx key deadline) store (fun _ => Agreeing ctx)
      (fun _ => Agreeing ctx) := by
  rw [setExpireMs]
  refine Program.Ends.bind (Program.Ends.of_run (ctx.exec_getMeta key) ?_ fun _ _ => agreeing)
  rintro found ⟨⟩
  cases found : ctx.lookupMeta store key with
  | none => exact agreeing
  | some value =>
    dsimp only
    split_ifs
    · exact agreeing
    cases known : withExpire value deadline with
    | error fault => exact agreeing
    | ok encoded =>
      exact agreeing.putMetadata _ (textOrZset_withExpire (agreeing.lookup found) known)

theorem expireIn_agreeing (name : String) (unit : Int64) (args : List Bytes)
    (agreeing : Agreeing ctx store) :
    Program.Ends env.handle (expireIn ctx name unit args) store (fun _ => Agreeing ctx)
      (fun _ => Agreeing ctx) := by
  match args with
  | [] | [_] | _ :: _ :: _ :: _ => exact agreeing
  | [key, amount] =>
    rw [expireIn]
    refine (readOnly_parseI64 amount).ends_bind (fun _ => agreeing) fun amount _ => ?_
    refine readOnly_nowMs.ends_bind (fun _ => agreeing) fun now _ => ?_
    exact Program.Ends.bind ((setExpireMs_agreeing key _ agreeing).mono
      (fun _ _ kept => kept) fun _ _ kept => kept)

theorem persist_agreeing (args : List Bytes) (agreeing : Agreeing ctx store) :
    Program.Ends env.handle (persist ctx args) store (fun _ => Agreeing ctx)
      (fun _ => Agreeing ctx) := by
  match args with
  | [] | _ :: _ :: _ => exact agreeing
  | [key] =>
    rw [persist]
    refine (viewed_readExpire Observer.shares_single).readOnly.ends_bind (fun _ => agreeing)
      fun deadline _ => ?_
    match deadline with
    | none | some none => exact agreeing
    | some (some _) =>
      exact Program.Ends.bind ((setExpireMs_agreeing key 0 agreeing).mono
        (fun _ _ kept => kept) fun _ _ kept => kept)

theorem purgeValue_agreeing {value : Bytes} (short : key.length < 2 ^ 32)
    (typed : TextOrZset value) (agreeing : Agreeing ctx store) :
    Program.Ends env.handle (purgeValue ctx key value) store (fun _ => Agreeing ctx)
      (fun _ => Agreeing ctx) := by
  rw [purgeValue]
  split_ifs with composite
  · cases decoded : decodeMetadata value with
    | none => exact agreeing
    | some meta' =>
      have zset : meta'.dataType = some .zset := by
        rw [Metadata.dataType, (decodeMetadata_eq_some decoded).2.1]
        exact dataTypeFromFlags_eq_some.mpr (typed.resolve_left composite.2)
      refine Program.Ends.of_run (exec_purgeSubkeys ctx key _ _) (fun _ _ => ?_) (fun _ _ => ?_) <;>
        simpa only [zset, decide_true, if_true] using agreeing.purged short meta'.version
  · exact agreeing

theorem delLoop_agreeing (keys : List Bytes) (count : Int64)
    (short : ∀ key ∈ keys, key.length < 2 ^ 32) (agreeing : Agreeing ctx store) :
    Program.Ends env.handle (delLoop ctx keys count) store (fun _ => Agreeing ctx)
      (fun _ => Agreeing ctx) := by
  induction keys generalizing store count with
  | nil => exact agreeing
  | cons key keys ih =>
    have rest : ∀ key ∈ keys, key.length < 2 ^ 32 := fun k inside =>
      short k (List.mem_cons_of_mem _ inside)
    rw [delLoop]
    refine Program.Ends.bind (Program.Ends.of_run (ctx.exec_getMeta key) ?_ fun _ _ => agreeing)
    rintro _ ⟨⟩
    cases found : ctx.lookupMeta store key with
    | none => exact ih count rest agreeing
    | some value =>
      refine Program.Ends.bind ((purgeValue_agreeing (short key List.mem_cons_self)
        (agreeing.lookup found) agreeing).mono (fun _ after kept => ?_) fun _ _ kept => kept)
      exact ih (count + 1) rest (kept.deleteMetadata _)

theorem del_agreeing (args : List Bytes) (short : ∀ key ∈ args, key.length < 2 ^ 32)
    (agreeing : Agreeing ctx store) :
    Program.Ends env.handle (Cmd.del ctx args) store (fun _ => Agreeing ctx)
      (fun _ => Agreeing ctx) := by
  match args, short with
  | [], _ => exact agreeing
  | key :: keys, short =>
    exact Program.Ends.bind ((delLoop_agreeing (key :: keys) 0 short agreeing).mono
      (fun _ _ kept => kept) fun _ _ kept => kept)

theorem flushdb_agreeing (args : List Bytes) (agreeing : Agreeing ctx store) :
    Agreeing ctx (exec env (flushdb ctx args) store).2 := by
  rw [exec_flushdb]
  refine ⟨fun key v _ => .of_none (fun m => ?_) fun sub => ?_, fun phys value stored => ?_⟩
  · simp [Store.get_without, namespacePrefix_subKey]
  · simp [Store.get_without, namespacePrefix_subKey]
  · simp only [Store.get_without, reduceCtorEq, false_and, if_false] at stored
    split_ifs at stored
    exact agreeing.typed phys value stored

theorem zadd_agreeing (args : List Bytes) (short : ∀ arg ∈ args, arg.length < 2 ^ 32)
    (agreeing : Agreeing ctx store) :
    Agreeing ctx (exec env (Cmd.zadd ctx args) store).2 := by
  match args, short with
  | [], _ => exact agreeing
  | key :: args, short =>
    have own := short key List.mem_cons_self
    refine Program.Ends.run_state (Program.Ends.mono
      (zadd_ends key args fun _ _ => agreeing.indexed _ _ own) ?_ ?_)
    · rintro _ after (rfl | ⟨meta', base, n, -, wrote⟩)
      · exact agreeing
      · exact agreeing.wrote own (zsetBase_dataType base).1 wrote
    · rintro _ _ rfl
      exact agreeing

theorem zincrby_agreeing (args : List Bytes) (short : ∀ arg ∈ args, arg.length < 2 ^ 32)
    (agreeing : Agreeing ctx store) :
    Agreeing ctx (exec env (zincrby ctx args) store).2 := by
  match args, short with
  | [], _ => exact agreeing
  | key :: args, short =>
    have own := short key List.mem_cons_self
    refine Program.Ends.run_state (Program.Ends.mono
      (zincrby_ends key args fun _ _ => agreeing.indexed _ _ own) ?_ ?_)
    · rintro _ after ⟨meta', base, n, -, wrote⟩
      exact agreeing.wrote own (zsetBase_dataType base).1 wrote
    · rintro _ _ rfl
      exact agreeing

theorem zrem_agreeing (args : List Bytes) (short : ∀ arg ∈ args, arg.length < 2 ^ 32)
    (agreeing : Agreeing ctx store) :
    Agreeing ctx (exec env (Cmd.zrem ctx args) store).2 := by
  match args, short with
  | [], _ | [_], _ => exact agreeing
  | key :: member :: rest, short =>
    have own := short key List.mem_cons_self
    refine Program.Ends.run_state (Program.Ends.mono
      (zrem_ends key member rest fun _ _ => agreeing.indexed _ _ own) ?_ ?_)
    · rintro _ after (⟨-, -, rfl⟩ | ⟨meta', loaded, -, outcome⟩)
      · exact agreeing
      · split_ifs at outcome
        · obtain ⟨change, size, wrote, -⟩ := outcome
          exact agreeing.wrote own (zsetMeta_dataType loaded).1 wrote
        · rwa [outcome]
    · rintro _ _ ⟨-, rfl⟩
      exact agreeing

end Commands

section Runs

/-- The commands on strings and sorted sets that write. -/
def sortedSetCommands : List Command :=
  [.zadd, .zincrby, .zrem, .set, .expire, .pexpire, .persist, .del, .flushdb]

/-- A request of such a command, with arguments whose lengths fit into their
fields. -/
def SortedSetRequest (_ : Store) (request : Request) : Prop :=
  request.command ∈ sortedSetCommands ∧ ∀ arg ∈ request.args, arg.length < 2 ^ 32

theorem Agreeing.step {request : Request} (allowed : SortedSetRequest store request)
    (agreeing : Agreeing ctx store) : Agreeing ctx (request.after ctx store) := by
  obtain ⟨listed, short⟩ := allowed
  rw [Request.after_eq]
  obtain ⟨command, args, env⟩ := request
  simp only [sortedSetCommands, List.mem_cons, List.not_mem_nil, or_false] at listed
  rcases listed with rfl | rfl | rfl | rfl | rfl | rfl | rfl | rfl | rfl
  · exact zadd_agreeing args short agreeing
  · exact zincrby_agreeing args short agreeing
  · exact zrem_agreeing args short agreeing
  · exact (set_agreeing args agreeing).run_state
  · exact (expireIn_agreeing "EXPIRE" 1000 args agreeing).run_state
  · exact (expireIn_agreeing "PEXPIRE" 1 args agreeing).run_state
  · exact (persist_agreeing args agreeing).run_state
  · exact (del_agreeing args short agreeing).run_state
  · exact flushdb_agreeing args agreeing

theorem Agreeing.run {requests : List Request}
    (run : Runs ctx SortedSetRequest .empty requests store) : Agreeing ctx store :=
  run.invariant agreeing_empty fun _ _ allowed agreeing => agreeing.step allowed

/-- Wherever a run leads, the scores of the members of a sorted set and its
pairs are in bijection. This holds of every version a key ever had, the live one
among them, and whether or not versions are reused. -/
theorem zset_indexes_in_bijection {requests : List Request}
    (run : Runs ctx SortedSetRequest .empty requests store) {key : Bytes}
    (short : key.length < 2 ^ 32) (v : UInt64) :
    (∀ m value, store.get .subkey (memberSubkey ctx key v m) = some value →
      ∃ s, value = encodeScore s) ∧
    (∀ m s, store.get .subkey (memberSubkey ctx key v m) = some (encodeScore s) ↔
      store.get .zsetScore (scoreSubkey ctx key v s m) = some []) ∧
    (∀ m, (store.get .subkey (memberSubkey ctx key v m)).isSome →
      ∃! s, (store.get .zsetScore (scoreSubkey ctx key v s m)).isSome) ∧
    ∀ sub, (store.get .zsetScore (ctx.subKey key v sub)).isSome →
      ∃ s m, sub = encodeScore s ++ m ∧
        store.get .subkey (memberSubkey ctx key v m) = some (encodeScore s) := by
  have indexed := (Agreeing.run run).indexed key v short
  have encoded : ∀ m value, store.get .subkey (ctx.subKey key v m) = some value →
      encodeScore (decodeScore value) = value := fun m value stored =>
    encodeScore_decodeScore (indexed.scored m value stored).1
  refine ⟨fun m value stored => ⟨_, (encoded m value stored).symm⟩,
    fun m s => indexed.pair_iff (length_encodeScore s), fun m member => ?_, fun sub pair => ?_⟩
  · obtain ⟨value, stored⟩ := Option.isSome_iff_exists.mp member
    refine ⟨decodeScore value, ?_, fun s pair => ?_⟩
    · have present := (indexed.scored m value stored).2
      simp only [scoreSubkey, encoded m value stored, present, Option.isSome_some]
    · obtain ⟨rest, present⟩ := Option.isSome_iff_exists.mp pair
      obtain ⟨s', m', width, same, stored'⟩ := indexed.backed _ _ present
      obtain ⟨rfl, rfl⟩ := List.append_inj same ((length_encodeScore s).trans width.symm)
      rw [memberSubkey, stored'] at stored
      rw [← Option.some.inj stored, decodeScore_encodeScore]
  · obtain ⟨value, present⟩ := Option.isSome_iff_exists.mp pair
    obtain ⟨s, m, width, same, stored⟩ := indexed.backed _ _ present
    exact ⟨decodeScore s, m, by rw [encodeScore_decodeScore width, same],
      by rw [encodeScore_decodeScore width]; exact stored⟩

/-- A member that was added twice, with two scores, has one pair. -/
theorem zset_indexes_in_bijection_of_zadd :
    let added : Request := ⟨.zadd, [ascii "k", ascii "-inf", ascii "m"], .plain 7⟩
    let moved : Request := ⟨.zadd, [ascii "k", ascii "inf", ascii "m"], .plain 8⟩
    let store := moved.after .plain (added.after .plain .empty)
    let v : UInt64 := (Env.plain 7).version
    (store.get .subkey (memberSubkey .plain (ascii "k") v (ascii "m"))).isSome ∧
      ∃! s, (store.get .zsetScore (scoreSubkey .plain (ascii "k") v s (ascii "m"))).isSome := by
  intro added moved store v
  have run : Runs .plain SortedSetRequest .empty [added, moved] store :=
    .next (.next .refl ⟨by decide, by decide⟩) ⟨by decide, by decide⟩
  have stored : (store.get .subkey
      (memberSubkey .plain (ascii "k") v (ascii "m"))).isSome := by decide
  exact ⟨stored, (zset_indexes_in_bijection run (by decide) v).2.2.1 _ stored⟩

end Runs

end Kvdb
