import Kvdb.Command.Elements
import Kvdb.Command.Writes

/-!
# The recorded size of a hash

The metadata of a hash counts its fields by hand. A command tests which fields
are stored while its own batch is still pending, so it counts a new field once
for every time it sets it, and a stored field once for every time it deletes it.
The size is right as long as no command does either twice.
-/

namespace Kvdb

open Data Semantics Cmd

variable {ctx : CommandContext} {key : Bytes} {store after : Store} {env : Env} {meta' : Metadata}

section Loader

/-- The hash of a key, as its loader finds it. -/
def CommandContext.hashMeta (ctx : CommandContext) (store : Store) (key : Bytes) :
    Except Fault (Option Metadata) :=
  match ctx.lookupMeta store key with
  | none => .ok none
  | some value => decodeAndCheckHash value

/-- The hash a writing command works on: the stored one or a new one. -/
def CommandContext.hashBase (ctx : CommandContext) (env : Env) (store : Store) (key : Bytes) :
    Except Fault Metadata :=
  (ctx.hashMeta store key).map fun found => found.getD (Metadata.new .hash env.version)

theorem exec_readHashMeta :
    exec env (readHashMeta ctx key) store = (ctx.hashMeta store key, store) := by
  rw [readHashMeta, ctx.exec_getMeta_bind, CommandContext.hashMeta]
  cases ctx.lookupMeta store key with
  | none => rfl
  | some value => exact exec_ofExcept _

theorem exec_ensureHashMeta :
    exec env (ensureHashMeta ctx key) store = (ctx.hashBase env store key, store) := by
  rw [ensureHashMeta, exec_bind, exec_readHashMeta, CommandContext.hashBase]
  rcases ctx.hashMeta store key with _ | (_ | _) <;> rfl

theorem hashMeta_of_absent (absent : ctx.lookupMeta store key = none) :
    ctx.hashMeta store key = .ok none := by
  rw [CommandContext.hashMeta, absent]

/-- The loader finds the record of a hash. -/
theorem hashMeta_of_recorded (recorded : Recorded ctx key meta' store)
    (proper : meta'.Proper .hash) :
    ctx.hashMeta store key = .ok (some meta') := by
  rw [CommandContext.hashMeta, recorded.lookup]
  simp only [decodeAndCheckHash,
    checkMetadata_encodeMetadata proper.typed (by decide) proper.normal, Except.map]

end Loader

section Loops

/-- The loop of `HSET` prepares to store all fields, and counts every occurrence
of a new one. -/
theorem exec_hsetLoop (args : List Bytes) (batch : WriteBatch) (added : Int64) (meta' : Metadata) :
    let n := (newNames ctx key meta'.version store ((Cmd.pairUp args).map Prod.fst)).length
    exec env (hsetLoop ctx key args batch added meta') store =
      (.ok (batch ++ putElements ctx key meta'.version (Cmd.pairUp args), added + Int64.ofNat n,
        { meta' with size := meta'.size + UInt64.ofNat n }), store) := by
  fun_induction hsetLoop ctx key args batch added meta' with
  | case1 field value rest batch added meta' sk counted counted' =>
    have shape : batch ++ putElements ctx key meta'.version (Cmd.pairUp (field :: value :: rest)) =
        batch ++ [.put .subkey sk value] ++ putElements ctx key meta'.version (Cmd.pairUp rest) :=
      List.append_cons ..
    have names : newNames ctx key meta'.version store
        ((Cmd.pairUp (field :: value :: rest)).map Prod.fst) = _ :=
      newNames_cons field ((Cmd.pairUp rest).map Prod.fst)
    intro n
    rw [exec_get_bind, shape]
    -- The field is looked up in the store as it was before the command.
    cases found : store.get .subkey (ctx.subKey key meta'.version field) with
    | some old =>
      have same : n = (newNames ctx key meta'.version store
          ((Cmd.pairUp rest).map Prod.fst)).length := by
        simp [n, names, found]
      rw [same]
      simpa only [sk, found, Option.isSome_some, if_true] using counted
    | none =>
      have more : n = (newNames ctx key meta'.version store
          ((Cmd.pairUp rest).map Prod.fst)).length + 1 := by
        simp [n, names, found]
      rw [more, ← int64_add_one_add, ← uint64_add_one_add]
      simpa only [sk, found, Option.isSome_none, Bool.false_eq_true, if_false] using counted'
  | case2 args batch added meta' other =>
    have none : Cmd.pairUp args = [] := by
      rcases args with _ | ⟨field, _ | ⟨value, rest⟩⟩
      · rfl
      · rfl
      · exact absurd rfl (other field value rest)
    simp [none, newNames, putElements]

/-- The loop of `HDEL` prepares to delete the fields it finds, and counts every
occurrence of them. -/
theorem exec_hdelLoop (fields : List Bytes) (batch : WriteBatch) (deleted : Int64)
    (meta' : Metadata) :
    let hits := storedNames ctx key meta'.version store fields
    ∃ size : UInt64, size.toNat = meta'.size.toNat - hits.length ∧
      exec env (hdelLoop ctx key fields batch deleted meta') store =
        (.ok (batch ++ deleteElements ctx key meta'.version hits, deleted + Int64.ofNat hits.length,
          { meta' with size }), store) := by
  induction fields generalizing batch deleted meta' with
  | nil => exact ⟨meta'.size, rfl, by simp [hdelLoop, storedNames, deleteElements]⟩
  | cons field fields ih =>
    intro hits
    have names : hits = _ := storedNames_cons field fields
    rw [hdelLoop, exec_get_bind]
    cases found : store.get .subkey (ctx.subKey key meta'.version field) with
    | none =>
      have same : hits = storedNames ctx key meta'.version store fields := by simp [names, found]
      rw [same]
      exact ih batch deleted meta'
    | some old =>
      have more : hits = field :: storedNames ctx key meta'.version store fields := by
        simp [names, found]
      obtain ⟨size, counted, ran⟩ := ih
        (batch ++ [.delete .subkey (ctx.subKey key meta'.version field)]) (deleted + 1)
        { meta' with size := saturatingSub meta'.size 1 }
      refine ⟨size, ?_, ?_⟩
      · simp only [toNat_saturatingSub, UInt64.toNat_one] at counted
        rw [counted, more, List.length_cons]
        omega
      · rw [more, List.length_cons, ← int64_add_one_add]
        simpa [deleteElements] using ran

end Loops

section Invariant

/-- The record counts the fields of its version. -/
structure HashSized (ctx : CommandContext) (key : Bytes) (bound : ℕ) (meta' : Metadata)
    (store : Store) : Prop where
  proper : meta'.Proper .hash
  size : meta'.size.toNat = elementCount ctx key meta'.version store
  few : elementCount ctx key meta'.version store ≤ bound

/-- The key is absent, or its record counts its fields. -/
def HashCounted (ctx : CommandContext) (key : Bytes) (bound : ℕ) (store : Store) : Prop :=
  ctx.lookupMeta store key = none ∨
    ∃ meta', Recorded ctx key meta' store ∧ HashSized ctx key bound meta' store

variable {bound : ℕ}

theorem HashCounted.mono (counted : HashCounted ctx key bound store) {bound' : ℕ}
    (le : bound ≤ bound') : HashCounted ctx key bound' store := by
  refine counted.imp_right ?_
  rintro ⟨meta', recorded, proper, size, few⟩
  exact ⟨meta', recorded, proper, size, few.trans le⟩

/-- What `HSET` starts from. -/
theorem HashCounted.base (counted : HashCounted ctx key bound store)
    (unused : ctx.lookupMeta store key = none → Unused ctx key env.version store) :
    ∃ meta', ctx.hashBase env store key = .ok meta' ∧ HashSized ctx key bound meta' store := by
  rw [CommandContext.hashBase]
  rcases counted with absent | ⟨meta', recorded, sized⟩
  · have none := (unused absent).elementCount
    rw [hashMeta_of_absent absent]
    exact ⟨_, rfl, Metadata.new_proper .hash _, none.symm, none.trans_le (Nat.zero_le _)⟩
  · rw [hashMeta_of_recorded recorded sized.proper]
    exact ⟨meta', rfl, sized⟩

def hashFieldCount (ctx : CommandContext) (store : Store) (key : Bytes) : ℕ :=
  match ctx.hashMeta store key with
  | .ok (some meta') => elementCount ctx key meta'.version store
  | _ => 0

theorem hashFieldCount_of_absent (absent : ctx.lookupMeta store key = none) :
    hashFieldCount ctx store key = 0 := by
  rw [hashFieldCount, hashMeta_of_absent absent]

theorem hashFieldCount_of_recorded (recorded : Recorded ctx key meta' store)
    (proper : meta'.Proper .hash) :
    hashFieldCount ctx store key = elementCount ctx key meta'.version store := by
  rw [hashFieldCount, hashMeta_of_recorded recorded proper]

/-- A command starts from a record that counts the fields there are. -/
theorem HashCounted.count_base (counted : HashCounted ctx key bound store)
    (unused : ctx.lookupMeta store key = none → Unused ctx key env.version store)
    (base : ctx.hashBase env store key = .ok meta') :
    hashFieldCount ctx store key = elementCount ctx key meta'.version store := by
  rw [CommandContext.hashBase] at base
  rcases counted with absent | ⟨record, recorded, sized⟩
  · rw [hashMeta_of_absent absent] at base
    cases base
    rw [hashFieldCount_of_absent absent]
    exact (unused absent).elementCount.symm
  · rw [hashMeta_of_recorded recorded sized.proper] at base
    cases base
    exact hashFieldCount_of_recorded recorded sized.proper

/-- A batch on the elements of a version and then the record with a new size
that counts them. -/
theorem HashSized.wrote (sized : HashSized ctx key bound meta' store) {batch : WriteBatch}
    {size : UInt64} (bound' : ℕ)
    (counted : size.toNat = elementCount ctx key meta'.version (store.write batch))
    (few : size.toNat ≤ bound') :
    let after := store.write (batch ++
      [.put .metadata (ctx.metaKey key) (encodeMetadata { meta' with size })])
    HashCounted ctx key bound' after ∧ hashFieldCount ctx after key = size.toNat := by
  intro after
  have shape : after = (store.write batch).apply (.put .metadata (ctx.metaKey key)
      (encodeMetadata { meta' with size })) := Store.write_append ..
  have recorded : Recorded ctx key { meta' with size } after := by
    rw [shape]
    exact recorded_put
  have same : elementCount ctx key meta'.version after =
      elementCount ctx key meta'.version (store.write batch) := by
    rw [shape]
    exact elementCount_congr fun phys => (store.write batch).get_apply_of_ne (by simp [BatchOp.cf])
  have proper := sized.proper.resize size
  refine ⟨.inr ⟨_, recorded, proper, counted.trans same.symm, ?_⟩, ?_⟩
  · exact (same.trans counted.symm).trans_le few
  · rw [hashFieldCount_of_recorded recorded proper, counted]
    exact same

end Invariant

section Requests

/-- A request on the hash of a key. A version that is drawn for an absent key is
a new one, no `HSET` names a new field twice, and no `HDEL` a stored one. -/
structure HashRequest (ctx : CommandContext) (key : Bytes) (store : Store) (request : Request) :
    Prop where
  listed : request.command ∈ [Command.hset, .hdel]
  onKey : request.args.head? = some key
  unused : ctx.lookupMeta store key = none → Unused ctx key request.env.version store
  newOnce : request.command = .hset → ∀ meta', ctx.hashBase request.env store key = .ok meta' →
    (newNames ctx key meta'.version store ((Cmd.pairUp request.args.tail).map Prod.fst)).Nodup
  storedOnce : request.command = .hdel → ∀ meta', ctx.hashMeta store key = .ok (some meta') →
    (storedNames ctx key meta'.version store request.args.tail).Nodup

variable {total : ℕ}

private theorem length_pairUp (args : List Bytes) : (Cmd.pairUp args).length ≤ args.length := by
  fun_induction Cmd.pairUp args with
  | case1 k v rest ih =>
    simp only [List.length_cons]
    omega
  | case2 => exact Nat.zero_le _

/-- `HSET` counts right, and replies by how much the number of fields went up. -/
theorem hset_counted {field value : Bytes} {rest : List Bytes}
    (counted : HashCounted ctx key total store)
    (unused : ctx.lookupMeta store key = none → Unused ctx key env.version store)
    (newOnce : ∀ meta', ctx.hashBase env store key = .ok meta' →
      (newNames ctx key meta'.version store
        ((Cmd.pairUp (field :: value :: rest)).map Prod.fst)).Nodup)
    (bounded : total + (rest.length + 3) < 2 ^ 63)
    (even : (field :: value :: rest).length % 2 = 0) :
    Program.Ends env.handle (Cmd.hset ctx (key :: field :: value :: rest)) store
      (fun reply after => HashCounted ctx key (total + (rest.length + 3)) after ∧
        ∃ n, reply = .integer (Int64.ofNat n) ∧
          hashFieldCount ctx after key = hashFieldCount ctx store key + n)
      (fun _ _ => False) := by
  obtain ⟨meta', base, sized⟩ := counted.base unused
  have odd : ¬ (key :: field :: value :: rest).length % 2 = 0 := by
    simp only [List.length_cons] at even ⊢
    omega
  have ran := @exec_hsetLoop ctx key store env (field :: value :: rest) [] 0 meta'
  have grown := elementCount_putElements _ (newOnce meta' base)
  have room : (newNames ctx key meta'.version store
      ((Cmd.pairUp (field :: value :: rest)).map Prod.fst)).length ≤ rest.length + 2 := by
    refine (List.length_filter_le _ _).trans ?_
    rw [List.length_map]
    exact length_pairUp (field :: value :: rest)
  generalize (newNames ctx key meta'.version store
    ((Cmd.pairUp (field :: value :: rest)).map Prod.fst)).length = n at ran grown room
  have size := sized.size
  have few := sized.few
  have exact : (meta'.size + UInt64.ofNat n).toNat =
      elementCount ctx key meta'.version store + n := by
    rw [UInt64.toNat_add, UInt64.toNat_ofNat', Nat.mod_eq_of_lt (by omega : n < 2 ^ 64),
      Nat.mod_eq_of_lt (by omega), size]
  simp only [Cmd.hset, if_neg odd]
  refine Program.Ends.bind (Program.Ends.of_run exec_ensureHashMeta ?_ ?_)
  · intro record known
    obtain rfl : meta' = record := Except.ok.inj (base.symm.trans known)
    refine Program.Ends.bind (Program.Ends.of_run ran ?_ nofun)
    rintro _ ⟨⟩
    obtain ⟨counted', fields⟩ :=
      sized.wrote (total + (rest.length + 3)) (exact.trans grown.symm) (by omega)
    refine ⟨counted', n, congrArg RespValue.integer (Int64.zero_add _), ?_⟩
    rw [counted.count_base unused base, ← exact]
    exact fields
  · intro fault failed
    simp [base] at failed

/-- `HDEL` counts right, and replies by how much the number of fields went
down. -/
theorem hdel_counted {field : Bytes} {rest : List Bytes} (counted : HashCounted ctx key total store)
    (storedOnce : ∀ meta', ctx.hashMeta store key = .ok (some meta') →
      (storedNames ctx key meta'.version store (field :: rest)).Nodup)
    (bounded : (field :: rest).length < 2 ^ 63) :
    Program.Ends env.handle (Cmd.hdel ctx (key :: field :: rest)) store
      (fun reply after => HashCounted ctx key total after ∧
        ∃ n, reply = .integer (Int64.ofNat n) ∧
          hashFieldCount ctx store key = hashFieldCount ctx after key + n)
      (fun _ _ => False) := by
  rw [Cmd.hdel]
  rcases counted with absent | ⟨meta', recorded, sized⟩
  · have missing : exec env (readHashMeta ctx key) store = (.ok none, store) := by
      rw [exec_readHashMeta, hashMeta_of_absent absent]
    refine Program.Ends.bind (Program.Ends.of_run missing ?_ nofun)
    rintro _ ⟨⟩
    exact Program.ends_pure ⟨.inl absent, 0, rfl, rfl⟩
  have loaded := hashMeta_of_recorded recorded sized.proper
  have found : exec env (readHashMeta ctx key) store = (.ok (some meta'), store) := by
    rw [exec_readHashMeta, loaded]
  refine Program.Ends.bind (Program.Ends.of_run found ?_ nofun)
  rintro _ ⟨⟩
  obtain ⟨size, shrunk, ran⟩ := @exec_hdelLoop ctx key store env (field :: rest) [] 0 meta'
  have nodup := storedOnce meta' loaded
  have room : (storedNames ctx key meta'.version store (field :: rest)).length ≤
      (field :: rest).length := List.length_filter_le _ _
  -- The batch deletes what is stored, and every name of it is stored.
  have again : storedNames ctx key meta'.version store
      (storedNames ctx key meta'.version store (field :: rest)) =
      storedNames ctx key meta'.version store (field :: rest) := by
    simp [storedNames, List.filter_filter]
  have dropped := elementCount_deleteElements
    (storedNames ctx key meta'.version store (field :: rest)) (again.symm ▸ nodup)
  rw [again] at dropped
  generalize storedNames ctx key meta'.version store (field :: rest) = hits at *
  refine Program.Ends.bind (Program.Ends.of_run ran ?_ nofun)
  rintro _ ⟨⟩
  have count := hashFieldCount_of_recorded recorded sized.proper
  have before := sized.size
  have few := sized.few
  simp only [Int64.zero_add, List.nil_append]
  by_cases positive : 0 < Int64.ofNat hits.length
  · rw [if_pos positive]
    obtain ⟨counted, fields⟩ := @HashSized.wrote ctx key store meta' total sized
      (deleteElements ctx key meta'.version hits) size total (by omega) (by omega)
    refine ⟨counted, hits.length, rfl, ?_⟩
    rw [count]
    change _ = hashFieldCount ctx (store.write _) key + _
    omega
  · rw [if_neg positive]
    rw [int64_ofNat_pos (by omega), Nat.pos_iff_ne_zero, not_not] at positive
    obtain rfl : hits = [] := List.length_eq_zero_iff.mp positive
    exact ⟨.inr ⟨meta', recorded, sized⟩, 0, rfl, rfl⟩

theorem HashCounted.step {request : Request} (counted : HashCounted ctx key total store)
    (allowed : HashRequest ctx key store request) (bounded : total + request.args.length < 2 ^ 63) :
    HashCounted ctx key (total + request.args.length) (request.after ctx store) := by
  obtain ⟨command, args, env⟩ := request
  obtain ⟨listed, onKey, unused, newOnce, storedOnce⟩ := allowed
  rw [Request.after_eq]
  have same : HashCounted ctx key (total + args.length) store := counted.mono (Nat.le_add_right _ _)
  simp only [List.mem_cons, List.not_mem_nil, or_false] at listed
  rcases listed with rfl | rfl
  · match args, onKey with
    | [_], _ | [_, _], _ => exact same
    | key :: field :: value :: rest, rfl =>
      by_cases even : (field :: value :: rest).length % 2 = 0
      · exact Program.Ends.run_state ((hset_counted counted unused (newOnce rfl) bounded even).mono
          (fun _ _ holds => holds.1) fun _ _ => False.elim)
      · have odd : (key :: field :: value :: rest).length % 2 = 0 := by
          simp only [List.length_cons] at even ⊢
          omega
        show HashCounted ctx key _ (exec env (Cmd.hset ctx (key :: field :: value :: rest)) store).2
        simp only [Cmd.hset, if_pos odd]
        exact same
  · match args, onKey with
    | [_], _ => exact same
    | key :: field :: rest, rfl =>
      have short : (field :: rest).length < 2 ^ 63 := by
        simp only [List.length_cons] at bounded ⊢
        omega
      exact Program.Ends.run_state ((hdel_counted counted (storedOnce rfl) short).mono
        (fun _ _ holds => holds.1.mono (Nat.le_add_right _ _)) fun _ _ => False.elim)

end Requests

section Reads

/-- The fields of a hash with their values, in byte order. -/
def hashFields (ctx : CommandContext) (store : Store) (key : Bytes) : List Entry :=
  match ctx.hashMeta store key with
  | .ok (some meta') => elements ctx .subkey key meta'.version store
  | _ => []

theorem length_hashFields : (hashFields ctx store key).length = hashFieldCount ctx store key := by
  rw [hashFields, hashFieldCount]
  rcases ctx.hashMeta store key with _ | (_ | meta')
  · rfl
  · rfl
  · exact length_elements

theorem hashFields_nodup : ((hashFields ctx store key).map Prod.fst).Nodup := by
  rw [hashFields]
  rcases ctx.hashMeta store key with _ | (_ | meta')
  · exact List.nodup_nil
  · exact List.nodup_nil
  · exact elements_nodup ..

private theorem foldl_fields (fields : List Entry) (result : List RespValue) :
    fields.foldl (fun result e => result ++ [.bulkString (some e.1), .bulkString (some e.2)])
      result =
      result ++ fields.flatMap fun e => [.bulkString (some e.1), .bulkString (some e.2)] := by
  induction fields generalizing result with
  | nil => simp
  | cons e fields ih => simp [ih]

/-- The elements of a version in the form of a reply of `HGETALL`. -/
theorem exec_hgetall (short : key.length < 2 ^ 32)
    (loaded : ∃ found, ctx.hashMeta store key = .ok found) :
    exec env (hgetall ctx [key]) store =
      (.ok (.array ((hashFields ctx store key).flatMap fun e =>
        [.bulkString (some e.1), .bulkString (some e.2)])), store) := by
  obtain ⟨found, loaded⟩ := loaded
  rw [hgetall, exec_bind, exec_readHashMeta, hashFields, loaded]
  cases found with
  | none => rfl
  | some meta' =>
    have readonly : ∀ acc item, (exec env
        (ForInStep.yield <$> pushField ctx acc item) store).2 = store := by
      intro acc item
      rw [map_eq_pure_bind]
      refine (ReadOnly.bind ?_ fun _ => readOnly_pure _).exec_state
      unfold pushField
      split
      · exact readOnly_raise _
      · exact readOnly_pure _
    have updates : ∀ (e : Entry) (acc : List RespValue),
        ForInStep.yield <$> pushField ctx acc (ctx.subKey key meta'.version e.1, e.2) =
          pure (.yield (acc ++ [.bulkString (some e.1), .bulkString (some e.2)])) := by
      intro e acc
      rw [pushField, ctx.parseSubkey_subKey _ _ short]
      rfl
    refine (exec_bind_ok
      (exec_forEachPage_fold (by decide) (by decide) readonly _ updates [])).trans ?_
    rw [foldl_fields]
    rfl

theorem exec_hlen (counted : ∃ total, HashCounted ctx key total store) :
    exec env (Cmd.hlen ctx [key]) store =
      (.ok (.integer (Int64.ofNat (hashFieldCount ctx store key))), store) := by
  obtain ⟨total, absent | ⟨meta', recorded, sized⟩⟩ := counted
  · rw [Cmd.hlen, exec_bind, exec_readHashMeta, hashFieldCount, hashMeta_of_absent absent]
    rfl
  · rw [Cmd.hlen, exec_bind, exec_readHashMeta, hashFieldCount,
      hashMeta_of_recorded recorded sized.proper]
    simp only [exec_pure, toInt64_eq_ofNat, sized.size]

end Reads

section Runs

theorem HashCounted.run {start : Store} {requests : List Request}
    (run : Runs ctx (HashRequest ctx key) start requests store)
    (absent : ctx.lookupMeta start key = none)
    (few : (requests.map fun request => request.args.length).sum < 2 ^ 63) :
    HashCounted ctx key (requests.map fun request => request.args.length).sum store := by
  refine run.invariant_of_cost (fun request => request.args.length)
    (fun total store => total < 2 ^ 63 → HashCounted ctx key total store)
      (fun _ => .inl absent) ?_ few
  intro total state request allowed counted bounded
  exact (counted (by omega)).step allowed bounded

/-- In every run of `HSET` and `HDEL` on a key, starting where the key is
absent, `HLEN` replies the number of fields that `HGETALL` lists, each of them
once. `HSET` replies by how much this number went up, and `HDEL` by how much it
went down. This is provided that no `HSET` names a new field twice and no `HDEL`
a stored one, and that there are fewer than `2 ^ 63` arguments in all. -/
theorem hlen_counts_fields {start : Store} {requests : List Request} (short : key.length < 2 ^ 32)
    (run : Runs ctx (HashRequest ctx key) start requests store)
    (absent : ctx.lookupMeta start key = none)
    (few : (requests.map fun request => request.args.length).sum < 2 ^ 63) (env : Env) :
    (∃ fields : List Entry, (fields.map Prod.fst).Nodup ∧
      Request.reply ctx store ⟨.hgetall, [key], env⟩ = .ok (.array (fields.flatMap fun e =>
        [.bulkString (some e.1), .bulkString (some e.2)])) ∧
      fields.length = hashFieldCount ctx store key ∧
      Request.reply ctx store ⟨.hlen, [key], env⟩ = .ok (.integer (Int64.ofNat fields.length))) ∧
    (∀ args, HashRequest ctx key store ⟨.hset, key :: args, env⟩ → 2 ≤ args.length →
      args.length % 2 = 0 →
      (requests.map fun request => request.args.length).sum + (args.length + 1) < 2 ^ 63 →
      ∃ n, Request.reply ctx store ⟨.hset, key :: args, env⟩ = .ok (.integer (Int64.ofNat n)) ∧
        hashFieldCount ctx (Request.after ctx store ⟨.hset, key :: args, env⟩) key =
          hashFieldCount ctx store key + n) ∧
    ∀ args, HashRequest ctx key store ⟨.hdel, key :: args, env⟩ → 1 ≤ args.length →
      args.length < 2 ^ 63 →
      ∃ n, Request.reply ctx store ⟨.hdel, key :: args, env⟩ = .ok (.integer (Int64.ofNat n)) ∧
        hashFieldCount ctx store key =
          hashFieldCount ctx (Request.after ctx store ⟨.hdel, key :: args, env⟩) key + n := by
  have counted := HashCounted.run run absent few
  have loaded : ∃ found, ctx.hashMeta store key = .ok found := by
    rcases counted with missing | ⟨meta', recorded, sized⟩
    · exact ⟨none, hashMeta_of_absent missing⟩
    · exact ⟨some meta', hashMeta_of_recorded recorded sized.proper⟩
  refine ⟨⟨hashFields ctx store key, hashFields_nodup,
    Request.reply_eq_ok ctx (exec_hgetall short loaded), length_hashFields, ?_⟩, ?_, ?_⟩
  · rw [length_hashFields]
    exact Request.reply_eq_ok ctx (exec_hlen ⟨_, counted⟩)
  · intro args allowed some even room
    match args, some with
    | field :: value :: rest, _ =>
      obtain ⟨reply, after, ran, -, n, rfl, increase⟩ :=
        (hset_counted counted allowed.unused (allowed.newOnce rfl) room even).succeeds
      refine ⟨n, Request.reply_eq_ok ctx ran, ?_⟩
      rw [Request.after_eq_of_exec ctx ran]
      exact increase
  · intro args allowed some room
    match args, some with
    | field :: rest, _ =>
      obtain ⟨reply, after, ran, -, n, rfl, decrease⟩ :=
        (hdel_counted counted (allowed.storedOnce rfl) room).succeeds
      refine ⟨n, Request.reply_eq_ok ctx ran, ?_⟩
      rw [Request.after_eq_of_exec ctx ran]
      exact decrease

/-- Overwriting a field and adding another one in the same command. -/
theorem hlen_counts_fields_of_hset :
    let first : Request := ⟨.hset, [ascii "k", ascii "f", ascii "1"], .plain 7⟩
    let store := first.after .plain .empty
    let second : Request :=
      ⟨.hset, [ascii "k", ascii "f", ascii "2", ascii "g", ascii "3", ascii "f", ascii "4"],
        .plain 8⟩
    hashFieldCount .plain store (ascii "k") = 1 ∧
    ∃ n, second.reply .plain store = .ok (.integer (Int64.ofNat n)) ∧
      hashFieldCount .plain (second.after .plain store) (ascii "k") =
        hashFieldCount .plain store (ascii "k") + n := by
  intro first store second
  have unused : Unused .plain (ascii "k") (Env.plain 7).version .empty := fun _ _ _ => rfl
  have run : Runs .plain (HashRequest .plain (ascii "k")) .empty [first] store := by
    refine .next .refl ⟨by decide, rfl, fun _ => unused, fun _ meta' base => ?_, nofun⟩
    cases base
    decide
  have present : CommandContext.plain.lookupMeta store (ascii "k") ≠ none := by decide
  have base : CommandContext.plain.hashBase (.plain 8) store (ascii "k") =
      .ok ⟨buildFlags .hash, 0, (Env.plain 7).version, 1, 0, -1⟩ := by decide
  have allowed : HashRequest .plain (ascii "k") store second := by
    refine ⟨by decide, rfl, fun absent => absurd absent present, fun _ meta' known => ?_, nofun⟩
    obtain rfl := Except.ok.inj (base.symm.trans known)
    decide
  exact ⟨by decide, (hlen_counts_fields (by decide) run rfl (by decide) (.plain 8)).2.1 _
    allowed (by decide) (by decide) (by decide)⟩

/-- `HSET k f 1 f 2` on an absent key replies two and records two fields, of
which there is one. A later `HDEL k f f` replies two as well. -/
theorem hset_counts_field_twice :
    let stored : Request :=
  ⟨.hset, [ascii "k", ascii "f", ascii "1", ascii "f", ascii "2"], .plain 7⟩
    let after := stored.after .plain .empty
    let deleted : Request := ⟨.hdel, [ascii "k", ascii "f", ascii "f"], .plain 8⟩
    stored.reply .plain .empty = .ok (.integer 2) ∧
    hashFieldCount .plain .empty (ascii "k") = 0 ∧
    Request.reply .plain after ⟨.hgetall, [ascii "k"], .plain 8⟩ =
      .ok (.array [.bulkString (some (ascii "f")), .bulkString (some (ascii "2"))]) ∧
    Request.reply .plain after ⟨.hlen, [ascii "k"], .plain 8⟩ = .ok (.integer 2) ∧
    deleted.reply .plain after = .ok (.integer 2) ∧
    hashFieldCount .plain after (ascii "k") = 1 := by
  decide

end Runs

end Kvdb
