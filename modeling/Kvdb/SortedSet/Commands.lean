import Kvdb.Command.Observation
import Kvdb.Command.Writes
import Kvdb.SortedSet.Indexes

/-!
# What the sorted-set commands write

The loops of the commands read members from the store while their own batch is
still pending. This does no harm as long as a member is handled once, because a
change to one member leaves the others as they were read. The specifications
below say which sequence of single-member changes each batch amounts to.
-/

namespace Kvdb

open Data Semantics Cmd

variable {ctx : CommandContext} {key : Bytes} {v : UInt64} {store after : Store} {env : Env}

section Sequences

/-- One if there is a value. -/
def weight (score : Option Bytes) : ℤ := if score.isSome then 1 else 0

@[simp] theorem weight_none : weight none = 0 := rfl

@[simp] theorem weight_some (s : Bytes) : weight (some s) = 1 := rfl

/-- A sequence of single-member changes: the members it touched, and by how much
it changed their number. -/
inductive Rescored (ctx : CommandContext) (key : Bytes) (v : UInt64) :
    List Bytes → ℤ → Store → Store → Prop
  | refl (store : Store) : Rescored ctx key v [] 0 store store
  | step {touched : List Bytes} {change : ℤ} {store middle after : Store} {m : Bytes}
      {score : Option Bytes} (first : Rescored ctx key v touched change store middle)
      (last : MemberSet ctx key v m score middle after)
      (width : ∀ s, score = some s → s.length = 8) :
      Rescored ctx key v (m :: touched)
        (change + weight score - weight (middle.get .subkey (ctx.subKey key v m))) store after

variable {touched : List Bytes} {change : ℤ}

theorem Rescored.indexed (steps : Rescored ctx key v touched change store after)
    (indexed : Indexed ctx key v store) : Indexed ctx key v after := by
  induction steps with
  | refl => exact indexed
  | step _ last width ih => exact (ih indexed).memberSet last width

theorem Rescored.elsewhere (steps : Rescored ctx key v touched change store after) {other : Bytes}
    {w : UInt64} (short : key.length < 2 ^ 32) (short' : other.length < 2 ^ 32)
    (different : ¬ (other = key ∧ w = v)) (indexed : Indexed ctx other w store) :
    Indexed ctx other w after := by
  induction steps with
  | refl => exact indexed
  | step _ last _ ih => exact last.elsewhere short short' different (ih indexed)

theorem Rescored.metadata (steps : Rescored ctx key v touched change store after) (phys : Bytes) :
    after.get .metadata phys = store.get .metadata phys := by
  induction steps with
  | refl => rfl
  | step _ last _ ih => rw [last.metadata, ih]

/-- Members that were not touched are as they were read. -/
theorem Rescored.untouched (steps : Rescored ctx key v touched change store after) {m : Bytes}
    (apart : m ∉ touched) :
    after.get .subkey (ctx.subKey key v m) = store.get .subkey (ctx.subKey key v m) := by
  induction steps with
  | refl => rfl
  | step _ last _ ih =>
    rw [List.mem_cons, not_or] at apart
    rw [last.otherMembers _ (by simpa using apart.1), ih apart.2]

theorem Rescored.count (steps : Rescored ctx key v touched change store after) :
    (elementCount ctx key v after : ℤ) = elementCount ctx key v store + change := by
  induction steps with
  | refl => simp
  | @step _ _ _ middle _ m score _ last _ ih =>
    have counted := last.elementCount
    unfold weight
    split_ifs at counted ⊢ <;> omega

end Sequences

section Loops

theorem ends_get_bind {α : Type} {cf : ColumnFamily} {phys : Bytes} {rest : Option Bytes → Prog α}
    {returns : α → Store → Prop} {fails : Fault → Store → Prop}
    (ends : Program.Ends env.handle (rest (store.get cf phys)) store returns fails) :
    Program.Ends env.handle (Storage.get cf phys >>= rest) store returns fails := ends

/-- What the loop of `ZADD` has done between two of its states: it prepared a
sequence of changes that adds some members, and counted them. -/
def Prepared (ctx : CommandContext) (key : Bytes) (v : UInt64) (store : Store) (change : ℤ)
    (bound : ℕ) (state final : ZaddState) : Prop :=
  ∃ (touched : List Bytes) (n : ℕ),
    Rescored ctx key v touched (change + n) store (store.write final.batch) ∧
    final.added = state.added + Int64.ofNat n ∧
    final.meta' = { state.meta' with size := state.meta'.size + UInt64.ofNat n } ∧ n ≤ bound

theorem zaddLoop_ends (flags : ZaddFlags) (indexed : Indexed ctx key v store)
    (updates : List (Bytes × F64)) (state : ZaddState) {touched : List Bytes} {change : ℤ}
    (version : state.meta'.version = v) (nodup : (updates.map Prod.fst).Nodup)
    (apart : ∀ u ∈ updates, u.1 ∉ touched)
    (steps : Rescored ctx key v touched change store (store.write state.batch)) :
    Program.Ends env.handle (zaddLoop ctx key flags updates state) store
      (fun final after => after = store ∧
        Prepared ctx key v store change updates.length state final)
      (fun _ after => after = store) := by
  induction updates generalizing state touched change with
  | nil =>
    exact Program.ends_pure ⟨rfl, touched, 0, by simpa using steps, by simp, by simp, le_rfl⟩
  | cons update updates ih =>
    obtain ⟨member, score⟩ := update
    subst version
    rw [List.map_cons, List.nodup_cons] at nodup
    have away : ∀ u ∈ updates, u.1 ∉ touched :=
      fun u inside => apart u (List.mem_cons_of_mem _ inside)
    have away' : ∀ u ∈ updates, u.1 ∉ member :: touched := by
      intro u inside
      rw [List.mem_cons, not_or]
      exact ⟨fun same => nodup.1 (List.mem_map.mpr ⟨u, inside, same⟩), away u inside⟩
    -- A skipped member leaves the state as it is.
    have skip : Program.Ends env.handle (zaddLoop ctx key flags updates state) store
        (fun final after => after = store ∧
          Prepared ctx key state.meta'.version store change
            ((member, score) :: updates).length state final)
        (fun _ after => after = store) := by
      refine (ih state rfl nodup.2 away steps).mono ?_ fun _ _ unchanged => unchanged
      rintro final after ⟨unchanged, touched', n, chain, added, record, few⟩
      exact ⟨unchanged, touched', n, chain, added, record, Nat.le_succ_of_le few⟩
    have pending := steps.untouched (apart _ List.mem_cons_self)
    have agreed := steps.indexed indexed
    rw [zaddLoop]
    refine ends_get_bind ?_
    cases found : store.get .subkey (memberSubkey ctx key state.meta'.version member) with
    | some oldBytes =>
      have current : (store.write state.batch).get .subkey
          (ctx.subKey key state.meta'.version member) =
          some oldBytes := pending.trans found
      have eight := (indexed.scored member oldBytes found).1
      have replaced := steps.step (memberSet_replace agreed current score)
        (fun s same => by rw [← Option.some.inj same, length_encodeScore])
      simp only [current, weight_some, add_sub_cancel_right, ← Store.write_append] at replaced
      simp only [scoreOfValue_eq eight, pure_bind]
      split_ifs
      · exact skip
      · exact skip
      · exact skip
      · exact skip
      · refine Program.Ends.mono (ih { state with
            batch := state.batch ++ _, changed := state.changed + 1 } rfl nodup.2 away' replaced)
          ?_ fun _ _ unchanged => unchanged
        rintro final after ⟨unchanged, touched', n, chain, added, record, few⟩
        exact ⟨unchanged, touched', n, chain, added, record, Nat.le_succ_of_le few⟩
    | none =>
      have current : (store.write state.batch).get .subkey
          (ctx.subKey key state.meta'.version member) = none :=
        pending.trans found
      have extended := steps.step (memberSet_putScore agreed current score)
        (fun s same => by rw [← Option.some.inj same, length_encodeScore])
      simp only [current, weight_some, weight_none, sub_zero, ← Store.write_append] at extended
      simp only
      split_ifs
      · exact skip
      · refine Program.Ends.mono (ih ⟨state.batch ++ _, state.added + 1, state.changed + 1,
            { state.meta' with size := state.meta'.size + 1 }⟩ rfl nodup.2 away' extended)
          ?_ fun _ _ unchanged => unchanged
        rintro final after ⟨unchanged, touched', n, chain, added, record, few⟩
        refine ⟨unchanged, touched', n + 1, ?_, ?_, ?_, Nat.succ_le_succ few⟩
        · convert chain using 1
          push_cast
          ring
        · rw [added, int64_add_one_add]
        · rw [record, ← uint64_add_one_add]

/-- The loop of `ZREM` prepares the removal of the members it finds, but counts
every occurrence of them. -/
theorem zremLoop_ends (indexed : Indexed ctx key v store) (members : List Bytes)
    (batch : WriteBatch) (removed : Int64) (meta' : Metadata) {touched : List Bytes} {change : ℤ}
    (version : meta'.version = v)
    (steps : Rescored ctx key v touched change store (store.write batch))
    (gone : ∀ m ∈ touched, (store.write batch).get .subkey (ctx.subKey key v m) = none) :
    let hits := storedNames ctx key v store members
    Program.Ends env.handle (zremLoop ctx key members batch removed meta') store
      (fun result after => after = store ∧
        (∃ touched' change', Rescored ctx key v touched' change' store (store.write result.1) ∧
          (hits.Nodup → hits.Disjoint touched → change' = change - hits.length)) ∧
        result.2.1 = removed + Int64.ofNat hits.length ∧
        ∃ size : UInt64, size.toNat = meta'.size.toNat - hits.length ∧
          result.2.2 = { meta' with size })
      (fun _ _ => False) := by
  intro hits
  induction members generalizing batch removed meta' touched change with
  | nil =>
    refine Program.ends_pure ⟨rfl, ⟨touched, change, steps, ?_⟩, ?_, meta'.size, ?_, rfl⟩
    · simp [hits, storedNames]
    · simp [hits, storedNames]
    · simp [hits, storedNames]
  | cons member members ih =>
    subst version
    rw [zremLoop]
    refine ends_get_bind ?_
    cases found : store.get .subkey (memberSubkey ctx key meta'.version member) with
    | none =>
      have miss : hits = storedNames ctx key meta'.version store members := by
        rw [memberSubkey] at found
        exact (storedNames_cons _ _).trans (if_neg (by simp [found]))
      rw [miss]
      exact ih batch removed meta' rfl steps gone
    | some oldBytes =>
      have eight := (indexed.scored member oldBytes found).1
      have agreed := steps.indexed indexed
      have hit : hits = member :: storedNames ctx key meta'.version store members := by
        rw [memberSubkey] at found
        exact (storedNames_cons _ _).trans (if_pos (by simp [found]))
      simp only [scoreOfValue_eq eight, pure_bind]
      rw [hit]
      -- A member that is named twice counts twice, as the loop reads what was stored before.
      by_cases repeated : member ∈ touched
      · have idle := write_remove_absent agreed (gone member repeated) eight
        rw [← Store.write_append] at idle
        refine Program.Ends.mono (ih _ (removed + 1) { meta' with size := _ } rfl
          (idle.symm ▸ steps) (idle.symm ▸ gone)) ?_ fun _ _ impossible => impossible
        rintro result after ⟨unchanged, ⟨touched', change', chain, -⟩, counted, size, sized, record⟩
        refine ⟨unchanged, ⟨touched', change', chain, ?_⟩, ?_, size, ?_, record⟩
        · intro _ disjoint
          exact absurd repeated (disjoint List.mem_cons_self)
        · rw [counted, int64_add_one_add, List.length_cons]
        · rw [sized, toNat_saturatingSub, UInt64.toNat_one, List.length_cons]
          omega
      · have current : (store.write batch).get .subkey (ctx.subKey key meta'.version member) =
            some oldBytes := (steps.untouched repeated).trans found
        have removal := memberSet_remove agreed current
        have chained := steps.step removal (by simp)
        simp only [current, weight_some, weight_none, add_zero] at chained
        rw [← Store.write_append] at chained removal
        refine Program.Ends.mono (ih _ (removed + 1) { meta' with size := _ } rfl chained ?_)
          ?_ fun _ _ impossible => impossible
        · intro m inside
          by_cases same : m = member
          · rw [same, removal.member]
          · rw [removal.otherMembers _ (by simpa using same)]
            exact gone m ((List.mem_cons.mp inside).resolve_left same)
        rintro result after
          ⟨unchanged, ⟨touched', change', chain, tally⟩, counted, size, sized, record⟩
        refine ⟨unchanged, ⟨touched', change', chain, ?_⟩, ?_, size, ?_, record⟩
        · intro nodup disjoint
          rw [List.nodup_cons] at nodup
          rw [tally nodup.2, List.length_cons]
          · push_cast
            ring
          · intro m inside touched
            rcases List.mem_cons.mp touched with rfl | touched
            · exact nodup.1 inside
            · exact disjoint (List.mem_cons_of_mem _ inside) touched
        · rw [counted, int64_add_one_add, List.length_cons]
        · rw [sized, toNat_saturatingSub, UInt64.toNat_one, List.length_cons]
          omega

end Loops

section Loader

/-- The live sorted set of a key, as its loader finds it. -/
def CommandContext.zsetMeta (ctx : CommandContext) (env : Env) (store : Store) (key : Bytes) :
    Except Fault (Option Metadata) :=
  match ctx.lookupMeta store key with
  | none => .ok none
  | some value => judgeZset value env.nowMs

/-- The sorted set a writing command works on: the live one or a new one. -/
def CommandContext.zsetBase (ctx : CommandContext) (env : Env) (store : Store) (key : Bytes) :
    Except Fault Metadata :=
  (ctx.zsetMeta env store key).map fun found => found.getD (Metadata.new .zset env.version)

theorem exec_readZsetMeta :
    exec env (readZsetMeta ctx key) store = (ctx.zsetMeta env store key, store) := by
  rw [judges_readZsetMeta, CommandContext.zsetMeta]
  cases ctx.lookupMeta store key <;> rfl

theorem exec_ensureZsetMeta :
    exec env (ensureZsetMeta ctx key) store = (ctx.zsetBase env store key, store) := by
  rw [ensureZsetMeta, exec_bind, exec_readZsetMeta, CommandContext.zsetBase]
  rcases ctx.zsetMeta env store key with _ | (_ | _) <;> rfl

/-- The loader returns sorted sets only. -/
theorem zsetMeta_dataType {meta' : Metadata}
    (loaded : ctx.zsetMeta env store key = .ok (some meta')) :
    meta'.dataType = some .zset ∧ meta'.Normal := by
  unfold CommandContext.zsetMeta at loaded
  cases found : ctx.lookupMeta store key with
  | none => simp [found] at loaded
  | some value =>
    simp only [found] at loaded
    obtain ⟨decoded, type, -⟩ := judgeZset_eq_some loaded
    exact ⟨type, (decodeMetadata_eq_some decoded).2.2.2.1⟩

theorem zsetBase_dataType {meta' : Metadata} (base : ctx.zsetBase env store key = .ok meta') :
    meta'.dataType = some .zset ∧ meta'.Normal := by
  unfold CommandContext.zsetBase at base
  rcases loaded : ctx.zsetMeta env store key with _ | (_ | record)
  · simp [loaded, Except.map] at base
  · simp only [loaded, Except.map, Option.getD_none, Except.ok.injEq] at base
    subst base
    exact ⟨Metadata.new_dataType .zset _, Metadata.new_normal _ _⟩
  · simp only [loaded, Except.map, Option.getD_some, Except.ok.injEq] at base
    subst base
    exact zsetMeta_dataType loaded

end Loader

section Writes

variable {meta' : Metadata}

/-- A write of a sorted-set command: changes of members, and then the metadata
with a new size. -/
def ZsetWrote (ctx : CommandContext) (key : Bytes) (meta' : Metadata) (change : ℤ) (size : UInt64)
    (store after : Store) : Prop :=
  ∃ touched middle, Rescored ctx key meta'.version touched change store middle ∧
    after = middle.apply (.put .metadata (ctx.metaKey key) (encodeMetadata { meta' with size }))

/-- A write that adds some members, at most a given number, and counts them. -/
def ZsetGrew (ctx : CommandContext) (key : Bytes) (meta' : Metadata) (bound : ℕ)
    (store after : Store) : Prop :=
  ∃ n ≤ bound, ZsetWrote ctx key meta' n (meta'.size + UInt64.ofNat n) store after

private theorem length_zaddOptions (args : List Bytes) (flags : ZaddFlags) :
    (zaddOptions args flags).2.length ≤ args.length := by
  fun_induction zaddOptions args flags with
  | case1 => exact le_rfl
  | case8 => exact le_rfl
  | case2 _ _ _ _ ih | case3 _ _ _ _ _ ih | case4 _ _ _ _ _ _ ih | case5 _ _ _ _ _ _ _ ih
  | case6 _ _ _ _ _ _ _ _ ih | case7 _ _ _ _ _ _ _ _ _ ih => exact Nat.le_succ_of_le ih

theorem parseZaddFlags_respects (args : List Bytes) :
    (parseZaddFlags args).Respects (fun op => ∀ batch, op ≠ Effect.write batch)
      fun parsed => parsed.2.length ≤ args.length := by
  unfold parseZaddFlags
  dsimp only
  split_ifs
  · exact Program.respects_fail _
  · exact Program.respects_fail _
  · exact Program.respects_fail _
  · exact Program.respects_pure (length_zaddOptions _ _)

private theorem map_fst_insertUpdate (member : Bytes) (score : F64) (updates : List (Bytes × F64)) :
    (insertUpdate member score updates).map Prod.fst =
      if member ∈ updates.map Prod.fst then updates.map Prod.fst
      else updates.map Prod.fst ++ [member] := by
  induction updates with
  | nil => simp [insertUpdate]
  | cons update updates ih =>
    obtain ⟨m, s⟩ := update
    by_cases same : m = member
    · simp [insertUpdate, same]
    · have other : member ≠ m := Ne.symm same
      rw [insertUpdate, if_neg same, List.map_cons, ih]
      by_cases inside : member ∈ updates.map Prod.fst
      · simp only [List.map_cons, List.mem_cons, inside, or_true, if_true]
      · simp only [List.map_cons, List.mem_cons, inside, other, or_false, if_false,
          List.cons_append]

/-- The updates of `ZADD` name each member once. -/
theorem zaddUpdates_respects (args : List Bytes) (updates : List (Bytes × F64))
    (nodup : (updates.map Prod.fst).Nodup) :
    (zaddUpdates ctx args updates).Respects (fun op => ∀ batch, op ≠ Effect.write batch)
      fun result => (result.map Prod.fst).Nodup ∧ result.length ≤ updates.length + args.length := by
  fun_induction zaddUpdates ctx args updates with
  | case1 scoreArg member rest updates ih =>
    refine Program.Respects.bind (viewed_parseScore scoreArg).readOnly fun score _ => ?_
    have fresh : ((insertUpdate member score updates).map Prod.fst).Nodup := by
      rw [map_fst_insertUpdate]
      split_ifs with inside
      · exact nodup
      · exact nodup.append (List.nodup_singleton _) (by simpa using inside)
    have grown : (insertUpdate member score updates).length ≤ updates.length + 1 := by
      have names := congrArg List.length (map_fst_insertUpdate member score updates)
      split_ifs at names <;> simp only [List.length_map, List.length_append,
        List.length_singleton] at names <;> omega
    refine (ih score fresh).mono (fun _ reads => reads) fun result kept => ⟨kept.1, ?_⟩
    simp only [List.length_cons]
    have few := kept.2
    omega
  | case2 args updates => exact Program.respects_pure ⟨nodup, Nat.le_add_right _ _⟩

theorem exec_zaddOrder (updates : List (Bytes × F64)) :
    exec env (zaddOrder updates) store =
      (.ok ((env.hashOrder (updates.map Prod.fst)).filterMap fun member =>
        (updates.lookup member).map fun score => (member, score)), store) := rfl

/-- The order of the hash table keeps the members apart. -/
theorem nodup_zaddOrder (env : Env) {updates : List (Bytes × F64)}
    (nodup : (updates.map Prod.fst).Nodup) :
    let ordered := (env.hashOrder (updates.map Prod.fst)).filterMap fun member =>
      (updates.lookup member).map fun score => (member, score)
    (ordered.map Prod.fst).Nodup ∧ ordered.length ≤ updates.length := by
  have perm := env.hashOrder_perm (updates.map Prod.fst)
  have names : ∀ members : List Bytes, ((members.filterMap fun member =>
      (updates.lookup member).map fun score => (member, score)).map Prod.fst).Sublist members := by
    intro members
    induction members with
    | nil => exact .slnil
    | cons member members ih =>
      rw [List.filterMap_cons]
      cases updates.lookup member with
      | none => exact ih.cons member
      | some score => exact ih.cons_cons member
  refine ⟨(perm.nodup_iff.mpr nodup).sublist (names _), ?_⟩
  have length := (names (env.hashOrder (updates.map Prod.fst))).length_le
  rwa [List.length_map, perm.length_eq, List.length_map] at length

private theorem rescored_replace (indexed : Indexed ctx key v store) {m old : Bytes}
    (stored : store.get .subkey (ctx.subKey key v m) = some old) (new : F64) :
    Rescored ctx key v [m] 0 store
      (store.write (.delete .zsetScore (scoreSubkey ctx key v (decodeScore old) m) ::
        putScore ctx key v new m)) := by
  have steps := (Rescored.refl store).step (memberSet_replace indexed stored new)
    (fun s same => by rw [← Option.some.inj same, length_encodeScore])
  simpa only [stored, weight_some, zero_add, sub_self] using steps

private theorem rescored_add (indexed : Indexed ctx key v store) {m : Bytes}
    (absent : store.get .subkey (ctx.subKey key v m) = none) (new : F64) :
    Rescored ctx key v [m] 1 store (store.write (putScore ctx key v new m)) := by
  have steps := (Rescored.refl store).step (memberSet_putScore indexed absent new)
    (fun s same => by rw [← Option.some.inj same, length_encodeScore])
  simpa only [absent, weight_some, weight_none, zero_add, sub_zero] using steps

/-- Replacing the score of one member writes back the metadata as it was. -/
private theorem zsetGrew_replace (indexed : Indexed ctx key meta'.version store) {m old : Bytes}
    (stored : store.get .subkey (ctx.subKey key meta'.version m) = some old) (new : F64) :
    ZsetGrew ctx key meta' 1 store
      (store.write (.delete .zsetScore
          (scoreSubkey ctx key meta'.version (decodeScore old) m) ::
        putScore ctx key meta'.version new m ++
        [.put .metadata (ctx.metaKey key) (encodeMetadata meta')])) := by
  refine ⟨0, Nat.zero_le 1, [m], _, rescored_replace indexed stored new, ?_⟩
  rw [Store.write_append]
  simp

/-- Adding one member counts it. -/
private theorem zsetGrew_add (indexed : Indexed ctx key meta'.version store) {m : Bytes}
    (absent : store.get .subkey (ctx.subKey key meta'.version m) = none) (new : F64) :
    ZsetGrew ctx key meta' 1 store
      (store.write (putScore ctx key meta'.version new m ++
        [.put .metadata (ctx.metaKey key)
          (encodeMetadata { meta' with size := meta'.size + 1 })])) := by
  refine ⟨1, le_rfl, [m], _, rescored_add indexed absent new, ?_⟩
  rw [Store.write_append]
  rfl

theorem zaddIncr_ends (flags : ZaddFlags) (scoreArg member : Bytes)
    (indexed : Indexed ctx key meta'.version store) :
    Program.Ends env.handle (zaddIncr ctx key flags meta' scoreArg member) store
      (fun _ after => after = store ∨ ZsetGrew ctx key meta' 1 store after)
      (fun _ after => after = store) := by
  rw [zaddIncr]
  refine (viewed_parseScore scoreArg).readOnly.ends_bind (fun _ => rfl) fun score _ =>
    ends_get_bind ?_
  split_ifs
  · exact Program.ends_pure (.inl rfl)
  · exact Program.ends_pure (.inl rfl)
  · cases found : store.get .subkey (memberSubkey ctx key meta'.version member) with
    | some oldBytes =>
      simp only [scoreOfValue_eq (indexed.scored member oldBytes found).1, pure_bind]
      split_ifs
      · exact Program.ends_pure (.inl rfl)
      · exact Program.ends_pure (.inl rfl)
      · exact .inr (zsetGrew_replace indexed found _)
      · exact Program.ends_fail rfl
    | none => exact .inr (zsetGrew_add indexed found score)

theorem zincrby_ends (key : Bytes) (args : List Bytes)
    (indexed : ∀ meta', ctx.zsetBase env store key = .ok meta' →
      Indexed ctx key meta'.version store) :
    Program.Ends env.handle (zincrby ctx (key :: args)) store
      (fun _ after => ∃ meta', ctx.zsetBase env store key = .ok meta' ∧
        ZsetGrew ctx key meta' 1 store after)
      (fun _ after => after = store) := by
  match args with
  | [] => exact Program.ends_fail rfl
  | [_] => exact Program.ends_fail rfl
  | _ :: _ :: _ :: _ => exact Program.ends_fail rfl
  | [incrementArg, member] =>
    rw [zincrby]
    refine (viewed_parseScore incrementArg).readOnly.ends_bind (fun _ => rfl) fun increment _ => ?_
    refine Program.Ends.bind (Program.Ends.of_run exec_ensureZsetMeta ?_ fun _ _ => rfl)
    intro meta' base
    refine ends_get_bind ?_
    cases found : store.get .subkey (memberSubkey ctx key meta'.version member) with
    | some oldBytes =>
      simp only [scoreOfValue_eq ((indexed _ base).scored member oldBytes found).1, pure_bind]
      split_ifs
      · exact ⟨meta', base, zsetGrew_replace (indexed _ base) found _⟩
      · exact Program.ends_fail rfl
    | none => exact ⟨meta', base, zsetGrew_add (indexed _ base) found increment⟩

/-- `ZADD` adds at most as many members as it has arguments. -/
theorem zadd_ends (key : Bytes) (args : List Bytes)
    (indexed : ∀ meta', ctx.zsetBase env store key = .ok meta' →
      Indexed ctx key meta'.version store) :
    Program.Ends env.handle (Cmd.zadd ctx (key :: args)) store
      (fun _ after => after = store ∨ ∃ meta', ctx.zsetBase env store key = .ok meta' ∧
        ZsetGrew ctx key meta' args.length store after)
      (fun _ after => after = store) := by
  match args with
  | [] => exact Program.ends_fail rfl
  | [_] => exact Program.ends_fail rfl
  | arg :: arg' :: args =>
    rw [Cmd.zadd]
    have flagsFirst := parseZaddFlags_respects (arg :: arg' :: args)
    refine ReadOnly.ends_bind (flagsFirst.mono (fun _ reads => reads) fun _ _ => trivial)
      (fun _ => rfl) fun parsed known => ?_
    obtain ⟨flags, pairs⟩ := parsed
    have few : pairs.length ≤ (arg :: arg' :: args).length := flagsFirst.run_value known
    dsimp only
    by_cases odd : pairs = [] ∨ pairs.length % 2 ≠ 0
    · rw [if_pos odd]
      exact Program.ends_fail rfl
    by_cases single : flags.incr ∧ pairs.length ≠ 2
    · rw [if_neg odd, if_pos single]
      exact Program.ends_fail rfl
    rw [if_neg odd, if_neg single]
    refine Program.Ends.bind (Program.Ends.of_run exec_ensureZsetMeta ?_ fun _ _ => rfl)
    intro meta' base
    by_cases incr : flags.incr
    · rw [if_pos incr]
      match pairs with
      | [scoreArg, member] =>
        refine (zaddIncr_ends flags scoreArg member (indexed _ base)).mono ?_ fun _ _ same => same
        rintro _ after (unchanged | ⟨n, one, wrote⟩)
        · exact .inl unchanged
        · exact .inr ⟨meta', base, n, one.trans (Nat.succ_le_succ (Nat.zero_le _)), wrote⟩
      | [] | [_] | _ :: _ :: _ :: _ => exact Program.ends_fail rfl
    · rw [if_neg incr]
      have updatesFirst := @zaddUpdates_respects ctx pairs [] List.nodup_nil
      refine ReadOnly.ends_bind (updatesFirst.mono (fun _ reads => reads) fun _ _ => trivial)
        (fun _ => rfl) fun updates updated => ?_
      obtain ⟨nodup, bound⟩ := updatesFirst.run_value updated
      -- The pairs are written in the order of a hash map, which has every member once.
      obtain ⟨nodup', bound'⟩ := nodup_zaddOrder env nodup
      refine Program.Ends.bind (Program.Ends.of_run (exec_zaddOrder updates) ?_ fun _ _ => rfl)
      rintro _ ⟨⟩
      refine Program.Ends.bind (Program.Ends.mono (zaddLoop_ends flags (indexed _ base) _
        ⟨[], 0, 0, meta'⟩ rfl nodup' (by simp) (Rescored.refl store)) ?_ fun _ _ same => same)
      rintro final _ ⟨rfl, touched, n, chain, -, record, short⟩
      refine .inr ⟨meta', base, n, ?_, touched, _, by simpa using chain, ?_⟩
      · simp only [List.length_nil] at bound
        omega
      · rw [← record]
        exact Store.write_append ..

/-- `ZREM` removes the members it finds, but counts every occurrence of them. -/
theorem zrem_ends (key member : Bytes) (rest : List Bytes)
    (indexed : ∀ meta', ctx.zsetMeta env store key = .ok (some meta') →
      Indexed ctx key meta'.version store) :
    Program.Ends env.handle (Cmd.zrem ctx (key :: member :: rest)) store
      (fun reply after =>
        (ctx.zsetMeta env store key = .ok none ∧ reply = .integer 0 ∧ after = store) ∨
        ∃ meta', ctx.zsetMeta env store key = .ok (some meta') ∧
          let hits := storedNames ctx key meta'.version store (member :: rest)
          reply = .integer (Int64.ofNat hits.length) ∧
          if 0 < Int64.ofNat hits.length then
            ∃ change size, ZsetWrote ctx key meta' change size store after ∧
              (hits.Nodup → change = -hits.length) ∧ size.toNat = meta'.size.toNat - hits.length
          else after = store)
      (fun fault after => ctx.zsetMeta env store key = .error fault ∧ after = store) := by
  rw [Cmd.zrem]
  refine Program.Ends.bind (Program.Ends.of_run exec_readZsetMeta ?_ fun _ failed => ⟨failed, rfl⟩)
  rintro (_ | meta') loaded
  · exact Program.ends_pure (.inl ⟨loaded, rfl, rfl⟩)
  refine Program.Ends.bind
    (Program.Ends.mono (zremLoop_ends (indexed _ loaded) (member :: rest) [] 0 meta'
    rfl (Rescored.refl store) (by simp)) ?_ fun _ _ => False.elim)
  rintro ⟨batch, removed, meta''⟩ _
    ⟨rfl, ⟨touched, change, chain, tally⟩, counted, size, sized, rfl⟩
  simp only at counted chain tally
  rw [Int64.zero_add] at counted
  subst counted
  dsimp only
  split_ifs with positive
  · refine .inr ⟨meta', loaded, rfl, ?_⟩
    rw [if_pos positive]
    refine ⟨change, size, ⟨touched, _, chain, Store.write_append ..⟩, fun nodup => ?_, sized⟩
    rw [tally nodup (by simp), zero_sub]
  · refine Program.ends_pure (.inr ⟨meta', loaded, rfl, ?_⟩)
    rw [if_neg positive]

end Writes

end Kvdb
