import Kvdb.Command.Reading
import Kvdb.SetMembers

/-!
# Intersections, differences and unions of sets

`SINTER` and `SDIFF` walk over the members of one set and look each up in the others,
`SUNION` walks over the members of all sets and collects those it has not met yet. A walk
that meets another member when there are as many as the limit gives up, also when it has
met this one before.
-/

namespace Kvdb

open Data Semantics Cmd

section Collecting

variable {α : Type} [DecidableEq α] {limit : ℕ} {items seen : List α}

/-- Collect what was not seen yet, and give up at an item that is met when there are as
many as the limit. -/
def collect (limit : ℕ) : List α → List α → Option (List α)
  | [], seen => some seen
  | item :: rest, seen =>
    if limit ≤ seen.length then none
    else collect limit rest (if item ∈ seen then seen else seen ++ [item])

theorem collect_append (items more seen : List α) :
    collect limit (items ++ more) seen = (collect limit items seen).bind (collect limit more) := by
  induction items generalizing seen with
  | nil => rfl
  | cons item items ih =>
    rw [List.cons_append, collect, collect]
    by_cases full : limit ≤ seen.length
    · rw [if_pos full, if_pos full]
      rfl
    · rw [if_neg full, if_neg full]
      exact ih _

private theorem toFinset_seen (item : α) (seen : List α) :
    (if item ∈ seen then seen else seen ++ [item]).toFinset = insert item seen.toFinset := by
  split_ifs with old
  · rw [Finset.insert_eq_of_mem (List.mem_toFinset.mpr old)]
  · rw [List.toFinset_append, Finset.union_comm, Finset.insert_eq]
    rfl

private theorem nodup_seen (item : α) (nodup : seen.Nodup) :
    (if item ∈ seen then seen else seen ++ [item]).Nodup := by
  split_ifs with old
  · exact nodup
  · exact nodup.append (List.nodup_singleton item) (by simpa using old)

/-- What is collected has every item once. -/
theorem collect_eq_some (nodup : seen.Nodup) {all : List α}
    (collected : collect limit items seen = some all) :
    all.Nodup ∧ all.toFinset = seen.toFinset ∪ items.toFinset := by
  induction items generalizing seen with
  | nil =>
    cases collected
    exact ⟨nodup, (Finset.union_empty _).symm⟩
  | cons item items ih =>
    rw [collect] at collected
    have room : ¬ limit ≤ seen.length := fun full => by simp [full] at collected
    rw [if_neg room] at collected
    obtain ⟨once, same⟩ := ih (nodup_seen item nodup) collected
    refine ⟨once, ?_⟩
    rw [same, toFinset_seen, List.toFinset_cons, Finset.insert_union, Finset.union_insert]

/-- The walk gives up if there are as many as the limit before its last item. -/
theorem collect_eq_none_iff (nodup : seen.Nodup) :
    collect limit items seen = none ↔
      items ≠ [] ∧ limit ≤ (seen.toFinset ∪ items.dropLast.toFinset).card := by
  induction items generalizing seen with
  | nil => simp [collect]
  | cons item items ih =>
    have counted : seen.toFinset.card = seen.length := List.toFinset_card_of_nodup nodup
    rw [collect]
    by_cases full : limit ≤ seen.length
    · rw [if_pos full]
      refine iff_of_true rfl ⟨List.cons_ne_nil _ _, ?_⟩
      rw [← counted] at full
      exact full.trans (Finset.card_le_card Finset.subset_union_left)
    rw [if_neg full, ih (nodup_seen item nodup), toFinset_seen]
    cases items with
    | nil => simp [counted, full]
    | cons next items =>
      rw [List.dropLast_cons_cons, List.toFinset_cons, Finset.insert_union, Finset.union_insert]
      simp

end Collecting

section Walks

variable {ctx : CommandContext} {key : Bytes} {v : UInt64} {store : Store} {env : Env} {m : Bytes}

/-- The members of one version of a set, in the order of their bytes. -/
def storedMembers (ctx : CommandContext) (key : Bytes) (v : UInt64) (store : Store) : List Bytes :=
  (elements ctx .subkey key v store).map Prod.fst

theorem mem_storedMembers :
    m ∈ storedMembers ctx key v store ↔ isMember ctx key v store m = true := by
  rw [storedMembers, isMember, Option.isSome_iff_exists, List.mem_map]
  constructor
  · rintro ⟨⟨_, value⟩, inside, rfl⟩
    exact ⟨value, mem_elements.mp inside⟩
  · rintro ⟨value, stored⟩
    exact ⟨(m, value), mem_elements.mpr stored, rfl⟩

def memberEntry (ctx : CommandContext) (key : Bytes) (v : UInt64) (e : Entry) : Bytes :=
  e.1.drop (ctx.subKey key v []).length

/-- A page of a set has the members in its entries. -/
theorem exec_iterMembersPage (short : key.length < 2 ^ 32) {start : Bytes} {rest : List Entry}
    (position : Position store .subkey (ctx.subKey key v []) start rest) :
    exec env (iterMembersPage ctx key v start) store =
      (.ok ((pageOf setOpsChunkSize rest).1.map (memberEntry ctx key v),
        (pageOf setOpsChunkSize rest).2), store) := by
  have parsed : ∀ e ∈ (pageOf setOpsChunkSize rest).1,
      ctx.parseSubkey e.1 = some (key, v, memberEntry ctx key v e) := by
    intro e inside
    obtain ⟨sub, same⟩ :=
      ctx.subKey_prefix_iff.mp (position.startsWith (List.mem_of_mem_take inside))
    rw [memberEntry, same, ctx.parseSubkey_subKey _ _ short, drop_subKey]
  rw [iterMembersPage, exec_bind_ok (exec_prefixScanPage position (by decide) (by decide))]
  refine congrArg (fun members => (Except.ok (members, (pageOf setOpsChunkSize rest).2), store)) ?_
  rw [← List.filterMap_eq_map]
  refine List.filterMap_congr fun e inside => ?_
  simp [parsed e inside]

/-- A walk over a set meets every member. -/
theorem exec_forEachPage_members {β : Type} {body : β → Bytes → Prog (ForInStep β)}
    (short : key.length < 2 ^ 32)
    (readonly : ∀ acc member, (exec env (body acc member) store).2 = store) (acc : β) :
    exec env (forEachPage .subkey (iterMembersPage ctx key v) acc body) store =
      exec env (forEach body (storedMembers ctx key v store) acc >>= ForInStep.settle) store := by
  have met : (store.behind .subkey (ctx.subKey key v [])).map (memberEntry ctx key v) =
      storedMembers ctx key v store := by
    rw [behind_eq_elements, List.map_map, storedMembers]
    exact List.map_congr_left fun e _ => drop_subKey e.1
  rw [exec_forEachPage (fun _ _ position => exec_iterMembersPage short position)
    readonly (by decide)
    (.inl (ctx.subKey_ne_nil _ _ _)), met]

/-- A walk that tests its members selects those that pass. -/
theorem exec_selectMembers (short : key.length < 2 ^ 32) {test : Bytes → Prog Bool}
    {passes : Bytes → Bool} (tests : ∀ m, exec env (test m) store = (.ok (passes m), store)) :
    exec env (selectMembers ctx key v test) store =
      (.ok (((storedMembers ctx key v store).filter passes).map fun m => .bulkString (some m)),
        store) := by
  have turn : ∀ (result : List RespValue) (m : Bytes), exec env (do
      if ← test m then return ForInStep.yield (result ++ [.bulkString (some m)])
      else return .yield result) store =
      (.ok (.yield (if passes m then result ++ [.bulkString (some m)] else result)), store) := by
    intro result m
    rw [exec_bind_ok (tests m)]
    cases passes m <;> rfl
  rw [selectMembers, exec_forEachPage_members short fun result m => by rw [turn]]
  exact exec_forEach_select turn _ []

theorem exec_inAll (others : List (Bytes × UInt64)) :
    exec env (Cmd.inAll ctx m others) store =
      (.ok (others.all fun other => isMember ctx other.1 other.2 store m), store) := by
  induction others with
  | nil => rfl
  | cons other others ih =>
    rw [Cmd.inAll, memberExists, bind_assoc, exec_get_bind, List.all_cons, exec_pure_bind]
    change exec env (if isMember ctx other.1 other.2 store m = true then _ else _) store = _
    cases isMember ctx other.1 other.2 store m with
    | true => exact ih
    | false => rfl

theorem exec_inAny (others : List (Bytes × UInt64)) :
    exec env (Cmd.inAny ctx m others) store =
      (.ok (others.any fun other => isMember ctx other.1 other.2 store m), store) := by
  induction others with
  | nil => rfl
  | cons other others ih =>
    rw [Cmd.inAny, memberExists, bind_assoc, exec_get_bind, List.any_cons, exec_pure_bind]
    change exec env (if isMember ctx other.1 other.2 store m = true then _ else _) store = _
    cases isMember ctx other.1 other.2 store m with
    | true => rfl
    | false => exact ih

end Walks

section Lookups

variable {ctx : CommandContext} {key : Bytes} {store : Store} {env : Env} {m : Bytes}
  {meta' : Metadata}

/-- The live set of a key, as its loader finds it. -/
def CommandContext.setMeta (ctx : CommandContext) (env : Env) (store : Store) (key : Bytes) :
    Except Fault (Option Metadata) :=
  ctx.liveMeta env store .set "invalid set metadata" key

theorem exec_readSetMetadata :
    exec env (readSetMetadata ctx key) store = (ctx.setMeta env store key, store) :=
  exec_loadLiveMeta

/-- The key is absent or holds a set. An expired set counts as absent. -/
def CommandContext.isSetOrAbsent (ctx : CommandContext) (env : Env) (store : Store) (key : Bytes) :
    Bool :=
  match ctx.setMeta env store key with
  | .ok _ => true
  | .error _ => false

def CommandContext.isSet (ctx : CommandContext) (env : Env) (store : Store) (key : Bytes) : Bool :=
  match ctx.setMeta env store key with
  | .ok (some _) => true
  | _ => false

theorem isSetOrAbsent_iff :
    ctx.isSetOrAbsent env store key = true ↔ ∃ found, ctx.setMeta env store key = .ok found := by
  unfold CommandContext.isSetOrAbsent
  cases ctx.setMeta env store key <;> simp

theorem isSet_iff : ctx.isSet env store key = true ↔ ∃ meta', ctx.setMeta env store key = .ok
    (some meta') := by
  unfold CommandContext.isSet
  rcases ctx.setMeta env store key with _ | (_ | _) <;> simp

def membersOf (ctx : CommandContext) (env : Env) (store : Store) (key : Bytes) : List Bytes :=
  match ctx.setMeta env store key with
  | .ok (some meta') => storedMembers ctx key meta'.version store
  | _ => []

theorem membersOf_of_some (found : ctx.setMeta env store key = .ok (some meta')) :
    membersOf ctx env store key = storedMembers ctx key meta'.version store := by
  rw [membersOf, found]

theorem membersOf_of_not_set (other : ctx.isSet env store key = false) :
    membersOf ctx env store key = [] := by
  rcases looked : ctx.setMeta env store key with _ | (_ | meta')
  · rw [membersOf, looked]
  · rw [membersOf, looked]
  · rw [isSet_iff.mpr ⟨meta', looked⟩] at other
    cases other

theorem storedMembers_nodup (ctx : CommandContext) (key : Bytes) (v : UInt64) (store : Store) :
    (storedMembers ctx key v store).Nodup := elements_nodup ..

/-- What the loader reports of a key that is neither absent nor a set. -/
theorem setMeta_error {fault : Fault} (failed : ctx.setMeta env store key = .error fault) :
    fault = wrongTypeError ∨ fault = .error (.protocol "empty metadata value") ∨
      fault = .error (.protocol "invalid set metadata") := by
  unfold CommandContext.setMeta CommandContext.liveMeta at failed
  cases found : ctx.lookupMeta store key with
  | none => simp [found] at failed
  | some value =>
    simp only [found] at failed
    cases checked : checkMetadata .set "invalid set metadata" value with
    | ok meta' => simp [checked, Except.map] at failed
    | error fault' =>
      rw [checked] at failed
      cases failed
      unfold checkMetadata at checked
      split_ifs at checked
      · cases checked
        exact .inr (.inl rfl)
      · cases checked
        exact .inl rfl
      · cases decoded : decodeMetadata value with
        | none =>
          rw [decoded] at checked
          cases checked
          exact .inr (.inr rfl)
        | some meta' =>
          simp only [decoded] at checked
          split_ifs at checked
          cases checked
          exact .inl rfl

end Lookups

section Intersection

variable {ctx : CommandContext} {key : Bytes} {store : Store} {env : Env}
  {before rest keys : List Bytes}

/-- The loop of `SINTER` over its keys goes on as long as they are sets. -/
theorem exec_loadAll_append (live : ∀ key ∈ before, ctx.isSet env store key = true)
    (rest : List Bytes) :
    ∃ metas : List (Bytes × Metadata), metas.map Prod.fst = before ∧
      (∀ p ∈ metas, ctx.setMeta env store p.1 = .ok (some p.2)) ∧
      ∀ (result : Except Fault (Option (List (Bytes × Metadata)))),
        exec env (loadAll ctx rest) store = (result, store) →
        exec env (loadAll ctx (before ++ rest)) store =
          (result.map fun found => found.map fun more => metas ++ more, store) := by
  induction before with
  | nil =>
    refine ⟨[], rfl, by simp, fun result ran => ?_⟩
    rw [List.nil_append, ran]
    rcases result with _ | (_ | _) <;> rfl
  | cons key before ih =>
    obtain ⟨meta', found⟩ := isSet_iff.mp (live key List.mem_cons_self)
    obtain ⟨metas, names, loaded, ran⟩ :=
      ih fun key inside => live key (List.mem_cons_of_mem _ inside)
    refine ⟨(key, meta') :: metas, by rw [List.map_cons, names], ?_, fun result more => ?_⟩
    · intro p inside
      rcases List.mem_cons.mp inside with rfl | inside
      · exact found
      · exact loaded p inside
    · rw [List.cons_append, loadAll, exec_bind_ok (exec_readSetMetadata.trans (by rw [found]))]
      dsimp only
      rw [exec_bind, ran result more]
      rcases result with _ | (_ | _) <;> rfl

/-- `SINTER` of sets replies what they have in common. -/
theorem exec_sinter_of_sets (named : keys ≠ []) (short : ∀ key ∈ keys, key.length < 2 ^ 32)
    (live : ∀ key ∈ keys, ctx.isSet env store key = true) :
    ∃ items : List Bytes, exec env (Cmd.sinter ctx keys) store =
        (.ok (.array (items.map fun m => .bulkString (some m))), store) ∧
      items.Nodup ∧ ∀ m, m ∈ items ↔ ∀ key ∈ keys, m ∈ membersOf ctx env store key := by
  obtain ⟨metas, names, loaded, ran⟩ := exec_loadAll_append live []
  have all : exec env (loadAll ctx keys) store = (.ok (some metas), store) := by
    rw [← List.append_nil keys, ran (.ok (some [])) rfl]
    simp [Except.map]
  -- The base is one of the sets, and the others are the rest of them.
  have perm := sortBySize_perm metas
  cases sorted : sortBySize metas with
  | nil =>
    rw [sorted] at perm
    rw [← names, List.nil_perm.mp perm] at named
    exact absurd rfl named
  | cons base others =>
    rw [sorted] at perm
    have listed : ∀ key, key ∈ keys ↔ key = base.1 ∨ key ∈ others.map Prod.fst := by
      intro key
      rw [← names, ← (perm.map Prod.fst).mem_iff, List.map_cons, List.mem_cons]
    have found : ctx.setMeta env store base.1 = .ok (some base.2) :=
      loaded base (perm.mem_iff.mp List.mem_cons_self)
    refine ⟨(storedMembers ctx base.1 base.2.version store).filter fun m =>
      (others.map fun other => (other.1, other.2.version)).all fun other =>
        isMember ctx other.1 other.2 store m, ?_, (storedMembers_nodup ..).filter _, fun m => ?_⟩
    · rw [Cmd.sinter, exec_bind_ok all]
      · simp only [sorted]
        rw [exec_bind_ok
          (exec_selectMembers (short _ ((listed _).mpr (.inl rfl))) fun m => exec_inAll _)]
        rfl
      · exact named
    · rw [List.mem_filter, List.all_map, List.all_eq_true, ← membersOf_of_some found]
      constructor
      · rintro ⟨inside, everywhere⟩ key given
        rcases (listed key).mp given with rfl | further
        · exact inside
        · obtain ⟨other, member, rfl⟩ := List.mem_map.mp further
          rw [membersOf_of_some (loaded other (perm.mem_iff.mp (List.mem_cons_of_mem _ member))),
            mem_storedMembers]
          exact everywhere other member
      · intro everywhere
        refine ⟨everywhere _ ((listed _).mpr (.inl rfl)), fun other member => ?_⟩
        have inside := everywhere other.1 ((listed _).mpr (.inr (List.mem_map_of_mem member)))
        rwa [membersOf_of_some (loaded other (perm.mem_iff.mp (List.mem_cons_of_mem _ member))),
          mem_storedMembers] at inside

/-- `SINTER` looks at its keys up to the first that is no set. -/
theorem exec_sinter_of_first (live : ∀ key ∈ before, ctx.isSet env store key = true) {key : Bytes}
    {result : Except Fault (Option Metadata)} (found : ctx.setMeta env store key = result)
    (other : ctx.isSet env store key = false) (rest : List Bytes) :
    exec env (Cmd.sinter ctx (before ++ key :: rest)) store =
      (result.map fun _ => .array [], store) := by
  obtain ⟨metas, -, -, ran⟩ := exec_loadAll_append live (key :: rest)
  have stopped : exec env (loadAll ctx (key :: rest)) store =
      (result.map fun _ => none, store) := by
    rw [loadAll, exec_bind, exec_readSetMetadata, found]
    rcases result with _ | (_ | meta')
    · rfl
    · rfl
    · rw [isSet_iff.mpr ⟨meta', found⟩] at other
      cases other
  have all := ran _ stopped
  rw [Cmd.sinter, exec_bind, all]
  · cases result <;> rfl
  · exact List.append_ne_nil_of_right_ne_nil before (List.cons_ne_nil key rest)

end Intersection

section Difference

variable {ctx : CommandContext} {key : Bytes} {store : Store} {env : Env}

/-- A key that holds another type counts as one without a set. -/
theorem exec_attempt_readSetMetadata (key : Bytes) :
    ∃ found : Option (Option Metadata),
      exec env (attempt (readSetMetadata ctx key)) store = (.ok found, store) ∧
      ∀ meta', found.join = some meta' ↔ ctx.setMeta env store key = .ok (some meta') := by
  have tried := exec_attempt (@exec_readSetMetadata ctx key store env)
  cases looked : ctx.setMeta env store key with
  | ok found =>
    rw [looked] at tried
    refine ⟨some found, tried, fun meta' => ?_⟩
    rw [Option.join_some, Except.ok.injEq]
  | error fault =>
    refine ⟨none, ?_, fun meta' => by simp⟩
    rw [looked] at tried
    rcases setMeta_error looked with rfl | rfl | rfl <;> exact tried

/-- The sets among some keys, by their members. -/
theorem exec_loadSome (keys : List Bytes) :
    ∃ others : List (Bytes × UInt64), exec env (loadSome ctx keys) store = (.ok others, store) ∧
      ∀ m, (∃ other ∈ others, isMember ctx other.1 other.2 store m = true) ↔
        ∃ key ∈ keys, m ∈ membersOf ctx env store key := by
  induction keys with
  | nil => exact ⟨[], rfl, by simp⟩
  | cons key keys ih =>
    obtain ⟨others, ran, known⟩ := ih
    obtain ⟨found, tried, join⟩ := @exec_attempt_readSetMetadata ctx store env key
    rw [loadSome, exec_bind_ok tried, exec_bind_ok ran]
    cases here : found.join with
    | none =>
      refine ⟨others, rfl, fun m => ?_⟩
      have other : ctx.isSet env store key = false := by
        rw [Bool.eq_false_iff, Ne, isSet_iff]
        rintro ⟨meta', looked⟩
        rw [(join meta').mpr looked] at here
        cases here
      simp [known, membersOf_of_not_set other]
    | some meta' =>
      refine ⟨(key, meta'.version) :: others, rfl, fun m => ?_⟩
      have members := membersOf_of_some ((join meta').mp here)
      simp [← known, members, mem_storedMembers]

/-- `SDIFF` of a set replies what none of the others has. -/
theorem exec_sdiff_of_set {first : Bytes} (short : first.length < 2 ^ 32)
    (live : ctx.isSet env store first = true) (rest : List Bytes) :
    ∃ items : List Bytes, exec env (Cmd.sdiff ctx (first :: rest)) store =
        (.ok (.array (items.map fun m => .bulkString (some m))), store) ∧
      items.Nodup ∧ ∀ m, m ∈ items ↔ m ∈ membersOf ctx env store first ∧
        ∀ key ∈ rest, m ∉ membersOf ctx env store key := by
  obtain ⟨meta', found⟩ := isSet_iff.mp live
  obtain ⟨others, ran, known⟩ := @exec_loadSome ctx store env rest
  have tests : ∀ m, exec env (do let found ← Cmd.inAny ctx m others; return !found) store =
      (.ok (!others.any fun other => isMember ctx other.1 other.2 store m), store) := by
    intro m
    rw [exec_bind_ok (exec_inAny others)]
    rfl
  refine ⟨(storedMembers ctx first meta'.version store).filter fun m =>
    !others.any fun other => isMember ctx other.1 other.2 store m, ?_,
      (storedMembers_nodup ..).filter _,
    fun m => ?_⟩
  · rw [Cmd.sdiff, exec_bind_ok (exec_readSetMetadata.trans (by rw [found]))]
    dsimp only
    rw [exec_bind_ok ran, exec_bind_ok (exec_selectMembers short tests)]
    rfl
  · rw [List.mem_filter, membersOf_of_some found, Bool.not_eq_true', List.any_eq_false]
    have none := not_congr (known m)
    push Not at none
    rw [none]

end Difference

section Union

variable {ctx : CommandContext} {key : Bytes} {store : Store} {env : Env}
  {before rest keys : List Bytes}

/-- What `SUNION` reports when it gives up. -/
def unionOverflow : Fault := .error (.command "SUNION result exceeds memory limit")

/-- The members that `SUNION` meets, in this order. -/
def visited (ctx : CommandContext) (env : Env) (store : Store) (keys : List Bytes) : List Bytes :=
  keys.flatMap fun key => membersOf ctx env store key

/-- A walk of `SUNION` over one set collects its members. -/
theorem exec_forEach_union (members seen : List Bytes) :
    exec env (forEach (fun seen member =>
        if setUnionResultLimit ≤
          seen.length then raise (.command "SUNION result exceeds memory limit")
        else if member ∈ seen then return .yield seen
        else return .yield (seen ++ [member])) members seen >>= ForInStep.settle) store =
      ((collect setUnionResultLimit members seen).elim (.error unionOverflow) .ok, store) := by
  induction members generalizing seen with
  | nil => rfl
  | cons member members ih =>
    rw [forEach, bind_assoc, collect]
    by_cases full : setUnionResultLimit ≤ seen.length
    · rw [if_pos full, if_pos full]
      rfl
    rw [if_neg full, if_neg full]
    split_ifs
    · exact ih seen
    · exact ih (seen ++ [member])

/-- The loop of `SUNION` over keys that are absent or sets. -/
theorem exec_sunionLoop_append (short : ∀ key ∈ before, key.length < 2 ^ 32)
    (known : ∀ key ∈ before, ctx.isSetOrAbsent env store key = true) (rest seen : List Bytes) :
    exec env (sunionLoop ctx (before ++ rest) seen) store =
      (collect setUnionResultLimit (visited ctx env store before) seen).elim
        (.error unionOverflow, store) fun seen => exec env (sunionLoop ctx rest seen) store := by
  induction before generalizing seen with
  | nil => rfl
  | cons key before ih =>
    obtain ⟨found, looked⟩ := isSetOrAbsent_iff.mp (known key List.mem_cons_self)
    have later := ih (fun key inside => short key (List.mem_cons_of_mem _ inside))
      fun key inside => known key (List.mem_cons_of_mem _ inside)
    rw [visited, List.flatMap_cons, collect_append, List.cons_append, sunionLoop,
      exec_bind_ok (exec_readSetMetadata.trans (by rw [looked]))]
    cases found with
    | none =>
      rw [membersOf_of_not_set (by rw [CommandContext.isSet, looked])]
      exact later seen
    | some meta' =>
      dsimp only
      rw [membersOf_of_some looked, exec_bind,
        exec_forEachPage_members (short key List.mem_cons_self)
        (fun seen member => by split_ifs <;> rfl), exec_forEach_union]
      cases collect setUnionResultLimit (storedMembers ctx key meta'.version store) seen with
      | none => rfl
      | some seen => exact later seen

/-- There are as many members as the limit before the last one that is met. -/
def Overflows (members : List Bytes) : Prop :=
  members ≠ [] ∧ setUnionResultLimit ≤ members.dropLast.toFinset.card

theorem overflows_iff {members : List Bytes} :
    collect setUnionResultLimit members [] = none ↔ Overflows members := by
  rw [collect_eq_none_iff List.nodup_nil, List.toFinset_nil, Finset.empty_union, Overflows]

/-- At least one key, and every key is absent or a set. -/
structure Readable (ctx : CommandContext) (env : Env) (store : Store) (keys : List Bytes) :
    Prop where
  named : keys ≠ []
  short : ∀ key ∈ keys, key.length < 2 ^ 32
  known : ∀ key ∈ keys, ctx.isSetOrAbsent env store key = true

theorem Readable.perm {keys' : List Bytes} (readable : Readable ctx env store keys)
    (perm : keys'.Perm keys) : Readable ctx env store keys' where
  named := by
    rintro rfl
    exact readable.named (List.nil_perm.mp perm)
  short key inside := readable.short key (perm.mem_iff.mp inside)
  known key inside := readable.known key (perm.mem_iff.mp inside)

/-- `SUNION` of keys that are absent or sets. -/
theorem exec_sunion (readable : Readable ctx env store keys) :
    exec env (Cmd.sunion ctx keys) store =
      ((collect setUnionResultLimit (visited ctx env store keys) []).elim (.error unionOverflow)
        fun items => .ok (.array (items.map fun m => .bulkString (some m))), store) := by
  have ran := exec_sunionLoop_append readable.short readable.known [] []
  rw [List.append_nil] at ran
  rw [Cmd.sunion, exec_bind, ran]
  · cases collect setUnionResultLimit (visited ctx env store keys) [] <;> rfl
  · exact readable.named

end Union

section Exactness

variable {ctx : CommandContext} {store : Store} {env : Env} {keys : List Bytes}

def unionOf (ctx : CommandContext) (env : Env) (store : Store) (keys : List Bytes) : Finset Bytes :=
  (visited ctx env store keys).toFinset

/-- A reply that lists every member of a set once. -/
def Lists (reply : Except Fault RespValue) (holds : Bytes → Prop) : Prop :=
  ∃ items : List Bytes, reply = .ok (.array (items.map fun m => .bulkString (some m))) ∧
    items.Nodup ∧
    ∀ m, m ∈ items ↔ holds m

theorem mem_visited {m : Bytes} :
    m ∈ visited ctx env store keys ↔ ∃ key ∈ keys, m ∈ membersOf ctx env store key :=
  List.mem_flatMap

/-- `SINTER` replies the intersection, which is empty if a key is absent. -/
theorem sinter_lists (readable : Readable ctx env store keys) :
    Lists (Request.reply ctx store ⟨.sinter, keys, env⟩)
      fun m => ∀ key ∈ keys, m ∈ membersOf ctx env store key := by
  cases first : keys.find? fun key => !ctx.isSet env store key with
  | none =>
    rw [List.find?_eq_none] at first
    obtain ⟨items, ran, nodup, selected⟩ := exec_sinter_of_sets readable.named readable.short
      fun key inside => by simpa using first key inside
    exact ⟨items, Request.reply_eq_ok ctx ran, nodup, selected⟩
  | some key =>
    obtain ⟨other, before, rest, shape, live⟩ := List.find?_eq_some_iff_append.mp first
    have inside : key ∈ keys := shape ▸ List.mem_append_right before List.mem_cons_self
    have absent : ctx.isSet env store key = false := by simpa using other
    obtain ⟨found, looked⟩ := isSetOrAbsent_iff.mp (readable.known key inside)
    have ran :=
      exec_sinter_of_first (fun key inside => by simpa using live key inside) looked absent rest
    rw [← shape] at ran
    refine ⟨[], Request.reply_eq_ok ctx ran, List.nodup_nil, fun m => ?_⟩
    -- Nothing is in a set that is not there.
    refine iff_of_false (List.not_mem_nil) fun everywhere => ?_
    have member := everywhere key inside
    rw [membersOf_of_not_set absent] at member
    exact List.not_mem_nil member

/-- `SDIFF` replies the members of the first set that are in none of the others. -/
theorem sdiff_lists {first : Bytes} {rest : List Bytes} (short : first.length < 2 ^ 32)
    (known : ctx.isSetOrAbsent env store first = true) :
    Lists (Request.reply ctx store ⟨.sdiff, first :: rest, env⟩)
      fun m => m ∈ membersOf ctx env store first ∧ ∀ key ∈ rest,
        m ∉ membersOf ctx env store key := by
  cases live : ctx.isSet env store first with
  | true =>
    obtain ⟨items, ran, nodup, selected⟩ := exec_sdiff_of_set short live rest
    exact ⟨items, Request.reply_eq_ok ctx ran, nodup, selected⟩
  | false =>
    obtain ⟨found, looked⟩ := isSetOrAbsent_iff.mp known
    have absent : found = none := by
      cases found with
      | none => rfl
      | some meta' =>
        rw [isSet_iff.mpr ⟨meta', looked⟩] at live
        cases live
    have ran : exec env (Cmd.sdiff ctx (first :: rest)) store = (.ok (.array []), store) := by
      rw [Cmd.sdiff, exec_bind_ok (exec_readSetMetadata.trans (by rw [looked, absent]))]
      rfl
    refine ⟨[], Request.reply_eq_ok ctx ran, List.nodup_nil, fun m => ?_⟩
    rw [membersOf_of_not_set live]
    simp

/-- `SUNION` replies the union unless it meets a member when there are as many as the
limit. -/
theorem sunion_lists (readable : Readable ctx env store keys)
    (room : ¬ Overflows (visited ctx env store keys)) :
    Lists (Request.reply ctx store ⟨.sunion, keys, env⟩) fun m =>
      m ∈ unionOf ctx env store keys := by
  have ran := exec_sunion readable
  cases collected : collect setUnionResultLimit (visited ctx env store keys) [] with
  | none => exact absurd (overflows_iff.mp collected) room
  | some items =>
    obtain ⟨nodup, same⟩ := collect_eq_some List.nodup_nil collected
    rw [collected] at ran
    refine ⟨items, Request.reply_eq_ok ctx ran, nodup, fun m => ?_⟩
    rw [← List.mem_toFinset, same, List.toFinset_nil, Finset.empty_union, unionOf]

/-- The errors of the set operations keep their text, and apart from a wrong type none reads
like one. -/
theorem formatError_texts : formatError (.command wrongType) = wrongType ∧
    formatError (.command "SUNION result exceeds memory limit") =
      "SUNION result exceeds memory limit" ∧
    ∀ cause ∈ [KvdbError.wrongArgCount "SINTER", .wrongArgCount "SDIFF", .wrongArgCount "SUNION",
      .command "SUNION result exceeds memory limit", .protocol "empty metadata value",
      .protocol "invalid set metadata"], formatError cause ≠ wrongType := by
  decide +kernel

theorem sunion_overflows (readable : Readable ctx env store keys)
    (full : Overflows (visited ctx env store keys)) :
    Request.reply ctx store ⟨.sunion, keys, env⟩ =
      .ok (.error "SUNION result exceeds memory limit") := by
  have ran := exec_sunion readable
  rw [overflows_iff.mpr full] at ran
  exact (Request.reply_eq_error ctx ran).trans (by rw [formatError_texts.2.1])

def SameMembers (reply reply' : Except Fault RespValue) : Prop :=
  ∃ items items' : List Bytes, reply = .ok (.array (items.map fun m => .bulkString (some m))) ∧
    reply' = .ok (.array (items'.map fun m => .bulkString (some m))) ∧ items.Perm items'

theorem Lists.sameMembers {reply reply' : Except Fault RespValue} {holds holds' : Bytes → Prop}
    (lists : Lists reply holds) (lists' : Lists reply' holds') (same : ∀ m, holds m ↔ holds' m) :
    SameMembers reply reply' := by
  obtain ⟨items, replied, nodup, exactly⟩ := lists
  obtain ⟨items', replied', nodup', exactly'⟩ := lists'
  refine ⟨items, items', replied, replied', (List.perm_ext_iff_of_nodup nodup nodup').mpr
    fun m => ?_⟩
  rw [exactly, exactly', same]

/-- A union below the limit does not overflow. -/
theorem not_overflows_of_lt (few : (unionOf ctx env store keys).card < setUnionResultLimit) :
    ¬ Overflows (visited ctx env store keys) := by
  rintro ⟨-, full⟩
  have fewer : (visited ctx env store keys).dropLast.toFinset.card ≤
      (unionOf ctx env store keys).card :=
    Finset.card_le_card fun m inside =>
      List.mem_toFinset.mpr (List.mem_of_mem_dropLast (List.mem_toFinset.mp inside))
  omega

/-- Intersection, difference and union are exact, each member once, and the first and the
last do not depend on the order of the keys. -/
theorem set_algebra_exact {first : Bytes} {rest : List Bytes}
    (short : ∀ key ∈ first :: rest, key.length < 2 ^ 32)
    (known : ∀ key ∈ first :: rest, ctx.isSetOrAbsent env store key = true)
    (few : (unionOf ctx env store (first :: rest)).card < setUnionResultLimit) :
    Lists (Request.reply ctx store ⟨.sinter, first :: rest, env⟩)
        (fun m => ∀ key ∈ first :: rest, m ∈ membersOf ctx env store key) ∧
      Lists (Request.reply ctx store ⟨.sdiff, first :: rest, env⟩)
        (fun m => m ∈ membersOf ctx env store first ∧ ∀ key ∈ rest,
          m ∉ membersOf ctx env store key) ∧
      Lists (Request.reply ctx store ⟨.sunion, first :: rest, env⟩)
        (fun m => ∃ key ∈ first :: rest, m ∈ membersOf ctx env store key) ∧
      ∀ keys, keys.Perm (first :: rest) →
        SameMembers (Request.reply ctx store ⟨.sinter, keys, env⟩)
          (Request.reply ctx store ⟨.sinter, first :: rest, env⟩) ∧
        SameMembers (Request.reply ctx store ⟨.sunion, keys, env⟩)
          (Request.reply ctx store ⟨.sunion, first :: rest, env⟩) := by
  have union : ∀ {keys m}, m ∈ unionOf ctx env store keys ↔
      ∃ key ∈ keys, m ∈ membersOf ctx env store key := by
    intro keys m
    rw [unionOf, List.mem_toFinset, mem_visited]
  have readable : Readable ctx env store (first :: rest) :=
    ⟨List.cons_ne_nil first rest, short, known⟩
  have all := sunion_lists readable (not_overflows_of_lt few)
  simp only [union] at all
  have common := sinter_lists readable
  refine ⟨common, sdiff_lists (short first List.mem_cons_self) (known first List.mem_cons_self),
    all, fun keys perm => ?_⟩
  have same : unionOf ctx env store keys = unionOf ctx env store (first :: rest) := by
    ext m
    simp only [union, perm.mem_iff]
  rw [← same] at few
  refine ⟨(sinter_lists (readable.perm perm)).sameMembers common
    fun m => by simp only [perm.mem_iff], ?_⟩
  refine (sunion_lists (readable.perm perm) (not_overflows_of_lt few)).sameMembers all fun m => ?_
  rw [same, union]

/-- A set of one member next to an absent key. -/
theorem one_member :
    let added : Request := ⟨.sadd, [ascii "a", ascii "m"], .plain 7⟩
    let store := added.after .plain .empty
    (∀ key ∈ [ascii "a", ascii "b"],
      CommandContext.isSetOrAbsent .plain (.plain 8) store key = true) ∧
      (unionOf .plain (.plain 8) store [ascii "a", ascii "b"]).card = 1 ∧
      (unionOf .plain (.plain 8) store [ascii "a"]).card = 1 := by
  decide

/-- A set and an absent key. -/
theorem set_algebra_exact_of_absent :
    let added : Request := ⟨.sadd, [ascii "a", ascii "m"], .plain 7⟩
    let reply := Request.reply .plain (added.after .plain .empty)
      ⟨.sunion, [ascii "a", ascii "b"], .plain 8⟩
    reply = .ok (.array [.bulkString (some (ascii "m"))]) ∧
      Lists reply fun m => ∃ key ∈ [ascii "a", ascii "b"],
        m ∈ membersOf .plain (.plain 8) (added.after .plain .empty) key := by
  refine ⟨by decide, ?_⟩
  exact (set_algebra_exact (by decide) one_member.1 (by rw [one_member.2.1]; decide)).2.2.1

end Exactness

section OtherTypes

variable {ctx : CommandContext} {store : Store} {env : Env} {keys : List Bytes}

/-- The reply to a command on a key that holds another type. -/
def wrongTypeReply : Except Fault RespValue := .ok (.error wrongType)

/-- A list of members is no error. -/
theorem Lists.ne_wrongTypeReply {reply : Except Fault RespValue} {holds : Bytes → Prop}
    (lists : Lists reply holds) : reply ≠ wrongTypeReply := by
  obtain ⟨items, replied, -⟩ := lists
  rw [replied]
  rintro ⟨⟩

theorem ne_wrongTypeReply {cause : KvdbError} (other : formatError cause ≠ wrongType)
    {command : Command} {args : List Bytes}
    (ran : exec env (command.run ctx args) store = (.error (.error cause), store)) :
    Request.reply ctx store ⟨command, args, env⟩ ≠ wrongTypeReply := by
  rw [Request.reply_eq_error ctx ran]
  intro same
  exact other (RespValue.error.inj (Except.ok.inj same))

/-- A command that ends with what the loader reports replies that the type is wrong if and
only if this is what was reported. -/
theorem reply_eq_wrongTypeReply_iff {key : Bytes} {fault : Fault}
    (failed : ctx.setMeta env store key = .error fault) {command : Command} {args : List Bytes}
    (ran : exec env (command.run ctx args) store = (.error fault, store)) :
    Request.reply ctx store ⟨command, args, env⟩ = wrongTypeReply ↔ fault = wrongTypeError := by
  rcases setMeta_error failed with rfl | rfl | rfl
  · refine iff_of_true ?_ rfl
    rw [Request.reply, exec_dispatch, ran]
    exact congrArg (fun text => Except.ok (RespValue.error text)) formatError_texts.1
  all_goals
    refine iff_of_false (ne_wrongTypeReply (formatError_texts.2.2 _ (by simp)) ran) fun same => ?_
    cases same

theorem sinter_wrong_type_iff (short : ∀ key ∈ keys, key.length < 2 ^ 32) :
    Request.reply ctx store ⟨.sinter, keys, env⟩ = wrongTypeReply ↔
      ∃ key, keys.find? (fun key => !ctx.isSet env store key) = some key ∧
        ctx.setMeta env store key = .error wrongTypeError := by
  by_cases named : keys = []
  · subst named
    have ran : exec env (Command.run ctx .sinter []) store =
        (.error (.error (.wrongArgCount "SINTER")), store) := rfl
    exact iff_of_false (ne_wrongTypeReply (formatError_texts.2.2 _ (by simp)) ran) (by simp)
  cases first : keys.find? fun key => !ctx.isSet env store key with
  | none =>
    rw [List.find?_eq_none] at first
    obtain ⟨items, ran, nodup, selected⟩ := exec_sinter_of_sets named short fun key inside => by
      simpa using first key inside
    have lists : Lists (Request.reply ctx store ⟨.sinter, keys, env⟩) _ :=
      ⟨items, Request.reply_eq_ok ctx ran, nodup, selected⟩
    exact iff_of_false lists.ne_wrongTypeReply (by simp)
  | some key =>
    obtain ⟨other, before, rest, shape, live⟩ := List.find?_eq_some_iff_append.mp first
    have absent : ctx.isSet env store key = false := by simpa using other
    have ran := exec_sinter_of_first (fun key inside => by simpa using live key inside)
      (rfl : ctx.setMeta env store key = _) absent rest
    rw [← shape] at ran
    simp only [Option.some.injEq, exists_eq_left']
    cases looked : ctx.setMeta env store key with
    | ok found =>
      rw [looked] at ran
      rw [Request.reply_eq_ok ctx ran]
      exact iff_of_false (by rintro ⟨⟩) (by rintro ⟨⟩)
    | error fault =>
      rw [looked] at ran
      rw [reply_eq_wrongTypeReply_iff looked
        (show exec env (Command.run ctx .sinter keys) store = _ from
        ran), Except.error.injEq]

theorem sdiff_wrong_type_iff (short : ∀ key ∈ keys, key.length < 2 ^ 32) :
    Request.reply ctx store ⟨.sdiff, keys, env⟩ = wrongTypeReply ↔
      ∃ key, keys.head? = some key ∧ ctx.setMeta env store key = .error wrongTypeError := by
  cases keys with
  | nil =>
    have ran : exec env (Command.run ctx .sdiff []) store =
        (.error (.error (.wrongArgCount "SDIFF")), store) := rfl
    exact iff_of_false (ne_wrongTypeReply (formatError_texts.2.2 _ (by simp)) ran) (by simp)
  | cons first rest =>
    simp only [List.head?_cons, Option.some.injEq, exists_eq_left']
    cases looked : ctx.setMeta env store first with
    | ok found =>
      have lists : Lists (Request.reply ctx store ⟨.sdiff, first :: rest, env⟩) _ :=
        sdiff_lists (short first List.mem_cons_self) (isSetOrAbsent_iff.mpr ⟨found, looked⟩)
      exact iff_of_false lists.ne_wrongTypeReply (by rintro ⟨⟩)
    | error fault =>
      have ran : exec env (Command.run ctx .sdiff (first :: rest)) store =
          (.error fault, store) := by
        rw [Command.run, Cmd.sdiff, exec_bind, exec_readSetMetadata, looked]
      rw [reply_eq_wrongTypeReply_iff looked ran, Except.error.injEq]

theorem sunion_wrong_type_iff (short : ∀ key ∈ keys, key.length < 2 ^ 32) :
    Request.reply ctx store ⟨.sunion, keys, env⟩ = wrongTypeReply ↔
      ∃ key, keys.find? (fun key => !ctx.isSetOrAbsent env store key) = some key ∧
        ctx.setMeta env store key = .error wrongTypeError ∧
        ¬ Overflows (visited ctx env store (keys.takeWhile (ctx.isSetOrAbsent env store))) := by
  by_cases named : keys = []
  · subst named
    have ran : exec env (Command.run ctx .sunion []) store =
        (.error (.error (.wrongArgCount "SUNION")), store) := rfl
    exact iff_of_false (ne_wrongTypeReply (formatError_texts.2.2 _ (by simp)) ran) (by simp)
  cases first : keys.find? fun key => !ctx.isSetOrAbsent env store key with
  | none =>
    rw [List.find?_eq_none] at first
    have known : ∀ key ∈ keys, ctx.isSetOrAbsent env store key = true :=
      fun key inside => by simpa using first key inside
    refine iff_of_false (fun replied => ?_) (by simp)
    by_cases full : Overflows (visited ctx env store keys)
    · have ran := exec_sunion ⟨named, short, known⟩
      rw [overflows_iff.mpr full] at ran
      exact ne_wrongTypeReply (formatError_texts.2.2 _ (by simp)) ran replied
    · exact (sunion_lists ⟨named, short, known⟩ full).ne_wrongTypeReply replied
  | some key =>
    obtain ⟨other, before, rest, shape, readable⟩ := List.find?_eq_some_iff_append.mp first
    have known : ∀ key ∈ before, ctx.isSetOrAbsent env store key = true :=
      fun key inside => by simpa using readable key inside
    have stopped : ctx.isSetOrAbsent env store key = false := by simpa using other
    have front : keys.takeWhile (ctx.isSetOrAbsent env store) = before := by
      rw [shape, List.takeWhile_append_of_pos known, List.takeWhile_cons_of_neg (by simp [stopped]),
        List.append_nil]
    simp only [Option.some.injEq, exists_eq_left', front]
    cases looked : ctx.setMeta env store key with
    | ok found =>
      rw [isSetOrAbsent_iff.mpr ⟨found, looked⟩] at stopped
      cases stopped
    | error fault =>
      have failed : ∀ seen, exec env (sunionLoop ctx (key :: rest) seen) store =
          (.error fault, store) := by
        intro seen
        rw [sunionLoop, exec_bind, exec_readSetMetadata, looked]
      have ran := exec_sunionLoop_append (fun key inside => short key (shape ▸
        List.mem_append_left _ inside)) known (key :: rest) []
      rw [← shape] at ran
      simp only [failed] at ran
      by_cases full : Overflows (visited ctx env store before)
      · have ended : exec env (Command.run ctx .sunion keys) store =
            (.error unionOverflow, store) := by
          rw [Command.run, Cmd.sunion, exec_bind, ran, overflows_iff.mpr full]
          · rfl
          · exact named
        exact iff_of_false (ne_wrongTypeReply (formatError_texts.2.2 _ (by simp)) ended)
          fun both => both.2 full
      · have ended : exec env (Command.run ctx .sunion keys) store = (.error fault, store) := by
          obtain ⟨seen, collected⟩ := Option.ne_none_iff_exists'.mp (mt overflows_iff.mp full)
          rw [Command.run, Cmd.sunion, exec_bind, ran, collected]
          · rfl
          · exact named
        rw [reply_eq_wrongTypeReply_iff looked ended, Except.error.injEq, and_iff_left full]

/-- The set operations reply that a type is wrong if and only if the first key that is no
set is of another type, for `SINTER`; if the first key that is neither absent nor a set is
of another type and the sets before it do not exceed the limit, for `SUNION`; and if the
first key is of another type, for `SDIFF`. -/
theorem set_algebra_wrong_type_iff (short : ∀ key ∈ keys, key.length < 2 ^ 32) :
    (Request.reply ctx store ⟨.sinter, keys, env⟩ = wrongTypeReply ↔
      ∃ key, keys.find? (fun key => !ctx.isSet env store key) = some key ∧
        ctx.setMeta env store key = .error wrongTypeError) ∧
    (Request.reply ctx store ⟨.sunion, keys, env⟩ = wrongTypeReply ↔
      ∃ key, keys.find? (fun key => !ctx.isSetOrAbsent env store key) = some key ∧
        ctx.setMeta env store key = .error wrongTypeError ∧
        ¬ Overflows (visited ctx env store (keys.takeWhile (ctx.isSetOrAbsent env store)))) ∧
    (Request.reply ctx store ⟨.sdiff, keys, env⟩ = wrongTypeReply ↔
      ∃ key, keys.head? = some key ∧ ctx.setMeta env store key = .error wrongTypeError) :=
  ⟨sinter_wrong_type_iff short, sunion_wrong_type_iff short, sdiff_wrong_type_iff short⟩

/-- A string as the first key. -/
theorem set_algebra_wrong_type_of_string :
    let stored : Request := ⟨.set, [ascii "s", ascii "v"], .plain 7⟩
    Request.reply .plain (stored.after .plain .empty) ⟨.sdiff, [ascii "s", ascii "a"], .plain 8⟩ =
      wrongTypeReply := by
  intro stored
  exact (set_algebra_wrong_type_iff (by decide)).2.2.mpr ⟨ascii "s", rfl, by decide⟩

/-- A string behind an absent key, or behind the first set of a difference, goes unnoticed. -/
theorem string_goes_unnoticed :
    let stored : Request := ⟨.set, [ascii "s", ascii "v"], .plain 7⟩
    let added : Request := ⟨.sadd, [ascii "a", ascii "m"], .plain 7⟩
    let store := added.after .plain (stored.after .plain .empty)
    CommandContext.setMeta .plain (.plain 8) store (ascii "s") = .error wrongTypeError ∧
      Request.reply .plain store ⟨.sinter, [ascii "b", ascii "s"], .plain 8⟩ = .ok (.array []) ∧
      Request.reply .plain store ⟨.sdiff, [ascii "a", ascii "s"], .plain 8⟩ =
        .ok (.array [.bulkString (some (ascii "m"))]) := by
  decide

end OtherTypes

section Limit

variable {ctx : CommandContext} {store : Store} {env : Env} {keys : List Bytes}

/-- How many members there are without the last one that is met. -/
theorem card_visited {members : List Bytes} {last : Bytes} (final : members.getLast? = some last) :
    members.toFinset.card = members.dropLast.toFinset.card + if last ∈
      members.dropLast then 0 else 1 := by
  have shape : members = members.dropLast ++ [last] :=
    (List.dropLast_append_getLast? last final).symm
  have inserted : members.toFinset = insert last members.dropLast.toFinset := by
    conv_lhs => rw [shape, List.toFinset_append, Finset.union_comm]
    rfl
  rw [inserted]
  split_ifs with again
  · rw [Finset.insert_eq_of_mem (List.mem_toFinset.mpr again), Nat.add_zero]
  · rw [Finset.card_insert_of_notMem (by rwa [List.mem_toFinset])]

/-- `SUNION` reports an error exactly when the union is above the limit, and otherwise
replies the union, if and only if it has a key and either the union does not have as many
members as the limit or the last member that is met was not met before. -/
theorem sunion_limit_iff (short : ∀ key ∈ keys, key.length < 2 ^ 32)
    (known : ∀ key ∈ keys, ctx.isSetOrAbsent env store key = true) :
    (((∃ text, Request.reply ctx store ⟨.sunion, keys, env⟩ = .ok (.error text)) ↔
        setUnionResultLimit < (unionOf ctx env store keys).card) ∧
      ((unionOf ctx env store keys).card ≤ setUnionResultLimit →
        Lists (Request.reply ctx store ⟨.sunion, keys, env⟩)
          fun m => m ∈ unionOf ctx env store keys)) ↔
      keys ≠ [] ∧ ((unionOf ctx env store keys).card = setUnionResultLimit →
        ∀ last, (visited ctx env store keys).getLast? = some last →
          last ∉ (visited ctx env store keys).dropLast) := by
  by_cases named : keys = []
  · subst named
    refine iff_of_false (fun both => ?_) fun both => both.1 rfl
    have failed : Request.reply ctx store ⟨.sunion, [], env⟩ =
        .ok (.error (formatError (.wrongArgCount "SUNION"))) :=
      Request.reply_eq_error ctx (show exec env (Command.run ctx .sunion []) store = _ from rfl)
    have large := both.1.mp ⟨_, failed⟩
    exact absurd large (by simp [unionOf, visited])
  rw [and_iff_right named]
  have replied : (∃ text, Request.reply ctx store ⟨.sunion, keys, env⟩ = .ok (.error text)) ↔
      Overflows (visited ctx env store keys) := by
    by_cases full : Overflows (visited ctx env store keys)
    · exact iff_of_true ⟨_, sunion_overflows ⟨named, short, known⟩ full⟩ full
    · refine iff_of_false ?_ full
      rintro ⟨text, failed⟩
      obtain ⟨items, listed, -⟩ := sunion_lists ⟨named, short, known⟩ full
      rw [listed] at failed
      cases failed
  have whole : ¬ Overflows (visited ctx env store keys) → Lists
      (Request.reply ctx store ⟨.sunion, keys, env⟩) fun m => m ∈ unionOf ctx env store keys :=
    sunion_lists ⟨named, short, known⟩
  rw [replied]
  cases final : (visited ctx env store keys).getLast? with
  | none =>
    have nothing := List.getLast?_eq_none_iff.mp final
    have room : ¬ Overflows (visited ctx env store keys) := fun full => full.1 nothing
    have none : (unionOf ctx env store keys).card = 0 := by rw [unionOf, nothing]; rfl
    exact iff_of_true ⟨iff_of_false room (by omega), fun _ => whole room⟩ fun _ last => by simp
  | some last =>
    have something : visited ctx env store keys ≠ [] := by
      intro nothing
      rw [nothing] at final
      cases final
    -- The size is checked before the last member is looked up, so it may be one that is known.
    have counted : (unionOf ctx env store keys).card = _ := card_visited final
    have full : Overflows (visited ctx env store keys) ↔
        setUnionResultLimit ≤ (visited ctx env store keys).dropLast.toFinset.card :=
      and_iff_right something
    simp only [Option.some.injEq, forall_eq']
    constructor
    · rintro ⟨exactly, -⟩ boundary again
      rw [if_pos again, Nat.add_zero] at counted
      rw [full] at exactly
      omega
    · intro fresh
      have exactly : Overflows (visited ctx env store keys) ↔
          setUnionResultLimit < (unionOf ctx env store keys).card := by
        rw [full]
        by_cases again : last ∈ (visited ctx env store keys).dropLast
        · have other := mt fresh (not_not.mpr again)
          rw [if_pos again] at counted
          omega
        · rw [if_neg again] at counted
          omega
      exact ⟨exactly, fun few => whole fun beyond => absurd (exactly.mp beyond) (not_lt.mpr few)⟩

/-- One member. -/
theorem sunion_limit_of_one :
    let added : Request := ⟨.sadd, [ascii "a", ascii "m"], .plain 7⟩
    let reply := Request.reply .plain (added.after .plain .empty) ⟨.sunion, [ascii "a"], .plain 8⟩
    reply = .ok (.array [.bulkString (some (ascii "m"))]) ∧
      Lists reply (· ∈ unionOf .plain (.plain 8) (added.after .plain .empty) [ascii "a"]) := by
  intro added
  have known : ∀ key ∈ [ascii "a"],
      CommandContext.isSetOrAbsent .plain (.plain 8) (added.after .plain .empty) key = true :=
    fun key inside => one_member.1 key (List.mem_singleton.mp inside ▸ List.mem_cons_self)
  refine ⟨by decide,
    ((sunion_limit_iff (by decide) known).mpr ⟨List.cons_ne_nil _ _, ?_⟩).2 ?_⟩
  · rw [one_member.2.2]
    intro boundary
    cases boundary
  · rw [one_member.2.2]
    decide

/-- As many different members as asked for. -/
def numberedMembers (n : ℕ) : List Bytes := (List.range n).map fun i => u64Bytes (UInt64.ofNat i)

theorem numberedMembers_nodup {n : ℕ} (fits : n ≤ 2 ^ 64) : (numberedMembers n).Nodup := by
  refine List.Nodup.map_on (fun i first j second same => ?_) List.nodup_range
  have numbers := congrArg UInt64.toNat (u64Bytes_injective same)
  rw [List.mem_range] at first second
  rwa [UInt64.toNat_ofNat', UInt64.toNat_ofNat', Nat.mod_eq_of_lt (by omega),
    Nat.mod_eq_of_lt (by omega)] at numbers

/-- A new set has the members that were added to it. -/
theorem membersOf_sadd {key member : Bytes} {rest : List Bytes}
    (few : (member :: rest).length < 2 ^ 63) (env later : Env) :
    ctx.isSet later (Request.after ctx .empty ⟨.sadd, key :: member :: rest, env⟩) key = true ∧
      (membersOf ctx later (Request.after ctx .empty ⟨.sadd, key :: member :: rest, env⟩)
        key).toFinset =
        (member :: rest).toFinset := by
  have bound := List.toFinset_card_le (member :: rest)
  have absent : SetRefines ctx key ∅ .empty := .inl ⟨ctx.lookupMeta_empty, rfl⟩
  obtain ⟨after, ran, refines⟩ := @SetRefines.exec_sadd ctx key .empty env ∅ member rest absent
    (fun _ _ _ _ => rfl) (by rw [Finset.sdiff_empty]; omega) (by rw [Finset.empty_union]; omega)
  rw [Request.after_eq_of_exec ctx ran]
  rw [Finset.empty_union] at refines
  rcases refines with ⟨-, empty⟩ | ⟨meta', recorded, holds⟩
  · rw [List.toFinset_eq_empty_iff] at empty
    cases empty
  · have found : ctx.setMeta later after key = .ok (some meta') :=
      liveMeta_of_recorded recorded holds.proper (by decide)
    refine ⟨isSet_iff.mpr ⟨meta', found⟩, ?_⟩
    ext m
    rw [membersOf_of_some found, List.mem_toFinset, mem_storedMembers, holds.stored]

/-- Members that are met twice overflow as soon as there are as many as the limit. -/
theorem overflows_append_self {members : List Bytes}
    (full : setUnionResultLimit ≤ members.toFinset.card) : Overflows (members ++ members) := by
  have some : members ≠ [] := by
    rintro rfl
    exact absurd full (by decide)
  refine ⟨List.append_ne_nil_of_left_ne_nil some _,
    full.trans (Finset.card_le_card fun m inside => ?_)⟩
  rw [List.dropLast_append_of_ne_nil some, List.mem_toFinset]
  exact List.mem_append_left _ (List.mem_toFinset.mp inside)

/-- The union of a set of as many members as the limit with itself is refused. -/
theorem sunion_refuses_limit :
    let added : Request := ⟨.sadd, ascii "a" :: numberedMembers setUnionResultLimit, .plain 7⟩
    let store := added.after .plain .empty
    (∀ key ∈ [ascii "a", ascii "a"], CommandContext.isSet .plain (.plain 8) store key = true) ∧
      (unionOf .plain (.plain 8) store [ascii "a", ascii "a"]).card = setUnionResultLimit ∧
      Request.reply .plain store ⟨.sunion, [ascii "a", ascii "a"], .plain 8⟩ =
        .ok (.error "SUNION result exceeds memory limit") := by
  have nodup := @numberedMembers_nodup setUnionResultLimit (by decide)
  have length : (numberedMembers setUnionResultLimit).length = setUnionResultLimit := by
    rw [numberedMembers, List.length_map, List.length_range]
  generalize numberedMembers setUnionResultLimit = names at nodup length
  cases names with
  | nil => exact absurd length (by decide)
  | cons member rest =>
    intro added store
    obtain ⟨set, members⟩ := @membersOf_sadd .plain (ascii "a") member rest (by rw [length]; decide)
      (.plain 7) (.plain 8)
    have card : (membersOf .plain (.plain 8) store (ascii "a")).toFinset.card =
        setUnionResultLimit := by
      rw [members, List.toFinset_card_of_nodup nodup, length]
    have met : visited .plain (.plain 8) store [ascii "a", ascii "a"] =
        membersOf .plain (.plain 8) store (ascii "a") ++ membersOf .plain (.plain 8) store
          (ascii "a") := by
      rw [visited, List.flatMap_cons, List.flatMap_cons, List.flatMap_nil, List.append_nil]
    have sets : ∀ key ∈ [ascii "a", ascii "a"],
        CommandContext.isSet .plain (.plain 8) store key = true := by
      simpa using set
    refine ⟨sets, ?_, sunion_overflows ⟨List.cons_ne_nil _ _, by decide, fun key inside => ?_⟩ ?_⟩
    · rw [unionOf, met, List.toFinset_append, Finset.union_self, card]
    · obtain ⟨meta', found⟩ := isSet_iff.mp (sets key inside)
      exact isSetOrAbsent_iff.mpr ⟨_, found⟩
    · rw [met]
      exact overflows_append_self card.ge

end Limit

end Kvdb
