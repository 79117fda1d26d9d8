import Kvdb.Changes
import Kvdb.HashFields
import Kvdb.SortedSet.Commands

/-!
# Collections without elements

A command that makes a collection puts an element into it, except `ZADD` with `XX`.
A command that takes elements away leaves the record, also when it takes the last
one. So a run keeps all its collections filled as long as no `ZADD` with `XX` meets
a missing key and no last element is removed.
-/

namespace Kvdb

open Data Semantics Cmd

variable {ctx : CommandContext} {store : Store} {request : Request} {key : Bytes} {env : Env}

section Statement

/-- The types whose values are made of the elements alone. -/
def DataType.collects : DataType → Bool
  | .hash | .list | .set | .zset => true
  | .string | .bitmap | .stream => false

/-- Every record of a hash, list, set or sorted set, live or expired, has an element
stored under its version. -/
def NoneEmpty (ctx : CommandContext) (store : Store) : Prop :=
  ∀ phys value meta' type, store.get .metadata phys = some value → decodeMetadata value =
    some meta' →
    meta'.dataType = some type → type.collects →
    ∃ key sub element, phys = ctx.metaKey key ∧
      store.get .subkey (ctx.subKey key meta'.version sub) = some element

/-- The options of `ZADD` restrict it to members that there are. -/
def updatesOnly (args : List Bytes) : Bool :=
  let flags := (zaddOptions args ⟨false, false, false, false, false, false⟩).1
  flags.xx && !flags.incr

/-- The request removes no last element and makes no empty sorted set. -/
structure Request.Sustains (ctx : CommandContext) (store : Store) (request : Request) : Prop where
  short : request.ShortKeys
  spares : ∀ type key args value meta', request.command.removes = some type →
    request.args = key :: args → Removal ctx request.env store key type value meta' →
    ∃ sub element, sub ∉ request.command.removedNames args meta' ∧
      store.get .subkey (ctx.subKey key meta'.version sub) = some element
  updates : ∀ key args, request.command = .zadd → request.args = key :: args → updatesOnly args →
    ∃ value, ctx.lookupMeta store key = some value ∧
      expiredAt (deadlineOf value) request.env.nowMs = false

end Statement

section Sowing

variable {batch : WriteBatch} {v : UInt64}

def Sown (ctx : CommandContext) (key : Bytes) (v : UInt64) (store : Store) (batch : WriteBatch) :
    Prop :=
  ∃ sub element, (store.write batch).get .subkey (ctx.subKey key v sub) = some element

def Sparing (batch : WriteBatch) : Prop := ∀ phys, .delete .subkey phys ∉ batch

theorem Sown.append {more : WriteBatch} (sown : Sown ctx key v store batch)
    (sparing : Sparing more) :
    Sown ctx key v store (batch ++ more) := by
  obtain ⟨sub, element, stored⟩ := sown
  rw [Sown, Store.write_append]
  rcases (store.write batch).get_write_cases more .subkey (ctx.subKey key v sub) with
    ⟨-, same⟩ | ⟨value, -, put⟩ | ⟨inside, -⟩
  · exact ⟨sub, element, same.trans stored⟩
  · exact ⟨sub, value, put⟩
  · exact absurd inside (sparing _)

theorem sown_of_put {more : WriteBatch} {sub element : Bytes}
    (inside : .put .subkey (ctx.subKey key v sub) element ∈ more) (sparing : Sparing more)
    (batch : WriteBatch) : Sown ctx key v store (batch ++ more) := by
  rw [Sown, Store.write_append]
  rcases (store.write batch).get_write_cases more .subkey (ctx.subKey key v sub) with
    ⟨elsewhere, -⟩ | ⟨value, -, put⟩ | ⟨inside, -⟩
  · exact absurd ⟨rfl, rfl⟩ (elsewhere _ inside)
  · exact ⟨sub, value, put⟩
  · exact absurd inside (sparing _)

theorem sown_of_stored {sub element : Bytes}
    (stored : store.get .subkey (ctx.subKey key v sub) = some element) : Sown ctx key v store [] :=
  ⟨sub, element, stored⟩

theorem sparing_put {cf : ColumnFamily} {phys value : Bytes} : Sparing [.put cf phys value] := by
  simp [Sparing]

theorem sparing_putScore {score : F64} {member : Bytes} :
    Sparing (putScore ctx key v score member) := by
  simp [Sparing, putScore]

theorem sparing_replaceScore {old score : F64} {member : Bytes} :
    Sparing (.delete .zsetScore (scoreSubkey ctx key v old member) ::
      putScore ctx key v score member) := by
  simp [Sparing, putScore]

/-- The record of the key, if it is one of a collection, has an element. -/
def Stocked (ctx : CommandContext) (key : Bytes) (store : Store) : Prop :=
  ∀ record type, store.get .metadata (ctx.metaKey key) = some record →
    valueType record = some type →
    type.collects →
    ∃ sub element, store.get .subkey (ctx.subKey key (versionOf record) sub) = some element

theorem versionOf_encodeMetadata (meta' : Metadata) :
    versionOf (encodeMetadata meta') = meta'.version := by
  simp [versionOf, encodeMetadata, wordAt]

/-- The record is put last. -/
theorem filled_write {meta' : Metadata} (sown : Sown ctx key meta'.version store batch) :
    Stocked ctx key (store.write
      (batch ++ [.put .metadata (ctx.metaKey key) (encodeMetadata meta')])) := by
  intro record _ own _ _
  rw [Store.write_append, Store.write_singleton, Store.get_apply_put, if_pos ⟨rfl, rfl⟩] at own
  obtain rfl := Option.some.inj own
  rw [versionOf_encodeMetadata]
  exact sown.append sparing_put

/-- The request leaves the store as it is, or the key filled. -/
def Fills (ctx : CommandContext) (key : Bytes) (store after : Store) : Prop :=
  after = store ∨ Stocked ctx key after

/-- The program does one of the two, however it ends. -/
def EndsFilled (ctx : CommandContext) (key : Bytes) (env : Env) (store : Store) {α : Type}
    (program : Prog α) : Prop :=
  Program.Ends env.handle program store (fun _ => Fills ctx key store)
    (fun _ => Fills ctx key store)

variable {α β : Type} {first : Prog α} {rest : α → Prog β}

theorem endsFilled_of_readOnly (reads : ReadOnly first) : EndsFilled ctx key env store first := by
  rcases @ReadOnly.exec_cases α first env store reads with ⟨value, ran⟩ | ⟨fault, ran⟩
  · exact Program.Ends.of_run ran (fun _ _ => .inl rfl) fun _ _ => .inl rfl
  · exact Program.Ends.of_run ran (fun _ _ => .inl rfl) fun _ _ => .inl rfl

theorem endsFilled_bind (reads : ReadOnly first)
    (next : ∀ value, exec env first store = (.ok value, store) → EndsFilled ctx key env store
      (rest value)) :
    EndsFilled ctx key env store (first >>= rest) :=
  reads.ends_bind (fun _ => .inl rfl) next

theorem endsFilled_bind_of_exec {value : α} (ran : exec env first store = (.ok value, store))
    (next : EndsFilled ctx key env store (rest value)) :
    EndsFilled ctx key env store (first >>= rest) := by
  refine Program.Ends.bind (Program.Ends.of_run ran ?_ fun _ _ => .inl rfl)
  rintro _ ⟨⟩
  exact next

theorem endsFilled_write {meta' : Metadata} {reply : α}
    (sown : Sown ctx key meta'.version store batch) :
    EndsFilled ctx key env store (Storage.write
      (batch ++ [.put .metadata (ctx.metaKey key) (encodeMetadata meta')]) >>=
        fun _ => pure reply) :=
  .inr (filled_write sown)

end Sowing

section Commands

variable {batch : WriteBatch} {v : UInt64}

theorem fills_hset (args : List Bytes) :
    EndsFilled ctx key env store (Cmd.hset ctx (key :: args)) := by
  rcases args with _ | ⟨field, _ | ⟨value, rest⟩⟩
  · exact endsFilled_of_readOnly (readOnly_raise _)
  · exact endsFilled_of_readOnly (readOnly_raise _)
  · rw [Cmd.hset]
    split_ifs
    · exact endsFilled_of_readOnly (readOnly_raise _)
    · refine endsFilled_bind
        (views_ensureHashMeta Observer.shares_single Observer.shares_single).readOnly
          fun meta' _ => ?_
      have ran := @exec_hsetLoop ctx key store env (field :: value :: rest) [] 0 meta'
      refine endsFilled_bind_of_exec ran (endsFilled_write ?_)
      have inside : .put .subkey (ctx.subKey key meta'.version field) value ∈
          putElements ctx key meta'.version (Cmd.pairUp (field :: value :: rest)) :=
            List.mem_cons_self
      exact sown_of_put inside (by simp [Sparing, putElements]) []

theorem version_pushLoop (side : ListEnd) (elements : List Bytes) (meta' : Metadata) :
    (pushLoop ctx side key elements batch meta').2.version = meta'.version := by
  induction elements generalizing batch meta' with
  | nil => rfl
  | cons element rest ih => cases side <;> exact ih _

theorem sown_pushLoop (side : ListEnd) (elements : List Bytes) (meta' : Metadata)
    (sown : Sown ctx key meta'.version store batch) :
    Sown ctx key meta'.version store (pushLoop ctx side key elements batch meta').1 := by
  induction elements generalizing batch meta' with
  | nil => exact sown
  | cons element rest ih => cases side <;> exact ih _ (sown.append sparing_put)

theorem fills_push (side : ListEnd) (args : List Bytes) :
    EndsFilled ctx key env store (Cmd.push ctx side (key :: args)) := by
  match args with
  | [] => exact endsFilled_of_readOnly (readOnly_raise _)
  | element :: rest =>
    refine endsFilled_bind
      (views_ensureListMeta Observer.shares_single Observer.shares_single).readOnly
        fun meta' _ => ?_
    have sown : Sown ctx key (pushLoop ctx side key (element :: rest) [] meta').2.version store
        (pushLoop ctx side key (element :: rest) [] meta').1 := by
      rw [version_pushLoop]
      cases side <;>
        exact sown_pushLoop _ rest _ (sown_of_put (List.mem_singleton_self _) sparing_put [])
    exact endsFilled_write sown

/-- The loop of `SADD` keeps what it has sown. -/
theorem ends_saddLoop (members seen : List Bytes) (added : Int64)
    (sown : Sown ctx key v store batch) :
    Program.Ends env.handle (saddLoop ctx key v members seen batch added) store
      (fun result after => after = store ∧ Sown ctx key v store result.1)
      (fun _ after => after = store) := by
  induction members generalizing seen batch added with
  | nil => exact Program.ends_pure ⟨rfl, sown⟩
  | cons member rest ih =>
    rw [saddLoop]
    split_ifs
    · exact ih _ _ sown
    · refine ends_get_bind ?_
      cases store.get .subkey (ctx.subKey key v member) with
      | none => exact ih _ _ (sown.append sparing_put)
      | some _ => exact ih _ _ sown

/-- The first member is stored already, or put. -/
theorem ends_saddLoop_cons (member : Bytes) (rest : List Bytes) :
    Program.Ends env.handle (saddLoop ctx key v (member :: rest) [] [] 0) store
      (fun result after => after = store ∧ Sown ctx key v store result.1)
      (fun _ after => after = store) := by
  rw [saddLoop, if_neg List.not_mem_nil]
  refine ends_get_bind ?_
  cases stored : store.get .subkey (ctx.subKey key v member) with
  | none => exact ends_saddLoop _ _ _ (sown_of_put (List.mem_singleton_self _) sparing_put [])
  | some _ => exact ends_saddLoop _ _ _ (sown_of_stored stored)

theorem fills_sadd (args : List Bytes) :
    EndsFilled ctx key env store (Cmd.sadd ctx (key :: args)) := by
  match args with
  | [] => exact endsFilled_of_readOnly (readOnly_raise _)
  | member :: rest =>
    refine endsFilled_bind
      (views_ensureSetMeta Observer.shares_single Observer.shares_single).readOnly
        fun ⟨meta', isNew⟩ _ => ?_
    refine Program.Ends.bind ((ends_saddLoop_cons member rest).mono ?_ fun _ _ => .inl)
    rintro ⟨batch, added⟩ _ ⟨rfl, sown⟩
    dsimp only
    split_ifs
    · exact endsFilled_write sown
    · exact Program.ends_pure (.inl rfl)

/-- A member of a sorted set is put wherever a score is. -/
theorem sown_putScore {score : F64} {member : Bytes} (batch : WriteBatch) :
    Sown ctx key v store (batch ++ putScore ctx key v score member) :=
  sown_of_put List.mem_cons_self sparing_putScore batch

theorem sown_replaceScore {old score : F64} {member : Bytes} (batch : WriteBatch) :
    Sown ctx key v store (batch ++ (.delete .zsetScore (scoreSubkey ctx key v old member) ::
      putScore ctx key v score member)) :=
  sown_of_put (List.mem_cons_of_mem _ List.mem_cons_self) sparing_replaceScore batch

theorem fills_zincrby (args : List Bytes) :
    EndsFilled ctx key env store (zincrby ctx (key :: args)) := by
  match args with
  | [] | [_] | _ :: _ :: _ :: _ => exact endsFilled_of_readOnly (readOnly_raise _)
  | [increment, member] =>
    refine endsFilled_bind (viewed_parseScore increment).readOnly fun increment _ => ?_
    refine endsFilled_bind
      (views_ensureZsetMeta Observer.shares_single Observer.shares_single).readOnly
        fun meta' _ => ?_
    refine ends_get_bind ?_
    cases store.get .subkey (memberSubkey ctx key meta'.version member) with
    | none => exact endsFilled_write (sown_putScore [])
    | some old =>
      refine endsFilled_bind (viewed_scoreOfValue old).readOnly fun score _ => ?_
      dsimp only
      split_ifs
      · exact endsFilled_write (sown_replaceScore [])
      · exact endsFilled_of_readOnly (readOnly_raise _)

theorem fills_zaddIncr (flags : ZaddFlags) (meta' : Metadata) (scoreArg member : Bytes) :
    EndsFilled ctx key env store (zaddIncr ctx key flags meta' scoreArg member) := by
  refine endsFilled_bind (viewed_parseScore scoreArg).readOnly fun score _ => ?_
  refine ends_get_bind ?_
  dsimp only
  split_ifs
  · exact Program.ends_pure (.inl rfl)
  · exact Program.ends_pure (.inl rfl)
  · cases store.get .subkey (memberSubkey ctx key meta'.version member) with
    | none => exact endsFilled_write (sown_putScore [])
    | some old =>
      refine endsFilled_bind (viewed_scoreOfValue old).readOnly fun oldScore _ => ?_
      split_ifs
      · exact Program.ends_pure (.inl rfl)
      · exact Program.ends_pure (.inl rfl)
      · exact endsFilled_write (sown_replaceScore [])
      · exact endsFilled_of_readOnly (readOnly_raise _)

/-- What the loop of `ZADD` leads to: a batch that sows the version it works on. -/
def SowsState (ctx : CommandContext) (key : Bytes) (store : Store) (state : ZaddState) : Prop :=
  Sown ctx key state.meta'.version store state.batch

theorem ends_zaddLoop (flags : ZaddFlags) (updates : List (Bytes × F64)) (state : ZaddState)
    (sown : SowsState ctx key store state) :
    Program.Ends env.handle (zaddLoop ctx key flags updates state) store
      (fun final after => after = store ∧ SowsState ctx key store final)
      (fun _ after => after = store) := by
  induction updates generalizing state with
  | nil => exact Program.ends_pure ⟨rfl, sown⟩
  | cons update updates ih =>
    obtain ⟨member, score⟩ := update
    rw [zaddLoop]
    refine ends_get_bind ?_
    cases store.get .subkey (memberSubkey ctx key state.meta'.version member) with
    | some old =>
      refine (viewed_scoreOfValue old).readOnly.ends_bind (fun _ => rfl) fun oldScore _ => ?_
      split_ifs
      · exact ih state sown
      · exact ih state sown
      · exact ih state sown
      · exact ih state sown
      · exact ih _ (sown_replaceScore state.batch)
    | none =>
      dsimp only
      split_ifs
      · exact ih state sown
      · exact ih _ (sown_putScore state.batch)

/-- Without `XX` the first member is stored already, or put. -/
theorem ends_zaddLoop_cons {flags : ZaddFlags} (creates : flags.xx = false)
    (update : Bytes × F64) (updates : List (Bytes × F64)) (meta' : Metadata) :
    Program.Ends env.handle (zaddLoop ctx key flags (update :: updates) ⟨[], 0, 0, meta'⟩) store
      (fun final after => after = store ∧ SowsState ctx key store final)
      (fun _ after => after = store) := by
  obtain ⟨member, score⟩ := update
  cases stored : store.get .subkey (memberSubkey ctx key meta'.version member) with
  | some old => exact ends_zaddLoop flags _ _ (sown_of_stored stored)
  | none =>
    rw [zaddLoop]
    refine ends_get_bind ?_
    rw [stored]
    simp only [creates, Bool.false_eq_true, if_false]
    exact ends_zaddLoop flags _ _ (sown_putScore [])

theorem insertUpdate_ne_nil (member : Bytes) (score : F64) (updates : List (Bytes × F64)) :
    insertUpdate member score updates ≠ [] := by
  cases updates with
  | nil => exact List.cons_ne_nil _ _
  | cons update updates =>
    rw [insertUpdate]
    split_ifs <;> exact List.cons_ne_nil _ _

theorem reads_zaddUpdates_of_ne_nil (pairs : List Bytes) (updates : List (Bytes × F64))
    (nonempty : updates ≠ []) : Reads (· ≠ []) (zaddUpdates ctx pairs updates) := by
  fun_induction zaddUpdates ctx pairs updates with
  | case1 scoreArg member rest updates ih =>
    exact Program.Respects.bind (viewed_parseScore scoreArg).readOnly fun score _ =>
      ih score (insertUpdate_ne_nil member score updates)
  | case2 pairs updates => exact Program.respects_pure nonempty

/-- The hash table lists all members that have a score. -/
theorem zaddOrder_ne_nil (env : Env) {updates : List (Bytes × F64)} (nonempty : updates ≠ []) :
    ((env.hashOrder (updates.map Prod.fst)).filterMap fun member =>
      (updates.lookup member).map fun score => (member, score)) ≠ [] := by
  obtain ⟨⟨member, score⟩, rest, rfl⟩ := List.exists_cons_of_ne_nil nonempty
  have inside : member ∈ env.hashOrder (((member, score) :: rest).map Prod.fst) :=
    (env.hashOrder_perm _).mem_iff.mpr List.mem_cons_self
  have listed : (member, score) ∈ (env.hashOrder (((member, score) :: rest).map Prod.fst)).filterMap
      fun other => (((member, score) :: rest).lookup other).map fun score => (other, score) :=
    List.mem_filterMap.mpr ⟨member, inside, by simp⟩
  exact List.ne_nil_of_mem listed

/-- The body of `ZADD` without `INCR`. -/
theorem fills_zaddUpdates {flags : ZaddFlags} (creates : flags.xx = false) (meta' : Metadata)
    {pairs : List Bytes} (paired : ¬ (pairs = [] ∨ pairs.length % 2 ≠ 0))
    (reply : ZaddState → RespValue) :
    EndsFilled ctx key env store (do
      let updates ← zaddUpdates ctx pairs []
      let updates ← zaddOrder updates
      let state ← zaddLoop ctx key flags updates ⟨[], 0, 0, meta'⟩
      Storage.write (state.batch ++ [.put .metadata (ctx.metaKey key) (encodeMetadata state.meta')])
      return reply state) := by
  match pairs with
  | [] => exact absurd (.inl rfl) paired
  | [_] => exact absurd (.inr (by simp)) paired
  | scoreArg :: member :: rest =>
    rw [zaddUpdates, bind_assoc]
    refine endsFilled_bind (viewed_parseScore scoreArg).readOnly fun score _ => ?_
    have updated := @reads_zaddUpdates_of_ne_nil ctx rest _ (insertUpdate_ne_nil member score [])
    refine endsFilled_bind updated.readOnly fun updates ran => ?_
    refine endsFilled_bind_of_exec (exec_zaddOrder updates) ?_
    obtain ⟨update, ordered, listed⟩ :=
      List.exists_cons_of_ne_nil (zaddOrder_ne_nil env (updated.run_value ran))
    rw [listed]
    refine Program.Ends.bind
      ((ends_zaddLoop_cons creates update ordered meta').mono ?_ fun _ _ => .inl)
    rintro final _ ⟨rfl, sown⟩
    exact endsFilled_write sown

theorem reads_parseZaddFlags (args : List Bytes) :
    Reads (fun parsed => updatesOnly args = (parsed.1.xx && !parsed.1.incr))
      (parseZaddFlags args) := by
  unfold parseZaddFlags
  dsimp only
  split_ifs
  · exact trivial
  · exact trivial
  · exact trivial
  · exact Program.respects_pure rfl

theorem fills_zadd (args : List Bytes) (creates : updatesOnly args = false) :
    EndsFilled ctx key env store (Cmd.zadd ctx (key :: args)) := by
  match args with
  | [] | [_] => exact endsFilled_of_readOnly (readOnly_raise _)
  | arg :: arg' :: args =>
    have flagsFirst := reads_parseZaddFlags (arg :: arg' :: args)
    refine endsFilled_bind flagsFirst.readOnly fun ⟨flags, pairs⟩ parsed => ?_
    rw [flagsFirst.run_value parsed] at creates
    dsimp only at creates ⊢
    by_cases odd : pairs = [] ∨ pairs.length % 2 ≠ 0
    · rw [if_pos odd]
      exact endsFilled_of_readOnly (readOnly_raise _)
    by_cases single : flags.incr ∧ pairs.length ≠ 2
    · rw [if_neg odd, if_pos single]
      exact endsFilled_of_readOnly (readOnly_raise _)
    rw [if_neg odd, if_neg single]
    refine endsFilled_bind
      (views_ensureZsetMeta Observer.shares_single Observer.shares_single).readOnly
        fun meta' _ => ?_
    by_cases incr : flags.incr = true
    · rw [if_pos incr]
      match pairs with
      | [scoreArg, member] => exact fills_zaddIncr flags meta' scoreArg member
      | [] | [_] | _ :: _ :: _ :: _ => exact Program.ends_fail (.inl rfl)
    · rw [if_neg incr]
      refine fills_zaddUpdates ?_ meta' odd _
      simpa [incr] using creates

/-- A command that adds elements to a collection leaves it filled, except for a
`ZADD` that only updates. -/
theorem Command.fills {command : Command} {type : DataType} {args : List Bytes}
    (adds : command.adds = some type) (collects : type.collects)
    (creates : command = .zadd → updatesOnly args = false) :
    EndsFilled ctx key env store (command.run ctx (key :: args)) := by
  cases command <;> cases adds
  case hset => exact fills_hset args
  case lpush => exact fills_push .left args
  case rpush => exact fills_push .right args
  case sadd => exact fills_sadd args
  case zadd => exact fills_zadd args (creates rfl)
  case zincrby => exact fills_zincrby args
  case setbit => cases collects
  case xadd => cases collects

end Commands

section Steps

variable {batch : WriteBatch} {type : DataType} {v : UInt64} {removed : List Bytes}

/-- What a run keeps up: the records of short keys are filled, and there are no
others. -/
structure AllFilled (ctx : CommandContext) (store : Store) : Prop where
  regular : store.Regular
  owned : store.Owned ctx
  keyed : store.Keyed ctx
  filled : ∀ key : Bytes, key.length < 2 ^ 24 → Stocked ctx key store

theorem AllFilled.noneEmpty (all : AllFilled ctx store) : NoneEmpty ctx store := by
  intro phys value meta' type stored decoded typed collects
  obtain ⟨key, short, rfl⟩ := all.keyed phys value stored
  rw [(decodeMetadata_fields decoded).2.1]
  obtain ⟨sub, element, found⟩ :=
    all.filled key short value type stored ((valueType_of_decoded decoded).trans typed) collects
  exact ⟨key, sub, element, rfl, found⟩

/-- A key stays filled where its record, if it is one of a collection, keeps type and
version, and no element goes. -/
theorem Stocked.kept {after : Store} (filled : Stocked ctx key store)
    (records : ∀ record type, after.get .metadata (ctx.metaKey key) = some record →
      valueType record = some type → type.collects →
      ∃ record', store.get .metadata (ctx.metaKey key) = some record' ∧
        valueType record' = some type ∧ versionOf record' = versionOf record)
    (elements : ∀ v sub element, store.get .subkey (ctx.subKey key v sub) = some element →
      ∃ element', after.get .subkey (ctx.subKey key v sub) = some element') :
      Stocked ctx key after := by
  intro record type own typed collects
  obtain ⟨record', own', typed', version⟩ := records record type own typed collects
  obtain ⟨sub, element, stored⟩ := filled record' type own' typed' collects
  rw [version] at stored
  obtain ⟨element', kept⟩ := elements _ sub element stored
  exact ⟨sub, element', kept⟩

/-- A key is filled as before if nothing of it has changed. -/
theorem Stocked.unchanged {after : Store} (filled : Stocked ctx key store)
    (record : after.get .metadata (ctx.metaKey key) = store.get .metadata (ctx.metaKey key))
    (elements : ∀ v sub, after.get .subkey (ctx.subKey key v sub) = store.get .subkey
      (ctx.subKey key v sub)) :
    Stocked ctx key after := by
  refine filled.kept (fun value type own typed _ => ⟨value, record.symm.trans own, typed, rfl⟩) ?_
  exact fun v sub element stored => ⟨element, (elements v sub).trans stored⟩

theorem Stocked.texts {keys : List Bytes} (filled : Stocked ctx key store)
    (texts : Cmd.Texts ctx keys batch) : Stocked ctx key (store.write batch) := by
  refine filled.kept (fun record type own typed collects => ?_) fun v sub element stored => ?_
  · rcases texts.metadata_cases store (ctx.metaKey key) with same | ⟨_, -, -, expire, payload, put⟩
    · exact ⟨record, same.symm.trans own, typed, rfl⟩
    · obtain rfl := Option.some.inj (put.symm.trans own)
      rw [valueType_encodeString] at typed
      cases typed
      cases collects
  · exact ⟨element, (texts.element store (by decide) _).trans stored⟩

theorem Stocked.redated {value other : Bytes} (filled : Stocked ctx key store)
    (found : store.get .metadata (ctx.metaKey other) = some value)
    (redated : Redated ctx other value batch) : Stocked ctx key (store.write batch) := by
  refine filled.kept (fun record type own typed collects => ?_) fun v sub element stored => ?_
  · rcases redated.metadata_cases store (ctx.metaKey key) with
      same | ⟨same, encoded, put, type', version⟩
    · exact ⟨record, same.symm.trans own, typed, rfl⟩
    · obtain rfl := metadataKey_inj same
      obtain rfl := Option.some.inj (put.symm.trans own)
      rw [type'] at typed
      refine ⟨value, found, typed, (version ?_).symm⟩
      rw [typed]
      rintro ⟨⟩
      cases collects
  · exact ⟨element, (redated.element store (by decide) _).trans stored⟩

theorem Stocked.apart {other : Bytes} (filled : Stocked ctx key store) (short : key.length < 2 ^ 24)
    (short' : other.length < 2 ^ 24) (different : key ≠ other)
    (edits : BatchEdits ctx other type v removed batch) : Stocked ctx key (store.write batch) := by
  have long : ∀ k ∈ [other], k.length < 2 ^ 32 := by
    rw [List.forall_mem_singleton]
    exact Nat.lt_trans short' (by decide)
  have outside : key ∉ [other] := by simpa using different
  refine filled.unchanged ?_ fun v sub => ?_
  · exact edits.onKeys.record_apart outside store
  · exact edits.onKeys.element_apart long (Nat.lt_trans short (by decide)) outside
      (by decide) v sub store

/-- A key stays filled if an element of the version of its edits is spared. -/
theorem filled_of_spared {sub element : Bytes} (edits : BatchEdits ctx key type v removed batch)
    (current : ∀ record, store.get .metadata (ctx.metaKey key) = some record → versionOf record = v)
    (stored : store.get .subkey (ctx.subKey key v sub) = some element) (spared : sub ∉ removed) :
    Stocked ctx key (store.write batch) := by
  intro record _ own _ _
  have version : versionOf record = v := by
    rcases edits.metaKey_cases store with same | ⟨record', put, recordOf⟩
    · exact current record (same.symm.trans own)
    · obtain rfl := Option.some.inj (put.symm.trans own)
      exact recordOf.versionOf_eq
  rw [version]
  rcases edits.element_cases store (by decide : ColumnFamily.subkey ≠ .metadata)
    (ctx.subKey key v sub) with
    same | ⟨sub', named, -, ⟨value, put⟩ | gone⟩
  · exact ⟨sub, element, same.trans stored⟩
  · exact ⟨sub, value, put⟩
  · obtain rfl := (CommandContext.subKey_inj.mp named).2
    exact absurd (gone rfl) spared

theorem Stocked.deleted {other : Bytes} (filled : Stocked ctx key store)
    (short : key.length < 2 ^ 24) (short' : other.length < 2 ^ 24) :
    Stocked ctx key (store.deleted ctx other) := by
  by_cases same : key = other
  · subst same
    intro record _ own
    rw [Store.get_metaKey_deleted] at own
    cases own
  · have outside := @metaKey_not_isPrefix ctx key other (Nat.lt_trans short (by decide))
      (Nat.lt_trans short' (by decide)) same
    refine filled.unchanged ?_ fun v sub => ?_
    · refine Store.get_deleted_of_ne (fun _ equal => ?_) fun absent => absurd rfl absent
      exact same (metadataKey_inj equal)
    · exact Store.get_deleted_of_ne nofun fun _ => outside _

theorem Stocked.foldl_deleted {keys : List Bytes} (filled : Stocked ctx key store)
    (short : key.length < 2 ^ 24) (short' : ∀ other ∈ keys, other.length < 2 ^ 24) :
    Stocked ctx key (keys.foldl (Store.deleted ctx) store) := by
  induction keys generalizing store with
  | nil => exact filled
  | cons other rest ih =>
    obtain ⟨first, others⟩ := List.forall_mem_cons.mp short'
    exact ih (filled.deleted short first) others

/-- The keys that a request edits are filled afterwards. -/
theorem AllFilled.edited {other : Bytes} (all : AllFilled ctx store) (short : key.length < 2 ^ 24)
    (short' : other.length < 2 ^ 24) (edits : BatchEdits ctx other type v removed batch)
    (self : Stocked ctx other (store.write batch)) : Stocked ctx key (store.write batch) := by
  by_cases same : key = other
  · rw [same]
    exact self
  · exact (all.filled key short).apart short short' same edits

/-- A request that sustains the collections keeps all records filled. -/
theorem AllFilled.after (all : AllFilled ctx store) (sustains : request.Sustains ctx store) :
    AllFilled ctx (request.after ctx store) := by
  refine ⟨request.regular_after all.regular, all.owned.after sustains.short,
    all.keyed.after sustains.short, fun key short => ?_⟩
  have change := @Request.change ctx store all.regular request
  have short' := sustains.short
  unfold Request.ShortKeys at short'
  -- What the adding commands do to their key is known of the run as a whole.
  have added (type : DataType) (other : Bytes) (args : List Bytes)
      (adds : request.command.adds = some type)
      (named : request.args = other :: args) (collects : type.collects)
      (creates : request.command = .zadd → updatesOnly args = false) :
      Fills ctx other store (request.after ctx store) := by
    rw [Request.after_eq, named]
    exact (Command.fills adds collects creates).run_state
  generalize request.after ctx store = after at change added ⊢
  have filled := all.filled key short
  cases change with
  | none => exact filled
  | texts texts => exact filled.texts texts
  | redated deadline named found redated =>
    rw [named, List.forall_mem_singleton] at short'
    rw [all.owned.lookupMeta short'] at found
    exact filled.redated found redated
  | @added other args type v batch adds named opened additions =>
    rw [named, Command.writtenKeys_of_adds adds, List.forall_mem_singleton] at short'
    refine all.edited short short' additions.edits ?_
    intro record type' own typed collects
    obtain ⟨_, put, recordOf⟩ := additions.metaKey store
    obtain rfl := Option.some.inj (put.symm.trans own)
    obtain rfl := Option.some.inj (recordOf.valueType_eq.symm.trans typed)
    by_cases creates : request.command = .zadd → updatesOnly args = false
    · rcases added _ other args adds named collects creates with same | filled'
      · rw [same] at own ⊢
        exact all.filled other short' _ _ own typed collects
      · exact filled' _ _ own typed collects
    · -- The sorted set that is updated is there, and was filled.
      rw [Classical.not_imp, Bool.not_eq_false] at creates
      obtain ⟨value, stored, live⟩ := sustains.updates other args creates.1 named creates.2
      cases opened with
      | absent none => exact absurd (none.symm.trans stored) nofun
      | expired stored' other' expired =>
        obtain rfl := Option.some.inj (stored.symm.trans stored')
        exact absurd (live.symm.trans expired) nofun
      | found stored' typed' =>
        have own' := (all.owned.lookupMeta short').symm.trans stored'
        obtain ⟨sub, element, there⟩ := all.filled other short' _ _ own' typed' collects
        refine filled_of_spared additions.edits ?_ there List.not_mem_nil _ _ own typed collects
        intro record own''
        rw [Option.some.inj (own''.symm.trans own')]
  | @renewed other batch bitop named additions =>
    rw [named, List.forall_mem_singleton] at short'
    refine all.edited short short' additions.edits ?_
    intro record type own typed collects
    obtain ⟨_, put, recordOf⟩ := additions.metaKey store
    obtain rfl := Option.some.inj (put.symm.trans own)
    obtain rfl := Option.some.inj (recordOf.valueType_eq.symm.trans typed)
    cases collects
  | @removed other value args type meta' batch removes named removal edits =>
    rw [named, Command.writtenKeys_of_removes removes, List.forall_mem_singleton] at short'
    have own := (all.owned.lookupMeta short').symm.trans removal.stored
    obtain ⟨sub, element, spared, there⟩ :=
      sustains.spares type other args value meta' removes named removal
    refine all.edited short short' edits (filled_of_spared edits ?_ there spared)
    intro record own'
    rw [Option.some.inj (own'.symm.trans own)]
    exact (decodeMetadata_fields removal.decoded).2.1.symm
  | deleted del =>
    rw [del] at short'
    exact filled.foldl_deleted short short'
  | flushed =>
    intro record _ own
    simp [Store.get_without, namespacePrefix_metaKey] at own

end Steps

section Runs

variable {requests : List Request}

theorem allFilled_empty : AllFilled ctx .empty where
  regular := Store.regular_empty
  owned := Store.owned_empty
  keyed := Store.keyed_empty
  filled := nofun

/-- In a run of requests that remove no last element and make no empty sorted set,
every record of a hash, list, set or sorted set has an element. -/
theorem none_empty_of_sustains
    (run : Runs ctx (fun before request => request.Sustains ctx before) .empty requests store) :
    NoneEmpty ctx store := by
  have all : AllFilled ctx store :=
    run.invariant allFilled_empty fun _ _ sustains all => all.after sustains
  exact all.noneEmpty

/-- A hash keeps one of its two fields. -/
theorem none_empty_after_hdel :
    let requests : List Request := [⟨.hset, ["k", "f", "1", "g", "2"].map ascii, .plain 1⟩,
      ⟨.hdel, ["k", "f"].map ascii, .plain 2⟩]
    NoneEmpty .plain (requests.foldl (Request.after .plain) .empty) := by
  intro requests
  have first : Request.Sustains .plain .empty
      ⟨.hset, ["k", "f", "1", "g", "2"].map ascii, .plain 1⟩ :=
    ⟨by decide, nofun, nofun⟩
  have second : Request.Sustains .plain ((requests.take 1).foldl (Request.after .plain) .empty)
      ⟨.hdel, ["k", "f"].map ascii, .plain 2⟩ := by
    refine ⟨by decide, ?_, nofun⟩
    rintro _ _ _ value meta' ⟨⟩ ⟨⟩ removal
    refine ⟨ascii "g", ascii "2", (by decide : ascii "g" ∉ [ascii "f"]), ?_⟩
    have record : CommandContext.plain.lookupMeta
        ((requests.take 1).foldl (Request.after .plain) .empty)
        (ascii "k") =
          some (encodeMetadata { Metadata.new .hash (Env.plain 1).version with size := 2 }) := by
      decide
    obtain rfl := Option.some.inj (removal.stored.symm.trans record)
    have version : meta'.version = (Env.plain 1).version := by
      rw [(decodeMetadata_fields removal.decoded).2.1]
      exact versionOf_encodeMetadata _
    rw [version]
    decide
  exact none_empty_of_sustains (.next (.next .refl first) second)

/-- Removing the only field of a hash leaves an empty hash: the key exists and is
counted, and no list can be made under it. `ZADD` with `XX` makes an empty sorted
set. -/
theorem hdel_leaves_empty_hash :
    let requests : List Request :=
      [⟨.hset, ["h", "f", "1"].map ascii, .plain 1⟩, ⟨.hdel, ["h", "f"].map ascii, .plain 2⟩]
    let store := requests.foldl (Request.after .plain) .empty
    let update : Request := ⟨.zadd, ["z", "XX", "inf", "m"].map ascii, .plain 3⟩
    ¬ NoneEmpty .plain store ∧
      Request.reply .plain store ⟨.exists', ["h"].map ascii, .plain 3⟩ = .ok (.integer 1) ∧
      Request.reply .plain store ⟨.dbsize, [], .plain 3⟩ = .ok (.integer 1) ∧
      Request.reply .plain store ⟨.lpush, ["h", "x"].map ascii, .plain 3⟩ =
        .ok (.error "WRONGTYPE Operation against a key holding the wrong kind of value") ∧
      Request.reply .plain (update.after .plain .empty) ⟨.exists', ["z"].map ascii, .plain 4⟩ =
        .ok (.integer 1) := by
  intro requests store update
  refine ⟨fun none =>
    ?_, by decide, by decide, by decide, by decide⟩
  have record : store.get .metadata (CommandContext.plain.metaKey (ascii "h")) =
      some (encodeMetadata (Metadata.new .hash (Env.plain 1).version)) := by
    decide
  obtain ⟨key, sub, element, -, stored⟩ := none _ _ _ .hash record
    (decodeMetadata_encodeMetadata (Metadata.new_dataType _ _) fun _ => ⟨rfl, rfl⟩)
    (Metadata.new_dataType _ _) rfl
  have bare : (store.family .subkey).entries = [] := by decide
  have inside := (OrderedMap.mem_entries _).mpr stored
  rw [bare] at inside
  cases inside

end Runs

end Kvdb
