import Kvdb.Command.Observation
import Kvdb.Expiry.Rewrite

/-!
# What a request does to the record of its key

A command that adds elements works on the version of the record it finds, or on a
version it draws for a new record where there is none or an expired one. A
command that removes elements works on the record it finds. `EXPIRE` and
`PERSIST` change the deadline of a value, and string commands put a string.
-/

namespace Kvdb

open Data Semantics Cmd

variable {ctx : CommandContext} {key : Bytes} {env : Env} {store : Store} {type : DataType}
  {v : UInt64} {α ρ : Type}

section Values

def valueType (value : Bytes) : Option DataType := dataTypeFromFlags (firstByte value)

theorem valueType_of_decoded {value : Bytes} {meta' : Metadata}
    (decoded : decodeMetadata value = some meta') : valueType value = meta'.dataType := by
  rw [valueType, ← (decodeMetadata_eq_some decoded).2.1]
  rfl

/-- A loader finds a record of its type that has not expired, under the version in
the value, and drops a value only if it has expired. Hashes do not expire. -/
structure Opens (type : DataType) (version : ρ → UInt64)
    (judge : Bytes → Int64 → Except Fault (Option ρ)) : Prop where
  found : ∀ value now record, judge value now = .ok (some record) →
    valueType value = some type ∧ version record = versionOf value ∧
      (type = .hash ∨ expiredAt (deadlineOf value) now = false)
  dropped : ∀ value now, value ≠ [] → judge value now = .ok none →
    type ≠ .hash ∧ expiredAt (deadlineOf value) now = true

/-- Judging by the deadline. -/
theorem opens_dated {check : Bytes → Except Fault ρ} {expire : ρ → Int64} {version : ρ → UInt64}
    (composite : type ≠ .hash)
    (fields : ∀ value record, check value = .ok record → valueType value = some type ∧
      version record = versionOf value ∧ expire record = deadlineOf value) :
    Opens type version fun value now => (check value).map (dated expire now) := by
  constructor
  · intro value now record judged
    cases checked : check value with
    | error fault => simp [checked, Except.map] at judged
    | ok found =>
      obtain ⟨typed, versioned, deadline⟩ := fields value found checked
      simp only [checked, Except.map, dated, Except.ok.injEq, deadline] at judged
      split_ifs at judged with expired
      cases judged
      exact ⟨typed, versioned, .inr (Bool.eq_false_iff.mpr expired)⟩
  · intro value now _ judged
    cases checked : check value with
    | error fault => simp [checked, Except.map] at judged
    | ok found =>
      simp only [checked, Except.map, dated, Except.ok.injEq, (fields value found checked).2.2]
        at judged
      split_ifs at judged with expired
      exact ⟨composite, expired⟩

theorem checkMetadata_valueType {value : Bytes} {invalid : String} {meta' : Metadata}
    (checked : checkMetadata type invalid value = .ok meta') :
    valueType value = some type ∧ meta'.version = versionOf value ∧
      meta'.expire = deadlineOf value := by
  obtain ⟨-, decoded, known⟩ := checkMetadata_eq_ok checked
  exact ⟨(valueType_of_decoded decoded).trans known.typed, (decodeMetadata_fields decoded).2.1,
    (decodeMetadata_fields decoded).1⟩

theorem opens_judgeLive (composite : type ≠ .hash) (invalid : String) :
    Opens type Metadata.version (judgeLive type invalid) :=
  opens_dated composite fun _ _ checked => checkMetadata_valueType checked

theorem judgeHash_eq_some {value : Bytes} {now : Int64} {meta' : Metadata}
    (judged : judgeHash value now = .ok (some meta')) :
    checkMetadata .hash "invalid metadata encoding" value = .ok meta' := by
  rw [judgeHash, decodeAndCheckHash] at judged
  cases checked : checkMetadata .hash "invalid metadata encoding" value with
  | error fault => simp [checked, Except.map] at judged
  | ok found =>
    simp only [checked, Except.map, Except.ok.injEq, Option.some.injEq] at judged
    rw [judged]

theorem opens_judgeHash : Opens .hash Metadata.version judgeHash := by
  constructor
  · intro value now record judged
    obtain ⟨typed, version, -⟩ := checkMetadata_valueType (judgeHash_eq_some judged)
    exact ⟨typed, version, .inl rfl⟩
  · intro value now _ judged
    rw [judgeHash, decodeAndCheckHash] at judged
    cases checked : checkMetadata .hash "invalid metadata encoding" value <;>
      simp [checked, Except.map] at judged

theorem opens_judgeZset : Opens .zset Metadata.version judgeZset := by
  constructor
  · intro value now record judged
    obtain ⟨decoded, sorted, live⟩ := judgeZset_eq_some judged
    refine ⟨(valueType_of_decoded decoded).trans sorted,
      (decodeMetadata_fields decoded).2.1, .inr ?_⟩
    rw [← (decodeMetadata_fields decoded).1]
    exact live
  · intro value now nonempty judged
    obtain ⟨meta', decoded, ⟨expired, -⟩ | ⟨-, -, ⟨⟩⟩⟩ := judgeZset_eq_ok nonempty judged
    rw [← (decodeMetadata_fields decoded).1]
    exact ⟨by decide, expired⟩

theorem checkStreamMeta_valueType {value : Bytes} {meta' : StreamMeta}
    (checked : checkStreamMeta value = .ok meta') :
    valueType value = some .stream ∧ meta'.version = versionOf value ∧
      meta'.expire = deadlineOf value := by
  obtain ⟨-, version, expire, known⟩ := checkStreamMeta_eq_ok checked
  refine ⟨?_, version, expire⟩
  suffices first : meta'.flags = firstByte value by rw [valueType, ← first, known]
  unfold checkStreamMeta at checked
  split_ifs at checked
  cases decoded : decodeStreamMeta value with
  | some record =>
    simp only [decoded] at checked
    split_ifs at checked
    cases checked
    unfold decodeStreamMeta at decoded
    split_ifs at decoded
    cases decoded
    rfl
  | none =>
    cases common : decodeMetadata value with
    | none => simp [decoded, common] at checked
    | some record =>
      simp only [decoded, common] at checked
      split_ifs at checked
      cases checked
      exact (decodeMetadata_eq_some common).2.1

theorem opens_judgeStream : Opens .stream StreamMeta.version judgeStream :=
  opens_dated (by decide) fun _ _ checked => checkStreamMeta_valueType checked

end Values

section Loaders

/-- The version that a command of a type works on: that of the record it finds, or
one that it draws. -/
inductive Opened (ctx : CommandContext) (env : Env) (store : Store) (key : Bytes)
    (type : DataType) :
    UInt64 → Prop
  | found {value : Bytes} (stored : ctx.lookupMeta store key = some value)
      (typed : valueType value = some type)
      (live : type = .hash ∨ expiredAt (deadlineOf value) env.nowMs = false) :
      Opened ctx env store key type (versionOf value)
  | absent (none : ctx.lookupMeta store key = none) : Opened ctx env store key type env.version
  | expired {value : Bytes} (stored : ctx.lookupMeta store key = some value) (other : type ≠ .hash)
      (expired : expiredAt (deadlineOf value) env.nowMs = true) :
      Opened ctx env store key type env.version

variable {load : Prog (Option ρ)} {judge : Bytes → Int64 → Except Fault (Option ρ)}
  {version : ρ → UInt64}

theorem lookupMeta_ne_nil (regular : store.Regular) {value : Bytes}
    (stored : ctx.lookupMeta store key = some value) : value ≠ [] := by
  rw [CommandContext.lookupMeta, Option.or_eq_some_iff] at stored
  rcases stored with own | ⟨-, legacy⟩
  · exact (regular _ _ own).ne_nil
  · split_ifs at legacy
    exact (regular _ _ legacy).ne_nil

/-- A loader opens the record it finds. -/
theorem Opens.opened_found (opens : Opens type version judge) (judges : Judges ctx key load judge)
    {record : ρ} (loaded : exec env load store = (.ok (some record), store)) :
    ∃ value, ctx.lookupMeta store key = some value ∧ judge value env.nowMs = .ok (some record) ∧
      valueType value = some type ∧ version record = versionOf value ∧
      (type = .hash ∨ expiredAt (deadlineOf value) env.nowMs = false) := by
  have judged := congrArg Prod.fst ((judges env store).symm.trans loaded)
  cases stored : ctx.lookupMeta store key with
  | none => simp [stored] at judged
  | some value =>
    rw [stored] at judged
    exact ⟨value, rfl, judged, opens.found value env.nowMs record judged⟩

/-- Where a loader finds nothing, a version is drawn. -/
theorem Opens.opened_none (opens : Opens type version judge) (judges : Judges ctx key load judge)
    (regular : store.Regular) (loaded : exec env load store = (.ok none, store)) :
    Opened ctx env store key type env.version := by
  have judged := congrArg Prod.fst ((judges env store).symm.trans loaded)
  cases stored : ctx.lookupMeta store key with
  | none => exact .absent stored
  | some value =>
    rw [stored] at judged
    obtain ⟨other, expired⟩ :=
      opens.dropped value env.nowMs (lookupMeta_ne_nil regular stored) judged
    exact .expired stored other expired

/-- Loading a record or making a new one opens its version. -/
theorem Opens.opened_ensure {σ : Type} {next : Option ρ → Prog σ} {result : σ}
    (opens : Opens type version judge) (made : σ → UInt64) (judges : Judges ctx key load judge)
    (regular : store.Regular)
    (present : ∀ record result, exec env load store = (.ok (some record), store) →
      exec env (next (some record)) store = (.ok result, store) → made result = version record)
    (absent : ∀ result, exec env (next none) store = (.ok result, store) →
      made result = env.version)
    (ran : exec env (load >>= next) store = (.ok result, store)) :
    Opened ctx env store key type (made result) := by
  obtain ⟨found, after, loaded, ran⟩ := exec_bind_eq_ok ran
  obtain rfl : after = store := by
    have state := congrArg Prod.snd (judges env store)
    rwa [loaded] at state
  cases found with
  | none =>
    rw [absent result ran]
    exact opens.opened_none judges regular loaded
  | some record =>
    obtain ⟨value, stored, -, typed, same, live⟩ := opens.opened_found judges loaded
    rw [present record result loaded ran, same]
    exact .found stored typed live

end Loaders

namespace Cmd

section Opened

variable (regular : store.Regular)
include regular

theorem opened_ensureHashMeta {meta' : Metadata}
    (ran : exec env (ensureHashMeta ctx key) store = (.ok meta', store)) :
    Opened ctx env store key .hash meta'.version :=
  opens_judgeHash.opened_ensure Metadata.version judges_readHashMeta regular
    (by rintro _ _ _ ⟨⟩; rfl) (by rintro _ ⟨⟩; rfl) ran

theorem opened_ensureListMeta {meta' : Metadata}
    (ran : exec env (ensureListMeta ctx key) store = (.ok meta', store)) :
    Opened ctx env store key .list meta'.version :=
  (opens_judgeLive (by decide) _).opened_ensure Metadata.version (judges_loadLiveMeta _ _) regular
    (by rintro _ _ _ ⟨⟩; rfl) (by rintro _ ⟨⟩; rfl) ran

theorem opened_ensureSetMeta {result : Metadata × Bool}
    (ran : exec env (ensureSetMeta ctx key) store = (.ok result, store)) :
    Opened ctx env store key .set result.1.version := by
  refine (opens_judgeLive (by decide) _).opened_ensure (fun made => made.1.version)
    (judges_loadLiveMeta _ _) regular ?_ ?_ ran
  · rintro _ _ - ⟨⟩
    rfl
  · rintro _ ⟨⟩
    rfl

theorem opened_ensureZsetMeta {meta' : Metadata}
    (ran : exec env (ensureZsetMeta ctx key) store = (.ok meta', store)) :
    Opened ctx env store key .zset meta'.version := by
  refine opens_judgeZset.opened_ensure Metadata.version judges_readZsetMeta regular ?_ ?_ ran
  · rintro _ _ - ⟨⟩
    rfl
  · rintro _ ⟨⟩
    rfl

theorem opened_getOrCreateMetadata {meta' : Metadata}
    (ran : exec env (getOrCreateMetadata ctx key) store = (.ok meta', store)) :
    Opened ctx env store key .bitmap meta'.version :=
  (opens_judgeLive (by decide) _).opened_ensure Metadata.version (judges_loadLiveMeta _ _) regular
    (by rintro _ _ _ ⟨⟩; rfl) (by rintro _ ⟨⟩; rfl) ran

theorem opened_ensureStreamMeta {meta' : StreamMeta}
    (ran : exec env (ensureStreamMeta ctx key) store = (.ok meta', store)) :
    Opened ctx env store key .stream meta'.version := by
  refine opens_judgeStream.opened_ensure StreamMeta.version judges_readStreamMeta regular ?_ ?_ ran
  · intro record result loaded ended
    -- The loader has looked at the deadline before.
    obtain ⟨value, -, judged, -⟩ := opens_judgeStream.opened_found judges_readStreamMeta loaded
    have live : record.isExpired env.nowMs = false := by
      cases checked : checkStreamMeta value with
      | error fault => simp [judgeStream, checked, Except.map] at judged
      | ok found =>
        simp only [judgeStream, checked, Except.map, dated, Except.ok.injEq] at judged
        split_ifs at judged with expired
        cases judged
        exact Bool.eq_false_iff.mpr expired
    simp only [exec_nowMs_bind, live, Bool.false_eq_true, if_false] at ended
    cases ended
    rfl
  · rintro _ ⟨⟩
    rfl

end Opened

section Strings

/-- A string is read before it is written, unless there is none. -/
theorem plain_of_readString {found : Option Bytes}
    (loaded : exec env (readString ctx key) store = (.ok found, store)) {value : Bytes}
    (stored : ctx.lookupMeta store key = some value) : valueType value = some .string := by
  have judged := congrArg Prod.fst ((judges_readString env store).symm.trans loaded)
  rw [stored] at judged
  simp only [Option.elim, judgeString] at judged
  cases decoded : decodeString value with
  | none => simp [decoded] at judged
  | some fields =>
    have first : fields.1 = firstByte value := by
      unfold decodeString at decoded
      split_ifs at decoded
      cases decoded
      rfl
    have text : fields.1 &&& 0x0F = DataType.string.code := by
      by_contra other
      simp [decoded, other] at judged
    rw [valueType, ← first]
    exact dataTypeFromFlags_eq_some.mpr text

/-- What a command does that reads a string and puts one. -/
theorem exec_texts_cases {program : Prog RespValue} (revises : Revises .single (readString ctx key)
      (fun _ => True) (fun _ => Texts ctx [key]) program) :
    (exec env program store).2 = store ∨ ∃ batch, Texts ctx [key] batch ∧
      (∀ value, ctx.lookupMeta store key = some value → valueType value = some .string) ∧
      (exec env program store).2 = store.write batch := by
  refine (revises.editor.exec quiet_readString.reads fun _ _ _ => Texts.append).imp_right ?_
  rintro ⟨found, batch, -, loaded, texts, after⟩
  exact ⟨batch, texts, fun value => plain_of_readString loaded, after⟩

/-- What a locked edit of a string does. -/
theorem LockedText.exec_cases {program : Prog RespValue}
    (text : LockedText .single ctx key program) :
    (exec env program store).2 = store ∨ ∃ batch, Texts ctx [key] batch ∧
      (∀ value, ctx.lookupMeta store key = some value → valueType value = some .string) ∧
      (exec env program store).2 = store.write batch := by
  cases text with
  | refused views => exact .inl views.readOnly.exec_state
  | locked revises =>
    rw [CommandContext.exec_withKeyLock]
    exact exec_texts_cases revises

end Strings

section Deadlines

/-- A command on the deadline of a key. -/
theorem exec_redated {program : Prog RespValue}
    (revises : Revises .single (ctx.getMeta key) (fun _ => True) (FoundRedated ctx key) program) :
    (exec env program store).2 = store ∨ ∃ value batch, ctx.lookupMeta store key = some value ∧
      Redated ctx key value batch ∧ (exec env program store).2 = store.write batch := by
  refine (revises.editor.exec (ctx.readOnly_getMeta key) fun _ _ _ => FoundRedated.append).imp_right
    ?_
  rintro ⟨_, batch, -, loaded, ⟨value, rfl, redated⟩, after⟩
  have found := congrArg Prod.fst ((CommandContext.exec_getMeta key).symm.trans loaded)
  exact ⟨value, batch, Except.ok.inj found, redated, after⟩

end Deadlines

end Cmd

section Table

def Command.adds : Command → Option DataType
  | .hset => some .hash
  | .lpush | .rpush => some .list
  | .sadd => some .set
  | .zadd | .zincrby => some .zset
  | .setbit => some .bitmap
  | .xadd => some .stream
  | _ => none

def Command.removes : Command → Option DataType
  | .hdel => some .hash
  | .lpop | .rpop => some .list
  | .srem => some .set
  | .zrem => some .zset
  | _ => none

/-- The names of the elements that a command removes from a record. -/
def Command.removedNames (command : Command) (args : List Bytes) (meta' : Metadata) : List Bytes :=
  match command with
  | .lpop => poppedNames .left args meta'
  | .rpop => poppedNames .right args meta'
  | _ => args

variable {command : Command} {args : List Bytes}

/-- What an editor of additions does. -/
theorem exec_additions {load : Prog ρ} {good : ρ → Prop} {version : ρ → UInt64}
    {program : Prog RespValue}
    (revises :
      Revises .single load good (fun record => Additions ctx key type (version record)) program)
    (loads : Views .single good load)
    (opened : ∀ record, exec env load store = (.ok record, store) →
      Opened ctx env store key type (version record)) :
    (exec env program store).2 = store ∨ ∃ v batch, Opened ctx env store key type v ∧
      Additions ctx key type v batch ∧ (exec env program store).2 = store.write batch := by
  refine (revises.editor.exec loads.reads fun _ _ _ => Additions.append).imp_right ?_
  rintro ⟨record, batch, -, loaded, additions, after⟩
  exact ⟨version record, batch, opened record loaded, additions, after⟩

/-- A command that adds elements edits the version it opens. -/
theorem Command.exec_adds (regular : store.Regular) (adds : command.adds = some type) :
    (exec env (command.run ctx (key :: args)) store).2 = store ∨
      ∃ v batch, Opened ctx env store key type v ∧ Additions ctx key type v batch ∧
        (exec env (command.run ctx (key :: args)) store).2 = store.write batch := by
  cases command <;> cases adds
  case hset =>
    exact exec_additions (revises_hset Observer.aligned_single args)
      (views_ensureHashMeta trivial trivial) fun _ =>
      opened_ensureHashMeta regular
  case lpush =>
    exact exec_additions (revises_push .left args)
      (views_ensureListMeta trivial trivial) fun _ => opened_ensureListMeta regular
  case rpush =>
    exact exec_additions (revises_push .right args)
      (views_ensureListMeta trivial trivial) fun _ => opened_ensureListMeta regular
  case sadd =>
    exact exec_additions (revises_sadd Observer.aligned_single args)
      (views_ensureSetMeta trivial trivial) fun _ =>
      opened_ensureSetMeta regular
  case zadd =>
    exact exec_additions (revises_zadd Observer.aligned_single args)
      (views_ensureZsetMeta trivial trivial) fun _ =>
      opened_ensureZsetMeta regular
  case zincrby =>
    exact exec_additions (revises_zincrby Observer.aligned_single args)
      (views_ensureZsetMeta trivial trivial) fun _ =>
      opened_ensureZsetMeta regular
  case setbit =>
    exact exec_additions (revises_setbit Observer.aligned_single args)
      (views_getOrCreateMetadata trivial trivial) fun _ =>
      opened_getOrCreateMetadata regular
  case xadd =>
    exact exec_additions (revises_xadd Observer.shares_single args)
      (views_ensureStreamMeta trivial trivial) fun _ =>
      opened_ensureStreamMeta regular

/-- `BITOP` draws a version for its destination. -/
theorem exec_bitop_cases (operation : Bytes) :
    (exec env (Cmd.bitop ctx (operation :: key :: args)) store).2 = store ∨
      ∃ batch, Additions ctx key .bitmap env.version batch ∧
        (exec env (Cmd.bitop ctx (operation :: key :: args)) store).2 = store.write batch := by
  have revises : Revises .single generateVersion (fun _ => True)
      (fun v => Additions ctx key .bitmap v)
      (Cmd.bitop ctx (operation :: key :: args)) :=
    revises_bitop Observer.aligned_single operation fun _ _ => trivial
  refine (revises.editor.exec readOnly_generateVersion fun _ _ _ => Additions.append).imp_right ?_
  rintro ⟨v, batch, -, drawn, additions, after⟩
  cases drawn
  exact ⟨batch, additions, after⟩

structure Removal (ctx : CommandContext) (env : Env) (store : Store) (key : Bytes) (type : DataType)
    (value : Bytes) (meta' : Metadata) : Prop where
  stored : ctx.lookupMeta store key = some value
  typed : valueType value = some type
  decoded : decodeMetadata value = some meta'
  live : type = .hash ∨ expiredAt (deadlineOf value) env.nowMs = false

/-- What an editor of a record it finds does. -/
theorem exec_found {load : Prog (Option Metadata)} {program : Prog RespValue}
    {judge : Bytes → Int64 → Except Fault (Option Metadata)} {removed : Metadata → List Bytes}
    (revises : Revises .single load (Cmd.Found (Metadata.OfType type))
      (FoundEdits ctx key type removed) program)
    (loads : Answers (Cmd.Found (Metadata.OfType type)) load) (judges : Judges ctx key load judge)
    (opens : Opens type Metadata.version judge)
    (decodes : ∀ value now meta', judge value now = .ok (some meta') →
      decodeMetadata value = some meta') :
    (exec env program store).2 = store ∨ ∃ value meta' batch,
      Removal ctx env store key type value meta' ∧
      BatchEdits ctx key type meta'.version (removed meta') batch ∧
      (exec env program store).2 = store.write batch := by
  refine (revises.editor.exec loads.reads fun _ _ _ => FoundEdits.append).imp_right ?_
  rintro ⟨_, batch, -, loaded, ⟨meta', rfl, edits⟩, after⟩
  obtain ⟨value, stored, judged, typed, -, live⟩ := opens.opened_found judges loaded
  exact ⟨value, meta', batch, ⟨stored, typed, decodes _ _ _ judged, live⟩, edits, after⟩

theorem decoded_judgeLive {invalid : String} {value : Bytes} {now : Int64} {meta' : Metadata}
    (judged : judgeLive type invalid value now = .ok (some meta')) :
    decodeMetadata value = some meta' := by
  cases checked : checkMetadata type invalid value with
  | error fault => simp [judgeLive, checked, Except.map] at judged
  | ok found =>
    simp only [judgeLive, checked, Except.map, dated, Except.ok.injEq] at judged
    split_ifs at judged
    cases judged
    exact (checkMetadata_eq_ok checked).2.1

/-- A command that removes elements edits the record it finds. -/
theorem Command.exec_removes (removes : command.removes = some type) :
    (exec env (command.run ctx (key :: args)) store).2 = store ∨ ∃ value meta' batch,
      Removal ctx env store key type value meta' ∧
      BatchEdits ctx key type meta'.version (command.removedNames args meta') batch ∧
      (exec env (command.run ctx (key :: args)) store).2 = store.write batch := by
  cases command <;> cases removes
  case hdel =>
    exact exec_found (revises_hdel Observer.aligned_single args)
      answers_readHashMeta judges_readHashMeta
      opens_judgeHash fun _ _ _ judged => (checkMetadata_eq_ok (judgeHash_eq_some judged)).2.1
  case lpop =>
    exact exec_found (revises_pop Observer.aligned_single .left args)
      (answers_loadLiveMeta (plain_of_chars rfl (by decide)))
      (judges_loadLiveMeta _ _) (opens_judgeLive (by decide) _) fun _ _ _ => decoded_judgeLive
  case rpop =>
    exact exec_found (revises_pop Observer.aligned_single .right args)
      (answers_loadLiveMeta (plain_of_chars rfl (by decide)))
      (judges_loadLiveMeta _ _) (opens_judgeLive (by decide) _) fun _ _ _ => decoded_judgeLive
  case srem =>
    exact exec_found (revises_srem Observer.aligned_single args)
      (answers_loadLiveMeta (plain_of_chars rfl (by decide)))
      (judges_loadLiveMeta _ _) (opens_judgeLive (by decide) _) fun _ _ _ => decoded_judgeLive
  case zrem =>
    exact exec_found (revises_zrem Observer.aligned_single args)
      answers_readZsetMeta judges_readZsetMeta
      opens_judgeZset fun _ _ _ judged => (judgeZset_eq_some judged).1

end Table

end Kvdb
