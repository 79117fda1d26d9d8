import Kvdb.Command.Elements
import Kvdb.Command.Table

/-!
# What a reading command sees

The reply to a reading command depends on the metadata values of the keys it
names, on their elements under the recorded versions, and on whether they have
expired. Two stores that agree on these give the same reply.
-/

namespace Kvdb

open Data Semantics Cmd

variable {ctx : CommandContext} {key : Bytes} {env env' : Env} {store store' : Store} {α β : Type}

/-- A record of the given type whose unused fields are as its decoder leaves
them. -/
structure Metadata.OfType (type : DataType) (meta' : Metadata) : Prop where
  typed : meta'.dataType = some type
  normal : meta'.Normal

def Cmd.Found (property : α → Prop) (found : Option α) : Prop :=
  ∀ value, found = some value → property value

/-- The two runs of a program end in the same way and change nothing. -/
abbrev Same (env env' : Env) (store store' : Store) (program : Prog α) : Prop :=
  Program.Alike env.handle env'.handle store store' program

/-- A command with two runs that are the same gets the same reply. -/
theorem Same.reply {command : Command} {args : List Bytes}
    (same : Same env env' store store' (command.run ctx args)) :
    Request.reply ctx store' ⟨command, args, env'⟩ =
      Request.reply ctx store ⟨command, args, env⟩ := by
  obtain ⟨result, ran, ran'⟩ := same
  have ran : exec env (command.run ctx args) store = (result, store) := ran
  have ran' : exec env' (command.run ctx args) store' = (result, store') := ran'
  rw [Request.reply, Request.reply, exec_dispatch, exec_dispatch, ran, ran']
  rcases result with (_ | _ | _) | _ <;> rfl

section Primitives

theorem same_pure (value : α) : Same env env' store store' (pure value) := Program.alike_pure value

theorem same_fail (fault : Fault) : Same env env' store store' (.fail fault : Prog α) :=
  Program.alike_fail fault

end Primitives

section Keys

/-- The version in a metadata value of a composite type. -/
def versionOf (v : Bytes) : UInt64 := u64OfBytes (wordAt v 9)

def SameElements (ctx : CommandContext) (key : Bytes) (version : UInt64) (store store' : Store) :
    Prop :=
  ∀ cf, cf ≠ .metadata → ∀ sub,
    store'.get cf (ctx.subKey key version sub) = store.get cf (ctx.subKey key version sub)

def SameBeyondMetadata (store store' : Store) : Prop :=
  ∀ cf, cf ≠ .metadata → ∀ phys, store'.get cf phys = store.get cf phys

theorem SameBeyondMetadata.elements (same : SameBeyondMetadata store store') (key : Bytes)
    (version : UInt64) : SameElements ctx key version store store' :=
  fun cf element _ => same cf element _

/-- Commands see the metadata value of a key in the same way in two stores, at two
times. -/
structure RecordAlike (ctx : CommandContext) (key : Bytes) (env env' : Env)
    (store store' : Store) : Prop where
  order : env'.hashOrder = env.hashOrder
  record : ctx.lookupMeta store' key = ctx.lookupMeta store key
  clock : ∀ v, ctx.lookupMeta store key = some v →
    expiredAt (deadlineOf v) env'.nowMs = expiredAt (deadlineOf v) env.nowMs

/-- Commands see a key with its elements in the same way. -/
structure SeenAlike (ctx : CommandContext) (key : Bytes) (env env' : Env) (store store' : Store) :
    Prop extends RecordAlike ctx key env env' store store' where
  elements : ∀ v, ctx.lookupMeta store key = some v →
    firstByte v &&& flagsTypeMask ≠ DataType.string.code →
    SameElements ctx key (versionOf v) store store'

theorem SameElements.behind {version : UInt64} (same : SameElements ctx key version store store')
    {cf : ColumnFamily} (element : cf ≠ .metadata) :
    store'.behind cf (ctx.subKey key version []) = store.behind cf (ctx.subKey key version []) := by
  refine eq_of_ordered (store'.behind_ordered cf _) (store.behind_ordered cf _) ?_
  rintro ⟨phys, value⟩
  rw [Store.mem_behind, Store.mem_behind]
  constructor <;>
    · rintro ⟨stored, inside⟩
      obtain ⟨sub, rfl⟩ := ctx.subKey_prefix_iff.mp inside
      refine ⟨?_, inside⟩
      simpa only [same cf element sub] using stored

variable (alike : RecordAlike ctx key env env' store store')
include alike

theorem RecordAlike.getMeta : Same env env' store store' (ctx.getMeta key) :=
  ⟨.ok (ctx.lookupMeta store key), CommandContext.exec_getMeta key,
    (CommandContext.exec_getMeta key).trans (by rw [alike.record])⟩

end Keys

section Loaders

variable {ρ : Type} {load : Prog (Option ρ)} {judge : Bytes → Int64 → Except Fault (Option ρ)}

/-- A loader reads the metadata value of a key and judges it by the clock. -/
def Judges (ctx : CommandContext) (key : Bytes) (load : Prog (Option ρ))
    (judge : Bytes → Int64 → Except Fault (Option ρ)) : Prop :=
  ∀ env store, exec env load store =
    ((ctx.lookupMeta store key).elim (.ok none) fun v => judge v env.nowMs, store)

/-- The clock matters only for whether a value has expired. -/
def Punctual (judge : Bytes → Int64 → Except Fault (Option ρ)) : Prop :=
  ∀ v now now', expiredAt (deadlineOf v) now' = expiredAt (deadlineOf v) now →
    judge v now' = judge v now

/-- The records that a judge lets pass are no strings and have the version in the
value. -/
def Versioned (version : ρ → UInt64) (judge : Bytes → Int64 → Except Fault (Option ρ)) : Prop :=
  ∀ v now record, judge v now = .ok (some record) →
    firstByte v &&& flagsTypeMask ≠ DataType.string.code ∧ version record = versionOf v

/-- A loader finds the same record in both stores, with the same elements. -/
def LoadsAlike (ctx : CommandContext) (key : Bytes) (env env' : Env) (store store' : Store)
    (version : ρ → UInt64) (load : Prog (Option ρ)) : Prop :=
  ∃ found : Except Fault (Option ρ), exec env load store = (found, store) ∧
    exec env' load store' = (found, store') ∧
    ∀ record, found = .ok (some record) → SameElements ctx key (version record) store store'

/-- A judged value looks the same wherever it is the same and as old. -/
theorem RecordAlike.judged (alike : RecordAlike ctx key env env' store store')
    (judges : Judges ctx key load judge) (punctual : Punctual judge) :
    Same env env' store store' load := by
  refine ⟨_, judges env store, (judges env' store').trans ?_⟩
  rw [alike.record]
  cases stored : ctx.lookupMeta store key with
  | none => rfl
  | some v => exact congrArg (·, store') (punctual v env.nowMs env'.nowMs (alike.clock v stored))

theorem SeenAlike.loads (seen : SeenAlike ctx key env env' store store') {version : ρ → UInt64}
    (judges : Judges ctx key load judge) (punctual : Punctual judge)
    (versioned : Versioned version judge) :
    LoadsAlike ctx key env env' store store' version load := by
  obtain ⟨found, ran, ran'⟩ := seen.judged judges punctual
  refine ⟨found, ran, ran', ?_⟩
  rintro record rfl
  have judged := congrArg Prod.fst ((judges env store).symm.trans ran)
  cases stored : ctx.lookupMeta store key with
  | none => simp [stored] at judged
  | some v =>
    rw [stored] at judged
    obtain ⟨composite, same⟩ := versioned v env.nowMs record judged
    exact same ▸ seen.elements v stored composite

/-- A record, unless its deadline has passed. -/
def dated (expire : ρ → Int64) (now : Int64) (record : ρ) : Option ρ :=
  if expiredAt (expire record) now then none else some record

private theorem punctual_dated {check : Bytes → Except Fault ρ} {expire : ρ → Int64}
    (deadline : ∀ v record, check v = .ok record → expire record = deadlineOf v) :
    Punctual fun v now => (check v).map (dated expire now) := by
  intro v now now' same
  change (check v).map (dated expire now') = (check v).map (dated expire now)
  cases checked : check v with
  | error fault => simp only [Except.map]
  | ok record => simp only [Except.map, dated, deadline v record checked, same]

private theorem versioned_dated {check : Bytes → Except Fault ρ} {expire : ρ → Int64}
    {version : ρ → UInt64}
    (fields : ∀ v record, check v = .ok record →
      firstByte v &&& flagsTypeMask ≠ DataType.string.code ∧ version record = versionOf v) :
    Versioned version fun v now => (check v).map (dated expire now) := by
  intro v now record judged
  cases checked : check v with
  | error fault => simp [checked, Except.map] at judged
  | ok found =>
    simp only [checked, Except.map, dated, Except.ok.injEq] at judged
    split_ifs at judged
    cases judged
    exact fields v record checked

end Loaders

section Judges

/-- A record that a loader accepts is the decoded value. It has the type that is
asked for, and is no string. -/
theorem checkMetadata_eq_ok {type : DataType} {invalid : String} {v : Bytes} {meta' : Metadata}
    (checked : checkMetadata type invalid v = .ok meta') :
    firstByte v &&& flagsTypeMask ≠ DataType.string.code ∧ decodeMetadata v = some meta' ∧
      meta'.OfType type := by
  unfold checkMetadata at checked
  split_ifs at checked with empty text
  refine ⟨text, ?_⟩
  cases decoded : decodeMetadata v with
  | none => simp [decoded] at checked
  | some record =>
    simp only [decoded] at checked
    split_ifs at checked with other
    cases checked
    exact ⟨rfl, not_not.mp other, (decodeMetadata_eq_some decoded).2.2.2.1⟩

/-- The record of a stream, in either layout. -/
theorem checkStreamMeta_eq_ok {v : Bytes} {meta' : StreamMeta}
    (checked : checkStreamMeta v = .ok meta') :
    firstByte v &&& flagsTypeMask ≠ DataType.string.code ∧ meta'.version = versionOf v ∧
      meta'.expire = deadlineOf v ∧ dataTypeFromFlags meta'.flags = some .stream := by
  unfold checkStreamMeta at checked
  split_ifs at checked with empty text
  refine ⟨fun same => text (DataType.fromCode_eq_some.mpr same), ?_⟩
  cases decoded : decodeStreamMeta v with
  | some record =>
    simp only [decoded] at checked
    split_ifs at checked with other
    cases checked
    unfold decodeStreamMeta at decoded
    split_ifs at decoded
    cases decoded
    exact ⟨rfl, rfl, not_not.mp other⟩
  | none =>
    cases common : decodeMetadata v with
    | none => simp [decoded, common] at checked
    | some record =>
      simp only [decoded, common] at checked
      split_ifs at checked with other
      cases checked
      exact ⟨(decodeMetadata_fields common).2.1, (decodeMetadata_fields common).1, not_not.mp other⟩

def judgeString (v : Bytes) (now : Int64) : Except Fault (Option Bytes) :=
  match decodeString v with
  | none => .error (.error (.protocol "invalid string encoding"))
  | some (flags, expire, payload) =>
    if flags &&& 0x0F ≠ DataType.string.code then .error wrongTypeError
    else .ok (if expiredAt expire now then none else some payload)

/-- How the loaders of lists, sets and bitmaps judge a value. -/
def judgeLive (wanted : DataType) (invalid : String) (v : Bytes) (now : Int64) :
    Except Fault (Option Metadata) :=
  (checkMetadata wanted invalid v).map (dated Metadata.expire now)

def judgeHash (v : Bytes) (_ : Int64) : Except Fault (Option Metadata) := decodeAndCheckHash v

/-- How the loader of sorted sets judges a value. -/
def judgeZset (v : Bytes) (now : Int64) : Except Fault (Option Metadata) :=
  if v = [] then .ok none
  else
    match DataType.fromCode (firstByte v &&& 0x0F) with
    | none => .error (.error (.protocol "invalid data type"))
    | some dataType =>
      if dataType = .string then .error wrongTypeError
      else
        match decodeMetadata v with
        | none => .error (.error (.protocol "invalid metadata encoding"))
        | some meta' =>
          if meta'.isExpired now then .ok none
          else if meta'.dataType ≠ some .zset then .error wrongTypeError else .ok (some meta')

def judgeStream (v : Bytes) (now : Int64) : Except Fault (Option StreamMeta) :=
  (checkStreamMeta v).map (dated StreamMeta.expire now)

theorem judges_readString : Judges ctx key (readString ctx key) judgeString := by
  intro env store
  rw [readString, ctx.exec_getMeta_bind]
  cases ctx.lookupMeta store key with
  | none => rfl
  | some v =>
    simp only [Option.elim, judgeString]
    cases decodeString v with
    | none => rfl
    | some text =>
      by_cases other : text.1 &&& 0x0F ≠ DataType.string.code
      · simp only [if_pos other]
        rfl
      · simp only [if_neg other, exec_nowMs_bind]
        by_cases expired : expiredAt text.2.1 env.nowMs <;> simp [expired]

theorem judges_loadLiveMeta (wanted : DataType) (invalid : String) :
    Judges ctx key (loadLiveMeta ctx wanted invalid key) (judgeLive wanted invalid) := by
  intro env store
  rw [exec_loadLiveMeta, CommandContext.liveMeta]
  cases ctx.lookupMeta store key <;> rfl

theorem judges_readHashMeta : Judges ctx key (readHashMeta ctx key) judgeHash := by
  intro env store
  rw [readHashMeta, ctx.exec_getMeta_bind]
  cases ctx.lookupMeta store key with
  | none => rfl
  | some v => exact exec_ofExcept _

theorem judges_readZsetMeta : Judges ctx key (readZsetMeta ctx key) judgeZset := by
  intro env store
  rw [readZsetMeta, loadMeta, bind_assoc, ctx.exec_getMeta_bind]
  cases ctx.lookupMeta store key with
  | none => rfl
  | some v =>
    simp only [Option.elim, judgeZset]
    by_cases empty : v = []
    · simp only [if_pos empty]
      rfl
    simp only [if_neg empty]
    cases DataType.fromCode (firstByte v &&& 0x0F) with
    | none => rfl
    | some dataType =>
      dsimp only
      by_cases text : dataType = .string
      · simp only [if_pos text]
        rfl
      simp only [if_neg text]
      cases decodeMetadata v with
      | none => rfl
      | some meta' =>
        simp only [bind_assoc, exec_nowMs_bind]
        by_cases expired : meta'.isExpired env.nowMs
        · simp only [if_pos expired]
          rfl
        · simp only [if_neg expired]
          by_cases other : meta'.dataType = some .zset
          · simp [other]
          · simp [other]

/-- What the loader of sorted sets finds in a value. -/
theorem judgeZset_eq_ok {value : Bytes} {now : Int64} {result : Option Metadata}
    (nonempty : value ≠ []) (judged : judgeZset value now = .ok result) :
    ∃ meta', decodeMetadata value = some meta' ∧
      (meta'.isExpired now = true ∧ result = none ∨
        meta'.isExpired now = false ∧ meta'.dataType = some .zset ∧ result = some meta') := by
  unfold judgeZset at judged
  rw [if_neg nonempty] at judged
  cases known : DataType.fromCode (firstByte value &&& 0x0F) with
  | none => simp [known] at judged
  | some dataType =>
    simp only [known] at judged
    split_ifs at judged
    cases decoded : decodeMetadata value with
    | none => simp [decoded] at judged
    | some meta' =>
      refine ⟨meta', rfl, ?_⟩
      simp only [decoded] at judged
      split_ifs at judged with expired other
      · exact .inl ⟨expired, (Except.ok.inj judged).symm⟩
      · exact .inr ⟨Bool.eq_false_iff.mpr expired, not_not.mp other, (Except.ok.inj judged).symm⟩

theorem judgeZset_eq_some {value : Bytes} {now : Int64} {meta' : Metadata}
    (judged : judgeZset value now = .ok (some meta')) :
    decodeMetadata value = some meta' ∧ meta'.dataType = some .zset ∧
      meta'.isExpired now = false := by
  have nonempty : value ≠ [] := by
    rintro rfl
    simp [judgeZset] at judged
  obtain ⟨_, decoded, ⟨-, ⟨⟩⟩ | ⟨live, typed, ⟨⟩⟩⟩ := judgeZset_eq_ok nonempty judged
  exact ⟨decoded, typed, live⟩

theorem judges_readStreamMeta : Judges ctx key (readStreamMeta ctx key) judgeStream := by
  intro env store
  rw [readStreamMeta, ctx.exec_getMeta_bind]
  cases ctx.lookupMeta store key with
  | none => rfl
  | some v =>
    simp only [Option.elim, judgeStream]
    cases checkStreamMeta v with
    | error fault => rfl
    | ok meta' =>
      simp only [exec_ofExcept_ok_bind, exec_nowMs_bind, StreamMeta.isExpired, Except.map, dated]
      by_cases expired : expiredAt meta'.expire env.nowMs <;> simp [expired]

/-- Looking at the deadline twice finds nothing new. -/
theorem judges_liveStreamMeta : Judges ctx key (liveStreamMeta ctx key) judgeStream := by
  intro env store
  rw [liveStreamMeta, exec_bind, judges_readStreamMeta env store]
  cases ctx.lookupMeta store key with
  | none => rfl
  | some v =>
    simp only [Option.elim, judgeStream]
    cases checkStreamMeta v with
    | error fault => rfl
    | ok meta' =>
      by_cases expired : expiredAt meta'.expire env.nowMs
      · simp only [Except.map, dated, if_pos expired]
        rfl
      · simp [Except.map, dated, expired, StreamMeta.isExpired]

theorem punctual_judgeString : Punctual judgeString := by
  intro v now now' same
  unfold judgeString
  by_cases short : v.length < 1 + 8
  · simp only [decodeString, if_pos short]
  · simp only [decodeString, if_neg short]
    rw [show i64OfBytes (wordAt v 1) = deadlineOf v from rfl, same]

theorem punctual_judgeLive (wanted : DataType) (invalid : String) :
    Punctual (judgeLive wanted invalid) :=
  punctual_dated fun _ _ checked => (decodeMetadata_fields (checkMetadata_eq_ok checked).2.1).1

theorem punctual_judgeHash : Punctual judgeHash := fun _ _ _ _ => rfl

theorem punctual_judgeZset : Punctual judgeZset := by
  intro v now now' same
  unfold judgeZset
  cases decoded : decodeMetadata v with
  | none => rfl
  | some meta' => simp only [Metadata.isExpired, (decodeMetadata_fields decoded).1, same]

theorem punctual_judgeStream : Punctual judgeStream :=
  punctual_dated fun _ _ checked => (checkStreamMeta_eq_ok checked).2.2.1

theorem versioned_judgeLive (wanted : DataType) (invalid : String) :
    Versioned Metadata.version (judgeLive wanted invalid) :=
  versioned_dated fun _ _ checked =>
    ⟨(checkMetadata_eq_ok checked).1, (decodeMetadata_fields (checkMetadata_eq_ok checked).2.1).2.1⟩

theorem versioned_judgeHash : Versioned Metadata.version judgeHash := by
  intro v now record judged
  rw [judgeHash, decodeAndCheckHash] at judged
  cases checked : checkMetadata .hash "invalid metadata encoding" v with
  | error fault => simp [checked, Except.map] at judged
  | ok found =>
    simp only [checked, Except.map, Except.ok.injEq, Option.some.injEq] at judged
    cases judged
    exact ⟨(checkMetadata_eq_ok checked).1,
      (decodeMetadata_fields (checkMetadata_eq_ok checked).2.1).2.1⟩

theorem versioned_judgeZset : Versioned Metadata.version judgeZset := by
  intro v now record
  unfold judgeZset
  by_cases empty : v = []
  · simp [empty]
  rw [if_neg empty]
  cases type : DataType.fromCode (firstByte v &&& 0x0F) with
  | none => nofun
  | some dataType =>
    dsimp only
    by_cases text : dataType = .string
    · simp [text]
    have composite : firstByte v &&& flagsTypeMask ≠ DataType.string.code := by
      intro same
      have known : DataType.fromCode (firstByte v &&& 0x0F) = some .string :=
        DataType.fromCode_eq_some.mpr same
      exact text (Option.some.inj (type.symm.trans known))
    rw [if_neg text]
    cases decoded : decodeMetadata v with
    | none => nofun
    | some meta' =>
      intro judged
      dsimp only at judged
      split_ifs at judged
      · cases judged
      · obtain rfl : meta' = record := Option.some.inj (Except.ok.inj judged)
        exact ⟨composite, (decodeMetadata_fields decoded).2.1⟩

theorem versioned_judgeStream : Versioned StreamMeta.version judgeStream :=
  versioned_dated fun _ _ checked =>
    ⟨(checkStreamMeta_eq_ok checked).1, (checkStreamMeta_eq_ok checked).2.1⟩

def AlikeAs (type : DataType) (ctx : CommandContext) (key : Bytes) (env env' : Env)
    (store store' : Store) : Prop :=
  match type with
  | .string => Same env env' store store' (readString ctx key)
  | .hash => LoadsAlike ctx key env env' store store' Metadata.version (readHashMeta ctx key)
  | .list => LoadsAlike ctx key env env' store store' Metadata.version (loadListMeta ctx key)
  | .set => LoadsAlike ctx key env env' store store' Metadata.version (readSetMetadata ctx key)
  | .zset => LoadsAlike ctx key env env' store store' Metadata.version (readZsetMeta ctx key)
  | .stream =>
    LoadsAlike ctx key env env' store store' StreamMeta.version (readStreamMeta ctx key) ∧
      LoadsAlike ctx key env env' store store' StreamMeta.version (liveStreamMeta ctx key)
  | .bitmap => LoadsAlike ctx key env env' store store' Metadata.version (readBitmapMeta ctx key)

/-- A key that is seen in the same way is found in the same way. -/
theorem SeenAlike.alikeAs (seen : SeenAlike ctx key env env' store store') (type : DataType) :
    AlikeAs type ctx key env env' store store' := by
  cases type with
  | string => exact seen.judged judges_readString punctual_judgeString
  | hash => exact seen.loads judges_readHashMeta punctual_judgeHash versioned_judgeHash
  | list | set | bitmap =>
    exact seen.loads (judges_loadLiveMeta _ _) (punctual_judgeLive _ _) (versioned_judgeLive _ _)
  | zset => exact seen.loads judges_readZsetMeta punctual_judgeZset versioned_judgeZset
  | stream =>
    exact ⟨seen.loads judges_readStreamMeta punctual_judgeStream versioned_judgeStream,
      seen.loads judges_liveStreamMeta punctual_judgeStream versioned_judgeStream⟩

end Judges

end Kvdb
