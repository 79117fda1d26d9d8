import Kvdb.Command.Reading
import Kvdb.Expiry.Rewrite

/-!
# Expired keys

A record whose deadline has passed stays in the store. The loader of its own
type takes it for absent, with one exception: the loader of hashes does not look
at deadlines. The loader of sorted sets takes every expired composite record for
absent, whatever its type. `EXPIRE`, `PEXPIRE` and `PERSIST` look at no deadline
either, so they can move an expired record back to life.
-/

namespace Kvdb

open Data Semantics Cmd

variable {ctx : CommandContext} {key v encoded : Bytes} {type : DataType} {now expireMs : Int64}
  {env env' : Env} {store store' : Store}

section Records

/-- The type of the record in a metadata value, if the value can be read. -/
def recordType (v : Bytes) : Option DataType :=
  if firstByte v &&& flagsTypeMask = DataType.string.code then
    if v.length < 1 + 8 then none else some .string
  else (decodeMetadata v).bind Metadata.dataType

theorem recordType_text (typed : recordType v = some .string) :
    firstByte v &&& flagsTypeMask = DataType.string.code ∧ ¬ v.length < 1 + 8 := by
  unfold recordType at typed
  split_ifs at typed with text short
  · exact ⟨text, short⟩
  · -- A record that is decoded has the type in its flags.
    cases decoded : decodeMetadata v with
    | none => simp [decoded] at typed
    | some meta' =>
      have known : meta'.dataType = some .string := by simpa [decoded] using typed
      obtain ⟨-, flags, -⟩ := decodeMetadata_eq_some decoded
      exact absurd (dataTypeFromFlags_eq_some.mp known) (flags ▸ text)

theorem recordType_composite (typed : recordType v = some type) (composite : type ≠ .string) :
    firstByte v &&& flagsTypeMask ≠ DataType.string.code ∧
      ∃ meta', decodeMetadata v = some meta' ∧ meta'.dataType = some type := by
  unfold recordType at typed
  split_ifs at typed with text short
  · exact absurd (Option.some.inj typed).symm composite
  · refine ⟨text, ?_⟩
    cases decoded : decodeMetadata v with
    | none => simp [decoded] at typed
    | some meta' => exact ⟨meta', rfl, by simpa [decoded] using typed⟩

/-- Setting the deadline of a value leaves its type as it was. -/
theorem recordType_withExpire (changed : withExpire v expireMs = .ok encoded) :
    recordType encoded = recordType v ∧ deadlineOf encoded = expireMs := by
  cases redates_of_withExpire changed with
  | text typed long =>
    have text' : firstByte (encodeString (firstByte v) expireMs (v.drop 9)) &&& flagsTypeMask =
        DataType.string.code := typed
    refine ⟨?_, by simp [deadlineOf, encodeString, wordAt_zero]⟩
    rw [recordType, recordType, if_pos text', if_pos typed, if_neg long]
    exact if_neg (by simp [encodeString])
  | @record meta' type other decoded flags known =>
    have again := @decodeMetadata_encodeMetadata { meta' with expire := expireMs } type
      known.typed known.normal
    have text' : firstByte (encodeMetadata { meta' with expire := expireMs }) &&& flagsTypeMask ≠
        DataType.string.code := flags ▸ other
    refine ⟨?_, (decodeMetadata_fields again).1.symm⟩
    rw [recordType, recordType, if_neg text', if_neg other, again, decoded]
    rfl

theorem ne_nil_of_decoded {meta' : Metadata} (decoded : decodeMetadata v = some meta') :
    v ≠ [] := by
  rintro rfl
  exact absurd (decodeMetadata_eq_some decoded).1 (by decide)

theorem ne_nil_of_recordType (typed : recordType v = some type) : v ≠ [] := by
  rintro rfl
  rw [recordType] at typed
  split_ifs at typed with text short
  · exact short (by decide)
  · cases decoded : decodeMetadata [] with
    | none => simp [decoded] at typed
    | some meta' => exact ne_nil_of_decoded decoded rfl

/-- A record that can be read has expired once its deadline has passed. -/
theorem isExpiredValue_eq (typed : recordType v = some type) (now : Int64) :
    isExpiredValue v now = expiredAt (deadlineOf v) now := by
  have nonempty := ne_nil_of_recordType typed
  by_cases text : type = .string
  · subst text
    obtain ⟨code, long⟩ := recordType_text typed
    simp only [isExpiredValue, if_neg nonempty, if_pos code, decodeString, if_neg long]
    rfl
  · obtain ⟨code, meta', decoded, -⟩ := recordType_composite typed text
    simp only [isExpiredValue, if_neg nonempty, if_neg code, decoded,
      (decodeMetadata_fields decoded).1]

theorem exec_readExpire_of_typed (stored : ctx.lookupMeta store key = some v)
    (typed : recordType v = some type) :
    exec env (readExpire ctx key) store =
      (.ok (some (if 0 < deadlineOf v then some (deadlineOf v) else none)), store) := by
  refine exec_readExpire stored (ne_nil_of_recordType typed) (fun text => ?_) fun other => ?_
  · by_contra short
    simp [recordType, text, short] at typed
  · cases decoded : decodeMetadata v with
    | none => simp [recordType, other, decoded] at typed
    | some meta' => exact ⟨meta', rfl⟩

/-- `EXISTS` of one key asks whether there is metadata for it. -/
theorem reply_exists : Request.reply ctx store ⟨.exists', [key], env⟩ =
    .ok (.integer (if (ctx.lookupMeta store key).isSome then 1 else 0)) := by
  have counted : exec env (existsLoop ctx [key] 0) store =
      (.ok (if (ctx.lookupMeta store key).isSome then 1 else 0), store) := by
    rw [existsLoop, ctx.exec_getMeta_bind]
    rfl
  exact Request.reply_eq_ok ctx (exec_bind_ok counted)

end Records

section Judgements

theorem judgeString_typed (typed : recordType v = some .string) (now : Int64) :
    judgeString v now =
      .ok (if expiredAt (deadlineOf v) now then none else some (v.drop 9)) := by
  obtain ⟨text, long⟩ := recordType_text typed
  simp only [judgeString, decodeString, if_neg long]
  exact if_neg (not_not.mpr text)

theorem checkMetadata_typed (invalid : String) (typed : recordType v = some type)
    (composite : type ≠ .string) :
    ∃ meta', checkMetadata type invalid v = .ok meta' ∧ meta'.expire = deadlineOf v := by
  obtain ⟨text, meta', decoded, known⟩ := recordType_composite typed composite
  refine ⟨meta', ?_, (decodeMetadata_fields decoded).1⟩
  simp [checkMetadata, if_neg (ne_nil_of_decoded decoded), if_neg text, decoded, known]

theorem judgeLive_typed (invalid : String) (typed : recordType v = some type)
    (composite : type ≠ .string) (now : Int64) : ∃ meta', judgeLive type invalid v now =
      .ok (if expiredAt (deadlineOf v) now then none else some meta') := by
  obtain ⟨meta', checked, deadline⟩ := checkMetadata_typed invalid typed composite
  exact ⟨meta', by rw [judgeLive, checked, ← deadline]; rfl⟩

/-- The loader of hashes looks at no deadline. -/
theorem judgeHash_typed (typed : recordType v = some .hash) (now : Int64) :
    ∃ meta', judgeHash v now = .ok (some meta') := by
  obtain ⟨meta', checked, -⟩ :=
    checkMetadata_typed "invalid metadata encoding" typed (by decide)
  exact ⟨meta', by rw [judgeHash, decodeAndCheckHash, checked]; rfl⟩

/-- The loader of sorted sets looks at the deadline before the type. -/
theorem judgeZset_typed (typed : recordType v = some type) (composite : type ≠ .string)
    (now : Int64) : ∃ meta', judgeZset v now = if expiredAt (deadlineOf v) now then .ok none
      else if type = .zset then .ok (some meta') else .error wrongTypeError := by
  obtain ⟨text, meta', decoded, known⟩ := recordType_composite typed composite
  have flags : meta'.flags = firstByte v := (decodeMetadata_eq_some decoded).2.1
  have code : DataType.fromCode (firstByte v &&& 0x0F) = some type := flags ▸ known
  have deadline : meta'.expire = deadlineOf v := (decodeMetadata_fields decoded).1
  refine ⟨meta', ?_⟩
  simp only [judgeZset, if_neg (ne_nil_of_decoded decoded), code, if_neg composite, decoded,
    Metadata.isExpired, deadline, known]
  by_cases zset : type = .zset <;> simp [zset]

theorem judgeStream_typed (typed : recordType v = some .stream) (now : Int64) :
    ∃ record, judgeStream v now =
      .ok (if expiredAt (deadlineOf v) now then none else some record) := by
  obtain ⟨text, meta', decoded, known⟩ := recordType_composite typed (by decide)
  have flags : meta'.flags = firstByte v := (decodeMetadata_eq_some decoded).2.1
  have code : DataType.fromCode (firstByte v &&& 0x0F) = some .stream := flags ▸ known
  obtain ⟨record, checked⟩ : ∃ record, checkStreamMeta v = .ok record := by
    simp only [checkStreamMeta, if_neg (ne_nil_of_decoded decoded), code]
    by_cases short : v.length < 1 + 8 + 8 + 8 + 8 + 8
    · exact ⟨_, by simp [decodeStreamMeta, short, decoded, known]; rfl⟩
    · exact ⟨_, by simp [decodeStreamMeta, short, code]; rfl⟩
  have deadline : record.expire = deadlineOf v := (checkStreamMeta_eq_ok checked).2.2.1
  exact ⟨record, by rw [judgeStream, checked, ← deadline]; rfl⟩

end Judgements

section Places

/-- The physical keys under which the metadata of a key is looked up. -/
def CommandContext.places (ctx : CommandContext) (key : Bytes) : List Bytes :=
  if ctx.tenant = [] then [ctx.metaKey key] else [ctx.metaKey key, metadataKey key []]

/-- A lookup sees nothing but the places of its key. -/
theorem CommandContext.lookupMeta_congr
    (same : ∀ place ∈ ctx.places key, store'.get .metadata place = store.get .metadata place) :
    ctx.lookupMeta store' key = ctx.lookupMeta store key := by
  unfold CommandContext.places at same
  unfold CommandContext.lookupMeta
  split_ifs at same ⊢ with unnamed
  · rw [same _ (by simp)]
  · rw [same _ (by simp), same _ (by simp)]

end Places

section Absence

/-- Commands of the first type take an expired record of the second type for
absent. -/
def Overlooks : DataType → DataType → Bool
  | .hash, _ => false
  | .zset, stored => stored ≠ .string
  | reader, stored => reader = stored

/-- Commands of a type take a key for absent: there is no record, or an expired
one that they overlook. -/
def TakenAbsent (reader : DataType) (ctx : CommandContext) (key : Bytes) (env : Env)
    (store : Store) : Prop :=
  ∀ v ∈ ctx.lookupMeta store key, expiredAt (deadlineOf v) env.nowMs = true ∧
    ∃ stored, recordType v = some stored ∧ Overlooks reader stored = true

variable {ρ : Type} {load : Prog (Option ρ)} {judge : Bytes → Int64 → Except Fault (Option ρ)}
  {reader : DataType}

/-- A judge lets no expired record pass that commands of a type overlook. -/
def Forgets (reader : DataType) (judge : Bytes → Int64 → Except Fault (Option ρ)) : Prop :=
  ∀ v now stored, expiredAt (deadlineOf v) now = true → recordType v = some stored →
    Overlooks reader stored = true → judge v now = .ok none

theorem forgets_judgeString : Forgets .string judgeString := by
  intro v now stored expired typed overlooked
  obtain rfl : DataType.string = stored := of_decide_eq_true overlooked
  rw [judgeString_typed typed, if_pos expired]

theorem forgets_judgeHash : Forgets .hash judgeHash := nofun

theorem forgets_judgeLive (invalid : String)
    (plain : reader ≠ .string ∧ reader ≠ .hash ∧ reader ≠ .zset) :
    Forgets reader (judgeLive reader invalid) := by
  intro v now stored expired typed overlooked
  obtain rfl : reader = stored := by
    cases reader <;> first | exact of_decide_eq_true overlooked | simp at plain
  obtain ⟨meta', judged⟩ := judgeLive_typed invalid typed plain.1 now
  rw [judged, if_pos expired]

theorem forgets_judgeZset : Forgets .zset judgeZset := by
  intro v now stored expired typed overlooked
  obtain ⟨meta', judged⟩ := judgeZset_typed typed (of_decide_eq_true overlooked) now
  rw [judged, if_pos expired]

theorem forgets_judgeStream : Forgets .stream judgeStream := by
  intro v now stored expired typed overlooked
  obtain rfl : DataType.stream = stored := of_decide_eq_true overlooked
  obtain ⟨record, judged⟩ := judgeStream_typed typed now
  rw [judged, if_pos expired]

/-- A loader finds nothing under a key that is taken for absent. -/
theorem TakenAbsent.exec_load (absent : TakenAbsent reader ctx key env store)
    (judges : Judges ctx key load judge) (forgets : Forgets reader judge) :
    exec env load store = (.ok none, store) := by
  rw [judges env store]
  cases stored : ctx.lookupMeta store key with
  | none => rfl
  | some v =>
    obtain ⟨expired, type, typed, overlooked⟩ := absent v stored
    exact congrArg (·, store) (forgets v env.nowMs type expired typed overlooked)

/-- A key that is taken for absent in two stores is found in the same way. -/
theorem alikeAs_of_absent (absent : TakenAbsent reader ctx key env store)
    (absent' : TakenAbsent reader ctx key env' store') :
    AlikeAs reader ctx key env env' store store' := by
  have loads : ∀ {ρ : Type} {load : Prog (Option ρ)} {version : ρ → UInt64}
      {judge : Bytes → Int64 → Except Fault (Option ρ)}, Judges ctx key load judge →
      Forgets reader judge → LoadsAlike ctx key env env' store store' version load :=
    fun judges forgets =>
      ⟨.ok none, absent.exec_load judges forgets, absent'.exec_load judges forgets, nofun⟩
  cases reader with
  | string =>
    exact ⟨_, absent.exec_load judges_readString forgets_judgeString,
      absent'.exec_load judges_readString forgets_judgeString⟩
  | hash => exact loads judges_readHashMeta forgets_judgeHash
  | list | set | bitmap => exact loads (judges_loadLiveMeta _ _) (forgets_judgeLive _ (by decide))
  | zset => exact loads judges_readZsetMeta forgets_judgeZset
  | stream =>
    exact ⟨loads judges_readStreamMeta forgets_judgeStream,
      loads judges_liveStreamMeta forgets_judgeStream⟩

end Absence

end Kvdb
