import Kvdb.Command.Writes

/-!
# Changing a deadline

Every metadata value has its flags in the first byte and its deadline in the
next eight. The expiry commands decode a value and encode it again with another
deadline, streams with the codec of the other composite types. That codec does
not know the last identifier of a stream, so a stream loses it, while every
other value keeps all its bytes but the deadline.
-/

namespace Kvdb

open Data Semantics Cmd

variable {ctx : CommandContext} {key v : Bytes} {store : Store} {env : Env}

section Values

/-- The value with another deadline, and nothing else changed. -/
def reexpired (v : Bytes) (expireMs : Int64) : Bytes := v.take 1 ++ (i64Bytes expireMs ++ v.drop 9)

/-- A record in the layout of streams, with the last identifier. -/
def IsStreamRecord (v : Bytes) : Prop :=
  dataTypeFromFlags (firstByte v) = some .stream ∧ v.length = 41

instance decidableIsStreamRecord (v : Bytes) : Decidable (IsStreamRecord v) :=
  inferInstanceAs (Decidable (_ ∧ _))

theorem reexpired_encodeString (flags : UInt8) (expire expireMs : Int64) (payload : Bytes) :
    reexpired (encodeString flags expire payload) expireMs =
      encodeString flags expireMs payload := by
  simp [reexpired, encodeString]

theorem reexpired_encodeMetadata (meta' : Metadata) (expireMs : Int64) :
    reexpired (encodeMetadata meta') expireMs =
      encodeMetadata { meta' with expire := expireMs } := by
  have tail : (encodeMetadata meta').drop 9 =
      (encodeMetadata { meta' with expire := expireMs }).drop 9 := by
    simp only [encodeMetadata, List.drop_succ_cons, List.drop_left' (length_i64Bytes _)]
    rfl
  rw [reexpired, tail]
  simp [encodeMetadata]

theorem length_encodeMetadata (meta' : Metadata) :
    (encodeMetadata meta').length = if meta'.dataType = some .list then 41 else 25 := by
  unfold encodeMetadata
  split_ifs <;> simp

theorem length_encodeStream (meta' : StreamMeta) : meta'.encode.length = 41 := by
  simp [StreamMeta.encode]

/-- The common codec reads a stream record without its last identifier. -/
theorem decodeMetadata_encodeStream {meta' : StreamMeta}
    (known : dataTypeFromFlags meta'.flags = some .stream) :
    decodeMetadata meta'.encode =
      some ⟨meta'.flags, meta'.expire, meta'.version, meta'.size, 0, -1⟩ := by
  simp [decodeMetadata, StreamMeta.encode, known, wordAt_zero, wordAt_skip]

/-- Setting the deadline of a value that commands store changes its deadline and
nothing else, unless it is a stream record. -/
theorem withExpire_eq_reexpired (storable : Storable v) (other : ¬ IsStreamRecord v)
    (expireMs : Int64) : withExpire v expireMs = .ok (reexpired v expireMs) := by
  cases storable with
  | @text flags expire payload typed =>
    have text : firstByte (encodeString flags expire payload) &&& flagsTypeMask =
        DataType.string.code := typed
    simp only [withExpire, if_pos text, decodeString_encodeString, reexpired_encodeString]
  | @record type meta' composite known =>
    have code : meta'.flags &&& flagsTypeMask = type.code :=
      dataTypeFromFlags_eq_some.mp known.typed
    have record : ¬ firstByte (encodeMetadata meta') &&& flagsTypeMask = DataType.string.code :=
      fun text => composite (DataType.code_injective (code.symm.trans text))
    simp only [withExpire, if_neg record,
      decodeMetadata_encodeMetadata known.typed known.normal, reexpired_encodeMetadata]
  | @stream meta' known => exact absurd ⟨known, length_encodeStream meta'⟩ other

/-- Setting the deadline of a stream record cuts off its last identifier. -/
theorem withExpire_stream (storable : Storable v) (stream : IsStreamRecord v) (expireMs : Int64) :
    ∃ encoded, withExpire v expireMs = .ok encoded ∧ encoded.length = 25 := by
  obtain ⟨type, length⟩ := stream
  cases storable with
  | @text flags expire payload typed =>
    have code : flags &&& flagsTypeMask = DataType.stream.code := dataTypeFromFlags_eq_some.mp type
    exact absurd (typed.symm.trans code) (by decide)
  | @record other meta' composite known =>
    -- The common layout is as long only for lists.
    have typed : meta'.dataType = some .stream := type
    rw [length_encodeMetadata, typed] at length
    exact absurd length (by decide)
  | @stream meta' known =>
    have code : meta'.flags &&& flagsTypeMask = DataType.stream.code :=
      dataTypeFromFlags_eq_some.mp known
    have record : ¬ firstByte meta'.encode &&& flagsTypeMask = DataType.string.code := fun text =>
      absurd (code.symm.trans text) (by decide)
    refine ⟨encodeMetadata ⟨meta'.flags, expireMs, meta'.version, meta'.size, 0, -1⟩, ?_, ?_⟩
    · simp only [withExpire, if_neg record, decodeMetadata_encodeStream known]
    · rw [length_encodeMetadata, Metadata.dataType, known]
      rfl

theorem Storable.long (storable : Storable v) : 9 ≤ v.length := by
  cases storable with
  | text => simp [encodeString]
  | record =>
    rw [length_encodeMetadata]
    split_ifs <;> omega
  | stream =>
    rw [length_encodeStream]
    omega

theorem Storable.ne_nil (storable : Storable v) : v ≠ [] := by
  cases storable <;> exact List.cons_ne_nil _ _

/-- A stored value that is no string is a record. -/
theorem Storable.decoded (storable : Storable v)
    (other : ¬ firstByte v &&& flagsTypeMask = DataType.string.code) :
    ∃ meta', decodeMetadata v = some meta' := by
  cases storable with
  | text typed => exact absurd typed other
  | record composite known => exact ⟨_, decodeMetadata_encodeMetadata known.typed known.normal⟩
  | stream known => exact ⟨_, decodeMetadata_encodeStream known⟩

theorem decodeString_of_long (long : 9 ≤ v.length) :
    decodeString v = some (firstByte v, deadlineOf v, v.drop 9) :=
  if_neg (by omega)

end Values

section Commands

/-- The store in which the metadata value of a key has another deadline, and
nothing else is changed. -/
def Store.reexpire (ctx : CommandContext) (store : Store) (key v : Bytes) (expireMs : Int64) :
    Store :=
  store.apply (.put .metadata (ctx.metaKey key) (reexpired v expireMs))

theorem exec_setExpireMs (stored : ctx.lookupMeta store key = some v) (nonempty : v ≠ [])
    {expireMs : Int64} {encoded : Bytes} (changed : withExpire v expireMs = .ok encoded) :
    exec env (setExpireMs ctx key expireMs) store =
      (.ok true, store.apply (.put .metadata (ctx.metaKey key) encoded)) := by
  rw [setExpireMs, ctx.exec_getMeta_bind, stored]
  simp only [if_neg nonempty, changed]
  rfl

/-- The deadline is the only thing that `setExpireMs` changes, unless the value
is a stream record. -/
theorem setExpireMs_iff (storable : Storable v) (stored : ctx.lookupMeta store key = some v)
    (expireMs : Int64) :
    exec env (setExpireMs ctx key expireMs) store =
      (.ok true, store.reexpire ctx key v expireMs) ↔ ¬ IsStreamRecord v := by
  constructor
  · intro same stream
    obtain ⟨encoded, changed, short⟩ := withExpire_stream storable stream expireMs
    rw [exec_setExpireMs stored storable.ne_nil changed] at same
    have values := congrArg (fun result => result.2.get .metadata (ctx.metaKey key)) same
    simp only [Store.reexpire, Store.get_apply_put, and_self, if_true, Option.some.injEq] at values
    have lengths := congrArg List.length values
    simp [reexpired, short, stream.2] at lengths
  · intro other
    exact exec_setExpireMs stored storable.ne_nil (withExpire_eq_reexpired storable other expireMs)

/-- The deadline a request sets on a key that has a value, if it sets one. -/
def Request.deadline (request : Request) (v : Bytes) : Option Int64 :=
  match request.command, request.args with
  | .expire, [_, amount] => (parseI64? amount).map fun n => request.env.nowMs + n * 1000
  | .pexpire, [_, amount] => (parseI64? amount).map fun n => request.env.nowMs + n
  | .persist, [_] => if 0 < deadlineOf v then some 0 else none
  | _, _ => none

/-- The deadline that is read from a record. -/
theorem exec_readExpire (stored : ctx.lookupMeta store key = some v) (nonempty : v ≠ [])
    (long : firstByte v &&& flagsTypeMask = DataType.string.code → 9 ≤ v.length)
    (composite : firstByte v &&& flagsTypeMask ≠ DataType.string.code →
      ∃ meta', decodeMetadata v = some meta') :
    exec env (readExpire ctx key) store =
      (.ok (some (if 0 < deadlineOf v then some (deadlineOf v) else none)), store) := by
  rw [readExpire, ctx.exec_getMeta_bind, stored]
  simp only [if_neg nonempty]
  by_cases text : firstByte v &&& flagsTypeMask = DataType.string.code
  · simp only [if_pos text, decodeString_of_long (long text)]
    rfl
  · obtain ⟨meta', decoded⟩ := composite text
    simp only [if_neg text, decoded, (decodeMetadata_fields decoded).1]
    rfl

/-- `EXPIRE` and `PEXPIRE` set the deadline they are given. -/
theorem exec_expireIn (name : String) (unit : Int64) (amount : Bytes) :
    (exec env (expireIn ctx name unit [key, amount]) store).2 =
      match parseI64? amount with
      | some n => (exec env (setExpireMs ctx key (env.nowMs + n * unit)) store).2
      | none => store := by
  rw [expireIn, parseI64]
  cases parseI64? amount with
  | none => rfl
  | some n =>
    simp only [exec_pure_bind, exec_nowMs_bind]
    rw [exec_bind]
    -- The reply does not touch the store.
    rcases exec env (setExpireMs ctx key (env.nowMs + n * unit)) store with ⟨_ | _, _⟩ <;> rfl

theorem exec_persist (storable : Storable v) (stored : ctx.lookupMeta store key = some v) :
    (exec env (persist ctx [key]) store).2 =
      if 0 < deadlineOf v then (exec env (setExpireMs ctx key 0) store).2 else store := by
  rw [persist,
    exec_bind_ok (exec_readExpire stored storable.ne_nil (fun _ => storable.long) storable.decoded)]
  by_cases expires : 0 < deadlineOf v
  · simp only [if_pos expires]
    rw [clearExpire, exec_bind]
    rcases exec env (setExpireMs ctx key 0) store with ⟨_ | _, _⟩ <;> rfl
  · simp only [if_neg expires]
    rfl

/-- The three commands set a deadline on the value they find, or do nothing. -/
theorem Request.after_expiry {request : Request} (storable : Storable v)
    (stored : ctx.lookupMeta store key = some v)
    (listed : request.command ∈ [Command.expire, .pexpire, .persist])
    (onKey : request.args.head? = some key) :
    request.after ctx store =
      match request.deadline v with
      | some expireMs => (exec request.env (setExpireMs ctx key expireMs) store).2
      | none => store := by
  obtain ⟨command, args, env⟩ := request
  obtain ⟨rest, rfl⟩ : ∃ rest, args = key :: rest := List.head?_eq_some_iff.mp onKey
  rw [Request.after_eq]
  simp only [List.mem_cons, List.not_mem_nil, or_false] at listed
  rcases listed with rfl | rfl | rfl
  · match rest with
    | [] | _ :: _ :: _ => rfl
    | [amount] =>
      refine (exec_expireIn "EXPIRE" 1000 amount).trans ?_
      simp only [deadline]
      cases parseI64? amount <;> rfl
  · match rest with
    | [] | _ :: _ :: _ => rfl
    | [amount] =>
      refine (exec_expireIn "PEXPIRE" 1 amount).trans ?_
      simp only [deadline, Int64.mul_one]
      cases parseI64? amount <;> rfl
  · match rest with
    | _ :: _ => rfl
    | [] =>
      refine (exec_persist storable stored).trans ?_
      simp only [deadline]
      by_cases expires : 0 < deadlineOf v <;> simp only [expires, if_true, if_false]

/-- What a lookup finds in a regular store is storable. -/
theorem Store.Regular.lookupMeta (regular : store.Regular)
    (stored : ctx.lookupMeta store key = some v) : Storable v := by
  rw [CommandContext.lookupMeta, Option.or_eq_some_iff] at stored
  obtain own | ⟨-, legacy⟩ := stored
  · exact regular _ _ own
  · split_ifs at legacy
    exact regular _ _ legacy

/-- In every store that the commands of any tenants reach, setting a deadline
changes the deadline of the value and nothing else if and only if the value is
not a stream record. The same holds of the commands that set one. -/
theorem expiry_changes_deadline_only_iff {requests : List (CommandContext × Request)}
    (run : TenantRuns .empty requests store) (stored : ctx.lookupMeta store key = some v) :
    (∀ (env : Env) (expireMs : Int64),
      exec env (setExpireMs ctx key expireMs) store =
        (.ok true, store.reexpire ctx key v expireMs) ↔ ¬ IsStreamRecord v) ∧
    ∀ request : Request, request.command ∈ [Command.expire, .pexpire, .persist] →
      request.args.head? = some key →
      (request.after ctx store =
        (match request.deadline v with
        | some expireMs => store.reexpire ctx key v expireMs
        | none => store) ↔
        ¬ (IsStreamRecord v ∧ (request.deadline v).isSome)) := by
  have storable : Storable v := (Store.regular_of_runs run).lookupMeta stored
  refine ⟨fun env expireMs => setExpireMs_iff storable stored expireMs, ?_⟩
  intro request listed onKey
  rw [Request.after_expiry storable stored listed onKey]
  cases known : request.deadline v with
  | none => simp
  | some expireMs =>
    -- Setting a deadline succeeds on every value, so the stores decide.
    obtain ⟨encoded, changed⟩ : ∃ encoded, withExpire v expireMs = .ok encoded := by
      by_cases stream : IsStreamRecord v
      · obtain ⟨encoded, changed, -⟩ := withExpire_stream storable stream expireMs
        exact ⟨encoded, changed⟩
      · exact ⟨_, withExpire_eq_reexpired storable stream expireMs⟩
    have decided : exec request.env (setExpireMs ctx key expireMs) store =
        (.ok true, store.reexpire ctx key v expireMs) ↔ ¬ IsStreamRecord v :=
      setExpireMs_iff storable stored expireMs
    simp only
    rw [exec_setExpireMs stored storable.ne_nil changed] at decided ⊢
    simpa using decided

/-- A list, then `EXPIRE` on it. -/
theorem expiry_changes_deadline_only_of_list :
    let push : Request := ⟨.rpush, [ascii "l", ascii "a"], .plain 7⟩
    let expire : Request := ⟨.expire, [ascii "l", ascii "100"], .plain 8⟩
    let list : Metadata := ⟨19, 0, 458752, 1, 0, 0⟩
    let store := push.after .plain .empty
    expire.after .plain store =
      store.reexpire .plain (ascii "l") (encodeMetadata list) 100008 := by
  intro push expire list store
  have run : TenantRuns .empty [(.plain, push)] store := .next .refl trivial
  have stored : CommandContext.plain.lookupMeta store (ascii "l") = some (encodeMetadata list) := by
    decide
  have known : expire.deadline (encodeMetadata list) = some 100008 := by decide
  have decided := (expiry_changes_deadline_only_iff run stored).2 expire (by decide) rfl
  rw [known] at decided
  exact decided.mpr (by decide)

/-- A stream forgets its last identifier under `EXPIRE`: the stored value is not
the old one with another deadline, and a smaller identifier is accepted that is
refused where only the deadline was changed. -/
theorem expire_forgets_last_id :
    let add : Request := ⟨.xadd, [ascii "s", ascii "5-1", ascii "f", ascii "v"], .plain 7⟩
    let expire : Request := ⟨.expire, [ascii "s", ascii "100"], .plain 8⟩
    let back : Request := ⟨.xadd, [ascii "s", ascii "3-0", ascii "f", ascii "w"], .plain 9⟩
    let v := (StreamMeta.mk 24 0 458752 1 5 1).encode
    let store := add.after .plain .empty
    let patched := store.reexpire .plain (ascii "s") v 100008
    CommandContext.plain.lookupMeta store (ascii "s") = some v ∧
      CommandContext.plain.lookupMeta (expire.after .plain store) (ascii "s") =
        some ((reexpired v 100008).take 25) ∧
      back.reply .plain (expire.after .plain store) = .ok (.bulkString (some (ascii "3-0"))) ∧
      back.reply .plain patched =
        .ok (.error "ERR The ID specified in XADD must be greater than 0-0") := by
  decide

end Commands

end Kvdb
