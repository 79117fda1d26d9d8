import Kvdb.Command.Elements
import Kvdb.Command.Writes

/-!
# The identifiers of a stream

A stream remembers the last identifier it gave out and takes only later ones, so
a new entry goes behind all entries that are stored. An identifier that the
server makes up on its own steps the sequence number of the last one. This
number wraps, and then the new identifier comes before the last one.
-/

namespace Kvdb

open Data Semantics Cmd

variable {ctx : CommandContext} {key : Bytes} {store : Store} {env : Env} {meta' : StreamMeta}

section Order

variable {a b c : EntryId}

theorem EntryId.lt_iff_encode : a.lt b = true ↔ a.encode < b.encode := by
  have value : ∀ id : EntryId, beNat id.encode = id.ms.toNat * 256 ^ 8 + id.seq.toNat := by
    intro id
    rw [EntryId.encode, beNat_append, length_u64Bytes, beNat_u64Bytes, beNat_u64Bytes]
  have smallA := a.seq.toNat_lt
  have smallB := b.seq.toNat_lt
  rw [lt_iff_beNat_lt (by simp [EntryId.encode]), value, value, EntryId.lt]
  simp only [Bool.or_eq_true, Bool.and_eq_true, decide_eq_true_eq, beq_iff_eq,
    UInt64.lt_iff_toNat_lt, ← UInt64.toNat_inj]
  omega

theorem EntryId.lt_trans (first : a.lt b = true) (second : b.lt c = true) : a.lt c = true :=
  EntryId.lt_iff_encode.mpr
    (List.lt_trans (EntryId.lt_iff_encode.mp first) (EntryId.lt_iff_encode.mp second))

/-- What does not come before or at an identifier comes after it. -/
theorem EntryId.lt_of_not_le (later : ¬ a.le b = true) : b.lt a = true := by
  have apart : a ≠ b := by
    rintro rfl
    simp [EntryId.le] at later
  have words : ¬ (a.ms.toNat = b.ms.toNat ∧ a.seq.toNat = b.seq.toNat) := by
    rintro ⟨ms, seq⟩
    cases a
    cases b
    exact apart (congrArg₂ EntryId.mk (UInt64.toNat_inj.mp ms) (UInt64.toNat_inj.mp seq))
  simp only [EntryId.le, EntryId.lt, Bool.or_eq_true, Bool.and_eq_true, decide_eq_true_eq,
    beq_iff_eq, UInt64.lt_iff_toNat_lt, ← UInt64.toNat_inj] at later ⊢
  omega

end Order

section Generation

/-- The milliseconds of an identifier whose sequence number is left to the
server: the clock's or the given ones. -/
def autoMs (env : Env) (spec : Bytes) : Option UInt64 :=
  if spec = ascii "*" then some (UInt64.ofNat env.now)
  else
    match stripAutoSeq spec with
    | some msText => (parseIdWord msText).toOption
    | none => none

def lastId (meta' : StreamMeta) : EntryId := ⟨meta'.lastMs, meta'.lastSeq⟩

/-- There is a sequence number left where the server has to step it. -/
def HasNextSeq (env : Env) (spec : Bytes) (meta' : StreamMeta) : Prop :=
  ∀ ms, autoMs env spec = some ms → meta'.lastMs < ms ∨ meta'.lastSeq ≠ 0xFFFFFFFFFFFFFFFF

instance decidableHasNextSeq (env : Env) (spec : Bytes) (meta' : StreamMeta) :
    Decidable (HasNextSeq env spec meta') :=
  match known : autoMs env spec with
  | none => .isTrue fun ms auto => by simp [known] at auto
  | some ms =>
    decidable_of_iff (meta'.lastMs < ms ∨ meta'.lastSeq ≠ 0xFFFFFFFFFFFFFFFF) <| by
      simp [HasNextSeq, known]

theorem lastId_lt_nextId {ms : UInt64}
    (left : meta'.lastMs < ms ∨ meta'.lastSeq ≠ 0xFFFFFFFFFFFFFFFF) :
    (lastId meta').lt (Cmd.nextId ms meta') = true := by
  unfold Cmd.nextId lastId
  by_cases ahead : meta'.lastMs < ms
  · simp [EntryId.lt, ahead]
  · have below : meta'.lastSeq.toNat < 2 ^ 64 - 1 := by
      have small := meta'.lastSeq.toNat_lt
      have other : meta'.lastSeq.toNat ≠ (0xFFFFFFFFFFFFFFFF : UInt64).toNat := fun same =>
        left.resolve_left ahead (UInt64.toNat_inj.mp same)
      simp only [UInt64.reduceToNat] at other
      omega
    have step : (meta'.lastSeq + 1).toNat = meta'.lastSeq.toNat + 1 := by
      rw [UInt64.toNat_add, UInt64.toNat_one, Nat.mod_eq_of_lt (by omega)]
    simp [EntryId.lt, ahead, UInt64.lt_iff_toNat_lt, step]

/-- A new identifier comes after the last one, in a stream that has entries. -/
theorem generateId_later {spec : Bytes} (left : HasNextSeq env spec meta') :
    Program.Ends env.handle (generateId spec meta') store
      (fun id after => after = store ∧ (0 < meta'.size → (lastId meta').lt id = true))
      (fun _ after => after = store) := by
  rw [generateId]
  by_cases clock : spec = ascii "*"
  · rw [if_pos clock]
    exact ⟨rfl, fun _ => lastId_lt_nextId (left _ (if_pos clock))⟩
  rw [if_neg clock]
  cases auto : stripAutoSeq spec with
  | some msText =>
    dsimp only
    cases parsed : parseIdWord msText with
    | error fault => exact rfl
    | ok ms =>
      have known : autoMs env spec = some ms := by
        simp [autoMs, clock, auto, parsed, Except.toOption]
      exact ⟨rfl, fun _ => lastId_lt_nextId (left ms known)⟩
  | none =>
    dsimp only
    cases EntryId.parse spec with
    | error fault => exact rfl
    | ok id =>
      -- An explicit identifier is compared with the last one, if there is one.
      show Program.Ends env.handle (if _ then _ else _) store _ _
      split_ifs with refused
      · exact rfl
      · exact ⟨rfl, fun filled => EntryId.lt_of_not_le fun early => refused ⟨filled, early⟩⟩

end Generation

section Loader

theorem checkStreamMeta_encode (known : dataTypeFromFlags meta'.flags = some .stream) :
    checkStreamMeta meta'.encode = .ok meta' := by
  have code : meta'.flags &&& 0x0F = DataType.stream.code := dataTypeFromFlags_eq_some.mp known
  have decoded : decodeStreamMeta meta'.encode = some meta' := by
    simp [decodeStreamMeta, StreamMeta.encode, wordAt_zero, wordAt_skip, wordAt_self]
  have head : firstByte meta'.encode = meta'.flags := rfl
  have nonempty : meta'.encode ≠ [] := List.cons_ne_nil _ _
  rw [checkStreamMeta, if_neg nonempty, head, code, if_neg (by decide), decoded]
  simp [code]

/-- The key's own metadata entry is the given stream, which does not expire. -/
structure StreamRecorded (ctx : CommandContext) (key : Bytes) (meta' : StreamMeta) (store : Store) :
    Prop where
  typed : dataTypeFromFlags meta'.flags = some .stream
  lasting : meta'.expire = 0
  stored : store.get .metadata (ctx.metaKey key) = some meta'.encode

theorem StreamRecorded.lookup (recorded : StreamRecorded ctx key meta' store) :
    ctx.lookupMeta store key = some meta'.encode :=
  ctx.lookupMeta_of_some recorded.stored

theorem StreamRecorded.not_expired (recorded : StreamRecorded ctx key meta' store) (now : Int64) :
    meta'.isExpired now = false := by
  rw [StreamMeta.isExpired, expiredAt, recorded.lasting]
  rfl

theorem exec_readStreamMeta_of_absent (absent : ctx.lookupMeta store key = none) :
    exec env (readStreamMeta ctx key) store = (.ok none, store) := by
  rw [readStreamMeta, ctx.exec_getMeta_bind, absent]
  rfl

theorem exec_readStreamMeta_of_recorded (recorded : StreamRecorded ctx key meta' store) :
    exec env (readStreamMeta ctx key) store = (.ok (some meta'), store) := by
  rw [readStreamMeta, ctx.exec_getMeta_bind, recorded.lookup]
  simp only [checkStreamMeta_encode recorded.typed, exec_ofExcept_ok_bind, exec_nowMs_bind,
    recorded.not_expired]
  rfl

theorem exec_ensureStreamMeta_of_absent (absent : ctx.lookupMeta store key = none) :
    exec env (ensureStreamMeta ctx key) store = (.ok (StreamMeta.new env.version), store) := by
  rw [ensureStreamMeta, exec_bind_ok (exec_readStreamMeta_of_absent absent)]
  rfl

theorem exec_ensureStreamMeta_of_recorded (recorded : StreamRecorded ctx key meta' store) :
    exec env (ensureStreamMeta ctx key) store = (.ok meta', store) := by
  rw [ensureStreamMeta, exec_bind_ok (exec_readStreamMeta_of_recorded recorded)]
  simp only [exec_nowMs_bind, recorded.not_expired]
  rfl

theorem exec_liveStreamMeta_of_recorded (recorded : StreamRecorded ctx key meta' store) :
    exec env (liveStreamMeta ctx key) store = (.ok (some meta'), store) := by
  rw [liveStreamMeta, exec_bind_ok (exec_readStreamMeta_of_recorded recorded)]
  simp only [exec_nowMs_bind, recorded.not_expired]
  rfl

theorem exec_liveStreamMeta_of_absent (absent : ctx.lookupMeta store key = none) :
    exec env (liveStreamMeta ctx key) store = (.ok none, store) :=
  exec_bind_ok (exec_readStreamMeta_of_absent absent)

/-- The stored entries of a stream, in the order of their identifiers. -/
def streamEntries (ctx : CommandContext) (store : Store) (key : Bytes) : List Entry :=
  match (ctx.lookupMeta store key).map checkStreamMeta with
  | some (.ok meta') => elements ctx .subkey key meta'.version store
  | _ => []

theorem streamEntries_of_absent (absent : ctx.lookupMeta store key = none) :
    streamEntries ctx store key = [] := by
  rw [streamEntries, absent]
  rfl

theorem streamEntries_of_recorded (recorded : StreamRecorded ctx key meta' store) :
    streamEntries ctx store key = elements ctx .subkey key meta'.version store := by
  rw [streamEntries, recorded.lookup, Option.map_some, checkStreamMeta_encode recorded.typed]

end Loader

section Growth

abbrev StreamEntry := EntryId × List (Bytes × Bytes)

def StreamEntry.stored (entry : StreamEntry) : Entry := (entry.1.encode, encodeFields entry.2)

/-- The entries of a record, in the order in which they were added: their
identifiers grow up to the last one. -/
structure StreamSized (ctx : CommandContext) (key : Bytes) (added : List StreamEntry)
    (meta' : StreamMeta) (store : Store) : Prop where
  stored : elements ctx .subkey key meta'.version store = added.map StreamEntry.stored
  size : meta'.size = UInt64.ofNat added.length
  growing : added.Pairwise fun a b => a.1.lt b.1 = true
  last : ∀ e ∈ added, e.1 = lastId meta' ∨ e.1.lt (lastId meta') = true

/-- The key is absent, or has the entries that were added. -/
def StreamGrown (ctx : CommandContext) (key : Bytes) (added : List StreamEntry) (store : Store) :
    Prop :=
  (ctx.lookupMeta store key = none ∧ added = []) ∨
    ∃ meta', StreamRecorded ctx key meta' store ∧ StreamSized ctx key added meta' store

variable {added : List StreamEntry}

/-- What `XADD` starts from. -/
theorem StreamGrown.base (grown : StreamGrown ctx key added store)
    (unused : ctx.lookupMeta store key = none → Unused ctx key env.version store) :
    ∃ meta', exec env (ensureStreamMeta ctx key) store = (.ok meta', store) ∧
      dataTypeFromFlags meta'.flags = some .stream ∧ meta'.expire = 0 ∧
      StreamSized ctx key added meta' store := by
  rcases grown with ⟨absent, rfl⟩ | ⟨meta', recorded, sized⟩
  · have empty : elements ctx .subkey key env.version store = [] :=
      List.length_eq_zero_iff.mp (length_elements.trans (unused absent).elementCount)
    exact ⟨_, exec_ensureStreamMeta_of_absent absent, dataTypeFromFlags_buildFlags .stream, rfl,
      empty, rfl, .nil, nofun⟩
  · exact ⟨meta', exec_ensureStreamMeta_of_recorded recorded, recorded.typed,
      recorded.lasting, sized⟩

theorem StreamGrown.entries (grown : StreamGrown ctx key added store) :
    streamEntries ctx store key = added.map StreamEntry.stored := by
  rcases grown with ⟨absent, rfl⟩ | ⟨meta', recorded, sized⟩
  · exact streamEntries_of_absent absent
  · rw [streamEntries_of_recorded recorded, sized.stored]

theorem StreamGrown.increasing (grown : StreamGrown ctx key added store) :
    added.Pairwise fun a b => a.1.lt b.1 = true := by
  rcases grown with ⟨-, rfl⟩ | ⟨meta', -, sized⟩
  · exact .nil
  · exact sized.growing

/-- A later identifier than the last one is later than all. -/
theorem StreamSized.all_lt {id : EntryId} (sized : StreamSized ctx key added meta' store)
    (few : added.length < 2 ^ 63) (later : 0 < meta'.size → (lastId meta').lt id = true) :
    ∀ e ∈ added, e.1.lt id = true := by
  intro e inside
  have filled : 0 < meta'.size := by
    have positive : 0 < added.length := List.length_pos_of_mem inside
    rw [sized.size, UInt64.lt_iff_toNat_lt, UInt64.toNat_ofNat', Nat.mod_eq_of_lt (by omega)]
    exact positive
  rcases sized.last e inside with same | before
  · rw [same]
    exact later filled
  · exact EntryId.lt_trans before (later filled)

/-- A later entry goes behind the others. -/
theorem StreamSized.add {entry : StreamEntry} (sized : StreamSized ctx key added meta' store)
    (typed : dataTypeFromFlags meta'.flags = some .stream) (lasting : meta'.expire = 0)
    (all_lt : ∀ e ∈ added, e.1.lt entry.1 = true) :
    let next : StreamMeta :=
      { meta' with size := meta'.size + 1, lastMs := entry.1.ms, lastSeq := entry.1.seq }
    StreamGrown ctx key (added ++ [entry])
      (store.write [.put .subkey (ctx.subKey key meta'.version entry.1.encode)
        (encodeFields entry.2), .put .metadata (ctx.metaKey key) next.encode]) := by
  intro next
  refine .inr ⟨next, ⟨typed, lasting, by simp [Store.get_apply_put]⟩, ?_, ?_, ?_, ?_⟩
  · have behind : ∀ e ∈ elements ctx .subkey key meta'.version store, e.1 < entry.1.encode := by
      rw [sized.stored]
      intro e inside
      obtain ⟨old, member, rfl⟩ := List.mem_map.mp inside
      exact EntryId.lt_iff_encode.mp (all_lt old member)
    have appended : elements ctx .subkey key meta'.version (store.apply (.put .subkey
        (ctx.subKey key meta'.version entry.1.encode) (encodeFields entry.2))) = _ :=
      elements_put_back behind
    rw [sized.stored] at appended
    -- The record is in another family.
    rw [List.map_append, List.map_singleton]
    refine Eq.trans (elements_congr fun m => ?_) appended
    simp [Store.get_apply_put]
  · rw [List.length_append, List.length_singleton, UInt64.ofNat_add, ← sized.size]
    rfl
  · refine List.pairwise_append.mpr ⟨sized.growing, List.pairwise_singleton _ _, ?_⟩
    intro e inside e' single
    rw [List.mem_singleton.mp single]
    exact all_lt e inside
  · intro e inside
    rcases List.mem_append.mp inside with old | single
    · exact .inr (all_lt e old)
    · exact .inl (congrArg Prod.fst (List.mem_singleton.mp single))

/-- `XADD` replies the identifier it generates and adds the entry, which goes behind the
others if its identifier does. If it fails, it changes nothing. -/
theorem xadd_ends {spec field : Bytes} {rest : List Bytes} {accept : StreamMeta → EntryId → Prop}
    (grown : StreamGrown ctx key added store)
    (unused : ctx.lookupMeta store key = none → Unused ctx key env.version store)
    (generates : ∀ meta', exec env (ensureStreamMeta ctx key) store = (.ok meta', store) →
      Program.Ends env.handle (generateId spec meta') store
        (fun id after => after = store ∧ accept meta' id) (fun _ after => after = store)) :
    Program.Ends env.handle (Cmd.xadd ctx (key :: spec :: field :: rest)) store
      (fun reply after => ∃ meta' id, StreamSized ctx key added meta' store ∧ accept meta' id ∧
        reply = .bulkString (some id.formatId) ∧ ((∀ e ∈ added, e.1.lt id = true) →
          StreamGrown ctx key (added ++ [(id, Cmd.pairUp (field :: rest))]) after))
      (fun _ after => after = store) := by
  obtain ⟨meta', loaded, typed, lasting, sized⟩ := grown.base unused
  rw [Cmd.xadd]
  split_ifs
  · exact rfl
  refine Program.Ends.bind (Program.Ends.of_run loaded ?_ nofun)
  rintro _ ⟨⟩
  refine Program.Ends.bind ((generates meta' loaded).mono ?_ fun _ _ same => same)
  rintro id _ ⟨rfl, accepted⟩
  refine ⟨meta', id, sized, accepted, rfl, fun all_lt => ?_⟩
  exact sized.add typed lasting all_lt

/-- `XADD` adds an entry and replies its identifier, or fails and changes
nothing. -/
theorem xadd_grows {spec field : Bytes} {rest : List Bytes}
    (grown : StreamGrown ctx key added store) (few : added.length < 2 ^ 63)
    (unused : ctx.lookupMeta store key = none → Unused ctx key env.version store)
    (left : ∀ meta', exec env (ensureStreamMeta ctx key) store = (.ok meta', store) →
      HasNextSeq env spec meta') :
    Program.Ends env.handle (Cmd.xadd ctx (key :: spec :: field :: rest)) store
      (fun reply after => ∃ id : EntryId, reply = .bulkString (some id.formatId) ∧
        StreamGrown ctx key (added ++ [(id, Cmd.pairUp (field :: rest))]) after)
      (fun _ after => after = store) := by
  refine (xadd_ends grown unused fun meta' loaded => generateId_later (left meta' loaded)).mono ?_
    fun _ _ same => same
  rintro reply after ⟨meta', id, sized, later, replied, grows⟩
  exact ⟨id, replied, grows (sized.all_lt few later)⟩

end Growth

section Requests

/-- An `XADD` on a key. A version that is drawn for an absent key is a new one,
and where the server has to step the sequence number it is not the greatest. -/
structure StreamRequest (ctx : CommandContext) (key : Bytes) (store : Store) (request : Request) :
    Prop where
  listed : request.command = .xadd
  onKey : request.args.head? = some key
  unused : ctx.lookupMeta store key = none → Unused ctx key request.env.version store
  left : ∀ v meta', ctx.lookupMeta store key = some v → checkStreamMeta v = .ok meta' →
    ∀ spec ∈ request.args.tail.head?, HasNextSeq request.env spec meta'

/-- What an accepted `XADD` adds: the text of the identifier it replies and the
fields it names. -/
def acceptedAdd (ctx : CommandContext) (store : Store) (request : Request) :
    List (Bytes × List (Bytes × Bytes)) :=
  match request.reply ctx store with
  | .ok (.bulkString (some id)) => [(id, Cmd.pairUp (request.args.drop 2))]
  | _ => []

def acceptedAdds (ctx : CommandContext) :
    Store → List Request → List (Bytes × List (Bytes × Bytes)) :=
  outputs (fun store request => request.after ctx store) (acceptedAdd ctx)

variable {added : List StreamEntry}

/-- Nothing is accepted from a failing command. -/
theorem acceptedAdd_of_error {request : Request} {fault : Fault} {after : Store}
    (failed : exec request.env (request.command.run ctx request.args) store =
      (.error fault, after)) :
    acceptedAdd ctx store request = [] := by
  rw [acceptedAdd, Request.reply, exec_dispatch, failed]
  cases fault <;> rfl

/-- An identifier in the reply is accepted with the fields of the request. -/
theorem acceptedAdd_of_ok {spec id : Bytes} {fields : List Bytes} {after : Store}
    (ran : exec env (Cmd.xadd ctx (key :: spec :: fields)) store =
      (.ok (.bulkString (some id)), after)) :
    let request : Request := ⟨.xadd, key :: spec :: fields, env⟩
    acceptedAdd ctx store request = [(id, Cmd.pairUp fields)] ∧
      request.after ctx store = after := by
  intro request
  have replied : request.reply ctx store = _ := Request.reply_eq_ok ctx ran
  refine ⟨?_, Request.after_eq_of_exec ctx ran⟩
  rw [acceptedAdd, replied]
  rfl

/-- The request adds the entry it accepts behind the others, or nothing. -/
def AddsAccepted (ctx : CommandContext) (key : Bytes) (added : List StreamEntry) (store : Store)
    (request : Request) : Prop :=
  ∃ new : List StreamEntry, new.length ≤ 1 ∧
    acceptedAdd ctx store request = new.map (fun e => (e.1.formatId, e.2)) ∧
    StreamGrown ctx key (added ++ new) (request.after ctx store)

theorem StreamGrown.of_error {request : Request} {fault : Fault}
    (grown : StreamGrown ctx key added store)
    (failed : exec request.env (request.command.run ctx request.args) store =
      (.error fault, store)) :
    AddsAccepted ctx key added store request := by
  refine ⟨[], Nat.zero_le _, acceptedAdd_of_error failed, ?_⟩
  rw [Request.after_eq_of_exec ctx failed, List.append_nil]
  exact grown

theorem StreamGrown.step {request : Request} (grown : StreamGrown ctx key added store)
    (allowed : StreamRequest ctx key store request) (few : added.length < 2 ^ 63) :
    AddsAccepted ctx key added store request := by
  obtain ⟨command, args, env⟩ := request
  obtain ⟨rfl, onKey, unused, left⟩ := allowed
  match args, onKey with
  | [_], rfl | [_, _], rfl => exact grown.of_error rfl
  | key :: spec :: field :: rest, rfl =>
    have hasNext : ∀ meta', exec env (ensureStreamMeta ctx key) store = (.ok meta', store) →
        HasNextSeq env spec meta' := by
      intro meta' loaded
      rcases grown with ⟨absent, -⟩ | ⟨record, recorded, -⟩
      · -- A new stream starts with the sequence number zero.
        rw [exec_ensureStreamMeta_of_absent absent] at loaded
        cases loaded
        exact fun _ _ => .inr (by simp [StreamMeta.new])
      · rw [exec_ensureStreamMeta_of_recorded recorded] at loaded
        cases loaded
        exact left _ _ recorded.lookup (checkStreamMeta_encode recorded.typed) spec rfl
    have ends := @xadd_grows ctx key store env added spec field rest grown few unused hasNext
    obtain ⟨_, after, ran, id, rfl, grown⟩ | ⟨fault, _, ran, rfl⟩ := ends.outcome
    · obtain ⟨one, rfl⟩ := acceptedAdd_of_ok ran
      exact ⟨[(id, Cmd.pairUp (field :: rest))], le_rfl, one, grown⟩
    · exact grown.of_error ran

end Requests

section Runs

variable {added : List StreamEntry}

theorem exec_xlen (grown : StreamGrown ctx key added store) :
    exec env (Cmd.xlen ctx [key]) store = (.ok (.integer (Int64.ofNat added.length)), store) := by
  rcases grown with ⟨absent, rfl⟩ | ⟨meta', recorded, sized⟩
  · exact exec_bind_ok (exec_liveStreamMeta_of_absent absent)
  · rw [Cmd.xlen, exec_bind_ok (exec_liveStreamMeta_of_recorded recorded), exec_pure, sized.size,
      UInt64.toInt64_ofNat']

theorem StreamGrown.run {start : Store} {requests : List Request}
    (run : Runs ctx (StreamRequest ctx key) start requests store)
    (absent : ctx.lookupMeta start key = none) (few : requests.length < 2 ^ 63) :
    ∃ added : List StreamEntry, added.length ≤ requests.length ∧
      acceptedAdds ctx start requests = added.map (fun e => (e.1.formatId, e.2)) ∧
      StreamGrown ctx key added store := by
  refine run.invariant_of_steps (fun requests store => requests.length < 2 ^ 63 →
    ∃ added : List StreamEntry, added.length ≤ requests.length ∧
      acceptedAdds ctx start requests = added.map (fun e => (e.1.formatId, e.2)) ∧
      StreamGrown ctx key added store) (fun _ => ⟨[], le_rfl, rfl, .inl ⟨absent, rfl⟩⟩) ?_ few
  intro requests state request run allowed held few
  rw [List.length_append, List.length_singleton] at few
  obtain ⟨added, short, accepted, grown⟩ := held (by omega)
  obtain ⟨new, one, accepts, grown⟩ := grown.step allowed (by omega)
  refine ⟨added ++ new, ?_, ?_, grown⟩
  · simp only [List.length_append, List.length_singleton]
    omega
  · rw [acceptedAdds, run.outputs_concat, List.map_append, accepts]
    exact congrArg (· ++ _) accepted

/-- In every run of `XADD` on a key, starting where the key is absent, the
identifiers of the accepted requests grow, the entries that are stored are those
that were accepted, and `XLEN` replies their number. No request changes an entry
that is stored. This is provided that the server never has to step the greatest
sequence number, and that there are fewer than `2 ^ 63` requests. -/
theorem xadd_ids_grow {start : Store} {requests : List Request}
    (run : Runs ctx (StreamRequest ctx key) start requests store)
    (absent : ctx.lookupMeta start key = none) (few : requests.length < 2 ^ 63) :
    (∃ added : List StreamEntry,
      acceptedAdds ctx start requests = added.map (fun e => (e.1.formatId, e.2)) ∧
      added.Pairwise (fun a b => a.1.lt b.1 = true) ∧
      streamEntries ctx store key = added.map StreamEntry.stored) ∧
    (∀ env : Env, Request.reply ctx store ⟨.xlen, [key], env⟩ =
      .ok (.integer (Int64.ofNat (streamEntries ctx store key).length))) ∧
    ∀ request, StreamRequest ctx key store request →
      streamEntries ctx store key <+: streamEntries ctx (request.after ctx store) key := by
  obtain ⟨added, short, accepted, grown⟩ := StreamGrown.run run absent few
  refine ⟨⟨added, accepted, grown.increasing, grown.entries⟩, ?_, ?_⟩
  · intro env
    rw [grown.entries, List.length_map]
    exact Request.reply_eq_ok ctx (exec_xlen grown)
  · intro request allowed
    obtain ⟨new, -, -, grown'⟩ := grown.step allowed (by omega)
    rw [grown.entries, grown'.entries, List.map_append]
    exact List.prefix_append _ _

/-- An explicit identifier, and then one that the server makes up while the clock
has gone back. -/
theorem xadd_ids_grow_of_clock :
    let first : Request := ⟨.xadd, [ascii "s", ascii "5-1", ascii "f", ascii "v"], .plain 7⟩
    let second : Request := ⟨.xadd, [ascii "s", ascii "*", ascii "f", ascii "w"], .plain 3⟩
    let store := second.after .plain (first.after .plain .empty)
    acceptedAdds .plain .empty [first, second] =
      [(ascii "5-1", [(ascii "f", ascii "v")]), (ascii "5-2", [(ascii "f", ascii "w")])] ∧
    Request.reply .plain store ⟨.xlen, [ascii "s"], .plain 4⟩ =
      .ok (.integer (Int64.ofNat (streamEntries .plain store (ascii "s")).length)) := by
  intro first second store
  have unused : Unused .plain (ascii "s") (Env.plain 7).version .empty := fun _ _ _ => rfl
  have one : Runs .plain (StreamRequest .plain (ascii "s")) .empty [first]
      (first.after .plain .empty) :=
    .next .refl ⟨rfl, rfl, fun _ => unused, nofun⟩
  have stored : CommandContext.plain.lookupMeta (first.after .plain .empty) (ascii "s") =
      some (StreamMeta.mk 24 0 458752 1 5 1).encode := by decide
  have checked : checkStreamMeta (StreamMeta.mk 24 0 458752 1 5 1).encode =
      .ok (StreamMeta.mk 24 0 458752 1 5 1) := by decide
  have allowed : StreamRequest .plain (ascii "s") (first.after .plain .empty) second := by
    refine ⟨rfl, rfl, fun absent => ?_, fun v meta' known loaded spec named => ?_⟩
    · rw [stored] at absent
      cases absent
    · obtain rfl := Option.some.inj (stored.symm.trans known)
      obtain rfl := Except.ok.inj (checked.symm.trans loaded)
      obtain rfl := Option.some.inj named
      decide
  exact ⟨by decide, (xadd_ids_grow (one.next allowed) rfl (by decide)).2.1 (.plain 4)⟩

/-- After the greatest identifier the sequence number wraps: `*` gives out a
smaller identifier, the greatest one is then accepted once more and replaces its
entry, and `XLEN` replies three for two entries. -/
theorem xadd_sequence_wraps :
    let top : Request := ⟨.xadd, [ascii "s", ascii "+", ascii "f", ascii "v"], .plain 7⟩
    let auto : Request := ⟨.xadd, [ascii "s", ascii "*", ascii "f", ascii "w"], .plain 8⟩
    let again : Request := ⟨.xadd, [ascii "s", ascii "+", ascii "f", ascii "x"], .plain 9⟩
    let store := again.after .plain (auto.after .plain (top.after .plain .empty))
    (acceptedAdds .plain .empty [top, auto, again]).map Prod.fst =
      [ascii "18446744073709551615-18446744073709551615", ascii "18446744073709551615-0",
        ascii "18446744073709551615-18446744073709551615"] ∧
    Request.reply .plain store ⟨.xlen, [ascii "s"], .plain 9⟩ = .ok (.integer 3) ∧
    streamEntries .plain store (ascii "s") =
      [StreamEntry.stored (⟨0xFFFFFFFFFFFFFFFF, 0⟩, [(ascii "f", ascii "w")]),
        StreamEntry.stored
          (⟨0xFFFFFFFFFFFFFFFF, 0xFFFFFFFFFFFFFFFF⟩, [(ascii "f", ascii "x")])] := by
  decide

end Runs

end Kvdb
