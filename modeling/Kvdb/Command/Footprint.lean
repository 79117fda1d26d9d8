import Kvdb.Command.Reading

/-!
# What commands may write

A command writes only records and elements of the keys it names, and every
record it writes is in one of three layouts: a string behind its flags and its
deadline, a record of the common layout, or the record of a stream. This holds
whatever the command reads, so it holds from every store.

Most commands read first, and write one batch at their end. Such a command reports
no error once it has written, and what it replies is settled before that: two
stores in which it reads the same give the same reply.
-/

namespace Kvdb

open Data Semantics

variable {ctx : CommandContext} {keys : List Bytes} {key : Bytes} {α β : Type}

section Values

variable {type : DataType} {meta' : Metadata}

theorem Metadata.new_ofType (type : DataType) (v : UInt64) : (Metadata.new type v).OfType type :=
  ⟨Metadata.new_dataType type v, Metadata.new_normal type v⟩

theorem Metadata.OfType.resize (record : meta'.OfType type) (size : UInt64) :
    ({ meta' with size } : Metadata).OfType type :=
  ⟨record.typed, record.normal⟩

/-- Only the index fields of lists may be anything. -/
theorem Metadata.ofType_list {flags : UInt8} (typed : dataTypeFromFlags flags = some .list)
    (expire : Int64) (version size : UInt64) (head tail : Int64) :
    (⟨flags, expire, version, size, head, tail⟩ : Metadata).OfType .list :=
  ⟨typed, fun other => absurd typed other⟩

/-- A value that commands store as metadata. -/
inductive Storable : Bytes → Prop
  | text {flags : UInt8} {expire : Int64} {payload : Bytes}
      (typed : flags &&& flagsTypeMask = DataType.string.code) :
      Storable (encodeString flags expire payload)
  | record {type : DataType} {meta' : Metadata} (composite : type ≠ .string)
      (known : meta'.OfType type) : Storable (encodeMetadata meta')
  | stream {meta' : Cmd.StreamMeta} (known : dataTypeFromFlags meta'.flags = some .stream) :
      Storable meta'.encode

/-- A value with another deadline. -/
inductive Redates (v : Bytes) (expireMs : Int64) : Bytes → Prop
  | text (typed : firstByte v &&& flagsTypeMask = DataType.string.code)
      (long : ¬ v.length < 1 + 8) :
      Redates v expireMs (encodeString (firstByte v) expireMs (v.drop 9))
  | record {meta' : Metadata} {type : DataType}
      (other : firstByte v &&& flagsTypeMask ≠ DataType.string.code)
      (decoded : decodeMetadata v = some meta') (flags : meta'.flags = firstByte v)
      (known : meta'.OfType type) :
      Redates v expireMs (encodeMetadata { meta' with expire := expireMs })

theorem redates_of_withExpire {v encoded : Bytes} {expireMs : Int64}
    (changed : Cmd.withExpire v expireMs = .ok encoded) : Redates v expireMs encoded := by
  unfold Cmd.withExpire at changed
  split_ifs at changed with text
  · unfold decodeString at changed
    split_ifs at changed with short
    cases changed
    exact .text text short
  · cases decoded : decodeMetadata v with
    | none => simp [decoded] at changed
    | some meta' =>
      simp only [decoded, Except.ok.injEq] at changed
      subst changed
      obtain ⟨-, flags, ⟨type, known⟩, normal, -⟩ := decodeMetadata_eq_some decoded
      exact .record text decoded flags (⟨known, normal⟩ : meta'.OfType type)

/-- A stored value keeps its layout when its deadline changes. -/
theorem storable_withExpire {v encoded : Bytes} {expireMs : Int64}
    (changed : Cmd.withExpire v expireMs = .ok encoded) : Storable encoded := by
  cases redates_of_withExpire changed with
  | text typed => exact .text typed
  | @record meta' type other decoded flags known =>
    refine .record ?_ (⟨known.typed, known.normal⟩ :
      Metadata.OfType type { meta' with expire := expireMs })
    rintro rfl
    exact other (flags ▸ dataTypeFromFlags_eq_some.mp known.typed)

end Values

section Operations

/-- An operation on the record or on an element of one of the keys. A record
that is put is one that commands store. -/
inductive BatchOp.OnKeys (ctx : CommandContext) (keys : List Bytes) : BatchOp → Prop
  | putRecord {key value : Bytes} (named : key ∈ keys) (storable : Storable value) :
      OnKeys ctx keys (.put .metadata (ctx.metaKey key) value)
  | deleteRecord {key : Bytes} (named : key ∈ keys) :
      OnKeys ctx keys (.delete .metadata (ctx.metaKey key))
  | putElement {cf : ColumnFamily} {key : Bytes} {v : UInt64} {sub value : Bytes}
      (named : key ∈ keys) (element : cf ≠ .metadata) :
      OnKeys ctx keys (.put cf (ctx.subKey key v sub) value)
  | deleteElement {cf : ColumnFamily} {key : Bytes} {v : UInt64} {sub : Bytes}
      (named : key ∈ keys) (element : cf ≠ .metadata) :
      OnKeys ctx keys (.delete cf (ctx.subKey key v sub))

def BatchOnKeys (ctx : CommandContext) (keys : List Bytes) (batch : WriteBatch) : Prop :=
  ∀ op ∈ batch, op.OnKeys ctx keys

theorem batchOnKeys_nil : BatchOnKeys ctx keys [] := by simp [BatchOnKeys]

theorem batchOnKeys_cons {op : BatchOp} {batch : WriteBatch} :
    BatchOnKeys ctx keys (op :: batch) ↔ op.OnKeys ctx keys ∧ BatchOnKeys ctx keys batch :=
  List.forall_mem_cons

def WritesOnKeys (ctx : CommandContext) (keys : List Bytes) (op : Effect) : Prop :=
  ∀ batch, op = .write batch → BatchOnKeys ctx keys batch

/-- The program writes on the keys only, whatever it reads. -/
def Footprint (ctx : CommandContext) (keys : List Bytes) (program : Prog α) : Prop :=
  program.Respects (WritesOnKeys ctx keys) fun _ => True

variable {program : Prog α} {rest : α → Prog β} {accept : α → Prop}

theorem Footprint.bind (first : Footprint ctx keys program)
    (next : ∀ value, Footprint ctx keys (rest value)) : Footprint ctx keys (program >>= rest) :=
  Program.Respects.bind first fun value _ => next value

theorem footprint_write {batch : WriteBatch} (within : BatchOnKeys ctx keys batch) :
    Footprint ctx keys (Storage.write batch) := by
  refine ⟨fun other same => ?_, fun _ => trivial⟩
  cases same
  exact within

end Operations

section Editors

variable {ρ : Type} {program : Prog α} {rest : α → Prog β} {accept : α → Prop}
  {allowed permitted : WriteBatch → Prop} {load : Prog ρ} {good : ρ → Prop}
  {edits : ρ → WriteBatch → Prop} {env : Env} {store : Store}

/-- The program writes permitted batches only, whatever it reads. -/
def Writing (allowed : WriteBatch → Prop) (program : Prog α) : Prop :=
  program.Respects (fun op => ∀ batch, op = Effect.write batch → allowed batch) fun _ => True

theorem writing_pure (value : α) : Writing allowed (pure value : Prog α) := trivial

theorem writing_fail (fault : Fault) : Writing allowed (.fail fault : Prog α) := trivial

theorem writing_raise (cause : KvdbError) : Writing allowed (raise cause : Prog α) := trivial

/-- A write is the last thing a command does. -/
theorem writing_write {batch : WriteBatch} {reply : α} (within : allowed batch) :
    Writing allowed (Storage.write batch >>= fun _ => pure reply) := by
  refine ⟨fun other same => ?_, fun _ => trivial⟩
  cases same
  exact within

theorem Writing.ite {condition : Prop} [Decidable condition] {other : Prog α}
    (first : Writing allowed program) (second : Writing allowed other) :
    Writing allowed (if condition then program else other) := by
  split_ifs
  · exact first
  · exact second

/-- Reading first: the rest may use what is known of the result. -/
theorem Reads.bind_writing (first : Reads accept program)
    (next : ∀ value, accept value → Writing allowed (rest value)) :
    Writing allowed (program >>= rest) := by
  refine Program.Respects.bind (first.mono (fun op reads => ?_) fun _ accepted => accepted) next
  intro batch same
  exact absurd same (reads batch)

theorem ReadOnly.bind_writing (first : ReadOnly program)
    (next : ∀ value, Writing allowed (rest value)) : Writing allowed (program >>= rest) :=
  Reads.bind_writing first fun value _ => next value

theorem ReadOnly.writing (reads : ReadOnly program) : Writing allowed program := by
  refine Program.Respects.mono reads (fun op none batch same => ?_) fun _ => id
  exact absurd same (none batch)

theorem Writing.mono (writing : Writing allowed program)
    (weaker : ∀ batch, allowed batch → permitted batch) : Writing permitted program :=
  Program.Respects.mono writing (fun _ writes batch same => weaker batch (writes batch same))
    fun _ => id

/-- A program that writes applies one permitted batch, or nothing. -/
theorem Writing.exec (writing : Writing allowed program)
    (append : ∀ first second, allowed first → allowed second → allowed (first ++ second)) :
    (exec env program store).2 = store ∨
      ∃ batch, allowed batch ∧ (exec env program store).2 = store.write batch := by
  refine Program.Respects.run_invariant writing (fun op writes before
    (held : before = store ∨ ∃ batch, allowed batch ∧ before = store.write batch) => ?_) (.inl rfl)
  cases op with
  | write more =>
    have within := writes more rfl
    rcases held with rfl | ⟨batch, allowed, rfl⟩
    · exact .inr ⟨more, within, rfl⟩
    · exact .inr
        ⟨batch ++ more, append _ _ allowed within, (Store.write_append store batch more).symm⟩
  | get | iterate | size | now | random | hashOrder | lock | unlock => exact held

theorem ReadOnly.exec_cases (reads : ReadOnly program) :
    (∃ value, exec env program store = (.ok value, store)) ∨
      ∃ fault, exec env program store = (.error fault, store) := by
  have same : (exec env program store).2 = store := reads.exec_state
  rcases ran : exec env program store with ⟨fault | value, after⟩
  · exact .inr ⟨fault, by rw [ran] at same; rw [← same]⟩
  · exact .inl ⟨value, by rw [ran] at same; rw [← same]⟩

/-- The program reads, loads one record, and from then on writes what its record
permits. -/
inductive Editor (load : Prog ρ) (good : ρ → Prop) (edits : ρ → WriteBatch → Prop) :
    {α : Type} → Prog α → Prop
  | idle {α : Type} {program : Prog α} (reads : ReadOnly program) : Editor load good edits program
  | load {α : Type} {body : ρ → Prog α}
      (writing : ∀ record, good record → Writing (edits record) (body record)) :
      Editor load good edits (load >>= body)
  | step {α β : Type} {first : Prog α} {rest : α → Prog β} (reads : ReadOnly first)
      (next : ∀ value, Editor load good edits (rest value)) :
      Editor load good edits (first >>= rest)

theorem editor_raise (cause : KvdbError) : Editor load good edits (raise cause : Prog α) :=
  .idle (readOnly_raise cause)

theorem Editor.ite {condition : Prop} [Decidable condition] {other : Prog α}
    (first : Editor load good edits program) (second : Editor load good edits other) :
    Editor load good edits (if condition then program else other) := by
  split_ifs
  · exact first
  · exact second

/-- An editor applies a batch that the record it loads permits, or nothing. -/
theorem Editor.exec (editor : Editor load good edits program) (loads : Reads good load)
    (append : ∀ record first second, edits record first → edits record second →
      edits record (first ++ second)) :
    (exec env program store).2 = store ∨ ∃ record batch, good record ∧
      exec env load store = (.ok record, store) ∧ edits record batch ∧
      (exec env program store).2 = store.write batch := by
  have quiet : ReadOnly load := loads.mono (fun _ reads => reads) fun _ _ => trivial
  induction editor with
  | idle reads => exact .inl reads.exec_state
  | load writing =>
    rcases @ReadOnly.exec_cases _ load env store quiet with ⟨record, ran⟩ | ⟨fault, ran⟩
    · have known : good record := loads.run_value ran
      rw [exec_bind_ok ran]
      refine ((writing record known).exec (append record)).imp_right ?_
      rintro ⟨batch, within, after⟩
      exact ⟨record, batch, known, ran, within, after⟩
    · exact .inl (by rw [exec_bind_error ran])
  | step reads _ ih =>
    rcases @ReadOnly.exec_cases _ _ env store reads with ⟨value, ran⟩ | ⟨fault, ran⟩
    · rw [exec_bind_ok ran]
      exact ih value
    · exact .inl (by rw [exec_bind_error ran])

/-- Whatever is written stands in a permitted batch. -/
theorem Writing.mem_writes (writing : Writing allowed program) {op : BatchOp}
    (inside : op ∈ writes env program store) : ∃ batch, allowed batch ∧ op ∈ batch := by
  obtain ⟨effect, performed, within⟩ := List.mem_flatMap.mp inside
  have permitted := Program.Respects.performed writing performed
  cases effect with
  | write batch => exact ⟨batch, permitted batch rfl, within⟩
  | _ => cases within

theorem Editor.mem_writes (editor : Editor load good edits program) (loads : Reads good load)
    {op : BatchOp} (inside : op ∈ writes env program store) : ∃ record batch,
      Kvdb.exec env load store = (.ok record, store) ∧ edits record batch ∧ op ∈ batch := by
  induction editor with
  | idle reads =>
    rw [reads.writes_eq_nil] at inside
    cases inside
  | load writing =>
    rcases @ReadOnly.exec_cases _ load env store loads.readOnly with ⟨record, ran⟩ | ⟨fault, ran⟩
    · rw [writes_bind_ok ran, loads.readOnly.writes_eq_nil, List.nil_append] at inside
      obtain ⟨batch, within, member⟩ := (writing record (loads.run_value ran)).mem_writes inside
      exact ⟨record, batch, ran, within, member⟩
    · rw [writes_bind_error ran, loads.readOnly.writes_eq_nil] at inside
      cases inside
  | step reads _ ih =>
    rcases @ReadOnly.exec_cases _ _ env store reads with ⟨value, ran⟩ | ⟨fault, ran⟩
    · rw [writes_bind_ok ran, reads.writes_eq_nil, List.nil_append] at inside
      exact ih value inside
    · rw [writes_bind_error ran, reads.writes_eq_nil] at inside
      cases inside

end Editors

section Commits

variable {observer : Observer} {wrote : Bool} {accept : α → Prop}
  {allowed permitted : WriteBatch → Prop}
  {first : Prog α} {rest : α → Prog RespValue} {program other : Prog RespValue}

/-- A reply that is framed, and no error if something was written. -/
def Replied (wrote : Bool) (reply : RespValue) : Prop :=
  reply.Framed ∧ (wrote = true → ∀ text, reply ≠ .error text)

theorem replied_integer (n : Int64) : Replied wrote (.integer n) := ⟨trivial, fun _ _ => nofun⟩

theorem replied_bulkString (bytes : Option Bytes) : Replied wrote (.bulkString bytes) :=
  ⟨trivial, fun _ _ => nofun⟩

theorem framed_ok : (RespValue.simpleString "OK").Framed :=
  (plain_of_chars rfl (by decide) : Plain "OK").unbroken

theorem replied_ok : Replied wrote (.simpleString "OK") := ⟨framed_ok, fun _ _ => nofun⟩

theorem AllFramed.replied {values : List RespValue} (framed : AllFramed values) :
    Replied wrote (.array values) := ⟨framed.array, fun _ _ => nofun⟩

/-- Reading is tidy. -/
theorem Answers.follows (answers : Answers accept first) :
    Tidy (fun wrote value => wrote = false ∧ accept value) false first :=
  Program.Follows.mono answers (fun _ _ => id) fun _ _ ⟨unwritten, line⟩ =>
    ⟨line, fun written => absurd (unwritten.symm.trans written) Bool.false_ne_true⟩

theorem Answers.tidy (answers : Answers RespValue.Framed program) : Tidy Replied false program :=
  answers.follows.mono (fun _ _ ⟨unwritten, framed⟩ =>
    ⟨framed, fun written => absurd (unwritten.symm.trans written) Bool.false_ne_true⟩) fun _ _ => id

/-- The program reads, and writes a permitted batch at its end or nothing. One
reader sees that it is tidy, two readers get the same reply. -/
def Commits (observer : Observer) (allowed : WriteBatch → Prop) (program : Prog RespValue) : Prop :=
  match observer with
  | .single => Writing allowed program ∧ Tidy Replied false program
  | .pair env env' store store' => (exec env' program store').1 = (exec env program store).1

theorem Views.commits (views : Views observer RespValue.Framed program) :
    Commits observer allowed program := by
  cases observer with
  | single => exact ⟨views.readOnly.writing, views.answers.tidy⟩
  | pair env env' store store' =>
    obtain ⟨result, ran, ran', -⟩ := views
    exact (congrArg Prod.fst ran').trans (congrArg Prod.fst ran).symm

theorem commits_pure {reply : RespValue} (framed : reply.Framed) :
    Commits observer allowed (pure reply) := (views_pure framed).commits

theorem commits_command {text : String} {chars : List Char} (same : text = String.ofList chars)
    (absent : '\r' ∉ chars) : Commits observer allowed (raise (.command text)) :=
  (views_command same absent).commits

/-- A write is the last thing a command does. -/
theorem commits_write {batch : WriteBatch} {reply : RespValue} (within : allowed batch)
    (replied : Replied true reply) :
    Commits observer allowed (Storage.write batch >>= fun _ => pure reply) := by
  cases observer with
  | single => exact ⟨writing_write within, fun _ => replied⟩
  | pair => rfl

/-- Reading comes first. -/
theorem Views.bind_commits (views : Views observer accept first)
    (next : ∀ value, accept value → Commits observer allowed (rest value)) :
    Commits observer allowed (first >>= rest) := by
  cases observer with
  | single =>
    refine ⟨views.reads.bind_writing fun value known => (next value known).1, ?_⟩
    refine Program.Follows.bind views.answers.follows ?_
    rintro _ value ⟨rfl, known⟩
    exact (next value known).2
  | pair env env' store store' =>
    obtain ⟨result, ran, ran', accepted⟩ := views
    have ran : exec env first store = (result, store) := ran
    have ran' : exec env' first store' = (result, store') := ran'
    change (exec env' (first >>= rest) store').1 = (exec env (first >>= rest) store).1
    rw [exec_bind, exec_bind, ran, ran']
    cases result with
    | error fault => rfl
    | ok value => exact next value (accepted value rfl)

theorem Viewed.bind_commits (viewed : Viewed observer first)
    (next : ∀ value, Commits observer allowed (rest value)) :
    Commits observer allowed (first >>= rest) :=
  Views.bind_commits viewed fun value _ => next value

theorem Commits.ite {condition : Prop} [Decidable condition]
    (yes : Commits observer allowed program) (no : Commits observer allowed other) :
    Commits observer allowed (if condition then program else other) := by
  split_ifs
  · exact yes
  · exact no

theorem Commits.mono (commits : Commits observer allowed program)
    (weaker : ∀ batch, allowed batch → permitted batch) : Commits observer permitted program := by
  cases observer with
  | single => exact ⟨commits.1.mono weaker, commits.2⟩
  | pair => exact commits

/-- Holding a lock writes nothing. -/
theorem commits_withKeyLock (commits : Commits observer allowed program) :
    Commits observer allowed (ctx.withKeyLock key program) := by
  cases observer with
  | single =>
    have idle : ∀ op : Effect, (∀ batch, op ≠ .write batch) → ∀ batch, op = .write batch →
        allowed batch :=
      fun op other batch same => absurd same (other batch)
    exact ⟨⟨idle _ nofun, fun _ => commits.1.thenAlways (idle _ nofun)⟩, fun _ =>
      Program.Follows.thenAlways commits.2
        (fun wrote _ accepted => (Bool.or_false wrote).symm ▸ accepted)
        fun wrote _ accepted => (Bool.or_false wrote).symm ▸ accepted⟩
  | pair env env' store store' =>
    change (exec env' (ctx.withKeyLock key program) store').1 =
        (exec env (ctx.withKeyLock key program) store).1
    rw [CommandContext.exec_withKeyLock, CommandContext.exec_withKeyLock]
    exact commits

variable {ρ : Type} {load : Prog ρ} {good : ρ → Prop} {edits : ρ → WriteBatch → Prop}

/-- The command reads, loads one record, and commits what its record permits. -/
inductive Revises (observer : Observer) (load : Prog ρ) (good : ρ → Prop)
    (edits : ρ → WriteBatch → Prop) : Prog RespValue → Prop
  | idle {program : Prog RespValue} (views : Views observer RespValue.Framed program) :
      Revises observer load good edits program
  | load {body : ρ → Prog RespValue}
      (commits : ∀ record, good record → Commits observer (edits record) (body record)) :
      Revises observer load good edits (load >>= body)
  | step {α : Type} {first : Prog α} {rest : α → Prog RespValue} (viewed : Viewed observer first)
      (next : ∀ value, Revises observer load good edits (rest value)) :
      Revises observer load good edits (first >>= rest)

theorem revises_wrongArgCount {name : String} {chars : List Char}
    (same : name = String.ofList chars) (absent : '\r' ∉ chars) :
    Revises observer load good edits (raise (.wrongArgCount name)) :=
  .idle (views_wrongArgCount same absent)

theorem Revises.ite {condition : Prop} [Decidable condition]
    (yes : Revises observer load good edits program) (no : Revises observer load good edits other) :
    Revises observer load good edits (if condition then program else other) := by
  split_ifs
  · exact yes
  · exact no

theorem Revises.commits (revises : Revises observer load good edits program)
    (loads : Views observer good load)
    (within : ∀ record batch, edits record batch → allowed batch) :
    Commits observer allowed program := by
  induction revises with
  | idle views => exact views.commits
  | load commits =>
    exact loads.bind_commits fun record known => (commits record known).mono (within record)
  | step viewed _ ih => exact viewed.bind_commits ih

/-- To one reader such a command is an editor. -/
theorem Revises.editor (revises : Revises .single load good edits program) :
    Editor load good edits program := by
  induction revises with
  | idle views => exact .idle views.readOnly
  | load commits => exact .load fun record known => (commits record known).1
  | step viewed _ ih => exact .step viewed.readOnly ih

end Commits

namespace Cmd

variable {observer : Observer}

section Strings

/-- The keys of `MSET` are its arguments at even positions. -/
def msetKeys : List Bytes → List Bytes
  | userKey :: _ :: rest => userKey :: msetKeys rest
  | _ => []

def Texts (ctx : CommandContext) (keys : List Bytes) (batch : WriteBatch) : Prop :=
  ∀ op ∈ batch, ∃ k ∈ keys, ∃ expire payload,
    op = .put .metadata (ctx.metaKey k) (encodeString stringFlags expire payload)

theorem Texts.append {first second : WriteBatch} (before : Texts ctx keys first)
    (behind : Texts ctx keys second) : Texts ctx keys (first ++ second) :=
  List.forall_mem_append.mpr ⟨before, behind⟩

theorem Texts.onKeys {batch : WriteBatch} (texts : Texts ctx keys batch) :
    BatchOnKeys ctx keys batch := by
  intro op inside
  obtain ⟨k, named, expire, payload, rfl⟩ := texts op inside
  exact .putRecord named (.text rfl)

theorem texts_put {expire : Int64} {payload : Bytes} :
    Texts ctx [key]
      [.put .metadata (ctx.metaKey key) (encodeString stringFlags expire payload)] := by
  intro op inside
  obtain rfl := List.mem_singleton.mp inside
  exact ⟨key, List.mem_singleton_self key, expire, payload, rfl⟩

theorem texts_msetBatch (args : List Bytes) : Texts ctx (msetKeys args) (msetBatch ctx args) := by
  fun_induction msetBatch ctx args with
  | case1 userKey value rest ih =>
    rw [msetKeys]
    refine List.forall_mem_cons.mpr
      ⟨⟨userKey, List.mem_cons_self, 0, value, rfl⟩, fun op inside => ?_⟩
    obtain ⟨k, named, put⟩ := ih op inside
    exact ⟨k, List.mem_cons_of_mem _ named, put⟩
  | case2 args => exact fun op inside => absurd inside List.not_mem_nil

theorem commits_mset (args : List Bytes) :
    Commits observer (Texts ctx (msetKeys args)) (mset ctx args) :=
  Commits.ite (Views.commits (views_wrongArgCount rfl (by decide)))
    (commits_write (texts_msetBatch args) replied_ok)

theorem commits_set (clock : observer.Shares fun env env' _ _ => env' = env)
    (known : Viewed observer (keyExists ctx key)) (args : List Bytes) :
    Commits observer (Texts ctx [key]) (set ctx (key :: args)) := by
  match args with
  | value :: options =>
    refine (viewed_setOptions clock options _).bind_commits fun opts =>
      Commits.ite (commits_command rfl (by decide)) <| known.bind_commits fun found => ?_
    exact Commits.ite (commits_pure trivial) <| Commits.ite (commits_pure trivial) <|
      commits_write texts_put replied_ok
  | [] => exact Views.commits (views_wrongArgCount rfl (by decide))

/-- The program is refused for its arguments, or edits the string under the lock of the
key. -/
inductive LockedText (observer : Observer) (ctx : CommandContext) (key : Bytes) :
    Prog RespValue → Prop
  | refused {program : Prog RespValue} (views : Views observer RespValue.Framed program) :
      LockedText observer ctx key program
  | locked {body : Prog RespValue} (revises : Revises observer (readString ctx key) (fun _ => True)
        (fun _ => Texts ctx [key]) body) :
      LockedText observer ctx key (ctx.withKeyLock key body)

theorem lockedText_stepInteger {name : String} (plain : Plain name) (next : Int64 → Option Int64)
    (args : List Bytes) :
    LockedText observer ctx key (stepInteger ctx name next (key :: args)) := by
  rcases args with _ | ⟨_, _⟩
  · refine .locked ?_
    rw [readInteger, bind_assoc]
    refine .load fun found _ => Viewed.bind_commits ?_ fun current => ?_
    · cases found with
      | none => exact viewed_pure _
      | some text => exact viewed_parseI64 text
    · cases next current with
      | none => exact Views.commits (views_raise (onLine_of_plain (plain_of_chars rfl (by decide))))
      | some new => exact commits_write texts_put (replied_integer _)
  · exact .refused (views_raise (onLine_wrongArgCount plain))

theorem lockedText_append (args : List Bytes) :
    LockedText observer ctx key (append ctx (key :: args)) := by
  rcases args with _ | ⟨suffix, _ | ⟨_, _⟩⟩
  · exact .refused (views_wrongArgCount rfl (by decide))
  · exact .locked (.load fun found _ => commits_write texts_put (replied_integer _))
  · exact .refused (views_wrongArgCount rfl (by decide))

theorem LockedText.commits {program : Prog RespValue} (text : LockedText observer ctx key program)
    (finds : observer.Finds .string ctx key) :
    Commits observer (BatchOnKeys ctx [key]) program := by
  cases text with
  | refused views => exact views.commits
  | locked revises =>
    exact commits_withKeyLock
      (revises.commits (viewed_readString finds) fun _ _ texts => texts.onKeys)

end Strings

section Deadlines

/-- The batch puts the value under the key with another deadline. -/
def Redated (ctx : CommandContext) (key value : Bytes) (batch : WriteBatch) : Prop :=
  ∀ op ∈ batch, ∃ expireMs encoded, withExpire value expireMs = .ok encoded ∧
    op = .put .metadata (ctx.metaKey key) encoded

/-- What a value that was found permits. -/
def FoundRedated (ctx : CommandContext) (key : Bytes) (found : Option Bytes) (batch : WriteBatch) :
    Prop :=
  ∃ value, found = some value ∧ Redated ctx key value batch

theorem FoundRedated.append {found : Option Bytes} {first second : WriteBatch}
    (before : FoundRedated ctx key found first) (behind : FoundRedated ctx key found second) :
    FoundRedated ctx key found (first ++ second) := by
  obtain ⟨value, rfl, redated⟩ := before
  obtain ⟨_, ⟨⟩, redated'⟩ := behind
  exact ⟨value, rfl, List.forall_mem_append.mpr ⟨redated, redated'⟩⟩

theorem FoundRedated.onKeys {found : Option Bytes} {batch : WriteBatch}
    (redated : FoundRedated ctx key found batch) : BatchOnKeys ctx [key] batch := by
  obtain ⟨value, rfl, redated⟩ := redated
  intro op inside
  obtain ⟨expireMs, encoded, changed, rfl⟩ := redated op inside
  exact .putRecord (List.mem_singleton_self key) (storable_withExpire changed)

theorem withExpire_onLine {v : Bytes} {expireMs : Int64} (fault : Fault)
    (failed : withExpire v expireMs = .error fault) : fault.OnLine := by
  unfold withExpire at failed
  split_ifs at failed
  all_goals
    split at failed
    · exact Except.error.inj failed ▸ onLine_protocol (plain_of_chars rfl (by decide))
    · cases failed

/-- The reply to a change of a deadline is a number. -/
theorem revises_setExpireMs (expireMs : Int64) (reply : Bool → Int64) :
    Revises observer (ctx.getMeta key) (fun _ => True) (FoundRedated ctx key)
      (setExpireMs ctx key expireMs >>= fun ok => pure (.integer (reply ok))) := by
  rw [setExpireMs, bind_assoc]
  refine .load fun found _ => ?_
  cases found with
  | none => exact commits_pure trivial
  | some value =>
    dsimp only
    split_ifs with empty
    · exact commits_pure trivial
    · rw [bind_assoc]
      refine (views_ofExcept withExpire_onLine).bind_commits fun encoded changed => ?_
      refine commits_write ⟨value, rfl, fun op inside => ?_⟩ (replied_integer _)
      exact ⟨expireMs, encoded, changed, List.mem_singleton.mp inside⟩

theorem revises_expireIn (clock : observer.Shares fun env env' _ _ => env' = env) {name : String}
    (plain : Plain name) (unit : Int64) (args : List Bytes) :
    Revises observer (ctx.getMeta key) (fun _ => True) (FoundRedated ctx key)
      (expireIn ctx name unit (key :: args)) := by
  match args with
  | [amount] =>
    exact .step (viewed_parseI64 amount) fun amount => .step (viewed_nowMs clock) fun now =>
      revises_setExpireMs _ _
  | [] | _ :: _ :: _ => exact .idle (views_raise (onLine_wrongArgCount plain))

theorem revises_persist (looks : observer.LooksUp ctx key) (args : List Bytes) :
    Revises observer (ctx.getMeta key) (fun _ => True) (FoundRedated ctx key)
      (persist ctx (key :: args)) := by
  match args with
  | [] =>
    exact .step (viewed_readExpire looks) fun
      | none => .idle (views_pure trivial)
      | some none => .idle (views_pure trivial)
      | some (some _) => revises_setExpireMs 0 fun _ => 1
  | _ :: _ => exact revises_wrongArgCount rfl (by decide)

theorem Revises.commits_redated {program : Prog RespValue}
    (revises : Revises observer (ctx.getMeta key) (fun _ => True) (FoundRedated ctx key) program)
    (looks : observer.LooksUp ctx key) : Commits observer (BatchOnKeys ctx [key]) program :=
  revises.commits (viewed_getMeta looks) fun _ _ redated => redated.onKeys

end Deadlines

section Deletion

variable (ctx)

/-- A page scan collects keys behind its prefix only. -/
theorem startsWith_of_mem_pageLoop {pre startKey : Bytes} {limit : ℕ} (items : List Entry)
    (state : PageState) (before : ∀ e ∈ state.result, startsWith e.1 pre) :
    ∀ e ∈ (pageLoop pre startKey limit state items).1.result, startsWith e.1 pre := by
  fun_induction pageLoop pre startKey limit state items with
  | case1 state => exact before
  | case2 state k v rest skipped ih => exact ih before
  | case3 state k v rest _ outside => exact before
  | case4 state k v rest _ inside state' full =>
    intro e member
    rcases List.mem_append.mp member with old | new
    · exact before e old
    · obtain rfl := List.mem_singleton.mp new
      exact not_not.mp inside
  | case5 state k v rest _ inside state' _ ih =>
    refine ih fun e member => ?_
    rcases List.mem_append.mp member with old | new
    · exact before e old
    · obtain rfl := List.mem_singleton.mp new
      exact not_not.mp inside

theorem reads_prefixScanPage (cf : ColumnFamily) (pre startKey : Bytes) (limit : ℕ) :
    Reads (fun page => ∀ e ∈ page.1, startsWith e.1 pre)
      (prefixScanPage cf pre startKey limit) := by
  refine Program.Respects.bind (readOnly_iterate _ _) fun items _ => ?_
  refine Program.Respects.bind (readOnly_reservePage limit) fun _ _ => ?_
  exact Program.respects_pure (startsWith_of_mem_pageLoop items _ (by simp))

/-- Deleting the entries behind the prefix of a version deletes its elements. -/
theorem footprint_deletePrefixLoop {cf : ColumnFamily} {userKey : Bytes} {v : UInt64} {limit : ℕ}
    (named : userKey ∈ keys) (element : cf ≠ .metadata) (rounds : ℕ) (startKey : Bytes) :
    Footprint ctx keys (deletePrefixLoop cf (ctx.subKey userKey v []) limit rounds startKey) := by
  induction rounds generalizing startKey with
  | zero => exact writing_fail _
  | succ rounds ih =>
    refine (reads_prefixScanPage cf (ctx.subKey userKey v []) startKey limit).bind_writing
      fun ⟨items, nextKey⟩ behind => ?_
    cases items with
    | nil => exact writing_pure _
    | cons item items =>
      refine (footprint_write ?_).bind fun _ => ?_
      · intro op member
        obtain ⟨e, inside, rfl⟩ := List.mem_map.mp member
        obtain ⟨sub, same⟩ := ctx.subKey_prefix_iff.mp (startsWith_iff.mp (behind e inside))
        rw [same]
        exact .deleteElement named element
      · cases nextKey with
        | none => exact writing_pure _
        | some key => exact ih key

/-- Deleting the elements of a sorted set empties both of its indexes. -/
theorem exec_purgeSubkeys {env : Env} {store : Store} (key : Bytes) (v : UInt64) (isZset : Bool) :
    exec env (purgeSubkeys ctx key v isZset) store =
      (.ok (), if isZset then
        (store.without .subkey (ctx.subKey key v [])).without .zsetScore (ctx.subKey key v [])
        else store.without .subkey (ctx.subKey key v [])) := by
  have positive : 0 < delBatchSize := by decide
  have small : delBatchSize ≤ maxPageLimit := by decide
  rw [purgeSubkeys, exec_bind, exec_deletePrefix positive small]
  cases isZset with
  | false => rfl
  | true => exact exec_deletePrefix positive small

theorem footprint_purgeValue {userKey : Bytes} (named : userKey ∈ keys) (metaVal : Bytes) :
    Footprint ctx keys (purgeValue ctx userKey metaVal) := by
  have purge : ∀ (cf : ColumnFamily) (v : UInt64), cf ≠ .metadata →
      Footprint ctx keys (deletePrefix cf (ctx.subKey userKey v []) delBatchSize) :=
    fun cf v element => (readOnly_familySize cf).bind_writing fun _ =>
      footprint_deletePrefixLoop ctx named element _ _
  refine Writing.ite ?_ (writing_pure _)
  split
  · exact (purge .subkey _ (by decide)).bind fun _ =>
      Writing.ite (purge .zsetScore _ (by decide)) (writing_pure _)
  · exact writing_pure _

theorem footprint_delLoop (userKeys : List Bytes) (named : ∀ k ∈ userKeys, k ∈ keys)
    (count : Int64) : Footprint ctx keys (delLoop ctx userKeys count) := by
  induction userKeys generalizing count with
  | nil => exact writing_pure _
  | cons userKey rest ih =>
    rw [List.forall_mem_cons] at named
    refine (ctx.readOnly_getMeta userKey).bind_writing fun
      | none => ih named.2 _
      | some metaVal => ?_
    refine (footprint_purgeValue ctx named.1 metaVal).bind fun _ => ?_
    refine Footprint.bind (footprint_write ?_) fun _ => ih named.2 _
    exact batchOnKeys_cons.mpr ⟨.deleteRecord named.1, batchOnKeys_nil⟩

theorem footprint_del (args : List Bytes) : Footprint ctx args (del ctx args) := by
  unfold del
  split
  · exact writing_raise _
  · exact (footprint_delLoop ctx _ (fun _ => id) _).bind fun _ => writing_pure _

end Deletion

end Cmd

end Kvdb
