import Kvdb.Command.Footprint

/-!
# What the collection commands write

The writing commands of the composite types gather one batch of operations on
the elements of their key, and close it with the record of the key. With the
commands on strings this makes up the table of footprints: every command but
`FLUSHDB` writes on the keys it names, and no command stores a record in another
layout.
-/

namespace Kvdb

open Data Semantics Cmd

variable {observer : Observer} {ctx : CommandContext} {keys : List Bytes} {key : Bytes} {α β : Type}

section Edits

variable {type : DataType} {v : UInt64} {removed : List Bytes} {meta' : Metadata}

/-- A metadata value with a record of the type and version. -/
inductive RecordOf (type : DataType) (v : UInt64) : Bytes → Prop
  | common {meta' : Metadata} (composite : type ≠ .string) (known : meta'.OfType type)
      (version : meta'.version = v) : RecordOf type v (encodeMetadata meta')
  | stream {meta' : StreamMeta} (streams : type = .stream)
      (known : dataTypeFromFlags meta'.flags = some .stream) (version : meta'.version = v) :
      RecordOf type v meta'.encode

theorem RecordOf.storable {value : Bytes} (record : RecordOf type v value) : Storable value := by
  cases record with
  | common composite known => exact .record composite known
  | stream _ known => exact .stream known

/-- An operation on the record or on an element of one version of a key. Of the
elements it deletes only those that are named. -/
inductive BatchOp.Edits (ctx : CommandContext) (key : Bytes) (type : DataType) (v : UInt64)
    (removed : List Bytes) : BatchOp → Prop
  | put {sub value : Bytes} :
    Edits ctx key type v removed (.put .subkey (ctx.subKey key v sub) value)
  | delete {sub : Bytes} (named : sub ∈ removed) :
      Edits ctx key type v removed (.delete .subkey (ctx.subKey key v sub))
  | putScore {sub value : Bytes} (sorted : type = .zset) :
      Edits ctx key type v removed (.put .zsetScore (ctx.subKey key v sub) value)
  | deleteScore {sub : Bytes} (sorted : type = .zset) :
      Edits ctx key type v removed (.delete .zsetScore (ctx.subKey key v sub))
  | record {value : Bytes} (record : RecordOf type v value) :
      Edits ctx key type v removed (.put .metadata (ctx.metaKey key) value)

theorem BatchOp.Edits.onKeys {op : BatchOp} (edits : op.Edits ctx key type v removed)
    (named : key ∈ keys) : op.OnKeys ctx keys := by
  cases edits with
  | put => exact .putElement named (by decide)
  | delete => exact .deleteElement named (by decide)
  | putScore => exact .putElement named (by decide)
  | deleteScore => exact .deleteElement named (by decide)
  | record record => exact .putRecord named record.storable

def BatchEdits (ctx : CommandContext) (key : Bytes) (type : DataType) (v : UInt64)
    (removed : List Bytes) (batch : WriteBatch) : Prop :=
  ∀ op ∈ batch, op.Edits ctx key type v removed

theorem batchEdits_nil : BatchEdits ctx key type v removed [] := by simp [BatchEdits]

theorem batchEdits_cons {op : BatchOp} {batch : WriteBatch} :
    BatchEdits ctx key type v removed (op :: batch) ↔
      op.Edits ctx key type v removed ∧ BatchEdits ctx key type v removed batch :=
  List.forall_mem_cons

theorem BatchEdits.append {first second : WriteBatch}
    (before : BatchEdits ctx key type v removed first)
    (behind : BatchEdits ctx key type v removed second) :
    BatchEdits ctx key type v removed (first ++ second) :=
  List.forall_mem_append.mpr ⟨before, behind⟩

theorem BatchEdits.snoc {batch : WriteBatch} {op : BatchOp}
    (before : BatchEdits ctx key type v removed batch) (last : op.Edits ctx key type v removed) :
    BatchEdits ctx key type v removed (batch ++ [op]) :=
  before.append (batchEdits_cons.mpr ⟨last, batchEdits_nil⟩)

theorem BatchEdits.onKeys {batch : WriteBatch} (edits : BatchEdits ctx key type v removed batch) :
    BatchOnKeys ctx [key] batch :=
  fun op inside => (edits op inside).onKeys (List.mem_singleton_self key)

/-- The batch of a command that adds elements to a record, or to a new one: it puts
the record in any case. -/
structure Additions (ctx : CommandContext) (key : Bytes) (type : DataType) (v : UInt64)
    (batch : WriteBatch) : Prop where
  edits : BatchEdits ctx key type v [] batch
  recorded : ∃ value, .put .metadata (ctx.metaKey key) value ∈ batch

theorem Additions.snoc {batch : WriteBatch} {op : BatchOp} (before : Additions ctx key type v batch)
    (last : op.Edits ctx key type v []) : Additions ctx key type v (batch ++ [op]) :=
  ⟨before.edits.snoc last, before.recorded.imp fun _ inside => List.mem_append_left [op] inside⟩

theorem Additions.append {first second : WriteBatch} (before : Additions ctx key type v first)
    (behind : Additions ctx key type v second) : Additions ctx key type v (first ++ second) :=
  ⟨before.edits.append behind.edits,
    before.recorded.imp fun _ inside => List.mem_append_left second inside⟩

/-- Element operations closed by the record of the key. -/
theorem commits_record {batch : WriteBatch} {reply : RespValue} (composite : type ≠ .string)
    (elements : BatchEdits ctx key type v removed batch) (known : meta'.OfType type)
    (version : meta'.version = v) (replied : Replied true reply) :
    Commits observer (BatchEdits ctx key type v removed) (Storage.write
      (batch ++ [.put .metadata (ctx.metaKey key) (encodeMetadata meta')]) >>=
        fun _ => pure reply) :=
  commits_write (elements.snoc (.record (.common composite known version))) replied

theorem commits_additions {batch : WriteBatch} {reply : RespValue} (composite : type ≠ .string)
    (elements : BatchEdits ctx key type v [] batch) (known : meta'.OfType type)
    (version : meta'.version = v) (replied : Replied true reply) :
    Commits observer (Additions ctx key type v) (Storage.write
      (batch ++ [.put .metadata (ctx.metaKey key) (encodeMetadata meta')]) >>=
        fun _ => pure reply) :=
  commits_write ⟨elements.snoc (.record (.common composite known version)),
    encodeMetadata meta', by simp⟩
    replied

/-- What a record that was found permits. -/
def FoundEdits (ctx : CommandContext) (key : Bytes) (type : DataType)
    (removed : Metadata → List Bytes) (found : Option Metadata) (batch : WriteBatch) : Prop :=
  ∃ meta', found = some meta' ∧ BatchEdits ctx key type meta'.version (removed meta') batch

theorem FoundEdits.append {removed : Metadata → List Bytes} {found : Option Metadata}
    {first second : WriteBatch} (before : FoundEdits ctx key type removed found first)
    (behind : FoundEdits ctx key type removed found second) :
    FoundEdits ctx key type removed found (first ++ second) := by
  obtain ⟨meta', rfl, edits⟩ := before
  obtain ⟨_, ⟨⟩, edits'⟩ := behind
  exact ⟨meta', rfl, edits.append edits'⟩

theorem revises_found {removed : Metadata → List Bytes} {load : Prog (Option Metadata)}
    {body : Option Metadata → Prog RespValue} (absent : Views observer RespValue.Framed (body none))
    (present : ∀ meta', meta'.OfType type →
      Commits observer (BatchEdits ctx key type meta'.version (removed meta'))
        (body (some meta'))) :
    Revises observer load (Cmd.Found (Metadata.OfType type)) (FoundEdits ctx key type removed)
      (load >>= body) := by
  refine .load fun found known => ?_
  cases found with
  | none => exact absent.commits
  | some meta' => exact (present meta' (known meta' rfl)).mono fun _ edits => ⟨meta', rfl, edits⟩

theorem Revises.commits_additions {ρ : Type} {load : Prog ρ} {good : ρ → Prop}
    {version : ρ → UInt64} {program : Prog RespValue}
    (revises :
      Revises observer load good (fun record => Additions ctx key type (version record)) program)
    (loads : Views observer good load) : Commits observer (BatchOnKeys ctx [key]) program :=
  revises.commits loads fun _ _ additions => additions.edits.onKeys

theorem Revises.commits_found {removed : Metadata → List Bytes} {load : Prog (Option Metadata)}
    {program : Prog RespValue} (revises : Revises observer load (Cmd.Found (Metadata.OfType type))
      (FoundEdits ctx key type removed) program)
    (loads : Views observer (Cmd.Found (observer.Opens type ctx key)) load) :
    Commits observer (BatchOnKeys ctx [key]) program :=
  revises.commits (loads.mono fun _ opens record found => (opens record found).1)
    fun _ _ ⟨_, _, edits⟩ => edits.onKeys

end Edits

namespace Cmd

section Loaders

variable {type : DataType}

/-- What is found, or a new one. -/
private theorem views_ensure {load : Prog (Option Metadata)}
    {next : Option Metadata → Prog Metadata}
    (loads : Views observer (Found (observer.Opens type ctx key)) load)
    (clock : observer.Shares fun env env' _ _ => env' = env)
    (present : ∀ meta', next (some meta') = pure meta')
    (absent : next none = generateVersion >>= fun v => pure (Metadata.new type v)) :
    Views observer (Metadata.OfType type) (load >>= next) := by
  refine loads.found ?_ fun meta' opens => ?_
  · rw [absent]
    exact (viewed_generateVersion clock).bind fun v => views_pure (Metadata.new_ofType type v)
  · rw [present]
    exact views_pure opens.1

theorem views_ensureHashMeta (finds : observer.Finds .hash ctx key)
    (clock : observer.Shares fun env env' _ _ => env' = env) :
    Views observer (Metadata.OfType .hash) (ensureHashMeta ctx key) :=
  views_ensure (views_readHashMeta finds) clock (fun _ => rfl) rfl

theorem views_ensureListMeta (finds : observer.Finds .list ctx key)
    (clock : observer.Shares fun env env' _ _ => env' = env) :
    Views observer (Metadata.OfType .list) (ensureListMeta ctx key) :=
  views_ensure (views_loadListMeta finds) clock (fun _ => rfl) rfl

theorem views_ensureSetMeta (finds : observer.Finds .set ctx key)
    (clock : observer.Shares fun env env' _ _ => env' = env) :
    Views observer (fun result => result.1.OfType .set) (ensureSetMeta ctx key) :=
  (views_readSetMetadata finds).found
    ((viewed_generateVersion clock).bind fun v => views_pure (Metadata.new_ofType .set v))
    fun _ opens => views_pure opens.1

theorem views_ensureZsetMeta (finds : observer.Finds .zset ctx key)
    (clock : observer.Shares fun env env' _ _ => env' = env) :
    Views observer (Metadata.OfType .zset) (ensureZsetMeta ctx key) :=
  views_ensure (views_readZsetMeta finds) clock (fun _ => rfl) rfl

theorem views_getOrCreateMetadata (finds : observer.Finds .bitmap ctx key)
    (clock : observer.Shares fun env env' _ _ => env' = env) :
    Views observer (Metadata.OfType .bitmap) (getOrCreateMetadata ctx key) :=
  views_ensure (views_readBitmapMeta finds) clock (fun _ => rfl) rfl

theorem views_ensureStreamMeta (finds : observer.Finds .stream ctx key)
    (clock : observer.Shares fun env env' _ _ => env' = env) :
    Views observer (fun meta' => dataTypeFromFlags meta'.flags = some .stream)
      (ensureStreamMeta ctx key) := by
  have fresh : Views observer (fun meta' => dataTypeFromFlags meta'.flags = some .stream)
      (do let version ← generateVersion; return StreamMeta.new version) :=
    (viewed_generateVersion clock).bind fun _ => views_pure (dataTypeFromFlags_buildFlags .stream)
  exact (views_readStreamMeta finds).found fresh fun _ opens =>
    (viewed_nowMs clock).bind fun _ => fresh.ite (views_pure opens.1)

end Loaders

section Collections

variable {type : DataType} {v : UInt64} {removed : List Bytes}

/-- What a loop over the elements of a record has gathered: edits of the version it
works on, and a record of the type it started from. -/
def Gathered (ctx : CommandContext) (key : Bytes) (type : DataType) (v : UInt64)
    (removed : List Bytes) (result : WriteBatch × Int64 × Metadata) : Prop :=
  BatchEdits ctx key type v removed result.1 ∧ result.2.2.OfType type ∧ result.2.2.version = v

theorem pushLoop_gathered (side : ListEnd) (elements : List Bytes)
    (batch : WriteBatch) (meta' : Metadata) (gathered : BatchEdits ctx key .list v [] batch)
    (known : meta'.OfType .list) (version : meta'.version = v) :
    BatchEdits ctx key .list v [] (pushLoop ctx side key elements batch meta').1 ∧
      (pushLoop ctx side key elements batch meta').2.OfType .list ∧
      (pushLoop ctx side key elements batch meta').2.version = v := by
  induction elements generalizing batch meta' with
  | nil => exact ⟨gathered, known, version⟩
  | cons x elements ih =>
    subst version
    cases side with
    | left => exact ih _ _ (gathered.snoc .put) (Metadata.ofType_list known.typed _ _ _ _ _) rfl
    | right => exact ih _ _ (gathered.snoc .put) (Metadata.ofType_list known.typed _ _ _ _ _) rfl

theorem revises_push (side : ListEnd) (args : List Bytes) :
    Revises observer (ensureListMeta ctx key) (Metadata.OfType .list)
      (fun meta' => Additions ctx key .list meta'.version) (push ctx side (key :: args)) := by
  match args with
  | element :: rest =>
    refine .load fun meta' known => ?_
    obtain ⟨elements, record, version⟩ := pushLoop_gathered side (element :: rest) [] meta'
      (batchEdits_nil : BatchEdits ctx key .list meta'.version [] []) known rfl
    exact commits_additions (by decide) elements record version (replied_integer _)
  | [] => cases side <;> exact revises_wrongArgCount rfl (by decide)

theorem dropEnd_ofType (side : ListEnd) {meta' : Metadata} (known : meta'.OfType .list) :
    (dropEnd side meta').OfType .list := by
  cases side <;> exact Metadata.ofType_list known.typed _ _ _ _ _

theorem dropEnd_version (side : ListEnd) (meta' : Metadata) :
    (dropEnd side meta').version = meta'.version := by
  cases side <;> rfl

theorem resetEmpty_ofType {meta' : Metadata} (known : meta'.OfType .list) :
    (resetEmpty meta').OfType .list := by
  unfold resetEmpty
  split_ifs
  · exact Metadata.ofType_list known.typed _ _ _ _ _
  · exact known

theorem resetEmpty_version (meta' : Metadata) : (resetEmpty meta').version = meta'.version := by
  unfold resetEmpty
  split_ifs <;> rfl

def endNames (side : ListEnd) : ℕ → Metadata → List Bytes
  | 0, _ => []
  | n + 1, meta' => encodeIndex (endIndex side meta') :: endNames side n (dropEnd side meta')

/-- The names of the elements that a pop takes. -/
def poppedNames (side : ListEnd) (args : List Bytes) (meta' : Metadata) : List Bytes :=
  match args with
  | [] => endNames side 1 meta'
  | count :: _ => endNames side (min ((parseU64 count).getD 0) meta'.size.toNat) meta'

variable (aligned : observer.Aligned)
include aligned

theorem views_hsetLoop (args : List Bytes) (batch : WriteBatch) (added : Int64) (meta' : Metadata)
    (gathered : Gathered ctx key .hash v [] (batch, added, meta')) :
    Views observer (Gathered ctx key .hash v []) (hsetLoop ctx key args batch added meta') := by
  fun_induction hsetLoop ctx key args batch added meta' with
  | case1 field value rest batch added meta' sk ih ih' =>
    obtain ⟨elements, known, rfl⟩ := gathered
    have next : BatchEdits ctx key .hash meta'.version [] (batch ++ [.put .subkey sk value]) :=
      elements.snoc .put
    exact (viewed_element (aligned.sees ctx key _) (by decide) field).bind fun existed =>
      (ih ⟨next, known, rfl⟩).ite (ih' ⟨next, known.resize _, rfl⟩)
  | case2 args batch added meta' => exact views_pure gathered

theorem revises_hset (args : List Bytes) :
    Revises observer (ensureHashMeta ctx key) (Metadata.OfType .hash)
      (fun meta' => Additions ctx key .hash meta'.version) (hset ctx (key :: args)) := by
  match args with
  | field :: value :: rest =>
    refine Revises.ite (revises_wrongArgCount rfl (by decide)) (.load fun meta' known => ?_)
    refine (views_hsetLoop aligned _ _ _ _ ⟨batchEdits_nil, known, rfl⟩).bind_commits
      fun ⟨batch, added, meta'⟩ ⟨elements, record, version⟩ => ?_
    exact commits_additions (by decide) elements record version (replied_integer _)
  | [] | [_] => exact revises_wrongArgCount rfl (by decide)

theorem views_hdelLoop (fields : List Bytes) (named : ∀ field ∈ fields, field ∈ removed)
    (batch : WriteBatch) (deleted : Int64) (meta' : Metadata)
    (gathered : Gathered ctx key .hash v removed (batch, deleted, meta')) :
    Views observer (Gathered ctx key .hash v removed)
      (hdelLoop ctx key fields batch deleted meta') := by
  induction fields generalizing batch deleted meta' with
  | nil => exact views_pure gathered
  | cons field fields ih =>
    rw [List.forall_mem_cons] at named
    obtain ⟨elements, known, rfl⟩ := gathered
    refine (viewed_element (aligned.sees ctx key _) (by decide) field).bind fun existed =>
      Views.ite ?_ ?_
    · exact ih named.2 _ _ _ ⟨elements.snoc (.delete named.1), known.resize _, rfl⟩
    · exact ih named.2 _ _ _ ⟨elements, known, rfl⟩

theorem revises_hdel (args : List Bytes) :
    Revises observer (readHashMeta ctx key) (Found (Metadata.OfType .hash))
      (FoundEdits ctx key .hash fun _ => args) (hdel ctx (key :: args)) := by
  match args with
  | field :: rest =>
    refine revises_found (views_pure trivial) fun meta' known => ?_
    refine (views_hdelLoop aligned _ (fun _ => id) _ _ _ ⟨batchEdits_nil, known, rfl⟩).bind_commits
      fun ⟨batch, deleted, meta'⟩ ⟨elements, record, version⟩ =>
        commits_write ?_ (replied_integer _)
    split_ifs
    · exact elements.snoc (.record (.common (by decide) record version))
    · exact elements
  | [] => exact revises_wrongArgCount rfl (by decide)

theorem views_popLoop (side : ListEnd) (n : ℕ) (result : List RespValue)
    (batch : WriteBatch) (meta' : Metadata) (framed : AllFramed result)
    (gathered : BatchEdits ctx key .list v removed batch) (known : meta'.OfType .list)
    (version : meta'.version = v) (named : ∀ name ∈ endNames side n meta', name ∈ removed) :
    Views observer
      (fun popped => AllFramed popped.1 ∧ BatchEdits ctx key .list v removed popped.2.1 ∧
        popped.2.2.OfType .list ∧ popped.2.2.version = v)
      (popLoop ctx side key n result batch meta') := by
  induction n generalizing result batch meta' with
  | zero => exact views_pure ⟨framed, gathered, known, version⟩
  | succ n ih =>
    subst version
    rw [endNames, List.forall_mem_cons] at named
    have known' := dropEnd_ofType side known
    have version' := dropEnd_version side meta'
    exact (viewed_element (aligned.sees ctx key _) (by decide) _).bind fun
      | none => ih _ _ _ framed gathered known' version' named.2
      | some _ =>
        ih _ _ _ (framed.snoc trivial) (gathered.snoc (.delete named.1)) known' version' named.2

theorem revises_pop (side : ListEnd) (args : List Bytes) :
    Revises observer (loadListMeta ctx key) (Found (Metadata.OfType .list))
      (FoundEdits ctx key .list (poppedNames side args)) (pop ctx side (key :: args)) := by
  match args with
  | [] =>
    refine revises_found (views_pure trivial) fun meta' known =>
      Commits.ite (commits_pure trivial) ?_
    refine (viewed_element (aligned.sees ctx key _) (by decide) _).bind_commits fun value =>
      commits_write ?_ (replied_bulkString _)
    refine batchEdits_cons.mpr ⟨.delete List.mem_cons_self, ?_⟩
    refine batchEdits_cons.mpr ⟨.record (.common (by decide) ?_ ?_), batchEdits_nil⟩
    · exact resetEmpty_ofType (dropEnd_ofType side known)
    · rw [resetEmpty_version, dropEnd_version]
  | [count] =>
    show Revises _ _ _ _ (parseUsize count >>= _)
    unfold parseUsize
    cases parsed : parseU64 count with
    | none => exact .idle views_notInteger
    | some n =>
      refine Revises.ite (.idle (views_pure allFramed_nil.array)) ?_
      refine revises_found (views_pure allFramed_nil.array) fun meta' known =>
        Commits.ite (commits_pure allFramed_nil.array) ?_
      have named : ∀ name ∈ endNames side (min n meta'.size.toNat) meta',
          name ∈ poppedNames side [count] meta' := by
        simp [poppedNames, parsed]
      refine (views_popLoop aligned side _ _ _ _ allFramed_nil batchEdits_nil known rfl
        named).bind_commits
        fun ⟨result, batch, meta'⟩ ⟨framed, elements, record, version⟩ => ?_
      exact commits_record (by decide) elements (resetEmpty_ofType record)
        ((resetEmpty_version meta').trans version) framed.replied
  | _ :: _ :: _ => cases side <;> exact revises_wrongArgCount rfl (by decide)

theorem views_saddLoop (members seen : List Bytes) (batch : WriteBatch) (added : Int64)
    (gathered : BatchEdits ctx key .set v [] batch) :
    Views observer (fun result => BatchEdits ctx key .set v [] result.1)
      (saddLoop ctx key v members seen batch added) := by
  induction members generalizing seen batch added with
  | nil => exact views_pure gathered
  | cons member members ih =>
    exact (ih _ _ _ gathered).ite <|
      (viewed_element (aligned.sees ctx key v) (by decide) member).bind fun
      | none => ih _ _ _ (gathered.snoc .put)
      | some _ => ih _ _ _ gathered

theorem revises_sadd (args : List Bytes) :
    Revises observer (ensureSetMeta ctx key) (fun result => result.1.OfType .set)
      (fun result => Additions ctx key .set result.1.version) (sadd ctx (key :: args)) := by
  match args with
  | member :: rest =>
    refine .load fun ⟨meta', isNew⟩ known => ?_
    refine (views_saddLoop aligned _ _ _ _ batchEdits_nil).bind_commits
      fun ⟨batch, added⟩ elements => ?_
    exact Commits.ite
      (commits_additions (by decide) elements (known.resize _) rfl (replied_integer _))
      (commits_pure trivial)
  | [] => exact revises_wrongArgCount rfl (by decide)

theorem views_sremLoop (members : List Bytes) (named : ∀ member ∈ members, member ∈ removed)
    (seen : List Bytes) (batch : WriteBatch) (count : Int64)
    (gathered : BatchEdits ctx key .set v removed batch) :
    Views observer (fun result => BatchEdits ctx key .set v removed result.1)
      (sremLoop ctx key v members seen batch count) := by
  induction members generalizing seen batch count with
  | nil => exact views_pure gathered
  | cons member members ih =>
    rw [List.forall_mem_cons] at named
    exact (ih named.2 _ _ _ gathered).ite <|
      (viewed_element (aligned.sees ctx key v) (by decide) member).bind fun
        | none => ih named.2 _ _ _ gathered
        | some _ => ih named.2 _ _ _ (gathered.snoc (.delete named.1))

theorem revises_srem (args : List Bytes) :
    Revises observer (readSetMetadata ctx key) (Found (Metadata.OfType .set))
      (FoundEdits ctx key .set fun _ => args) (srem ctx (key :: args)) := by
  match args with
  | member :: rest =>
    refine revises_found (views_pure trivial) fun meta' known => ?_
    refine (views_sremLoop aligned _ (fun _ => id) _ _ _ batchEdits_nil).bind_commits
      fun ⟨batch, count⟩ elements => ?_
    exact Commits.ite (commits_record (by decide) elements (known.resize _) rfl (replied_integer _))
      (commits_pure trivial)
  | [] => exact revises_wrongArgCount rfl (by decide)

end Collections

section SortedSets

variable {v : UInt64} {removed : List Bytes}

theorem batchEdits_putScore (version : UInt64) (score : F64) (member : Bytes) :
    BatchEdits ctx key .zset version removed (putScore ctx key version score member) :=
  batchEdits_cons.mpr ⟨.put, batchEdits_cons.mpr ⟨.putScore rfl, batchEdits_nil⟩⟩

/-- Replacing a score: the old pair goes, the new one comes. -/
theorem batchEdits_replace (version : UInt64) (old new : F64) (member : Bytes) :
    BatchEdits ctx key .zset version removed
      (.delete .zsetScore (scoreSubkey ctx key version old member) ::
        putScore ctx key version new member) :=
  batchEdits_cons.mpr ⟨.deleteScore rfl, batchEdits_putScore version new member⟩

theorem viewed_parseZaddFlags (args : List Bytes) : Viewed observer (parseZaddFlags args) :=
  Views.ite (views_command rfl (by decide)) <| Views.ite (views_command rfl (by decide)) <|
    Views.ite (views_command rfl (by decide)) (viewed_pure _)

theorem viewed_zaddUpdates (args : List Bytes) (updates : List (Bytes × F64)) :
    Viewed observer (zaddUpdates ctx args updates) := by
  fun_induction zaddUpdates ctx args updates with
  | case1 scoreArg member rest updates ih => exact (viewed_parseScore scoreArg).bind ih
  | case2 => exact viewed_pure _

variable (aligned : observer.Aligned)
include aligned

theorem commits_zaddIncr (flags : ZaddFlags) {meta' : Metadata} (known : meta'.OfType .zset)
    (scoreArg member : Bytes) :
    Commits observer (Additions ctx key .zset meta'.version)
      (zaddIncr ctx key flags meta' scoreArg member) := by
  refine (viewed_parseScore scoreArg).bind_commits fun score => ?_
  refine (viewed_element (aligned.sees ctx key _) (by decide) member).bind_commits fun existing =>
    Commits.ite (commits_pure trivial) <| Commits.ite (commits_pure trivial) ?_
  cases existing with
  | some oldBytes =>
    refine (viewed_scoreOfValue oldBytes).bind_commits fun oldScore =>
      Commits.ite (commits_command rfl (by decide)) <| Commits.ite (commits_pure trivial) <|
        Commits.ite (commits_pure trivial) ?_
    exact commits_additions (by decide) (batchEdits_replace _ _ _ _) known rfl
      (replied_bulkString _)
  | none =>
    exact commits_additions (by decide) (batchEdits_putScore _ _ _) (known.resize _) rfl
      (replied_bulkString _)

theorem views_zaddLoop (flags : ZaddFlags) (updates : List (Bytes × F64))
    (state : ZaddState) (gathered : BatchEdits ctx key .zset v [] state.batch)
    (known : state.meta'.OfType .zset) (version : state.meta'.version = v) :
    Views observer
      (fun final => BatchEdits ctx key .zset v [] final.batch ∧ final.meta'.OfType .zset ∧
        final.meta'.version = v)
      (zaddLoop ctx key flags updates state) := by
  induction updates generalizing state with
  | nil => exact views_pure ⟨gathered, known, version⟩
  | cons update updates ih =>
    have skip := ih state gathered known version
    subst version
    refine (viewed_element (aligned.sees ctx key _) (by decide) update.1).bind fun found => ?_
    cases found with
    | some oldBytes =>
      refine (viewed_scoreOfValue oldBytes).bind fun oldScore =>
        skip.ite <| skip.ite <| skip.ite <| skip.ite ?_
      exact ih _ (gathered.append (batchEdits_replace _ _ _ _)) known rfl
    | none =>
      exact skip.ite (ih _ (gathered.append (batchEdits_putScore _ _ _)) (known.resize _) rfl)

theorem revises_zadd (args : List Bytes) :
    Revises observer (ensureZsetMeta ctx key) (Metadata.OfType .zset)
      (fun meta' => Additions ctx key .zset meta'.version) (zadd ctx (key :: args)) := by
  match args with
  | arg :: arg' :: args =>
    refine .step (viewed_parseZaddFlags _) fun ⟨flags, pairs⟩ => ?_
    refine Revises.ite (revises_wrongArgCount rfl (by decide)) <|
      Revises.ite (.idle (views_command rfl (by decide))) <| .load fun meta' known => ?_
    refine Commits.ite ?_ ?_
    · split
      · exact commits_zaddIncr aligned flags known _ _
      · exact Views.commits (views_fail trivial)
    · refine (viewed_zaddUpdates _ _).bind_commits fun updates => ?_
      have ordered : Viewed observer (zaddOrder updates) :=
        (viewed_hashOrder (aligned.clock.imp fun _ _ _ _ same => same ▸ rfl) _).bind fun _ =>
          viewed_pure _
      refine ordered.bind_commits fun updates => ?_
      refine (views_zaddLoop aligned flags _ _ batchEdits_nil known rfl).bind_commits
        fun final ⟨elements, record, version⟩ => ?_
      exact commits_additions (by decide) elements record version (replied_integer _)
  | [] | [_] => exact revises_wrongArgCount rfl (by decide)

theorem views_zremLoop (members : List Bytes) (named : ∀ member ∈ members, member ∈ removed)
    (batch : WriteBatch) (count : Int64) (meta' : Metadata)
    (gathered : Gathered ctx key .zset v removed (batch, count, meta')) :
    Views observer (Gathered ctx key .zset v removed)
      (zremLoop ctx key members batch count meta') := by
  induction members generalizing batch count meta' with
  | nil => exact views_pure gathered
  | cons member members ih =>
    rw [List.forall_mem_cons] at named
    obtain ⟨elements, known, rfl⟩ := gathered
    refine (viewed_element (aligned.sees ctx key _) (by decide) member).bind fun found => ?_
    cases found with
    | none => exact ih named.2 _ _ _ ⟨elements, known, rfl⟩
    | some oldBytes =>
      refine (viewed_scoreOfValue oldBytes).bind fun oldScore => ?_
      refine ih named.2 _ _ _ ⟨elements.append ?_, known.resize _, rfl⟩
      exact batchEdits_cons.mpr ⟨.delete named.1,
        batchEdits_cons.mpr ⟨.deleteScore rfl, batchEdits_nil⟩⟩

theorem revises_zrem (args : List Bytes) :
    Revises observer (readZsetMeta ctx key) (Found (Metadata.OfType .zset))
      (FoundEdits ctx key .zset fun _ => args) (zrem ctx (key :: args)) := by
  match args with
  | member :: rest =>
    refine revises_found (views_pure trivial) fun meta' known => ?_
    refine (views_zremLoop aligned _ (fun _ => id) _ _ _ ⟨batchEdits_nil, known, rfl⟩).bind_commits
      fun ⟨batch, count, meta'⟩ ⟨elements, record, version⟩ => ?_
    exact Commits.ite (commits_record (by decide) elements record version (replied_integer _))
      (commits_pure trivial)
  | [] => exact revises_wrongArgCount rfl (by decide)

theorem revises_zincrby (args : List Bytes) :
    Revises observer (ensureZsetMeta ctx key) (Metadata.OfType .zset)
      (fun meta' => Additions ctx key .zset meta'.version)
      (zincrby ctx (key :: args)) := by
  match args with
  | [incrementArg, member] =>
    refine .step (viewed_parseScore _) fun increment => .load fun meta' known => ?_
    refine (viewed_element (aligned.sees ctx key _) (by decide) member).bind_commits fun
      | some oldBytes => ?_
      | none => commits_additions (by decide) (batchEdits_putScore _ _ _) (known.resize _) rfl
        (replied_bulkString _)
    exact (viewed_scoreOfValue oldBytes).bind_commits fun oldScore =>
      Commits.ite (commits_command rfl (by decide)) <|
        commits_additions (by decide) (batchEdits_replace _ _ _ _) known rfl (replied_bulkString _)
  | [] | [_] | _ :: _ :: _ :: _ => exact revises_wrongArgCount rfl (by decide)

end SortedSets

section Bitmaps

variable {v : UInt64}

theorem viewed_parseBit (text : Bytes) : Viewed observer (parseBit text) :=
  Views.ite (viewed_pure _) ((viewed_pure _).ite (views_command rfl (by decide)))

theorem viewed_loadSources {userKeys : List Bytes}
    (finds : ∀ key ∈ userKeys, observer.Finds .bitmap ctx key) :
    Viewed observer (loadSources ctx userKeys) := by
  induction userKeys with
  | nil => exact viewed_pure _
  | cons userKey rest ih =>
    obtain ⟨first, others⟩ := List.forall_mem_cons.mp finds
    exact (views_readBitmapMeta first).bind fun _ _ => (ih others).bind fun _ => viewed_pure _

variable (aligned : observer.Aligned)
include aligned

theorem revises_setbit (args : List Bytes) :
    Revises observer (getOrCreateMetadata ctx key) (Metadata.OfType .bitmap)
      (fun meta' => Additions ctx key .bitmap meta'.version)
      (setbit ctx (key :: args)) := by
  match args with
  | [offsetArg, valueArg] =>
    refine .step (viewed_parseOffset _) fun offset => .step (viewed_parseBit _) fun value =>
      .load fun meta' known => ?_
    refine (viewed_readFragment (aligned.sees ctx key _) _).bind_commits fun frag =>
      commits_write ?_ (replied_integer _)
    have record : (if meta'.size < UInt64.ofNat (offset / 8 + 1) then
        { meta' with size := UInt64.ofNat (offset / 8 + 1) } else meta').OfType .bitmap ∧
        (if meta'.size < UInt64.ofNat (offset / 8 + 1) then
        { meta' with size := UInt64.ofNat (offset / 8 + 1) } else meta').version =
          meta'.version := by
      split_ifs
      · exact ⟨known.resize _, rfl⟩
      · exact ⟨known, rfl⟩
    refine ⟨batchEdits_cons.mpr ⟨.record (.common (by decide) record.1 record.2), ?_⟩,
      _, List.mem_cons_self⟩
    refine batchEdits_cons.mpr ⟨?_, batchEdits_nil⟩
    rw [fragmentKey, record.2]
    exact .put
  | [] | [_] | _ :: _ :: _ :: _ => exact revises_wrongArgCount rfl (by decide)

theorem viewed_paddedFragment (source : Bytes × Option Metadata) (fragIdx fragLen : ℕ) :
    Viewed observer (paddedFragment ctx source fragIdx fragLen) := by
  unfold paddedFragment
  split
  · exact viewed_pure _
  · exact (viewed_readFragment (aligned.sees ctx _ _) _).bind fun _ => viewed_pure _

theorem viewed_combineLoop (op : BitOp) (fragIdx fragLen : ℕ)
    (sources : List (Bytes × Option Metadata)) (result : Bytes) :
    Viewed observer (combineLoop ctx op fragIdx fragLen sources result) := by
  induction sources generalizing result with
  | nil => exact viewed_pure _
  | cons source rest ih => exact (viewed_paddedFragment aligned _ _ _).bind fun _ => ih _

theorem viewed_resultFragment (op : BitOp) (sources : List (Bytes × Option Metadata))
    (fragIdx fragLen : ℕ) : Viewed observer (resultFragment ctx op sources fragIdx fragLen) := by
  unfold resultFragment
  split
  · exact viewed_pure _
  · exact (viewed_paddedFragment aligned _ _ _).bind fun _ =>
      Views.ite (viewed_pure _) (viewed_combineLoop aligned _ _ _ _ _)

theorem views_bitopLoop (op : BitOp) {destMeta : Metadata} (version : destMeta.version = v)
    (sources : List (Bytes × Option Metadata)) (maxSize n fragIdx : ℕ) (batch : WriteBatch)
    (gathered : Additions ctx key .bitmap v batch) :
    Views observer (Additions ctx key .bitmap v)
      (bitopLoop ctx op key destMeta sources maxSize n fragIdx batch) := by
  subst version
  induction n generalizing fragIdx batch with
  | zero => exact views_pure gathered
  | succ n ih =>
    exact (ih _ _ gathered).ite <| (viewed_resultFragment aligned _ _ _ _).bind fun _ =>
      ih _ _ (gathered.snoc .put)

theorem revises_bitop (operation : Bytes) {args : List Bytes}
    (finds : ∀ source ∈ args, observer.Finds .bitmap ctx source) :
    Revises observer generateVersion (fun _ => True) (fun v => Additions ctx key .bitmap v)
      (bitop ctx (operation :: key :: args)) := by
  match args with
  | srcKey :: srcKeys =>
    have parsed : Viewed observer (parseOperation operation) :=
      Views.ite (viewed_pure _) <| Views.ite (viewed_pure _) <| Views.ite (viewed_pure _) <|
        Views.ite (viewed_pure _) (views_command rfl (by decide))
    have record : ∀ v size : UInt64, Additions ctx key .bitmap v [.put .metadata
        (ctx.metaKey key) (encodeMetadata { Metadata.new .bitmap v with size })] := fun v size =>
      ⟨batchEdits_cons.mpr
        ⟨.record (.common (by decide) ((Metadata.new_ofType .bitmap v).resize size)
        rfl), batchEdits_nil⟩, _, List.mem_cons_self⟩
    refine .step parsed fun op => Revises.ite (.idle (views_command rfl (by decide))) ?_
    refine .step (viewed_loadSources finds) fun sources => .load fun v _ => ?_
    refine Commits.ite (commits_write (record v _) (replied_integer _)) ?_
    exact (views_bitopLoop aligned op rfl sources _ _ _ _ (record v _)).bind_commits
      fun batch gathered => commits_write gathered (replied_integer _)
  | [] => exact revises_wrongArgCount rfl (by decide)

end Bitmaps

section Streams

variable (clock : observer.Shares fun env env' _ _ => env' = env)
include clock

theorem viewed_generateId (spec : Bytes) (meta' : StreamMeta) :
    Viewed observer (generateId spec meta') := by
  unfold generateId
  refine Views.ite ((viewed_now clock).bind fun _ => viewed_pure _) ?_
  split
  · exact (viewed_ofExcept parseIdWord_onLine).bind fun _ => viewed_pure _
  · exact (viewed_ofExcept EntryId.parse_onLine).bind fun _ =>
      Views.ite (views_command rfl (by decide)) (viewed_pure _)

theorem revises_xadd (args : List Bytes) :
    Revises observer (ensureStreamMeta ctx key)
      (fun meta' => dataTypeFromFlags meta'.flags = some .stream)
      (fun meta' => Additions ctx key .stream meta'.version) (xadd ctx (key :: args)) := by
  match args with
  | idSpec :: field :: rest =>
    refine Revises.ite (revises_wrongArgCount rfl (by decide)) (.load fun meta' known => ?_)
    refine (viewed_generateId clock _ _).bind_commits fun id =>
      commits_write ?_ (replied_bulkString _)
    refine ⟨batchEdits_cons.mpr ⟨.put, batchEdits_cons.mpr ⟨.record ?_, batchEdits_nil⟩⟩, _,
      List.mem_cons_of_mem _ List.mem_cons_self⟩
    exact .stream rfl known rfl
  | [] | [_] => exact revises_wrongArgCount rfl (by decide)

end Streams

end Cmd

section Table

/-- The keys on which a command may write. `FLUSHDB` names none of the keys it
deletes. -/
def Command.writtenKeys : Command → List Bytes → List Bytes
  | .set, args | .incr, args | .decr, args | .append, args | .expire, args | .pexpire, args
  | .persist, args | .hset, args | .hdel, args | .lpush, args | .rpush, args | .lpop, args
  | .rpop, args | .sadd, args | .srem, args | .zadd, args | .zrem, args | .zincrby, args
  | .xadd, args | .setbit, args => args.take 1
  | .mset, args => msetKeys args
  | .del, args => args
  | .bitop, args => (args.drop 1).take 1
  | _, _ => []

/-- A scan of a whole family is the same. -/
theorem SameBeyondMetadata.page {env : Env} {store store' : Store}
    (beyond : SameBeyondMetadata store store') (pre start : Bytes) (count : ℕ) :
    Same env env store store' (prefixScanPage .subkey pre start count) := by
  have family : store'.family .subkey = store.family .subkey :=
    OrderedMap.ext_get fun phys => beyond .subkey (by decide) phys
  have iterated : ∀ mode, Same env env store store' (Storage.iterate .subkey mode) := fun mode =>
    ⟨.ok (store.iterate .subkey mode), rfl, by
      refine congrArg (fun items => (Except.ok items, store')) ?_
      cases mode with
      | forward seek => exact congrArg (·.forward seek) family
      | reverse seek => exact congrArg (·.backward seek) family⟩
  refine (iterated _).bind fun items _ => Program.Alike.bind ?_ fun _ _ => same_pure _
  exact Program.Alike.ite (same_pure _) (same_fail _)

variable {command : Command} {args : List Bytes}

/-- A command that names its key first writes on that key, if anything. -/
theorem Command.commits_first (writes : command.reads = false) (aligned : observer.Aligned)
    (first : command ∉ [.mset, .del, .flushdb, .bitop]) (meets : observer.Meets command ctx key) :
    Commits observer (BatchOnKeys ctx [key]) (command.run ctx (key :: args)) := by
  have clock := aligned.clock
  cases command <;> cases writes
  case set =>
    exact (commits_set clock (viewed_keyExists meets) args).mono fun _ texts => texts.onKeys
  case mset | del | flushdb | bitop => exact absurd (by decide) first
  case incr | decr =>
    exact (lockedText_stepInteger (plain_of_chars rfl (by decide)) _ args).commits meets
  case append => exact (lockedText_append args).commits meets
  case expire | pexpire =>
    exact Cmd.Revises.commits_redated
      (revises_expireIn clock (plain_of_chars rfl (by decide)) _ args) meets
  case persist => exact Cmd.Revises.commits_redated (revises_persist meets args) meets
  case hset =>
    exact (revises_hset aligned args).commits_additions (views_ensureHashMeta meets clock)
  case hdel => exact (revises_hdel aligned args).commits_found (views_readHashMeta meets)
  case lpush => exact (revises_push .left args).commits_additions (views_ensureListMeta meets clock)
  case rpush =>
    exact (revises_push .right args).commits_additions (views_ensureListMeta meets clock)
  case lpop => exact (revises_pop aligned .left args).commits_found (views_loadListMeta meets)
  case rpop => exact (revises_pop aligned .right args).commits_found (views_loadListMeta meets)
  case sadd => exact (revises_sadd aligned args).commits_additions (views_ensureSetMeta meets clock)
  case srem => exact (revises_srem aligned args).commits_found (views_readSetMetadata meets)
  case zadd =>
    exact (revises_zadd aligned args).commits_additions (views_ensureZsetMeta meets clock)
  case zrem => exact (revises_zrem aligned args).commits_found (views_readZsetMeta meets)
  case zincrby =>
    exact (revises_zincrby aligned args).commits_additions (views_ensureZsetMeta meets clock)
  case xadd =>
    exact (revises_xadd clock args).commits_additions (views_ensureStreamMeta meets clock)
  case setbit =>
    exact (revises_setbit aligned args).commits_additions (views_getOrCreateMetadata meets clock)

/-- Every command but `DEL`, `FLUSHDB` and `DBSIZE` reads the keys it names and
then writes on its keys, if it writes. -/
theorem Command.commits (single : command ∉ [.del, .flushdb, .dbsize]) (aligned : observer.Aligned)
    (meets : ∀ key ∈ command.readKeys args, observer.Meets command ctx key) :
    Commits observer (BatchOnKeys ctx (command.writtenKeys args)) (command.run ctx args) := by
  have clock := aligned.clock
  cases writes : command.reads with
  | true =>
    refine Views.commits (Command.views writes ?_ (clock.imp fun _ _ _ _ same => same ▸ rfl) meets
      (aligned.imp ?_))
    · rintro rfl
      exact single (by decide)
    · rintro env _ store store' ⟨rfl, beyond⟩ _ key _ meta' start count _ _
      exact beyond.page _ start count
  | false =>
    by_cases first : command ∈ [.mset, .bitop]
    · rcases List.mem_cons.mp first with rfl | last
      · exact (commits_mset args).mono fun _ texts => texts.onKeys
      · obtain rfl := List.mem_singleton.mp last
        match args with
        | [] | [_] => exact Views.commits (views_wrongArgCount rfl (by decide))
        | operation :: key :: args =>
          exact (revises_bitop aligned operation meets).commits_additions
            (viewed_generateVersion clock)
    · cases args with
      | nil => cases command <;> cases writes <;> first
        | exact absurd (by decide) single
        | exact absurd (by decide) first
        | exact Views.commits (views_wrongArgCount rfl (by decide))
      | cons key args =>
        have shape : command.readKeys (key :: args) = [key] ∧
            command.writtenKeys (key :: args) = [key] := by
          cases command <;> simp_all [Command.reads, Command.readKeys, Command.writtenKeys]
        rw [shape.2]
        refine Command.commits_first writes aligned ?_
          (meets key (shape.1 ▸ List.mem_singleton_self key))
        simp_all

variable (ctx)

/-- Every command but `FLUSHDB` writes on the keys it names. -/
theorem Command.footprint {command : Command} (named : command ≠ .flushdb) (args : List Bytes) :
    Footprint ctx (command.writtenKeys args) (command.run ctx args) := by
  by_cases several : command = .del
  · subst several
    exact footprint_del ctx args
  · by_cases counting : command = .dbsize
    · subst counting
      exact (Command.readOnly ctx rfl args).writing
    · have commits : Commits .single (BatchOnKeys ctx (command.writtenKeys args))
          (command.run ctx args) :=
        Command.commits (by simp [named, several, counting]) trivial fun key _ =>
          Observer.meets_single ctx command key
      exact commits.1

end Table

section Stores

variable {ctx : CommandContext} {env : Env} {store : Store} {program : Prog α} {request : Request}

/-- A batch on some keys leaves the record of another key alone. -/
theorem BatchOnKeys.record_apart {batch : WriteBatch} (onKeys : BatchOnKeys ctx keys batch)
    {other : Bytes} (apart : other ∉ keys) (store : Store) :
    (store.write batch).get .metadata (ctx.metaKey other) =
      store.get .metadata (ctx.metaKey other) := by
  refine store.get_write_of_forall_ne fun op inside => ?_
  rintro ⟨family, same⟩
  rcases onKeys op inside with ⟨named, -⟩ | named | ⟨-, element⟩ | ⟨-, element⟩
  · exact apart (metadataKey_inj same ▸ named)
  · exact apart (metadataKey_inj same ▸ named)
  · exact element family.symm
  · exact element family.symm

/-- A batch on some keys leaves the elements of another key alone. -/
theorem BatchOnKeys.element_apart {batch : WriteBatch} (onKeys : BatchOnKeys ctx keys batch)
    (short : ∀ k ∈ keys, k.length < 2 ^ 32) {other : Bytes} (short' : other.length < 2 ^ 32)
    (apart : other ∉ keys) {cf : ColumnFamily} (element : cf ≠ .metadata) (v : UInt64) (sub : Bytes)
    (store : Store) :
    (store.write batch).get cf (ctx.subKey other v sub) =
      store.get cf (ctx.subKey other v sub) := by
  refine store.get_write_of_forall_ne fun op inside => ?_
  rintro ⟨family, same⟩
  rcases onKeys op inside with ⟨named, -⟩ | named | ⟨named, -⟩ | ⟨named, -⟩
  · exact element family
  · exact element family
  · exact apart (subkey_key_inj short' (short _ named) same ▸ named)
  · exact apart (subkey_key_inj short' (short _ named) same ▸ named)

/-- What every write on the keys preserves survives a command on them. -/
theorem Footprint.invariant (footprint : Footprint ctx keys program) {holds : Store → Prop}
    (preserved : ∀ store batch, BatchOnKeys ctx keys batch → holds store → holds
      (store.write batch))
    (initial : holds store) : holds (exec env program store).2 := by
  refine Program.Respects.run_invariant footprint (fun op permitted state held => ?_) initial
  cases op with
  | write batch => exact preserved state batch (permitted batch rfl) held
  | _ => exact held

/-- All metadata values are such as commands store. -/
def Store.Regular (store : Store) : Prop :=
  ∀ phys value, store.get .metadata phys = some value → Storable value

theorem Store.regular_empty : Store.empty.Regular := by
  intro phys value stored
  cases stored

/-- An operation that puts no other metadata value keeps a store regular. -/
theorem Store.Regular.apply {op : BatchOp} (regular : store.Regular)
    (storable : ∀ phys value, op = .put .metadata phys value → Storable value) :
    (store.apply op).Regular := by
  intro phys value stored
  cases op with
  | put cf key new =>
    rw [Store.get_apply_put] at stored
    split_ifs at stored with here
    · cases stored
      exact storable key value (by rw [here.1])
    · exact regular phys value stored
  | delete cf key =>
    rw [Store.get_apply_delete] at stored
    split_ifs at stored
    exact regular phys value stored

theorem Store.Regular.write {batch : WriteBatch} (regular : store.Regular)
    (storable : ∀ op ∈ batch, ∀ phys value, op = .put .metadata phys value → Storable value) :
    (store.write batch).Regular := by
  induction batch generalizing store with
  | nil => exact regular
  | cons op batch ih =>
    rw [List.forall_mem_cons] at storable
    exact ih (regular.apply storable.1) storable.2

theorem BatchOp.OnKeys.storable {op : BatchOp} (onKeys : op.OnKeys ctx keys) {phys value : Bytes}
    (put : op = .put .metadata phys value) : Storable value := by
  cases onKeys with
  | putRecord named storable =>
    cases put
    exact storable
  | deleteRecord named => cases put
  | putElement named element =>
    cases put
    exact absurd rfl element
  | deleteElement named element => cases put

/-- Every physical key of the tenant begins with its header. -/
theorem namespacePrefix_metaKey (key : Bytes) : namespacePrefix ctx <+: ctx.metaKey key := by
  rw [CommandContext.metaKey, metadataKey_eq]
  exact List.prefix_append _ _

theorem namespacePrefix_subKey (key : Bytes) (v : UInt64) (sub : Bytes) :
    namespacePrefix ctx <+: ctx.subKey key v sub :=
  (namespacePrefix_metaKey key).trans (List.prefix_append _ _)

theorem exec_flushdb (args : List Bytes) :
    exec env (flushdb ctx args) store =
      (.ok (.simpleString "OK"), ((store.without .metadata (namespacePrefix ctx)).without .subkey
        (namespacePrefix ctx)).without .zsetScore (namespacePrefix ctx)) := by
  have positive : 0 < flushBatchSize := by decide
  have small : flushBatchSize ≤ maxPageLimit := by decide
  rw [flushdb, exec_bind_ok (exec_deletePrefix positive small),
    exec_bind_ok (exec_deletePrefix positive small),
    exec_bind_ok (exec_deletePrefix positive small)]
  rfl

/-- Commands keep a store regular. -/
theorem Request.regular_after (request : Request) (regular : store.Regular) :
    (request.after ctx store).Regular := by
  rw [Request.after_eq]
  obtain ⟨command, args, env⟩ := request
  by_cases flush : command = .flushdb
  · subst flush
    show (exec env (flushdb ctx args) store).2.Regular
    rw [exec_flushdb]
    intro phys value stored
    simp only [Store.get_without, reduceCtorEq, false_and, if_false] at stored
    split_ifs at stored
    exact regular phys value stored
  · refine (Command.footprint ctx flush args).invariant (fun store batch onKeys held => ?_) regular
    exact held.write fun op inside phys value put => (onKeys op inside).storable put

/-- Every store that commands reach is regular. -/
theorem Store.regular_of_runs {requests : List (CommandContext × Request)}
    (run : TenantRuns .empty requests store) : store.Regular :=
  run.invariant Store.regular_empty fun _ request _ regular => request.2.regular_after regular

end Stores

end Kvdb
