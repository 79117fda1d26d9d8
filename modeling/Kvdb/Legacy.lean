import Kvdb.Deletion

/-!
# Data of the default namespace, read through another one

The metadata of a key is looked up in its namespace and then in the default one.
Elements are not: they are sought under the keys of the namespace alone. So a key
of the default namespace has the same type, size and string value through every
namespace, and looks like a record that has lost all its elements.
-/

namespace Kvdb

open Data Semantics Cmd

variable {ctx : CommandContext} {key : Bytes} {env : Env} {store : Store} {α β ρ : Type}

/-- The default namespace, with the same routines. -/
def CommandContext.unnamed (ctx : CommandContext) : CommandContext :=
  { ctx with tenant := [], tenant_le := CommandContext.nil_tenant_le }

structure Legacy (ctx : CommandContext) (store : Store) (key : Bytes) : Prop where
  record : ctx.lookupMeta store key = ctx.unnamed.lookupMeta store key
  elements : ∀ cf, cf ≠ .metadata → ∀ v sub, store.get cf (ctx.subKey key v sub) = none

section Stores

variable {requests : List Request}

/-- A store that was written in the default namespace has nothing in another one. -/
theorem legacy_of_run (named : ctx.tenant ≠ []) (short : key.length < 2 ^ 24)
    (run : Runs ctx.unnamed (fun _ request => request.ShortKeys) .empty requests store) :
    Legacy ctx store key := by
  have written : store.Owned ctx.unnamed :=
    run.invariant Store.owned_empty fun _ _ short owned => owned.after short
  have none : ∀ cf phys, ctx.metaKey key <+: phys → store.get cf phys = none := by
    intro cf phys inside
    refine Option.eq_none_iff_forall_ne_some.mpr fun value stored => named ?_
    have owned : ctx.Owns phys := ⟨key, short, inside⟩
    exact owned.tenant_eq (written cf phys value stored)
  constructor
  · rw [CommandContext.lookupMeta, none .metadata _ List.prefix_rfl, if_neg named, Option.none_or,
      CommandContext.lookupMeta]
    exact (Option.or_none).symm
  · exact fun cf _ v sub => none cf _ (List.prefix_append _ _)

end Stores

section Programs

/-- Two programs end in the same way and change nothing. -/
def Twins (env : Env) (store : Store) (program program' : Prog α) : Prop :=
  ∃ result : Except Fault α, exec env program store = (result, store) ∧
    exec env program' store = (result, store)

theorem twins_pure (value : α) : Twins env store (pure value : Prog α) (pure value) :=
  ⟨.ok value, rfl, rfl⟩

theorem twins_raise (cause : KvdbError) : Twins env store (raise cause : Prog α) (raise cause) :=
  ⟨.error (.error cause), rfl, rfl⟩

/-- Programs that return the same value. -/
theorem twins_of_ok {program program' : Prog α} {value : α}
    (ran : exec env program store = (.ok value, store))
    (ran' : exec env program' store = (.ok value, store)) : Twins env store program program' :=
  ⟨.ok value, ran, ran'⟩

theorem Twins.bind {program program' : Prog α} {next next' : α → Prog β}
    (first : Twins env store program program')
    (rest : ∀ value, exec env program store = (.ok value, store) →
      Twins env store (next value) (next' value)) :
    Twins env store (program >>= next) (program' >>= next') := by
  obtain ⟨fault | value, ran, ran'⟩ := first
  · exact ⟨.error fault, exec_bind_error ran, exec_bind_error ran'⟩
  · obtain ⟨result, after, after'⟩ := rest value ran
    exact ⟨result, (exec_bind_ok ran).trans after, (exec_bind_ok ran').trans after'⟩

/-- Sequencing behind a program that does not know its namespace. -/
theorem Viewed.twins_bind {program : Prog α} {next next' : α → Prog β}
    (viewed : Viewed (.pair env env store store) program)
    (rest : ∀ value, Twins env store (next value) (next' value)) :
    Twins env store (program >>= next) (program >>= next') := by
  have twins : Twins env store program program := viewed.same
  exact twins.bind fun value _ => rest value

theorem Twins.ite {condition : Prop} [Decidable condition] {first first' second second' : Prog α}
    (yes : Twins env store first first') (no : Twins env store second second') :
    Twins env store (if condition then first else second)
      (if condition then first' else second') := by
  split_ifs
  · exact yes
  · exact no

theorem Twins.reply {ctx' : CommandContext} {command : Command} {args : List Bytes}
    (twins : Twins env store (command.run ctx args) (command.run ctx' args)) :
    Request.reply ctx store ⟨command, args, env⟩ =
      Request.reply ctx' store ⟨command, args, env⟩ := by
  obtain ⟨result, ran, ran'⟩ := twins
  rw [Request.reply, Request.reply, exec_dispatch, exec_dispatch, ran, ran']

/-- Reads of elements that are in neither namespace. -/
theorem twins_get {cf : ColumnFamily} {phys phys' : Bytes}
    (same : store.get cf phys = store.get cf phys') :
    Twins env store (Storage.get cf phys) (Storage.get cf phys') :=
  twins_of_ok (congrArg (fun value => (Except.ok value, store)) same) rfl

end Programs

section Loaders

variable {load load' : Prog (Option ρ)} {judge : Bytes → Int64 → Except Fault (Option ρ)}

/-- A loader finds the same record through both namespaces. -/
theorem Legacy.load_bind (legacy : Legacy ctx store key) (judges : Judges ctx key load judge)
    (judges' : Judges ctx.unnamed key load' judge) {next next' : Option ρ → Prog β}
    (absent : Twins env store (next none) (next' none))
    (present : ∀ record, exec env load store = (.ok (some record), store) →
      Twins env store (next (some record)) (next' (some record))) :
    Twins env store (load >>= next) (load' >>= next') := by
  have loads : Twins env store load load' :=
    ⟨_, judges env store, by rw [judges' env store, legacy.record]⟩
  refine loads.bind fun found loaded => ?_
  cases found with
  | none => exact absent
  | some record => exact present record loaded

/-- There are no elements of the version in either namespace. -/
def Vacant (ctx : CommandContext) (store : Store) (key : Bytes) (version : UInt64) : Prop :=
  ∀ cf, cf ≠ .metadata → ∀ sub, store.get cf (ctx.subKey key version sub) = none ∧
    store.get cf (ctx.unnamed.subKey key version sub) = none

/-- The record that a loader lets pass has no elements if the key has none. -/
theorem Legacy.vacant_bind {version : ρ → UInt64} (legacy : Legacy ctx store key)
    (bare : Bare ctx.unnamed store key) (judges : Judges ctx key load judge)
    (judges' : Judges ctx.unnamed key load' judge) (versioned : Versioned version judge)
    {next next' : Option ρ → Prog β} (absent : Twins env store (next none) (next' none))
    (present : ∀ record, Vacant ctx store key (version record) →
      Twins env store (next (some record)) (next' (some record))) :
    Twins env store (load >>= next) (load' >>= next') := by
  refine legacy.load_bind judges judges' absent fun record loaded => present record ?_
  intro cf element sub
  refine ⟨legacy.elements cf element _ sub, ?_⟩
  have judged := congrArg Prod.fst ((judges env store).symm.trans loaded)
  cases stored : ctx.lookupMeta store key with
  | none => simp [stored] at judged
  | some value =>
    rw [stored] at judged
    obtain ⟨composite, same⟩ := versioned value env.nowMs record judged
    rw [same]
    exact bare value (legacy.record ▸ stored) composite cf element sub

variable {v : UInt64} {cf : ColumnFamily}

theorem Vacant.get (vacant : Vacant ctx store key v) (element : cf ≠ .metadata) (sub : Bytes) :
    Twins env store (Storage.get cf (ctx.subKey key v sub))
      (Storage.get cf (ctx.unnamed.subKey key v sub)) :=
  twins_get ((vacant cf element sub).1.trans (vacant cf element sub).2.symm)

/-- A loop over elements that are not there. -/
theorem Vacant.forEachPage (vacant : Vacant ctx store key v) (element : cf ≠ .metadata) {limit : ℕ}
    (positive : 0 < limit) (small : limit ≤ maxPageLimit)
    {page page' : Bytes → Prog (List α × Option Bytes)} {body body' : β → α → Prog (ForInStep β)}
    {decode decode' : Page → Prog (List α × Option Bytes)}
    (paged : page [] = prefixScanPage cf (ctx.subKey key v []) [] limit >>= decode)
    (paged' : page' [] = prefixScanPage cf (ctx.unnamed.subKey key v []) [] limit >>= decode')
    (decodes : decode ([], none) = pure ([], none))
    (decodes' : decode' ([], none) = pure ([], none)) (acc : β) :
    Twins env store (Kvdb.forEachPage cf page acc body) (Kvdb.forEachPage cf page' acc body') := by
  have none := Store.behind_eq_nil fun sub => (vacant cf element sub).1
  have none' := Store.behind_eq_nil fun sub => (vacant cf element sub).2
  refine twins_of_ok (exec_forEachPage_of_nil ?_ acc) (exec_forEachPage_of_nil ?_ acc)
  · rw [paged, exec_bind_ok (exec_prefixScanPage_of_nil none positive small), decodes]
    rfl
  · rw [paged', exec_bind_ok (exec_prefixScanPage_of_nil none' positive small), decodes']
    rfl

end Loaders

namespace Cmd

variable {args : List Bytes} (legacy : ∀ key ∈ args.head?, Legacy ctx store key)
include legacy

section Elements

variable (bare : ∀ key ∈ args.head?, Bare ctx.unnamed store key)
include bare

theorem twins_hget : Twins env store (hget ctx args) (hget ctx.unnamed args) := by
  match args with
  | [key, field] =>
    refine (legacy key rfl).vacant_bind (bare key rfl) judges_readHashMeta judges_readHashMeta
      versioned_judgeHash (twins_pure _) fun meta' vacant => ?_
    exact (vacant.get (by decide) field).bind fun _ _ => twins_pure _
  | [] | [_] | _ :: _ :: _ :: _ => exact twins_raise _

theorem twins_hgetall : Twins env store (hgetall ctx args) (hgetall ctx.unnamed args) := by
  match args with
  | [key] =>
    refine (legacy key rfl).vacant_bind (bare key rfl) judges_readHashMeta judges_readHashMeta
      versioned_judgeHash (twins_pure _) fun meta' vacant => ?_
    exact Twins.bind (vacant.forEachPage (by decide) (by decide) (by decide) (bind_pure _).symm
      (bind_pure _).symm rfl rfl _) fun _ _ => twins_pure _
  | [] | _ :: _ :: _ => exact twins_raise _

theorem twins_lrange : Twins env store (lrange ctx args) (lrange ctx.unnamed args) := by
  match args with
  | [key, start, stop] =>
    refine (viewed_parseI64 start).twins_bind fun s => (viewed_parseI64 stop).twins_bind fun e => ?_
    refine (legacy key rfl).vacant_bind (bare key rfl) (judges_loadLiveMeta _ _)
      (judges_loadLiveMeta _ _)
      (versioned_judgeLive _ _) (twins_pure _) fun meta' vacant => ?_
    refine (twins_pure _).ite ((twins_pure _).ite ?_)
    exact Twins.bind (vacant.forEachPage (by decide) (by decide) (by decide) (bind_pure _).symm
      (bind_pure _).symm rfl rfl _) fun _ _ => twins_pure _
  | [] | [_] | [_, _] | _ :: _ :: _ :: _ :: _ => exact twins_raise _

theorem twins_smembers : Twins env store (smembers ctx args) (smembers ctx.unnamed args) := by
  match args with
  | [key] =>
    refine (legacy key rfl).vacant_bind (bare key rfl) (judges_loadLiveMeta _ _)
      (judges_loadLiveMeta _ _)
      (versioned_judgeLive _ _) (twins_pure _) fun meta' vacant => ?_
    refine Twins.bind ?_ fun _ _ => twins_pure _
    -- Both scans are empty, so both hash sets are.
    have none := Store.behind_eq_nil fun sub => (vacant .subkey (by decide) sub).1
    have none' := Store.behind_eq_nil fun sub => (vacant .subkey (by decide) sub).2
    unfold loadMembers
    refine ⟨.ok (env.hashOrder []), ?_, ?_⟩
    · rw [exec_bind_ok exec_prefixScan, none]
      rfl
    · rw [exec_bind_ok exec_prefixScan, none']
      rfl
  | [] | _ :: _ :: _ => exact twins_raise _

theorem twins_zrange : Twins env store (zrange ctx args) (zrange ctx.unnamed args) := by
  match args with
  | key :: start :: stop :: options =>
    refine (twins_raise _).ite ?_
    refine (viewed_withScoresOption options).twins_bind fun scored => ?_
    refine (legacy key rfl).vacant_bind (bare key rfl) judges_readZsetMeta judges_readZsetMeta
      versioned_judgeZset (twins_pure _) fun meta' vacant => ?_
    refine (viewed_parseI64 start).twins_bind fun s => (viewed_parseI64 stop).twins_bind fun e => ?_
    refine Twins.bind (Twins.ite (twins_pure _) ?_) fun _ _ => twins_pure _
    exact Twins.bind (vacant.forEachPage (by decide) (by decide) (by decide) (bind_pure _).symm
      (bind_pure _).symm rfl rfl _) fun _ _ => twins_pure _
  | [] | [_] | [_, _] => exact twins_raise _

theorem twins_zscore : Twins env store (zscore ctx args) (zscore ctx.unnamed args) := by
  match args with
  | [key, member] =>
    refine (legacy key rfl).vacant_bind (bare key rfl) judges_readZsetMeta judges_readZsetMeta
      versioned_judgeZset (twins_pure _) fun meta' vacant => ?_
    refine Twins.bind (Twins.bind (vacant.get (by decide) member) fun found _ => ?_) fun _ _ =>
      twins_pure _
    cases found with
    | none => exact twins_pure _
    | some bytes => exact (viewed_scoreOfValue bytes).twins_bind fun _ => twins_pure _
  | [] | [_] | _ :: _ :: _ :: _ => exact twins_raise _

omit legacy bare in
theorem twins_readFragment {meta' : Metadata} (vacant : Vacant ctx store key meta'.version)
    (index : ℕ) :
    Twins env store (readFragment ctx meta' key index) (readFragment ctx.unnamed meta' key index) :=
  (vacant.get (by decide) _).bind fun _ _ => twins_pure _

theorem twins_getbit : Twins env store (getbit ctx args) (getbit ctx.unnamed args) := by
  match args with
  | [key, offset] =>
    refine (viewed_parseOffset offset).twins_bind fun place => ?_
    refine (legacy key rfl).vacant_bind (bare key rfl) (judges_loadLiveMeta _ _)
      (judges_loadLiveMeta _ _)
      (versioned_judgeLive _ _) (twins_pure _) fun meta' vacant => ?_
    exact (twins_readFragment vacant _).bind fun _ _ => twins_pure _
  | [] | [_] | _ :: _ :: _ :: _ => exact twins_raise _

omit legacy bare in
theorem twins_bitcountLoop {meta' : Metadata} (vacant : Vacant ctx store key meta'.version)
    (start stop rounds index count : ℕ) :
    Twins env store (bitcountLoop ctx meta' key start stop rounds index count)
      (bitcountLoop ctx.unnamed meta' key start stop rounds index count) := by
  induction rounds generalizing index count with
  | zero => exact twins_pure _
  | succ rounds ih =>
    exact (twins_readFragment vacant index).bind fun _ _ => (ih _ _).ite (ih _ _)

theorem twins_bitcount : Twins env store (bitcount ctx args) (bitcount ctx.unnamed args) := by
  match args with
  | key :: range =>
    refine (viewed_bitcountRange range).twins_bind fun bounds => ?_
    refine (legacy key rfl).vacant_bind (bare key rfl) (judges_loadLiveMeta _ _)
      (judges_loadLiveMeta _ _)
      (versioned_judgeLive _ _) (twins_pure _) fun meta' vacant => ?_
    refine (twins_pure _).ite ((twins_pure _).ite ?_)
    exact (twins_bitcountLoop vacant _ _ _ _ _).bind fun _ _ => twins_pure _
  | [] => exact twins_raise _

theorem twins_xrange : Twins env store (xrange ctx args) (xrange ctx.unnamed args) := by
  match args with
  | key :: start :: stop :: options =>
    refine (twins_raise _).ite ?_
    refine (viewed_ofExcept parseRangeBound_onLine).twins_bind fun s => ?_
    refine (viewed_ofExcept parseRangeBound_onLine).twins_bind fun e => ?_
    refine (viewed_xrangeCount options).twins_bind fun count => ?_
    refine (legacy key rfl).vacant_bind (bare key rfl) judges_liveStreamMeta judges_liveStreamMeta
      versioned_judgeStream (twins_pure _) fun meta' vacant => ?_
    have limits : 0 < streamPageLimit ∧ streamPageLimit ≤ maxPageLimit := by decide
    have paged : ∀ ctx' : CommandContext, iterEntriesPage ctx' key meta'.version [] =
        prefixScanPage .subkey (ctx'.subKey key meta'.version []) [] streamPageLimit >>= fun page =>
          decodeEntries ctx' page.1 >>= fun entries => pure (entries, page.2) := fun _ => rfl
    exact Twins.bind
      (vacant.forEachPage (by decide) limits.1 limits.2 (paged ctx) (paged _) rfl rfl _)
      fun _ _ => twins_pure _
  | [] | [_] | [_, _] => exact twins_raise _

end Elements

end Cmd

section Fallback

variable {command : Command}

def Command.typeReads : List Command :=
  [.get, .hget, .hgetall, .hlen, .lrange, .llen, .smembers, .scard, .zrange, .zscore, .zcard,
    .getbit, .bitcount, .xrange, .xlen]

/-- The read commands that look at metadata alone. -/
def Command.metadataReads : List Command := [.get, .hlen, .llen, .scard, .zcard, .xlen]

theorem Command.twins_of_metadata (listed : command ∈ metadataReads) {args : List Bytes}
    (legacy : ∀ key ∈ args.head?, Legacy ctx store key) :
    Twins env store (command.run ctx args) (command.run ctx.unnamed args) := by
  simp only [metadataReads, List.mem_cons, List.not_mem_nil, or_false] at listed
  match args with
  | [key] =>
    -- Each of them answers from the record that its loader lets pass.
    have legacy := legacy key rfl
    obtain rfl | rfl | rfl | rfl | rfl | rfl := listed
    · exact legacy.load_bind judges_readString judges_readString (twins_pure _)
        fun _ _ => twins_pure _
    · exact legacy.load_bind judges_readHashMeta judges_readHashMeta (twins_pure _)
        fun _ _ => twins_pure _
    · exact legacy.load_bind (judges_loadLiveMeta _ _) (judges_loadLiveMeta _ _) (twins_pure _)
        fun _ _ => twins_pure _
    · exact legacy.load_bind (judges_loadLiveMeta _ _) (judges_loadLiveMeta _ _) (twins_pure _)
        fun _ _ => twins_pure _
    · exact legacy.load_bind judges_readZsetMeta judges_readZsetMeta (twins_pure _)
        fun _ _ => twins_pure _
    · exact legacy.load_bind judges_liveStreamMeta judges_liveStreamMeta (twins_pure _)
        fun _ _ => twins_pure _
  | [] | _ :: _ :: _ =>
    obtain rfl | rfl | rfl | rfl | rfl | rfl := listed <;> exact twins_raise _

theorem Command.twins_of_bare (listed : command ∈ typeReads) {args : List Bytes}
    (legacy : ∀ key ∈ args.head?, Legacy ctx store key)
    (bare : ∀ key ∈ args.head?, Bare ctx.unnamed store key) :
    Twins env store (command.run ctx args) (command.run ctx.unnamed args) := by
  simp only [typeReads, List.mem_cons, List.not_mem_nil, or_false] at listed
  obtain rfl | rfl | rfl | rfl | rfl | rfl | rfl | rfl | rfl | rfl | rfl | rfl | rfl | rfl | rfl :=
    listed
  · exact twins_of_metadata (by decide) legacy
  · exact twins_hget legacy bare
  · exact twins_hgetall legacy bare
  · exact twins_of_metadata (by decide) legacy
  · exact twins_lrange legacy bare
  · exact twins_of_metadata (by decide) legacy
  · exact twins_smembers legacy bare
  · exact twins_of_metadata (by decide) legacy
  · exact twins_zrange legacy bare
  · exact twins_zscore legacy bare
  · exact twins_of_metadata (by decide) legacy
  · exact twins_getbit legacy bare
  · exact twins_bitcount legacy bare
  · exact twins_xrange legacy bare
  · exact twins_of_metadata (by decide) legacy

/-- Elements of a type, written in the default namespace. -/
def Command.legacySetup : Command → Request
  | .hget | .hgetall => ⟨.hset, ["k", "f", "v"].map ascii, .plain 1⟩
  | .lrange => ⟨.rpush, ["k", "a"].map ascii, .plain 1⟩
  | .smembers => ⟨.sadd, ["k", "a"].map ascii, .plain 1⟩
  | .zrange | .zscore => ⟨.zadd, ["k", "inf", "a"].map ascii, .plain 1⟩
  | .getbit | .bitcount => ⟨.setbit, ["k", "0", "1"].map ascii, .plain 1⟩
  | .xrange => ⟨.xadd, ["k", "1-1", "f", "v"].map ascii, .plain 1⟩
  | _ => ⟨.set, ["k", "v"].map ascii, .plain 1⟩

/-- What a read command is asked about the key besides its name. -/
def Command.legacyArgs : Command → List Bytes
  | .hget => [ascii "f"]
  | .lrange | .zrange => ["0", "-1"].map ascii
  | .zscore => [ascii "a"]
  | .getbit => [ascii "0"]
  | .xrange => ["-", "+"].map ascii
  | _ => []

/-- Every command that reads elements misses those of the default namespace. -/
theorem reply_legacy_ne : ∀ command ∈ Command.typeReads, command ∉ Command.metadataReads →
    let ctx : CommandContext := .named (ascii "t") (by decide)
    let store := command.legacySetup.after ctx.unnamed .empty
    Request.reply ctx store ⟨command, ascii "k" :: command.legacyArgs, .plain 2⟩ ≠
      Request.reply ctx.unnamed store ⟨command, ascii "k" :: command.legacyArgs, .plain 2⟩ := by
  decide

theorem shortKeys_legacySetup : ∀ command ∈ Command.typeReads, command.legacySetup.ShortKeys := by
  decide

/-- Data of the default namespace reads the same through another namespace if and
only if the command looks at metadata alone. Every read command of a type replies
the same about keys without elements. -/
theorem legacy_reads_alike_iff (listed : command ∈ Command.typeReads) :
    ((∀ (ctx : CommandContext) (requests : List Request) (store : Store) (key : Bytes)
        (args : List Bytes) (env : Env), ctx.tenant ≠ [] → key.length < 2 ^ 24 →
        Runs ctx.unnamed (fun _ request => request.ShortKeys) .empty requests store →
        Request.reply ctx store ⟨command, key :: args, env⟩ =
          Request.reply ctx.unnamed store ⟨command, key :: args, env⟩) ↔
      command ∈ Command.metadataReads) ∧
    ∀ (ctx : CommandContext) (requests : List Request) (store : Store) (key : Bytes)
      (args : List Bytes) (env : Env), ctx.tenant ≠ [] → key.length < 2 ^ 24 →
      Runs ctx.unnamed (fun _ request => request.ShortKeys) .empty requests store →
      Bare ctx.unnamed store key →
      Request.reply ctx store ⟨command, key :: args, env⟩ =
        Request.reply ctx.unnamed store ⟨command, key :: args, env⟩ := by
  refine ⟨⟨fun same => ?_, fun metadata ctx requests store key args env named short run => ?_⟩,
    fun ctx requests store key args env named short run bare => ?_⟩
  · by_contra elements
    refine reply_legacy_ne command listed elements ?_
    exact same (.named (ascii "t") (by decide)) _ _ _ _ _ (by decide) (by decide)
      (.single (shortKeys_legacySetup command listed))
  · refine (Command.twins_of_metadata metadata ?_).reply
    rintro _ ⟨⟩
    exact legacy_of_run named short run
  · refine (Command.twins_of_bare listed ?_ ?_).reply
    · rintro _ ⟨⟩
      exact legacy_of_run named short run
    · rintro _ ⟨⟩
      exact bare

/-- The length of a hash is the same through namespace "t". -/
theorem hlen_of_legacy :
    let ctx : CommandContext := .named (ascii "t") (by decide)
    let set : Request := ⟨.hset, ["h", "f", "v"].map ascii, .plain 1⟩
    Request.reply ctx (set.after ctx.unnamed .empty) ⟨.hlen, [ascii "h"], .plain 2⟩ =
      .ok (.integer 1) := by
  intro ctx set
  have same := (@legacy_reads_alike_iff .hlen (by decide)).1.mpr (by decide) ctx [set]
    (set.after ctx.unnamed .empty) (ascii "h") [] (.plain 2) (by decide) (by decide)
    (.single (by decide))
  rw [same]
  decide

/-- The hash has one field, of which `HGETALL` through namespace "t" shows nothing. -/
theorem legacy_hash_looks_empty :
    let ctx : CommandContext := .named (ascii "t") (by decide)
    let set : Request := ⟨.hset, ["h", "f", "v"].map ascii, .plain 1⟩
    let store := set.after ctx.unnamed .empty
    Request.reply ctx store ⟨.hlen, [ascii "h"], .plain 2⟩ = .ok (.integer 1) ∧
      Request.reply ctx store ⟨.hgetall, [ascii "h"], .plain 2⟩ = .ok (.array []) ∧
      Request.reply ctx.unnamed store ⟨.hgetall, [ascii "h"], .plain 2⟩ =
        .ok (.array [.bulkString (some (ascii "f")), .bulkString (some (ascii "v"))]) := by
  decide

end Fallback

end Kvdb
