import Kvdb.Changes

/-!
# Elements of earlier generations

A record that takes the place of another one leaves the elements of the old version
in the store, and hides them behind a version of its own. The version is made of the
clock and sixteen random bits, and nothing looks whether it has been used before. If
it has, the old elements are back.

What a reader may see is told by a trace beside the store: the elements written since
the key was last absent, expired or overwritten.
-/

namespace Kvdb

open Data Semantics

variable {ctx : CommandContext} {store : Store} {request : Request} {key : Bytes}
  {cf : ColumnFamily} {sub : Bytes}

section Trace

def Request.writes (ctx : CommandContext) (store : Store) (request : Request) : WriteBatch :=
  Kvdb.writes request.env (request.command.run ctx request.args) store

theorem Request.after_eq_write : request.after ctx store = store.write (request.writes ctx store) :=
  (request.after_eq ctx store).trans exec_eq_write

/-- The key, family and name of the element that an operation puts. -/
def BatchOp.element (ctx : CommandContext) : BatchOp → Option (Bytes × ColumnFamily × Bytes)
  | .put .metadata _ _ => none
  | .put cf phys _ => (ctx.parseSubkey phys).map fun parts => (parts.1, cf, parts.2.2)
  | .delete _ _ => none

theorem BatchOp.element_put (short : key.length < 2 ^ 24) (element : cf ≠ .metadata) {v : UInt64}
    {value : Bytes} :
    (BatchOp.put cf (ctx.subKey key v sub) value).element ctx = some (key, cf, sub) := by
  have parsed := @CommandContext.parseSubkey_subKey ctx key v sub (Nat.lt_trans short (by decide))
  cases cf with
  | metadata => exact absurd rfl element
  | subkey => simp [BatchOp.element, parsed]
  | zsetScore => simp [BatchOp.element, parsed]

def Request.overwrites (ctx : CommandContext) (store : Store) (request : Request) (key : Bytes) :
    Bool :=
  decide (request.command ∈ [.set, .mset, .bitop]) &&
    (request.writes ctx store).any fun op => op.cf = .metadata && op.key = ctx.metaKey key

/-- Where the request finds the key, its earlier elements are gone: the key is absent,
it has expired, or the request overwrites it. -/
def Request.resets (ctx : CommandContext) (store : Store) (request : Request) (key : Bytes) :
    Bool :=
  match ctx.lookupMeta store key with
  | none => true
  | some value =>
    expiredAt (deadlineOf value) request.env.nowMs || request.overwrites ctx store key

/-- A store, the elements written to each key since it was last absent, expired or
overwritten, and the last reading of the clock. -/
structure Traced where
  store : Store
  written : List (Bytes × ColumnFamily × Bytes)
  clock : Int64

def Traced.start : Traced := ⟨.empty, [], Int64.minValue⟩

def Traced.step (ctx : CommandContext) (traced : Traced) (request : Request) : Traced where
  store := request.after ctx traced.store
  written := (request.writes ctx traced.store).filterMap (BatchOp.element ctx) ++
    traced.written.filter fun element => !request.resets ctx traced.store element.1
  clock := request.env.nowMs

/-- The element is stored under the version of a record that readers take for live.
Readers of hashes do not look at the deadline. -/
def Visible (ctx : CommandContext) (store : Store) (now : Int64) (key : Bytes) (cf : ColumnFamily)
    (sub : Bytes) : Prop :=
  ∃ record, ctx.lookupMeta store key = some record ∧ valueType record ≠ some .string ∧
    (valueType record = some .hash ∨ expiredAt (deadlineOf record) now = false) ∧
    cf ≠ .metadata ∧ (store.get cf (ctx.subKey key (versionOf record) sub)).isSome

/-- The request starts no generation among old elements: the clock does not go back, a
version it draws has no elements, no hash with elements has expired, and no deadline
is moved that has passed. -/
structure Traced.Fresh (ctx : CommandContext) (traced : Traced) (request : Request) : Prop where
  short : request.ShortKeys
  clock : traced.clock ≤ request.env.nowMs
  unused : ∀ key ∈ request.command.writtenKeys request.args, request.Draws ctx traced.store key →
    ∀ cf, cf ≠ .metadata → ∀ sub,
      traced.store.get cf (ctx.subKey key request.env.version sub) = none
  hashes : ∀ key : Bytes, key.length < 2 ^ 24 → ∀ record, ctx.lookupMeta traced.store key =
    some record →
    valueType record = some .hash → expiredAt (deadlineOf record) request.env.nowMs = true →
    Bare ctx traced.store key
  revived : request.command ∈ [.expire, .pexpire, .persist] →
    ∀ key ∈ request.command.writtenKeys request.args, ∀ record,
      ctx.lookupMeta traced.store key = some record →
      expiredAt (deadlineOf record) request.env.nowMs = true → Bare ctx traced.store key

end Trace

section Overwriting

variable {record : Bytes}

/-- All that `SET` and `MSET` write are strings. -/
theorem Request.texts_writes (texts : request.command = .set ∨ request.command = .mset) :
    Cmd.Texts ctx (request.command.writtenKeys request.args) (request.writes ctx store) := by
  obtain ⟨command, args, env⟩ := request
  have commits : Commits .single (Cmd.Texts ctx (command.writtenKeys args))
      (command.run ctx args) := by
    rcases texts with rfl | rfl
    · cases args with
      | nil => exact Views.commits (views_wrongArgCount rfl (by decide))
      | cons key args =>
        exact Cmd.commits_set Observer.shares_single
          (Cmd.viewed_keyExists Observer.shares_single) args
    · exact Cmd.commits_mset args
  intro op inside
  obtain ⟨batch, within, member⟩ := commits.1.mem_writes inside
  exact within op member

/-- All that `BITOP` writes belongs to the drawn version of its destination. -/
theorem Request.edits_writes (bitop : request.command = .bitop)
    {op : BatchOp} (inside : op ∈ request.writes ctx store) :
    ∃ other ∈ request.command.writtenKeys request.args,
      op.Edits ctx other .bitmap request.env.version [] := by
  obtain ⟨command, args, env⟩ := request
  cases bitop
  rcases args with _ | ⟨operation, _ | ⟨other, args⟩⟩
  · cases inside
  · cases inside
  · have revises : Revises .single generateVersion (fun _ => True)
        (fun v => Additions ctx other .bitmap v)
        (Cmd.bitop ctx (operation :: other :: args)) :=
      Cmd.revises_bitop Observer.aligned_single operation fun _ _ => trivial
    obtain ⟨v, batch, drawn, additions, member⟩ :=
      revises.editor.mem_writes readOnly_generateVersion inside
    cases drawn
    exact ⟨other, List.mem_singleton_self other, additions.edits op member⟩

/-- A record in the place of what a request overwrites has a drawn version. -/
theorem Request.drawn_of_overwrites
    (overwrites : request.overwrites ctx store key = true)
    (own : (request.after ctx store).get .metadata (ctx.metaKey key) = some record)
    (composite : valueType record ≠ some .string) :
    key ∈ request.command.writtenKeys request.args ∧ request.command = .bitop ∧
      versionOf record = request.env.version := by
  simp only [Request.overwrites, Bool.and_eq_true, decide_eq_true_eq, List.any_eq_true]
    at overwrites
  obtain ⟨listed, op, inside, family, same⟩ := overwrites
  rw [Request.after_eq_write] at own
  -- The metadata entry is touched, so it is as the last operation on it has left it.
  rcases store.get_write_cases (request.writes ctx store) .metadata (ctx.metaKey key) with
    ⟨elsewhere, -⟩ | ⟨value, put, stored⟩ | ⟨-, gone⟩
  · exact absurd ⟨family.symm, same.symm⟩ (elsewhere op inside)
  · obtain rfl := Option.some.inj (stored.symm.trans own)
    by_cases bitop : request.command = .bitop
    · obtain ⟨other, named, edits⟩ := Request.edits_writes bitop put
      generalize phys : ctx.metaKey key = place at edits
      cases edits with
      | record recordOf =>
        obtain rfl := metadataKey_inj phys
        exact ⟨named, bitop, recordOf.versionOf_eq⟩
    · have texts : request.command = .set ∨ request.command = .mset := by
        simpa [bitop] using listed
      obtain ⟨_, -, expire, payload, op⟩ := Request.texts_writes texts _ put
      obtain ⟨-, -, rfl⟩ := BatchOp.put.inj op
      exact absurd (valueType_encodeString expire payload) composite
  · exact absurd (gone.symm.trans own) nofun

end Overwriting

section Steps

variable {traced : Traced} {record : Bytes}

/-- What a run keeps up: the elements of every record that is live by the clock are
among the written ones. -/
structure Traced.Covered (ctx : CommandContext) (traced : Traced) : Prop where
  regular : traced.store.Regular
  owned : traced.store.Owned ctx
  covered : ∀ key : Bytes, key.length < 2 ^ 24 → ∀ record,
    traced.store.get .metadata (ctx.metaKey key) = some record → valueType record ≠ some .string →
    expiredAt (deadlineOf record) traced.clock = false → ∀ cf, cf ≠ .metadata → ∀ sub,
    (traced.store.get cf (ctx.subKey key (versionOf record) sub)).isSome →
      (key, cf, sub) ∈ traced.written

theorem Traced.covered_start : Traced.start.Covered ctx where
  regular := Store.regular_empty
  owned := Store.owned_empty
  covered := by
    intro key _ record own
    cases own

/-- What has not expired had not expired before. -/
theorem live_before {expire earlier now : Int64} (passed : earlier ≤ now)
    (live : expiredAt expire now = false) : expiredAt expire earlier = false := by
  simp only [expiredAt, Bool.and_eq_false_iff, decide_eq_false_iff_not] at live ⊢
  exact live.imp_right fun later before => later (Int64.le_trans before passed)

theorem Bare.not_stored {value : Bytes} (bare : Bare ctx store key)
    (found : ctx.lookupMeta store key = some record) (composite : valueType record ≠ some .string)
    (element : cf ≠ .metadata) :
    store.get cf (ctx.subKey key (versionOf record) sub) ≠ some value := by
  intro stored
  have none :=
    bare record found (fun text => composite (valueType_eq_string.mpr text)) cf element sub
  exact absurd (none.symm.trans stored) nofun

/-- An element that was there before a request, under the version of a record that is
live afterwards, was written, and the request does not reset its key. -/
theorem Traced.Covered.earlier {value : Bytes} (all : traced.Covered ctx)
    (fresh : traced.Fresh ctx request) (short : key.length < 2 ^ 24) (element : cf ≠ .metadata)
    (own : (request.after ctx traced.store).get .metadata (ctx.metaKey key) = some record)
    (composite : valueType record ≠ some .string)
    (live : expiredAt (deadlineOf record) request.env.nowMs = false)
    (stored : traced.store.get cf (ctx.subKey key (versionOf record) sub) = some value) :
    (key, cf, sub) ∈ traced.written ∧ request.resets ctx traced.store key = false := by
  -- The version was not drawn by this request.
  have undrawn (named : key ∈ request.command.writtenKeys request.args)
      (draws : request.Draws ctx traced.store key) : versionOf record ≠ request.env.version := by
    intro version
    rw [version, fresh.unused key named draws cf element sub] at stored
    cases stored
  have plain : request.overwrites ctx traced.store key = false := by
    by_contra overwrites
    obtain ⟨named, bitop, version⟩ := Request.drawn_of_overwrites
      (Bool.not_eq_false _ ▸ overwrites) own composite
    exact undrawn named (.inl bitop) version
  -- An earlier record of this version has the same elements.
  have inherited (value' : Bytes)
      (own' : traced.store.get .metadata (ctx.metaKey key) = some value')
      (version : versionOf record = versionOf value') (composite' : valueType value' ≠ some .string)
      (live' : expiredAt (deadlineOf value') request.env.nowMs = false) :
      (key, cf, sub) ∈ traced.written ∧ request.resets ctx traced.store key = false := by
    constructor
    · refine all.covered key short value' own' composite' (live_before fresh.clock live')
        cf element sub ?_
      rw [← version, stored]
      rfl
    · simp only [Request.resets, (all.owned.lookupMeta short).trans own', live', plain,
        Bool.or_self]
  have change := @Request.change ctx traced.store all.regular request
  cases change.recordSource all.owned fresh.short short own composite with
  | kept own' => exact inherited record own' rfl composite live
  | @rewritten value' named own' version type takes =>
    have found := (all.owned.lookupMeta short).trans own'
    rw [type] at composite
    by_cases expired : expiredAt (deadlineOf value') request.env.nowMs = true
    · rw [version] at stored
      rcases takes expired with deadline | hash
      · exact absurd stored
          ((fresh.revived deadline key named value' found expired).not_stored found
          composite element)
      · exact absurd stored ((fresh.hashes key short value' found hash expired).not_stored found
          composite element)
    · exact inherited value' own' version composite (Bool.eq_false_iff.mpr expired)
  | drawn named draws version => exact absurd version (undrawn named draws)

/-- A request among unused versions keeps the trace complete. -/
theorem Traced.Covered.step (all : traced.Covered ctx) (fresh : traced.Fresh ctx request) :
    (traced.step ctx request).Covered ctx where
  regular := request.regular_after all.regular
  owned := all.owned.after fresh.short
  covered := by
    intro key short record own composite live cf element sub stored
    have after : (traced.step ctx request).store = request.after ctx traced.store := rfl
    rw [after] at own stored
    rw [Request.after_eq_write] at stored
    refine List.mem_append.mpr ?_
    rcases traced.store.get_write_cases (request.writes ctx traced.store) cf
      (ctx.subKey key (versionOf record) sub) with ⟨-, same⟩ | ⟨value, inside, -⟩ | ⟨-, gone⟩
    · -- It was there before.
      rw [same] at stored
      obtain ⟨value, earlier⟩ := Option.isSome_iff_exists.mp stored
      obtain ⟨written, kept⟩ := all.earlier fresh short element own composite live earlier
      exact .inr (List.mem_filter.mpr ⟨written, by simp [kept]⟩)
    · exact .inl (List.mem_filterMap.mpr ⟨_, inside, BatchOp.element_put short element⟩)
    · rw [gone] at stored
      cases stored

end Steps

section Runs

variable {traced : Traced} {requests : List Request}

/-- In a run of requests that start no generation among old elements, whoever looks at
a key by a clock that meets the same condition sees elements only that were written
since the key was last absent, expired or overwritten, and the key has not expired. -/
theorem no_old_elements_of_fresh
    (run :
      Run (Traced.step ctx) (fun before request => before.Fresh ctx request) .start requests traced)
    (observed : traced.Fresh ctx request) (short : key.length < 2 ^ 24)
    (visible : Visible ctx traced.store request.env.nowMs key cf sub) :
    (key, cf, sub) ∈ traced.written ∧ ∀ record, ctx.lookupMeta traced.store key = some record →
      expiredAt (deadlineOf record) request.env.nowMs = false := by
  have all : traced.Covered ctx :=
    run.invariant Traced.covered_start fun _ _ fresh all => all.step fresh
  obtain ⟨record, found, composite, live, element, stored⟩ := visible
  obtain ⟨value, stored'⟩ := Option.isSome_iff_exists.mp stored
  have live : expiredAt (deadlineOf record) request.env.nowMs = false := by
    rcases live with hash | live
    · by_contra expired
      exact (observed.hashes key short record found hash (Bool.not_eq_false _ ▸ expired)).not_stored
        found
        composite element stored'
    · exact live
  refine ⟨?_, fun record' found' => ?_⟩
  · exact all.covered key short record ((all.owned.lookupMeta short).symm.trans found) composite
      (live_before observed.clock live) cf element sub stored
  · rw [← Option.some.inj (found.symm.trans found')]
    exact live

/-- A set and its member. -/
theorem member_is_written :
    let requests : List Request := [⟨.sadd, ["k", "a"].map ascii, .plain 1⟩]
    let traced := requests.foldl (Traced.step .plain) .start
    Visible .plain traced.store 1 (ascii "k") .subkey (ascii "a") ∧
      (ascii "k", .subkey, ascii "a") ∈ traced.written := by
  intro requests traced
  have first : Traced.start.Fresh .plain ⟨.sadd, ["k", "a"].map ascii, .plain 1⟩ := by
    refine ⟨by decide, by decide, fun _ _ _ cf _ _ => by cases cf <;> rfl, ?_, ?_⟩
    · intro key _ record stored
      cases stored
    · intro deadline
      simp at deadline
  have types : ∀ entry ∈ (traced.store.family .metadata).entries,
      valueType entry.2 = some .set := by
    decide
  have observed : traced.Fresh .plain ⟨.smembers, ["k"].map ascii, .plain 1⟩ := by
    refine ⟨by decide, by decide, ?_, ?_, ?_⟩
    · intro key named
      cases named
    · intro key _ record found hash
      have own : traced.store.get .metadata (CommandContext.plain.metaKey key) = some record := by
        simpa [CommandContext.lookupMeta, CommandContext.plain] using found
      have set := types _ ((OrderedMap.mem_entries _).mpr own)
      exact absurd (set.symm.trans hash) (by decide)
    · intro deadline
      simp at deadline
  have visible : Visible .plain traced.store 1 (ascii "k") .subkey (ascii "a") := by
    refine ⟨encodeMetadata { Metadata.new .set (Env.plain 1).version with size := 1 }, ?_, ?_,
      ?_, ?_, ?_⟩ <;>
      decide
  exact ⟨visible, (no_old_elements_of_fresh (.next .refl first) observed (by decide) visible).1⟩

/-- A version is drawn twice: the member of the set that was overwritten and deleted is
back. A hash is visible beyond its deadline. -/
theorem old_member_comes_back :
    let requests : List Request :=
      [⟨.sadd, ["k", "a"].map ascii, .plain 1⟩, ⟨.set, ["k", "x"].map ascii, .plain 1⟩,
        ⟨.del, ["k"].map ascii, .plain 1⟩, ⟨.sadd, ["k", "b"].map ascii, .plain 1⟩]
    let traced := requests.foldl (Traced.step .plain) .start
    let hashed : List Request :=
      [⟨.hset, ["h", "f", "1"].map ascii, .plain 1⟩, ⟨.pexpire, ["h", "1"].map ascii, .plain 1⟩]
    Request.reply .plain traced.store ⟨.smembers, ["k"].map ascii, .plain 1⟩ =
        .ok (.array [.bulkString (some (ascii "a")), .bulkString (some (ascii "b"))]) ∧
      (ascii "k", .subkey, ascii "a") ∉ traced.written ∧
      (ascii "k", .subkey, ascii "b") ∈ traced.written ∧
      Request.reply .plain (hashed.foldl (Traced.step .plain) .start).store
        ⟨.hget, ["h", "f"].map ascii, .plain 3⟩ = .ok (.bulkString (some (ascii "1"))) := by
  decide

end Runs

end Kvdb
