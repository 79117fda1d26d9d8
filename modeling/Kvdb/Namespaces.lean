import Kvdb.Command.Observation
import Kvdb.Command.Writes

/-!
# Namespaces share the store without meeting

Every physical key of a namespace begins with its header, the length of the
namespace and its bytes. The default namespace writes no header. The first length
byte of a short user key is zero and does its work. No key begins with two
headers, so the commands of one namespace leave the entries of another alone.

`FLUSHDB` and `DBSIZE` work by prefix. In the default namespace their prefix is
empty, and they reach the entries of every namespace.
-/

namespace Kvdb

open Data Semantics Cmd

section Headers

variable {ctx other : CommandContext} {key phys : Bytes} {keys : List Bytes}

/-- The bytes that every physical key of a namespace begins with. -/
def namespaceHeader (tenant : Bytes) : Bytes := UInt8.ofNat tenant.length :: tenant

/-- No physical key begins with the headers of two namespaces. -/
theorem eq_of_namespaceHeader {tenant tenant' : Bytes} (short : tenant.length ≤ 255)
    (short' : tenant'.length ≤ 255) (headed : namespaceHeader tenant <+: phys)
    (headed' : namespaceHeader tenant' <+: phys) : tenant = tenant' := by
  obtain ⟨rest, rfl⟩ := headed
  obtain ⟨rest', same⟩ := headed'
  simp only [namespaceHeader, List.cons_append, List.cons.injEq] at same
  obtain ⟨markers, tails⟩ := same
  have lengths : tenant'.length = tenant.length := by
    have counts := congrArg UInt8.toNat markers
    rw [UInt8.toNat_ofNat', UInt8.toNat_ofNat'] at counts
    omega
  exact (List.append_inj tails lengths).1.symm

theorem u32Bytes_of_lt {n : ℕ} (small : n < 2 ^ 24) : ∃ rest, u32Bytes n = 0 :: rest := by
  refine ⟨beBytes 3 n, ?_⟩
  have zero : n / 256 / 256 / 256 = 0 := by omega
  simp [u32Bytes, beBytes, zero]

/-- A named namespace writes its header, and so does the default one for a short
key. -/
theorem namespaceHeader_metadataKey {tenant : Bytes} (short : tenant = [] → key.length < 2 ^ 24) :
    namespaceHeader tenant <+: metadataKey key tenant := by
  rw [metadataKey_eq]
  split_ifs with unnamed
  · obtain ⟨rest, zero⟩ := u32Bytes_of_lt (short unnamed)
    rw [unnamed, zero]
    exact ⟨rest ++ key, by simp [namespaceHeader]⟩
  · exact List.prefix_append _ _

/-- The physical key is one of a short user key of the namespace, or of one of
its elements. -/
def CommandContext.Owns (ctx : CommandContext) (phys : Bytes) : Prop :=
  ∃ key : Bytes, key.length < 2 ^ 24 ∧ ctx.metaKey key <+: phys

theorem CommandContext.Owns.headed (owned : ctx.Owns phys) :
    namespaceHeader ctx.tenant <+: phys := by
  obtain ⟨key, short, inside⟩ := owned
  exact (namespaceHeader_metadataKey fun _ => short).trans inside

theorem CommandContext.Owns.tenant_eq (owned : ctx.Owns phys) (owned' : other.Owns phys) :
    ctx.tenant = other.tenant :=
  eq_of_namespaceHeader ctx.tenant_le other.tenant_le owned.headed owned'.headed

theorem BatchOp.OnKeys.owns {op : BatchOp} (onKeys : op.OnKeys ctx keys)
    (short : ∀ k ∈ keys, k.length < 2 ^ 24) : ctx.Owns op.key := by
  rcases onKeys with ⟨named, -⟩ | named | ⟨named, -⟩ | ⟨named, -⟩
  · exact ⟨_, short _ named, List.prefix_rfl⟩
  · exact ⟨_, short _ named, List.prefix_rfl⟩
  · exact ⟨_, short _ named, List.prefix_append _ _⟩
  · exact ⟨_, short _ named, List.prefix_append _ _⟩

end Headers

section Layouts

variable {tenant tenant' key key' : Bytes}

/-- The physical keys of two user keys tell their namespaces and the keys apart: they
are the same only if these are, and otherwise neither runs into the other. -/
def KeysApart (tenant tenant' key key' : Bytes) : Prop :=
  (metadataKey key tenant = metadataKey key' tenant' → tenant = tenant' ∧ key = key') ∧
    (metadataKey key tenant ≠ metadataKey key' tenant' →
      ¬ metadataKey key tenant <+: metadataKey key' tenant' ∧
        ¬ metadataKey key' tenant' <+: metadataKey key tenant)

/-- Within a namespace no physical key runs into another. -/
theorem eq_of_metadataKey_isPrefix (short : key.length < 2 ^ 32) (short' : key'.length < 2 ^ 32)
    (inside : metadataKey key tenant <+: metadataKey key' tenant) : key = key' := by
  obtain ⟨rest, same⟩ := inside
  rw [← List.append_nil (metadataKey key' tenant)] at same
  exact (metadataKey_append_inj short short' same).1

/-- Physical keys are apart if one runs into the other only within a namespace. -/
theorem keysApart_of_tenant_eq (short : key.length < 2 ^ 32) (short' : key'.length < 2 ^ 32)
    (comparable : metadataKey key tenant <+: metadataKey key' tenant' ∨
      metadataKey key' tenant' <+: metadataKey key tenant → tenant = tenant') :
    KeysApart tenant tenant' key key' := by
  refine ⟨fun same => ?_, fun different => ⟨fun inside => ?_, fun inside => ?_⟩⟩
  · obtain rfl := comparable (.inl (same ▸ List.prefix_rfl))
    exact ⟨rfl, metadataKey_inj same⟩
  · obtain rfl := comparable (.inl inside)
    exact different (by rw [eq_of_metadataKey_isPrefix short short' inside])
  · obtain rfl := comparable (.inr inside)
    exact different (by rw [eq_of_metadataKey_isPrefix short' short inside])

theorem keysApart_of_headers (tenant_le : tenant.length ≤ 255) (tenant_le' : tenant'.length ≤ 255)
    (short : key.length < 2 ^ 32) (short' : key'.length < 2 ^ 32)
    (small : tenant = [] → key.length < 2 ^ 24) (small' : tenant' = [] → key'.length < 2 ^ 24) :
    KeysApart tenant tenant' key key' := by
  refine keysApart_of_tenant_eq short short' fun comparable => ?_
  have headed := namespaceHeader_metadataKey small
  have headed' := namespaceHeader_metadataKey small'
  rcases comparable with inside | inside
  · exact eq_of_namespaceHeader tenant_le tenant_le' (headed.trans inside) headed'
  · exact eq_of_namespaceHeader tenant_le tenant_le' headed (headed'.trans inside)

/-- The keys of a named namespace run into those of the default one: the header and
the length of a key read as the length of a longer key. -/
theorem exists_long_key (named : tenant ≠ []) (tenant_le : tenant.length ≤ 255) :
    ∃ key : Bytes, key.length < 2 ^ 32 ∧ metadataKey [] tenant <+: metadataKey key [] := by
  set phys := metadataKey [] tenant with phys_eq
  have shape : phys = UInt8.ofNat tenant.length :: (tenant ++ [0, 0, 0, 0]) := by
    rw [phys_eq, metadataKey, if_neg named]
    rfl
  have length : phys.length = tenant.length + 5 := by
    rw [shape]
    simp
  have width : (phys.take 4).length = 4 := by
    rw [List.length_take]
    omega
  -- The first four bytes are the length of the longer key.
  set size := beNat (phys.take 4) with size_eq
  have small : size < 2 ^ 32 := by
    have bound := beNat_lt (phys.take 4)
    rw [width] at bound
    exact bound
  have large : tenant.length + 1 ≤ size := by
    have positive : 0 < tenant.length := List.length_pos_iff.mpr named
    have rest : ((tenant ++ [0, 0, 0, 0]).take 3).length = 3 := by
      rw [List.length_take, List.length_append]
      simp
    have first : size = tenant.length * 256 ^ 3 + beNat ((tenant ++ [0, 0, 0, 0]).take 3) := by
      rw [size_eq, shape, List.take_succ_cons, ← List.singleton_append, beNat_append, rest]
      simp [beNat, Nat.mod_eq_of_lt (show tenant.length < 256 by omega)]
    omega
  refine ⟨phys.drop 4 ++ List.replicate (size - (tenant.length + 1)) 0, ?_, ?_⟩
  · rw [List.length_append, List.length_drop, List.length_replicate, length]
    omega
  · have total : (phys.drop 4 ++ List.replicate (size - (tenant.length + 1)) 0).length = size := by
      rw [List.length_append, List.length_drop, List.length_replicate, length]
      omega
    have encoded : u32Bytes size = phys.take 4 := by
      have digits := beBytes_beNat (phys.take 4)
      rwa [width] at digits
    rw [metadataKey, if_pos rfl, total, encoded, ← List.append_assoc, List.take_append_drop]
    exact List.prefix_append _ _

/-- Physical keys identify their namespace and key for all keys exactly if both
namespaces are named or both are the default one; and for namespaces of both kinds, as
long as the keys of the default one are shorter than 16 MiB. -/
theorem physical_keys_apart_iff (tenant_le : tenant.length ≤ 255)
    (tenant_le' : tenant'.length ≤ 255) :
    ((∀ key key' : Bytes, key.length < 2 ^ 32 → key'.length < 2 ^ 32 →
        KeysApart tenant tenant' key key') ↔ (tenant = [] ↔ tenant' = [])) ∧
      ∀ key key' : Bytes, key.length < 2 ^ 32 → key'.length < 2 ^ 32 →
        (tenant = [] → key.length < 2 ^ 24) → (tenant' = [] → key'.length < 2 ^ 24) →
        KeysApart tenant tenant' key key' := by
  refine ⟨⟨fun apart => ⟨?_, ?_⟩, fun alike key key' short short' => ?_⟩,
    fun _ _ => keysApart_of_headers tenant_le tenant_le'⟩
  · rintro rfl
    by_contra named
    obtain ⟨key, short, inside⟩ := exists_long_key named tenant_le'
    obtain ⟨same, different⟩ := apart key [] short (by decide)
    exact (different fun equal => named (same equal).1.symm).2 inside
  · rintro rfl
    by_contra named
    obtain ⟨key, short, inside⟩ := exists_long_key named tenant_le
    obtain ⟨same, different⟩ := apart [] key (by decide) short
    exact (different fun equal => named (same equal).1).1 inside
  · by_cases unnamed : tenant = []
    · obtain rfl := unnamed
      obtain rfl := alike.mp rfl
      exact keysApart_of_tenant_eq short short' fun _ => rfl
    · exact keysApart_of_headers tenant_le tenant_le' short short' (fun none => absurd none unnamed)
        fun none => absurd (alike.mpr none) unnamed

/-- The key "bk" of the namespace "a" and the key "k" of the namespace "ab". -/
theorem physical_keys_apart_a_ab : KeysApart [0x61] [0x61, 0x62] [0x62, 0x6B] [0x6B] := by
  have apart : ∀ key key' : Bytes, key.length < 2 ^ 32 → key'.length < 2 ^ 32 →
      KeysApart [0x61] [0x61, 0x62] key key' :=
    (physical_keys_apart_iff (by decide) (by decide)).1.mpr (by decide)
  exact apart [0x62, 0x6B] [0x6B] (by decide) (by decide)

/-- A key of the default namespace and a shorter one of the namespace "a" have one
physical key. -/
theorem same_physical_key :
    ∃ key key' : Bytes, key.length < 2 ^ 32 ∧ key'.length < 2 ^ 32 ∧
      metadataKey key [] = metadataKey key' [0x61] := by
  have overlap (n : ℕ) (long : u32Bytes (n + 2) = [1, 0x61, 1, 0x61])
      (short : u32Bytes n = [1, 0x61, 1, 0x5F]) :
      metadataKey (1 :: 0x5F :: List.replicate n 0) [] = metadataKey (List.replicate n 0)
        [0x61] := by
    rw [metadataKey, if_pos rfl, List.length_cons, List.length_cons, List.length_replicate, long,
      metadataKey, if_neg (by decide), List.length_replicate, short]
    rfl
  refine ⟨_, _, ?_, ?_, overlap 0x0161015F (by decide) (by decide)⟩
  · rw [List.length_cons, List.length_cons, List.length_replicate]
    decide
  · rw [List.length_replicate]
    decide

end Layouts

section Requests

variable {ctx other : CommandContext} {phys : Bytes} {cf : ColumnFamily} {store store' : Store}
  {request : Request}

/-- The keys that a request writes are short enough for the headers to tell the
namespaces apart. -/
def Request.ShortKeys (request : Request) : Prop :=
  ∀ key ∈ request.command.writtenKeys request.args, key.length < 2 ^ 24

instance Request.decidableShortKeys : Decidable request.ShortKeys :=
  inferInstanceAs (Decidable (∀ _ ∈ _, _))

/-- A request other than `FLUSHDB` leaves alone what its namespace does not own. -/
theorem Request.get_after_of_not_owns (short : request.ShortKeys)
    (kept : request.command ≠ .flushdb) (apart : ¬ ctx.Owns phys) :
    (request.after ctx store).get cf phys = store.get cf phys := by
  rw [Request.after_eq]
  refine (Command.footprint ctx kept request.args).invariant
    (fun before batch onKeys (held : before.get cf phys = store.get cf phys) => ?_) rfl
  rw [before.get_write_of_forall_ne, held]
  rintro op inside ⟨-, same⟩
  exact apart (same ▸ (onKeys op inside).owns short)

theorem Request.get_after_flushdb (flush : request.command = .flushdb) :
    (request.after ctx store).get cf phys =
      if namespacePrefix ctx <+: phys then none else store.get cf phys := by
  obtain ⟨command, args, env⟩ := request
  subst flush
  rw [Request.after_eq]
  show (exec env (flushdb ctx args) store).2.get cf phys = _
  rw [exec_flushdb]
  cases cf <;> simp [Store.get_without]

/-- Everything in the store belongs to the namespace. -/
def Store.Owned (ctx : CommandContext) (store : Store) : Prop :=
  ∀ cf phys value, store.get cf phys = some value → ctx.Owns phys

theorem Store.owned_empty : Store.empty.Owned ctx := by
  intro cf phys value stored
  cases cf <;> cases stored

theorem Store.Owned.after (owned : store.Owned ctx) (short : request.ShortKeys) :
    (request.after ctx store).Owned ctx := by
  intro cf phys value stored
  by_contra apart
  by_cases flush : request.command = .flushdb
  · rw [Request.get_after_flushdb flush] at stored
    split_ifs at stored
    exact apart (owned cf phys value stored)
  · rw [Request.get_after_of_not_owns short flush apart] at stored
    exact apart (owned cf phys value stored)

/-- Without legacy entries the metadata of a short key is in its own entry. -/
theorem Store.Owned.lookupMeta (owned : store.Owned ctx) {key : Bytes}
    (short : key.length < 2 ^ 24) :
    ctx.lookupMeta store key = store.get .metadata (ctx.metaKey key) := by
  unfold CommandContext.lookupMeta
  split_ifs with unnamed
  · exact Option.or_none
  · have none : store.get .metadata (metadataKey key []) = none := by
      refine Option.eq_none_iff_forall_ne_some.mpr fun value stored => unnamed ?_
      obtain ⟨rest, zero⟩ := u32Bytes_of_lt short
      have headed : namespaceHeader [] <+: metadataKey key [] := by
        rw [metadataKey_eq, if_pos rfl, zero]
        exact ⟨rest ++ key, by simp [namespaceHeader]⟩
      exact eq_of_namespaceHeader ctx.tenant_le (Nat.zero_le _)
        (owned .metadata _ value stored).headed headed
    rw [none, Option.or_none]

/-- All metadata values are under short keys of the namespace. -/
def Store.Keyed (ctx : CommandContext) (store : Store) : Prop :=
  ∀ phys value, store.get .metadata phys = some value →
    ∃ key : Bytes, key.length < 2 ^ 24 ∧ phys = ctx.metaKey key

theorem Store.keyed_empty : Store.empty.Keyed ctx := nofun

/-- Metadata values stay under metadata keys of the namespace, of such user keys as the
request writes. -/
theorem Store.metaKeys_after {allowed : Bytes → Prop}
    (keyed : ∀ phys value, store.get .metadata phys = some value →
      ∃ key, allowed key ∧ phys = ctx.metaKey key)
    (written : ∀ key ∈ request.command.writtenKeys request.args, allowed key) :
    ∀ phys value, (request.after ctx store).get .metadata phys = some value →
      ∃ key, allowed key ∧ phys = ctx.metaKey key := by
  by_cases flush : request.command = .flushdb
  · intro phys value stored
    rw [Request.get_after_flushdb flush] at stored
    split_ifs at stored
    exact keyed phys value stored
  · rw [Request.after_eq]
    refine (Command.footprint ctx flush request.args).invariant
      (fun before batch onKeys (held : ∀ phys value, before.get .metadata phys = some value →
        ∃ key, allowed key ∧ phys = ctx.metaKey key) => ?_) keyed
    intro phys value stored
    rcases before.get_write_cases batch .metadata phys with ⟨-, same⟩ | ⟨new, inside, -⟩ | ⟨-, gone⟩
    · exact held phys value (same.symm.trans stored)
    · have op := onKeys _ inside
      cases op with
      | putRecord named => exact ⟨_, written _ named, rfl⟩
      | putElement named element => exact absurd rfl element
    · exact absurd (gone.symm.trans stored) nofun

theorem Store.Keyed.after (keyed : store.Keyed ctx) (short : request.ShortKeys) :
    (request.after ctx store).Keyed ctx :=
  Store.metaKeys_after keyed short

/-- Some command of the namespace put a value at the physical key. -/
def CommandContext.Wrote (ctx : CommandContext) (cf : ColumnFamily) (phys : Bytes) : Prop :=
  ∃ (request : Request) (before : Store) (value : Bytes), request.ShortKeys ∧
    (request.after ctx before).get cf phys = some value ∧ before.get cf phys ≠ some value

theorem CommandContext.Wrote.owns (wrote : ctx.Wrote cf phys) : ctx.Owns phys := by
  obtain ⟨request, before, value, short, now, earlier⟩ := wrote
  by_contra apart
  by_cases flush : request.command = .flushdb
  · rw [Request.get_after_flushdb flush] at now
    split_ifs at now
    exact earlier now
  · rw [Request.get_after_of_not_owns short flush apart] at now
    exact earlier now

/-- The header is the prefix that a named namespace's tenant-wide commands work by. -/
theorem namespacePrefix_of_named (named : ctx.tenant ≠ []) :
    namespacePrefix ctx = namespaceHeader ctx.tenant := by
  rw [namespacePrefix, if_neg named, namespaceHeader]

/-- The condition on a request: its keys are short, and it is no tenant-wide
command of the default namespace. -/
structure Request.InNamespace (ctx : CommandContext) (request : Request) : Prop where
  short : request.ShortKeys
  named : request.command = .flushdb ∨ request.command = .dbsize → ctx.tenant ≠ []

/-- A request leaves alone what another namespace owns. -/
theorem Request.InNamespace.get_after (inside : request.InNamespace ctx)
    (distinct : ctx.tenant ≠ other.tenant) (owned : other.Owns phys) :
    (request.after ctx store).get cf phys = store.get cf phys := by
  by_cases flush : request.command = .flushdb
  · have apart : ¬ namespacePrefix ctx <+: phys := by
      rw [namespacePrefix_of_named (inside.named (.inl flush))]
      intro headed
      exact distinct (eq_of_namespaceHeader ctx.tenant_le other.tenant_le headed owned.headed)
    rw [Request.get_after_flushdb flush, if_neg apart]
  · exact Request.get_after_of_not_owns inside.short flush fun owned' =>
      distinct (owned'.tenant_eq owned)

end Requests

section Counting

variable {ctx : CommandContext} {env : Env} {store store' : Store}

theorem Store.behind_congr {cf : ColumnFamily} {pre : Bytes}
    (same : ∀ phys, pre <+: phys → store'.get cf phys = store.get cf phys) :
    store'.behind cf pre = store.behind cf pre := by
  refine eq_of_ordered (store'.behind_ordered cf pre) (store.behind_ordered cf pre) ?_
  rintro ⟨phys, value⟩
  rw [Store.mem_behind, Store.mem_behind]
  constructor
  · rintro ⟨stored, inside⟩
    exact ⟨same phys inside ▸ stored, inside⟩
  · rintro ⟨stored, inside⟩
    exact ⟨(same phys inside).trans stored, inside⟩

/-- `DBSIZE` of a named namespace sees only what is behind its header. -/
theorem same_dbsize (named : ctx.tenant ≠ [])
    (same : store'.behind .metadata (namespaceHeader ctx.tenant) =
      store.behind .metadata (namespaceHeader ctx.tenant)) (args : List Bytes) :
    Same env env store store' (Cmd.dbsize ctx args) := by
  have behind : Observer.SeesBehind (.pair env env store store') .metadata
      (namespacePrefix ctx) := by
    rw [namespacePrefix_of_named named]
    exact ⟨List.cons_ne_nil _ _, same⟩
  have clock : Observer.Shares (fun env env' _ _ => env' = env) (.pair env env store store') := rfl
  exact (views_dbsize clock behind args).same

end Counting

section Isolation

variable {ctx other : CommandContext} {requests : List Request} {start store : Store}

/-- In a run of a namespace's requests that meet the condition, no entry that
another namespace wrote changes, and `DBSIZE` does not see those entries. -/
theorem namespaces_isolated (distinct : ctx.tenant ≠ other.tenant)
    (run : Runs ctx (fun _ request => request.InNamespace ctx) start requests store) :
    (∀ cf phys, other.Wrote cf phys → store.get cf phys = start.get cf phys) ∧
      ∀ args env, Request.InNamespace ctx ⟨.dbsize, args, env⟩ → ∀ store' : Store,
        (∀ phys, ¬ other.Wrote .metadata phys →
          store'.get .metadata phys = store.get .metadata phys) →
        Request.reply ctx store' ⟨.dbsize, args, env⟩ =
          Request.reply ctx store ⟨.dbsize, args, env⟩ := by
  constructor
  · intro cf phys wrote
    refine run.invariant_of_steps (fun _ reached => reached.get cf phys = start.get cf phys) rfl ?_
    intro _ before request _ inside held
    exact (inside.get_after distinct wrote.owns).trans held
  · intro args env inside store' same
    have named : ctx.tenant ≠ [] := inside.named (.inr rfl)
    refine Same.reply (same_dbsize named (Store.behind_congr fun phys headed => same phys ?_) args)
    intro wrote
    exact distinct (eq_of_namespaceHeader ctx.tenant_le other.tenant_le headed wrote.owns.headed)

def CommandContext.named (tenant : Bytes) (short : tenant.length ≤ 255) : CommandContext :=
  { CommandContext.plain with tenant := tenant, tenant_le := short }

theorem namespaces_isolated_of_flushdb :
    let tenant : CommandContext := .named (ascii "a") (by decide)
    let set : Request := ⟨.set, [ascii "k", ascii "1"], .plain 1⟩
    let flush : Request := ⟨.flushdb, [], .plain 2⟩
    let phys := CommandContext.plain.metaKey (ascii "k")
    (flush.after tenant (set.after .plain .empty)).get .metadata phys =
      (set.after .plain .empty).get .metadata phys := by
  intro tenant set flush phys
  have inside : flush.InNamespace tenant := ⟨by decide, fun _ => by decide⟩
  have wrote : CommandContext.plain.Wrote .metadata phys :=
    ⟨set, .empty, encodeString stringFlags 0 (ascii "1"), by decide, by decide, by decide⟩
  exact (namespaces_isolated (by decide) (.single inside)).1 _ _ wrote

/-- The default namespace counts the key of another one, and deletes it. -/
theorem default_namespace_reaches_others :
    let tenant : CommandContext := .named (ascii "a") (by decide)
    let set : Request := ⟨.set, [ascii "k", ascii "1"], .plain 1⟩
    let stored := set.after tenant .empty
    Request.reply .plain .empty ⟨.dbsize, [], .plain 2⟩ = .ok (.integer 0) ∧
      Request.reply .plain stored ⟨.dbsize, [], .plain 2⟩ = .ok (.integer 1) ∧
      Request.reply tenant stored ⟨.get, [ascii "k"], .plain 3⟩ =
        .ok (.bulkString (some (ascii "1"))) ∧
      Request.reply tenant (Request.after .plain stored ⟨.flushdb, [], .plain 2⟩)
        ⟨.get, [ascii "k"], .plain 3⟩ = .ok (.bulkString none) := by
  decide

end Isolation

end Kvdb
