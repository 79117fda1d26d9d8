import Kvdb.Data.OrderedMap
import Kvdb.Encoding
import Kvdb.Semantics.Program

/-!
# The storage engine

The engine keeps its column families as ordered maps. A command reaches them
through point reads, iterators over a snapshot, and atomic write batches. Other
requests read the system clock, draw randomness, fix the iteration order of a
hash table, and take or release a lock of the key-lock pool.

`Prog` is the type of programs over these requests. A paging loop asks for the
size of its family first, which bounds the rounds it can take while nobody else
writes. A loop that outlives the bound is reported as one that never ends.
-/

namespace Kvdb

open Data Semantics

section Families

inductive ColumnFamily where
  | metadata
  | subkey
  | zsetScore
deriving DecidableEq, Repr

abbrev Entry := Bytes × Bytes

/-- The contents of all column families. -/
@[ext] structure Store where
  family : ColumnFamily → OrderedMap Bytes Bytes

/-- One operation of a write batch. -/
inductive BatchOp where
  | put (cf : ColumnFamily) (key value : Bytes)
  | delete (cf : ColumnFamily) (key : Bytes)
deriving DecidableEq, Repr

/-- Operations applied together, in order. -/
abbrev WriteBatch := List BatchOp

/-- The family an operation writes. -/
def BatchOp.cf : BatchOp → ColumnFamily
  | put cf _ _ => cf
  | delete cf _ => cf

/-- The key an operation writes. -/
def BatchOp.key : BatchOp → Bytes
  | put _ key _ => key
  | delete _ key => key

namespace Store

/-- The store of a new database. -/
def empty : Store := ⟨fun _ => .empty⟩

/-- A point read. -/
def get (store : Store) (cf : ColumnFamily) (key : Bytes) : Option Bytes :=
  (store.family cf).get key

def apply (store : Store) : BatchOp → Store
  | .put cf key value => ⟨Function.update store.family cf ((store.family cf).insert key value)⟩
  | .delete cf key => ⟨Function.update store.family cf ((store.family cf).erase key)⟩

def write (store : Store) (batch : WriteBatch) : Store := batch.foldl apply store

variable (store : Store)

/-- Stores with the same point reads are equal. -/
theorem ext_get {store other : Store} (same : ∀ cf key, store.get cf key = other.get cf key) :
    store = other :=
  Store.ext (funext fun cf => OrderedMap.ext_get (same cf))

@[simp] theorem get_empty (cf : ColumnFamily) (key : Bytes) : empty.get cf key = none := rfl

@[simp] theorem family_apply_put (cf : ColumnFamily) (key value : Bytes) :
    (store.apply (.put cf key value)).family cf = (store.family cf).insert key value :=
  Function.update_self ..

@[simp] theorem family_apply_delete (cf : ColumnFamily) (key : Bytes) :
    (store.apply (.delete cf key)).family cf = (store.family cf).erase key :=
  Function.update_self ..

theorem get_apply_put (cf : ColumnFamily) (key value : Bytes) (cf' : ColumnFamily) (key' : Bytes) :
    (store.apply (.put cf key value)).get cf' key' =
      if cf' = cf ∧ key' = key then some value else store.get cf' key' := by
  by_cases family : cf' = cf
  · subst family
    simp [apply, get, OrderedMap.get_insert]
  · simp [apply, get, family]

theorem get_apply_delete (cf : ColumnFamily) (key : Bytes) (cf' : ColumnFamily) (key' : Bytes) :
    (store.apply (.delete cf key)).get cf' key' =
      if cf' = cf ∧ key' = key then none else store.get cf' key' := by
  by_cases family : cf' = cf
  · subst family
    simp [apply, get, OrderedMap.get_erase]
  · simp [apply, get, family]

/-- An operation changes only the entry it names. -/
theorem get_apply_of_ne {op : BatchOp} {cf : ColumnFamily} {key : Bytes}
    (elsewhere : ¬ (cf = op.cf ∧ key = op.key)) :
    (store.apply op).get cf key = store.get cf key := by
  cases op with
  | put cf' key' value => exact (get_apply_put ..).trans (if_neg elsewhere)
  | delete cf' key' => exact (get_apply_delete ..).trans (if_neg elsewhere)

@[simp] theorem write_nil : store.write [] = store := rfl

@[simp] theorem write_cons (op : BatchOp) (batch : WriteBatch) :
    store.write (op :: batch) = (store.apply op).write batch := rfl

theorem write_append (first second : WriteBatch) :
    store.write (first ++ second) = (store.write first).write second :=
  List.foldl_append

theorem write_singleton (op : BatchOp) : store.write [op] = store.apply op := rfl

/-- What is stored after one more deletion was stored before it. -/
theorem get_write_delete {store : Store} {batch : WriteBatch} {cf cf' : ColumnFamily}
    {key key' value : Bytes}
    (found : (store.write (batch ++ [.delete cf key])).get cf' key' = some value) :
    (store.write batch).get cf' key' = some value := by
  rw [write_append, write_singleton, get_apply_delete] at found
  split_ifs at found
  exact found

/-- A batch leaves alone every entry that none of its operations names. -/
theorem get_write_of_forall_ne {batch : WriteBatch} {cf : ColumnFamily} {key : Bytes}
    (elsewhere : ∀ op ∈ batch, ¬ (cf = op.cf ∧ key = op.key)) :
    (store.write batch).get cf key = store.get cf key := by
  induction batch generalizing store with
  | nil => rfl
  | cons op batch ih =>
    rw [write_cons, ih _ fun other member => elsewhere other (List.mem_cons_of_mem _ member),
      get_apply_of_ne _ (elsewhere op List.mem_cons_self)]

/-- What a batch can do to an entry. -/
theorem get_write_cases (batch : WriteBatch) (cf : ColumnFamily) (key : Bytes) :
    ((∀ op ∈ batch, ¬ (cf = op.cf ∧ key = op.key)) ∧
      (store.write batch).get cf key = store.get cf key) ∨
    (∃ value, .put cf key value ∈ batch ∧ (store.write batch).get cf key = some value) ∨
    (.delete cf key ∈ batch ∧ (store.write batch).get cf key = none) := by
  induction batch generalizing store with
  | nil => exact .inl ⟨nofun, rfl⟩
  | cons op batch ih =>
    rw [write_cons]
    rcases ih (store.apply op) with ⟨elsewhere, same⟩ | ⟨value, inside, put⟩ | ⟨inside, gone⟩
    · -- Nothing comes later, so the first operation decides.
      by_cases here : cf = op.cf ∧ key = op.key
      · obtain ⟨rfl, rfl⟩ := here
        cases op with
        | put cf key value =>
          refine .inr (.inl ⟨value, List.mem_cons_self, ?_⟩)
          exact same.trans ((get_apply_put ..).trans (if_pos ⟨rfl, rfl⟩))
        | delete cf key =>
          refine .inr (.inr ⟨List.mem_cons_self, ?_⟩)
          exact same.trans ((get_apply_delete ..).trans (if_pos ⟨rfl, rfl⟩))
      · exact .inl ⟨List.forall_mem_cons.mpr ⟨here, elsewhere⟩, same.trans (get_apply_of_ne _ here)⟩
    · exact .inr (.inl ⟨value, List.mem_cons_of_mem _ inside, put⟩)
    · exact .inr (.inr ⟨List.mem_cons_of_mem _ inside, gone⟩)

end Store

end Families

section Effects

/-- Where an iterator starts and which way it goes. -/
inductive IteratorMode where
  | forward (seek : Bytes)
  | reverse (seek : Bytes)
deriving DecidableEq, Repr

/-- The requests of a command. -/
inductive Effect where
  | get (cf : ColumnFamily) (key : Bytes)
  | iterate (cf : ColumnFamily) (mode : IteratorMode)
  | size (cf : ColumnFamily)
  | write (batch : WriteBatch)
  | now
  | random
  | hashOrder (keys : List Bytes)
  | lock (shard : ℕ)
  | unlock (shard : ℕ)
deriving DecidableEq

def Effect.Reply : Effect → Type
  | get _ _ => Option Bytes
  | iterate _ _ => List Entry
  | size _ => ℕ
  | write _ => Unit
  | now => ℕ
  | random => UInt16
  | hashOrder _ => List Bytes
  | lock _ => Unit
  | unlock _ => Unit

/-- The signature of command programs. -/
def effects : Signature := ⟨Effect, Effect.Reply⟩

instance effects.decidableEqOp : DecidableEq effects.Op := inferInstanceAs (DecidableEq Effect)

abbrev Prog (α : Type) := Program effects Fault α

/-- What a command finds outside the store while it runs: the clock in
milliseconds since the epoch, sixteen random bits, and the order in which the
process's hash tables list their keys. -/
structure Env where
  now : ℕ
  random : UInt16
  hashOrder : List Bytes → List Bytes
  hashOrder_perm : ∀ keys, (hashOrder keys).Perm keys

/-- An environment with a given clock. -/
def Env.plain (now : ℕ) : Env := ⟨now, 0, id, fun keys => .refl keys⟩

/-- The items of an iterator over a snapshot. -/
def Store.iterate (store : Store) (cf : ColumnFamily) : IteratorMode → List Entry
  | .forward seek => (store.family cf).forward seek
  | .reverse seek => (store.family cf).backward seek

/-- Answer a request on its own, with no other command running. -/
def Env.handle (env : Env) : Program.Handler effects Store
  | .get cf key, store => (store.get cf key, store)
  | .iterate cf mode, store => (store.iterate cf mode, store)
  | .size cf, store => ((store.family cf).entries.length, store)
  | .write batch, store => ((), store.write batch)
  | .now, store => (env.now, store)
  | .random, store => (env.random, store)
  | .hashOrder keys, store => (env.hashOrder keys, store)
  | .lock _, store => ((), store)
  | .unlock _, store => ((), store)

/-- Run a command program from start to end. -/
def exec {α : Type} (env : Env) (program : Prog α) (store : Store) : Except Fault α × Store :=
  Program.run env.handle program store

def raise {α : Type} (cause : KvdbError) : Prog α := .fail (.error cause)

namespace Storage

/-- Read an entry. -/
def get (cf : ColumnFamily) (key : Bytes) : Prog (Option Bytes) :=
  Program.perform (S := effects) (.get cf key)

/-- Apply a batch atomically. -/
def write (batch : WriteBatch) : Prog Unit := Program.perform (S := effects) (.write batch)

def put (cf : ColumnFamily) (key value : Bytes) : Prog Unit := write [.put cf key value]

def delete (cf : ColumnFamily) (key : Bytes) : Prog Unit := write [.delete cf key]

def iterate (cf : ColumnFamily) (mode : IteratorMode) : Prog (List Entry) :=
  Program.perform (S := effects) (.iterate cf mode)

/-- The number of entries of a family. -/
def familySize (cf : ColumnFamily) : Prog ℕ := Program.perform (S := effects) (.size cf)

end Storage

/-- The system clock in milliseconds since the epoch. -/
def systemTime : Prog ℕ := Program.perform (S := effects) .now

/-- The clock as commands compare it with deadlines. -/
def nowMs : Prog Int64 := do
  let millis ← systemTime
  return Int64.ofNat millis

/-- The order in which a hash table with the given keys lists them. -/
def hashOrder (keys : List Bytes) : Prog (List Bytes) :=
  Program.perform (S := effects) (.hashOrder keys)

/-- A new version: the clock above sixteen random bits. -/
def generateVersion : Prog UInt64 := do
  let millis ← systemTime
  let rnd ← (Program.perform (S := effects) .random : Prog UInt16)
  return (UInt64.ofNat millis <<< 16) ||| (rnd.toUInt64 &&& 0xFFFF)

section Exec

variable {α β : Type} {env : Env} {program : Prog α} {rest : α → Prog β} {store after : Store}

/-- The clock a command compares deadlines with. -/
def Env.nowMs (env : Env) : Int64 := Int64.ofNat env.now

/-- The version a command draws. -/
def Env.version (env : Env) : UInt64 :=
  (UInt64.ofNat env.now <<< 16) ||| (env.random.toUInt64 &&& 0xFFFF)

theorem exec_bind : exec env (program >>= rest) store =
    match exec env program store with
    | (.ok value, middle) => exec env (rest value) middle
    | (.error fault, middle) => (.error fault, middle) := by
  unfold exec
  rw [Program.run_bind]
  rcases Program.run env.handle program store with ⟨_ | _, _⟩ <;> rfl

theorem exec_bind_ok {value : α} (first : exec env program store = (.ok value, after)) :
    exec env (program >>= rest) store = exec env (rest value) after :=
  Program.run_bind_ok first

theorem exec_bind_error {fault : Fault} (first : exec env program store = (.error fault, after)) :
    exec env (program >>= rest) store = (.error fault, after) :=
  Program.run_bind_error first

/-- A sequence that returns has returned from both parts. -/
theorem exec_bind_eq_ok {result : β}
    (ran : exec env (program >>= rest) store = (.ok result, after)) :
    ∃ value middle, exec env program store = (.ok value, middle) ∧
      exec env (rest value) middle = (.ok result, after) := by
  rw [exec_bind] at ran
  rcases first : exec env program store with ⟨fault | value, middle⟩
  · rw [first] at ran
    cases ran
  · rw [first] at ran
    exact ⟨value, middle, rfl, ran⟩

@[simp] theorem exec_pure (value : α) :
    exec env (pure value : Prog α) store = (.ok value, store) := rfl

@[simp] theorem exec_fail (fault : Fault) :
    exec env (.fail fault : Prog α) store = (.error fault, store) := rfl

@[simp] theorem exec_raise (cause : KvdbError) :
    exec env (raise cause : Prog α) store = (.error (.error cause), store) := rfl

@[simp] theorem exec_ofExcept (result : Except Fault α) :
    exec env (.ofExcept result : Prog α) store = (result, store) :=
  Program.run_ofExcept result

@[simp] theorem exec_pure_bind (value : α) :
    exec env (pure value >>= rest) store = exec env (rest value) store := rfl

@[simp] theorem exec_fail_bind (fault : Fault) :
    exec env ((.fail fault : Prog α) >>= rest) store = (.error fault, store) := rfl

@[simp] theorem exec_ofExcept_ok_bind (value : α) :
    exec env ((.ofExcept (.ok value) : Prog α) >>= rest) store = exec env (rest value) store := rfl

@[simp] theorem exec_ofExcept_error_bind (fault : Fault) :
    exec env ((.ofExcept (.error fault) : Prog α) >>= rest) store = (.error fault, store) := rfl

@[simp] theorem exec_get_bind (cf : ColumnFamily) (key : Bytes) (next : Option Bytes → Prog β) :
    exec env (Storage.get cf key >>= next) store = exec env (next (store.get cf key)) store := rfl

@[simp] theorem exec_write_bind (batch : WriteBatch) (next : Unit → Prog β) :
    exec env (Storage.write batch >>= next) store = exec env (next ()) (store.write batch) := rfl

@[simp] theorem exec_delete_bind (cf : ColumnFamily) (key : Bytes) (next : Unit → Prog β) :
    exec env (Storage.delete cf key >>= next) store =
      exec env (next ()) (store.apply (.delete cf key)) := rfl

@[simp] theorem exec_iterate_bind (cf : ColumnFamily) (mode : IteratorMode)
    (next : List Entry → Prog β) :
    exec env (Storage.iterate cf mode >>= next) store = exec env (next (store.iterate cf mode))
      store := rfl

@[simp] theorem exec_familySize_bind (cf : ColumnFamily) (next : ℕ → Prog β) :
    exec env (Storage.familySize cf >>= next) store =
      exec env (next (store.family cf).entries.length) store := rfl

@[simp] theorem exec_nowMs_bind (next : Int64 → Prog β) :
    exec env (nowMs >>= next) store = exec env (next env.nowMs) store := rfl

@[simp] theorem exec_generateVersion_bind (next : UInt64 → Prog β) :
    exec env (generateVersion >>= next) store = exec env (next env.version) store := rfl

end Exec

section ReadOnly

/-- The program makes no write, whatever it reads. -/
def ReadOnly {α : Type} (program : Prog α) : Prop :=
  program.Respects (fun op => ∀ batch, op ≠ Effect.write batch) fun _ => True

variable {α β : Type} {program : Prog α} {rest : α → Prog β} {env : Env} {store : Store}

theorem readOnly_pure (value : α) : ReadOnly (pure value : Prog α) := trivial

theorem readOnly_fail (fault : Fault) : ReadOnly (.fail fault : Prog α) := trivial

theorem readOnly_raise (cause : KvdbError) : ReadOnly (raise cause : Prog α) := trivial

theorem readOnly_ofExcept (result : Except Fault α) : ReadOnly (.ofExcept result : Prog α) :=
  Program.respects_ofExcept fun _ _ => trivial

theorem readOnly_perform {op : Effect} (reads : ∀ batch, op ≠ .write batch) :
    ReadOnly (Program.perform (S := effects) op) :=
  Program.respects_perform reads fun _ => trivial

theorem readOnly_get (cf : ColumnFamily) (key : Bytes) : ReadOnly (Storage.get cf key) :=
  readOnly_perform fun _ => nofun

theorem readOnly_iterate (cf : ColumnFamily) (mode : IteratorMode) :
    ReadOnly (Storage.iterate cf mode) :=
  readOnly_perform fun _ => nofun

theorem readOnly_familySize (cf : ColumnFamily) : ReadOnly (Storage.familySize cf) :=
  readOnly_perform fun _ => nofun

theorem readOnly_systemTime : ReadOnly systemTime := readOnly_perform fun _ => nofun

theorem ReadOnly.bind (first : ReadOnly program) (next : ∀ value, ReadOnly (rest value)) :
    ReadOnly (program >>= rest) :=
  Program.Respects.bind first fun value _ => next value

theorem ReadOnly.ite {condition : Prop} [Decidable condition] {program other : Prog α}
    (first : ReadOnly program) (second : ReadOnly other) :
    ReadOnly (if condition then program else other) := by
  split_ifs
  · exact first
  · exact second

theorem readOnly_nowMs : ReadOnly nowMs := readOnly_systemTime.bind fun _ => readOnly_pure _

theorem readOnly_generateVersion : ReadOnly generateVersion := by
  have random : ReadOnly (Program.perform (S := effects) .random) :=
    readOnly_perform fun _ => nofun
  exact readOnly_systemTime.bind fun _ => random.bind fun _ => readOnly_pure _

/-- A program that makes no write leaves the store as it is. -/
theorem ReadOnly.exec_state (readOnly : ReadOnly program) : (exec env program store).2 = store := by
  have idle : ∀ op : Effect, (∀ batch, op ≠ .write batch) → ∀ state, state = store →
      (env.handle op state).2 = store := by
    rintro op reads _ rfl
    cases op with
    | write batch => exact absurd rfl (reads batch)
    | _ => rfl
  exact Program.Respects.run_invariant readOnly idle rfl

/-- Reading first: the rest runs on the same store. -/
theorem ReadOnly.ends_bind {returns : β → Store → Prop} {fails : Fault → Store → Prop}
    (readOnly : ReadOnly program) (failed : ∀ fault, fails fault store)
    (next : ∀ value, exec env program store = (.ok value, store) →
      Program.Ends env.handle (rest value) store returns fails) :
    Program.Ends env.handle (program >>= rest) store returns fails := by
  have unchanged : (exec env program store).2 = store := readOnly.exec_state
  refine Program.Ends.bind ?_
  cases known : exec env program store with
  | mk result middle =>
    obtain rfl : middle = store := by rw [← unchanged, known]
    exact Program.Ends.of_run known (fun value same => next value (by rw [known, same]))
      fun fault _ => failed fault

end ReadOnly

section Writes

variable {α β : Type} {program : Prog α} {rest : α → Prog β} {env : Env} {store after : Store}

/-- What a request of a command writes. -/
def writtenBy : effects.Op → WriteBatch
  | .write batch => batch
  | _ => []

/-- Everything that a command writes, in order. -/
def writes (env : Env) (program : Prog α) (store : Store) : WriteBatch :=
  (program.performed env.handle store).flatMap writtenBy

/-- A command changes the store by what it writes. -/
theorem exec_eq_write : (exec env program store).2 = store.write (writes env program store) := by
  unfold exec writes
  induction program generalizing store with
  | done value => rfl
  | fail fault => rfl
  | request op next ih =>
    rw [Program.run, Program.performed, List.flatMap_cons, Store.write_append, ih]
    cases op <;> rfl

theorem writes_bind_ok {value : α} (first : exec env program store = (.ok value, after)) :
    writes env (program >>= rest) store = writes env program store ++ writes env
      (rest value) after := by
  rw [writes, Program.performed_bind_ok first, List.flatMap_append]
  rfl

theorem writes_bind_error {fault : Fault} (first : exec env program store = (.error fault, after)) :
    writes env (program >>= rest) store = writes env program store := by
  rw [writes, Program.performed_bind_error first]
  rfl

theorem ReadOnly.writes_eq_nil (readOnly : ReadOnly program) : writes env program store = [] := by
  refine List.flatMap_eq_nil_iff.mpr fun op inside => ?_
  have reads := Program.Respects.performed readOnly inside
  cases op with
  | write batch => exact absurd rfl (reads batch)
  | _ => rfl

end Writes

end Effects

section Scans

def startsWith (key pre : Bytes) : Bool := pre.isPrefixOf key

theorem startsWith_iff {key pre : Bytes} : startsWith key pre = true ↔ pre <+: key :=
  List.isPrefixOf_iff_prefix

/-- All entries behind a prefix, up to the first key outside it. -/
def prefixScan (cf : ColumnFamily) (pre : Bytes) : Prog (List Entry) := do
  let items ← Storage.iterate cf (.forward pre)
  return items.takeWhile fun e => startsWith e.1 pre

/-- A page of entries and the key to resume after. -/
abbrev Page := List Entry × Option Bytes

/-- The local variables of a page scan. -/
structure PageState where
  result : List Entry
  lastKey : Option Bytes
  first : Bool
  hitBoundary : Bool

/-- The loop of a page scan, with what is left of the iterator. -/
def pageLoop (pre startKey : Bytes) (limit : ℕ) :
    PageState → List Entry → PageState × List Entry
  | state, [] => (state, [])
  | state, (k, v) :: rest =>
    -- The start key itself was the last entry of the page before.
    if state.first ∧ k = startKey then pageLoop pre startKey limit { state with first :=
  false } rest
    else if ¬ startsWith k pre then ({ state with first := false, hitBoundary := true }, rest)
    else
      let state :=
        { state with first := false, lastKey := some k, result := state.result ++ [(k, v)] }
      if limit ≤ state.result.length then (state, rest)
      else pageLoop pre startKey limit state rest

/-- The end of a page scan. A full page looks one entry ahead. -/
def pageResult (pre : Bytes) (limit : ℕ) : PageState × List Entry → Page
  | (state, rest) =>
    let nextKey :=
      if state.hitBoundary ∨ state.result.length < limit then none
      else
        match rest with
        | [] => none
        | (k, _) :: _ => if startsWith k pre then state.lastKey else none
    (state.result, nextKey)

def scanPage (pre startKey : Bytes) (limit : ℕ) (first : Bool) (items : List Entry) : Page :=
  pageResult pre limit (pageLoop pre startKey limit ⟨[], none, first, false⟩ items)

/-- The largest page whose buffer can be requested: a page entry is two
vectors of three words each, and a request may not exceed `isize::MAX` bytes. -/
def maxPageLimit : ℕ := (2 ^ 63 - 1) / 48

/-- Reserve the buffer of a page, which panics on a request that is too large. -/
def reservePage (limit : ℕ) : Prog Unit :=
  if limit ≤ maxPageLimit then pure () else .fail .panic

/-- A page of the entries behind a prefix, resuming after a key. An empty start
key stands for the beginning. -/
def prefixScanPage (cf : ColumnFamily) (pre startKey : Bytes) (limit : ℕ) : Prog Page := do
  let items ← Storage.iterate cf (.forward (if startKey = [] then pre else startKey))
  reservePage limit
  return scanPage pre startKey limit (startKey ≠ []) items

/-- A page of the entries behind a prefix in descending order, resuming before
a key. An empty start key stands for the end, sought at the prefix followed by
eight `0xFF` bytes. -/
def prefixScanPageReverse (cf : ColumnFamily) (pre startKey : Bytes) (limit : ℕ) : Prog Page := do
  let items ← Storage.iterate cf
    (.reverse (if startKey = [] then pre ++ List.replicate 8 0xFF else startKey))
  reservePage limit
  return scanPage pre startKey limit true items

/-- Apply a loop body to the items of a page. -/
def forEach {α β : Type} (body : β → α → Prog (ForInStep β)) : List α → β → Prog (ForInStep β)
  | [], acc => return .yield acc
  | item :: items, acc => do
    match ← body acc item with
    | .done acc => return .done acc
    | .yield acc => forEach body items acc

/-- The paging loop of a command: fetch a page, stop at an empty one, run the
body over it, resume after its last key. -/
def pagedLoop {α β : Type} (page : Bytes → Prog (List α × Option Bytes))
    (body : β → α → Prog (ForInStep β)) : ℕ → Bytes → β → Prog β
  | 0, _, _ => .fail .hang
  | rounds + 1, startKey, acc => do
    let (items, nextKey) ← page startKey
    match items with
    | [] => return acc
    | item :: items =>
      match ← forEach body (item :: items) acc with
      | .done acc => return acc
      | .yield acc =>
        match nextKey with
        | some key => pagedLoop page body rounds key acc
        | none => return acc

/-- A paging loop over a family, from a given start key. -/
def forEachPageFrom {α β : Type} (cf : ColumnFamily) (startKey : Bytes)
    (page : Bytes → Prog (List α × Option Bytes)) (acc : β) (body : β → α → Prog (ForInStep β)) :
    Prog β := do
  let rounds ← Storage.familySize cf
  pagedLoop page body (rounds + 1) startKey acc

/-- A paging loop over a family, from the first page. -/
def forEachPage {α β : Type} (cf : ColumnFamily) (page : Bytes → Prog (List α × Option Bytes))
    (acc : β) (body : β → α → Prog (ForInStep β)) : Prog β :=
  forEachPageFrom cf [] page acc body

section ReadOnly

variable {α β : Type}

theorem readOnly_reservePage (limit : ℕ) : ReadOnly (reservePage limit) :=
  (readOnly_pure _).ite (readOnly_fail _)

theorem readOnly_prefixScanPage (cf : ColumnFamily) (pre startKey : Bytes) (limit : ℕ) :
    ReadOnly (prefixScanPage cf pre startKey limit) :=
  (readOnly_iterate _ _).bind fun _ => (readOnly_reservePage _).bind fun _ => readOnly_pure _

end ReadOnly

def deletePrefixLoop (cf : ColumnFamily) (pre : Bytes) (batchSize : ℕ) : ℕ → Bytes → Prog Unit
  | 0, _ => .fail .hang
  | rounds + 1, startKey => do
    let (items, nextKey) ← prefixScanPage cf pre startKey batchSize
    match items with
    | [] => return ()
    | item :: items =>
      Storage.write ((item :: items).map fun e => .delete cf e.1)
      match nextKey with
      | some key => deletePrefixLoop cf pre batchSize rounds key
      | none => return ()

/-- Delete every entry behind a prefix, in batches. -/
def deletePrefix (cf : ColumnFamily) (pre : Bytes) (batchSize : ℕ) : Prog Unit := do
  let rounds ← Storage.familySize cf
  deletePrefixLoop cf pre batchSize (rounds + 1) []

end Scans

end Kvdb
