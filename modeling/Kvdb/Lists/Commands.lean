import Kvdb.Command.Writes
import Kvdb.Lists.Refinement

/-!
# The list commands refine the plain operations

A command on the key of a list ends with the outcome of the plain operation, and
leaves a store that holds the plain list after it. So every reply of a run is the
reply of the plain list.
-/

namespace Kvdb

open Data Semantics Cmd

variable {ctx : CommandContext} {key : Bytes} {store : Store} {env : Env} {meta' : Metadata}
  {bound : ℕ} {l : List Bytes} {side : ListEnd}

section Holds

/-- The key is absent and the list is empty, or the key has the record of a
stored list that represents the list. -/
def ListHolds (ctx : CommandContext) (key : Bytes) (bound : ℕ) (l : List Bytes) (store : Store) :
    Prop :=
  (ctx.lookupMeta store key = none ∧ l = []) ∨
    ∃ meta', Recorded ctx key meta' store ∧ Represents ctx key bound l meta' store

/-- A batch on the elements, closed by the record. -/
theorem Represents.wrote {batch : WriteBatch}
    (represents : Represents ctx key bound l meta' (store.write batch)) :
    ListHolds ctx key bound l
      (store.write (batch ++ [.put .metadata (ctx.metaKey key) (encodeMetadata meta')])) := by
  rw [Store.write_append, Store.write_singleton]
  refine .inr ⟨meta', recorded_put, represents.congr fun phys => ?_⟩
  exact Store.get_apply_of_ne _ (by simp [BatchOp.cf])

/-- The outcome of a command and the list after it, against the result of the
command and the store after it. -/
def Refines (ctx : CommandContext) (key : Bytes) (bound : ℕ) (plain : ListSpec.Outcome × List Bytes)
    (stored : Except Fault RespValue × Store) : Prop :=
  stored.1 = plain.1.mapError Fault.error ∧ ListHolds ctx key bound plain.2 stored.2

/-- A command that replies at once. -/
theorem ListHolds.refines {outcome : ListSpec.Outcome} (holds : ListHolds ctx key bound l store) :
    Refines ctx key bound (outcome, l) (outcome.mapError Fault.error, store) :=
  ⟨rfl, holds⟩

end Holds

section Pushes

/-- What a push starts from. -/
theorem ListHolds.base (holds : ListHolds ctx key bound l store)
    (unused : ctx.lookupMeta store key = none → Unused ctx key env.version store) :
    ∃ meta', exec env (ensureListMeta ctx key) store = (.ok meta', store) ∧
      Represents ctx key bound l meta' store := by
  rcases holds with ⟨absent, rfl⟩ | ⟨meta', recorded, represents⟩
  · refine ⟨Metadata.new .list env.version, ?_, .new (unused absent)⟩
    exact exec_bind_ok (exec_loadLiveMeta_of_absent absent)
  · refine ⟨meta', ?_, represents⟩
    exact exec_bind_ok (exec_loadLiveMeta_of_recorded recorded represents.proper (by decide))

/-- A push refines the plain one. -/
theorem push_refines (name : String) {x : Bytes} {xs : List Bytes}
    (holds : ListHolds ctx key bound l store)
    (unused : ctx.lookupMeta store key = none → Unused ctx key env.version store)
    (small : bound + (x :: xs).length < 2 ^ 62) :
    Refines ctx key (bound + (x :: xs).length) (ListSpec.pushStep side name (x :: xs) l)
      (exec env (push ctx side (key :: x :: xs)) store) := by
  obtain ⟨meta', loaded, represents⟩ := holds.base unused
  have start : Represents ctx key bound l meta' (store.write []) := represents
  have pushed := start.pushLoop side (x :: xs) small
  rw [push, exec_bind_ok loaded, ListSpec.pushStep, if_neg (List.cons_ne_nil _ _)]
  refine ⟨?_, pushed.wrote⟩
  rw [exec_write_bind, exec_pure, toInt64_eq_ofNat, pushed.size]
  rfl

end Pushes

section Loaded

/-- The commands that have nothing to do on an empty list, stored or not. -/
theorem ListHolds.refines_loaded {plain : ListSpec.Outcome × List Bytes} {reply : RespValue}
    {rest : Metadata → Prog RespValue} (holds : ListHolds ctx key bound l store)
    (nothing : l = [] → plain = (.ok reply, []))
    (something : ∀ meta', l ≠ [] → Represents ctx key bound l meta' store →
      ListHolds ctx key bound l store → Refines ctx key bound plain (exec env (rest meta') store)) :
    Refines ctx key bound plain (exec env (do
      match ← loadListMeta ctx key with
      | none => return reply
      | some meta' => if meta'.size = 0 then return reply else rest meta') store) := by
  have held := holds
  rcases holds with ⟨absent, rfl⟩ | ⟨meta', recorded, represents⟩
  · have loaded : exec env (loadListMeta ctx key) store = (.ok none, store) :=
      exec_loadLiveMeta_of_absent absent
    rw [exec_bind_ok loaded, nothing rfl]
    exact ⟨rfl, held⟩
  · have loaded : exec env (loadListMeta ctx key) store = (.ok (some meta'), store) :=
      exec_loadLiveMeta_of_recorded recorded represents.proper (by decide)
    rw [exec_bind_ok loaded]
    by_cases empty : l = []
    · subst empty
      have none : meta'.size = 0 := UInt64.toNat.inj represents.size
      rw [nothing rfl]
      simp only [if_pos none]
      exact ⟨rfl, held⟩
    · have some : meta'.size ≠ 0 := by
        intro none
        have size := represents.size
        rw [none] at size
        exact empty (List.length_eq_zero_iff.mp size.symm)
      simp only [if_neg some]
      exact something meta' empty represents held

end Loaded

section Pops

/-- A pop of one element refines the plain one. -/
theorem pop_one_refines (name : String) (holds : ListHolds ctx key bound l store)
    (small : bound < 2 ^ 62) :
    Refines ctx key bound (ListSpec.popStep side name [] l)
      (exec env (pop ctx side [key]) store) := by
  refine holds.refines_loaded ?_ fun meta' nonempty represents _ => ?_
  · rintro rfl
    cases side <;> rfl
  obtain ⟨x, rest, shape⟩ : ∃ x rest, ListSpec.view side l = x :: rest := by
    refine List.exists_cons_of_length_pos ?_
    rw [ListSpec.length_view]
    exact List.length_pos_iff.mpr nonempty
  obtain ⟨stored, popped⟩ := represents.pop small shape
  rw [← Store.write_singleton] at popped
  simp only [exec_get_bind, stored]
  rw [ListSpec.popStep, shape]
  refine ⟨rfl, ?_⟩
  show ListHolds ctx key bound (ListSpec.remaining side 1 l) _
  rw [ListSpec.remaining_succ 0 shape, ListSpec.remaining, List.drop_zero, ListSpec.view_view]
  exact popped.reset.wrote

/-- A counted pop refines the plain one. -/
theorem pop_count_refines (name : String) (count : Bytes) (holds : ListHolds ctx key bound l store)
    (small : bound < 2 ^ 62) :
    Refines ctx key bound (ListSpec.popStep side name [count] l)
      (exec env (pop ctx side [key, count]) store) := by
  rw [pop, ListSpec.popStep, parseUsize]
  cases parseU64 count with
  | none => exact holds.refines
  | some n =>
    simp only [exec_pure_bind]
    by_cases zero : n = 0
    · subst zero
      rw [if_pos rfl, ListSpec.remaining_zero]
      exact holds.refines
    rw [if_neg zero]
    refine holds.refines_loaded ?_ fun meta' nonempty represents _ => ?_
    · rintro rfl
      rw [ListSpec.popped_empty, ListSpec.remaining_empty]
      rfl
    have start : Represents ctx key bound l meta' (store.write []) := represents
    obtain ⟨batch, meta'', ran, popped⟩ := start.popLoop env side (min n l.length) [] small
      (fun _ _ => id) (Nat.min_le_right _ _)
    rw [ListSpec.popped_min, List.nil_append] at ran
    rw [ListSpec.remaining_min] at popped
    simp only [represents.size, exec_bind_ok ran]
    exact ⟨rfl, popped.reset.wrote⟩

end Pops

section Reads

/-- `LLEN` replies the length. -/
theorem llen_refines (holds : ListHolds ctx key bound l store) :
    Refines ctx key bound (.ok (.integer (Int64.ofNat l.length)), l)
      (exec env (llen ctx [key]) store) := by
  have held := holds
  rcases holds with ⟨absent, rfl⟩ | ⟨meta', recorded, represents⟩
  · have ran : exec env (llen ctx [key]) store = (.ok (.integer 0), store) :=
      exec_bind_ok (exec_loadLiveMeta_of_absent absent)
    rw [ran]
    exact held.refines
  · have ran : exec env (llen ctx [key]) store = (.ok (.integer meta'.size.toInt64), store) :=
      exec_bind_ok (exec_loadLiveMeta_of_recorded recorded represents.proper (by decide))
    rw [ran, toInt64_eq_ofNat, represents.size]
    exact held.refines

private theorem toInt_resolve {index len : Int64} {n : ℕ} (length : len.toInt = n) :
    (if index < 0 then index + len else index).toInt = ListSpec.resolve n index.toInt := by
  have lower := index.le_toInt
  have upper := len.toInt_lt
  rw [ListSpec.resolve]
  by_cases negative : index < 0
  · have sign : index.toInt < 0 := Int64.lt_iff_toInt_lt.mp negative
    rw [if_pos negative, if_pos sign, toInt_add_of_lt (by omega) (by omega), length]
  · have sign : ¬ index.toInt < 0 := fun less => negative (Int64.lt_iff_toInt_lt.mpr less)
    rw [if_neg negative, if_neg sign]

/-- The length as the commands compute with it. -/
private theorem Represents.toInt_size (represents : Represents ctx key bound l meta' store)
    (small : bound < 2 ^ 62) : meta'.size.toInt64.toInt = l.length := by
  have length := represents.length_le
  rw [toInt64_eq_ofNat, represents.size, Int64.toInt_ofNat_of_lt (by omega)]

/-- `LINDEX` replies the element at the index. -/
theorem lindex_refines (index : Bytes) (holds : ListHolds ctx key bound l store)
    (small : bound < 2 ^ 62) :
    Refines ctx key bound (ListSpec.readStep .lindex [index] l, l)
      (exec env (lindex ctx [key, index]) store) := by
  rw [lindex, ListSpec.readStep, parseI64]
  cases parseI64? index with
  | none => exact holds.refines
  | some index =>
    simp only [exec_pure_bind]
    refine holds.refines_loaded ?_ fun meta' _ represents held => ?_
    · rintro rfl
      simp [ListSpec.elementAt]
    have size := represents.toInt_size small
    have resolved := @toInt_resolve index _ _ size
    have lower := represents.lower
    have upper := represents.upper
    have span := represents.span
    generalize (if index < 0 then index + meta'.size.toInt64 else index) = i at resolved ⊢
    generalize meta'.size.toInt64 = len at size resolved ⊢
    simp only [Int64.lt_iff_toInt_lt, Int64.le_iff_toInt_le, Int64.toInt_zero, resolved, size]
    rw [ListSpec.elementAt]
    generalize ListSpec.resolve l.length index.toInt = r at *
    by_cases outside : r < 0 ∨ (l.length : ℤ) ≤ r
    · rw [if_pos outside]
      have missing : (if r < 0 then none else l[r.toNat]?) = none := by
        split_ifs
        · rfl
        · exact List.getElem?_eq_none (by omega)
      rw [missing]
      exact held.refines
    · have inside : r.toNat < l.length := by omega
      have stored := represents.get (List.getElem?_eq_getElem inside)
      have sum : (meta'.head + i).toInt = meta'.head.toInt + r.toNat := by
        rw [toInt_add_of_lt (by omega) (by omega)]
        omega
      rw [if_neg outside, if_neg (by omega), exec_get_bind, encodeIndex_eq_position, sum, stored,
        List.getElem?_eq_getElem inside]
      exact held.refines

end Reads

section Ranges

variable {v : UInt64} {first last : Int64} {count : ℕ}

/-- The body of `LRANGE` at the element with a given index. -/
private theorem lrangeBody_position (short : key.length < 2 ^ 32) {idx : ℤ} (range : InRange idx)
    (x : Bytes) (result : List RespValue) :
    lrangeBody ctx first last count result (ctx.subKey key v (position idx), x) =
      pure (if idx < first.toInt then .yield result
        else if last.toInt < idx then .done result
        else if count ≤ result.length + 1 then .done (result ++ [.bulkString (some x)])
        else .yield (result ++ [.bulkString (some x)])) := by
  simp only [lrangeBody, ctx.parseSubkey_subKey _ _ short, position, decodeIndex_encodeIndex,
    Program.ofExcept_ok, pure_bind, Int64.lt_iff_toInt_lt, toInt_ofInt range, List.length_append,
    List.length_singleton, apply_ite (pure : ForInStep (List RespValue) → Prog _)]

/-- The scan of `LRANGE` over the elements from an index on takes those between
the first and the last index. -/
private theorem forEach_lrangeBody (short : key.length < 2 ^ 32)
    (ordered : first.toInt ≤ last.toInt) (xs : List Bytes) (start : ℤ) (result : List RespValue)
    (lower : -2 ^ 63 ≤ start) (upper : start + xs.length ≤ 2 ^ 63)
    (room : result.length +
      ((xs.take (last.toInt + 1 - start).toNat).drop (first.toInt - start).toNat).length ≤ count) :
    forEach (lrangeBody ctx first last count)
        ((laidOut start xs).map fun e => (ctx.subKey key v e.1, e.2)) result >>= ForInStep.settle =
      pure (result ++ ((xs.take (last.toInt + 1 - start).toNat).drop
        (first.toInt - start).toNat).map fun x => .bulkString (some x)) := by
  induction xs generalizing start result with
  | nil => simp [laidOut, forEach, ForInStep.settle]
  | cons x xs ih =>
    rw [List.length_cons] at upper
    have next := ih (start + 1)
    rw [laidOut, List.map_cons, forEach, lrangeBody_position short ⟨lower, by omega⟩, pure_bind]
    by_cases before : start < first.toInt
    · -- Nothing is taken before the first index.
      obtain ⟨i, skipped⟩ : ∃ i : ℕ, (first.toInt - start).toNat = i + 1 :=
        ⟨(first.toInt - start).toNat - 1, by omega⟩
      obtain ⟨j, taken⟩ : ∃ j : ℕ, (last.toInt + 1 - start).toNat = j + 1 :=
        ⟨(last.toInt + 1 - start).toNat - 1, by omega⟩
      have i' : (first.toInt - (start + 1)).toNat = i := by omega
      have j' : (last.toInt + 1 - (start + 1)).toNat = j := by omega
      rw [i', j'] at next
      rw [skipped, taken, List.take_succ_cons, List.drop_succ_cons] at room ⊢
      rw [if_pos before]
      exact next result (by omega) (by omega) room
    rw [if_neg before]
    have i : (first.toInt - start).toNat = 0 := by omega
    by_cases behind : last.toInt < start
    · have j : (last.toInt + 1 - start).toNat = 0 := by omega
      rw [if_pos behind, i, j]
      simp [ForInStep.settle]
    rw [if_neg behind]
    obtain ⟨j, taken⟩ : ∃ j : ℕ, (last.toInt + 1 - start).toNat = j + 1 :=
      ⟨(last.toInt + 1 - start).toNat - 1, by omega⟩
    have i' : (first.toInt - (start + 1)).toNat = 0 := by omega
    have j' : (last.toInt + 1 - (start + 1)).toNat = j := by omega
    rw [i', j', List.drop_zero] at next
    rw [i, taken, List.take_succ_cons, List.drop_zero, List.length_cons] at room
    rw [i, taken, List.take_succ_cons, List.drop_zero, List.map_cons]
    by_cases full : count ≤ result.length + 1
    · -- A full result leaves nothing more to take.
      have none : xs.take j = [] := List.length_eq_zero_iff.mp (by omega)
      rw [if_pos full, none]
      simp [ForInStep.settle]
    · rw [if_neg full, ← List.singleton_append (l := List.map _ _), ← List.append_assoc]
      refine next (result ++ [.bulkString (some x)]) (by omega) (by omega) ?_
      rw [List.length_append, List.length_singleton]
      omega

/-- The scan of `LRANGE` over a stored list. -/
private theorem Represents.exec_scan (represents : Represents ctx key bound l meta' store)
    (short : key.length < 2 ^ 32) (small : bound < 2 ^ 62) {s e : ℤ}
    (begins : first.toInt = meta'.head.toInt + s) (ends : last.toInt = meta'.head.toInt + e)
    (ordered : s ≤ e) (room : e - s + 1 ≤ count) :
    exec env (forEachPage .subkey
      (fun start => prefixScanPage .subkey (ctx.subKey key meta'.version []) start listPageSize) []
      (lrangeBody ctx first last count)) store =
      (.ok (((l.take (e + 1).toNat).drop s.toNat).map fun x => .bulkString (some x)), store) := by
  have lower := represents.lower
  have upper := represents.upper
  have span := represents.span
  have skipped : first.toInt - meta'.head.toInt = s := by omega
  have taken : last.toInt + 1 - meta'.head.toInt = e + 1 := by omega
  have scanned := @forEach_lrangeBody ctx key meta'.version first last count short (by omega) l
    meta'.head.toInt []
  rw [skipped, taken] at scanned
  have readonly : ∀ acc item, ReadOnly (lrangeBody ctx first last count acc item) := by
    intro acc item
    unfold lrangeBody
    split
    · exact readOnly_raise _
    · exact (readOnly_ofExcept _).bind fun _ => (readOnly_pure _).ite <|
        ReadOnly.ite (readOnly_pure _) <|
        ReadOnly.ite (readOnly_pure _) (readOnly_pure _)
  rw [exec_forEachPage_elements (by decide) (by decide)
    (fun acc item => (readonly acc item).exec_state), represents.layout, scanned]
  · rfl
  · omega
  · omega
  · rw [List.length_nil, List.length_drop, List.length_take]
    omega

private theorem toInt_clamp_start (s : Int64) :
    (if s < 0 then 0 else s).toInt = max s.toInt 0 := by
  split_ifs with negative <;> rw [Int64.lt_iff_toInt_lt, Int64.toInt_zero] at negative
  · rw [Int64.toInt_zero]
    omega
  · omega

private theorem toInt_clamp_stop {e len : Int64} (positive : 0 < len.toInt) :
    (if len ≤ e then len - 1 else e).toInt = min e.toInt (len.toInt - 1) := by
  have one : (1 : Int64).toInt = 1 := rfl
  have upper := len.toInt_lt
  split_ifs with outside <;> rw [Int64.le_iff_toInt_le] at outside
  · rw [toInt_sub_of_lt (by omega) (by omega)]
    omega
  · omega

/-- `LRANGE` replies the slice between its indexes. -/
theorem lrange_refines (short : key.length < 2 ^ 32) (start stop : Bytes)
    (holds : ListHolds ctx key bound l store) (small : bound < 2 ^ 62) :
    Refines ctx key bound (ListSpec.readStep .lrange [start, stop] l, l)
      (exec env (lrange ctx [key, start, stop]) store) := by
  rw [lrange, ListSpec.readStep, parseI64, parseI64]
  cases parseI64? start with
  | none => exact holds.refines
  | some start =>
    cases parseI64? stop with
    | none => exact holds.refines
    | some stop =>
      simp only [exec_pure_bind]
      refine holds.refines_loaded ?_ fun meta' nonempty represents held => ?_
      · rintro rfl
        simp [ListSpec.slice, ListSpec.bulks]
      have size := represents.toInt_size small
      have length := represents.length_le
      have lower := represents.lower
      have upper := represents.upper
      have span := represents.span
      have positive := List.length_pos_iff.mpr nonempty
      have first := toInt_clamp_start (if start < 0 then start + meta'.size.toInt64 else start)
      have last := @toInt_clamp_stop (if stop < 0 then stop + meta'.size.toInt64 else stop)
        meta'.size.toInt64 (by omega)
      rw [toInt_resolve size] at first last
      rw [size] at last
      have one : (1 : Int64).toInt = 1 := rfl
      rw [ListSpec.slice_clamp, ← first, ← last]
      -- From here on the ends are numbers inside the list.
      generalize (if (if start < 0 then start + meta'.size.toInt64 else start) < 0 then 0
        else (if start < 0 then start + meta'.size.toInt64 else start)) = s at first ⊢
      generalize (if meta'.size.toInt64 ≤ (if stop < 0 then stop + meta'.size.toInt64 else stop)
        then meta'.size.toInt64 - 1
        else (if stop < 0 then stop + meta'.size.toInt64 else stop)) = e at last ⊢
      by_cases crossed : e < s
      · rw [if_pos crossed]
        rw [Int64.lt_iff_toInt_lt] at crossed
        rw [List.drop_eq_nil_of_le (by rw [List.length_take]; omega)]
        exact held.refines
      rw [if_neg crossed]
      rw [Int64.lt_iff_toInt_lt] at crossed
      have difference : (e - s).toInt = e.toInt - s.toInt :=
        toInt_sub_of_lt (by omega) (by omega)
      have count : (e - s + 1).toInt = e.toInt - s.toInt + 1 := by
        rw [toInt_add_of_lt (by omega) (by omega), difference, one]
      have counted := @toNat_toUInt64 (e - s + 1) (by omega)
      have begins : (meta'.head + s).toInt = meta'.head.toInt + s.toInt :=
        toInt_add_of_lt (by omega) (by omega)
      have ends : (meta'.head + e).toInt = meta'.head.toInt + e.toInt :=
        toInt_add_of_lt (by omega) (by omega)
      simp only [exec_bind_ok (represents.exec_scan short small begins ends (by omega)
        (counted.trans count).ge)]
      exact held.refines

end Ranges

section Runs

/-- A request on the list of a key. A version that is drawn for an absent key is
a new one. -/
structure ListRequest (ctx : CommandContext) (key : Bytes) (store : Store) (request : Request) :
    Prop where
  listed : request.command ∈ [Command.lpush, .rpush, .lpop, .rpop, .llen, .lindex, .lrange]
  onKey : request.args.head? = some key
  unused : ctx.lookupMeta store key = none → Unused ctx key request.env.version store

/-- A request refines the plain operation. -/
theorem ListHolds.step {request : Request} (holds : ListHolds ctx key bound l store)
    (allowed : ListRequest ctx key store request) (short : key.length < 2 ^ 32)
    (small : bound + ListSpec.pushes request < 2 ^ 62) :
    Refines ctx key (bound + ListSpec.pushes request)
      (ListSpec.step request.command request.args.tail l)
      (exec request.env (request.command.run ctx request.args) store) := by
  obtain ⟨command, args, env⟩ := request
  obtain ⟨listed, onKey, unused⟩ := allowed
  obtain ⟨_, args, rfl⟩ : ∃ key args', args = key :: args' := by
    cases args with
    | nil => cases onKey
    | cons key args => exact ⟨key, args, rfl⟩
  obtain rfl : _ = key := Option.some.inj onKey
  simp only [List.mem_cons, List.not_mem_nil, or_false] at listed
  rcases listed with rfl | rfl | rfl | rfl | rfl | rfl | rfl
  · match args with
    | [] => exact holds.refines
    | x :: xs => exact push_refines "LPUSH" holds unused small
  · match args with
    | [] => exact holds.refines
    | x :: xs => exact push_refines "RPUSH" holds unused small
  · match args with
    | [] => exact pop_one_refines "LPOP" holds small
    | [count] => exact pop_count_refines "LPOP" count holds small
    | _ :: _ :: _ => exact holds.refines
  · match args with
    | [] => exact pop_one_refines "RPOP" holds small
    | [count] => exact pop_count_refines "RPOP" count holds small
    | _ :: _ :: _ => exact holds.refines
  · match args with
    | [] => exact llen_refines holds
    | _ :: _ => exact holds.refines
  · match args with
    | [index] => exact lindex_refines index holds small
    | [] | _ :: _ :: _ => exact holds.refines
  · match args with
    | [start, stop] => exact lrange_refines short start stop holds small
    | [] | [_] | _ :: _ :: _ :: _ => exact holds.refines

/-- The store after a run holds the plain list after it. -/
theorem ListHolds.run {start : Store} {requests : List Request} (short : key.length < 2 ^ 32)
    (run : Runs ctx (ListRequest ctx key) start requests store)
    (absent : ctx.lookupMeta start key = none)
    (few : (requests.map ListSpec.pushes).sum < 2 ^ 62) :
    ListHolds ctx key (requests.map ListSpec.pushes).sum (ListSpec.contents requests) store := by
  refine run.invariant_of_steps (fun requests store => (requests.map ListSpec.pushes).sum < 2 ^ 62 →
    ListHolds ctx key (requests.map ListSpec.pushes).sum (ListSpec.contents requests) store)
    (fun _ => .inl ⟨absent, rfl⟩) ?_ few
  intro requests state request _ allowed held few
  rw [List.map_append, List.sum_append, List.map_singleton, List.sum_singleton] at few ⊢
  rw [ListSpec.contents_snoc, Request.after_eq]
  exact ((held (by omega)).step allowed short few).2

/-- The live elements are those from the head to the tail. -/
theorem Represents.isSome_iff (represents : Represents ctx key bound l meta' store)
    (small : bound < 2 ^ 62) (sub : Bytes) :
    (store.get .subkey (ctx.subKey key meta'.version sub)).isSome ↔
      ∃ idx, meta'.head ≤ idx ∧ idx ≤ meta'.tail ∧ sub = encodeIndex idx := by
  have span := represents.span
  have lower := represents.lower
  have upper := represents.upper
  constructor
  · intro stored
    obtain ⟨x, found⟩ := Option.isSome_iff_exists.mp stored
    rw [← mem_elements, represents.layout, mem_laidOut] at found
    obtain ⟨i, inside, rfl⟩ := found
    have short : i < l.length := (List.getElem?_eq_some_iff.mp inside).1
    refine ⟨Int64.ofInt (meta'.head.toInt + i), ?_, ?_, rfl⟩ <;>
      rw [Int64.le_iff_toInt_le, toInt_ofInt ⟨by omega, by omega⟩] <;> omega
  · rintro ⟨idx, first, last, rfl⟩
    rw [Int64.le_iff_toInt_le] at first last
    obtain ⟨i, offset⟩ : ∃ i : ℕ, idx.toInt = meta'.head.toInt + i :=
      ⟨(idx.toInt - meta'.head.toInt).toNat, by omega⟩
    have inside : i < l.length := by omega
    rw [encodeIndex_eq_position, offset, represents.get (List.getElem?_eq_getElem inside)]
    rfl

/-- The reply is the one of the outcome. -/
theorem Refines.reply {request : Request} {plain : ListSpec.Outcome × List Bytes}
    (refines : Refines ctx key bound plain
      (exec request.env (request.command.run ctx request.args) store)) :
    request.reply ctx store = .ok (ListSpec.reply plain.1) := by
  obtain ⟨same, -⟩ := refines
  rw [Request.reply, exec_dispatch]
  generalize exec request.env (request.command.run ctx request.args) store = ended at same ⊢
  obtain ⟨result, after⟩ := ended
  obtain ⟨outcome, l⟩ := plain
  cases outcome <;> cases same <;> rfl

/-- In every run of list commands on a key with fewer than `2 ^ 62` pushed
elements, starting where the key is absent, the key is absent while the plain
list is empty, or the live elements are those at the indexes from the head to the
tail, of which there are as many as the recorded size, and they are the elements
of the plain list. Every further push, pop, `LLEN`, `LINDEX` and `LRANGE`
replies what the plain list replies. -/
theorem list_refines_plain_list {start : Store} {requests : List Request}
    (short : key.length < 2 ^ 32) (run : Runs ctx (ListRequest ctx key) start requests store)
    (absent : ctx.lookupMeta start key = none)
    (few : (requests.map ListSpec.pushes).sum < 2 ^ 62) :
    ((ctx.lookupMeta store key = none ∧ ListSpec.contents requests = []) ∨
      ∃ meta', (∀ env, exec env (loadListMeta ctx key) store = (.ok (some meta'), store)) ∧
        (meta'.size.toNat : ℤ) = meta'.tail.toInt - meta'.head.toInt + 1 ∧
        (∀ sub, (store.get .subkey (ctx.subKey key meta'.version sub)).isSome ↔
          ∃ idx, meta'.head ≤ idx ∧ idx ≤ meta'.tail ∧ sub = encodeIndex idx) ∧
        ∀ i x, (ListSpec.contents requests)[i]? = some x →
          store.get .subkey (ctx.subKey key meta'.version
            (encodeIndex (meta'.head + Int64.ofNat i))) = some x) ∧
    ∀ request, ListRequest ctx key store request →
      (requests.map ListSpec.pushes).sum + ListSpec.pushes request < 2 ^ 62 →
      request.reply ctx store = .ok (ListSpec.reply
        (ListSpec.step request.command request.args.tail (ListSpec.contents requests)).1) := by
  have holds := ListHolds.run short run absent few
  refine ⟨holds.imp_right ?_, fun request allowed small => (holds.step allowed short small).reply⟩
  rintro ⟨meta', recorded, represents⟩
  refine ⟨meta', fun env => exec_loadLiveMeta_of_recorded recorded represents.proper (by decide),
    ?_, fun sub => ?_, fun i x found => ?_⟩
  · have size := represents.size
    have span := represents.span
    omega
  · exact represents.isSome_iff few sub
  · have inside : i < (ListSpec.contents requests).length := (List.getElem?_eq_some_iff.mp found).1
    have length := represents.length_le
    have lower := represents.lower
    have upper := represents.upper
    have span := represents.span
    have offset : (Int64.ofNat i).toInt = i := Int64.toInt_ofNat_of_lt (by omega)
    rw [encodeIndex_eq_position, toInt_add_of_lt (by omega) (by omega), offset]
    exact represents.get found

/-- Pushing at both ends, popping from the left, and reading from the right. -/
theorem list_refines_plain_list_of_pushes :
    let first : Request := ⟨.rpush, [ascii "k", ascii "a", ascii "b"], .plain 7⟩
    let second : Request := ⟨.lpush, [ascii "k", ascii "c", ascii "d"], .plain 8⟩
    let third : Request := ⟨.lpop, [ascii "k"], .plain 9⟩
    let store := third.after .plain (second.after .plain (first.after .plain .empty))
    let last : Request := ⟨.lrange, [ascii "k", ascii "-2", ascii "9"], .plain 10⟩
    ListSpec.contents [first, second, third] = [ascii "c", ascii "a", ascii "b"] ∧
    last.reply .plain store = .ok (.array [.bulkString (some (ascii "a")),
      .bulkString (some (ascii "b"))]) := by
  intro first second third store last
  have present : CommandContext.plain.lookupMeta (first.after .plain .empty)
      (ascii "k") ≠ none := by
    decide
  have present' : CommandContext.plain.lookupMeta
      (second.after .plain (first.after .plain .empty)) (ascii "k") ≠ none := by
    decide
  have present'' : CommandContext.plain.lookupMeta store (ascii "k") ≠ none := by decide
  have run : Runs .plain (ListRequest .plain (ascii "k")) .empty [first, second, third] store :=
    .next (.next (.next .refl ⟨by decide, rfl, fun _ _ _ _ => rfl⟩)
      ⟨by decide, rfl, fun absent => absurd absent present⟩)
      ⟨by decide, rfl, fun absent => absurd absent present'⟩
  exact ⟨by decide, (list_refines_plain_list (by decide) run rfl (by decide)).2 last
    ⟨by decide, rfl, fun absent => absurd absent present''⟩ (by decide)⟩

end Runs

end Kvdb
