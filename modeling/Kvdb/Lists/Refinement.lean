import Kvdb.Lists.Positions
import Kvdb.Lists.Spec

/-!
# A stored list refines a plain list

A stored list represents a plain one when its elements, in the order of a scan,
are the elements of the plain list at consecutive positions from the head on. Pushes
and pops at either end keep the representation, and every reply is the reply of
the plain list. Head and tail stay within the number of pushed elements, so no
index wraps.
-/

namespace Kvdb

open Data Semantics Cmd

variable {ctx : CommandContext} {key : Bytes} {store after : Store} {env : Env} {meta' : Metadata}

section Representation

/-- The stored list of a record is the plain list `l`. The bound limits how far
its ends have moved. -/
structure Represents (ctx : CommandContext) (key : Bytes) (bound : ℕ) (l : List Bytes)
    (meta' : Metadata) (store : Store) : Prop where
  proper : meta'.Proper .list
  layout : elements ctx .subkey key meta'.version store = laidOut meta'.head.toInt l
  size : meta'.size.toNat = l.length
  span : meta'.tail.toInt = meta'.head.toInt + l.length - 1
  lower : -(bound : ℤ) ≤ meta'.head.toInt
  upper : meta'.tail.toInt < bound

variable {bound : ℕ} {l : List Bytes}

/-- The element at a position is the element at the index. -/
theorem Represents.get (represents : Represents ctx key bound l meta' store) {i : ℕ} {x : Bytes}
    (found : l[i]? = some x) :
    store.get .subkey (ctx.subKey key meta'.version (position (meta'.head.toInt + i))) =
      some x := by
  rw [← mem_elements, represents.layout, mem_laidOut]
  exact ⟨i, found, rfl⟩

/-- Only the elements matter. -/
theorem Represents.congr (represents : Represents ctx key bound l meta' store)
    (same : ∀ phys, after.get .subkey phys = store.get .subkey phys) :
    Represents ctx key bound l meta' after where
  proper := represents.proper
  layout := (elements_congr fun _ => same _).trans represents.layout
  size := represents.size
  span := represents.span
  lower := represents.lower
  upper := represents.upper

/-- The ends bound the length. -/
theorem Represents.length_le (represents : Represents ctx key bound l meta' store) :
    l.length ≤ 2 * bound := by
  have span := represents.span
  have lower := represents.lower
  have upper := represents.upper
  omega

/-- A record for a version that nothing is stored under is the empty list. -/
theorem Represents.new {v : UInt64} (unused : Unused ctx key v store) :
    Represents ctx key bound [] (Metadata.new .list v) store where
  proper := Metadata.new_proper .list v
  layout := by
    refine List.eq_nil_iff_forall_not_mem.mpr ?_
    rintro ⟨m, x⟩ inside
    rw [mem_elements, Metadata.new, unused .subkey (by decide)] at inside
    cases inside
  size := rfl
  span := rfl
  lower := by simp [Metadata.new]
  upper := by
    have tail : (Metadata.new .list v).tail.toInt = -1 := rfl
    omega

theorem Represents.push_left (represents : Represents ctx key bound l meta' store)
    (small : bound + 1 < 2 ^ 62) (x : Bytes) :
    Represents ctx key (bound + 1) (x :: l)
      { meta' with head := meta'.head - 1, size := meta'.size + 1 }
      (store.apply
        (.put .subkey (ctx.subKey key meta'.version (encodeIndex (meta'.head - 1))) x)) := by
  obtain ⟨proper, layout, size, span, lower, upper⟩ := represents
  have one : (1 : Int64).toInt = 1 := rfl
  have head : (meta'.head - 1).toInt = meta'.head.toInt - 1 :=
    toInt_sub_of_lt (by omega) (by omega)
  have first : ∀ e ∈ elements ctx .subkey key meta'.version store,
      encodeIndex (meta'.head - 1) < e.1 := by
    intro e inside
    rw [layout] at inside
    rw [encodeIndex_eq_position, head]
    exact position_lt_of_mem_laidOut (by omega) (by omega) (by omega) inside
  refine ⟨⟨proper.typed, fun other => absurd proper.typed other, proper.lasting⟩, ?_,
    ?_, ?_, ?_, ?_⟩
  · refine (elements_put_front first).trans ?_
    rw [layout, encodeIndex_eq_position, head, laidOut, sub_add_cancel]
  · show (meta'.size + 1).toNat = _
    rw [UInt64.toNat_add, size, UInt64.toNat_one, Nat.mod_eq_of_lt (by omega), List.length_cons]
  · show meta'.tail.toInt = (meta'.head - 1).toInt + _ - 1
    rw [head, span, List.length_cons]
    push_cast
    ring
  · show _ ≤ (meta'.head - 1).toInt
    omega
  · show meta'.tail.toInt < _
    omega

theorem Represents.push_right (represents : Represents ctx key bound l meta' store)
    (small : bound + 1 < 2 ^ 62) (x : Bytes) :
    Represents ctx key (bound + 1) (l ++ [x])
      { meta' with tail := meta'.tail + 1, size := meta'.size + 1 }
      (store.apply
        (.put .subkey (ctx.subKey key meta'.version (encodeIndex (meta'.tail + 1))) x)) := by
  obtain ⟨proper, layout, size, span, lower, upper⟩ := represents
  have one : (1 : Int64).toInt = 1 := rfl
  have tail : (meta'.tail + 1).toInt = meta'.tail.toInt + 1 :=
    toInt_add_of_lt (by omega) (by omega)
  have last : ∀ e ∈ elements ctx .subkey key meta'.version store,
      e.1 < encodeIndex (meta'.tail + 1) := by
    intro e inside
    rw [layout] at inside
    rw [encodeIndex_eq_position, tail]
    exact lt_position_of_mem_laidOut (by omega) (by omega) (by omega) inside
  refine ⟨⟨proper.typed, fun other => absurd proper.typed other, proper.lasting⟩, ?_,
    ?_, ?_, ?_, ?_⟩
  · refine (elements_put_back last).trans ?_
    have next : meta'.tail.toInt + 1 = meta'.head.toInt + l.length := by omega
    rw [layout, encodeIndex_eq_position, tail, next, laidOut_append, laidOut, laidOut]
  · show (meta'.size + 1).toNat = _
    rw [UInt64.toNat_add, size, UInt64.toNat_one, Nat.mod_eq_of_lt (by omega), List.length_append,
      List.length_singleton]
  · show (meta'.tail + 1).toInt = meta'.head.toInt + _ - 1
    rw [tail, span, List.length_append, List.length_singleton]
    push_cast
    ring
  · show _ ≤ meta'.head.toInt
    omega
  · show (meta'.tail + 1).toInt < _
    omega

private theorem toNat_size_sub_one {n : ℕ} (size : meta'.size.toNat = n + 1) :
    (meta'.size - 1).toNat = n := by
  have le : (1 : UInt64) ≤ meta'.size := by
    rw [UInt64.le_iff_toNat_le, UInt64.toNat_one, size]
    omega
  rw [UInt64.toNat_sub_of_le _ _ le, size, UInt64.toNat_one]
  omega

private theorem Represents.pop_left {x : Bytes} (small : bound < 2 ^ 62)
    (represents : Represents ctx key bound (x :: l) meta' store) :
    store.get .subkey (ctx.subKey key meta'.version (encodeIndex meta'.head)) = some x ∧
      Represents ctx key bound l (dropEnd .left meta')
        (store.apply
          (.delete .subkey (ctx.subKey key meta'.version (encodeIndex meta'.head)))) := by
  have stored := represents.get (i := 0) (x := x) rfl
  obtain ⟨proper, layout, size, span, lower, upper⟩ := represents
  rw [List.length_cons] at size span
  have one : (1 : Int64).toInt = 1 := rfl
  have head : (meta'.head + 1).toInt = meta'.head.toInt + 1 :=
    toInt_add_of_lt (by omega) (by omega)
  rw [encodeIndex_eq_position]
  refine ⟨by simpa using stored, ⟨proper.typed, fun other => absurd proper.typed other,
    proper.lasting⟩, ?_, ?_, ?_, ?_, ?_⟩
  · refine (elements_delete_front layout).trans ?_
    rw [dropEnd, head]
  · exact toNat_size_sub_one size
  · show meta'.tail.toInt = (meta'.head + 1).toInt + _ - 1
    omega
  · show _ ≤ (meta'.head + 1).toInt
    omega
  · exact upper

private theorem Represents.pop_right {x : Bytes} (small : bound < 2 ^ 62)
    (represents : Represents ctx key bound (l ++ [x]) meta' store) :
    store.get .subkey (ctx.subKey key meta'.version (encodeIndex meta'.tail)) = some x ∧
      Represents ctx key bound l (dropEnd .right meta')
        (store.apply
          (.delete .subkey (ctx.subKey key meta'.version (encodeIndex meta'.tail)))) := by
  have stored := represents.get (i := l.length) (x := x) (by simp)
  obtain ⟨proper, layout, size, span, lower, upper⟩ := represents
  rw [List.length_append, List.length_singleton] at size span
  have one : (1 : Int64).toInt = 1 := rfl
  have tail : (meta'.tail - 1).toInt = meta'.tail.toInt - 1 :=
    toInt_sub_of_lt (by omega) (by omega)
  have last : meta'.tail.toInt = meta'.head.toInt + l.length := by omega
  rw [encodeIndex_eq_position, last]
  refine ⟨stored, ⟨proper.typed, fun other => absurd proper.typed other, proper.lasting⟩,
    ?_, ?_, ?_, ?_, ?_⟩
  · rw [laidOut_append] at layout
    exact elements_delete_back layout
  · exact toNat_size_sub_one size
  · show (meta'.tail - 1).toInt = meta'.head.toInt + _ - 1
    omega
  · exact lower
  · show (meta'.tail - 1).toInt < _
    omega

/-- One pop at an end: the element there is read, and the rest is left. -/
theorem Represents.pop {side : ListEnd} {x : Bytes} {rest : List Bytes} (small : bound < 2 ^ 62)
    (represents : Represents ctx key bound l meta' store)
    (shape : ListSpec.view side l = x :: rest) :
    store.get .subkey (ctx.subKey key meta'.version (encodeIndex (endIndex side meta'))) = some x ∧
      Represents ctx key bound (ListSpec.view side rest) (dropEnd side meta')
        (store.apply (.delete .subkey
          (ctx.subKey key meta'.version (encodeIndex (endIndex side meta'))))) := by
  cases side with
  | left =>
    obtain rfl : l = x :: rest := shape
    exact represents.pop_left small
  | right =>
    obtain rfl : l = rest.reverse ++ [x] := by
      rw [← List.reverse_cons, ← List.reverse_reverse l]
      exact congrArg List.reverse shape
    exact represents.pop_right small

/-- An emptied list starts over, which changes nothing. -/
theorem Represents.reset (represents : Represents ctx key bound l meta' store) :
    Represents ctx key bound l (resetEmpty meta') store := by
  rw [resetEmpty]
  split_ifs with empty
  · have none : l = [] := by
      rw [← List.length_eq_zero_iff, ← represents.size, empty]
      rfl
    subst none
    obtain ⟨proper, layout, size, -, -, -⟩ := represents
    refine ⟨⟨proper.typed, fun other => absurd proper.typed other, proper.lasting⟩, layout, size,
      rfl, by simp, ?_⟩
    show (-1 : Int64).toInt < bound
    have minus : (-1 : Int64).toInt = -1 := rfl
    omega
  · exact represents

end Representation

section Loops

variable {bound : ℕ} {l : List Bytes} {batch : WriteBatch}

/-- The loop of a push, whose batch is not yet written, pushes every element. -/
theorem Represents.pushLoop (side : ListEnd) (elements : List Bytes)
    (represents : Represents ctx key bound l meta' (store.write batch))
    (small : bound + elements.length < 2 ^ 62) :
    Represents ctx key (bound + elements.length) (ListSpec.push side elements l)
      (pushLoop ctx side key elements batch meta').2
      (store.write (pushLoop ctx side key elements batch meta').1) := by
  induction elements generalizing bound l batch meta' with
  | nil => simpa [pushLoop] using represents
  | cons x elements ih =>
    rw [List.length_cons] at small ⊢
    rw [ListSpec.push_cons, ← Nat.add_assoc, Nat.add_right_comm]
    cases side with
    | left =>
      have pushed := represents.push_left (by omega) x
      rw [← Store.write_singleton, ← Store.write_append] at pushed
      exact ih pushed (by omega)
    | right =>
      have pushed := represents.push_right (by omega) x
      rw [← Store.write_singleton, ← Store.write_append] at pushed
      rw [ListSpec.push_right_singleton]
      exact ih pushed (by omega)

/-- The loop of a counted pop reads the store as it was, which has whatever its
pending deletions leave. -/
theorem Represents.popLoop (env : Env) (side : ListEnd) (n : ℕ) (result : List RespValue)
    (small : bound < 2 ^ 62) (represents : Represents ctx key bound l meta' (store.write batch))
    (kept : ∀ phys x, (store.write batch).get .subkey phys = some x →
      store.get .subkey phys = some x)
    (enough : n ≤ l.length) :
    ∃ batch' meta'',
      exec env (popLoop ctx side key n result batch meta') store =
        (.ok (result ++ (ListSpec.popped side n l).map (fun x => .bulkString (some x)),
          batch', meta''), store) ∧
      Represents ctx key bound (ListSpec.remaining side n l) meta'' (store.write batch') := by
  induction n generalizing l result batch meta' with
  | zero =>
    refine ⟨batch, meta', ?_, ?_⟩
    · simp [popLoop, ListSpec.popped]
    · simpa [ListSpec.remaining] using represents
  | succ n ih =>
    obtain ⟨x, rest, shape⟩ : ∃ x rest, ListSpec.view side l = x :: rest := by
      refine List.exists_cons_of_length_pos ?_
      rw [ListSpec.length_view]
      omega
    have length : l.length = rest.length + 1 := by
      rw [← ListSpec.length_view side, shape, List.length_cons]
    obtain ⟨stored, popped⟩ := represents.pop small shape
    rw [← Store.write_singleton, ← Store.write_append] at popped
    obtain ⟨batch', meta'', ran, represents'⟩ := ih (result ++ [.bulkString (some x)]) popped
      (fun phys y found => kept phys y (Store.get_write_delete found))
      (by rw [ListSpec.length_view]; omega)
    refine ⟨batch', meta'', ?_, ?_⟩
    · rw [popLoop, exec_get_bind, kept _ _ stored]
      refine ran.trans ?_
      rw [ListSpec.popped_succ n shape, List.map_cons, List.append_assoc]
      rfl
    · rw [ListSpec.remaining_succ n shape]
      exact represents'

end Loops

end Kvdb
