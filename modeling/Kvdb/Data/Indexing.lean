import Kvdb.Data.Bytes

/-!
# Reading at positions

A read at a position or over a range of positions panics where it leaves the string. Inside,
it is a part of the string.
-/

namespace Kvdb.Data

/-- What a read outside of a string panics with. -/
inductive OutOfRange where
  | index (position length : ℕ)
  | range (start stop length : ℕ)
deriving DecidableEq

variable {data : Bytes}

/-- `data[position]` -/
def byteAt (data : Bytes) (position : ℕ) : Except OutOfRange UInt8 :=
  match data[position]? with
  | some byte => .ok byte
  | none => .error (.index position data.length)

/-- The bytes of a word that is put together from single reads. -/
def bytesAt (data : Bytes) (position : ℕ) : (width : ℕ) → Except OutOfRange Bytes
  | 0 => .ok []
  | width + 1 => do
    let first ← byteAt data position
    let rest ← bytesAt data (position + 1) width
    return first :: rest

/-- `data[start..stop]` -/
def rangeOf (data : Bytes) (start stop : ℕ) : Except OutOfRange Bytes :=
  if start ≤ stop ∧ stop ≤ data.length then .ok ((data.take stop).drop start)
  else .error (.range start stop data.length)

theorem byteAt_of_lt {position : ℕ} (inside : position < data.length) :
    byteAt data position = pure (data.get ⟨position, inside⟩) := by
  simp [byteAt, inside, pure, Except.pure]

/-- A word inside the string is read without a panic. -/
theorem bytesAt_of_le {position width : ℕ} (inside : position + width ≤ data.length) :
    bytesAt data position width = pure ((data.drop position).take width) := by
  induction width generalizing position with
  | zero => rfl
  | succ width ih =>
    have first : position < data.length := by omega
    rw [bytesAt, byteAt_of_lt first, ih (by omega), List.drop_eq_getElem_cons first,
      List.take_succ_cons, pure_bind, pure_bind]
    rfl

theorem rangeOf_of_le {start stop : ℕ} (inside : stop ≤ data.length) (ordered : start ≤ stop) :
    rangeOf data start stop = pure ((data.drop start).take (stop - start)) := by
  rw [rangeOf, if_pos ⟨ordered, inside⟩, List.drop_take]
  rfl

/-- The end of a string is a field and what follows the field. -/
theorem take_append_drop_add (data : Bytes) (position width : ℕ) :
    (data.drop position).take width ++ data.drop (position + width) = data.drop position := by
  rw [← List.drop_drop, List.take_append_drop]

end Kvdb.Data
