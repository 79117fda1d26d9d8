import Kvdb.Command.Elements
import Kvdb.Command.Lists

/-!
# The positions of a list

An element of a list is stored under its index, with the sign bit flipped. The
byte order of the stored indexes is therefore the order of the indexes, negative
ones first, and the elements of a list come out of a scan in their order.
-/

namespace Kvdb

open Data Semantics Cmd

section Indexes

/-- A stored index is the index, counted from the least one. -/
theorem beNat_encodeIndex (idx : Int64) :
    (beNat (encodeIndex idx) : ℤ) = idx.toInt + 2 ^ 63 := by
  have bound := idx.toUInt64.toNat_lt
  rw [encodeIndex, beNat_u64Bytes, toNat_xor_signBit, toInt_eq_toUInt64]
  split_ifs <;> omega

theorem length_encodeIndex (idx : Int64) : (encodeIndex idx).length = 8 := length_u64Bytes _

/-- Stored indexes sort like the indexes. -/
theorem encodeIndex_lt_iff {i j : Int64} :
    encodeIndex i < encodeIndex j ↔ i.toInt < j.toInt := by
  have first := beNat_encodeIndex i
  have second := beNat_encodeIndex j
  rw [lt_iff_beNat_lt ((length_encodeIndex i).trans (length_encodeIndex j).symm)]
  omega

theorem decodeIndex_encodeIndex (idx : Int64) :
    decodeIndex (encodeIndex idx) = .ok idx := by
  have whole : (encodeIndex idx).take 8 = encodeIndex idx :=
    List.take_of_length_le (length_encodeIndex idx).le
  have flipped : idx.toUInt64 ^^^ signBit ^^^ signBit = idx.toUInt64 := by
    rw [UInt64.xor_assoc, UInt64.xor_self, UInt64.xor_zero]
  rw [decodeIndex, if_neg (by simp [length_encodeIndex]), whole, encodeIndex,
    u64OfBytes_u64Bytes, flipped]
  rfl

end Indexes

section Layout

/-- The stored form of an index that is given as an integer. -/
def position (idx : ℤ) : Bytes := encodeIndex (Int64.ofInt idx)

/-- The indexes that are told apart. -/
def InRange (idx : ℤ) : Prop := -2 ^ 63 ≤ idx ∧ idx < 2 ^ 63

theorem toInt_ofInt {idx : ℤ} (range : InRange idx) : (Int64.ofInt idx).toInt = idx :=
  Int64.toInt_ofInt_of_le range.1 range.2

theorem encodeIndex_eq_position (idx : Int64) : encodeIndex idx = position idx.toInt := by
  rw [position, Int64.ofInt_toInt]

theorem position_lt_iff {i j : ℤ} (rangeI : InRange i) (rangeJ : InRange j) :
    position i < position j ↔ i < j := by
  rw [position, position, encodeIndex_lt_iff, toInt_ofInt rangeI, toInt_ofInt rangeJ]

/-- The elements of a list from an index on. -/
def laidOut (start : ℤ) : List Bytes → List Entry
  | [] => []
  | x :: xs => (position start, x) :: laidOut (start + 1) xs

theorem laidOut_append (start : ℤ) (xs ys : List Bytes) :
    laidOut start (xs ++ ys) = laidOut start xs ++ laidOut (start + xs.length) ys := by
  induction xs generalizing start with
  | nil => simp [laidOut]
  | cons x xs ih =>
    rw [List.cons_append, laidOut, laidOut, ih, List.cons_append, List.length_cons]
    congr 3
    push_cast
    ring

theorem mem_laidOut {start : ℤ} {xs : List Bytes} {sub x : Bytes} :
    (sub, x) ∈ laidOut start xs ↔ ∃ i : ℕ, xs[i]? = some x ∧ sub = position (start + i) := by
  induction xs generalizing start with
  | nil => simp [laidOut]
  | cons y ys ih =>
    rw [laidOut, List.mem_cons, ih, Prod.mk.injEq]
    constructor
    · rintro (⟨rfl, rfl⟩ | ⟨i, found, rfl⟩)
      · exact ⟨0, rfl, by simp⟩
      · refine ⟨i + 1, by simpa using found, ?_⟩
        congr 1
        push_cast
        ring
    · rintro ⟨i, found, rfl⟩
      cases i with
      | zero => exact .inl ⟨by simp, by simpa using found.symm⟩
      | succ i =>
        refine .inr ⟨i, by simpa using found, ?_⟩
        congr 1
        push_cast
        ring

/-- Positions before a list come before its elements. -/
theorem position_lt_of_mem_laidOut {start idx : ℤ} {xs : List Bytes} (lower : -2 ^ 63 ≤ idx)
    (before : idx < start) (upper : start + xs.length ≤ 2 ^ 63) {e : Entry}
    (inside : e ∈ laidOut start xs) : position idx < e.1 := by
  obtain ⟨i, found, same⟩ := mem_laidOut.mp inside
  have short : i < xs.length := (List.getElem?_eq_some_iff.mp found).1
  rw [same, position_lt_iff ⟨by omega, by omega⟩ ⟨by omega, by omega⟩]
  omega

/-- Positions behind a list come after its elements. -/
theorem lt_position_of_mem_laidOut {start idx : ℤ} {xs : List Bytes} (lower : -2 ^ 63 ≤ start)
    (behind : start + xs.length ≤ idx) (upper : idx < 2 ^ 63) {e : Entry}
    (inside : e ∈ laidOut start xs) : e.1 < position idx := by
  obtain ⟨i, found, same⟩ := mem_laidOut.mp inside
  have short : i < xs.length := (List.getElem?_eq_some_iff.mp found).1
  rw [same, position_lt_iff ⟨by omega, by omega⟩ ⟨by omega, by omega⟩]
  omega

end Layout

end Kvdb
