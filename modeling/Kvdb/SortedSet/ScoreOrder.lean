import Kvdb.Command.Elements
import Kvdb.Data.Binary
import Kvdb.SortedSet.Scores

/-!
# The order of encoded scores

A score stands for a real number or an infinity. Encoded scores are compared byte by byte.
This is the order of the numbers, with one exception: the two zeros are one number and have
two encodings, the one of the negative zero first.
-/

namespace Kvdb

open Data

namespace F64

/-- The number without its sign. The fraction has 52 bits, and the least positive number is
`2 ^ -1074`. -/
noncomputable def size (x : F64) : EReal :=
  sizeAt 52 infinity.bits.toNat (2 ^ (-1074 : ℤ)) x.magnitude

/-- The number a bit pattern stands for, unless it is a NaN. -/
noncomputable def value (x : F64) : EReal := if x.isNegative then -x.size else x.size

variable {x y : F64}

theorem natAbs_rank (x : F64) : x.rank.natAbs = x.magnitude := by
  rw [rank]
  split_ifs <;> simp

theorem natAbs_rank_le (ordinary : x.isNan = false) : x.rank.natAbs ≤ infinity.bits.toNat := by
  rw [isNan, decide_eq_false_iff_not] at ordinary
  rw [natAbs_rank]
  omega

theorem value_eq_valueAt (x : F64) :
    x.value = valueAt 52 infinity.bits.toNat (2 ^ (-1074 : ℤ)) x.rank := by
  have zero : sizeAt 52 infinity.bits.toNat (2 ^ (-1074 : ℤ)) 0 = 0 := sizeAt_zero (by decide)
  rw [value, size, valueAt, natAbs_rank, rank]
  rcases Nat.eq_zero_or_pos x.magnitude with none | some
  · -- Both zeros are at the origin.
    cases x.isNegative <;> simp [none, -zpow_neg, zero]
  · cases x.isNegative with
    | false => simp
    | true => rw [if_pos rfl, if_pos rfl, if_pos (by omega)]

/-- Scores are compared as the numbers they stand for. -/
theorem lt_iff_value_lt (ordinary : x.isNan = false) (ordinary' : y.isNan = false) :
    x.lt y = true ↔ x.value < y.value := by
  rw [Cmd.lt_iff_rank ordinary ordinary', value_eq_valueAt, value_eq_valueAt,
    valueAt_lt_iff (by positivity) (natAbs_rank_le ordinary) (natAbs_rank_le ordinary')]

theorem value_eq_iff (ordinary : x.isNan = false) (ordinary' : y.isNan = false) :
    x.value = y.value ↔ x.rank = y.rank := by
  refine ⟨fun same => ?_, fun same => by rw [value_eq_valueAt, value_eq_valueAt, same]⟩
  have above := mt (lt_iff_value_lt ordinary ordinary').mp same.not_lt
  have below := mt (lt_iff_value_lt ordinary' ordinary).mp same.symm.not_lt
  rw [Cmd.lt_iff_rank ordinary ordinary', not_lt] at above
  rw [Cmd.lt_iff_rank ordinary' ordinary, not_lt] at below
  exact le_antisymm below above

end F64

namespace Cmd

/-- The bytes of two scores: they are decoded bit by bit, the one of the smaller score comes
first, and members with equal scores are in the order of their own bytes. -/
structure BytesOrdered (x y : F64) : Prop where
  decoded : decodeScore (encodeScore x) = x ∧ decodeScore (encodeScore y) = y
  ordered : encodeScore x < encodeScore y ↔ x.value < y.value
  shared : x.value = y.value → encodeScore x = encodeScore y ∧
    ∀ (ctx : CommandContext) (userKey : Bytes) (version : UInt64) (member other : Bytes),
      scoreSubkey ctx userKey version x member < scoreSubkey ctx userKey version y other ↔
        member < other

/-- Different zeros. -/
def OppositeZeros (x y : F64) : Prop := x = ⟨signBit⟩ ∧ y = ⟨0⟩ ∨ x = ⟨0⟩ ∧ y = ⟨signBit⟩

instance decidableOppositeZeros (x y : F64) : Decidable (OppositeZeros x y) :=
  inferInstanceAs (Decidable (_ ∨ _))

variable {x y : F64}

/-- The encodings of scores that are not the two zeros are ordered as the scores. -/
theorem encodeScore_lt_iff_rank (other : ¬ OppositeZeros x y) :
    encodeScore x < encodeScore y ↔ x.rank < y.rank := by
  refine ⟨fun less => lt_of_le_of_ne (rank_le_of_encodeScore_lt less) fun same => ?_,
    encodeScore_lt_of_rank_lt⟩
  exact other (.inl (zeros_of_encodeScore_lt less same))

theorem encodeScore_eq_of_rank (other : ¬ OppositeZeros x y) (same : x.rank = y.rank) :
    encodeScore x = encodeScore y := by
  apply le_antisymm <;> rw [← not_lt]
  · rw [encodeScore_lt_iff_rank fun zeros => other (zeros.symm.imp And.symm And.symm)]
    exact same.symm.not_lt
  · rw [encodeScore_lt_iff_rank other]
    exact same.not_lt

/-- The bytes of scores sort like the scores if and only if these are not the two zeros. -/
theorem bytes_ordered_iff (ordinary : x.isNan = false) (ordinary' : y.isNan = false) :
    BytesOrdered x y ↔ ¬ OppositeZeros x y := by
  constructor
  · rintro ordered (⟨rfl, rfl⟩ | ⟨rfl, rfl⟩)
    · exact absurd (ordered.shared ((F64.value_eq_iff ordinary ordinary').mpr (by decide))).1
        (by decide)
    · exact absurd (ordered.shared ((F64.value_eq_iff ordinary ordinary').mpr (by decide))).1
        (by decide)
  · intro other
    refine ⟨⟨decodeScore_encodeScore x, decodeScore_encodeScore y⟩, ?_, fun same => ?_⟩
    · rw [encodeScore_lt_iff_rank other, ← F64.lt_iff_value_lt ordinary ordinary',
        lt_iff_rank ordinary ordinary']
    · have bytes := encodeScore_eq_of_rank other ((F64.value_eq_iff ordinary ordinary').mp same)
      refine ⟨bytes, fun ctx userKey version member rest => ?_⟩
      rw [scoreSubkey, scoreSubkey, bytes, subKey_lt_subKey, append_lt_append_left_iff]

/-- The infinities. -/
theorem bytes_ordered_of_infinities : BytesOrdered F64.negInfinity F64.infinity :=
  (bytes_ordered_iff (by decide) (by decide)).mpr (by decide)

/-- The negative zero is encoded below the positive one, which is the same number. -/
theorem zeros_have_two_encodings :
    (⟨signBit⟩ : F64).isNan = false ∧ (⟨0⟩ : F64).isNan = false ∧
      (⟨signBit⟩ : F64).value = (⟨0⟩ : F64).value ∧
      encodeScore ⟨signBit⟩ < encodeScore ⟨0⟩ := by
  refine ⟨by decide, by decide, ?_, by decide⟩
  exact (F64.value_eq_iff (by decide) (by decide)).mpr (by decide)

end Cmd

end Kvdb
