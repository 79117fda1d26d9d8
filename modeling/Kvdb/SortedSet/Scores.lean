import Kvdb.Command.ZSets

/-!
# The score codec

Encoding a score is a bijection between bit patterns and eight-byte strings:
whether the sign bit or all bits were flipped can be read off the first bit.
-/

namespace Kvdb.Cmd

open Data

private theorem and_top_eq_zero (byte : UInt8) : byte &&& 0x80 = 0 ↔ byte.toNat < 128 := by
  have table : ∀ n < 256, (n &&& 128 = 0 ↔ n < 128) := by decide +kernel
  rw [← UInt8.toNat_inj, UInt8.toNat_and]
  exact table _ byte.toNat_lt

private theorem toNat_xor_top (byte : UInt8) :
    (byte ^^^ 0x80).toNat = if byte.toNat < 128 then byte.toNat + 128 else byte.toNat - 128 := by
  have table : ∀ n < 256, n ^^^ 128 = if n < 128 then n + 128 else n - 128 := by decide +kernel
  rw [UInt8.toNat_xor]
  exact table _ byte.toNat_lt

private theorem toNat_xor_all (byte : UInt8) : (byte ^^^ 0xFF).toNat = 255 - byte.toNat := by
  have table : ∀ n < 256, n ^^^ 255 = 255 - n := by decide +kernel
  rw [UInt8.toNat_xor]
  exact table _ byte.toNat_lt

@[simp] theorem length_flipFirst (bytes : Bytes) : (flipFirst bytes).length = bytes.length := by
  cases bytes <;> rfl

@[simp] theorem length_flipAll (bytes : Bytes) : (flipAll bytes).length = bytes.length :=
  List.length_map _

@[simp] theorem flipFirst_flipFirst (bytes : Bytes) : flipFirst (flipFirst bytes) = bytes := by
  cases bytes with
  | nil => rfl
  | cons byte rest =>
    simp only [flipFirst, UInt8.xor_assoc, UInt8.xor_self, UInt8.xor_zero]

@[simp] theorem flipAll_flipAll (bytes : Bytes) : flipAll (flipAll bytes) = bytes := by
  have twice : ((· ^^^ 0xFF) ∘ (· ^^^ 0xFF) : UInt8 → UInt8) = id := by
    funext byte
    simp only [Function.comp_apply, UInt8.xor_assoc, UInt8.xor_self, UInt8.xor_zero, id]
  rw [flipAll, flipAll, List.map_map, twice, List.map_id]

/-- The sign bit of a word is the top bit of its first byte. -/
private theorem signBit_clear_iff {bytes : Bytes} (width : bytes.length = 8) :
    u64OfBytes bytes &&& signBit = 0 ↔ (firstByte bytes).toNat < 128 := by
  cases bytes with
  | nil => simp at width
  | cons byte rest =>
    have lower : beNat rest < 256 ^ 7 := by
      have length : rest.length = 7 := by simpa using width
      simpa [length] using beNat_lt rest
    have value : beNat (byte :: rest) = byte.toNat * 256 ^ 7 + beNat rest := by
      have length : rest.length = 7 := by simpa using width
      simpa [beNat, length] using beNat_append [byte] rest
    have top := byte.toNat_lt
    have small : beNat (byte :: rest) < 2 ^ 64 := by omega
    rw [and_signBit_eq_zero, u64OfBytes, UInt64.toNat_ofNat', Nat.mod_eq_of_lt small, value,
      firstByte_cons]
    omega

@[simp] theorem length_encodeScore (score : F64) : (encodeScore score).length = 8 := by
  unfold encodeScore
  split_ifs <;> simp

/-- Eight bytes are the encoding of the score they denote. -/
theorem encodeScore_decodeScore {bytes : Bytes} (width : bytes.length = 8) :
    encodeScore (decodeScore bytes) = bytes := by
  cases bytes with
  | nil => simp at width
  | cons byte rest =>
    by_cases top : byte &&& 0x80 = 0
    · have flipped : (flipAll (byte :: rest)).length = 8 := by simpa using width
      have negative : ¬ u64OfBytes (flipAll (byte :: rest)) &&& signBit = 0 := by
        rw [signBit_clear_iff flipped]
        rw [and_top_eq_zero] at top
        simp only [flipAll, List.map_cons, firstByte_cons, toNat_xor_all]
        omega
      rw [decodeScore, if_neg (by simpa using top), encodeScore, if_neg negative,
        u64Bytes_u64OfBytes flipped, flipAll_flipAll]
    · have flipped : (flipFirst (byte :: rest)).length = 8 := by simpa using width
      have positive : u64OfBytes (flipFirst (byte :: rest)) &&& signBit = 0 := by
        rw [signBit_clear_iff flipped]
        rw [and_top_eq_zero] at top
        have bound := byte.toNat_lt
        simp only [flipFirst, firstByte_cons, toNat_xor_top, if_neg top]
        omega
      rw [decodeScore, if_pos (by simpa using top), encodeScore, if_pos positive,
        u64Bytes_u64OfBytes flipped, flipFirst_flipFirst]

/-- A score is recovered from its encoding. -/
theorem decodeScore_encodeScore (score : F64) : decodeScore (encodeScore score) = score := by
  have clear := signBit_clear_iff (length_u64Bytes score.bits)
  rw [u64OfBytes_u64Bytes] at clear
  have top := (firstByte (u64Bytes score.bits)).toNat_lt
  unfold encodeScore
  cases shape : u64Bytes score.bits with
  | nil => simpa using congrArg List.length shape
  | cons byte rest =>
    rw [shape, firstByte_cons] at clear top
    by_cases positive : score.bits &&& signBit = 0
    · have first : ¬ (byte ^^^ 0x80) &&& 0x80 = 0 := by
        rw [and_top_eq_zero, toNat_xor_top, if_pos (clear.mp positive)]
        omega
      rw [if_pos positive, decodeScore]
      simp only [flipFirst, firstByte_cons, ne_eq, first, not_false_eq_true, if_true]
      have restored : (byte ^^^ 0x80 ^^^ 0x80) :: rest = u64Bytes score.bits := by
        rw [shape, UInt8.xor_assoc]
        simp
      rw [restored, u64OfBytes_u64Bytes]
    · have first : (byte ^^^ 0xFF) &&& 0x80 = 0 := by
        rw [and_top_eq_zero, toNat_xor_all]
        have high := mt clear.mpr positive
        omega
      rw [if_neg positive, decodeScore]
      have head : firstByte (flipAll (byte :: rest)) = byte ^^^ 0xFF := rfl
      rw [head, if_neg (by simpa using first), flipAll_flipAll, ← shape, u64OfBytes_u64Bytes]

section Order

theorem le_iff_rank {x y : F64} (ordinary : x.isNan = false) (ordinary' : y.isNan = false) :
    x.le y = true ↔ x.rank ≤ y.rank := by
  simp [F64.le, ordinary, ordinary']

theorem lt_iff_rank {x y : F64} (ordinary : x.isNan = false) (ordinary' : y.isNan = false) :
    x.lt y = true ↔ x.rank < y.rank := by
  simp [F64.lt, ordinary, ordinary']

theorem eq_iff_rank {x y : F64} (ordinary : x.isNan = false) (ordinary' : y.isNan = false) :
    x.eq y = true ↔ x.rank = y.rank := by
  simp [F64.eq, ordinary, ordinary']

/-- A score argument is a number. -/
theorem isNan_of_parseScore {ctx : CommandContext} {text : Bytes} {score : F64}
    (parsed : parseScore ctx text = pure score) : score.isNan = false := by
  unfold parseScore at parsed
  dsimp only at parsed
  split at parsed
  · cases parsed
  · split_ifs at parsed with nan
    · cases parsed
    · cases parsed
      simpa using nan

/-- Flipping all bits turns the order around. -/
theorem beNat_flipAll (bytes : Bytes) :
    beNat (flipAll bytes) + beNat bytes + 1 = 256 ^ bytes.length := by
  induction bytes using List.reverseRecOn with
  | nil => rfl
  | append_singleton bytes byte ih =>
    have bound := byte.toNat_lt
    have last : flipAll (bytes ++ [byte]) = flipAll bytes ++ [byte ^^^ 0xFF] := by simp [flipAll]
    rw [last, beNat_concat, beNat_concat, toNat_xor_all, List.length_append, List.length_singleton,
      pow_succ]
    omega

theorem beNat_flipFirst {bytes : Bytes} (width : bytes.length = 8)
    (clear : (firstByte bytes).toNat < 128) : beNat (flipFirst bytes) = beNat bytes + 2 ^ 63 := by
  cases bytes with
  | nil => simp at width
  | cons byte rest =>
    have length : rest.length = 7 := by simpa using width
    have value (first : UInt8) : beNat (first :: rest) = first.toNat * 256 ^ 7 + beNat rest := by
      simpa [beNat, length] using beNat_append [first] rest
    rw [firstByte_cons] at clear
    rw [flipFirst, value, value, toNat_xor_top, if_pos clear]
    omega

/-- Where the encoding of a score stands: negative scores, the negative zero among them,
come before the others, and each half is in the order of its ranks. -/
theorem beNat_encodeScore (score : F64) :
    (beNat (encodeScore score) : ℤ) = 2 ^ 63 + score.rank - if score.isNegative then 1 else 0 := by
  have bound := score.bits.toNat_lt
  have clear := signBit_clear_iff (length_u64Bytes score.bits)
  rw [u64OfBytes_u64Bytes] at clear
  unfold encodeScore F64.rank F64.magnitude
  by_cases positive : score.bits &&& signBit = 0
  · have below := and_signBit_eq_zero.mp positive
    have sign : score.isNegative = false := decide_eq_false (by omega)
    rw [if_pos positive, beNat_flipFirst (length_u64Bytes _) (clear.mp positive),
      beNat_u64Bytes, sign]
    simp only [Bool.false_eq_true, if_false]
    omega
  · have above := mt and_signBit_eq_zero.mpr positive
    have sign : score.isNegative = true := decide_eq_true (by omega)
    have flipped := beNat_flipAll (u64Bytes score.bits)
    rw [beNat_u64Bytes, length_u64Bytes] at flipped
    rw [if_neg positive, sign]
    simp only [if_true]
    omega

/-- The encodings are ordered as their places. -/
theorem encodeScore_lt_iff {x y : F64} :
    encodeScore x < encodeScore y ↔
      x.rank - (if x.isNegative then 1 else 0) < y.rank - (if y.isNegative then 1 else 0) := by
  have first := beNat_encodeScore x
  have second := beNat_encodeScore y
  rw [lt_iff_beNat_lt (by simp)]
  omega

theorem rank_nonpos_of_isNegative {x : F64} (negative : x.isNegative = true) : x.rank ≤ 0 := by
  rw [F64.rank, if_pos negative]
  omega

theorem rank_nonneg_of_not_isNegative {x : F64} (positive : x.isNegative = false) : 0 ≤ x.rank := by
  rw [F64.rank, if_neg (by simp [positive])]
  omega

/-- The encodings are in the order of the scores. -/
theorem rank_le_of_encodeScore_lt {x y : F64} (less : encodeScore x < encodeScore y) :
    x.rank ≤ y.rank := by
  rw [encodeScore_lt_iff] at less
  split_ifs at less <;> omega

theorem encodeScore_lt_of_rank_lt {x y : F64} (less : x.rank < y.rank) :
    encodeScore x < encodeScore y := by
  rw [encodeScore_lt_iff]
  split_ifs with first second second
  · omega
  · omega
  · have below := rank_nonpos_of_isNegative second
    have above := rank_nonneg_of_not_isNegative (Bool.eq_false_iff.mpr first)
    omega
  · omega

/-- Only the two zeros have one place in the order and two encodings. -/
theorem zeros_of_encodeScore_lt {x y : F64} (less : encodeScore x < encodeScore y)
    (same : x.rank = y.rank) : x = ⟨signBit⟩ ∧ y = ⟨0⟩ := by
  rw [encodeScore_lt_iff, same] at less
  have boundX := x.bits.toNat_lt
  have boundY := y.bits.toNat_lt
  have negative : x.isNegative = true := by
    by_contra other
    rw [if_neg other] at less
    split_ifs at less <;> omega
  have positive : y.isNegative = false := by
    rw [Bool.eq_false_iff]
    intro other
    rw [if_pos negative, if_pos other] at less
    omega
  rw [F64.rank, F64.rank, if_pos negative, if_neg (by simp [positive])] at same
  rw [F64.isNegative, decide_eq_true_eq] at negative
  rw [F64.isNegative, decide_eq_false_iff_not] at positive
  unfold F64.magnitude at same
  refine ⟨?_, ?_⟩
  · have value : x.bits.toNat = 2 ^ 63 := by omega
    exact congrArg F64.mk (UInt64.toNat_inj.mp (value.trans toNat_signBit.symm))
  · have value : y.bits.toNat = 0 := by omega
    exact congrArg F64.mk (UInt64.toNat_inj.mp value)

theorem encodeScore_injective : Function.Injective encodeScore :=
  Function.LeftInverse.injective decodeScore_encodeScore

end Order

/-- A stored score of eight bytes is read without a panic. -/
theorem scoreOfValue_eq {bytes : Bytes} (width : bytes.length = 8) :
    scoreOfValue bytes = pure (decodeScore bytes) := by
  rw [scoreOfValue, if_neg (by omega), List.take_of_length_le (by omega)]

end Kvdb.Cmd
