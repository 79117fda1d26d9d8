import Mathlib.Tactic

/-!
# Texts as bytes

UTF-8 with a decoder that never fails. It puts the replacement character in the
place of each longest piece that begins a character and does not complete it.
Decoding the bytes of a text gives the text.
-/

namespace Kvdb.Data

def utf8 (text : String) : List UInt8 := text.toList.flatMap String.utf8EncodeChar

/-- What stands in the place of bytes that are no character. -/
def replacement : Char := Char.ofNat 0xFFFD

/-- A byte after the first of a character. -/
def isTail (byte : UInt8) : Bool := 0x80 ≤ byte && byte ≤ 0xBF

/-- The second byte of a character. For some first bytes the range is smaller: it
leaves out forms that are too long, surrogates, and what is beyond the last code
point. -/
def isSecond (first second : UInt8) : Bool :=
  isTail second && (first != 0xE0 || 0xA0 ≤ second) && (first != 0xED || second ≤ 0x9F) &&
    (first != 0xF0 || 0x90 ≤ second) && (first != 0xF4 || second ≤ 0x8F)

/-- The characters of a byte string. -/
def decodeLossy : List UInt8 → List Char
  | [] => []
  | a :: rest =>
    if a < 0x80 then Char.ofNat a.toNat :: decodeLossy rest
    else if a < 0xC2 ∨ 0xF4 < a then replacement :: decodeLossy rest
    else
      match rest with
      | [] => [replacement]
      | b :: rest =>
        if ¬ isSecond a b then replacement :: decodeLossy (b :: rest)
        else if a < 0xE0 then
          Char.ofNat ((a.toNat - 0xC0) * 64 + (b.toNat - 0x80)) :: decodeLossy rest
        else
          match rest with
          | [] => [replacement]
          | c :: rest =>
            if ¬ isTail c then replacement :: decodeLossy (c :: rest)
            else if a < 0xF0 then
              Char.ofNat ((a.toNat - 0xE0) * 4096 + (b.toNat - 0x80) * 64 + (c.toNat - 0x80)) ::
                decodeLossy rest
            else
              match rest with
              | [] => [replacement]
              | d :: rest =>
                if ¬ isTail d then replacement :: decodeLossy (d :: rest)
                else
                  Char.ofNat ((a.toNat - 0xF0) * 262144 + (b.toNat - 0x80) * 4096 +
                    (c.toNat - 0x80) * 64 + (d.toNat - 0x80)) :: decodeLossy rest

/-- `String::from_utf8_lossy`. -/
def fromUtf8Lossy (bytes : List UInt8) : String := String.ofList (decodeLossy bytes)

theorem toNat_lt_of_char (c : Char) :
    c.val.toNat < 0xD800 ∨ 0xDFFF < c.val.toNat ∧ c.val.toNat < 0x110000 := by
  simpa [UInt32.isValidChar, Nat.isValidChar] using c.valid

theorem toNat_ofNat_of_lt {n : ℕ} (small : n < 256) : (UInt8.ofNat n).toNat = n := by
  rw [UInt8.toNat_ofNat', Nat.mod_eq_of_lt small]

section Widths

variable {a b c d : UInt8} (rest : List UInt8)

theorem decodeLossy_one (ascii : a < 0x80) :
    decodeLossy (a :: rest) = Char.ofNat a.toNat :: decodeLossy rest := by
  rw [decodeLossy.eq_def]
  simp only [if_pos ascii]

theorem decodeLossy_two (low : 0xC2 ≤ a) (high : a < 0xE0) (second : isSecond a b = true) :
    decodeLossy (a :: b :: rest) =
      Char.ofNat ((a.toNat - 0xC0) * 64 + (b.toNat - 0x80)) :: decodeLossy rest := by
  have wide : ¬ a < 0x80 := by grind
  have first : ¬ (a < 0xC2 ∨ 0xF4 < a) := by grind
  rw [decodeLossy.eq_def]
  simp only [if_neg wide, if_neg first, second, not_true_eq_false, if_false, if_pos high]

theorem decodeLossy_three (low : 0xE0 ≤ a) (high : a < 0xF0) (second : isSecond a b = true)
    (third : isTail c = true) :
    decodeLossy (a :: b :: c :: rest) =
      Char.ofNat ((a.toNat - 0xE0) * 4096 + (b.toNat - 0x80) * 64 + (c.toNat - 0x80)) ::
        decodeLossy rest := by
  have wide : ¬ a < 0x80 := by grind
  have first : ¬ (a < 0xC2 ∨ 0xF4 < a) := by grind
  have three : ¬ a < 0xE0 := by grind
  rw [decodeLossy.eq_def]
  simp only [if_neg wide, if_neg first, if_neg three, second, third, not_true_eq_false, if_false,
    if_pos high]

theorem decodeLossy_four (low : 0xF0 ≤ a) (high : a ≤ 0xF4) (second : isSecond a b = true)
    (third : isTail c = true) (fourth : isTail d = true) :
    decodeLossy (a :: b :: c :: d :: rest) =
      Char.ofNat ((a.toNat - 0xF0) * 262144 + (b.toNat - 0x80) * 4096 + (c.toNat - 0x80) * 64 +
        (d.toNat - 0x80)) :: decodeLossy rest := by
  have wide : ¬ a < 0x80 := by grind
  have first : ¬ (a < 0xC2 ∨ 0xF4 < a) := by grind
  have three : ¬ a < 0xE0 := by grind
  have four : ¬ a < 0xF0 := by grind
  rw [decodeLossy.eq_def]
  simp only [if_neg wide, if_neg first, if_neg three, if_neg four, second, third, fourth,
    not_true_eq_false, if_false]

theorem isTail_ofNat {n : ℕ} (small : n < 64) : isTail (UInt8.ofNat (n + 128)) = true := by
  have byte := toNat_ofNat_of_lt (by omega : n + 128 < 256)
  simp only [isTail, Bool.and_eq_true, decide_eq_true_eq, UInt8.le_iff_toNat_le, byte]
  exact ⟨Nat.le_add_left _ _, by change n + 128 ≤ 191; omega⟩

/-- A tail byte is a second byte, except in the ranges that some first bytes leave
out. -/
theorem isSecond_ofNat {m n : ℕ} (first : m < 256) (small : n < 64) (long : m = 0xE0 → 32 ≤ n)
    (surrogate : m = 0xED → n < 32) (long' : m = 0xF0 → 16 ≤ n) (last : m = 0xF4 → n < 16) :
    isSecond (UInt8.ofNat m) (UInt8.ofNat (n + 128)) = true := by
  have byte := toNat_ofNat_of_lt (by omega : n + 128 < 256)
  have byte' := toNat_ofNat_of_lt first
  simp only [isSecond, isTail_ofNat small, Bool.true_and, Bool.and_eq_true,
    Bool.or_eq_true, bne_iff_ne, decide_eq_true_eq, ne_eq, ← UInt8.toNat_inj, UInt8.le_iff_toNat_le,
      byte, byte']
  refine ⟨⟨⟨?_, ?_⟩, ?_⟩, ?_⟩
  · change ¬ m = 224 ∨ 160 ≤ n + 128
    omega
  · change ¬ m = 237 ∨ n + 128 ≤ 159
    omega
  · change ¬ m = 240 ∨ 144 ≤ n + 128
    omega
  · change ¬ m = 244 ∨ n + 128 ≤ 143
    omega

end Widths

/-- Decoding takes the bytes of a character off the front. -/
theorem decodeLossy_encode_append (c : Char) (rest : List UInt8) :
    decodeLossy (String.utf8EncodeChar c ++ rest) = c :: decodeLossy rest := by
  have valid := toNat_lt_of_char c
  have same : Char.ofNat c.val.toNat = c := Char.ofNat_toNat c
  rw [String.utf8EncodeChar]
  generalize c.val.toNat = v at valid same
  have tail (n : ℕ) : n % 64 < 64 := Nat.mod_lt _ (by decide)
  have value (n : ℕ) : (UInt8.ofNat (n % 64 + 128)).toNat = n % 64 + 128 :=
    toNat_ofNat_of_lt (by have := tail n; omega)
  -- The encoder writes one to four bytes, and each sum puts their bits together again.
  by_cases one : v ≤ 127
  · have byte := toNat_ofNat_of_lt (by omega : v < 256)
    have ascii : UInt8.ofNat v < 0x80 := by
      rw [UInt8.lt_iff_toNat_lt, byte]
      exact Nat.lt_succ_of_le one
    simp only [if_pos one, List.cons_append, List.nil_append]
    rw [decodeLossy_one rest ascii, byte, same]
  by_cases two : v ≤ 2047
  · have lead : v / 64 % 32 + 192 < 256 := by omega
    have byte := toNat_ofNat_of_lt lead
    simp only [if_neg one, if_pos two, List.cons_append, List.nil_append]
    have sum : (v / 64 % 32 + 192 - 192) * 64 + (v % 64 + 128 - 128) = v := by omega
    rw [decodeLossy_two rest, byte, value, sum, same]
    · rw [UInt8.le_iff_toNat_le, byte]
      change 194 ≤ _
      omega
    · rw [UInt8.lt_iff_toNat_lt, byte]
      change _ < 224
      omega
    · exact isSecond_ofNat lead (tail v) (by omega) (by omega) (by omega) (by omega)
  by_cases three : v ≤ 65535
  · have lead : v / 4096 % 16 + 224 < 256 := by omega
    have byte := toNat_ofNat_of_lt lead
    simp only [if_neg one, if_neg two, if_pos three, List.cons_append, List.nil_append]
    have sum : (v / 4096 % 16 + 224 - 224) * 4096 + (v / 64 % 64 + 128 - 128) * 64 +
        (v % 64 + 128 - 128) = v := by omega
    rw [decodeLossy_three rest, byte, value, value, sum, same]
    · rw [UInt8.le_iff_toNat_le, byte]
      change 224 ≤ _
      omega
    · rw [UInt8.lt_iff_toNat_lt, byte]
      change _ < 240
      omega
    · exact isSecond_ofNat lead (tail _) (by omega) (by omega) (by omega) (by omega)
    · exact isTail_ofNat (tail v)
  · have lead : v / 262144 % 8 + 240 < 256 := by omega
    have byte := toNat_ofNat_of_lt lead
    simp only [if_neg one, if_neg two, if_neg three, List.cons_append, List.nil_append]
    have sum : (v / 262144 % 8 + 240 - 240) * 262144 + (v / 4096 % 64 + 128 - 128) * 4096 +
        (v / 64 % 64 + 128 - 128) * 64 + (v % 64 + 128 - 128) = v := by omega
    rw [decodeLossy_four rest, byte, value, value, value, sum, same]
    · rw [UInt8.le_iff_toNat_le, byte]
      change 240 ≤ _
      omega
    · rw [UInt8.le_iff_toNat_le, byte]
      change _ ≤ 244
      omega
    · exact isSecond_ofNat lead (tail _) (by omega) (by omega) (by omega) (by omega)
    · exact isTail_ofNat (tail _)
    · exact isTail_ofNat (tail v)

theorem decodeLossy_utf8 (chars : List Char) :
    decodeLossy (chars.flatMap String.utf8EncodeChar) = chars := by
  induction chars with
  | nil => rfl
  | cons c chars ih => rw [List.flatMap_cons, decodeLossy_encode_append, ih]

@[simp] theorem fromUtf8Lossy_utf8 (text : String) : fromUtf8Lossy (utf8 text) = text := by
  rw [fromUtf8Lossy, utf8, decodeLossy_utf8, String.ofList_toList]

section Ascii

/-- The bytes of a character are the character itself, or none of them is ASCII. -/
theorem utf8EncodeChar_cases (c : Char) :
    (c.val.toNat < 0x80 ∧ String.utf8EncodeChar c = [UInt8.ofNat c.val.toNat]) ∨
      (0x80 ≤ c.val.toNat ∧ ∀ byte ∈ String.utf8EncodeChar c, 0x80 ≤ byte) := by
  rw [String.utf8EncodeChar]
  generalize c.val.toNat = v
  have high {n : ℕ} (large : 128 ≤ n) (small : n < 256) : 0x80 ≤ UInt8.ofNat n := by
    rw [UInt8.le_iff_toNat_le, toNat_ofNat_of_lt small]
    exact large
  by_cases one : v ≤ 127
  · exact .inl ⟨by omega, by simp only [if_pos one]⟩
  refine .inr ⟨by omega, ?_⟩
  simp only [if_neg one]
  split_ifs <;> simp only [List.forall_mem_cons, List.not_mem_nil, false_implies,
    implies_true, and_true]
  · exact ⟨high (by omega) (by omega), high (by omega) (by omega)⟩
  · exact ⟨high (by omega) (by omega), high (by omega) (by omega), high (by omega) (by omega)⟩
  · exact ⟨high (by omega) (by omega), high (by omega) (by omega), high (by omega) (by omega),
      high (by omega) (by omega)⟩

theorem not_mem_utf8_of_ascii {c : Char} (ascii : c.val.toNat < 0x80) {text : String}
    (absent : c ∉ text.toList) : UInt8.ofNat c.val.toNat ∉ utf8 text := by
  rw [utf8, List.mem_flatMap]
  rintro ⟨d, inside, member⟩
  rcases utf8EncodeChar_cases d with ⟨small, shape⟩ | ⟨-, high⟩
  · rw [shape, List.mem_singleton] at member
    have values := congrArg UInt8.toNat member
    rw [toNat_ofNat_of_lt (by omega), toNat_ofNat_of_lt (by omega)] at values
    obtain rfl : c = d := Char.ext (UInt32.toNat_inj.mp values)
    exact absent inside
  · have large := UInt8.le_iff_toNat_le.mp (high _ member)
    rw [toNat_ofNat_of_lt (by omega)] at large
    exact absurd ascii (not_lt.mpr large)

end Ascii

section Lossy

/-- Two byte strings that agree in their ASCII bytes. What stands between these may
differ, if there is something in both. -/
inductive SameAscii : List UInt8 → List UInt8 → Prop
  | nil : SameAscii [] []
  | ascii {a : UInt8} {l l' : List UInt8} (small : a < 0x80) (behind : SameAscii l l') :
      SameAscii (a :: l) (a :: l')
  | other {xs ys l l' : List UInt8} (high : ∀ x ∈ xs, 0x80 ≤ x) (high' : ∀ y ∈ ys, 0x80 ≤ y)
      (present : xs ≠ []) (present' : ys ≠ []) (behind : SameAscii l l') :
      SameAscii (xs ++ l) (ys ++ l')

variable {l l' needle : List UInt8}

theorem SameAscii.symm (same : SameAscii l l') : SameAscii l' l := by
  induction same with
  | nil => exact .nil
  | ascii small _ ih => exact .ascii small ih
  | other high high' present present' _ ih => exact .other high' high present' present ih

/-- ASCII bytes at the front are at the front of both. -/
theorem SameAscii.prefix_of (same : SameAscii l l') (ascii : ∀ b ∈ needle, b < 0x80)
    (begins : needle <+: l) : needle <+: l' := by
  induction same generalizing needle with
  | nil => exact begins
  | @ascii a l l' small _ ih =>
    cases needle with
    | nil => exact List.nil_prefix
    | cons b needle =>
      obtain ⟨rfl, later⟩ := List.cons_prefix_cons.mp begins
      rw [List.forall_mem_cons] at ascii
      exact List.cons_prefix_cons.mpr ⟨rfl, ih ascii.2 later⟩
  | @other xs ys l l' high high' present present' _ ih =>
    cases needle with
    | nil => exact List.nil_prefix
    | cons b needle =>
      obtain ⟨x, xs, rfl⟩ := List.exists_cons_of_ne_nil present
      obtain ⟨rfl, -⟩ := List.cons_prefix_cons.mp begins
      exact absurd (ascii b List.mem_cons_self) (UInt8.not_lt.mpr (high b List.mem_cons_self))

/-- What begins with an absent element lies beyond. -/
theorem infix_of_infix_append {α : Type} {a : α} {rest xs l : List α} (absent : a ∉ xs)
    (inside : a :: rest <:+: xs ++ l) : a :: rest <:+: l := by
  induction xs with
  | nil => exact inside
  | cons x xs ih =>
    rw [List.mem_cons, not_or] at absent
    rcases List.infix_cons_iff.mp inside with begins | behind
    · exact absurd (List.cons_prefix_cons.mp begins).1 absent.1
    · exact ih absent.2 behind

theorem SameAscii.infix_of (same : SameAscii l l') (ascii : ∀ b ∈ needle, b < 0x80)
    (inside : needle <:+: l) : needle <:+: l' := by
  induction same with
  | nil => exact inside
  | @ascii a l l' small behind ih =>
    rcases List.infix_cons_iff.mp inside with begins | later
    · exact ((SameAscii.ascii small behind).prefix_of ascii begins).isInfix
    · exact List.infix_cons (ih later)
  | other high high' _ _ _ ih =>
    cases needle with
    | nil => exact List.nil_infix
    | cons b needle =>
      have absent : b ∉ _ := fun member =>
        absurd (ascii b List.mem_cons_self) (UInt8.not_lt.mpr (high b member))
      exact List.infix_append_of_infix_right (ih (infix_of_infix_append absent inside))

/-- The bounds of the second byte of a character. -/
theorem isSecond_bounds {a b : UInt8} (second : isSecond a b = true) :
    128 ≤ b.toNat ∧ b.toNat ≤ 191 ∧ (a.toNat = 224 → 160 ≤ b.toNat) ∧
      (a.toNat = 237 → b.toNat ≤ 159) ∧
      (a.toNat = 240 → 144 ≤ b.toNat) ∧ (a.toNat = 244 → b.toNat ≤ 143) := by
  simp only [isSecond, isTail, Bool.and_eq_true, decide_eq_true_eq, Bool.or_eq_true, bne_iff_ne,
    UInt8.le_iff_toNat_le, ne_eq, ← UInt8.toNat_inj] at second
  change ((((128 ≤ b.toNat ∧ b.toNat ≤ 191) ∧ (¬ a.toNat = 224 ∨ 160 ≤ b.toNat)) ∧
    (¬ a.toNat = 237 ∨ b.toNat ≤ 159)) ∧ (¬ a.toNat = 240 ∨ 144 ≤ b.toNat)) ∧
    (¬ a.toNat = 244 ∨ b.toNat ≤ 143) at second
  omega

theorem isTail_bounds {b : UInt8} (tail : isTail b = true) : 128 ≤ b.toNat ∧ b.toNat ≤ 191 := by
  simpa [isTail, UInt8.le_iff_toNat_le] using tail

theorem toNat_ofNat_of_valid {n : ℕ} (valid : n < 0xD800 ∨ 0xDFFF < n ∧ n < 0x110000) :
    (Char.ofNat n).val.toNat = n := by
  have known : n.isValidChar := valid
  rw [Char.ofNat, dif_pos known]
  rfl

/-- A character beyond ASCII in the place of bytes beyond ASCII. -/
theorem SameAscii.char {xs : List UInt8} {chars : List Char} {c : Char} (present : xs ≠ [])
    (high : ∀ x ∈ xs, 0x80 ≤ x) (large : 0x80 ≤ c.val.toNat)
    (behind : SameAscii l (chars.flatMap String.utf8EncodeChar)) :
    SameAscii (xs ++ l) ((c :: chars).flatMap String.utf8EncodeChar) := by
  rw [List.flatMap_cons]
  refine .other high ?_ present ?_ behind
  · rcases utf8EncodeChar_cases c with ⟨small, -⟩ | ⟨-, high'⟩
    · exact absurd large (not_le.mpr small)
    · exact high'
  · rw [String.utf8EncodeChar]
    split_ifs <;> exact List.cons_ne_nil _ _

section Pieces

variable {a b c d : UInt8} {rest : List UInt8} {chars : List Char}

theorem lead_bounds (lead : ¬ (a < 0xC2 ∨ 0xF4 < a)) : 194 ≤ a.toNat ∧ a.toNat ≤ 244 := by
  rw [not_or, UInt8.not_lt, UInt8.not_lt, UInt8.le_iff_toNat_le, UInt8.le_iff_toNat_le] at lead
  exact lead

theorem high_of_bounds (bounds : 128 ≤ a.toNat) : 0x80 ≤ a := UInt8.le_iff_toNat_le.mpr bounds

theorem large_three (second : isSecond a b = true) (wide : ¬ a < 0xE0) (narrow : a < 0xF0)
    (tail : isTail c = true) :
    0x80 ≤ (Char.ofNat ((a.toNat - 0xE0) * 4096 + (b.toNat - 0x80) * 64 +
      (c.toNat - 0x80))).val.toNat := by
  have bounds := isSecond_bounds second
  have last := isTail_bounds tail
  have large : 224 ≤ a.toNat := UInt8.le_iff_toNat_le.mp (UInt8.not_lt.mp wide)
  have small : a.toNat < 240 := UInt8.lt_iff_toNat_lt.mp narrow
  rw [toNat_ofNat_of_valid (by omega)]
  omega

variable (lead : ¬ (a < 0xC2 ∨ 0xF4 < a)) (second : isSecond a b = true)
include lead second

theorem high_two : ∀ x ∈ [a, b], 0x80 ≤ x := by
  have first := lead_bounds lead
  have bounds := isSecond_bounds second
  simp only [List.forall_mem_cons, List.not_mem_nil, false_implies, implies_true, and_true]
  exact ⟨high_of_bounds (by omega), high_of_bounds (by omega)⟩

theorem high_three (tail : isTail c = true) : ∀ x ∈ [a, b, c], 0x80 ≤ x := by
  have first := high_two lead second
  have last := high_of_bounds (isTail_bounds tail).1
  simp_all

/-- A character of two bytes is beyond ASCII. -/
theorem large_two (narrow : a < 0xE0) :
    0x80 ≤ (Char.ofNat ((a.toNat - 0xC0) * 64 + (b.toNat - 0x80))).val.toNat := by
  have first := lead_bounds lead
  have bounds := isSecond_bounds second
  have small : a.toNat < 224 := UInt8.lt_iff_toNat_lt.mp narrow
  rw [toNat_ofNat_of_valid (by omega)]
  omega

theorem large_four (wide : ¬ a < 0xF0) (tail : isTail c = true) (tail' : isTail d = true) :
    0x80 ≤ (Char.ofNat ((a.toNat - 0xF0) * 262144 + (b.toNat - 0x80) * 4096 +
      (c.toNat - 0x80) * 64 + (d.toNat - 0x80))).val.toNat := by
  have first := lead_bounds lead
  have bounds := isSecond_bounds second
  have third := isTail_bounds tail
  have last := isTail_bounds tail'
  have large : 240 ≤ a.toNat := UInt8.le_iff_toNat_le.mp (UInt8.not_lt.mp wide)
  rw [toNat_ofNat_of_valid (by omega)]
  omega

end Pieces

/-- Decoding keeps the ASCII bytes and makes no new ones. -/
theorem sameAscii_decodeLossy (bytes : List UInt8) :
    SameAscii bytes ((decodeLossy bytes).flatMap String.utf8EncodeChar) := by
  have replaced : 0x80 ≤ replacement.val.toNat := by decide
  have single {a : UInt8} (lead : ¬ a < 0x80) : ∀ x ∈ [a], 0x80 ≤ x := by
    simpa using UInt8.not_lt.mp lead
  fun_induction decodeLossy bytes with
  | case1 => exact .nil
  | case2 a rest small ih =>
    have value : (Char.ofNat a.toNat).val.toNat = a.toNat :=
      toNat_ofNat_of_valid (.inl (by have := a.toNat_lt; omega))
    have bound : a.toNat < 128 := UInt8.lt_iff_toNat_lt.mp small
    rcases utf8EncodeChar_cases (Char.ofNat a.toNat) with ⟨-, shape⟩ | ⟨large, -⟩
    · rw [List.flatMap_cons, shape, value, UInt8.ofNat_toNat]
      exact .ascii small ih
    · omega
  -- A piece that is no character.
  | case3 a rest lead _ ih => exact .char (List.cons_ne_nil a []) (single lead) replaced ih
  | case4 a lead => exact .char (List.cons_ne_nil a []) (single lead) replaced .nil
  | case5 a lead _ b rest _ ih => exact .char (List.cons_ne_nil a []) (single lead) replaced ih
  | case7 a _ lead b second =>
    exact .char (List.cons_ne_nil a _) (high_two lead (not_not.mp second)) replaced .nil
  | case8 a _ lead b second _ c rest _ ih =>
    exact .char (List.cons_ne_nil a [b]) (high_two lead (not_not.mp second)) replaced ih
  | case10 a _ lead b second _ c tail =>
    exact .char (List.cons_ne_nil a _) (high_three lead (not_not.mp second) (not_not.mp tail))
      replaced .nil
  | case11 a _ lead b second _ c tail _ d rest _ ih =>
    exact .char (List.cons_ne_nil a [b, c]) (high_three lead (not_not.mp second) (not_not.mp tail))
      replaced ih
  -- A character.
  | case6 a _ lead b rest second narrow ih =>
    exact .char (List.cons_ne_nil a [b]) (high_two lead (not_not.mp second))
      (large_two lead (not_not.mp second) narrow) ih
  | case9 a _ lead b second wide c rest tail narrow ih =>
    exact .char (List.cons_ne_nil a [b, c]) (high_three lead (not_not.mp second) (not_not.mp tail))
      (large_three (not_not.mp second) wide narrow (not_not.mp tail)) ih
  | case12 a _ lead b second _ c tail wide d rest tail' ih =>
    have high : ∀ x ∈ [a, b, c, d], 0x80 ≤ x := by
      have first := high_three lead (not_not.mp second) (not_not.mp tail)
      have last := high_of_bounds (isTail_bounds (not_not.mp tail')).1
      simp_all
    exact .char (List.cons_ne_nil a [b, c, d]) high
      (large_four lead (not_not.mp second) wide (not_not.mp tail) (not_not.mp tail')) ih

/-- ASCII bytes occur in a byte string where they occur in its text. -/
theorem infix_fromUtf8Lossy (ascii : ∀ b ∈ needle, b < 0x80) (bytes : List UInt8) :
    needle <:+: utf8 (fromUtf8Lossy bytes) ↔ needle <:+: bytes := by
  have same := sameAscii_decodeLossy bytes
  rw [utf8, fromUtf8Lossy, String.toList_ofList]
  exact ⟨same.symm.infix_of ascii, same.infix_of ascii⟩

end Lossy

end Kvdb.Data
