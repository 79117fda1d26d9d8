import Mathlib.Data.List.Induction
import Mathlib.Data.List.Lex
import Mathlib.Tactic

/-!
# Byte strings

Byte strings are compared byte by byte, a proper prefix coming first. The
strings that extend a given prefix form an interval of this order that begins
at the prefix, so an ordered scan meets them in one uninterrupted run.

Fixed-width big-endian words are order preserving: among words of one width,
the byte order is the numeric order.
-/

namespace Kvdb.Data

instance byteLinearOrder : LinearOrder UInt8 where
  le_refl := UInt8.le_refl
  le_trans _ _ _ := UInt8.le_trans
  le_antisymm _ _ := UInt8.le_antisymm
  le_total := UInt8.le_total
  lt_iff_le_not_ge a b := by
    rw [UInt8.not_le]
    exact ⟨fun less => ⟨UInt8.le_of_lt less, less⟩, fun both => both.2⟩
  toDecidableLE := inferInstance
  toDecidableLT := inferInstance
  toDecidableEq := inferInstance

abbrev Bytes := List UInt8

section Lexicographic

variable {α : Type*} [LinearOrder α] {a b c p : List α}

/-- A common prefix does not affect a comparison. -/
@[simp] theorem append_lt_append_left_iff : p ++ a < p ++ b ↔ a < b := by
  induction p with
  | nil => rfl
  | cons x p ih => simp [ih]

/-- Strings with heads of one length are compared by their heads first. -/
theorem append_lt_append_iff {x y : List α} (width : a.length = b.length) :
    a ++ x < b ++ y ↔ a < b ∨ a = b ∧ x < y := by
  induction a generalizing b with
  | nil =>
    obtain rfl := List.eq_nil_of_length_eq_zero width.symm
    simp
  | cons first a ih =>
    cases b with
    | nil => cases width
    | cons second b =>
      rw [List.cons_append, List.cons_append, List.cons_lt_cons_iff, List.cons_lt_cons_iff,
        ih (Nat.succ.inj width), List.cons.injEq]
      tauto

/-- No string comes before one of its prefixes. -/
theorem not_lt_of_isPrefix (extends_ : p <+: a) : ¬ a < p := by
  obtain ⟨rest, rfl⟩ := extends_
  induction p with
  | nil => exact List.not_lt_nil _
  | cons x p ih => simpa [List.cons_lt_cons_iff] using ih

/-- The extensions of a prefix are an interval: whatever lies between the
prefix and one of its extensions extends it too. -/
theorem prefix_of_between (lower : ¬ b < p) (upper : b < c) (extends_ : p <+: c) : p <+: b := by
  obtain ⟨rest, rfl⟩ := extends_
  induction p generalizing b with
  | nil => exact List.nil_prefix
  | cons x p ih =>
    cases b with
    | nil => exact absurd (List.nil_lt_cons x p) lower
    | cons y b =>
      simp only [List.cons_append, List.cons_lt_cons_iff, not_or, not_and] at lower upper
      rcases upper with less | ⟨rfl, less⟩
      · exact absurd less lower.1
      · exact List.cons_prefix_cons.mpr ⟨rfl, ih (lower.2 rfl) less⟩

end Lexicographic

section BigEndian

/-- The `width` lowest base-256 digits of a number, most significant first. -/
def beBytes : (width : ℕ) → ℕ → Bytes
  | 0, _ => []
  | width + 1, n => beBytes width (n / 256) ++ [UInt8.ofNat n]

/-- The number a big-endian string of digits denotes. -/
def beNat (digits : Bytes) : ℕ :=
  digits.foldl (fun n digit => n * 256 + digit.toNat) 0

@[simp] theorem length_beBytes (width n : ℕ) : (beBytes width n).length = width := by
  induction width generalizing n with
  | zero => rfl
  | succ width ih => simp [beBytes, ih]

@[simp] theorem beNat_nil : beNat [] = 0 := rfl

@[simp] theorem beNat_concat (digits : Bytes) (digit : UInt8) :
    beNat (digits ++ [digit]) = beNat digits * 256 + digit.toNat := by
  simp [beNat]

/-- Writing a number and reading it back keeps its lowest digits. -/
theorem beNat_beBytes (width n : ℕ) : beNat (beBytes width n) = n % 256 ^ width := by
  induction width generalizing n with
  | zero => simp [beBytes, Nat.mod_one]
  | succ width ih =>
    have digit : (UInt8.ofNat n).toNat = n % 256 := UInt8.toNat_ofNat'
    rw [beBytes, beNat_concat, ih, digit, pow_succ', Nat.mod_mul]
    ring

/-- Reading a word and writing it back at its own width restores it. -/
theorem beBytes_beNat (digits : Bytes) : beBytes digits.length (beNat digits) = digits := by
  induction digits using List.reverseRecOn with
  | nil => rfl
  | append_singleton digits digit ih =>
    have low : digit.toNat < 256 := digit.toNat_lt
    have high : (beNat digits * 256 + digit.toNat) / 256 = beNat digits := by omega
    have last : UInt8.ofNat (beNat digits * 256 + digit.toNat) = digit := by
      apply UInt8.toNat_inj.mp
      rw [UInt8.toNat_ofNat']
      omega
    rw [List.length_append, List.length_singleton, beBytes, beNat_concat, high, last, ih]

theorem beNat_lt (digits : Bytes) : beNat digits < 256 ^ digits.length := by
  rw [← beBytes_beNat digits, beNat_beBytes, length_beBytes]
  exact Nat.mod_lt _ (pow_pos (by norm_num) _)

theorem beNat_append (high low : Bytes) :
    beNat (high ++ low) = beNat high * 256 ^ low.length + beNat low := by
  induction low using List.reverseRecOn with
  | nil => simp
  | append_singleton low digit ih =>
    rw [← List.append_assoc, beNat_concat, ih, beNat_concat, List.length_append,
      List.length_singleton, pow_succ]
    ring

/-- Among words of one width the byte order is the numeric order. -/
theorem lt_iff_beNat_lt {a b : Bytes} (width : a.length = b.length) :
    a < b ↔ beNat a < beNat b := by
  induction a generalizing b with
  | nil => simp [List.eq_nil_of_length_eq_zero width.symm]
  | cons x a ih =>
    cases b with
    | nil => simp at width
    | cons y b =>
      have widths : a.length = b.length := by simpa using width
      have lowA := beNat_lt a
      have lowB := beNat_lt b
      have headA : beNat (x :: a) = x.toNat * 256 ^ a.length + beNat a := by
        simpa [beNat] using beNat_append [x] a
      have headB : beNat (y :: b) = y.toNat * 256 ^ b.length + beNat b := by
        simpa [beNat] using beNat_append [y] b
      rw [List.cons_lt_cons_iff, ih widths, headA, headB, ← widths]
      rw [← widths] at lowB
      constructor
      · rintro (less | ⟨rfl, less⟩)
        · have step : x.toNat + 1 ≤ y.toNat := UInt8.lt_iff_toNat_lt.mp less
          have scaled := Nat.mul_le_mul_right (256 ^ a.length) step
          rw [Nat.add_mul, one_mul] at scaled
          omega
        · omega
      · intro less
        rcases lt_trichotomy x y with below | rfl | above
        · exact .inl below
        · exact .inr ⟨rfl, by omega⟩
        · have step : y.toNat + 1 ≤ x.toNat := UInt8.lt_iff_toNat_lt.mp above
          have scaled := Nat.mul_le_mul_right (256 ^ a.length) step
          rw [Nat.add_mul, one_mul] at scaled
          omega

end BigEndian

end Kvdb.Data
