import Mathlib.Data.List.DropRight
import Mathlib.Data.List.GetD
import Mathlib.Tactic

/-!
# Lists with blanks

A list stands for its items and a blank in every place behind them. It is trimmed if its last
item is no blank, and then the items determine it. Assigning to a place makes the list longer
if it has to.
-/

namespace Kvdb.Data

variable {α : Type} {blank : α} {l l' : List α}

/-- The item in a place, which is blank behind the end. -/
def itemAt (blank : α) (l : List α) (k : ℕ) : α := l.getD k blank

/-- The last item, if there is one, is not blank. -/
def Trimmed (blank : α) (l : List α) : Prop := ∀ k, l.length = k + 1 → itemAt blank l k ≠ blank

theorem itemAt_of_lt {k : ℕ} (inside : k < l.length) : itemAt blank l k = l[k] :=
  List.getD_eq_getElem l blank inside

theorem itemAt_of_ge {k : ℕ} (beyond : l.length ≤ k) : itemAt blank l k = blank :=
  List.getD_eq_default l blank beyond

theorem trimmed_nil : Trimmed blank ([] : List α) := nofun

/-- A trimmed list is no longer than another one with the same items. -/
theorem Trimmed.length_le (trimmed : Trimmed blank l)
    (same : ∀ k, itemAt blank l k = itemAt blank l' k) : l.length ≤ l'.length := by
  by_contra shorter
  obtain ⟨k, last⟩ : ∃ k, l.length = k + 1 := ⟨l.length - 1, by omega⟩
  exact trimmed k last ((same k).trans (itemAt_of_ge (by omega)))

/-- Trimmed lists are the same if their items are. -/
theorem Trimmed.ext (trimmed : Trimmed blank l) (trimmed' : Trimmed blank l')
    (same : ∀ k, itemAt blank l k = itemAt blank l' k) : l = l' := by
  have lengths : l.length = l'.length :=
    Nat.le_antisymm (trimmed.length_le same) (trimmed'.length_le fun k => (same k).symm)
  refine List.ext_getElem lengths fun k inside inside' => ?_
  rw [← itemAt_of_lt inside, ← itemAt_of_lt inside', same]

section Assignment

/-- Assign to a place. The places in between are blank. -/
def putAt (blank : α) (l : List α) (k : ℕ) (x : α) : List α :=
  (l ++ List.replicate (k + 1 - l.length) blank).set k x

theorem length_putAt (k : ℕ) (x : α) : (putAt blank l k x).length = max l.length (k + 1) := by
  rw [putAt, List.length_set, List.length_append, List.length_replicate]
  omega

theorem itemAt_putAt (k : ℕ) (x : α) (j : ℕ) :
    itemAt blank (putAt blank l k x) j = if j = k then x else itemAt blank l j := by
  rcases Nat.lt_or_ge j (putAt blank l k x).length with inside | beyond
  · rw [itemAt_of_lt inside]
    rw [length_putAt] at inside
    simp only [putAt, List.getElem_set, List.getElem_append, List.getElem_replicate]
    by_cases here : j = k
    · simp [here]
    · rw [if_neg (Ne.symm here), if_neg here]
      split_ifs with before
      · rw [itemAt_of_lt before]
      · rw [itemAt_of_ge (by omega)]
  · rw [itemAt_of_ge beyond]
    rw [length_putAt] at beyond
    rw [if_neg (by omega), itemAt_of_ge (by omega)]

theorem Trimmed.putAt (trimmed : Trimmed blank l) {x : α} (some : x ≠ blank) (k : ℕ) :
    Trimmed blank (Data.putAt blank l k x) := by
  intro j last
  rw [length_putAt] at last
  rw [itemAt_putAt]
  split_ifs with here
  · exact some
  · exact trimmed j (by omega)

end Assignment

section Trimming

variable [DecidableEq α]

def trim (blank : α) (l : List α) : List α := l.rdropWhile (· = blank)

theorem trim_concat (l : List α) (x : α) :
    trim blank (l ++ [x]) = if x = blank then trim blank l else l ++ [x] := by
  simp [trim, List.rdropWhile_concat]

theorem itemAt_trim (l : List α) (k : ℕ) : itemAt blank (trim blank l) k = itemAt blank l k := by
  induction l using List.reverseRecOn with
  | nil => rfl
  | append_singleton l x ih =>
    rw [trim_concat]
    split_ifs with none
    · rw [ih]
      rcases Nat.lt_trichotomy k l.length with before | rfl | beyond
      · rw [itemAt_of_lt before, itemAt_of_lt (by simp; omega), List.getElem_append_left before]
      · rw [itemAt_of_ge le_rfl, itemAt_of_lt (by simp)]
        simp [none]
      · rw [itemAt_of_ge (by omega), itemAt_of_ge (by simp; omega)]
    · rfl

theorem trimmed_trim (l : List α) : Trimmed blank (trim blank l) := by
  induction l using List.reverseRecOn with
  | nil => exact trimmed_nil
  | append_singleton l x ih =>
    rw [trim_concat]
    split_ifs with none
    · exact ih
    · intro k last
      obtain rfl : k = l.length := by simpa using last.symm
      rw [itemAt_of_lt (by simp)]
      simpa using none

/-- Nothing is trimmed off if and only if there is no item, or the last one is not blank. -/
theorem trim_eq_self_iff : trim blank l = l ↔ l.getLast? ≠ some blank := by
  induction l using List.reverseRecOn with
  | nil => simp [trim]
  | append_singleton l x ih =>
    rw [trim_concat, List.getLast?_concat, ne_eq, Option.some.injEq]
    split_ifs with none
    · refine iff_of_false (fun same => ?_) (not_not.mpr none)
      have shorter : (trim blank l).length ≤ l.length := (List.rdropWhile_prefix ..).length_le
      have longer := congrArg List.length same
      simp at longer
      omega
    · exact iff_of_true rfl none

/-- Trimming gives a list of the same length only if nothing is trimmed off. -/
theorem trim_eq_iff (lengths : l.length = l'.length) :
    trim blank l = l' ↔ l = l' ∧ l.getLast? ≠ some blank := by
  constructor
  · rintro rfl
    have whole : trim blank l = l := (List.rdropWhile_prefix ..).eq_of_length lengths.symm
    exact ⟨whole.symm, trim_eq_self_iff.mp whole⟩
  · rintro ⟨rfl, last⟩
    exact trim_eq_self_iff.mpr last

end Trimming

end Kvdb.Data
