import Mathlib.Data.List.Chain
import Mathlib.Tactic

/-!
# Spans of labelled numbers

A list of numbers with labels, in increasing order, is compressed to spans: neighbouring
numbers with one label become one span. The spans cover what was listed, no more and no
less, and no two of them could be joined.
-/

namespace Kvdb.Data

/-- The numbers from the first to the last, all with one label. -/
structure Span (α : Type*) where
  first : ℕ
  last : ℕ
  label : α

variable {α : Type*}

/-- A number lies in one of the spans, which has the label. -/
def Covered (spans : List (Span α)) (n : ℕ) (label : α) : Prop :=
  ∃ span ∈ spans, span.first ≤ n ∧ n ≤ span.last ∧ span.label = label

/-- Spans that are in order, apart and maximal, and cover what they should. -/
structure Covers (spans : List (Span α)) (listed : ℕ → α → Prop) : Prop where
  proper : ∀ span ∈ spans, span.first ≤ span.last
  apart : spans.Pairwise fun span next => span.last < next.first
  maximal : spans.IsChain fun span next => span.label = next.label → span.last + 1 < next.first
  exact : ∀ n label, Covered spans n label ↔ listed n label

section Joining

variable [DecidableEq α]

/-- Join what follows to a span as long as it is its neighbour, and then to new spans. -/
def spansFrom (span : Span α) : List (ℕ × α) → List (Span α)
  | [] => [span]
  | (n, label) :: rest =>
    if n = span.last + 1 ∧ label = span.label then spansFrom { span with last := n } rest
    else span :: spansFrom ⟨n, n, label⟩ rest

omit [DecidableEq α] in
theorem covered_cons {span : Span α} {spans : List (Span α)} {n : ℕ} {label : α} :
    Covered (span :: spans) n label ↔
      span.first ≤ n ∧ n ≤ span.last ∧ span.label = label ∨ Covered spans n label := by
  simp [Covered]

/-- The first of the spans begins where the joining began. -/
theorem exists_spansFrom (span : Span α) (rest : List (ℕ × α)) :
    ∃ last spans, spansFrom span rest = { span with last } :: spans := by
  induction rest generalizing span with
  | nil => exact ⟨span.last, [], rfl⟩
  | cons item rest ih =>
    rw [spansFrom]
    split_ifs with joined
    · exact ih { span with last := item.1 }
    · exact ⟨span.last, spansFrom ⟨item.1, item.1, item.2⟩ rest, rfl⟩

/-- Joining covers the span it began with and all that was listed. -/
theorem covers_spansFrom {span : Span α} {rest : List (ℕ × α)} (proper : span.first ≤ span.last)
    (behind : ∀ item ∈ rest, span.last < item.1) (ordered : rest.Pairwise fun i j => i.1 < j.1) :
    Covers (spansFrom span rest) fun n label =>
      span.first ≤ n ∧ n ≤ span.last ∧ span.label = label ∨ (n, label) ∈ rest := by
  induction rest generalizing span with
  | nil =>
    refine ⟨by simpa [spansFrom] using proper, List.pairwise_singleton _ _,
      List.isChain_singleton _, ?_⟩
    intro n label
    simp [spansFrom, Covered]
  | cons item rest ih =>
    obtain ⟨n, label⟩ := item
    obtain ⟨first, sorted⟩ := List.pairwise_cons.mp ordered
    have next : span.last < n := behind (n, label) List.mem_cons_self
    rw [spansFrom]
    split_ifs with joined
    · obtain ⟨rfl, rfl⟩ := joined
      have covers := @ih { span with last := span.last + 1 } (Nat.le_succ_of_le proper) first sorted
      refine ⟨covers.proper, covers.apart, covers.maximal, fun m other => ?_⟩
      rw [covers.exact, List.mem_cons, Prod.mk.injEq, ← or_assoc]
      refine or_congr_left ?_
      constructor
      · rintro ⟨above, below, rfl⟩
        rcases Nat.lt_or_ge span.last m with new | old
        · exact .inr ⟨le_antisymm below new, rfl⟩
        · exact .inl ⟨above, old, rfl⟩
      · rintro (⟨above, below, rfl⟩ | ⟨rfl, rfl⟩)
        · exact ⟨above, Nat.le_succ_of_le below, rfl⟩
        · exact ⟨Nat.le_succ_of_le proper, le_rfl, rfl⟩
    · have covers := @ih ⟨n, n, label⟩ le_rfl first sorted
      obtain ⟨last, spans, shape⟩ := exists_spansFrom ⟨n, n, label⟩ rest
      refine ⟨?_, ?_, ?_, fun m other => ?_⟩
      · exact List.forall_mem_cons.mpr ⟨proper, covers.proper⟩
      · refine List.pairwise_cons.mpr ⟨fun other member => next.trans_le ?_, covers.apart⟩
        rw [shape] at member covers
        rcases List.mem_cons.mp member with rfl | member
        · exact le_rfl
        · have head : n ≤ last := covers.proper _ List.mem_cons_self
          exact head.trans ((List.pairwise_cons.mp covers.apart).1 other member).le
      · rw [shape]
        refine List.isChain_cons_cons.mpr ⟨fun same => ?_, shape ▸ covers.maximal⟩
        -- The next span has the label and is no neighbour, or it would have been joined.
        have apart : n ≠ span.last + 1 := fun neighbour => joined ⟨neighbour, same.symm⟩
        show span.last + 1 < n
        omega
      · rw [covered_cons, covers.exact, List.mem_cons, Prod.mk.injEq]
        refine or_congr_right (or_congr_left ?_)
        constructor
        · rintro ⟨above, below, rfl⟩
          exact ⟨le_antisymm below above, rfl⟩
        · rintro ⟨rfl, rfl⟩
          exact ⟨le_rfl, le_rfl, rfl⟩

end Joining

end Kvdb.Data
