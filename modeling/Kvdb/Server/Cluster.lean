import Kvdb.Command.Node
import Kvdb.Data.Spans
import Mathlib.Data.List.AList
import Mathlib.Data.List.Sort

/-!
# The slots of the cluster

`CLUSTER SLOTS` reports the slots of each node as ranges. They are computed from a hash map:
its entries are sorted by slot, and a pass over them joins neighbours that belong to one node.
The pass counts in 16 bits, and its sum is checked here.
-/

namespace Kvdb

open Data

/-- The node of each slot, as a hash map whose entries are in the order of its iteration. -/
structure ClusterState where
  slots : AList fun _ : UInt16 => String

namespace ClusterState

def clusterSlotCount : UInt16 := 16384

/-- A state in which no slot is assigned. -/
def new : ClusterState := ⟨∅⟩

def assignSlot (state : ClusterState) (slot : UInt16) (nodeId : String) : ClusterState :=
  ⟨state.slots.insert slot nodeId⟩

def slotNode (state : ClusterState) (slot : UInt16) : Option String := state.slots.lookup slot

/-- The slot behind another one. The last one has none: its sum overflows. -/
def nextSlot? (slot : UInt16) : Option UInt16 :=
  if slot.toNat + 1 < 2 ^ 16 then some (slot + 1) else none

/-- The pass over the sorted slots, with the range that is still open. -/
def joinSlots? (start stop : UInt16) (current : String) :
    List (UInt16 × String) → Option (List (UInt16 × UInt16 × String))
  | [] => some [(start, stop, current)]
  | (slot, node) :: rest => do
    let next ← nextSlot? stop
    if slot = next ∧ node = current then joinSlots? start slot current rest
    else
      let ranges ← joinSlots? slot slot node rest
      return (start, stop, current) :: ranges

/-- The entries of the map, sorted by slot. -/
def sortedSlots (state : ClusterState) : List (UInt16 × String) :=
  (state.slots.entries.map fun entry => (entry.1, entry.2)).insertionSort fun i j => i.1 ≤ j.1

/-- `slots_ranges`, or nothing if a sum overflows. Without an assignment all slots are local. -/
def slotsRanges? (state : ClusterState) : Option (List (UInt16 × UInt16 × String)) :=
  if state.slots.entries.isEmpty then some [(0, clusterSlotCount - 1, "127.0.0.1:6379")]
  else
    match state.sortedSlots with
    | [] => some []
    | (slot, node) :: rest => joinSlots? slot slot node rest

section Ranges

/-- Ranges that are in order, disjoint and maximal, and have the slots of a map and no
others. -/
structure Describes (ranges : List (UInt16 × UInt16 × String)) (nodeOf : UInt16 → Option String) :
    Prop where
  proper : ∀ range ∈ ranges, range.1 ≤ range.2.1
  apart : ranges.Pairwise fun range next => range.2.1 < next.1
  exact : ∀ slot node, (∃ range ∈ ranges, range.1 ≤ slot ∧ slot ≤ range.2.1 ∧ range.2.2 = node) ↔
    nodeOf slot = some node
  maximal : ranges.IsChain fun range next => range.2.2 = next.2.2 → range.2.1.toNat + 1 <
    next.1.toNat

def toSpan (range : UInt16 × UInt16 × String) : Span String :=
  ⟨range.1.toNat, range.2.1.toNat, range.2.2⟩

/-- A slot as a number. -/
def toLabelled (item : UInt16 × String) : ℕ × String := (item.1.toNat, item.2)

theorem toLabelled_injective : Function.Injective toLabelled := by
  rintro ⟨slot, node⟩ ⟨slot', node'⟩ same
  obtain ⟨first, second⟩ := Prod.mk.inj same
  exact Prod.ext (UInt16.toNat_inj.mp first) second

variable {start stop : UInt16} {current : String} {rest : List (UInt16 × String)}

/-- Every sum of the pass is in front of another slot, so none overflows; the pass joins the
slots as numbers, and agrees with the one that wraps around. -/
theorem joinSlots?_eq (behind : ∀ item ∈ rest, stop < item.1)
    (ordered : rest.Pairwise fun i j => i.1 < j.1) :
    joinSlots? start stop current rest = some (Node.joinSlots start stop current rest) ∧
      (Node.joinSlots start stop current rest).map toSpan =
        spansFrom (toSpan (start, stop, current)) (rest.map toLabelled) := by
  induction rest generalizing start stop current with
  | nil => exact ⟨rfl, rfl⟩
  | cons item rest ih =>
    obtain ⟨slot, node⟩ := item
    obtain ⟨first, sorted⟩ := List.pairwise_cons.mp ordered
    have next : stop.toNat < slot.toNat := UInt16.lt_iff_toNat_lt.mp (behind _ List.mem_cons_self)
    have room : stop.toNat + 1 < 2 ^ 16 := by
      have bound := slot.toNat_lt
      omega
    have successor : slot = stop + 1 ↔ slot.toNat = stop.toNat + 1 := by
      rw [← UInt16.toNat_inj, UInt16.toNat_add, UInt16.toNat_one, Nat.mod_eq_of_lt room]
    have sum : nextSlot? stop = some (stop + 1) := if_pos room
    simp only [joinSlots?, sum, Option.bind_eq_bind, Option.bind_some, Node.joinSlots,
      List.map_cons, toLabelled, spansFrom]
    by_cases joined : slot = stop + 1 ∧ node = current
    · rw [if_pos joined, if_pos joined, if_pos ⟨successor.mp joined.1, joined.2⟩]
      exact ih first sorted
    · rw [if_neg joined, if_neg joined, if_neg fun both => joined ⟨successor.mpr both.1, both.2⟩]
      obtain ⟨ran, spans⟩ := @ih slot slot node first sorted
      rw [ran, List.map_cons, spans]
      exact ⟨rfl, rfl⟩

/-- Ranges describe what their spans cover. -/
theorem Describes.of_covers {ranges : List (UInt16 × UInt16 × String)}
    {nodeOf : UInt16 → Option String} {listed : ℕ → String → Prop}
    (covers : Covers (ranges.map toSpan) listed)
    (same : ∀ slot node, listed slot.toNat node ↔ nodeOf slot = some node) :
    Describes ranges nodeOf where
  proper range inside :=
    UInt16.le_iff_toNat_le.mpr (covers.proper (toSpan range) (List.mem_map_of_mem inside))
  apart := (List.pairwise_map.mp covers.apart).imp fun less => UInt16.lt_iff_toNat_lt.mpr less
  exact slot node := by
    rw [← same, ← covers.exact, Covered]
    simp [toSpan, UInt16.le_iff_toNat_le]
  maximal := (List.isChain_map toSpan).mp covers.maximal

instance totalSlots : Std.Total fun i j : UInt16 × String => i.1 ≤ j.1 :=
  ⟨fun i j => UInt16.le_total i.1 j.1⟩

instance transSlots : IsTrans (UInt16 × String) fun i j => i.1 ≤ j.1 :=
  ⟨fun _ _ _ => UInt16.le_trans⟩

variable (state : ClusterState)

theorem sortedSlots_perm :
    state.sortedSlots.Perm (state.slots.entries.map fun entry => (entry.1, entry.2)) :=
  List.perm_insertionSort _ _

theorem mem_sortedSlots {slot : UInt16} {node : String} :
    (slot, node) ∈ state.sortedSlots ↔ state.slotNode slot = some node := by
  rw [state.sortedSlots_perm.mem_iff, slotNode, ← Option.mem_def, AList.mem_lookup_iff]
  simp only [List.mem_map, Prod.mk.injEq]
  constructor
  · rintro ⟨entry, inside, rfl, rfl⟩
    exact inside
  · intro inside
    exact ⟨_, inside, rfl, rfl⟩

/-- Each slot has one entry, so the sorted entries are in strict order. -/
theorem sortedSlots_ordered : state.sortedSlots.Pairwise fun i j => i.1 < j.1 := by
  have distinct : (state.sortedSlots.map Prod.fst).Nodup := by
    rw [(state.sortedSlots_perm.map Prod.fst).nodup_iff, List.map_map]
    exact state.slots.keys_nodup
  have ordered : state.sortedSlots.Pairwise fun i j => i.1 ≤ j.1 := List.pairwise_insertionSort _ _
  refine ((List.pairwise_map.mp distinct).and ordered).imp fun both => ?_
  exact UInt16.lt_of_le_of_ne both.2 both.1

theorem isEmpty_sortedSlots : state.sortedSlots.isEmpty = state.slots.entries.isEmpty := by
  rw [state.sortedSlots_perm.isEmpty_eq, List.isEmpty_map]

/-- What a node that keeps its slots in order reports as ranges. -/
theorem slotsRanges?_eq (node : Node) :
    state.slotsRanges? = some { node with slots := state.sortedSlots }.slotsRanges := by
  have ordered := state.sortedSlots_ordered
  rw [slotsRanges?, ← isEmpty_sortedSlots, Node.slotsRanges]
  cases shape : state.sortedSlots with
  | nil => rfl
  | cons item rest =>
    rw [shape] at ordered
    obtain ⟨first, sorted⟩ := List.pairwise_cons.mp ordered
    exact (joinSlots?_eq first sorted).1

/-- The ranges of a state with slots describe them, and no sum overflows. -/
theorem slots_ranges_exact (assigned : state.slots ≠ ∅) :
    ∃ ranges, state.slotsRanges? = some ranges ∧ Describes ranges state.slotNode := by
  have nonempty : ¬ state.slots.entries.isEmpty := fun empty =>
    assigned (AList.ext (List.isEmpty_iff.mp empty))
  have ordered := state.sortedSlots_ordered
  have listed := @mem_sortedSlots state
  rw [slotsRanges?, ← isEmpty_sortedSlots]
  rw [← isEmpty_sortedSlots] at nonempty
  cases shape : state.sortedSlots with
  | nil =>
    rw [shape] at nonempty
    exact absurd rfl nonempty
  | cons item rest =>
    obtain ⟨slot, node⟩ := item
    rw [shape] at ordered listed
    obtain ⟨first, sorted⟩ := List.pairwise_cons.mp ordered
    obtain ⟨ran, spans⟩ := @joinSlots?_eq slot slot node rest first sorted
    have covers := @covers_spansFrom _ _ (toSpan (slot, slot, node)) (rest.map toLabelled) le_rfl
      (List.forall_mem_map.mpr fun item inside => UInt16.lt_iff_toNat_lt.mp (first item inside))
      (List.pairwise_map.mpr (sorted.imp fun less => UInt16.lt_iff_toNat_lt.mp less))
    rw [← spans] at covers
    refine ⟨_, ran, .of_covers covers fun other name => ?_⟩
    rw [← listed, List.mem_cons, Prod.mk.injEq]
    apply or_congr
    · -- The span that is open at the beginning is one slot.
      rw [← UInt16.toNat_inj, ← and_assoc, @eq_comm _ name node]
      exact and_congr_left fun _ =>
        ⟨fun both => le_antisymm both.2 both.1, fun same => ⟨same.ge, same.le⟩⟩
    · exact @List.mem_map_of_injective _ _ toLabelled toLabelled_injective (other, name) rest

/-- Two neighbours of one node and the last slot, assigned in another order. -/
theorem slots_ranges_exact_of_three :
    let state := ((new.assignSlot 65535 "a").assignSlot 1 "b").assignSlot 0 "b"
    state.slotsRanges? = some [(0, 1, "b"), (65535, 65535, "a")] ∧
      ∃ ranges, state.slotsRanges? = some ranges ∧ Describes ranges state.slotNode := by
  intro state
  refine ⟨by decide, slots_ranges_exact state fun empty => ?_⟩
  exact absurd (congrArg (fun slots : AList _ => slots.entries.length) empty) (by decide)

end Ranges

end ClusterState

end Kvdb
