import Kvdb.Data.Bytes

/-!
# Ordered finite maps

A finite map over a linear order, kept as its entries in strictly increasing
key order. Besides lookup and update it offers the two iterators of an ordered
store: forward from the first key at or after a seek point, and backward from
the last key at or before it. The order is a field, so every map is a
well-formed one and two maps with the same lookups are equal.
-/

namespace Kvdb.Data

section OrderedLists

variable {α : Type*} {R : α → α → Prop} {p : α → Bool} {l : List α}

/-- On an ordered list whose matches come first, taking while matching selects
every match. -/
theorem takeWhile_eq_filter (ordered : l.Pairwise R)
    (closed : ∀ a ∈ l, ∀ b ∈ l, R a b → p b = true → p a = true) :
    l.takeWhile p = l.filter p := by
  induction ordered with
  | nil => rfl
  | @cons a l first _ ih =>
    have inner := ih fun x hx y hy =>
      closed x (List.mem_cons_of_mem _ hx) y (List.mem_cons_of_mem _ hy)
    by_cases holds : p a = true
    · rw [List.takeWhile_cons_of_pos holds, List.filter_cons_of_pos holds, inner]
    · have none : l.filter p = [] := by
        rw [List.filter_eq_nil_iff]
        intro b member matched
        exact holds (closed a List.mem_cons_self b (List.mem_cons_of_mem _ member)
          (first b member) matched)
      rw [List.takeWhile_cons_of_neg holds, List.filter_cons_of_neg holds, none]

/-- On an ordered list whose matches come first, dropping while matching leaves
exactly the others. -/
theorem dropWhile_eq_filter (ordered : l.Pairwise R)
    (closed : ∀ a ∈ l, ∀ b ∈ l, R a b → p b = true → p a = true) :
    l.dropWhile p = l.filter fun a => !p a := by
  induction ordered with
  | nil => rfl
  | @cons a l first _ ih =>
    have inner := ih fun x hx y hy =>
      closed x (List.mem_cons_of_mem _ hx) y (List.mem_cons_of_mem _ hy)
    by_cases holds : p a = true
    · rw [List.dropWhile_cons_of_pos holds, List.filter_cons_of_neg (by simp [holds]), inner]
    · have all : l.filter (fun a => !p a) = l := by
        rw [List.filter_eq_self]
        intro b member
        cases matched : p b with
        | false => rfl
        | true =>
          exact absurd (closed a List.mem_cons_self b (List.mem_cons_of_mem _ member)
            (first b member) matched) holds
      rw [List.dropWhile_cons_of_neg holds, List.filter_cons_of_pos (by simp [holds]), all]

end OrderedLists

section Cuts

variable {κ β : Type*} [LinearOrder κ] {l : List (κ × β)} {key : κ}

/-- Ordered lists with the same entries are equal. -/
theorem eq_of_ordered {l l' : List (κ × β)} (ordered : l.Pairwise fun a b => a.1 < b.1)
    (ordered' : l'.Pairwise fun a b => a.1 < b.1) (same : ∀ e, e ∈ l ↔ e ∈ l') : l = l' := by
  have nodup {o : List (κ × β)} (sorted : o.Pairwise fun a b => a.1 < b.1) : o.Nodup := by
    refine sorted.imp ?_
    rintro a _ less rfl
    exact lt_irrefl _ less
  have perm : l.Perm l' := (List.perm_ext_iff_of_nodup (nodup ordered) (nodup ordered')).mpr same
  exact perm.eq_of_pairwise (fun a b _ _ less greater => absurd less (lt_asymm greater))
    ordered ordered'

def entriesFrom (key : κ) (l : List (κ × β)) : List (κ × β) := l.filter fun e => ¬ e.1 < key

/-- The entries beyond a key. -/
def entriesAfter (key : κ) (l : List (κ × β)) : List (κ × β) := l.filter fun e => key < e.1

theorem mem_entriesFrom {e : κ × β} : e ∈ entriesFrom key l ↔ e ∈ l ∧ ¬ e.1 < key := by
  simp [entriesFrom]

theorem mem_entriesAfter {e : κ × β} : e ∈ entriesAfter key l ↔ e ∈ l ∧ key < e.1 := by
  simp [entriesAfter]

theorem entriesFrom_sublist (key : κ) : (entriesFrom key l).Sublist l := List.filter_sublist

theorem entriesAfter_sublist (key : κ) : (entriesAfter key l).Sublist l := List.filter_sublist

/-- A cut below every match loses no match. -/
theorem filter_entriesFrom {p : κ × β → Bool} (lower : ∀ e ∈ l, p e = true → ¬ e.1 < key) :
    (entriesFrom key l).filter p = l.filter p := by
  rw [entriesFrom, List.filter_filter]
  refine List.filter_congr fun e member => ?_
  by_cases matched : p e = true
  · rw [matched, Bool.true_and, decide_eq_true (lower e member matched)]
  · simp [matched]

theorem filter_entriesAfter (p : κ × β → Bool) :
    (entriesAfter key l).filter p = entriesAfter key (l.filter p) := by
  rw [entriesAfter, entriesAfter, List.filter_filter, List.filter_filter]
  exact List.filter_congr fun e _ => Bool.and_comm _ _

theorem entriesAfter_entriesAfter {other : κ} (further : key < other) :
    entriesAfter other (entriesAfter key l) = entriesAfter other l := by
  rw [entriesAfter, entriesAfter, List.filter_filter]
  refine List.filter_congr fun e _ => ?_
  by_cases beyond : other < e.1
  · simp [beyond, further.trans beyond]
  · simp [beyond]

theorem entriesAfter_eq_self (beyond : ∀ e ∈ l, key < e.1) : entriesAfter key l = l := by
  rw [entriesAfter, List.filter_eq_self]
  exact fun e member => decide_eq_true (beyond e member)

/-- In an ordered list the entries beyond one of them are those that follow it. -/
theorem entriesAfter_split {before after : List (κ × β)} {value : β}
    (ordered : (before ++ (key, value) :: after).Pairwise fun a b => a.1 < b.1) :
    entriesAfter key (before ++ (key, value) :: after) = after := by
  obtain ⟨_, tail, across⟩ := List.pairwise_append.mp ordered
  have none : entriesAfter key before = [] := by
    rw [entriesAfter, List.filter_eq_nil_iff]
    intro e member beyond
    exact lt_asymm (across e member _ List.mem_cons_self) (of_decide_eq_true beyond)
  have all : entriesAfter key after = after :=
    entriesAfter_eq_self (List.pairwise_cons.mp tail).1
  rw [entriesAfter] at none all ⊢
  rw [List.filter_append, none, List.nil_append, List.filter_cons_of_neg (by simp), all]

end Cuts

/-- A finite map, as its entries in strictly increasing key order. -/
@[ext] structure OrderedMap (κ β : Type*) [LinearOrder κ] where
  entries : List (κ × β)
  ordered : entries.Pairwise fun a b => a.1 < b.1

namespace OrderedMap

variable {κ β : Type*} [LinearOrder κ]

instance [DecidableEq β] : DecidableEq (OrderedMap κ β) := fun m n =>
  decidable_of_iff (m.entries = n.entries) OrderedMap.ext_iff.symm

def empty : OrderedMap κ β := ⟨[], .nil⟩

/-- The value stored at a key. -/
def get (m : OrderedMap κ β) (key : κ) : Option β := m.entries.lookup key

/-- Place an entry in an ordered list, replacing one with the same key. -/
def insertEntry (key : κ) (value : β) : List (κ × β) → List (κ × β)
  | [] => [(key, value)]
  | (k, v) :: rest =>
    if key < k then (key, value) :: (k, v) :: rest
    else if k = key then (key, value) :: rest
    else (k, v) :: insertEntry key value rest

private theorem mem_insertEntry {key : κ} {value : β} {e : κ × β} {l : List (κ × β)}
    (member : e ∈ insertEntry key value l) : e = (key, value) ∨ e ∈ l := by
  induction l with
  | nil => exact .inl (List.mem_singleton.mp member)
  | cons head rest ih =>
    rw [insertEntry] at member
    split_ifs at member with before same
    · exact List.mem_cons.mp member
    · exact (List.mem_cons.mp member).imp id (List.mem_cons_of_mem _)
    · rcases List.mem_cons.mp member with rfl | inner
      · exact .inr List.mem_cons_self
      · exact (ih inner).imp id (List.mem_cons_of_mem _)

private theorem insertEntry_ordered (key : κ) (value : β) {l : List (κ × β)}
    (ordered : l.Pairwise fun a b => a.1 < b.1) :
    (insertEntry key value l).Pairwise fun a b => a.1 < b.1 := by
  induction ordered with
  | nil => exact List.pairwise_singleton _ _
  | @cons head rest first tail ih =>
    rw [insertEntry]
    split_ifs with before same
    · refine .cons (fun e member => ?_) (.cons first tail)
      rcases List.mem_cons.mp member with rfl | inner
      · exact before
      · exact before.trans (first e inner)
    · exact .cons (fun e member => same ▸ first e member) tail
    · refine .cons (fun e member => ?_) ih
      rcases mem_insertEntry member with rfl | inner
      · exact lt_of_le_of_ne (not_lt.mp before) same
      · exact first e inner

def insert (m : OrderedMap κ β) (key : κ) (value : β) : OrderedMap κ β :=
  ⟨insertEntry key value m.entries, insertEntry_ordered key value m.ordered⟩

/-- Keep only the entries whose key satisfies a predicate. -/
def filterKeys (m : OrderedMap κ β) (keep : κ → Bool) : OrderedMap κ β :=
  ⟨m.entries.filter fun e => keep e.1, m.ordered.filter _⟩

def erase (m : OrderedMap κ β) (key : κ) : OrderedMap κ β :=
  m.filterKeys fun k => k ≠ key

/-- The entries an iterator meets going forward from a seek point. -/
def forward (m : OrderedMap κ β) (seek : κ) : List (κ × β) :=
  m.entries.dropWhile fun e => e.1 < seek

/-- The entries an iterator meets going backward from a seek point. -/
def backward (m : OrderedMap κ β) (seek : κ) : List (κ × β) :=
  (m.entries.takeWhile fun e => ¬ seek < e.1).reverse

/-- The number of keys that satisfy a predicate. -/
def count (m : OrderedMap κ β) (p : κ → Bool) : ℕ := m.entries.countP fun e => p e.1

theorem lookup_cons_entry {α γ : Type*} [BEq α] [LawfulBEq α] [DecidableEq α] (key k : α) (v : γ)
    (rest : List (α × γ)) :
    ((k, v) :: rest).lookup key = if key = k then some v else rest.lookup key := by
  rw [List.lookup_cons]
  by_cases same : key = k
  · rw [beq_iff_eq.mpr same, if_pos same]
  · rw [beq_eq_false_iff_ne.mpr same, if_neg same]

variable (m : OrderedMap κ β)

theorem mem_entries {key : κ} {value : β} : (key, value) ∈ m.entries ↔ m.get key = some value := by
  obtain ⟨entries, ordered⟩ := m
  rw [get]
  induction ordered with
  | nil => simp
  | @cons head rest first _ ih =>
    obtain ⟨k, v⟩ := head
    rw [List.mem_cons, lookup_cons_entry, Prod.mk.injEq]
    by_cases same : key = k
    · subst same
      have fresh : (key, value) ∉ rest := fun inner => lt_irrefl key (first (key, value) inner)
      simp [fresh, eq_comm]
    · simp [same, ih]

/-- Maps with the same lookups are equal. -/
theorem ext_get {m n : OrderedMap κ β} (same : ∀ key, m.get key = n.get key) : m = n := by
  apply OrderedMap.ext
  apply eq_of_ordered m.ordered n.ordered
  rintro ⟨key, value⟩
  rw [mem_entries, mem_entries, same]

private theorem lookup_insertEntry (key : κ) (value : β) (other : κ) (l : List (κ × β)) :
    (insertEntry key value l).lookup other = if other =
      key then some value else l.lookup other := by
  induction l with
  | nil => rw [insertEntry, lookup_cons_entry]
  | cons head rest ih =>
    obtain ⟨k, v⟩ := head
    rw [insertEntry]
    by_cases before : key < k
    · rw [if_pos before, lookup_cons_entry]
    · rw [if_neg before]
      by_cases equal : k = key
      · subst equal
        simp only [↓reduceIte, lookup_cons_entry]
        split_ifs <;> rfl
      · rw [if_neg equal, lookup_cons_entry, ih, lookup_cons_entry]
        by_cases same : other = key
        · simp [same, Ne.symm equal]
        · simp [same]

theorem get_insert (key : κ) (value : β) (other : κ) :
    (m.insert key value).get other = if other = key then some value else m.get other :=
  lookup_insertEntry key value other m.entries

theorem get_filterKeys (keep : κ → Bool) (key : κ) :
    (m.filterKeys keep).get key = if keep key then m.get key else none := by
  apply Option.ext
  intro value
  rw [← mem_entries, filterKeys, List.mem_filter, mem_entries]
  split_ifs with kept <;> simp [kept]

theorem get_erase (key other : κ) :
    (m.erase key).get other = if other = key then none else m.get other := by
  rw [erase, get_filterKeys]
  by_cases same : other = key <;> simp [same]

private theorem lookup_eq_none_of_lt {key : κ} {l : List (κ × β)}
    (after : ∀ e ∈ l, key < e.1) : l.lookup key = none := by
  rw [List.lookup_eq_none_iff]
  intro e member
  simpa using (after e member).ne

theorem forward_eq_entriesFrom (seek : κ) :
    m.forward seek = entriesFrom seek m.entries := by
  rw [forward, dropWhile_eq_filter m.ordered, entriesFrom]
  · simp only [decide_not]
  · intro a _ b _ less before
    simp only [decide_eq_true_eq] at before ⊢
    exact less.trans before

/-- Going forward from a key meets the key itself, if it is stored, and then
everything beyond it. -/
theorem forward_eq_entriesAfter (seek : κ) :
    m.forward seek =
      ((m.get seek).map fun value => (seek, value)).toList ++ entriesAfter seek m.entries := by
  rw [forward_eq_entriesFrom, entriesFrom, entriesAfter, get]
  obtain ⟨entries, ordered⟩ := m
  change entries.filter _ =
    ((entries.lookup seek).map fun value => (seek, value)).toList ++ entries.filter _
  induction ordered with
  | nil => rfl
  | @cons head rest first _ ih =>
    obtain ⟨k, v⟩ := head
    rw [lookup_cons_entry]
    rcases lt_trichotomy k seek with before | rfl | beyond
    · simpa [before, before.not_gt, before.ne'] using ih
    · have all : ∀ e ∈ rest, ¬ e.1 < k := fun e member => (first e member).not_gt
      have same : rest.filter (fun e => ¬ e.1 < k) = rest.filter fun e => k < e.1 :=
        List.filter_congr fun e member => by simp [first e member, all e member]
      simpa using same
    · have none : rest.lookup seek = none :=
        lookup_eq_none_of_lt fun e member => beyond.trans (first e member)
      rw [none] at ih
      simpa [beyond, beyond.le, beyond.ne, none] using ih

theorem backward_eq_filter (seek : κ) :
    m.backward seek = (m.entries.filter fun e => ¬ seek < e.1).reverse := by
  rw [backward, takeWhile_eq_filter m.ordered]
  intro a _ b _ less within
  simp only [decide_eq_true_eq] at within ⊢
  exact fun after => within (after.trans less)

/-- Storing a value adds one matching key exactly when the key is new and
matches. -/
theorem count_insert (p : κ → Bool) (key : κ) (value : β) :
    (m.insert key value).count p =
      m.count p + if p key && (m.get key).isNone then 1 else 0 := by
  obtain ⟨entries, ordered⟩ := m
  change (insertEntry key value entries).countP (fun e => p e.1) =
    entries.countP (fun e => p e.1) + if p key && (entries.lookup key).isNone then 1 else 0
  induction ordered with
  | nil => simp [insertEntry, List.countP_cons]
  | @cons head rest first _ ih =>
    obtain ⟨k, v⟩ := head
    by_cases before : key < k
    · have absent : ((k, v) :: rest).lookup key = none := by
        apply lookup_eq_none_of_lt
        intro e member
        rcases List.mem_cons.mp member with rfl | inner
        · exact before
        · exact before.trans (first e inner)
      rw [insertEntry, if_pos before, List.countP_cons, absent]
      simp
    · by_cases same : k = key
      · subst same
        rw [insertEntry, if_neg before, if_pos rfl, List.countP_cons, List.countP_cons]
        simp
      · rw [insertEntry, if_neg before, if_neg same, List.countP_cons, ih,
          List.countP_cons, lookup_cons_entry, if_neg (Ne.symm same)]
        omega

/-- Removing a key takes away one matching key exactly when it was stored and
matches. -/
theorem count_erase (p : κ → Bool) (key : κ) :
    (m.erase key).count p + (if p key && (m.get key).isSome then 1 else 0) = m.count p := by
  obtain ⟨entries, ordered⟩ := m
  change (entries.filter fun e => decide (e.1 ≠ key)).countP (fun e => p e.1) +
    (if p key && (entries.lookup key).isSome then 1 else 0) = entries.countP fun e => p e.1
  induction ordered with
  | nil => simp
  | @cons head rest first _ ih =>
    obtain ⟨k, v⟩ := head
    rw [List.countP_cons, lookup_cons_entry]
    by_cases same : key = k
    · subst same
      have untouched : rest.filter (fun e => decide (e.1 ≠ key)) = rest := by
        rw [List.filter_eq_self]
        intro e member
        exact decide_eq_true (first e member).ne'
      rw [List.filter_cons_of_neg (by simp), untouched]
      simp
    · rw [List.filter_cons_of_pos (by simpa using Ne.symm same), List.countP_cons,
        if_neg same, ← ih]
      omega

end OrderedMap

end Kvdb.Data
