import Kvdb.Storage

/-!
# Paged scans

A page scan returns the first `limit` entries of what is still ahead, and a key
to resume after exactly when more entries behind the prefix follow. Resuming
after the last key of a page continues where the page stopped, so a paging loop
visits exactly the entries of the prefix scan.

The empty start key stands for the beginning of the scan. A page that ends at
the empty key therefore cannot be resumed: the scan starts over.
-/

namespace Kvdb

open Data Semantics

section Pages

/-- The entries of a family behind a prefix, in key order. -/
def Store.behind (store : Store) (cf : ColumnFamily) (pre : Bytes) : List Entry :=
  (store.family cf).entries.filter fun e => startsWith e.1 pre

/-- The first page of a list of entries, with the key to resume after if there
is more. -/
def pageOf (limit : ℕ) (entries : List Entry) : Page :=
  (entries.take limit,
    if limit < entries.length then (entries.take limit).getLast?.map Prod.fst else none)

/-- The loop collects the matching entries ahead until the page is full. -/
private theorem pageLoop_result (pre startKey : Bytes) {limit : ℕ} (items result : List Entry)
    (room : result.length < limit) :
    let ahead := items.takeWhile fun e => startsWith e.1 pre
    pageResult pre limit
        (pageLoop pre startKey limit ⟨result, result.getLast?.map Prod.fst, false, false⟩ items) =
      (result ++ ahead.take (limit - result.length),
        if limit - result.length < ahead.length then
          (result ++ ahead.take (limit - result.length)).getLast?.map Prod.fst
        else none) := by
  induction items generalizing result with
  | nil => simp [pageLoop, pageResult, room]
  | cons item items ih =>
    obtain ⟨k, v⟩ := item
    by_cases inside : startsWith k pre
    · have ahead : ((k, v) :: items).takeWhile (fun e => startsWith e.1 pre) =
          (k, v) :: items.takeWhile fun e => startsWith e.1 pre := by
        simp [inside]
      by_cases full : limit ≤ (result ++ [(k, v)]).length
      · have last : limit - result.length = 1 := by simp at full; omega
        simp only [pageLoop, Bool.false_eq_true, false_and, if_false, inside, not_true_eq_false,
          if_pos full, pageResult, ahead, last]
        rw [if_neg (by simpa using full)]
        cases items with
        | nil => simp
        | cons next items =>
          by_cases more : startsWith next.1 pre
          · simp [more]
          · simp [more]
      · have step : limit - result.length = (limit - (result ++ [(k, v)]).length) + 1 := by
          simp at full ⊢
          omega
        have next := ih (result ++ [(k, v)]) (by omega)
        have lastKey : (result ++ [(k, v)]).getLast?.map Prod.fst = some k := by simp
        rw [lastKey] at next
        simp only [pageLoop, Bool.false_eq_true, false_and, if_false, inside, not_true_eq_false,
          if_neg full, ahead, step, List.take_succ_cons,
          List.length_cons, Nat.add_lt_add_iff_right]
        rw [next]
        simp only [List.append_assoc, List.singleton_append]
    · simp [pageLoop, pageResult, inside, room]

/-- An ordered list that starts at or after the prefix meets its matches first. -/
private theorem takeWhile_startsWith {pre : Bytes} {items : List Entry}
    (ordered : items.Pairwise fun a b => a.1 < b.1) (lower : ∀ e ∈ items, ¬ e.1 < pre) :
    items.takeWhile (fun e => startsWith e.1 pre) = items.filter fun e => startsWith e.1 pre := by
  refine takeWhile_eq_filter ordered fun a member b _ less matched => ?_
  rw [startsWith_iff] at matched ⊢
  exact prefix_of_between (lower a member) less matched

end Pages

section Positions

variable {store : Store} {cf : ColumnFamily} {pre start : Bytes} {rest : List Entry} {limit : ℕ}
  {env : Env}

theorem Store.behind_ordered (store : Store) (cf : ColumnFamily) (pre : Bytes) :
    (store.behind cf pre).Pairwise fun a b => a.1 < b.1 :=
  (store.family cf).ordered.filter _

theorem Store.mem_behind {key value : Bytes} :
    (key, value) ∈ store.behind cf pre ↔ store.get cf key = some value ∧ pre <+: key := by
  rw [Store.behind, List.mem_filter, OrderedMap.mem_entries, startsWith_iff, Store.get]

/-- The keys behind a prefix come first among those from the prefix on. -/
private theorem forward_takeWhile (store : Store) (cf : ColumnFamily) (pre : Bytes) :
    ((store.family cf).forward pre).takeWhile (fun e => startsWith e.1 pre) =
      store.behind cf pre := by
  have ordered := (store.family cf).ordered.sublist (entriesFrom_sublist pre)
  rw [OrderedMap.forward_eq_entriesFrom,
    takeWhile_startsWith ordered fun e member => (mem_entriesFrom.mp member).2,
    filter_entriesFrom fun e _ inside => not_lt_of_isPrefix (startsWith_iff.mp inside),
      Store.behind]

/-- The keys behind a prefix come first among those beyond one of them. -/
private theorem after_takeWhile (store : Store) (cf : ColumnFamily) {pre key : Bytes}
    (inside : pre <+: key) :
    (entriesAfter key (store.family cf).entries).takeWhile (fun e => startsWith e.1 pre) =
      entriesAfter key (store.behind cf pre) := by
  have ordered := (store.family cf).ordered.sublist (entriesAfter_sublist key)
  rw [takeWhile_startsWith ordered, filter_entriesAfter, Store.behind]
  intro e member less
  have beyond := (mem_entriesAfter.mp member).2
  exact not_lt_of_isPrefix inside (lt_trans beyond less)

/-- The prefix scan returns exactly the entries behind the prefix. -/
theorem exec_prefixScan :
    exec env (prefixScan cf pre) store = (.ok (store.behind cf pre), store) := by
  rw [prefixScan, exec_iterate_bind, exec_pure, Store.iterate, forward_takeWhile]

/-- Where a paging loop stands: the start key it passes next, and the entries
behind the prefix that are still ahead of it. The start key need not be stored
any more. -/
inductive Position (store : Store) (cf : ColumnFamily) (pre : Bytes) :
    Bytes → List Entry → Prop
  | first : Position store cf pre [] (store.behind cf pre)
  | resume {key : Bytes} (nonempty : key ≠ []) (inside : pre <+: key) :
      Position store cf pre key (entriesAfter key (store.behind cf pre))

theorem Position.ordered (position : Position store cf pre start rest) :
    rest.Pairwise fun a b => a.1 < b.1 := by
  cases position with
  | first => exact store.behind_ordered cf pre
  | resume => exact (store.behind_ordered cf pre).sublist (entriesAfter_sublist _)

theorem Position.startsWith (position : Position store cf pre start rest) {e : Entry}
    (member : e ∈ rest) : pre <+: e.1 := by
  cases position with
  | first => exact (Store.mem_behind.mp member).2
  | resume => exact (Store.mem_behind.mp (mem_entriesAfter.mp member).1).2

private theorem scanPage_plain {pre : Bytes} (startKey : Bytes) (items : List Entry)
    (positive : 0 < limit) :
    scanPage pre startKey limit false items =
      pageOf limit (items.takeWhile fun e => startsWith e.1 pre) := by
  simpa [scanPage, pageOf] using pageLoop_result pre startKey items [] positive

/-- A page that resumes skips its start key if that is the first thing it meets. -/
private theorem scanPage_skip {pre startKey : Bytes} (found : Option Bytes) (items : List Entry)
    (others : ∀ e ∈ items, e.1 ≠ startKey) :
    scanPage pre startKey limit true
        ((found.map fun value => (startKey, value)).toList ++ items) =
      scanPage pre startKey limit false items := by
  cases found with
  | some value => simp [scanPage, pageLoop]
  | none =>
    cases items with
    | nil => rfl
    | cons e items =>
      simp [scanPage, pageLoop, others e List.mem_cons_self]

theorem Position.stored (position : Position store cf pre start rest) {key value : Bytes}
    (member : (key, value) ∈ rest) : store.get cf key = some value := by
  cases position with
  | first => exact (Store.mem_behind.mp member).1
  | resume => exact (Store.mem_behind.mp (mem_entriesAfter.mp member).1).1

/-- A page of no entries is a page of one entry. -/
private theorem scanPage_zero (pre startKey : Bytes) (items : List Entry) :
    scanPage pre startKey 0 false items = scanPage pre startKey 1 false items := by
  cases items with
  | nil => rfl
  | cons item items =>
    by_cases inside : startsWith item.1 pre <;> simp [scanPage, pageLoop, pageResult, inside]

/-- A page depends on the matching entries ahead. -/
private theorem scanPage_congr {pre startKey : Bytes} {items items' : List Entry}
    (same : items'.takeWhile (fun e => startsWith e.1 pre) =
      items.takeWhile fun e => startsWith e.1 pre) :
    scanPage pre startKey limit false items' = scanPage pre startKey limit false items := by
  cases limit with
  | zero =>
    rw [scanPage_zero, scanPage_zero, scanPage_plain _ _ Nat.one_pos,
      scanPage_plain _ _ Nat.one_pos, same]
  | succ limit => rw [scanPage_plain _ _ limit.succ_pos, scanPage_plain _ _ limit.succ_pos, same]

/-- An entry stands between a start key and the keys behind a prefix. A scan stops
there. -/
def Store.Barred (store : Store) (cf : ColumnFamily) (start pre : Bytes) : Prop :=
  ∃ phys value, store.get cf phys = some value ∧ start < phys ∧ phys < pre

/-- The first entry that a barred scan meets is the bar, or stands before it. -/
private theorem takeWhile_barred (barred : store.Barred cf start pre) :
    (entriesAfter start (store.family cf).entries).takeWhile (fun e => startsWith e.1 pre) =
      [] := by
  obtain ⟨phys, value, stored, beyond, below⟩ := barred
  have ordered := (store.family cf).ordered.sublist (entriesAfter_sublist start)
  have member : (phys, value) ∈ entriesAfter start (store.family cf).entries :=
    mem_entriesAfter.mpr ⟨((store.family cf).mem_entries).mpr stored, beyond⟩
  cases items : entriesAfter start (store.family cf).entries with
  | nil => rfl
  | cons item rest =>
    rw [items] at ordered member
    have early : item.1 < pre := by
      rcases List.mem_cons.mp member with rfl | later
      · exact below
      · exact lt_trans ((List.pairwise_cons.mp ordered).1 _ later) below
    refine List.takeWhile_cons_of_neg fun inside => ?_
    exact not_lt_of_isPrefix (startsWith_iff.mp inside) early

private theorem takeWhile_free (free : ¬ store.Barred cf start pre) :
    (entriesAfter start (store.family cf).entries).takeWhile (fun e => startsWith e.1 pre) =
      entriesAfter start (store.behind cf pre) := by
  have ordered := (store.family cf).ordered.sublist (entriesAfter_sublist start)
  rw [takeWhile_startsWith ordered, filter_entriesAfter, Store.behind]
  intro e member below
  obtain ⟨inside, beyond⟩ := mem_entriesAfter.mp member
  exact free ⟨e.1, e.2, ((store.family cf).mem_entries).mp inside, beyond, below⟩

theorem exec_prefixScanPage_resume (nonempty : start ≠ []) (small : limit ≤ maxPageLimit) :
    exec env (prefixScanPage cf pre start limit) store =
      (.ok (scanPage pre start limit false (entriesAfter start (store.family cf).entries)),
        store) := by
  have others : ∀ e ∈ entriesAfter start (store.family cf).entries, e.1 ≠ start :=
    fun e member => (mem_entriesAfter.mp member).2.ne'
  rw [prefixScanPage, exec_iterate_bind, reservePage, if_pos small, exec_pure_bind, exec_pure,
    Store.iterate]
  simp only [if_neg nonempty, ne_eq, decide_not, decide_eq_false nonempty, Bool.not_false,
    OrderedMap.forward_eq_entriesAfter, scanPage_skip _ _ others]

theorem exec_prefixScanPage_first (small : limit ≤ maxPageLimit) :
    exec env (prefixScanPage cf pre [] limit) store =
      (.ok (scanPage pre [] limit false ((store.family cf).forward pre)), store) := by
  rw [prefixScanPage, exec_iterate_bind, reservePage, if_pos small, exec_pure_bind, exec_pure,
    Store.iterate]
  simp

theorem exec_prefixScanPage_large (large : ¬ limit ≤ maxPageLimit) :
    exec env (prefixScanPage cf pre start limit) store = (.error .panic, store) := by
  rw [prefixScanPage, exec_iterate_bind, reservePage, if_neg large, exec_fail_bind]

/-- A page scan returns the first page of what is ahead. -/
theorem exec_prefixScanPage (position : Position store cf pre start rest) (positive : 0 < limit)
    (small : limit ≤ maxPageLimit) :
    exec env (prefixScanPage cf pre start limit) store = (.ok (pageOf limit rest), store) := by
  cases position with
  | first =>
    rw [exec_prefixScanPage_first small, scanPage_plain _ _ positive, forward_takeWhile]
  | resume nonempty inside =>
    rw [exec_prefixScanPage_resume nonempty small, scanPage_plain _ _ positive,
      after_takeWhile _ _ inside]

theorem exec_prefixScanPage_of_nil (none : store.behind cf pre = []) (positive : 0 < limit)
    (small : limit ≤ maxPageLimit) :
    exec env (prefixScanPage cf pre [] limit) store = (.ok ([], Option.none), store) := by
  have position : Position store cf pre [] (store.behind cf pre) := .first
  rw [exec_prefixScanPage position positive small, none]
  simp [pageOf]

/-- A scan that is barred finds nothing. -/
theorem exec_prefixScanPage_barred (nonempty : start ≠ []) (positive : 0 < limit)
    (small : limit ≤ maxPageLimit) (barred : store.Barred cf start pre) :
    exec env (prefixScanPage cf pre start limit) store = (.ok ([], none), store) := by
  rw [exec_prefixScanPage_resume nonempty small, scanPage_plain _ _ positive,
    takeWhile_barred barred]
  simp [pageOf]

/-- A scan that is not barred finds what is behind the prefix. -/
theorem exec_prefixScanPage_free (nonempty : start ≠ []) (positive : 0 < limit)
    (small : limit ≤ maxPageLimit) (free : ¬ store.Barred cf start pre) :
    exec env (prefixScanPage cf pre start limit) store =
      (.ok (pageOf limit (entriesAfter start (store.behind cf pre))), store) := by
  rw [exec_prefixScanPage_resume nonempty small, scanPage_plain _ _ positive,
    takeWhile_free free]

/-- A scan from any start key sees what is behind the prefix and whether something
bars it. -/
theorem alike_prefixScanPage {store' : Store} {env' : Env}
    (behind : store'.behind cf pre = store.behind cf pre)
    (barred : start ≠ [] → (store'.Barred cf start pre ↔ store.Barred cf start pre)) :
    ∃ page, exec env (prefixScanPage cf pre start limit) store = (page, store) ∧
      exec env' (prefixScanPage cf pre start limit) store' = (page, store') := by
  by_cases small : limit ≤ maxPageLimit
  · by_cases nonempty : start = []
    · subst nonempty
      refine ⟨_, exec_prefixScanPage_first small, (exec_prefixScanPage_first small).trans ?_⟩
      rw [scanPage_congr ((forward_takeWhile store' cf pre).trans
        (behind.trans (forward_takeWhile store cf pre).symm))]
    · refine ⟨_, exec_prefixScanPage_resume nonempty small,
        (exec_prefixScanPage_resume nonempty small).trans ?_⟩
      rw [scanPage_congr]
      by_cases bar : store.Barred cf start pre
      · rw [takeWhile_barred bar, takeWhile_barred ((barred nonempty).mpr bar)]
      · rw [takeWhile_free bar, takeWhile_free fun bar' => bar ((barred nonempty).mp bar'), behind]
  · exact ⟨_, exec_prefixScanPage_large small, exec_prefixScanPage_large small⟩

/-- The last entry of a page that is not the last page. -/
theorem exists_getLast_of_lt (positive : 0 < limit) (more : limit < rest.length) :
    ∃ before key value, rest.take limit = before ++ [(key, value)] ∧
      (pageOf limit rest).2 = some key := by
  have nonempty : rest.take limit ≠ [] := by
    intro empty
    have lengths := congrArg List.length empty
    rw [List.length_take, List.length_nil] at lengths
    omega
  obtain ⟨before, ⟨key, value⟩, shape⟩ := List.eq_nil_or_concat (rest.take limit) |>.resolve_left
    nonempty
  refine ⟨before, key, value, by simpa using shape, ?_⟩
  simp [pageOf, more, shape]

/-- Resuming after the last key of a page continues where the page stopped,
unless that key is empty. -/
theorem Position.next (position : Position store cf pre start rest) {before : List Entry}
    {key value : Bytes} (page : rest.take limit = before ++ [(key, value)]) (nonempty : key ≠ []) :
    Position store cf pre key (rest.drop limit) := by
  have split : rest = before ++ (key, value) :: rest.drop limit := by
    conv_lhs => rw [← List.take_append_drop limit rest, page]
    simp
  have member : (key, value) ∈ rest := by rw [split]; simp
  have ahead : entriesAfter key rest = rest.drop limit := by
    have ordered := position.ordered
    rw [split] at ordered
    conv_lhs => rw [split]
    exact entriesAfter_split ordered
  rw [← ahead]
  have inside := position.startsWith member
  cases position with
  | first => exact .resume nonempty inside
  | resume _ _ =>
    rw [entriesAfter_entriesAfter (mem_entriesAfter.mp member).2]
    exact .resume nonempty inside

/-- No page that has to be resumed ends at the empty key. -/
def Resumable (store : Store) (cf : ColumnFamily) (pre : Bytes) (limit : ℕ) : Prop :=
  pre ≠ [] ∨ 2 ≤ limit ∨ store.get cf [] = none

/-- A page can end at the empty key only if it is the single first entry of a
scan without a prefix. -/
theorem Position.key_ne_nil (position : Position store cf pre start rest)
    (resumable : Resumable store cf pre limit) {before : List Entry} {key value : Bytes}
    (page : rest.take limit = before ++ [(key, value)]) (more : limit < rest.length) :
    key ≠ [] := by
  have member : (key, value) ∈ rest := by
    apply List.mem_of_mem_take (i := limit)
    simp [page]
  rintro rfl
  rcases resumable with named | wide | absent
  · exact named (List.prefix_nil.mp (position.startsWith member))
  · have lengths := congrArg List.length page
    simp only [List.length_take, List.length_append, List.length_singleton] at lengths
    cases before with
    | nil => simp at lengths; omega
    | cons e before =>
      have ordered : (rest.take limit).Pairwise fun a b => a.1 < b.1 :=
        position.ordered.sublist (List.take_sublist limit rest)
      rw [page] at ordered
      exact List.not_lt_nil _ ((List.pairwise_cons.mp ordered).1 ([], value) (by simp))
  · rw [position.stored member] at absent
    cases absent

end Positions

section Loops

variable {store : Store} {cf : ColumnFamily} {pre start : Bytes} {rest : List Entry} {limit : ℕ}
  {env : Env} {α β : Type}

/-- The pages a caller collects who feeds each returned key back as the next
start key, until none is returned. -/
inductive Pages (env : Env) (store : Store) (cf : ColumnFamily) (pre : Bytes) (limit : ℕ) :
    Bytes → List (List Entry) → Prop
  | last {start : Bytes} {page : List Entry}
      (scan : exec env (prefixScanPage cf pre start limit) store = (.ok (page, none), store)) :
      Pages env store cf pre limit start [page]
  | more {start key : Bytes} {page : List Entry} {pages : List (List Entry)}
      (scan : exec env (prefixScanPage cf pre start limit) store = (.ok (page, some key), store))
      (rest : Pages env store cf pre limit key pages) :
      Pages env store cf pre limit start (page :: pages)

theorem Pages.ne_nil {pages : List (List Entry)}
    (collected : Pages env store cf pre limit start pages) : pages ≠ [] := by
  cases collected <;> simp

/-- The pages from a position are what is ahead, cut at the limit. -/
theorem Position.pages (position : Position store cf pre start rest) (positive : 0 < limit)
    (small : limit ≤ maxPageLimit)
    (resumable : limit < rest.length → Resumable store cf pre limit) :
    ∃ pages, Pages env store cf pre limit start pages ∧ pages.flatten = rest ∧
      ∀ page ∈ pages.dropLast, page.length = limit := by
  induction size : rest.length using Nat.strong_induction_on generalizing start rest with
  | _ n ih =>
    have scan : exec env (prefixScanPage cf pre start limit) store = _ :=
      exec_prefixScanPage position positive small
    by_cases more : limit < rest.length
    · obtain ⟨before, key, value, page, nextKey⟩ := exists_getLast_of_lt positive more
      have nonempty := position.key_ne_nil (resumable more) page more
      obtain ⟨pages, collected, contents, full⟩ :=
        ih (rest.drop limit).length (by simp; omega) (position.next page nonempty)
          (fun _ => resumable more) rfl
      refine ⟨rest.take limit :: pages, .more ?_ collected, ?_, ?_⟩
      · rw [scan, ← nextKey]
        rfl
      · rw [List.flatten_cons, contents, List.take_append_drop]
      · rw [List.dropLast_cons_of_ne_nil collected.ne_nil]
        intro other member
        rcases List.mem_cons.mp member with rfl | member
        · rw [List.length_take]
          omega
        · exact full other member
    · refine ⟨[rest], .last ?_, by simp, by simp⟩
      rw [scan, pageOf, if_neg more, List.take_of_length_le (by omega)]

/-- A page limit beyond what can be allocated collects nothing. -/
private theorem Pages.limit_le {pages : List (List Entry)}
    (collected : Pages env store cf pre limit start pages) : limit ≤ maxPageLimit := by
  by_contra large
  have panics : exec env (prefixScanPage cf pre start limit) store = (.error .panic, store) :=
    exec_prefixScanPage_large large
  cases collected with
  | last scan => simp [panics] at scan
  | more scan => simp [panics] at scan

/-- The empty key ends the first page of one entry, and is then taken for the
beginning. -/
private theorem scan_restarts (stored : store.get cf [] ≠ none)
    (many : 2 ≤ (store.family cf).entries.length) :
    ∃ page, exec env (prefixScanPage cf [] [] 1) store = (.ok (page, some []), store) := by
  have all : store.behind cf [] = (store.family cf).entries := by
    simp [Store.behind, startsWith]
  have more : 1 < (store.behind cf []).length := by rwa [all]
  obtain ⟨before, key, value, page, nextKey⟩ := exists_getLast_of_lt Nat.one_pos more
  have scan : exec env (prefixScanPage cf [] [] 1) store = _ :=
    exec_prefixScanPage .first Nat.one_pos (by decide)
  obtain ⟨entry, found⟩ := Option.ne_none_iff_exists'.mp stored
  have member : ([], entry) ∈ store.behind cf [] := by
    rw [Store.mem_behind]
    exact ⟨found, List.nil_prefix⟩
  -- Nothing comes before the empty key, so it is the first entry.
  have first : key = [] := by
    have ordered := store.behind_ordered cf []
    cases shape : store.behind cf [] with
    | nil => rw [shape] at more; simp at more
    | cons head tail =>
      rw [shape] at page member ordered
      have key_eq : head.1 = key := by
        cases before with
        | nil =>
          have same : head = (key, value) := by simpa using page
          rw [same]
        | cons e before => simp at page
      rcases List.mem_cons.mp member with same | later
      · rw [← key_eq, ← same]
      · exact absurd ((List.pairwise_cons.mp ordered).1 _ later) (List.not_lt_nil _)
  rw [first] at nextKey
  exact ⟨(store.behind cf []).take 1, by rw [scan, ← nextKey]; rfl⟩

private theorem not_pages_of_restart {page : List Entry}
    (restart : exec env (prefixScanPage cf pre [] limit) store = (.ok (page, some []), store))
    {pages : List (List Entry)} (collected : Pages env store cf pre limit start pages) :
    start ≠ [] := by
  induction collected with
  | last scan =>
    rintro rfl
    simp [restart] at scan
  | more scan _ ih =>
    rintro rfl
    rw [restart] at scan
    simp only [Prod.mk.injEq, Except.ok.injEq, Option.some.injEq, and_true] at scan
    exact ih scan.2.symm

/-- Paging from the empty start key collects exactly the prefix scan, in full
pages up to the last one, unless the page buffer cannot be allocated or the
one-entry first page of a scan without a prefix ends at the empty key. -/
theorem paging_collects_prefixScan_iff (env : Env) (store : Store) (cf : ColumnFamily)
    (pre : Bytes) {limit : ℕ} (positive : 1 ≤ limit) :
    (∃ pages, Pages env store cf pre limit [] pages ∧
        exec env (prefixScan cf pre) store = (.ok pages.flatten, store) ∧
        pages.flatten = (store.family cf).entries.filter (fun e => startsWith e.1 pre) ∧
        ∀ page ∈ pages.dropLast, page.length = limit) ↔
      limit ≤ maxPageLimit ∧
        ¬ (limit = 1 ∧ pre = [] ∧ store.get cf [] ≠ none ∧
          2 ≤ (store.family cf).entries.length) := by
  constructor
  · rintro ⟨pages, collected, -⟩
    refine ⟨collected.limit_le, ?_⟩
    rintro ⟨rfl, rfl, stored, many⟩
    obtain ⟨page, restart⟩ := scan_restarts stored many
    exact not_pages_of_restart restart collected rfl
  · rintro ⟨small, usual⟩
    have resumable (more : limit < (store.behind cf pre).length) :
        Resumable store cf pre limit := by
      have fewer : (store.behind cf pre).length ≤ (store.family cf).entries.length :=
        List.length_filter_le _ _
      by_contra stuck
      simp only [Resumable, not_or, not_not] at stuck
      exact usual ⟨by omega, stuck.1, stuck.2.2, by omega⟩
    obtain ⟨pages, collected, contents, full⟩ :=
      (Position.first : Position store cf pre [] _).pages positive small resumable
    exact ⟨pages, collected, by rw [exec_prefixScan, contents], contents, full⟩

/-- Three entries in pages of two. -/
theorem paging_collects_prefixScan_of_three :
    let store := Store.empty.write
      [.put .subkey [0x61] [1], .put .subkey [0x61, 0x62] [2], .put .subkey [0x61, 0x63] [3]]
    ∃ pages, Pages (.plain 0) store .subkey [0x61] 2 [] pages ∧
      pages.flatten = [([0x61], [1]), ([0x61, 0x62], [2]), ([0x61, 0x63], [3])] ∧
      ∀ page ∈ pages.dropLast, page.length = 2 := by
  intro store
  obtain ⟨pages, collected, -, all, full⟩ :=
    (paging_collects_prefixScan_iff (.plain 0) store .subkey [0x61] (show 1 ≤ 2 by decide)).mpr
      ⟨by decide, by decide⟩
  exact ⟨pages, collected, all.trans (by decide), full⟩

/-- A family that stores the empty key and another one cannot be paged entry by
entry: the first page ends at the empty key, and the scan starts over. -/
theorem paging_restarts_at_empty_key :
    ¬ ∃ pages, Pages (.plain 0)
      (Store.empty.write [.put .subkey [] [0x78], .put .subkey [0x61] [0x79]]) .subkey [] 1 []
      pages := by
  rintro ⟨pages, collected⟩
  exact not_pages_of_restart (scan_restarts (by decide) (by decide)).choose_spec collected rfl

end Loops

section Bodies

variable {store : Store} {cf : ColumnFamily} {pre start : Bytes} {rest : List Entry} {limit : ℕ}
  {env : Env} {α β : Type} {page : Bytes → Prog (List α × Option Bytes)} {decode : Entry → α}
  {body : β → α → Prog (ForInStep β)}

/-- The value a loop leaves, whether it broke off or not. -/
def ForInStep.settle : ForInStep β → Prog β
  | .done acc => pure acc
  | .yield acc => pure acc

theorem forEach_append (items more : List α) (acc : β) :
    forEach body (items ++ more) acc = forEach body items acc >>= fun
      | .done acc => pure (.done acc)
      | .yield acc => forEach body more acc := by
  induction items generalizing acc with
  | nil => rfl
  | cons item items ih =>
    rw [List.cons_append, forEach, forEach, bind_assoc]
    refine bind_congr fun step => ?_
    cases step with
    | done acc => rfl
    | yield acc => exact ih acc

/-- A body that passes over some items runs over the others. -/
theorem forEach_skip (skip : α → Bool) (items : List α) (acc : β) :
    forEach (fun acc item => if skip item then return .yield acc else body acc item) items acc =
      forEach body (items.filter fun item => !skip item) acc := by
  induction items generalizing acc with
  | nil => rfl
  | cons item items ih =>
    rw [forEach]
    cases skipped : skip item with
    | true =>
      rw [if_pos rfl, pure_bind, List.filter_cons_of_neg (by simp [skipped])]
      exact ih acc
    | false =>
      rw [if_neg Bool.false_ne_true, List.filter_cons_of_pos (by simp [skipped]), forEach]
      refine bind_congr fun step => ?_
      cases step with
      | done acc => rfl
      | yield acc => exact ih acc

/-- A body that adds what it shows of the items that pass walks over all of them. -/
theorem exec_forEach_select {γ : Type} {body : List γ → α → Prog (ForInStep (List γ))}
    {passes : α → Bool} {shows : α → γ}
    (turn : ∀ result item, exec env (body result item) store =
      (.ok (.yield (if passes item then result ++ [shows item] else result)), store))
    (items : List α) (result : List γ) :
    exec env (forEach body items result >>= ForInStep.settle) store =
      (.ok (result ++ (items.filter passes).map shows), store) := by
  induction items generalizing result with
  | nil =>
    rw [List.filter_nil, List.map_nil, List.append_nil]
    rfl
  | cons item items ih =>
    rw [forEach, bind_assoc, exec_bind_ok (turn result item)]
    refine (ih _).trans ?_
    cases passed : passes item with
    | true =>
      rw [if_pos rfl, List.filter_cons_of_pos passed, List.map_cons, List.append_assoc,
        List.singleton_append]
    | false => rw [if_neg Bool.false_ne_true, List.filter_cons_of_neg (by simp [passed])]

private theorem forEach_readonly
    (readonly : ∀ acc item, (exec env (body acc item) store).2 = store) (items : List α) (acc : β) :
    (exec env (forEach body items acc) store).2 = store := by
  induction items generalizing acc with
  | nil => rfl
  | cons item items ih =>
    have unchanged := readonly acc item
    rw [forEach, exec_bind]
    cases first : exec env (body acc item) store with
    | mk result middle =>
      obtain rfl : middle = store := by rw [← unchanged, first]
      rcases result with _ | (_ | acc)
      · rfl
      · rfl
      · exact ih acc

/-- A paging loop whose body does not write runs the body over everything that
is ahead, as if it were one list. Each page is the first one of what is ahead, and its
last key leads to the rest. -/
theorem exec_pagedLoop (ahead : Bytes → List Entry → Prop)
    (paged : ∀ start rest, ahead start rest →
      exec env (page start) store =
        (.ok ((pageOf limit rest).1.map decode, (pageOf limit rest).2), store))
    (onward : ∀ start rest before key value, ahead start rest → limit < rest.length →
      rest.take limit = before ++ [(key, value)] → ahead key (rest.drop limit))
    (readonly : ∀ acc item, (exec env (body acc item) store).2 = store)
    (positive : 0 < limit) (rounds : ℕ) (place : ahead start rest)
    (enough : rest.length < rounds) (acc : β) :
    exec env (pagedLoop page body rounds start acc) store =
      exec env (forEach body (rest.map decode) acc >>= ForInStep.settle) store := by
  induction rounds generalizing start rest acc with
  | zero => omega
  | succ rounds ih =>
    rw [pagedLoop, exec_bind_ok (paged start rest place)]
    cases rest with
    | nil =>
      simp only [pageOf, List.take_nil, List.map_nil]
      rfl
    | cons e rest =>
      obtain ⟨size, rfl⟩ : ∃ size, limit = size + 1 := ⟨limit - 1, by omega⟩
      by_cases more : size + 1 < (e :: rest).length
      · obtain ⟨before, key, value, shape, nextKey⟩ := exists_getLast_of_lt positive more
        have further := onward _ _ _ _ _ place more shape
        have split : (e :: rest).map decode =
            ((e :: rest).take (size + 1)).map decode ++
              ((e :: rest).drop (size + 1)).map decode := by
          rw [← List.map_append, List.take_append_drop]
        rw [split, forEach_append, bind_assoc]
        simp only [nextKey]
        change exec env (forEach body (((e :: rest).take (size + 1)).map decode) acc >>= _) store =
            _
        rw [exec_bind, exec_bind]
        have unchanged := forEach_readonly readonly (((e :: rest).take (size + 1)).map decode) acc
        cases first :
            exec env (forEach body (((e :: rest).take (size + 1)).map decode) acc) store with
        | mk result middle =>
          obtain rfl : middle = store := by rw [← unchanged, first]
          rcases result with _ | (_ | acc)
          · rfl
          · rfl
          · exact ih further (by simp at enough ⊢; omega) acc
      · have whole : (pageOf (size + 1) (e :: rest)) = (e :: rest, none) := by
          rw [pageOf, if_neg more, List.take_of_length_le (by omega)]
        simp only [whole]
        rfl

/-- What is left ahead is no more than the family has. -/
theorem Position.length_le (position : Position store cf pre start rest) :
    rest.length ≤ (store.family cf).entries.length := by
  have within : (store.behind cf pre).length ≤ (store.family cf).entries.length :=
    List.length_filter_le _ _
  cases position with
  | first => exact within
  | resume => exact (entriesAfter_sublist _).length_le.trans within

section Families

variable
  (paged : ∀ start rest, Position store cf pre start rest →
    exec env (page start) store =
      (.ok ((pageOf limit rest).1.map decode, (pageOf limit rest).2), store))
  (readonly : ∀ acc item, (exec env (body acc item) store).2 = store)
  (positive : 0 < limit) (resumable : Resumable store cf pre limit)
include paged readonly positive resumable

/-- A paging loop over a family visits every entry ahead of its start key. -/
theorem exec_forEachPageFrom (position : Position store cf pre start rest) (acc : β) :
    exec env (forEachPageFrom cf start page acc body) store =
      exec env (forEach body (rest.map decode) acc >>= ForInStep.settle) store := by
  rw [forEachPageFrom, exec_familySize_bind]
  refine exec_pagedLoop (Position store cf pre) paged
    (fun start rest before key value position more shape => ?_) readonly positive _ position
    (Nat.lt_succ_of_le position.length_le) acc
  exact position.next shape (position.key_ne_nil resumable shape more)

/-- A paging loop over a family visits every entry behind the prefix. -/
theorem exec_forEachPage (acc : β) :
    exec env (forEachPage cf page acc body) store =
      exec env (forEach body ((store.behind cf pre).map decode) acc >>= ForInStep.settle) store :=
  exec_forEachPageFrom paged readonly positive resumable .first acc

end Families

/-- A paging loop with nothing on its first page. -/
theorem exec_forEachPage_of_nil {page : Bytes → Prog (List α × Option Bytes)}
    {body : β → α → Prog (ForInStep β)} {cf : ColumnFamily}
    (empty : exec env (page []) store = (.ok ([], none), store)) (acc : β) :
    exec env (forEachPage cf page acc body) store = (.ok acc, store) := by
  rw [forEachPage, forEachPageFrom, exec_familySize_bind, pagedLoop, exec_bind_ok empty]
  rfl

/-- Two paging loops with the same pages and bodies run alike. Each page leads to
a place with less ahead, so both loops have enough rounds if they have more than
there is ahead at first. -/
theorem alike_pagedLoop {env' : Env} {store' : Store} {ahead : Bytes → ℕ → Prop} {accept : β → Prop}
    (pages : ∀ start n, ahead start n → ∃ result : Except Fault (List α × Option Bytes),
      exec env (page start) store = (result, store) ∧
      exec env' (page start) store' = (result, store') ∧
      ∀ items key, result = .ok (items, some key) → ∃ m < n, ahead key m)
    (bodies : ∀ items acc, accept acc → Program.AlikeWith (fun step => accept step.value) env.handle
      env'.handle store store' (forEach body items acc))
    {n rounds rounds' : ℕ} (place : ahead start n) (enough : n < rounds) (enough' : n < rounds')
    {acc : β} (initial : accept acc) :
    ∃ result, exec env (pagedLoop page body rounds start acc) store = (result, store) ∧
      exec env' (pagedLoop page body rounds' start acc) store' = (result, store') ∧
      ∀ value, result = .ok value → accept value := by
  induction rounds generalizing start n rounds' acc with
  | zero => omega
  | succ rounds ih =>
    obtain ⟨rounds', rfl⟩ : ∃ n, rounds' = n + 1 := ⟨rounds' - 1, by omega⟩
    obtain ⟨result, fetched, fetched', onward⟩ := pages start n place
    have settled : ∀ {last : β}, accept last → ∀ value : β,
        (.ok last : Except Fault β) = .ok value → accept value := fun known _ same =>
      Except.ok.inj same ▸ known
    rw [pagedLoop, pagedLoop]
    rcases result with fault | ⟨_ | ⟨item, items⟩, nextKey⟩
    · exact ⟨_, exec_bind_error fetched, exec_bind_error fetched', nofun⟩
    · exact ⟨_, exec_bind_ok fetched, exec_bind_ok fetched', settled initial⟩
    rw [exec_bind_ok fetched, exec_bind_ok fetched']
    obtain ⟨outcome, ran, ran', kept⟩ := bodies (item :: items) acc initial
    rcases outcome with fault | (last | last)
    · exact ⟨_, exec_bind_error ran, exec_bind_error ran', nofun⟩
    · exact ⟨_, exec_bind_ok ran, exec_bind_ok ran', settled (kept _ rfl)⟩
    dsimp only
    rw [exec_bind_ok ran, exec_bind_ok ran']
    cases nextKey with
    | none => exact ⟨_, rfl, rfl, settled (kept _ rfl)⟩
    | some key =>
      obtain ⟨m, less, place⟩ := onward (item :: items) key rfl
      exact ih place (by omega) (by omega) (kept _ rfl)

theorem alike_forEach {env' : Env} {store' : Store} {accept : β → Prop}
    (bodies : ∀ acc item, accept acc → Program.AlikeWith (fun step => accept step.value) env.handle
      env'.handle store store' (body acc item))
    (items : List α) (acc : β) (initial : accept acc) :
    Program.AlikeWith (fun step => accept step.value) env.handle env'.handle store store'
      (forEach body items acc) := by
  induction items generalizing acc with
  | nil => exact (Program.alike_pure _).alikeWith fun _ same => by cases same; exact initial
  | cons item items ih =>
    refine (bodies acc item initial).bind fun step known => ?_
    cases step with
    | done acc => exact (Program.alike_pure _).alikeWith fun _ same => by cases same; exact known
    | yield acc => exact ih acc known

/-- A page that names a key to go on with ends with an entry of that key. -/
private theorem exists_of_nextKey {rest : List Entry} {key : Bytes} (positive : 0 < limit)
    (next : (pageOf limit rest).2 = some key) :
    limit < rest.length ∧ ∃ before value, rest.take limit = before ++ [(key, value)] := by
  have more : limit < rest.length := by
    by_contra whole
    rw [pageOf, if_neg whole] at next
    cases next
  obtain ⟨before, last, value, shape, lastKey⟩ := exists_getLast_of_lt positive more
  obtain rfl : last = key := Option.some.inj (lastKey.symm.trans next)
  exact ⟨more, before, value, shape⟩

private theorem nextKey_of_map {items : Except Fault (List α)} {next : Option Bytes}
    {found : List α × Option Bytes} (same : items.map (·, next) = .ok found) : next = found.2 := by
  cases items with
  | error fault => cases same
  | ok items => exact (Prod.ext_iff.mp (Except.ok.inj same)).2

/-- A paging loop sees only what is behind its prefix. -/
theorem alike_forEachPageFrom {env' : Env} {store' : Store} {accept : β → Prop}
    (positive : 0 < limit) (named : pre ≠ [])
    (position : Position store cf pre start rest) (position' : Position store' cf pre start rest)
    (pages : ∀ start rest, Position store cf pre start rest →
      ∃ items : Except Fault (List α),
        exec env (page start) store = (items.map (·, (pageOf limit rest).2), store) ∧
        exec env' (page start) store' = (items.map (·, (pageOf limit rest).2), store'))
    (bodies : ∀ acc item, accept acc → Program.AlikeWith (fun step => accept step.value) env.handle
      env'.handle store store' (body acc item))
    {acc : β} (initial : accept acc) :
    Program.AlikeWith accept env.handle env'.handle store store'
      (forEachPageFrom cf start page acc body) := by
  have places : ∀ start n, (∃ rest, Position store cf pre start rest ∧ n = rest.length) →
      ∃ result : Except Fault (List α × Option Bytes),
        exec env (page start) store = (result, store) ∧
        exec env' (page start) store' = (result, store') ∧
        ∀ items key, result = .ok (items, some key) →
          ∃ m < n, ∃ rest, Position store cf pre key rest ∧ m = rest.length := by
    rintro start _ ⟨rest, position, rfl⟩
    obtain ⟨items, fetched, fetched'⟩ := pages start rest position
    refine ⟨_, fetched, fetched', fun found key same => ?_⟩
    obtain ⟨more, before, value, shape⟩ := exists_of_nextKey positive (nextKey_of_map same)
    refine ⟨_, ?_, _, position.next shape (position.key_ne_nil (.inl named) shape more), rfl⟩
    rw [List.length_drop]
    omega
  exact alike_pagedLoop places (alike_forEach bodies) ⟨rest, position, rfl⟩
    (Nat.lt_succ_of_le position.length_le) (Nat.lt_succ_of_le position'.length_le) initial

end Bodies

section Reverse

variable {store store' : Store} {cf : ColumnFamily} {pre start seek : Bytes} {limit : ℕ}
  {env env' : Env} {α β : Type} {page : Bytes → Prog (List α × Option Bytes)}
  {body : β → α → Prog (ForInStep β)}

def reverseSeek (pre start : Bytes) : Bytes :=
  if start = [] then pre ++ List.replicate 8 0xFF else start

/-- The entries behind the prefix that a reverse scan from a start key has ahead.
The start key itself was the last entry of the page before. -/
def Store.below (store : Store) (cf : ColumnFamily) (pre start : Bytes) : List Entry :=
  ((store.behind cf pre).filter fun e => ¬ reverseSeek pre start < e.1 ∧ e.1 ≠ start).reverse

/-- Going backward from a key behind the prefix, the keys behind it come first. -/
private theorem backward_takeWhile (inside : pre <+: seek) (p : Entry → Bool) :
    (((store.family cf).entries.filter fun e => ¬ seek < e.1 ∧ p e).reverse).takeWhile
        (fun e => startsWith e.1 pre) =
      ((store.behind cf pre).filter fun e => ¬ seek < e.1 ∧ p e).reverse := by
  have ordered : (((store.family cf).entries.filter fun e => ¬ seek < e.1 ∧ p e).reverse).Pairwise
      fun a b => b.1 < a.1 :=
    List.pairwise_reverse.mpr ((store.family cf).ordered.filter _)
  rw [takeWhile_eq_filter ordered, List.filter_reverse, Store.behind, List.filter_comm]
  intro a member b _ less matched
  simp only [List.mem_reverse, List.mem_filter, Bool.decide_and, Bool.and_eq_true,
    decide_eq_true_eq]
    at member
  rw [startsWith_iff] at matched ⊢
  -- The key lies between one that extends the prefix and the seek point.
  have lower : ¬ a.1 < pre := fun below => not_lt_of_isPrefix matched (less.trans below)
  rcases lt_or_eq_of_le (not_lt.mp member.2.1) with below | same
  · exact prefix_of_between lower below inside
  · exact same ▸ inside

private theorem scanPage_cons (pre start : Bytes) (limit : ℕ) (e : Entry) (items : List Entry) :
    scanPage pre start limit true (e :: items) =
      scanPage pre start limit false (if e.1 = start then items else e :: items) := by
  by_cases same : e.1 = start <;> simp [scanPage, pageLoop, same]

/-- A page that goes backward skips its start key where it meets that first. -/
private theorem scanPage_descending {items : List Entry} (positive : 0 < limit)
    (ordered : items.Pairwise fun a b => b.1 < a.1) (upper : ∀ e ∈ items, ¬ start < e.1) :
    scanPage pre start limit true items =
      pageOf limit ((items.filter fun e => e.1 ≠ start).takeWhile fun e => startsWith e.1 pre) := by
  cases items with
  | nil => exact scanPage_plain start [] positive
  | cons e items =>
    have kept : items.filter (fun e => e.1 ≠ start) = items := by
      rw [List.filter_eq_self]
      rintro e' member
      refine decide_eq_true fun same => upper e List.mem_cons_self ?_
      exact same ▸ List.rel_of_pairwise_cons ordered member
    rw [scanPage_cons, scanPage_plain start _ positive]
    by_cases same : e.1 = start
    · rw [if_pos same, List.filter_cons_of_neg (by simpa using same), kept]
    · rw [if_neg same, List.filter_cons_of_pos (by simpa using same), kept]

/-- The first page that goes backward skips nothing behind the prefix, unless there is
no prefix and the empty key is all that it meets. -/
private theorem scanPage_from_top {items : List Entry} (positive : 0 < limit)
    (free : pre = [] → ∀ value, items ≠ [([], value)])
    (ordered : items.Pairwise fun a b => b.1 < a.1) :
    scanPage pre [] limit true items =
      pageOf limit (items.takeWhile fun e => startsWith e.1 pre) := by
  cases items with
  | nil => exact scanPage_plain [] [] positive
  | cons e items =>
    rw [scanPage_cons, scanPage_plain [] _ positive]
    by_cases least : e.1 = []
    · -- Nothing is below the empty key.
      have last : items = [] := List.eq_nil_iff_forall_not_mem.mpr fun e' member => by
        have below := List.rel_of_pairwise_cons ordered member
        rw [least] at below
        exact List.not_lt_nil _ below
      have outside : startsWith e.1 pre = false := by
        rw [Bool.eq_false_iff, ne_eq, startsWith_iff, least, List.prefix_nil]
        intro unnamed
        refine free unnamed e.2 ?_
        rw [last, ← least]
      rw [if_pos least, last, List.takeWhile_cons_of_neg (by simp [outside]), List.takeWhile_nil]
    · rw [if_neg least]

/-- What an iterator meets going backward. -/
private theorem backward_filter (store : Store) (cf : ColumnFamily) (seek : Bytes) :
    (store.family cf).backward seek =
      ((store.family cf).entries.filter fun e => ¬ seek < e.1).reverse :=
  ((store.family cf).backward_eq_filter seek).trans
    (congrArg List.reverse (List.filter_congr fun _ _ => decide_eq_decide.mpr Iff.rfl))

/-- A descending page scan that begins at the top returns the first page of what is
there up to the seek point. -/
theorem exec_prefixScanPageReverse_top (positive : 0 < limit) (small : limit ≤ maxPageLimit)
    (free : pre = [] → ∀ value,
      (store.family cf).entries.filter (fun e => ¬ reverseSeek pre [] < e.1) ≠ [([], value)]) :
    exec env (prefixScanPageReverse cf pre [] limit) store =
      (.ok
        (pageOf limit ((store.behind cf pre).filter fun e => ¬ reverseSeek pre [] < e.1).reverse),
        store) := by
  rw [prefixScanPageReverse, exec_iterate_bind, reservePage, if_pos small,
    exec_pure_bind, exec_pure, Store.iterate, backward_filter, ← reverseSeek]
  have ordered : (((store.family cf).entries.filter
      fun e => ¬ reverseSeek pre [] < e.1).reverse).Pairwise fun a b => b.1 < a.1 :=
    List.pairwise_reverse.mpr ((store.family cf).ordered.filter _)
  have ahead := @backward_takeWhile store cf pre (reverseSeek pre []) (List.prefix_append _ _)
    fun _ => true
  simp only [and_true] at ahead
  rw [scanPage_from_top positive (fun unnamed value same => ?_) ordered, ahead]
  exact free unnamed value (List.reverse_eq_iff.mp same)

/-- A descending page scan that is resumed returns the first page of what is below its
start key. -/
theorem exec_prefixScanPageReverse_resume (positive : 0 < limit) (small : limit ≤ maxPageLimit)
    (nonempty : start ≠ []) (inside : pre <+: start) :
    exec env (prefixScanPageReverse cf pre start limit) store =
      (.ok (pageOf limit (store.below cf pre start)), store) := by
  rw [prefixScanPageReverse, exec_iterate_bind, reservePage, if_pos small,
    exec_pure_bind, exec_pure, Store.iterate, backward_filter, ← reverseSeek, Store.below]
  have same : reverseSeek pre start = start := if_neg nonempty
  have ordered : (((store.family cf).entries.filter
      fun e => ¬ reverseSeek pre start < e.1).reverse).Pairwise fun a b => b.1 < a.1 :=
    List.pairwise_reverse.mpr ((store.family cf).ordered.filter _)
  rw [same] at ordered ⊢
  have upper : ∀ e ∈ ((store.family cf).entries.filter fun e => ¬ start < e.1).reverse,
      ¬ start < e.1 := fun e member => by
    simpa using (List.mem_filter.mp (List.mem_reverse.mp member)).2
  have ahead := @backward_takeWhile store cf pre _ inside fun e => e.1 ≠ start
  rw [scanPage_descending positive ordered upper, List.filter_reverse, List.filter_filter]
  simp only [decide_eq_true_eq] at ahead
  rw [← ahead]
  congr 5
  refine List.filter_congr fun e _ => ?_
  simp [and_comm]

/-- A reverse page scan with a prefix returns the first page of what is below. -/
theorem exec_prefixScanPageReverse (positive : 0 < limit) (small : limit ≤ maxPageLimit)
    (named : pre ≠ []) (place : start = [] ∨ pre <+: start) :
    exec env (prefixScanPageReverse cf pre start limit) store =
      (.ok (pageOf limit (store.below cf pre start)), store) := by
  by_cases first : start = []
  · subst first
    have skipsNone : ∀ e ∈ store.behind cf pre, e.1 ≠ [] := by
      rintro ⟨k, v⟩ member rfl
      exact named (List.prefix_nil.mp (Store.mem_behind.mp member).2)
    rw [exec_prefixScanPageReverse_top positive small fun unnamed => absurd unnamed named,
      Store.below]
    congr 4
    refine List.filter_congr fun e member => ?_
    simp [skipsNone e member]
  · exact exec_prefixScanPageReverse_resume positive small first (place.resolve_left first)

theorem Store.mem_below {e : Entry} :
    e ∈ store.below cf pre start ↔
      e ∈ store.behind cf pre ∧ ¬ reverseSeek pre start < e.1 ∧ e.1 ≠ start := by
  rw [Store.below, List.mem_reverse, List.mem_filter, decide_eq_true_eq]

/-- What a descending scan with a prefix meets is the end of the list of all that has the
prefix, downward. -/
theorem Store.below_suffix (named : pre ≠ []) (start : Bytes) :
    store.below cf pre start <:+ (store.behind cf pre).reverse := by
  rw [Store.below, List.reverse_suffix, ← takeWhile_eq_filter (store.behind_ordered cf pre)]
  · exact List.takeWhile_prefix _
  · -- Everything before an entry at or below the seek key is below it too.
    intro a first b _ less within
    rw [decide_eq_true_eq] at within ⊢
    refine ⟨fun above => within.1 (above.trans less), fun same => ?_⟩
    by_cases empty : start = []
    · have inside := (Store.mem_behind.mp first).2
      rw [same, empty] at inside
      exact named (List.prefix_nil.mp inside)
    · exact within.1 (by rwa [reverseSeek, if_neg empty, ← same])

/-- What is below the last key of a page is the rest of what was ahead. -/
private theorem below_eq_drop {rest before : List Entry} {key value : Bytes}
    (suffix : rest <:+ (store.behind cf pre).reverse)
    (page : rest.take limit = before ++ [(key, value)]) (nonempty : key ≠ []) :
    store.below cf pre key = rest.drop limit := by
  obtain ⟨passed, whole⟩ := suffix
  have ordered : (store.behind cf pre).reverse.Pairwise fun a b => b.1 < a.1 :=
    List.pairwise_reverse.mpr (store.behind_ordered cf pre)
  have seek : reverseSeek pre key = key := if_neg nonempty
  have parts : (store.behind cf pre).reverse = (passed ++ before ++ [(key, value)]) ++
      rest.drop limit := by
    rw [List.append_assoc passed, ← page, List.append_assoc, List.take_append_drop, whole]
  rw [Store.below, ← List.filter_reverse, parts, List.filter_append]
  rw [parts] at ordered
  obtain ⟨early, -, across⟩ := List.pairwise_append.mp ordered
  have passedOver : ((passed ++ before ++ [(key, value)]).filter
      fun e => ¬ reverseSeek pre key < e.1 ∧ e.1 ≠ key) = [] := by
    refine List.filter_eq_nil_iff.mpr fun e inside => ?_
    rw [decide_eq_true_eq, seek]
    rcases List.mem_append.mp inside with inside | here
    · exact fun kept => kept.1 ((List.pairwise_append.mp early).2.2 e inside (key, value) (by simp))
    · rw [List.mem_singleton.mp here]
      exact fun kept => kept.2 rfl
  have ahead : ((rest.drop limit).filter fun e => ¬ reverseSeek pre key < e.1 ∧ e.1 ≠ key) =
      rest.drop limit := by
    refine List.filter_eq_self.mpr fun e inside => ?_
    have less := across (key, value) (by simp) e inside
    rw [decide_eq_true_eq, seek]
    exact ⟨less.not_gt, less.ne⟩
  rw [passedOver, ahead, List.nil_append]

/-- The last key of a page that is not the last one leads to the rest of what was ahead. -/
private theorem reverse_onward {rest before : List Entry} {key value : Bytes}
    (suffix : rest <:+ (store.behind cf pre).reverse) (more : limit < rest.length)
    (page : rest.take limit = before ++ [(key, value)]) :
    key ≠ [] ∧ pre <+: key ∧ store.below cf pre key = rest.drop limit := by
  have ordered : rest.Pairwise fun a b => b.1 < a.1 :=
    (List.pairwise_reverse.mpr (store.behind_ordered cf pre)).sublist suffix.sublist
  have nonempty : key ≠ [] := by
    -- An entry that is still ahead is below the last one of the page.
    have split := List.take_append_drop limit rest
    rw [← split, page] at ordered
    obtain ⟨e, ahead⟩ := List.exists_mem_of_length_pos
      (show 0 < (rest.drop limit).length by rw [List.length_drop]; omega)
    rintro rfl
    exact List.not_lt_nil _ ((List.pairwise_append.mp ordered).2.2 ([], value) (by simp) e ahead)
  have member : (key, value) ∈ rest := by
    apply List.mem_of_mem_take (i := limit)
    simp [page]
  have inside : pre <+: key := (Store.mem_behind.mp (List.mem_reverse.mp (suffix.mem member))).2
  exact ⟨nonempty, inside, below_eq_drop suffix page nonempty⟩

/-- A paging loop that goes backward sees only what is behind its prefix. Its
first page may name the seek point. -/
theorem alike_forEachPage_reverse {accept : β → Prop} (positive : 0 < limit) (named : pre ≠ [])
    (same : store'.behind cf pre = store.behind cf pre)
    (pages : ∀ start, start = [] ∨ pre <+: start →
      ∃ (place : Bytes) (items : Except Fault (List α)), (start ≠ [] → place = start) ∧
        exec env (page start) store =
          (items.map (·, (pageOf limit (store.below cf pre place)).2), store) ∧
        exec env' (page start) store' =
          (items.map (·, (pageOf limit (store.below cf pre place)).2), store'))
    (bodies : ∀ acc item, accept acc → Program.AlikeWith (fun step => accept step.value) env.handle
      env'.handle store store' (body acc item))
    {acc : β} (initial : accept acc) :
    Program.AlikeWith accept env.handle env'.handle store store'
      (forEachPage cf page acc body) := by
  have places : ∀ start n, (start = [] ∧ n = (store.behind cf pre).length ∨
        pre <+: start ∧ n = (store.below cf pre start).length) →
      ∃ result : Except Fault (List α × Option Bytes),
        exec env (page start) store = (result, store) ∧
        exec env' (page start) store' = (result, store') ∧
        ∀ items key, result = .ok (items, some key) → ∃ m < n,
          key = [] ∧ m = (store.behind cf pre).length ∨
            pre <+: key ∧ m = (store.below cf pre key).length := by
    intro start n at_
    obtain ⟨place, items, resumed, fetched, fetched'⟩ :=
      pages start (at_.imp And.left And.left)
    refine ⟨_, fetched, fetched', fun found key same => ?_⟩
    obtain ⟨more, before, value, shape⟩ := exists_of_nextKey positive (nextKey_of_map same)
    have suffix := @Store.below_suffix store cf pre named place
    obtain ⟨-, inside, below⟩ := reverse_onward suffix more shape
    refine ⟨_, ?_, .inr ⟨inside, rfl⟩⟩
    have fewer : (store.below cf pre key).length < (store.below cf pre place).length := by
      rw [below, List.length_drop]
      omega
    rcases at_ with ⟨rfl, rfl⟩ | ⟨inside, rfl⟩
    · exact fewer.trans_le (suffix.length_le.trans_eq List.length_reverse)
    · have nonempty : start ≠ [] := fun none => named (List.prefix_nil.mp (none ▸ inside))
      exact resumed nonempty ▸ fewer
  have all : (store.behind cf pre).length ≤ (store.family cf).entries.length :=
    List.length_filter_le _ _
  have all' : (store.behind cf pre).length ≤ (store'.family cf).entries.length := by
    rw [← same]
    exact List.length_filter_le _ _
  exact alike_pagedLoop places (alike_forEach bodies) (.inl ⟨rfl, rfl⟩) (Nat.lt_succ_of_le all)
    (Nat.lt_succ_of_le all') initial

end Reverse

section ReversePages

variable {store : Store} {cf : ColumnFamily} {pre start : Bytes} {limit : ℕ} {env : Env}
  {pages : List (List Entry)} {rest : List Entry}

/-- The pages a caller collects going backward who feeds each returned key back as the
next start key, until none is returned. -/
inductive ReversePages (env : Env) (store : Store) (cf : ColumnFamily) (pre : Bytes) (limit : ℕ) :
    Bytes → List (List Entry) → Prop
  | last {start : Bytes} {page : List Entry}
      (scan : exec env (prefixScanPageReverse cf pre start limit) store =
        (.ok (page, none), store)) :
      ReversePages env store cf pre limit start [page]
  | more {start key : Bytes} {page : List Entry} {pages : List (List Entry)}
      (scan :
      exec env (prefixScanPageReverse cf pre start limit) store = (.ok (page, some key), store))
      (rest : ReversePages env store cf pre limit key pages) :
      ReversePages env store cf pre limit start (page :: pages)

/-- A paging loop that goes backward visits everything from its first page on. -/
theorem exec_forEachPage_reverse {α β : Type} {page : Bytes → Prog (List α × Option Bytes)}
    {decode : Entry → α} {body : β → α → Prog (ForInStep β)} (positive : 0 < limit)
    (suffix : rest <:+ (store.behind cf pre).reverse)
    (top : exec env (page []) store =
      (.ok ((pageOf limit rest).1.map decode, (pageOf limit rest).2), store))
    (resumed : ∀ start, start ≠ [] → pre <+: start → exec env (page start) store =
      (.ok ((pageOf limit (store.below cf pre start)).1.map decode,
        (pageOf limit (store.below cf pre start)).2), store))
    (readonly : ∀ acc item, (exec env (body acc item) store).2 = store) (acc : β) :
    exec env (forEachPage cf page acc body) store =
      exec env (forEach body (rest.map decode) acc >>= ForInStep.settle) store := by
  have within : rest.length ≤ (store.family cf).entries.length :=
    suffix.length_le.trans (List.length_reverse.trans_le (List.length_filter_le _ _))
  rw [forEachPage, forEachPageFrom, exec_familySize_bind]
  refine exec_pagedLoop (fun start rest => rest <:+ (store.behind cf pre).reverse ∧
      exec env (page start) store =
        (.ok ((pageOf limit rest).1.map decode, (pageOf limit rest).2), store))
    (fun _ _ place => place.2) ?_ readonly positive _ ⟨suffix, top⟩ (Nat.lt_succ_of_le within) acc
  rintro start rest before key value ⟨suffix, -⟩ more shape
  obtain ⟨nonempty, inside, below⟩ := reverse_onward suffix more shape
  refine ⟨(List.drop_suffix limit rest).trans suffix, ?_⟩
  rw [resumed key nonempty inside, below]

/-- Going on from a page, the rest of what was ahead is collected. -/
private theorem exists_reversePages (positive : 0 < limit) (small : limit ≤ maxPageLimit)
    (suffix : rest <:+ (store.behind cf pre).reverse)
    (scan :
      exec env (prefixScanPageReverse cf pre start limit) store =
        (.ok (pageOf limit rest), store)) :
    ∃ pages, ReversePages env store cf pre limit start pages ∧ pages.flatten = rest := by
  induction size : rest.length using Nat.strong_induction_on generalizing start rest with
  | _ n ih =>
    by_cases more : limit < rest.length
    · obtain ⟨before, key, value, page, nextKey⟩ := exists_getLast_of_lt positive more
      obtain ⟨nonempty, inside, below⟩ := reverse_onward suffix more page
      have resumed : exec env (prefixScanPageReverse cf pre key limit) store =
          (.ok (pageOf limit (rest.drop limit)), store) := by
        rw [exec_prefixScanPageReverse_resume positive small nonempty inside, below]
      obtain ⟨pages, collected, contents⟩ := ih (rest.drop limit).length (by simp; omega)
        ((List.drop_suffix limit rest).trans suffix) resumed rfl
      refine ⟨rest.take limit :: pages, .more ?_ collected, ?_⟩
      · rw [scan, ← nextKey]
        rfl
      · rw [List.flatten_cons, contents, List.take_append_drop]
    · refine ⟨[rest], .last ?_, by simp⟩
      rw [scan, pageOf, if_neg more, List.take_of_length_le (by omega)]

/-- A page that goes backward holds entries that its iterator has met. -/
private theorem exists_scanPage (positive : 0 < limit) (items : List Entry) :
    ∃ met : List Entry, met ⊆ items ∧ scanPage pre start limit true items = pageOf limit met := by
  cases items with
  | nil =>
    have plain : scanPage pre start limit false [] = pageOf limit ([].takeWhile _) :=
      scanPage_plain start [] positive
    exact ⟨[], List.Subset.refl _, plain⟩
  | cons e items =>
    rw [scanPage_cons, scanPage_plain start _ positive]
    refine ⟨_, fun e' inside => ?_, rfl⟩
    have member := List.takeWhile_subset _ inside
    split_ifs at member
    · exact List.mem_cons_of_mem _ member
    · exact member

private theorem exists_of_scanReverse {page : Page} (positive : 0 < limit)
    (scan : exec env (prefixScanPageReverse cf pre start limit) store = (.ok page, store)) :
    limit ≤ maxPageLimit ∧ ∃ met : List Entry, page = pageOf limit met ∧
      ∀ e ∈ met, ¬ reverseSeek pre start < e.1 := by
  rw [prefixScanPageReverse, exec_iterate_bind, reservePage, Store.iterate, backward_filter,
    ← reverseSeek] at scan
  split_ifs at scan with small
  · obtain ⟨met, within, same⟩ := @exists_scanPage pre start limit positive
      ((store.family cf).entries.filter fun e => ¬ reverseSeek pre start < e.1).reverse
    rw [exec_pure_bind, exec_pure, same] at scan
    refine ⟨small, met, (Except.ok.inj (congrArg Prod.fst scan)).symm, fun e inside => ?_⟩
    simpa using (List.mem_filter.mp (List.mem_reverse.mp (within inside))).2
  · cases scan

/-- Going backward never leads above the point where it began. -/
private theorem ReversePages.le_top (positive : 0 < limit)
    (collected : ReversePages env store cf pre limit start pages)
    (low : ¬ reverseSeek pre [] < reverseSeek pre start) :
    ∀ e ∈ pages.flatten, ¬ reverseSeek pre [] < e.1 := by
  induction collected with
  | last scan =>
    obtain ⟨-, met, same, below⟩ := exists_of_scanReverse positive scan
    obtain rfl := congrArg Prod.fst same
    intro e inside above
    rw [List.flatten_singleton] at inside
    exact below e (List.mem_of_mem_take inside) (lt_of_le_of_lt (not_lt.mp low) above)
  | @more start key page pages scan _ ih =>
    obtain ⟨-, met, same, below⟩ := exists_of_scanReverse positive scan
    have under : ∀ e ∈ met, ¬ reverseSeek pre [] < e.1 := fun e inside above =>
      below e inside (lt_of_le_of_lt (not_lt.mp low) above)
    obtain ⟨-, before, value, shape⟩ := exists_of_nextKey positive (congrArg Prod.snd same).symm
    have member : (key, value) ∈ met.take limit := by simp [shape]
    have next : ¬ reverseSeek pre [] < reverseSeek pre key := by
      by_cases empty : key = []
      · rw [empty]
        exact lt_irrefl _
      · rw [show reverseSeek pre key = key from if_neg empty]
        exact under _ (List.mem_of_mem_take member)
    intro e inside
    rw [List.flatten_cons, List.mem_append] at inside
    rcases inside with here | later
    · obtain rfl := congrArg Prod.fst same
      exact under e (List.mem_of_mem_take here)
    · exact ih next e later

/-- Paging backward from the empty start key collects the prefix scan in reverse,
exactly if the page buffer can be allocated, no key behind the prefix is above the point
that the scan begins at, and the empty key is not all that a scan without a prefix has. -/
theorem reverse_paging_iff (env : Env) (store : Store) (cf : ColumnFamily) (pre : Bytes) {limit : ℕ}
    (positive : 1 ≤ limit) :
    (∃ pages entries, ReversePages env store cf pre limit [] pages ∧
        exec env (prefixScan cf pre) store = (.ok entries, store) ∧
        pages.flatten = entries.reverse) ↔
      limit ≤ maxPageLimit ∧
        (∀ key value, store.get cf key = some value → pre <+: key →
          ¬ pre ++ List.replicate 8 0xFF < key) ∧
        ¬ (pre = [] ∧ ∃ value, (store.family cf).entries = [([], value)]) := by
  have all : store.behind cf [] = (store.family cf).entries := by
    simp [Store.behind, startsWith]
  constructor
  · rintro ⟨pages, entries, collected, scanned, contents⟩
    obtain rfl : store.behind cf pre = entries :=
      Except.ok.inj (congrArg Prod.fst (exec_prefixScan.symm.trans scanned))
    refine ⟨?_, fun key value stored inside => ?_, ?_⟩
    · cases collected with
      | last scan => exact (exists_of_scanReverse positive scan).1
      | more scan => exact (exists_of_scanReverse positive scan).1
    · have member : (key, value) ∈ pages.flatten := by
        rw [contents, List.mem_reverse]
        exact Store.mem_behind.mpr ⟨stored, inside⟩
      exact collected.le_top positive (lt_irrefl _) _ member
    · -- The scan meets the empty key first and skips it as its start key.
      rintro ⟨rfl, value, single⟩
      have skipped : scanPage [] [] limit true [([], value)] = ([], none) := by
        rw [scanPage_cons, if_pos rfl, scanPage_plain [] _ positive]
        simp [pageOf]
      have scan : ∀ page, exec env (prefixScanPageReverse cf [] [] limit) store =
          (.ok page, store) →
          page = ([], none) := by
        intro page scan
        rw [prefixScanPageReverse, exec_iterate_bind, reservePage, Store.iterate, backward_filter,
          single, List.filter_cons_of_pos (by simp), List.filter_nil, List.reverse_singleton]
            at scan
        split_ifs at scan
        · exact (Except.ok.inj (congrArg Prod.fst scan)).symm.trans skipped
        · cases scan
      rw [all, single] at contents
      cases collected with
      | last scanned' =>
        obtain rfl := (Prod.ext_iff.mp (scan _ scanned')).1
        cases contents
      | more scanned' => cases (Prod.ext_iff.mp (scan _ scanned')).2
  · rintro ⟨small, low, free⟩
    have whole : ((store.behind cf pre).filter fun e => ¬ reverseSeek pre [] < e.1) =
        store.behind cf pre := by
      refine List.filter_eq_self.mpr fun ⟨key, value⟩ inside => ?_
      obtain ⟨stored, begins⟩ := Store.mem_behind.mp inside
      exact decide_eq_true (low key value stored begins)
    have top : exec env (prefixScanPageReverse cf pre [] limit) store =
        (.ok (pageOf limit (store.behind cf pre).reverse), store) := by
      rw [exec_prefixScanPageReverse_top positive small, whole]
      rintro rfl value same
      rw [all] at whole
      exact free ⟨rfl, value, whole.symm.trans same⟩
    obtain ⟨pages, collected, contents⟩ :=
      exists_reversePages positive small (List.suffix_refl _) top
    exact ⟨pages, _, collected, exec_prefixScan, contents⟩

/-- The hypothesis is met by the pages commands ask for. -/
theorem reverse_paging_of_two :
    ∃ pages entries, ReversePages (.plain 0)
        (Store.empty.write [.put .subkey [0x61] [0x78], .put .subkey [0x61, 0x62] [0x79]])
          .subkey [0x61]
        1 [] pages ∧
      exec (.plain 0) (prefixScan .subkey [0x61])
          (Store.empty.write [.put .subkey [0x61] [0x78], .put .subkey [0x61, 0x62] [0x79]]) =
        (.ok entries,
          Store.empty.write [.put .subkey [0x61] [0x78], .put .subkey [0x61, 0x62] [0x79]]) ∧
      pages.flatten = entries.reverse := by
  refine (reverse_paging_iff _ _ _ _ (by decide)).mpr ⟨by decide, ?_, by simp⟩
  intro key value stored _
  simp only [Store.write_cons, Store.write_nil, Store.get_apply_put] at stored
  split_ifs at stored with second first
  · obtain ⟨-, rfl⟩ := second
    decide
  · obtain ⟨-, rfl⟩ := first
    decide
  · cases stored

/-- A key that goes on with nine `0xFF` bytes behind the prefix is above the point where
the scan begins, and is never met. -/
theorem reverse_paging_misses_key :
    let store := Store.empty.write [.put .subkey (0x61 :: List.replicate 9 0xFF) [0x78]]
    (exec (.plain 0) (prefixScanPageReverse .subkey [0x61] [] 10) store).1 = .ok ([], none) ∧
      (exec (.plain 0) (prefixScan .subkey [0x61]) store).1 =
        .ok [(0x61 :: List.replicate 9 0xFF, [0x78])] := by
  decide

end ReversePages

section Deletion

variable {store : Store} {cf : ColumnFamily} {pre start : Bytes} {limit : ℕ} {env : Env}

def Store.without (store : Store) (cf : ColumnFamily) (pre : Bytes) : Store :=
  ⟨Function.update store.family cf ((store.family cf).filterKeys fun key => !startsWith key pre)⟩

theorem Store.get_without (cf' : ColumnFamily) (key : Bytes) :
    (store.without cf pre).get cf' key =
      if cf' = cf ∧ pre <+: key then none else store.get cf' key := by
  by_cases family : cf' = cf
  · subst family
    simp only [without, get, Function.update_self, OrderedMap.get_filterKeys, true_and,
      ← startsWith_iff]
    cases startsWith key pre <;> simp
  · simp [without, get, family]

theorem Store.without_eq_self (none : store.behind cf pre = []) : store.without cf pre = store := by
  refine Store.ext_get fun cf' key => ?_
  rw [Store.get_without]
  split_ifs with gone
  · obtain ⟨rfl, inside⟩ := gone
    cases found : store.get cf' key with
    | none => rfl
    | some value =>
      have member : (key, value) ∈ store.behind cf' pre := Store.mem_behind.mpr ⟨found, inside⟩
      simp [none] at member
  · rfl

private theorem get_write_deletes_of_mem {entries : List Entry} {e : Entry} (member : e ∈ entries) :
    (store.write (entries.map fun e => .delete cf e.1)).get cf e.1 = none := by
  have stays (others : List Entry) {store : Store} (gone : store.get cf e.1 = none) :
      (store.write (others.map fun e => .delete cf e.1)).get cf e.1 = none := by
    induction others generalizing store with
    | nil => exact gone
    | cons other others ih =>
      refine ih ?_
      rw [Store.get_apply_delete, gone, ite_self]
  induction entries generalizing store with
  | nil => cases member
  | cons other entries ih =>
    rw [List.map_cons, Store.write_cons]
    rcases List.mem_cons.mp member with rfl | member
    · exact stays entries (by rw [Store.get_apply_delete, if_pos ⟨rfl, rfl⟩])
    · exact ih member

private theorem get_write_deletes_of_ne {entries : List Entry} {cf' : ColumnFamily} {key : Bytes}
    (elsewhere : cf' = cf → ∀ e ∈ entries, key ≠ e.1) :
    (store.write (entries.map fun e => .delete cf e.1)).get cf' key = store.get cf' key := by
  refine Store.get_write_of_forall_ne _ fun op member => ?_
  obtain ⟨e, inside, rfl⟩ := List.mem_map.mp member
  rintro ⟨family, same⟩
  exact elsewhere family e inside same

/-- What is left behind the prefix after a page of it was deleted. -/
private theorem behind_write_deletes (size : ℕ) :
    (store.write (((store.behind cf pre).take size).map fun e => .delete cf e.1)).behind cf pre =
      (store.behind cf pre).drop size := by
  have ordered := store.behind_ordered cf pre
  have split := List.take_append_drop size (store.behind cf pre)
  rw [← split] at ordered
  obtain ⟨_, later, across⟩ := List.pairwise_append.mp ordered
  refine eq_of_ordered (Store.behind_ordered _ cf pre) later ?_
  rintro ⟨key, value⟩
  rw [Store.mem_behind]
  constructor
  · rintro ⟨kept, inside⟩
    have survived : ∀ e ∈ (store.behind cf pre).take size, key ≠ e.1 := by
      rintro e early rfl
      rw [get_write_deletes_of_mem early] at kept
      cases kept
    rw [get_write_deletes_of_ne fun _ => survived] at kept
    have member : (key, value) ∈ store.behind cf pre := Store.mem_behind.mpr ⟨kept, inside⟩
    rw [← split] at member
    exact (List.mem_append.mp member).resolve_left fun early => survived _ early rfl
  · intro member
    rw [get_write_deletes_of_ne fun _ e early => (across e early _ member).ne']
    exact Store.mem_behind.mp (List.mem_of_mem_drop member)

private theorem exec_deletePrefixLoop (positive : 0 < limit) (small : limit ≤ maxPageLimit)
    (rounds : ℕ) (position : Position store cf pre start (store.behind cf pre))
    (enough : (store.behind cf pre).length < rounds) :
    exec env (deletePrefixLoop cf pre limit rounds start) store =
      (.ok (), store.without cf pre) := by
  -- The loop keeps this: what is still behind the prefix is all ahead of it.
  induction rounds generalizing store start with
  | zero => omega
  | succ rounds ih =>
    rw [deletePrefixLoop, exec_bind_ok (exec_prefixScanPage position positive small)]
    set entries := store.behind cf pre with shape
    let after := store.write ((entries.take limit).map fun e => .delete cf e.1)
    have ahead : after.behind cf pre = entries.drop limit := behind_write_deletes limit
    have rest_same : after.without cf pre = store.without cf pre := by
      refine Store.ext_get fun cf' key => ?_
      rw [Store.get_without, Store.get_without]
      by_cases gone : cf' = cf ∧ pre <+: key
      · rw [if_pos gone, if_pos gone]
      · rw [if_neg gone, if_neg gone]
        refine get_write_deletes_of_ne ?_
        rintro family e early rfl
        exact gone ⟨family, position.startsWith (List.mem_of_mem_take early)⟩
    by_cases more : limit < entries.length
    · obtain ⟨before, key, value, page, nextKey⟩ := exists_getLast_of_lt positive more
      have onward : Position after cf pre key (after.behind cf pre) := by
        -- The empty key starts over, and by now all that was passed is deleted.
        by_cases empty : key = []
        · rw [empty]
          exact .first
        have beyond : entriesAfter key (after.behind cf pre) = after.behind cf pre := by
          refine entriesAfter_eq_self fun e member => ?_
          rw [ahead] at member
          have ordered := position.ordered
          rw [← List.take_append_drop limit entries, page] at ordered
          exact (List.pairwise_append.mp ordered).2.2 (key, value) (by simp) e member
        have inside : pre <+: key := by
          refine position.startsWith (e := (key, value)) (List.mem_of_mem_take (i := limit) ?_)
          simp [page]
        exact beyond ▸ .resume empty inside
      have fetched : pageOf limit entries = (entries.take limit, some key) := by
        rw [← nextKey]
        rfl
      have fewer : (after.behind cf pre).length < rounds := by
        rw [ahead, List.length_drop]
        omega
      rw [fetched]
      cases taken : entries.take limit with
      | nil => simp [taken] at page
      | cons e items =>
        have written : after = store.write ((e :: items).map fun e => .delete cf e.1) := by
          rw [← taken]
        simp only [exec_write_bind, ← written, ih onward fewer, rest_same]
    · have whole : entries.take limit = entries := List.take_of_length_le (by omega)
      have emptied : after.without cf pre = after := by
        refine Store.without_eq_self ?_
        rw [ahead, List.drop_eq_nil_of_le (by omega)]
      have fetched : pageOf limit entries = (entries, none) := by
        rw [pageOf, if_neg more, whole]
      rw [fetched, ← rest_same, emptied]
      cases found : entries with
      | nil => simp [after, found]
      | cons e items =>
        have written : after = store.write ((e :: items).map fun e => .delete cf e.1) := by
          rw [← found, ← whole]
        simp only [exec_write_bind, ← written, exec_pure]

/-- Deleting a prefix deletes exactly the entries behind it. -/
theorem exec_deletePrefix (positive : 0 < limit) (small : limit ≤ maxPageLimit) :
    exec env (deletePrefix cf pre limit) store = (.ok (), store.without cf pre) := by
  rw [deletePrefix, exec_familySize_bind]
  refine exec_deletePrefixLoop positive small _ .first ?_
  exact Nat.lt_succ_of_le (List.length_filter_le _ _)

/-- Deleting a prefix ends and leaves exactly the entries that do not begin with it, if
and only if the buffer of a page can be allocated. -/
theorem deletePrefix_exact_iff (env : Env) (store : Store) (cf : ColumnFamily) (pre : Bytes)
    {batchSize : ℕ} (positive : 1 ≤ batchSize) :
    (∃ after, exec env (deletePrefix cf pre batchSize) store = (.ok (), after) ∧
        (after.family cf).entries =
          (store.family cf).entries.filter (fun e => ¬ startsWith e.1 pre) ∧
        ∀ other, other ≠ cf → after.family other = store.family other) ↔
      batchSize ≤ maxPageLimit := by
  constructor
  · rintro ⟨after, deleted, -⟩
    by_contra large
    have panics : exec env (deletePrefix cf pre batchSize) store = (.error .panic, store) := by
      rw [deletePrefix, exec_familySize_bind, deletePrefixLoop]
      exact exec_bind_error (exec_prefixScanPage_large large)
    rw [panics] at deleted
    cases deleted
  · intro small
    refine ⟨store.without cf pre, exec_deletePrefix positive small, ?_, fun other different => ?_⟩
    · simp [Store.without, OrderedMap.filterKeys]
    · exact Function.update_of_ne different _ _

/-- The empty prefix can be deleted entry by entry, although the scan starts over at the
empty key. -/
theorem deletePrefix_of_nil :
    ∃ after, exec (.plain 0) (deletePrefix .subkey [] 1)
        (Store.empty.write [.put .subkey [] [0x78], .put .subkey [0x61] [0x79]]) = (.ok (), after) ∧
      (after.family .subkey).entries =
        ((Store.empty.write [.put .subkey [] [0x78], .put .subkey [0x61] [0x79]]).family
          .subkey).entries.filter (fun e => ¬ startsWith e.1 []) ∧
      ∀ other, other ≠ .subkey → after.family other =
        (Store.empty.write [.put .subkey [] [0x78], .put .subkey [0x61] [0x79]]).family other :=
  (deletePrefix_exact_iff _ _ _ _ (by decide)).mpr (by decide)

/-- A batch whose page buffer cannot be allocated panics. -/
theorem deletePrefix_panics :
    (exec (.plain 0) (deletePrefix .subkey [0x61] (2 ^ 63)) Store.empty).1 = .error .panic := by
  decide

end Deletion

end Kvdb
