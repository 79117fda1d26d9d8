import Kvdb.SortedSet.Ranges

/-!
# Ranks of a sorted set

`ZRANGE` and `ZRANK` count the pairs of the score index upward, `ZREVRANGE` and
`ZREVRANK` downward from an upper bound that is above every score but some NaNs.
-/

namespace Kvdb

open Data Semantics Cmd

section Walks

variable {ctx : CommandContext} {key : Bytes} {v : UInt64} {store : Store} {env : Env}

/-- The pairs in the order of a walk. -/
def walked (ctx : CommandContext) (key : Bytes) (v : UInt64) (store : Store) (reverse : Bool) :
    List (F64 × Bytes) :=
  if reverse then (zsetPairs ctx key v store).reverse else zsetPairs ctx key v store

/-- Every score that is a number is below the upper bound of a walk downward. -/
theorem encodeScore_append_lt {score : F64} (ordinary : score.isNan = false) (m : Bytes) :
    encodeScore score ++ m < List.replicate 8 0xFF := by
  have place := beNat_encodeScore score
  have top : beNat (List.replicate 8 0xFF) = 2 ^ 64 - 1 := by decide
  have finite : score.magnitude ≤ 0x7FF0000000000000 := by
    rw [F64.isNan, decide_eq_false_iff_not, not_lt] at ordinary
    exact ordinary
  have small : score.rank ≤ score.magnitude := by
    rw [F64.rank]
    split_ifs <;> omega
  have less : encodeScore score < List.replicate 8 0xFF := by
    rw [lt_iff_beNat_lt (by simp), top]
    split_ifs at place <;> omega
  simpa using (append_lt_append_iff (x := m) (y := []) (by simp)).mpr (.inl less)

/-- Every entry of the index is below the end that a walk downward starts from. -/
theorem Indexed.lt_top (indexed : Indexed ctx key v store)
    (ordinary : ∀ p ∈ zsetPairs ctx key v store, p.1.isNan = false) {e : Entry}
    (inside : e ∈ store.behind .zsetScore (ctx.subKey key v [])) :
    e.1 < ctx.subKey key v [] ++ List.replicate 8 0xFF := by
  have start : ctx.subKey key v [] ++ List.replicate 8 0xFF =
      ctx.subKey key v (List.replicate 8 0xFF) :=
    (subkey_eq_prefix_append key v _ _).symm
  rw [behind_eq_elements] at inside
  obtain ⟨element, member, rfl⟩ := List.mem_map.mp inside
  rw [start, subKey_lt_subKey, ← encode_pairOf (indexed.width member)]
  exact encodeScore_append_lt (ordinary _ (List.mem_map.mpr ⟨element, member, rfl⟩)) _

/-- A walk downward meets every pair. -/
theorem Indexed.below_top (indexed : Indexed ctx key v store)
    (ordinary : ∀ p ∈ zsetPairs ctx key v store, p.1.isNan = false) :
    store.below .zsetScore (ctx.subKey key v []) (ctx.subKey key v [] ++ List.replicate 8 0xFF) =
      (store.behind .zsetScore (ctx.subKey key v [])).reverse := by
  rw [Store.below, List.filter_eq_self.mpr]
  intro e inside
  have less := indexed.lt_top ordinary inside
  rw [decide_eq_true_eq, reverseSeek, if_neg (by simp)]
  exact ⟨less.not_gt, less.ne⟩

/-- So does a walk that has no other start. -/
theorem Indexed.below_start (indexed : Indexed ctx key v store)
    (ordinary : ∀ p ∈ zsetPairs ctx key v store, p.1.isNan = false) :
    store.below .zsetScore (ctx.subKey key v []) [] =
      (store.behind .zsetScore (ctx.subKey key v [])).reverse := by
  rw [Store.below, List.filter_eq_self.mpr]
  intro e inside
  rw [decide_eq_true_eq, reverseSeek, if_pos rfl]
  refine ⟨(indexed.lt_top ordinary inside).not_gt, fun empty => ?_⟩
  have named := (Store.mem_behind.mp inside).2
  rw [empty] at named
  exact ctx.subKey_ne_nil _ _ _ (List.prefix_nil.mp named)

/-- A walk over the score index in one of the two directions runs its body over all
entries. -/
theorem Indexed.exec_forEachPage_rankPage (indexed : Indexed ctx key v store)
    (ordinary : ∀ p ∈ zsetPairs ctx key v store, p.1.isNan = false) (reverse : Bool) {β : Type}
    {body : β → Entry → Prog (ForInStep β)}
    (readonly : ∀ acc item, (exec env (body acc item) store).2 = store) (acc : β) :
    exec env (forEachPage .zsetScore (rankPage (ctx.subKey key v []) reverse) acc body) store =
      exec env
        (forEach body (if reverse then (store.behind .zsetScore (ctx.subKey key v [])).reverse
        else store.behind .zsetScore (ctx.subKey key v [])) acc >>= ForInStep.settle) store := by
  have named : ctx.subKey key v [] ≠ [] := ctx.subKey_ne_nil _ _ _
  cases reverse with
  | false =>
    have walked := @exec_forEachPage store .zsetScore (ctx.subKey key v []) zsetPageSize env Entry β
      (rankPage (ctx.subKey key v []) false) id body
      (fun start rest position => by
        rw [List.map_id]
        exact exec_prefixScanPage position (by decide) (by decide))
      readonly (by decide) (.inl named) acc
    rwa [List.map_id] at walked
  | true =>
    have resumed : ∀ start, start ≠ [] → ctx.subKey key v [] <+: start →
        exec env (rankPage (ctx.subKey key v []) true start) store =
          (.ok ((pageOf zsetPageSize (store.below .zsetScore (ctx.subKey key v []) start)).1.map id,
            (pageOf zsetPageSize (store.below .zsetScore (ctx.subKey key v []) start)).2),
              store) := by
      intro start nonempty inside
      rw [rankPage, if_pos rfl, if_neg nonempty, List.map_id]
      exact exec_prefixScanPageReverse_resume (by decide) (by decide) nonempty inside
    have top : exec env (rankPage (ctx.subKey key v []) true []) store =
        (.ok ((pageOf zsetPageSize
            (store.behind .zsetScore (ctx.subKey key v [])).reverse).1.map id,
          (pageOf zsetPageSize (store.behind .zsetScore (ctx.subKey key v [])).reverse).2),
            store) := by
      rw [← indexed.below_top ordinary, ← resumed _ (by simp) (List.prefix_append _ _),
        rankPage, rankPage, if_pos rfl, if_pos rfl, if_pos rfl, if_neg (by simp)]
    have walked := exec_forEachPage_reverse (by decide) List.suffix_rfl top resumed readonly acc
    rwa [List.map_id] at walked

/-- The pairs that a walk meets. -/
theorem map_scoreEntry_walk (reverse : Bool) :
    (if reverse then (store.behind .zsetScore (ctx.subKey key v [])).reverse
      else store.behind .zsetScore (ctx.subKey key v [])).map (scoreEntry ctx key v) =
      walked ctx key v store reverse := by
  cases reverse <;> simp [walked, map_scoreEntry_behind]

end Walks

section Collecting

variable {ctx : CommandContext} {key : Bytes} {v : UInt64} {store : Store} {env : Env}

/-- A walk that skips up to a rank and collects until there are enough. -/
theorem exec_forEach_rankBody {startRank count : ℕ} {items : List Entry}
    (parsed : ∀ e ∈ items, parseScoreSubkey ctx e.1 = some (scoreEntry ctx key v e))
    (result : List (F64 × Bytes)) (skipped : ℕ) (room : result.length < count) :
    ∃ passed, exec env (forEach (rankBody ctx startRank count) items (result, skipped)
        >>= ForInStep.settle) store =
      (.ok (result ++ ((items.map (scoreEntry ctx key v)).drop (startRank - skipped)).take
        (count - result.length), passed), store) := by
  induction items generalizing result skipped with
  | nil => exact ⟨skipped, by simp [forEach, ForInStep.settle]⟩
  | cons e items ih =>
    have later : ∀ e ∈ items, parseScoreSubkey ctx e.1 = some (scoreEntry ctx key v e) :=
      fun e inside => parsed e (List.mem_cons_of_mem _ inside)
    rw [forEach, bind_assoc, rankBody, parsed e List.mem_cons_self, List.map_cons]
    dsimp only
    by_cases early : skipped < startRank
    · obtain ⟨left, more⟩ : ∃ left, startRank - skipped = left + 1 :=
        ⟨startRank - skipped - 1, by omega⟩
      have next : startRank - (skipped + 1) = left := by omega
      rw [if_pos early, exec_pure_bind, more, List.drop_succ_cons, ← next]
      exact ih later result (skipped + 1) room
    · obtain ⟨left, more⟩ : ∃ left, count - result.length = left + 1 :=
        ⟨count - result.length - 1, by omega⟩
      have length : (result ++ [scoreEntry ctx key v e]).length = result.length + 1 := by simp
      have none : startRank - skipped = 0 := by omega
      rw [if_neg early, none, List.drop_zero, more, List.take_succ_cons, length]
      by_cases full : count ≤ result.length + 1
      · have last : left = 0 := by omega
        rw [if_pos full, exec_pure_bind, last]
        exact ⟨skipped, by simp [ForInStep.settle]⟩
      · have rest : left = count - (result ++ [scoreEntry ctx key v e]).length := by
          rw [length]
          omega
        obtain ⟨passed, ran⟩ := ih later (result ++ [scoreEntry ctx key v e]) skipped (by omega)
        refine ⟨passed, ?_⟩
        rw [none, List.drop_zero, ← rest, List.append_assoc] at ran
        rw [if_neg full, exec_pure_bind]
        exact ran

theorem readonly_rankBody (startRank count : ℕ) (acc : List (F64 × Bytes) × ℕ) (item : Entry) :
    (exec env (rankBody ctx startRank count acc item) store).2 = store := by
  unfold rankBody
  cases parseScoreSubkey ctx item.1 with
  | none => rfl
  | some pair =>
    dsimp only
    split_ifs <;> rfl

/-- The pairs in a range of ranks. -/
theorem Indexed.exec_collectRankRangeItems (indexed : Indexed ctx key v store)
    (short : key.length < 2 ^ 32)
    (ordinary : ∀ p ∈ zsetPairs ctx key v store, p.1.isNan = false) (startRank count : ℕ)
    (reverse : Bool) :
    exec env (collectRankRangeItems ctx key v startRank count reverse) store =
      (.ok (((walked ctx key v store reverse).drop startRank).take count), store) := by
  by_cases empty : count = 0
  · rw [collectRankRangeItems, if_pos empty, empty, List.take_zero]
    rfl
  rw [collectRankRangeItems, if_neg empty]
  have parsed : ∀ e ∈ (if reverse then (store.behind .zsetScore (ctx.subKey key v [])).reverse
      else store.behind .zsetScore (ctx.subKey key v [])),
      parseScoreSubkey ctx e.1 = some (scoreEntry ctx key v e) := by
    intro e inside
    refine indexed.width.parse short ?_
    cases reverse with
    | false => exact inside
    | true => exact List.mem_reverse.mp inside
  have ran : ∃ passed, exec env (forEachPage .zsetScore (rankPage (ctx.subKey key v []) reverse)
      ([], 0) (rankBody ctx startRank count)) store =
      (.ok (((walked ctx key v store reverse).drop startRank).take count, passed), store) := by
    rw [indexed.exec_forEachPage_rankPage ordinary reverse (readonly_rankBody startRank count),
      ← map_scoreEntry_walk]
    exact exec_forEach_rankBody parsed [] 0 (Nat.pos_of_ne_zero empty)
  obtain ⟨passed, ran⟩ := ran
  rw [exec_bind_ok ran]
  rfl

end Collecting

section Slices

variable {α : Type}

/-- An index of a rank range: negative ones count from the end, and what is before the
first rank counts as the first rank. -/
theorem toInt_normalizeRank {idx len : Int64} {n : ℕ} (length : len.toInt = n) :
    (normalizeRank idx len).toInt = max (ListSpec.resolve n idx.toInt) 0 := by
  have upper := len.toInt_lt
  have lower := idx.le_toInt
  unfold normalizeRank ListSpec.resolve
  simp only [Int64.lt_iff_toInt_lt, Int64.toInt_zero]
  by_cases negative : idx.toInt < 0
  · have sum : (len + idx).toInt = len.toInt + idx.toInt := toInt_add_of_lt (by omega) (by omega)
    rw [if_pos negative, if_pos negative, sum]
    split_ifs with below
    · rw [Int64.toInt_zero]
      omega
    · omega
  · rw [if_neg negative, if_neg negative]
    omega

/-- The ranks of a range, over the integers. -/
theorem rankRange_eq {len start stop : Int64} {n : ℕ} (length : len.toInt = n) {s e : ℤ}
    (first : s = max (ListSpec.resolve n start.toInt) 0)
    (last : e = max (ListSpec.resolve n stop.toInt) 0) :
    rankRange len start stop =
      if e < s ∨ n ≤ s then (0, 0) else (s.toNat, (min e (n - 1) - s + 1).toNat) := by
  have upper := len.toInt_lt
  have one : (1 : Int64).toInt = 1 := rfl
  have begins := @toInt_normalizeRank start _ _ length
  have ends := @toInt_normalizeRank stop _ _ length
  rw [← first] at begins
  rw [← last] at ends
  unfold rankRange
  generalize normalizeRank start len = begin' at begins ⊢
  generalize normalizeRank stop len = end' at ends ⊢
  simp only [Int64.lt_iff_toInt_lt, Int64.le_iff_toInt_le, begins, ends, length]
  by_cases crossed : e < s ∨ n ≤ s
  · rw [if_pos crossed, if_pos crossed]
  rw [if_neg crossed, if_neg crossed]
  have top : (len - 1).toInt = n - 1 := by
    rw [toInt_sub_of_lt (by omega) (by omega), length, one]
  rw [top]
  have clamped : (if (n : ℤ) - 1 < e then len - 1 else end').toInt = min e (n - 1) := by
    split_ifs <;> omega
  generalize (if (n : ℤ) - 1 < e then len - 1 else end') = stop' at clamped ⊢
  have difference : (stop' - begin').toInt = min e (n - 1) - s := by
    rw [toInt_sub_of_lt (by omega) (by omega), clamped, begins]
  have count : (stop' - begin' + 1).toInt = min e (n - 1) - s + 1 := by
    rw [toInt_add_of_lt (by omega) (by omega), difference, one]
  have counted := @toNat_toUInt64 (stop' - begin' + 1) (by omega)
  have begun := @toNat_toUInt64 begin' (by omega)
  rw [Prod.mk.injEq]
  omega

/-- The ranks of a range select its slice, unless the range ends before the first rank
and does not begin behind it: it then selects the first element. -/
theorem rankRange_slice_iff {len start stop : Int64} (l : List α) (length : len.toInt = l.length) :
    ((l.drop (rankRange len start stop).1).take (rankRange len start stop).2 =
      ListSpec.slice l start.toInt stop.toInt) ↔
      ¬ (l ≠ [] ∧ ListSpec.resolve l.length start.toInt ≤ 0 ∧
        ListSpec.resolve l.length stop.toInt < 0) := by
  rw [rankRange_eq length rfl rfl, ListSpec.slice_clamp, ← List.length_pos_iff]
  generalize ListSpec.resolve l.length start.toInt = s
  generalize ListSpec.resolve l.length stop.toInt = e
  by_cases crossed : max e 0 < max s 0 ∨ (l.length : ℤ) ≤ max s 0
  · rw [if_pos crossed, List.take_zero, List.drop_eq_nil_of_le (by rw [List.length_take]; omega)]
    exact iff_of_true rfl (by omega)
  rw [if_neg crossed, List.take_drop]
  have total : (min (max e 0) ((l.length : ℤ) - 1) - max s 0 + 1).toNat + (max s 0).toNat =
      (min (max e 0) ((l.length : ℤ) - 1) + 1).toNat := by
    omega
  rw [Nat.add_comm, total]
  by_cases early : e < 0
  · -- The range ends before the first rank, so its slice is empty.
    have none : (min e ((l.length : ℤ) - 1) + 1).toNat = 0 := by omega
    refine iff_of_false (fun same => ?_) (by omega)
    have lengths := congrArg List.length same
    rw [none, List.take_zero, List.drop_nil, List.length_nil, List.length_drop, List.length_take]
      at lengths
    omega
  · have same : max e 0 = e := by omega
    rw [same]
    exact iff_of_true rfl (by omega)

end Slices

section Searching

variable {ctx : CommandContext} {key : Bytes} {v : UInt64} {store : Store} {env : Env}
  {score : F64} {target : Bytes}

/-- A search counts the pairs before that of its member. -/
theorem exec_forEach_rankSearch {items : List Entry}
    (parsed : ∀ e ∈ items, parseScoreSubkey ctx e.1 = some (scoreEntry ctx key v e))
    (scored : ∀ e ∈ items, (scoreEntry ctx key v e).2 = target →
      (scoreEntry ctx key v e).1.eq score = true)
    (present : target ∈ items.map fun e => (scoreEntry ctx key v e).2) (rank : Int64) :
    exec env (forEach (rankSearch ctx score target) items (.missing rank) >>= ForInStep.settle)
        store =
      (.ok (.found (rank + Int64.ofNat
        ((items.map fun e => (scoreEntry ctx key v e).2).idxOf target))), store) := by
  induction items generalizing rank with
  | nil => cases present
  | cons e items ih =>
    rw [forEach, bind_assoc, rankSearch, parsed e List.mem_cons_self, List.map_cons]
    dsimp only
    by_cases here : (scoreEntry ctx key v e).2 = target
    · rw [if_pos ⟨scored e List.mem_cons_self here, here⟩, exec_pure_bind, here,
        List.idxOf_cons_self]
      simp [ForInStep.settle]
    · have later : target ∈ items.map fun e => (scoreEntry ctx key v e).2 := by
        rw [List.map_cons, List.mem_cons] at present
        exact present.resolve_left (Ne.symm here)
      rw [if_neg fun found => here found.2, exec_pure_bind, List.idxOf_cons_ne _ here]
      dsimp only
      rw [ih (fun e inside => parsed e (List.mem_cons_of_mem _ inside))
        (fun e inside => scored e (List.mem_cons_of_mem _ inside)) later, int64_add_one_add]

theorem readonly_rankSearch (scan : RankScan) (item : Entry) :
    (exec env (rankSearch ctx score target scan item) store).2 = store := by
  unfold rankSearch
  cases scan with
  | found rank => rfl
  | missing rank =>
    cases parseScoreSubkey ctx item.1 with
    | none => rfl
    | some pair =>
      dsimp only
      split_ifs <;> rfl

theorem exec_readScore
    (stored : store.get .subkey (ctx.subKey key v target) = some (encodeScore score)) :
    exec env (readScore ctx key v target) store = (.ok (some score), store) := by
  rw [readScore, exec_get_bind, memberSubkey, stored]
  dsimp only
  rw [scoreOfValue_eq (length_encodeScore score), decodeScore_encodeScore]
  rfl

end Searching

section Commands

variable {ctx : CommandContext} {key : Bytes} {store : Store} {env : Env} {meta' : Metadata}

/-- A live sorted set: its indexes agree, no score is a NaN, and its record says how many
members there are, which is fewer than a signed word can count. -/
structure RankedZset (ctx : CommandContext) (env : Env) (store : Store) (key : Bytes)
    (meta' : Metadata) : Prop where
  short : key.length < 2 ^ 32
  loaded : ctx.zsetMeta env store key = .ok (some meta')
  indexed : Indexed ctx key meta'.version store
  ordinary : ∀ p ∈ zsetPairs ctx key meta'.version store, p.1.isNan = false
  size : meta'.size.toNat = (zsetPairs ctx key meta'.version store).length
  few : (zsetPairs ctx key meta'.version store).length < 2 ^ 63

/-- The members of a sorted set in index order. -/
abbrev zsetMembers (ctx : CommandContext) (key : Bytes) (meta' : Metadata) (store : Store) :
    List Bytes :=
  (zsetPairs ctx key meta'.version store).map Prod.snd

theorem RankedZset.parse (zset : RankedZset ctx env store key meta') (reverse : Bool) :
    ∀ e ∈ (if reverse then (store.behind .zsetScore (ctx.subKey key meta'.version [])).reverse
      else store.behind .zsetScore (ctx.subKey key meta'.version [])),
      parseScoreSubkey ctx e.1 = some (scoreEntry ctx key meta'.version e) := by
  intro e inside
  refine zset.indexed.width.parse zset.short ?_
  cases reverse with
  | false => exact inside
  | true => exact List.mem_reverse.mp inside

theorem map_snd_walked (reverse : Bool) :
    (walked ctx key meta'.version store reverse).map Prod.snd =
      if reverse then (zsetMembers ctx key meta' store).reverse else zsetMembers ctx key
        meta' store := by
  cases reverse <;> simp [walked]

theorem RankedZset.exec_rangeByRank (zset : RankedZset ctx env store key meta') (name : String)
    (reverse : Bool) {startArg stopArg : Bytes} {start stop : Int64}
    (starts : parseI64? startArg = some start) (stops : parseI64? stopArg = some stop) :
    exec env (rangeByRank ctx name reverse [key, startArg, stopArg]) store =
      (.ok (ListSpec.bulks (((if reverse then (zsetMembers ctx key meta' store).reverse
        else zsetMembers ctx key meta' store).drop
          (rankRange meta'.size.toInt64 start stop).1).take
            (rankRange meta'.size.toInt64 start stop).2)), store) := by
  rw [← map_snd_walked, ← List.map_drop, ← List.map_take, rangeByRank]
  simp only [List.length_nil, Nat.not_lt_zero, if_false, withScoresOption, exec_pure_bind]
  rw [exec_bind, exec_readZsetMeta, zset.loaded]
  unfold parseI64
  simp only [starts, stops, exec_pure_bind]
  rw [exec_bind_ok (zset.indexed.exec_collectRankRangeItems zset.short zset.ordinary _ _ reverse)]
  rw [ListSpec.bulks, List.map_map, List.map_eq_flatMap]
  rfl

/-- A command that replies a range replies the slice of the members, unless the range ends
before the first rank and does not begin behind it. -/
theorem RankedZset.range_iff (zset : RankedZset ctx env store key meta') {command : Command}
    {name : String} (reverse : Bool) (runs : command.run ctx = rangeByRank ctx name reverse)
    {startArg stopArg : Bytes} {start stop : Int64}
    (starts : parseI64? startArg = some start) (stops : parseI64? stopArg = some stop) :
    Request.reply ctx store ⟨command, [key, startArg, stopArg], env⟩ =
        .ok
          (ListSpec.bulks (ListSpec.slice (if reverse then (zsetMembers ctx key meta' store).reverse
          else zsetMembers ctx key meta' store) start.toInt stop.toInt)) ↔
      ¬ (zsetMembers ctx key meta' store ≠ [] ∧
        ListSpec.resolve (zsetMembers ctx key meta' store).length start.toInt ≤ 0 ∧
        ListSpec.resolve (zsetMembers ctx key meta' store).length stop.toInt < 0) := by
  have counted : meta'.size.toInt64.toInt = (zsetMembers ctx key meta' store).length := by
    have size := zset.size
    have few := zset.few
    rw [toInt_eq_toUInt64, UInt64.toUInt64_toInt64, if_pos (by omega), List.length_map, size]
  have selected := @rankRange_slice_iff Bytes meta'.size.toInt64 start stop
    (if reverse then (zsetMembers ctx key meta' store).reverse else zsetMembers ctx key meta' store)
    (by cases reverse <;> simpa using counted)
  have lengths : (if reverse then (zsetMembers ctx key meta' store).reverse
      else zsetMembers ctx key meta' store).length = (zsetMembers ctx key meta' store).length := by
    cases reverse <;> simp
  have empty : (if reverse then (zsetMembers ctx key meta' store).reverse
      else zsetMembers ctx key meta' store) ≠ [] ↔ zsetMembers ctx key meta' store ≠ [] := by
    cases reverse <;> simp
  rw [lengths, empty] at selected
  have ran := zset.exec_rangeByRank name reverse starts stops
  rw [← runs] at ran
  rw [← selected, Request.reply_eq_ok ctx ran]
  constructor
  · intro same
    have replies := RespValue.array.inj (Except.ok.inj same)
    exact List.map_injective_iff.mpr
      (fun _ _ eq => Option.some.inj (RespValue.bulkString.inj eq)) replies
  · intro same
    rw [same]

theorem RankedZset.exec_rankOf (zset : RankedZset ctx env store key meta') (name : String)
    (reverse : Bool) {m : Bytes} (member : m ∈ zsetMembers ctx key meta' store) :
    exec env (Cmd.rankOf ctx name reverse [key, m]) store =
      (.ok (.integer (Int64.ofNat ((if reverse then (zsetMembers ctx key meta' store).reverse
        else zsetMembers ctx key meta' store).idxOf m))), store) := by
  obtain ⟨⟨score, m'⟩, inside, same⟩ := List.mem_map.mp member
  obtain rfl : m' = m := same
  have stored := zset.indexed.mem_zsetPairs.mp inside
  rw [Cmd.rankOf, exec_bind, exec_readZsetMeta, zset.loaded]
  dsimp only
  rw [exec_bind_ok (exec_readScore stored)]
  dsimp only
  have members :
      (if reverse then (store.behind .zsetScore (ctx.subKey key meta'.version [])).reverse
      else store.behind .zsetScore (ctx.subKey key meta'.version [])).map
        (fun e => (scoreEntry ctx key meta'.version e).2) =
      if reverse then (zsetMembers ctx key meta' store).reverse else zsetMembers ctx key
        meta' store := by
    rw [← map_snd_walked, ← map_scoreEntry_walk, List.map_map]
    rfl
  have found := @exec_forEach_rankSearch ctx key meta'.version store env score m' _
    (zset.parse reverse) (fun e here same => ?_) ?_ 0
  · rw [← zset.indexed.exec_forEachPage_rankPage zset.ordinary reverse readonly_rankSearch, members,
      Int64.zero_add] at found
    rw [exec_bind_ok found]
    rfl
  · have pair : scoreEntry ctx key meta'.version e ∈ zsetPairs ctx key meta'.version store := by
      rw [← map_scoreEntry_behind]
      refine List.mem_map_of_mem ?_
      cases reverse with
      | false => exact here
      | true => exact List.mem_reverse.mp here
    rw [← Prod.mk.eta (p := scoreEntry ctx key meta'.version e), same,
      zset.indexed.mem_zsetPairs, stored] at pair
    rw [← encodeScore_injective (Option.some.inj pair),
      eq_iff_rank (zset.ordinary _ inside) (zset.ordinary _ inside)]
  · rw [members]
    cases reverse with
    | false => exact member
    | true => exact List.mem_reverse.mpr member

theorem RankedZset.exec_rankOf_absent (zset : RankedZset ctx env store key meta') (name : String)
    (reverse : Bool) {m : Bytes} (absent : m ∉ zsetMembers ctx key meta' store) :
    exec env (Cmd.rankOf ctx name reverse [key, m]) store = (.ok (.bulkString none), store) := by
  have none : store.get .subkey (ctx.subKey key meta'.version m) = none := by
    cases stored : store.get .subkey (ctx.subKey key meta'.version m) with
    | none => rfl
    | some s =>
      refine absurd (List.mem_map.mpr ⟨(decodeScore s, m), ?_, rfl⟩) absent
      rw [zset.indexed.mem_zsetPairs,
        encodeScore_decodeScore (zset.indexed.scored m s stored).1, stored]
  rw [Cmd.rankOf, exec_bind, exec_readZsetMeta, zset.loaded]
  dsimp only
  rw [readScore, bind_assoc, exec_get_bind, memberSubkey, none]
  rfl

/-- The position of an element from the other end. -/
private theorem idxOf_reverse {l : List Bytes} (distinct : l.Nodup) {m : Bytes} (member : m ∈ l) :
    l.reverse.idxOf m = l.length - 1 - l.idxOf m := by
  have inside := List.idxOf_lt_length_iff.mpr member
  have place : l.length - 1 - l.idxOf m < l.reverse.length := by
    rw [List.length_reverse]
    omega
  have found := List.get_idxOf (List.nodup_reverse.mpr distinct) ⟨_, place⟩
  have same : l.reverse.get ⟨_, place⟩ = m := by
    have back : l.length - 1 - (l.length - 1 - l.idxOf m) = l.idxOf m := by omega
    rw [List.get_eq_getElem, List.getElem_reverse]
    simp only [back]
    exact List.getElem_idxOf inside
  rwa [same] at found

/-- Ranks are positions in index order, from either end, and nil for what is no member.
Ranges are slices in index order, from either end, if and only if there are no members,
or the range begins behind the first rank, or it does not end before it. -/
theorem ranks_and_ranges_iff (zset : RankedZset ctx env store key meta') :
    (∀ m ∈ zsetMembers ctx key meta' store,
      Request.reply ctx store ⟨.zrank, [key, m], env⟩ =
          .ok (.integer (Int64.ofNat ((zsetMembers ctx key meta' store).idxOf m))) ∧
        Request.reply ctx store ⟨.zrevrank, [key, m], env⟩ =
          .ok (.integer (Int64.ofNat ((zsetMembers ctx key meta' store).length - 1 -
            (zsetMembers ctx key meta' store).idxOf m)))) ∧
      (∀ m ∉ zsetMembers ctx key meta' store,
        Request.reply ctx store ⟨.zrank, [key, m], env⟩ = .ok (.bulkString none) ∧
          Request.reply ctx store ⟨.zrevrank, [key, m], env⟩ = .ok (.bulkString none)) ∧
      ∀ (startArg stopArg : Bytes) (start stop : Int64), parseI64? startArg = some start →
        parseI64? stopArg = some stop →
        ((Request.reply ctx store ⟨.zrange, [key, startArg, stopArg], env⟩ =
              .ok (ListSpec.bulks (ListSpec.slice (zsetMembers ctx key meta' store)
                start.toInt stop.toInt)) ∧
            Request.reply ctx store ⟨.zrevrange, [key, startArg, stopArg], env⟩ =
              .ok (ListSpec.bulks (ListSpec.slice (zsetMembers ctx key meta' store).reverse
                start.toInt stop.toInt))) ↔
          ¬ (zsetMembers ctx key meta' store ≠ [] ∧
            ListSpec.resolve (zsetMembers ctx key meta' store).length start.toInt ≤ 0 ∧
            ListSpec.resolve (zsetMembers ctx key meta' store).length stop.toInt < 0)) := by
  refine ⟨fun m member => ⟨?_, ?_⟩, fun m absent => ⟨?_, ?_⟩, fun _ _ start stop starts stops => ?_⟩
  · exact Request.reply_eq_ok ctx (zset.exec_rankOf "ZRANK" false member)
  · rw [← idxOf_reverse zset.indexed.nodup_members member]
    exact Request.reply_eq_ok ctx (zset.exec_rankOf "ZREVRANK" true member)
  · exact Request.reply_eq_ok ctx (zset.exec_rankOf_absent "ZRANK" false absent)
  · exact Request.reply_eq_ok ctx (zset.exec_rankOf_absent "ZREVRANK" true absent)
  · have upward :=
      @RankedZset.range_iff _ _ _ _ _ zset .zrange "ZRANGE" false rfl _ _ _ _ starts stops
    have downward :=
      @RankedZset.range_iff _ _ _ _ _ zset .zrevrange "ZREVRANGE" true rfl _ _ _ _ starts stops
    exact (and_congr upward downward).trans and_self_iff

/-- Two members at one score, from both ends. -/
theorem ranks_and_ranges_of_two :
    let added : Request := ⟨.zadd, ["z", "inf", "m", "inf", "n"].map ascii, .plain 7⟩
    let store := added.after .plain .empty
    Request.reply .plain store ⟨.zrank, [ascii "z", ascii "n"], .plain 8⟩ = .ok (.integer 1) ∧
      Request.reply .plain store ⟨.zrevrank, [ascii "z", ascii "n"], .plain 8⟩ = .ok (.integer 0) ∧
      Request.reply .plain store ⟨.zrevrange, ["z", "0", "-2"].map ascii, .plain 8⟩ =
        .ok (ListSpec.bulks [ascii "n"]) := by
  intro added store
  have run : Runs .plain SortedSetRequest .empty [added] store :=
    .next .refl ⟨by decide, by decide⟩
  obtain ⟨meta', loaded, version, size⟩ : ∃ meta', CommandContext.zsetMeta .plain (.plain 8) store
      (ascii "z") = .ok (some meta') ∧ meta'.version = (Env.plain 7).version ∧ meta'.size = 2 :=
    ⟨{ Metadata.new .zset (Env.plain 7).version with size := 2 }, by decide, rfl, rfl⟩
  have pairs : zsetPairs .plain (ascii "z") meta'.version store =
      [(F64.infinity, ascii "m"), (F64.infinity, ascii "n")] := by
    rw [version]
    decide
  have zset : RankedZset .plain (.plain 8) store (ascii "z") meta' :=
    { short := by decide
      loaded := loaded
      indexed := (Agreeing.run run).indexed (ascii "z") meta'.version (by decide)
      ordinary := by rw [pairs]; decide
      size := by rw [pairs, size]; rfl
      few := by rw [pairs]; decide }
  have members : zsetMembers .plain (ascii "z") meta' store = [ascii "m", ascii "n"] := by
    rw [zsetMembers, pairs]
    rfl
  obtain ⟨ranks, -, ranges⟩ := ranks_and_ranges_iff zset
  rw [members] at ranks ranges
  obtain ⟨up, down⟩ := ranks (ascii "n") (by decide)
  refine ⟨up, down, ?_⟩
  exact ((ranges (ascii "0") (ascii "-2") 0 (-2) (by decide) (by decide)).mpr (by decide)).2

/-- A range that ends before the first rank has no ranks, but the first member is
returned. -/
theorem zrange_returns_first_member :
    let added : Request := ⟨.zadd, ["z", "inf", "m"].map ascii, .plain 7⟩
    Request.reply .plain (added.after .plain .empty)
        ⟨.zrange, ["z", "0", "-2"].map ascii, .plain 8⟩ = .ok (ListSpec.bulks [ascii "m"]) ∧
      ListSpec.slice [ascii "m"] 0 (-2) = [] := by
  decide

end Commands

end Kvdb
