import Kvdb.SortedSet.Ranks

/-!
# Score ranges downward, and their limits

`ZREVRANGEBYSCORE` walks the score index downward, passes over the scores above its range
and stops at the first below it. A `LIMIT` shows a window of what a score range selects.
-/

namespace Kvdb

open Data Semantics Cmd

section Descent

variable {ctx : CommandContext} {key : Bytes} {v : UInt64} {store : Store} {env : Env}
  {opts : ScoreRangeOptions} {meta' : Metadata} {min max : F64} {minArg maxArg : Bytes}
  {options : List Bytes}

/-- What `ZREVRANGEBYSCORE` walks over: the pairs below the end of the index that are not
above the upper bound, up to the first score below the lower bound. -/
def scoreDescent (ctx : CommandContext) (key : Bytes) (v : UInt64) (store : Store) (min max : F64) :
    List (F64 × Bytes) :=
  (((store.below .zsetScore (ctx.subKey key v []) []).map (scoreEntry ctx key v)).filter
    fun p => !max.lt p.1).takeWhile fun p => !p.1.lt min

/-- A page of the score index, downward. -/
theorem WideIndex.exec_iterScorePageReverse (wide : WideIndex ctx key v store)
    (short : key.length < 2 ^ 32) {start : Bytes}
    (place : start = [] ∨ ctx.subKey key v [] <+: start) :
    exec env (iterScorePageReverse ctx key v start) store =
      (.ok ((pageOf zsetPageSize (store.below .zsetScore (ctx.subKey key v []) start)).1.map
          (scoreEntry ctx key v),
        (pageOf zsetPageSize (store.below .zsetScore (ctx.subKey key v []) start)).2), store) := by
  rw [iterScorePageReverse, exec_bind_ok (exec_prefixScanPageReverse (by decide) (by decide)
    (ctx.subKey_ne_nil _ _ _) place)]
  dsimp only
  rw [exec_bind_ok (exec_scorePairs fun e inside => wide.parse short ?_)]
  · rfl
  · exact (Store.mem_below.mp (List.mem_of_mem_take inside)).1

theorem exec_zrevrangebyscore (wide : WideIndex ctx key meta'.version store)
    (short : key.length < 2 ^ 32) (loaded : ctx.zsetMeta env store key = .ok (some meta'))
    (maximum : parseScore ctx maxArg = pure max) (minimum : parseScore ctx minArg = pure min)
    (parsed : parseScoreRangeOptions options ⟨false, 0, 0⟩ = pure opts) :
    exec env (zrevrangebyscore ctx (key :: maxArg :: minArg :: options)) store =
      (.ok (.array ((opts.window 0 (scoreDescent ctx key meta'.version store min max)).flatMap
        (pairReply ctx opts.withScores))), store) := by
  have scanned : ∃ seen count, exec env (forEachPage .zsetScore
      (iterScorePageReverse ctx key meta'.version) ⟨[], 0, 0⟩ fun scan pair =>
        if max.lt pair.1 then return .yield scan
        else if pair.1.lt min then return .done scan
        else return takeScored ctx opts scan pair) store =
      (.ok ⟨(opts.window 0 (scoreDescent ctx key meta'.version store min max)).flatMap
        (pairReply ctx opts.withScores), seen, count⟩, store) := by
    rw [exec_forEachPage_reverse (by decide) (Store.below_suffix (ctx.subKey_ne_nil _ _ _) _)
      (wide.exec_iterScorePageReverse short (.inl rfl))
      (fun start _ inside => wide.exec_iterScorePageReverse short (.inr inside))
      (fun scan pair => by split_ifs <;> rfl),
      forEach_skip (fun pair : F64 × Bytes => max.lt pair.1)]
    exact exec_forEach_scored (fun score => score.lt min) _ ⟨[], 0, 0⟩ (Nat.zero_sub _).symm
      (opts.count.eq_zero_or_pos.imp id id)
  obtain ⟨seen, count, scanned⟩ := scanned
  rw [zrevrangebyscore, exec_bind, exec_readZsetMeta, loaded]
  simp only [minimum, maximum, parsed, exec_pure_bind]
  rw [exec_bind_ok scanned]
  rfl

/-- The walk downward selects the scores between the bounds. -/
theorem scoreDescent_eq (indexed : Indexed ctx key v store)
    (ordinary : ∀ p ∈ zsetPairs ctx key v store, p.1.isNan = false) (lower : min.isNan = false)
    (upper : max.isNan = false) :
    scoreDescent ctx key v store min max =
      ((zsetPairs ctx key v store).filter fun p => min.le p.1 && p.1.le max).reverse := by
  have met : (store.below .zsetScore (ctx.subKey key v []) []).map (scoreEntry ctx key v) =
      (zsetPairs ctx key v store).reverse := by
    rw [indexed.below_start ordinary, List.map_reverse, map_scoreEntry_behind]
  have inside : ∀ {p}, p ∈ (zsetPairs ctx key v store).reverse.filter (fun p => !max.lt p.1) →
      p ∈ zsetPairs ctx key v store :=
    fun selected => List.mem_reverse.mp (List.mem_filter.mp selected).1
  have above : ∀ p ∈ zsetPairs ctx key v store, (!p.1.lt min) = true ↔
      F64.rank min ≤ F64.rank p.1 := by
    intro p member
    rw [Bool.not_eq_true', ← Bool.not_eq_true, lt_iff_rank (ordinary p member) lower, not_lt]
  rw [scoreDescent, met, takeWhile_eq_filter ((List.pairwise_reverse.mpr indexed.ordered).filter _),
    List.filter_filter, ← List.filter_reverse]
  · refine List.filter_congr fun p member => Bool.eq_iff_iff.mpr ?_
    have member := List.mem_reverse.mp member
    rw [Bool.and_eq_true, Bool.and_eq_true, above p member,
      le_iff_rank lower (ordinary p member), le_iff_rank (ordinary p member) upper,
        Bool.not_eq_true', ← Bool.not_eq_true,
      lt_iff_rank upper (ordinary p member), not_lt]
  · -- Whatever comes before a score that is large enough is not smaller.
    intro p first q second less large
    rw [above _ (inside ‹_›)] at large ⊢
    refine large.trans ?_
    rcases (append_lt_append_iff (by simp)).mp less with lt | ⟨same, -⟩
    · exact rank_le_of_encodeScore_lt lt
    · rw [encodeScore_injective same]

/-- `ZREVRANGEBYSCORE` without a limit replies the members whose score is between the
bounds, each once, in reverse index order. -/
theorem zrevrangebyscore_exact (indexed : Indexed ctx key meta'.version store)
    (short : key.length < 2 ^ 32) (loaded : ctx.zsetMeta env store key = .ok (some meta'))
    (ordinary : ∀ p ∈ zsetPairs ctx key meta'.version store, p.1.isNan = false)
    (maximum : parseScore ctx maxArg = pure max)
    (minimum : parseScore ctx minArg = pure min) (withScores : Bool) :
    ∃ pairs : List (F64 × Bytes),
      Request.reply ctx store ⟨.zrevrangebyscore,
          key :: maxArg :: minArg :: if withScores then [ascii "WITHSCORES"] else [], env⟩ =
        .ok (.array (pairs.flatMap (shownPair ctx.floats withScores))) ∧
      (∀ score m, (score, m) ∈ pairs ↔
        store.get .subkey (ctx.subKey key meta'.version m) = some (encodeScore score) ∧
          min.le score = true ∧ score.le max = true) ∧
      (pairs.map Prod.snd).Nodup ∧
      pairs.Pairwise fun a b => encodeScore b.1 ++ b.2 < encodeScore a.1 ++ a.2 := by
  have ran := exec_zrevrangebyscore indexed.width short loaded maximum minimum
    (parseScoreRangeOptions_withScores withScores)
  rw [pairReply_eq] at ran
  refine ⟨_, Request.reply_eq_ok ctx ran, ?_⟩
  have all : ∀ pairs, ScoreRangeOptions.window ⟨withScores, 0, 0⟩ 0 pairs = pairs := fun _ => rfl
  rw [all, scoreDescent_eq indexed ordinary (isNan_of_parseScore minimum)
    (isNan_of_parseScore maximum)]
  refine ⟨fun score m => ?_, ?_, ?_⟩
  · rw [List.mem_reverse, List.mem_filter, indexed.mem_zsetPairs, Bool.and_eq_true]
  · rw [List.map_reverse, List.nodup_reverse]
    exact indexed.nodup_members.sublist (List.filter_sublist.map _)
  · exact List.pairwise_reverse.mpr (indexed.ordered.filter _)

/-- A member at infinity, between the infinities. -/
theorem zrevrangebyscore_of_infinite :
    let added : Request := ⟨.zadd, [ascii "z", ascii "inf", ascii "m"], .plain 7⟩
    Request.reply .plain (added.after .plain .empty)
        ⟨.zrevrangebyscore, [ascii "z", ascii "inf", ascii "-inf"], .plain 8⟩ =
      .ok (.array [.bulkString (some (ascii "m"))]) := by
  intro added
  obtain ⟨meta', loaded, indexed, pairs⟩ := exists_infinite_zset
  obtain ⟨selected, replied, exact', once, -⟩ := zrevrangebyscore_exact indexed (by decide) loaded
    (by rw [pairs]; decide)
    (show parseScore .plain (ascii "inf") = pure F64.infinity from rfl)
    (show parseScore .plain (ascii "-inf") = pure F64.negInfinity from rfl) false
  have only : selected = [(F64.infinity, ascii "m")] := by
    refine List.perm_singleton.mp ((List.perm_ext_iff_of_nodup once.of_map
      (List.nodup_singleton _)).mpr fun p => ?_)
    rw [exact' p.1 p.2, ← indexed.mem_zsetPairs, pairs, and_iff_left_iff_imp]
    intro member
    have here : p = (F64.infinity, ascii "m") := List.mem_singleton.mp member
    rw [here]
    decide
  rw [only] at replied
  exact replied

end Descent

section Limits

variable {ctx : CommandContext} {key : Bytes} {store : Store} {env : Env} {meta' : Metadata}
  {min max : F64} {minArg maxArg offsetArg countArg : Bytes} {offset count : ℕ}

def scoreRange (reverse : Bool) : Command :=
  if reverse then .zrevrangebyscore else .zrangebyscore

/-- The bounds of a score range in the order that its direction takes them. -/
def scoreBounds (reverse : Bool) (minArg maxArg : Bytes) : List Bytes :=
  if reverse then [maxArg, minArg] else [minArg, maxArg]

/-- The pairs that a score range walks over. -/
def scoreSelection (ctx : CommandContext) (key : Bytes) (v : UInt64) (store : Store) (min max : F64)
    (reverse : Bool) : List (F64 × Bytes) :=
  if reverse then scoreDescent ctx key v store min max else scoreWalk ctx key v store min max

/-- How many items a reply has for each pair. -/
def replyWidth (withScores : Bool) : ℕ := if withScores then 2 else 1

theorem length_pairReply (withScores : Bool) (pair : F64 × Bytes) :
    (pairReply ctx withScores pair).length = replyWidth withScores := by
  cases withScores <;> rfl

theorem reply_scoreRange (wide : WideIndex ctx key meta'.version store)
    (short : key.length < 2 ^ 32) (loaded : ctx.zsetMeta env store key = .ok (some meta'))
    (minimum : parseScore ctx minArg = pure min)
    (maximum : parseScore ctx maxArg = pure max) {options : List Bytes}
    {opts : ScoreRangeOptions}
    (parsed : parseScoreRangeOptions options ⟨false, 0, 0⟩ = pure opts) (reverse : Bool) :
    Request.reply ctx store
      ⟨scoreRange reverse, key :: scoreBounds reverse minArg maxArg ++ options,
        env⟩ =
      .ok
        (.array
          ((opts.window 0 (scoreSelection ctx key meta'.version store min max reverse)).flatMap
        (pairReply ctx opts.withScores))) := by
  cases reverse with
  | false =>
    exact Request.reply_eq_ok ctx (exec_zrangebyscore wide short loaded minimum maximum parsed)
  | true =>
    exact Request.reply_eq_ok ctx (exec_zrevrangebyscore wide short loaded maximum minimum parsed)

def scoresOption (asked : Bool) : List Bytes := if asked then [ascii "WITHSCORES"] else []

theorem parseScoreRangeOptions_scores (asked : Bool) (opts : ScoreRangeOptions)
    (rest : List Bytes) :
    parseScoreRangeOptions (scoresOption asked ++ rest) opts =
      parseScoreRangeOptions rest { opts with withScores := opts.withScores || asked } := by
  cases asked with
  | false => simp [scoresOption]
  | true =>
    have keyword : isKeyword (ascii "WITHSCORES") "WITHSCORES" = true := by decide
    rw [scoresOption, if_pos rfl, List.singleton_append, parseScoreRangeOptions.eq_def]
    simp [keyword]

theorem parseScoreRangeOptions_limit (offsetRead : parseUsize offsetArg = pure offset)
    (countRead : parseUsize countArg = pure count) (opts : ScoreRangeOptions) (rest : List Bytes) :
    parseScoreRangeOptions (ascii "LIMIT" :: offsetArg :: countArg :: rest) opts =
      parseScoreRangeOptions rest { opts with offset, count } := by
  have other : isKeyword (ascii "LIMIT") "WITHSCORES" = false := by decide
  have keyword : isKeyword (ascii "LIMIT") "LIMIT" = true := by decide
  simp [parseScoreRangeOptions, other, keyword, offsetRead, countRead]

/-- Dropping and taking pairs of a reply. -/
theorem drop_flatMap_pairReply (withScores : Bool) (pairs : List (F64 × Bytes)) (n : ℕ) :
    (pairs.flatMap (pairReply ctx withScores)).drop (replyWidth withScores * n) =
      (pairs.drop n).flatMap (pairReply ctx withScores) := by
  induction pairs generalizing n with
  | nil => simp
  | cons pair pairs ih =>
    cases n with
    | zero => simp
    | succ n =>
      rw [List.flatMap_cons, Nat.mul_succ, Nat.add_comm, ← List.drop_drop,
        List.drop_left' (length_pairReply withScores pair), ih, List.drop_succ_cons]

theorem take_flatMap_pairReply (withScores : Bool) (pairs : List (F64 × Bytes)) (n : ℕ) :
    (pairs.flatMap (pairReply ctx withScores)).take (replyWidth withScores * n) =
      (pairs.take n).flatMap (pairReply ctx withScores) := by
  induction pairs generalizing n with
  | nil => simp
  | cons pair pairs ih =>
    cases n with
    | zero => simp
    | succ n =>
      have length : (pairReply ctx withScores pair).length = _ := length_pairReply withScores pair
      rw [List.flatMap_cons, Nat.mul_succ, Nat.add_comm, ← length,
        List.take_length_add_append, length, ih, List.take_succ_cons, List.flatMap_cons]

/-- A limit shows what is left of the reply without it after dropping the offset and
taking the count, if and only if the count is not zero or nothing is behind the offset. -/
theorem score_limit_iff (wide : WideIndex ctx key meta'.version store)
    (short : key.length < 2 ^ 32) (loaded : ctx.zsetMeta env store key = .ok (some meta'))
    (minimum : parseScore ctx minArg = pure min) (maximum : parseScore ctx maxArg = pure max)
    (offsetRead : parseUsize offsetArg = pure offset) (countRead : parseUsize countArg = pure count)
    (reverse before behind : Bool) :
    (∃ items,
      Request.reply ctx store ⟨scoreRange reverse, key :: scoreBounds reverse minArg maxArg ++
          scoresOption (before || behind), env⟩ = .ok (.array items) ∧
      Request.reply ctx store ⟨scoreRange reverse, key :: scoreBounds reverse minArg maxArg ++
          (scoresOption before ++ ascii "LIMIT" :: offsetArg :: countArg :: scoresOption behind),
            env⟩ =
        .ok (.array ((items.drop (replyWidth (before || behind) * offset)).take
          (replyWidth (before || behind) * count)))) ↔
      count ≠ 0 ∨ (scoreSelection ctx key meta'.version store min max reverse).length ≤ offset := by
  have limited : parseScoreRangeOptions
      (scoresOption before ++ ascii "LIMIT" :: offsetArg :: countArg :: scoresOption behind)
      ⟨false, 0, 0⟩ = pure ⟨before || behind, offset, count⟩ := by
    rw [parseScoreRangeOptions_scores, parseScoreRangeOptions_limit offsetRead countRead,
      ← List.append_nil (scoresOption behind), parseScoreRangeOptions_scores]
    rfl
  have asked : parseScoreRangeOptions (scoresOption (before || behind)) ⟨false, 0, 0⟩ =
      pure ⟨before || behind, 0, 0⟩ := parseScoreRangeOptions_withScores _
  rw [reply_scoreRange wide short loaded minimum maximum asked reverse,
    reply_scoreRange wide short loaded minimum maximum limited reverse]
  generalize scoreSelection ctx key meta'.version store min max reverse = selected
  have whole : ScoreRangeOptions.window ⟨before || behind, 0, 0⟩ 0 selected = selected := rfl
  rw [whole]
  by_cases unlimited : count = 0
  · -- A count of zero is the default, which stands for no limit.
    have shown : ScoreRangeOptions.window ⟨before || behind, offset, count⟩ 0 selected =
        selected.drop offset := by rw [ScoreRangeOptions.window, if_pos unlimited, Nat.sub_zero]
    rw [shown, unlimited, or_iff_right (not_not.mpr rfl)]
    constructor
    · rintro ⟨items, -, replied⟩
      rw [Nat.mul_zero, List.take_zero] at replied
      have none := @flatMap_pairReply_inj ctx (selected.drop offset) [] (before || behind)
        (RespValue.array.inj (Except.ok.inj replied))
      rwa [List.length_drop, List.length_nil, Nat.sub_eq_zero_iff_le] at none
    · intro few
      refine ⟨_, rfl, ?_⟩
      rw [List.drop_eq_nil_of_le few, Nat.mul_zero, List.take_zero]
      rfl
  · refine iff_of_true ⟨_, rfl, ?_⟩ (.inl unlimited)
    rw [drop_flatMap_pairReply, take_flatMap_pairReply, ScoreRangeOptions.window,
      if_neg unlimited, Nat.sub_zero, Nat.zero_sub, Nat.sub_zero]

/-- A limit of one member behind none. -/
theorem score_limit_of_one :
    let added : Request := ⟨.zadd, [ascii "z", ascii "inf", ascii "m"], .plain 7⟩
    Request.reply .plain (added.after .plain .empty)
        ⟨.zrangebyscore,
          [ascii "z", ascii "-inf", ascii "inf", ascii "LIMIT", ascii "0", ascii "1"],
          .plain 8⟩ = .ok (.array [.bulkString (some (ascii "m"))]) := by
  intro added
  obtain ⟨meta', loaded, indexed, -⟩ := exists_infinite_zset
  obtain ⟨items, replied, limited⟩ := (score_limit_iff indexed.width (by decide) loaded
    (show parseScore .plain (ascii "-inf") = pure F64.negInfinity from rfl)
    (show parseScore .plain (ascii "inf") = pure F64.infinity from rfl)
    (show parseUsize (ascii "0") = pure 0 from rfl)
    (show parseUsize (ascii "1") = pure 1 from rfl) false false false).mpr
      (.inl Nat.one_ne_zero)
  have all : Request.reply .plain (added.after .plain .empty)
      ⟨.zrangebyscore, [ascii "z", ascii "-inf", ascii "inf"], .plain 8⟩ =
        .ok (.array [.bulkString (some (ascii "m"))]) := by decide
  cases all.symm.trans replied
  exact limited

/-- A limit of zero members shows them all. -/
theorem zero_limit_shows_member :
    let added : Request := ⟨.zadd, [ascii "z", ascii "inf", ascii "m"], .plain 7⟩
    Request.reply .plain (added.after .plain .empty)
        ⟨.zrangebyscore,
          [ascii "z", ascii "-inf", ascii "inf", ascii "LIMIT", ascii "0", ascii "0"],
          .plain 8⟩ = .ok (.array [.bulkString (some (ascii "m"))]) ∧
      Request.reply .plain (added.after .plain .empty)
        ⟨.zrevrangebyscore,
          [ascii "z", ascii "inf", ascii "-inf", ascii "LIMIT", ascii "0", ascii "0"],
          .plain 8⟩ = .ok (.array [.bulkString (some (ascii "m"))]) := by
  decide

end Limits

end Kvdb
