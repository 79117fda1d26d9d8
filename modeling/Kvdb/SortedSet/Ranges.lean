import Kvdb.Lists.Spec
import Kvdb.SortedSet.Agreement

/-!
# Ranges of a sorted set

A range command walks the score index page by page, upward or downward. The pairs it
meets are those of the members in index order: by the bytes of the score, and members
of one score by their own bytes.
-/

namespace Kvdb

open Data Semantics Cmd

section Index

variable {ctx : CommandContext} {key : Bytes} {v : UInt64} {store : Store} {sub : Bytes}

/-- The score and the member in an element of the score index. -/
def pairOf (sub : Bytes) : F64 × Bytes := (decodeScore (sub.take 8), sub.drop 8)

/-- The members of a sorted set with their scores, in index order. -/
def zsetPairs (ctx : CommandContext) (key : Bytes) (v : UInt64) (store : Store) :
    List (F64 × Bytes) :=
  (elements ctx .zsetScore key v store).map fun e => pairOf e.1

/-- A pair as an element of the score index. -/
theorem encode_pairOf (width : 8 ≤ sub.length) :
    encodeScore (pairOf sub).1 ++ (pairOf sub).2 = sub := by
  rw [pairOf, encodeScore_decodeScore (by rw [List.length_take]; omega), List.take_append_drop]

theorem pairOf_encode (score : F64) (m : Bytes) : pairOf (encodeScore score ++ m) = (score, m) := by
  rw [pairOf, List.take_left' (length_encodeScore score),
    List.drop_left' (length_encodeScore score), decodeScore_encodeScore]

theorem parseScoreSubkey_subKey (short : key.length < 2 ^ 32) (width : 8 ≤ sub.length) :
    parseScoreSubkey ctx (ctx.subKey key v sub) = some (pairOf sub) := by
  rw [parseScoreSubkey, ctx.parseSubkey_subKey _ _ short]
  exact if_neg (by omega)

/-- Every element of the score index begins with a score. -/
def WideIndex (ctx : CommandContext) (key : Bytes) (v : UInt64) (store : Store) : Prop :=
  ∀ ⦃e : Entry⦄, e ∈ elements ctx .zsetScore key v store → 8 ≤ e.1.length

theorem Indexed.width (indexed : Indexed ctx key v store) : WideIndex ctx key v store := by
  intro e inside
  obtain ⟨s, m, eight, same, -⟩ := indexed.backed e.1 e.2 (mem_elements.mp inside)
  rw [same, List.length_append]
  omega

/-- The pairs are those of the members. -/
theorem Indexed.mem_zsetPairs (indexed : Indexed ctx key v store) {score : F64} {m : Bytes} :
    (score, m) ∈ zsetPairs ctx key v store ↔
      store.get .subkey (ctx.subKey key v m) = some (encodeScore score) := by
  rw [indexed.pair_iff (length_encodeScore score), ← mem_elements, zsetPairs, List.mem_map]
  constructor
  · rintro ⟨⟨sub, value⟩, inside, pair⟩
    have encoded := encode_pairOf (indexed.width inside)
    rw [pair] at encoded
    have stored := mem_elements.mp inside
    obtain ⟨s, m', width, same, member⟩ := indexed.backed sub value stored
    rw [encoded]
    rw [same] at inside ⊢
    rw [mem_elements, (indexed.scored m' s member).2]
  · intro inside
    exact ⟨_, inside, pairOf_encode score m⟩

theorem Indexed.ordered (indexed : Indexed ctx key v store) :
    (zsetPairs ctx key v store).Pairwise fun a b =>
      encodeScore a.1 ++ a.2 < encodeScore b.1 ++ b.2 := by
  refine List.pairwise_map.mpr ((elements_ordered ..).imp_of_mem fun first second less => ?_)
  rwa [encode_pairOf (indexed.width first), encode_pairOf (indexed.width second)]

/-- Every member has one pair. -/
theorem Indexed.nodup_members (indexed : Indexed ctx key v store) :
    ((zsetPairs ctx key v store).map Prod.snd).Nodup := by
  refine List.Nodup.map_on ?_ (indexed.ordered.imp fun less same => ?_)
  · rintro ⟨score, m⟩ inside ⟨score', m'⟩ inside' (rfl : m = m')
    rw [indexed.mem_zsetPairs] at inside inside'
    rw [encodeScore_injective (Option.some.inj (inside.symm.trans inside'))]
  · rw [same] at less
    exact lt_irrefl _ less

end Index

section Scans

variable {ctx : CommandContext} {key : Bytes} {v : UInt64} {store : Store} {env : Env}

def scoreEntry (ctx : CommandContext) (key : Bytes) (v : UInt64) (e : Entry) : F64 × Bytes :=
  pairOf (e.1.drop (ctx.subKey key v []).length)

theorem WideIndex.parse (wide : WideIndex ctx key v store) (short : key.length < 2 ^ 32) {e : Entry}
    (inside : e ∈ store.behind .zsetScore (ctx.subKey key v [])) :
    parseScoreSubkey ctx e.1 = some (scoreEntry ctx key v e) := by
  rw [behind_eq_elements] at inside
  obtain ⟨element, member, rfl⟩ := List.mem_map.mp inside
  rw [parseScoreSubkey_subKey short (wide member), scoreEntry, drop_subKey]

theorem map_scoreEntry_behind :
    (store.behind .zsetScore (ctx.subKey key v [])).map (scoreEntry ctx key v) =
      zsetPairs ctx key v store := by
  rw [behind_eq_elements, List.map_map, zsetPairs]
  refine List.map_congr_left fun e _ => ?_
  simp [scoreEntry]

theorem exec_scorePairs {items : List Entry}
    (parsed : ∀ e ∈ items, parseScoreSubkey ctx e.1 = some (scoreEntry ctx key v e)) :
    exec env (scorePairs ctx items) store = (.ok (items.map (scoreEntry ctx key v)), store) := by
  induction items with
  | nil => rfl
  | cons e items ih =>
    rw [scorePairs, parsed e List.mem_cons_self]
    dsimp only
    rw [exec_bind_ok (ih fun e inside => parsed e (List.mem_cons_of_mem _ inside))]
    rfl

/-- A page of the score index. -/
theorem WideIndex.exec_iterScorePage (wide : WideIndex ctx key v store)
    (short : key.length < 2 ^ 32) {start : Bytes} {rest : List Entry}
    (position : Position store .zsetScore (ctx.subKey key v []) start rest) :
    exec env (iterScorePage ctx key v start) store =
      (.ok ((pageOf zsetPageSize rest).1.map (scoreEntry ctx key v),
        (pageOf zsetPageSize rest).2), store) := by
  rw [iterScorePage, exec_bind_ok (exec_prefixScanPage position (by decide) (by decide))]
  dsimp only
  rw [exec_bind_ok (exec_scorePairs fun e inside => wide.parse short ?_)]
  · rfl
  · have ahead := List.mem_of_mem_take inside
    exact Store.mem_behind.mpr ⟨position.stored ahead, position.startsWith ahead⟩

/-- What is ahead of the least key of a score. -/
theorem WideIndex.pairs_after (wide : WideIndex ctx key v store) (score : F64) :
    (entriesAfter (scoreSeekKey ctx key v score)
        (store.behind .zsetScore (ctx.subKey key v []))).map (scoreEntry ctx key v) =
      (zsetPairs ctx key v store).filter fun p =>
        encodeScore score < encodeScore p.1 ++ p.2 := by
  rw [entriesAfter, ← map_scoreEntry_behind, List.filter_map]
  congr 1
  refine List.filter_congr fun e inside => ?_
  rw [behind_eq_elements] at inside
  obtain ⟨element, member, rfl⟩ := List.mem_map.mp inside
  simp [scoreSeekKey, scoreSubkey, scoreEntry, encode_pairOf (wide member)]

end Scans

section ByScore

variable {ctx : CommandContext} {key : Bytes} {v : UInt64} {store : Store} {env : Env}
  {opts : ScoreRangeOptions}

/-- What a score range returns of the pairs in it, once it has met some. -/
def Cmd.ScoreRangeOptions.window (opts : ScoreRangeOptions) (seen : ℕ)
    (pairs : List (F64 × Bytes)) :
    List (F64 × Bytes) :=
  if opts.count = 0 then pairs.drop (opts.offset - seen)
  else (pairs.drop (opts.offset - seen)).take (opts.count - (seen - opts.offset))

theorem window_of_lt {seen : ℕ} (early : seen < opts.offset) (pair : F64 × Bytes)
    (pairs : List (F64 × Bytes)) :
    opts.window seen (pair :: pairs) = opts.window (seen + 1) pairs := by
  obtain ⟨skip, left⟩ : ∃ skip, opts.offset - seen = skip + 1 := ⟨opts.offset - seen - 1, by omega⟩
  have next : opts.offset - (seen + 1) = skip := by omega
  have none : seen + 1 - opts.offset = seen - opts.offset := by omega
  simp only [ScoreRangeOptions.window, left, next, none, List.drop_succ_cons]

theorem window_of_le {seen : ℕ} (late : opts.offset ≤ seen)
    (going : opts.count = 0 ∨ seen - opts.offset < opts.count) (pair : F64 × Bytes)
    (pairs : List (F64 × Bytes)) :
    opts.window seen (pair :: pairs) = pair :: opts.window (seen + 1) pairs := by
  have skip : opts.offset - seen = 0 := by omega
  have next : opts.offset - (seen + 1) = 0 := by omega
  by_cases unlimited : opts.count = 0
  · simp only [ScoreRangeOptions.window, unlimited, skip, next, if_true, List.drop_zero]
  · have left : opts.count - (seen - opts.offset) = opts.count - (seen + 1 - opts.offset) + 1 := by
      omega
    simp only [ScoreRangeOptions.window, unlimited, skip, next, left, if_false, List.drop_zero,
      List.take_succ_cons]

theorem window_of_full {seen : ℕ} (limited : opts.count ≠ 0)
    (full : opts.count ≤ seen - opts.offset) (pairs : List (F64 × Bytes)) :
    opts.window seen pairs = [] := by
  have left : opts.count - (seen - opts.offset) = 0 := by omega
  rw [ScoreRangeOptions.window, if_neg limited, left, List.take_zero]

/-- A scan that stops at the first pair beyond its range. -/
theorem exec_forEach_scored (stop : F64 → Bool) (pairs : List (F64 × Bytes)) (scan : ScoreScan)
    (matched : scan.matched = scan.seen - opts.offset)
    (going : opts.count = 0 ∨ scan.matched < opts.count) :
    ∃ seen count, exec env (forEach (fun scan pair =>
        if stop pair.1 then return .done scan else return takeScored ctx opts scan pair) pairs scan
          >>= ForInStep.settle) store =
      (.ok ⟨scan.result ++ (opts.window scan.seen (pairs.takeWhile fun p => !stop p.1)).flatMap
        (pairReply ctx opts.withScores), seen, count⟩, store) := by
  induction pairs generalizing scan with
  | nil =>
    exact ⟨scan.seen,
      scan.matched, by simp [forEach, ScoreRangeOptions.window, ForInStep.settle]⟩
  | cons pair pairs ih =>
    rw [forEach, bind_assoc]
    by_cases beyond : stop pair.1
    · rw [if_pos beyond, List.takeWhile_cons_of_neg (by simpa using beyond)]
      exact ⟨scan.seen, scan.matched, by simp [ScoreRangeOptions.window, ForInStep.settle]⟩
    rw [if_neg beyond, List.takeWhile_cons_of_pos (by simpa using beyond), exec_pure_bind,
      takeScored]
    by_cases early : scan.seen < opts.offset
    · have skipped : scan.seen + 1 ≤ opts.offset := early
      simp only [if_pos skipped]
      rw [window_of_lt early]
      exact ih ⟨scan.result, scan.seen + 1, scan.matched⟩ (by simp only; omega) going
    · have taken : ¬ scan.seen + 1 ≤ opts.offset := early
      rw [matched] at going
      simp only [if_neg taken]
      rw [window_of_le (not_lt.mp early) going, List.flatMap_cons, ← List.append_assoc]
      by_cases full : 0 < opts.count ∧ opts.count ≤ scan.matched + 1
      · rw [if_pos full, window_of_full (by omega) (by omega)]
        exact ⟨scan.seen + 1, scan.matched + 1, by simp [ForInStep.settle]⟩
      · rw [if_neg full]
        exact ih ⟨_, scan.seen + 1, scan.matched + 1⟩ (by simp only; omega) (by simp only; omega)

variable {meta' : Metadata} {min max : F64} {minArg maxArg : Bytes} {options : List Bytes}

/-- What `ZRANGEBYSCORE` walks over: the pairs ahead of the least key of the lower bound,
up to the first score above the upper bound. -/
def scoreWalk (ctx : CommandContext) (key : Bytes) (v : UInt64) (store : Store) (min max : F64) :
    List (F64 × Bytes) :=
  ((zsetPairs ctx key v store).filter fun p =>
    encodeScore min < encodeScore p.1 ++ p.2).takeWhile fun p => !max.lt p.1

theorem exec_zrangebyscore (wide : WideIndex ctx key meta'.version store)
    (short : key.length < 2 ^ 32) (loaded : ctx.zsetMeta env store key = .ok (some meta'))
    (minimum : parseScore ctx minArg = pure min) (maximum : parseScore ctx maxArg = pure max)
    (parsed : parseScoreRangeOptions options ⟨false, 0, 0⟩ = pure opts) :
    exec env (zrangebyscore ctx (key :: minArg :: maxArg :: options)) store =
      (.ok (.array ((opts.window 0 (scoreWalk ctx key meta'.version store min max)).flatMap
        (pairReply ctx opts.withScores))), store) := by
  have position : Position store .zsetScore (ctx.subKey key meta'.version [])
      (scoreSeekKey ctx key meta'.version min)
      (entriesAfter (scoreSeekKey ctx key meta'.version min)
        (store.behind .zsetScore (ctx.subKey key meta'.version []))) :=
    .resume (ctx.subKey_ne_nil _ _ _) (ctx.subKey_prefix_iff.mpr ⟨_, rfl⟩)
  have scanned : ∃ seen count, exec env (forEachPageFrom .zsetScore
      (scoreSeekKey ctx key meta'.version min) (iterScorePage ctx key meta'.version) ⟨[], 0, 0⟩
      fun scan pair =>
        if max.lt pair.1 then return .done scan else return takeScored ctx opts scan pair) store =
      (.ok ⟨(opts.window 0 (scoreWalk ctx key meta'.version store min max)).flatMap
        (pairReply ctx opts.withScores), seen, count⟩, store) := by
    rw [exec_forEachPageFrom (fun _ _ position => wide.exec_iterScorePage short position)
      (fun scan pair => by split_ifs <;> rfl) (by decide) (.inl (ctx.subKey_ne_nil _ _ _)) position,
      wide.pairs_after]
    exact exec_forEach_scored max.lt _ ⟨[], 0, 0⟩ (Nat.zero_sub _).symm
      (opts.count.eq_zero_or_pos.imp id id)
  obtain ⟨seen, count, scanned⟩ := scanned
  rw [zrangebyscore, exec_bind, exec_readZsetMeta, loaded]
  simp only [minimum, maximum, parsed, exec_pure_bind]
  rw [exec_bind_ok scanned]
  rfl

/-- A member that `ZRANGEBYSCORE` misses: the empty member at the lower bound, whose key
is the one that the scan starts after, and members at the negative zero, which are
stored below the positive one. -/
def Missed (min : F64) (p : F64 × Bytes) : Prop :=
  p = (min, []) ∨ p.1 = ⟨signBit⟩ ∧ min = ⟨0⟩

instance decidableMissed (min : F64) (p : F64 × Bytes) : Decidable (Missed min p) :=
  inferInstanceAs (Decidable (_ ∨ _))

/-- The pairs ahead of the lower bound are those at or above it that are not missed. -/
theorem seek_lt_iff {p : F64 × Bytes} (ordinary : p.1.isNan = false)
    (ordinary' : min.isNan = false) :
    encodeScore min < encodeScore p.1 ++ p.2 ↔ min.le p.1 = true ∧ ¬ Missed min p := by
  obtain ⟨score, m⟩ := p
  have split := append_lt_append_iff (x := []) (y := m)
    ((length_encodeScore min).trans (length_encodeScore score).symm)
  rw [List.append_nil] at split
  rw [split, le_iff_rank ordinary' ordinary]
  dsimp only
  constructor
  · rintro (less | ⟨same, nonempty⟩)
    · refine ⟨rank_le_of_encodeScore_lt less, ?_⟩
      rintro (same | ⟨rfl, rfl⟩)
      · rw [(Prod.mk.inj same).1] at less
        exact lt_irrefl _ less
      · exact absurd less (by decide)
    · obtain rfl := encodeScore_injective same
      refine ⟨le_rfl, ?_⟩
      rintro (empty | ⟨rfl, zero⟩)
      · rw [(Prod.mk.inj empty).2] at nonempty
        exact lt_irrefl _ nonempty
      · exact absurd zero (by decide)
  · rintro ⟨lower, kept⟩
    rcases lt_trichotomy (encodeScore min) (encodeScore score) with less | same | greater
    · exact .inl less
    · obtain rfl := encodeScore_injective same
      cases m with
      | nil => exact absurd (.inl rfl) kept
      | cons byte m => exact .inr ⟨rfl, List.nil_lt_cons byte m⟩
    · -- Two scores of one rank: the bound is the positive zero and the score the negative one.
      have upper := rank_le_of_encodeScore_lt greater
      exact absurd (.inr (zeros_of_encodeScore_lt greater (le_antisymm upper lower))) kept

/-- The scan selects the scores between the bounds, but for what it misses. -/
theorem scoreWalk_eq (indexed : Indexed ctx key v store)
    (ordinary : ∀ p ∈ zsetPairs ctx key v store, p.1.isNan = false) (lower : min.isNan = false)
    (upper : max.isNan = false) :
    scoreWalk ctx key v store min max =
      ((zsetPairs ctx key v store).filter fun p => min.le p.1 && p.1.le max).filter
        fun p => ¬ Missed min p := by
  rw [scoreWalk, takeWhile_eq_filter (indexed.ordered.filter _), List.filter_filter,
    List.filter_filter]
  · refine List.filter_congr fun p inside => Bool.eq_iff_iff.mpr ?_
    have within : (!max.lt p.1) = true ↔ p.1.le max = true := by
      rw [Bool.not_eq_true', ← Bool.not_eq_true, lt_iff_rank upper (ordinary p inside),
        le_iff_rank (ordinary p inside) upper, not_lt]
    simp only [Bool.and_eq_true, within, decide_eq_true_eq, seek_lt_iff (ordinary p inside) lower]
    tauto
  · -- Whatever comes before a score that is not too large is not larger.
    intro p first q second less small
    have inside := (List.mem_filter.mp first).1
    have inside' := (List.mem_filter.mp second).1
    rw [Bool.not_eq_true', ← Bool.not_eq_true, lt_iff_rank upper (ordinary _ ‹_›), not_lt]
      at small ⊢
    refine le_trans ?_ small
    rcases (append_lt_append_iff (by simp)).mp less with lt | ⟨same, -⟩
    · exact rank_le_of_encodeScore_lt lt
    · rw [encodeScore_injective same]

/-- What a reply says of a member: itself and, if scores are asked for, the text of its
score, without a point for a whole number. -/
def shownPair (floats : F64Ops) (withScores : Bool) (pair : F64 × Bytes) : List RespValue :=
  let text :=
    if (floats.fract pair.1).eq ⟨0⟩ ∧ pair.1.isFinite then floats.formatWhole pair.1
    else floats.format pair.1
  .bulkString (some pair.2) :: if withScores then [.bulkString (some text)] else []

theorem pairReply_eq (withScores : Bool) :
    pairReply ctx withScores = shownPair ctx.floats withScores := by
  cases withScores <;> rfl

/-- A reply says how many pairs it has. -/
theorem flatMap_pairReply_inj {pairs rest : List (F64 × Bytes)} (withScores : Bool)
    (same : pairs.flatMap (pairReply ctx withScores) = rest.flatMap (pairReply ctx withScores)) :
    pairs.length = rest.length := by
  have length : ∀ pairs : List (F64 × Bytes), (pairs.flatMap (pairReply ctx withScores)).length =
      pairs.length * if withScores then 2 else 1 := by
    intro pairs
    induction pairs with
    | nil => simp
    | cons pair pairs ih =>
      rw [List.flatMap_cons, List.length_append, ih, List.length_cons, Nat.succ_mul, pairReply]
      cases withScores <;> simp [Nat.add_comm]
  have equal := congrArg List.length same
  rw [length, length] at equal
  exact Nat.eq_of_mul_eq_mul_right (by split_ifs <;> omega) equal

theorem parseScoreRangeOptions_withScores (withScores : Bool) :
    parseScoreRangeOptions (if withScores then [ascii "WITHSCORES"] else []) ⟨false, 0, 0⟩ =
      pure ⟨withScores, 0, 0⟩ := by
  cases withScores with
  | false => rfl
  | true =>
    have keyword : isKeyword (ascii "WITHSCORES") "WITHSCORES" = true := by decide
    simp [parseScoreRangeOptions, keyword]

/-- `ZRANGEBYSCORE` without a limit replies the members whose score is between the bounds,
in index order, if and only if the empty member is not at the lower bound and no member
is at the negative zero while the lower bound is the positive one, or the bounds are the
wrong way around. -/
theorem zrangebyscore_exact_iff (indexed : Indexed ctx key meta'.version store)
    (short : key.length < 2 ^ 32) (loaded : ctx.zsetMeta env store key = .ok (some meta'))
    (ordinary : ∀ p ∈ zsetPairs ctx key meta'.version store, p.1.isNan = false)
    (minimum : parseScore ctx minArg = pure min)
    (maximum : parseScore ctx maxArg = pure max) (withScores : Bool) :
    Request.reply ctx store ⟨.zrangebyscore,
        key :: minArg :: maxArg :: if withScores then [ascii "WITHSCORES"] else [], env⟩ =
      .ok (.array (((zsetPairs ctx key meta'.version store).filter fun p =>
        min.le p.1 && p.1.le max).flatMap (shownPair ctx.floats withScores))) ↔
      (min.le max = true → ∀ p ∈ zsetPairs ctx key meta'.version store,
        p ≠ (min, []) ∧ (min = ⟨0⟩ → p.1 ≠ ⟨signBit⟩)) := by
  have lower := isNan_of_parseScore minimum
  have upper := isNan_of_parseScore maximum
  have ran := exec_zrangebyscore indexed.width short loaded minimum maximum
    (parseScoreRangeOptions_withScores withScores)
  rw [scoreWalk_eq indexed ordinary lower upper] at ran
  rw [Request.reply_eq_ok ctx ran, ← pairReply_eq]
  -- The two replies are equal exactly if nothing between the bounds is missed.
  trans ∀ p ∈ zsetPairs ctx key meta'.version store,
    min.le p.1 = true ∧ p.1.le max = true → ¬ Missed min p
  · constructor
    · intro same p inside between
      have lengths := flatMap_pairReply_inj withScores (RespValue.array.inj (Except.ok.inj same))
      have all := List.length_filter_eq_length_iff.mp lengths
      simpa using all p (List.mem_filter.mpr ⟨inside, by simpa using between⟩)
    · intro kept
      rw [List.filter_eq_self.mpr fun p inside => ?_]
      · rfl
      · obtain ⟨inside, between⟩ := List.mem_filter.mp inside
        exact decide_eq_true (kept p inside (by simpa using between))
  have zeros : F64.rank ⟨signBit⟩ = F64.rank ⟨0⟩ := by decide
  constructor
  · intro kept wide p inside
    refine ⟨fun same => ?_, fun zero negative => ?_⟩
    · refine kept p inside ?_ (.inl same)
      rw [same]
      exact ⟨(le_iff_rank lower lower).mpr le_rfl, wide⟩
    · refine kept p inside ?_ (.inr ⟨negative, zero⟩)
      rw [le_iff_rank lower (ordinary p inside), le_iff_rank (ordinary p inside) upper,
        negative, zeros, ← zero]
      exact ⟨le_rfl, (le_iff_rank lower upper).mp wide⟩
  · intro apart p inside between missed
    rw [le_iff_rank lower (ordinary p inside), le_iff_rank (ordinary p inside) upper] at between
    obtain ⟨other, signs⟩ :=
      apart ((le_iff_rank lower upper).mpr (between.1.trans between.2)) p inside
    rcases missed with same | ⟨negative, zero⟩
    · exact other same
    · exact signs zero negative

/-- A sorted set with one member, at infinity. -/
theorem exists_infinite_zset :
    let added : Request := ⟨.zadd, [ascii "z", ascii "inf", ascii "m"], .plain 7⟩
    ∃ meta', CommandContext.zsetMeta .plain (.plain 8) (added.after .plain .empty) (ascii "z") =
        .ok (some meta') ∧
      Indexed .plain (ascii "z") meta'.version (added.after .plain .empty) ∧
      zsetPairs .plain (ascii "z") meta'.version (added.after .plain .empty) =
        [(F64.infinity, ascii "m")] := by
  intro added
  have run : Runs .plain SortedSetRequest .empty [added] (added.after .plain .empty) :=
    .next .refl ⟨by decide, by decide⟩
  exact ⟨{ Metadata.new .zset (Env.plain 7).version with size := 1 }, by decide,
    (Agreeing.run run).indexed (ascii "z") _ (by decide), by decide⟩

/-- A member at infinity, with both bounds there. -/
theorem zrangebyscore_of_infinite :
    let added : Request := ⟨.zadd, [ascii "z", ascii "inf", ascii "m"], .plain 7⟩
    Request.reply .plain (added.after .plain .empty)
        ⟨.zrangebyscore, [ascii "z", ascii "inf", ascii "+inf"], .plain 8⟩ =
      .ok (.array [.bulkString (some (ascii "m"))]) := by
  intro added
  obtain ⟨meta', loaded, indexed, pairs⟩ := exists_infinite_zset
  have selected := zrangebyscore_exact_iff indexed (by decide) loaded (by rw [pairs]; decide)
    (show parseScore .plain (ascii "inf") = pure F64.infinity from rfl)
    (show parseScore .plain (ascii "+inf") = pure F64.infinity from rfl) false
  rw [pairs] at selected
  exact selected.mpr (by decide)

/-- The empty member at the lower bound is missed. -/
theorem zrangebyscore_misses_empty_member :
    let added : Request := ⟨.zadd, [ascii "z", ascii "inf", []], .plain 7⟩
    Request.reply .plain (added.after .plain .empty)
        ⟨.zrangebyscore, [ascii "z", ascii "inf", ascii "inf"], .plain 8⟩ = .ok (.array []) ∧
      Request.reply .plain (added.after .plain .empty) ⟨.zscore, [ascii "z", []], .plain 8⟩ =
        .ok (.bulkString (some (formatScore .plain F64.infinity))) := by
  decide

end ByScore

end Kvdb
