import Kvdb.SortedSet.Cardinality

/-!
# Additions to a sorted set

`ZADD` reads option words up to its first score. In the `INCR` mode it is `ZINCRBY` under
another name. Without it, a command with several pairs gives each member the last of its
scores, under the same conditions as a command for that pair alone.
-/

namespace Kvdb

open Data Semantics Cmd

section Words

variable {ctx : CommandContext}

def isZaddOption (text : Bytes) : Bool :=
  ["NX", "XX", "GT", "LT", "CH", "INCR"].any fun word => isKeyword text word

/-- The decimal parser takes no option of `ZADD` for a number. -/
def F64Ops.RefusesOptions (floats : F64Ops) : Prop :=
  ∀ text, isZaddOption text = true → floats.parse text = none

theorem toAsciiLowercase_toAsciiUppercase (text : Bytes) :
    toAsciiLowercase (toAsciiUppercase text) = toAsciiLowercase text := by
  have byte : ∀ n : Fin 256, (if 0x41 ≤ upperByte (UInt8.ofFin n) ∧ upperByte (UInt8.ofFin n) ≤ 0x5A
      then upperByte (UInt8.ofFin n) + 0x20 else upperByte (UInt8.ofFin n)) =
      if 0x41 ≤ UInt8.ofFin n ∧
        UInt8.ofFin n ≤ 0x5A then UInt8.ofFin n + 0x20 else UInt8.ofFin n := by
    decide +kernel
  rw [toAsciiLowercase, toAsciiLowercase, toAsciiUppercase, List.map_map]
  refine List.map_congr_left fun b _ => ?_
  exact byte b.toFin

/-- A score is no option. -/
theorem isZaddOption_of_parseScore (words : ctx.floats.RefusesOptions) {text : Bytes} {score : F64}
    (parsed : parseScore ctx text = pure score) : isZaddOption text = false := by
  refine Bool.eq_false_iff.mpr fun option => ?_
  have refused := words text option
  obtain ⟨word, listed, same⟩ := List.any_eq_true.mp option
  have lower : toAsciiLowercase text = toAsciiLowercase (ascii word) := by
    rw [← toAsciiLowercase_toAsciiUppercase, of_decide_eq_true same]
  -- No option is a name of an infinity either.
  have finite : ∀ word ∈ ["NX", "XX", "GT", "LT", "CH", "INCR"],
      ¬ (toAsciiLowercase (ascii word) = ascii "inf" ∨
        toAsciiLowercase (ascii word) = ascii "+inf") ∧
      toAsciiLowercase (ascii word) ≠ ascii "-inf" := by
    decide
  obtain ⟨positive, negative⟩ := finite word listed
  rw [parseScore] at parsed
  simp only [lower, if_neg positive, if_neg negative, refused] at parsed
  cases parsed

theorem zaddOptions_of_not_option {arg : Bytes} (plain : isZaddOption arg = false)
    (rest : List Bytes) (flags : ZaddFlags) :
    zaddOptions (arg :: rest) flags = (flags, arg :: rest) := by
  simp only [isZaddOption, List.any_cons, List.any_nil, Bool.or_false, Bool.or_eq_false_iff]
    at plain
  obtain ⟨nx, xx, gt, lt, ch, incr⟩ := plain
  simp [zaddOptions, nx, xx, gt, lt, ch, incr]

/-- Options are read one after the other. -/
theorem zaddOptions_append {options : List Bytes} {flags flags' : ZaddFlags}
    (all : zaddOptions options flags = (flags', [])) (rest : List Bytes) :
    zaddOptions (options ++ rest) flags = zaddOptions rest flags' := by
  fun_induction zaddOptions options flags with
  | case1 flags =>
    cases all
    rfl
  | case8 => cases all
  | case2 _ _ _ nx ih =>
    rw [List.cons_append, zaddOptions, if_pos nx]
    exact ih all
  | case3 _ _ _ nx xx ih =>
    rw [List.cons_append, zaddOptions, if_neg nx, if_pos xx]
    exact ih all
  | case4 _ _ _ nx xx gt ih =>
    rw [List.cons_append, zaddOptions, if_neg nx, if_neg xx, if_pos gt]
    exact ih all
  | case5 _ _ _ nx xx gt lt ih =>
    rw [List.cons_append, zaddOptions, if_neg nx, if_neg xx, if_neg gt, if_pos lt]
    exact ih all
  | case6 _ _ _ nx xx gt lt ch ih =>
    rw [List.cons_append, zaddOptions, if_neg nx, if_neg xx, if_neg gt, if_neg lt, if_pos ch]
    exact ih all
  | case7 _ _ _ nx xx gt lt ch incr ih =>
    rw [List.cons_append, zaddOptions, if_neg nx, if_neg xx, if_neg gt, if_neg lt, if_neg ch,
      if_pos incr]
    exact ih all

/-- A legal combination of options in front of a score is read as such. -/
theorem parseZaddFlags_append {options : List Bytes} {flags : ZaddFlags}
    (legal : parseZaddFlags options = pure (flags, [])) {arg : Bytes}
    (plain : isZaddOption arg = false) (rest : List Bytes) :
    parseZaddFlags (options ++ arg :: rest) = pure (flags, arg :: rest) := by
  rcases read : zaddOptions options ⟨false, false, false, false, false, false⟩ with ⟨flags', left⟩
  rw [parseZaddFlags, read] at legal
  dsimp only at legal
  split_ifs at legal with both between opposed
  · cases legal
  · cases legal
  · cases legal
  · cases legal
    rw [parseZaddFlags, zaddOptions_append read, zaddOptions_of_not_option plain]
    dsimp only
    rw [if_neg both, if_neg between, if_neg opposed]

end Words

section Increments

variable {ctx : CommandContext} {key incArg member : Bytes} {increment : F64}

theorem parseZaddFlags_incr (plain : isZaddOption incArg = false) :
    parseZaddFlags [ascii "INCR", incArg, member] =
      pure (⟨false, false, false, false, false, true⟩, [incArg, member]) := by
  have options : zaddOptions [ascii "INCR", incArg, member]
      ⟨false, false, false, false, false, false⟩ =
      (⟨false, false, false, false, false, true⟩, [incArg, member]) := by
    rw [zaddOptions]
    exact zaddOptions_of_not_option plain [member] _
  rw [parseZaddFlags, options]
  rfl

/-- The `INCR` mode of `ZADD` is `ZINCRBY`, program for program. -/
theorem zadd_incr_eq (words : ctx.floats.RefusesOptions)
    (valid : parseScore ctx incArg = pure increment) :
    Cmd.zadd ctx [key, ascii "INCR", incArg, member] = zincrby ctx [key, incArg, member] := by
  rw [Cmd.zadd, parseZaddFlags_incr (isZaddOption_of_parseScore words valid), pure_bind,
    zincrby, valid, pure_bind]
  dsimp only
  rw [if_neg (by simp), if_neg (by simp)]
  refine bind_congr fun meta' => ?_
  rw [if_pos rfl, zaddIncr, valid, pure_bind]
  refine bind_congr fun existing => ?_
  cases existing <;> simp

/-- `ZADD key INCR increment member` and `ZINCRBY key increment member` give the same reply
and leave the same store. -/
theorem zadd_incr_is_zincrby (words : ctx.floats.RefusesOptions)
    (valid : parseScore ctx incArg = pure increment) (key member : Bytes) (store : Store)
    (env : Env) :
    Request.reply ctx store ⟨.zadd, [key, ascii "INCR", incArg, member], env⟩ =
        Request.reply ctx store ⟨.zincrby, [key, incArg, member], env⟩ ∧
      Request.after ctx store ⟨.zadd, [key, ascii "INCR", incArg, member], env⟩ =
        Request.after ctx store ⟨.zincrby, [key, incArg, member], env⟩ := by
  have same : Command.run ctx .zadd [key, ascii "INCR", incArg, member] =
      Command.run ctx .zincrby [key, incArg, member] := zadd_incr_eq words valid
  rw [Request.reply, Request.reply, Request.after_eq, Request.after_eq, exec_dispatch,
    exec_dispatch]
  dsimp only
  rw [same]
  exact ⟨rfl, rfl⟩

/-- A new member at infinity. -/
theorem zadd_incr_is_zincrby_of_infinite :
    let added : Request := ⟨.zadd, [ascii "z", ascii "INCR", ascii "inf", ascii "m"], .plain 7⟩
    added.reply .plain .empty =
        Request.reply .plain .empty ⟨.zincrby, [ascii "z", ascii "inf", ascii "m"], .plain 7⟩ ∧
      Request.reply .plain (added.after .plain .empty)
          ⟨.zrangebyscore, [ascii "z", ascii "inf", ascii "inf"], .plain 8⟩ =
        .ok (.array [.bulkString (some (ascii "m"))]) := by
  intro added
  have same := zadd_incr_is_zincrby (show CommandContext.plain.floats.RefusesOptions from
    fun _ _ => rfl) (show parseScore .plain (ascii "inf") = pure F64.infinity from rfl)
    (ascii "z") (ascii "m") .empty (.plain 7)
  refine ⟨same.1, ?_⟩
  rw [same.2]
  decide

end Increments

section Loop

variable {ctx : CommandContext} {key : Bytes} {v : UInt64} {store : Store} {env : Env}
  {flags : ZaddFlags}

/-- The options leave a member with its score as it is. -/
def Cmd.ZaddFlags.keeps (flags : ZaddFlags) (old score : F64) : Bool :=
  flags.nx || flags.gt && score.le old || flags.lt && old.le score || old.eq score

/-- The value of a member after it was given a score. -/
def Cmd.ZaddFlags.rescored (flags : ZaddFlags) (score : F64) : Option Bytes → Option Bytes
  | none => if flags.xx then none else some (encodeScore score)
  | some value =>
    if flags.keeps (decodeScore (value.take 8)) score then some value
    else some (encodeScore score)

/-- Every member has a value that is wide enough for a score. -/
def ReadableScores (ctx : CommandContext) (key : Bytes) (v : UInt64) (store : Store) : Prop :=
  ∀ m value, store.get .subkey (ctx.subKey key v m) = some value → 8 ≤ value.length

theorem keeps_iff {old score : F64} : flags.keeps old score = true ↔
    flags.nx = true ∨ (flags.gt = true ∧ score.le old = true) ∨
      (flags.lt = true ∧ old.le score = true) ∨ old.eq score = true := by
  simp only [ZaddFlags.keeps, Bool.or_eq_true, Bool.and_eq_true, or_assoc]

/-- One turn of the loop of `ZADD` gives a member its score, provided that the batch has
not touched it yet. -/
theorem exec_zaddLoop_cons (env : Env) (flags : ZaddFlags) {m : Bytes} (score : F64)
    (updates : List (Bytes × F64)) {state : ZaddState} (version : state.meta'.version = v)
    (readable : ReadableScores ctx key v store)
    (pending : (store.write state.batch).get .subkey (ctx.subKey key v m) =
      store.get .subkey (ctx.subKey key v m)) :
    ∃ next : ZaddState, exec env (zaddLoop ctx key flags ((m, score) :: updates) state) store =
        exec env (zaddLoop ctx key flags updates next) store ∧
      (∃ size, next.meta' = { state.meta' with size }) ∧
      ∀ m', (store.write next.batch).get .subkey (ctx.subKey key v m') =
        if m' = m then flags.rescored score (store.get .subkey (ctx.subKey key v m))
        else (store.write state.batch).get .subkey (ctx.subKey key v m') := by
  subst version
  -- What is left as it is has its value already.
  have same
      (kept : flags.rescored score (store.get .subkey (ctx.subKey key state.meta'.version m)) =
      store.get .subkey (ctx.subKey key state.meta'.version m)) (m' : Bytes) :
      (store.write state.batch).get .subkey (ctx.subKey key state.meta'.version m') =
        if m' = m then
          flags.rescored score (store.get .subkey (ctx.subKey key state.meta'.version m))
        else (store.write state.batch).get .subkey (ctx.subKey key state.meta'.version m') := by
    split_ifs with this
    · rw [this, pending, kept]
    · rfl
  rw [zaddLoop, exec_get_bind]
  simp only [memberSubkey]
  cases found : store.get .subkey (ctx.subKey key state.meta'.version m) with
  | some value =>
    have read : scoreOfValue value = pure (decodeScore (value.take 8)) :=
      if_neg (by have := readable m value found; omega)
    rw [found] at same
    simp only [read, exec_pure_bind]
    by_cases kept : flags.keeps (decodeScore (value.take 8)) score = true
    · refine ⟨state, ?_, ⟨_, rfl⟩, same (if_pos kept)⟩
      rw [keeps_iff] at kept
      split_ifs
      all_goals first | rfl | (exfalso; tauto)
    · refine ⟨{ state with
          batch := state.batch ++ (.delete .zsetScore (scoreSubkey ctx key state.meta'.version
            (decodeScore (value.take 8)) m) :: putScore ctx key state.meta'.version score m)
          changed := state.changed + 1 }, ?_, ⟨_, rfl⟩, fun m' => ?_⟩
      · rw [keeps_iff] at kept
        rw [if_neg (by tauto), if_neg (by tauto), if_neg (by tauto), if_neg (by tauto)]
      · simp only [putScore, memberSubkey, Store.write_append, Store.write_cons,
          Store.write_nil, Store.get_apply_put, Store.get_apply_delete, CommandContext.subKey_inj,
            true_and, reduceCtorEq,
          false_and, if_false, ZaddFlags.rescored, if_neg kept]
  | none =>
    rw [found] at same
    dsimp only
    by_cases only : flags.xx = true
    · exact ⟨state, by rw [if_pos only], ⟨_, rfl⟩, same (if_pos only)⟩
    · refine ⟨⟨state.batch ++ putScore ctx key state.meta'.version score m, state.added + 1,
        state.changed + 1, { state.meta' with size := state.meta'.size + 1 }⟩,
        by rw [if_neg only], ⟨_, rfl⟩, fun m' => ?_⟩
      simp only [putScore, memberSubkey, Store.write_append, Store.write_cons,
        Store.write_nil, Store.get_apply_put, CommandContext.subKey_inj, true_and, reduceCtorEq,
          false_and, if_false,
        ZaddFlags.rescored, if_neg only]

/-- The loop of `ZADD` gives every member its score. -/
theorem exec_zaddLoop (env : Env) (flags : ZaddFlags) (updates : List (Bytes × F64))
    {state : ZaddState} (version : state.meta'.version = v)
    (readable : ReadableScores ctx key v store) (nodup : (updates.map Prod.fst).Nodup)
    (pending : ∀ m ∈ updates.map Prod.fst, (store.write state.batch).get .subkey
      (ctx.subKey key v m) =
      store.get .subkey (ctx.subKey key v m)) :
    ∃ final : ZaddState,
      exec env (zaddLoop ctx key flags updates state) store = (.ok final, store) ∧
      (∃ size, final.meta' = { state.meta' with size }) ∧
      ∀ m, (store.write final.batch).get .subkey (ctx.subKey key v m) =
        (updates.lookup m).elim ((store.write state.batch).get .subkey (ctx.subKey key v m))
          fun score => flags.rescored score (store.get .subkey (ctx.subKey key v m)) := by
  induction updates generalizing state with
  | nil => exact ⟨state, rfl, ⟨_, rfl⟩, fun m => rfl⟩
  | cons update updates ih =>
    obtain ⟨m, score⟩ := update
    rw [List.map_cons, List.nodup_cons] at nodup
    obtain ⟨next, turned, ⟨size, record⟩, set⟩ := exec_zaddLoop_cons env flags score
      updates version readable (pending m List.mem_cons_self)
    have others : ∀ m' ∈ updates.map Prod.fst,
        (store.write next.batch).get .subkey (ctx.subKey key v m') =
          store.get .subkey (ctx.subKey key v m') := by
      intro m' inside
      rw [set, if_neg fun same : m' = m => nodup.1 (same ▸ inside),
        pending m' (List.mem_cons_of_mem _ inside)]
    obtain ⟨final, ran, ⟨size', record'⟩, reads⟩ :=
      ih (by rw [record]; exact version) nodup.2 others
    refine ⟨final, turned.trans ran, ⟨size', by rw [record', record]⟩, fun m' => ?_⟩
    rw [reads, set, OrderedMap.lookup_cons_entry]
    by_cases here : m' = m
    · subst here
      -- A member is not named again behind its own turn.
      have gone : updates.lookup m' = none := by
        refine List.lookup_eq_none_iff.mpr fun other inside => bne_iff_ne.mpr fun same => nodup.1 ?_
        exact List.mem_map.mpr ⟨other, inside, same.symm⟩
      rw [gone, if_pos rfl, if_pos rfl]
      rfl
    · rw [if_neg here, if_neg here]

end Loop

section Pairs

variable {ctx : CommandContext} {key : Bytes} {store : Store} {env : Env} {flags : ZaddFlags}
  {meta' : Metadata} {options : List Bytes} {pairs : List (Bytes × Bytes)} {score : Bytes → F64}

/-- Pairs of a score and a member as arguments. -/
def pairArgs (pairs : List (Bytes × Bytes)) : List Bytes := pairs.flatMap fun p => [p.1, p.2]

theorem length_pairArgs (pairs : List (Bytes × Bytes)) :
    (pairArgs pairs).length = 2 * pairs.length := by
  simp [pairArgs, Nat.mul_comm]

/-- The last score that the pairs give to a member. -/
def givenScore (score : Bytes → F64) : List (Bytes × Bytes) → Bytes → Option F64
  | [], _ => none
  | p :: rest, m => (givenScore score rest m).or (if m = p.2 then some (score p.1) else none)

theorem lookup_insertUpdate (m m' : Bytes) (s : F64) (updates : List (Bytes × F64)) :
    (insertUpdate m s updates).lookup m' = if m' = m then some s else updates.lookup m' := by
  induction updates with
  | nil => exact OrderedMap.lookup_cons_entry ..
  | cons update updates ih =>
    obtain ⟨other, s'⟩ := update
    rw [insertUpdate, OrderedMap.lookup_cons_entry]
    by_cases here : other = m
    · rw [if_pos here, OrderedMap.lookup_cons_entry, here]
      split_ifs <;> rfl
    · rw [if_neg here, OrderedMap.lookup_cons_entry, ih]
      by_cases same : m' = m
      · have apart : m' ≠ other := fun clash => here (clash.symm.trans same)
        rw [if_neg apart, if_pos same, if_pos same]
      · rw [if_neg same, if_neg same]

theorem lookup_foldl_insertUpdate (pairs : List (Bytes × Bytes)) (updates : List (Bytes × F64))
    (m : Bytes) :
    (pairs.foldl (fun updates p => insertUpdate p.2 (score p.1) updates) updates).lookup m =
      (givenScore score pairs m).or (updates.lookup m) := by
  induction pairs generalizing updates with
  | nil => rfl
  | cons p pairs ih =>
    rw [List.foldl_cons, ih, lookup_insertUpdate, givenScore, Option.or_assoc]
    split_ifs <;> rfl

theorem zaddUpdates_pairArgs (valid : ∀ p ∈ pairs, parseScore ctx p.1 = pure (score p.1))
    (updates : List (Bytes × F64)) :
    zaddUpdates ctx (pairArgs pairs) updates =
      pure (pairs.foldl (fun updates p => insertUpdate p.2 (score p.1) updates) updates) := by
  induction pairs generalizing updates with
  | nil => rfl
  | cons p pairs ih =>
    have args : pairArgs (p :: pairs) = p.1 :: p.2 :: pairArgs pairs := rfl
    rw [args, zaddUpdates, valid p List.mem_cons_self, pure_bind, List.foldl_cons]
    exact ih (fun q inside => valid q (List.mem_cons_of_mem _ inside)) _

/-- The order of the hash table leaves every member with its score. -/
theorem lookup_zaddOrder (env : Env) (updates : List (Bytes × F64)) (m : Bytes) :
    ((env.hashOrder (updates.map Prod.fst)).filterMap fun member =>
      (updates.lookup member).map fun score => (member, score)).lookup m = updates.lookup m := by
  have listed : ∀ members : List Bytes, (members.filterMap fun member =>
      (updates.lookup member).map fun score => (member, score)).lookup m =
        if m ∈ members then updates.lookup m else none := by
    intro members
    induction members with
    | nil => rfl
    | cons member members ih =>
      rw [List.filterMap_cons]
      by_cases here : m = member
      · subst here
        rw [if_pos List.mem_cons_self]
        cases found : updates.lookup m with
        | none =>
          rw [found, ite_self] at ih
          exact ih
        | some score => exact (OrderedMap.lookup_cons_entry ..).trans (if_pos rfl)
      · simp only [List.mem_cons, here, false_or]
        rw [← ih]
        cases updates.lookup member with
        | none => rfl
        | some score => exact (OrderedMap.lookup_cons_entry ..).trans (if_neg here)
  rw [listed]
  split_ifs with named
  · rfl
  · rw [(env.hashOrder_perm _).mem_iff] at named
    refine (List.lookup_eq_none_iff.mpr fun update inside => bne_iff_ne.mpr fun same =>
      named ?_).symm
    exact List.mem_map.mpr ⟨update, inside, same.symm⟩

/-- A record that is loaded or new is not expired. -/
theorem zsetBase_live (base : ctx.zsetBase env store key = .ok meta') :
    meta'.isExpired env.nowMs = false := by
  unfold CommandContext.zsetBase CommandContext.zsetMeta at base
  cases found : ctx.lookupMeta store key with
  | none =>
    rw [found] at base
    cases base
    exact (Metadata.new_proper .zset env.version).not_expired env.nowMs
  | some value =>
    simp only [found] at base
    rcases loaded : judgeZset value env.nowMs with _ | (_ | record)
    · simp [loaded, Except.map] at base
    · rw [loaded] at base
      cases base
      exact (Metadata.new_proper .zset env.version).not_expired env.nowMs
    · rw [loaded] at base
      cases base
      exact (judgeZset_eq_some loaded).2.2

/-- `ZADD` without `INCR` gives every member the last of its scores, as far as the options
allow. -/
theorem exec_zadd_pairs (words : ctx.floats.RefusesOptions)
    (legal : parseZaddFlags options = pure (flags, [])) (regular : flags.incr = false)
    (valid : ∀ p ∈ pairs, parseScore ctx p.1 = pure (score p.1)) (given : pairs ≠ [])
    (base : ctx.zsetBase env store key = .ok meta')
    (readable : ReadableScores ctx key meta'.version store) :
    ∃ reply after size, exec env (Cmd.zadd ctx (key :: (options ++ pairArgs pairs))) store =
        (.ok reply, after) ∧
      Recorded ctx key { meta' with size } after ∧
      ∀ m, after.get .subkey (ctx.subKey key meta'.version m) =
        (givenScore score pairs m).elim (store.get .subkey (ctx.subKey key meta'.version m))
          fun s => flags.rescored s (store.get .subkey (ctx.subKey key meta'.version m)) := by
  -- The scores that the loop goes over: the last one of each member, in the order of the table.
  have updates := zaddUpdates_pairArgs valid []
  have nodup : ((pairs.foldl (fun updates p => insertUpdate p.2 (score p.1) updates) []).map
      Prod.fst).Nodup :=
    ((@zaddUpdates_respects ctx (pairArgs pairs) [] List.nodup_nil).run_value
      (show exec env _ store = _ by rw [updates]; rfl)).1
  obtain ⟨final, ran, ⟨size, record⟩, reads⟩ :=
    @exec_zaddLoop ctx key meta'.version store env flags _
    ⟨[], 0, 0, meta'⟩ rfl readable (nodup_zaddOrder env nodup).1 (fun _ _ => rfl)
  have even := length_pairArgs pairs
  obtain ⟨p, rest, rfl⟩ : ∃ p rest, pairs = p :: rest := List.exists_cons_of_ne_nil given
  have read := parseZaddFlags_append legal
    (isZaddOption_of_parseScore words (valid p List.mem_cons_self)) (p.2 :: pairArgs rest)
  obtain ⟨arg, arg', more, shape⟩ : ∃ arg arg' more,
      options ++ pairArgs (p :: rest) = arg :: arg' :: more := by
    match options with
    | [] => exact ⟨_, _, _, rfl⟩
    | [option] => exact ⟨_, _, _, rfl⟩
    | option :: option' :: options => exact ⟨_, _, _, rfl⟩
  refine ⟨.integer (if flags.ch then final.changed else final.added),
    (store.write final.batch).apply (.put .metadata (ctx.metaKey key) (encodeMetadata final.meta')),
      size,
    ?_, ?_, fun m => ?_⟩
  · have front : parseZaddFlags (arg :: arg' :: more) = pure (flags, pairArgs (p :: rest)) := by
      rw [← shape]
      exact read
    rw [shape, Cmd.zadd, front, pure_bind]
    dsimp only
    rw [if_neg (by rintro (none | odd); cases none; omega), if_neg (by simp [regular]),
      exec_bind_ok (exec_ensureZsetMeta.trans (by rw [base])), if_neg (by simp [regular]), updates,
      pure_bind, exec_bind_ok (exec_zaddOrder _), exec_bind_ok ran, exec_write_bind,
        Store.write_append]
    rfl
  · rw [record]
    exact recorded_put
  · rw [Store.get_apply_put, if_neg (by simp), reads, lookup_zaddOrder, lookup_foldl_insertUpdate]
    simp

end Pairs

section Sequences

variable {ctx : CommandContext} {key : Bytes} {store : Store} {env : Env} {flags : ZaddFlags}
  {meta' : Metadata} {options : List Bytes} {pairs : List (Bytes × Bytes)} {score : Bytes → F64}

def scoreMap (ctx : CommandContext) (env : Env) (store : Store) (key m : Bytes) : Option F64 :=
  match ctx.zsetMeta env store key with
  | .ok (some meta') =>
    (store.get .subkey (ctx.subKey key meta'.version m)).map fun value => decodeScore (value.take 8)
  | _ => none

def zaddRequest (key : Bytes) (options : List Bytes) (env : Env) (pairs : List (Bytes × Bytes)) :
    Request :=
  ⟨.zadd, key :: (options ++ pairArgs pairs), env⟩

/-- One `ZADD` for each pair, one after the other. -/
def zaddEach (ctx : CommandContext) (key : Bytes) (options : List Bytes) (env : Env)
    (pairs : List (Bytes × Bytes)) (store : Store) : Store :=
  pairs.foldl (fun store p => (zaddRequest key options env [p]).after ctx store) store

/-- The pairs without those whose member is named again. -/
def lastPairs : List (Bytes × Bytes) → List (Bytes × Bytes)
  | [] => []
  | p :: rest => if p.2 ∈ rest.map Prod.snd then lastPairs rest else p :: lastPairs rest

theorem lastPairs_cons (p : Bytes × Bytes) (rest : List (Bytes × Bytes)) : lastPairs (p :: rest) =
    if p.2 ∈ rest.map Prod.snd then lastPairs rest else p :: lastPairs rest := rfl

theorem mem_lastPairs {p : Bytes × Bytes} (inside : p ∈ lastPairs pairs) : p ∈ pairs := by
  induction pairs with
  | nil => exact inside
  | cons q pairs ih =>
    rw [lastPairs_cons] at inside
    split_ifs at inside
    · exact List.mem_cons_of_mem _ (ih inside)
    · rcases List.mem_cons.mp inside with rfl | later
      · exact List.mem_cons_self
      · exact List.mem_cons_of_mem _ (ih later)

theorem lastPairs_ne_nil (given : pairs ≠ []) : lastPairs pairs ≠ [] := by
  induction pairs with
  | nil => exact given
  | cons q pairs ih =>
    rw [lastPairs_cons]
    split_ifs with again
    · refine ih ?_
      rintro rfl
      cases again
    · exact List.cons_ne_nil _ _

theorem nodup_lastPairs (pairs : List (Bytes × Bytes)) :
    ((lastPairs pairs).map Prod.snd).Nodup := by
  induction pairs with
  | nil => exact List.nodup_nil
  | cons q pairs ih =>
    rw [lastPairs_cons]
    split_ifs with again
    · exact ih
    · refine List.nodup_cons.mpr ⟨fun inside => again ?_, ih⟩
      obtain ⟨p, member, same⟩ := List.mem_map.mp inside
      exact List.mem_map.mpr ⟨p, mem_lastPairs member, same⟩

theorem givenScore_isSome {m : Bytes} :
    (givenScore score pairs m).isSome = true ↔ m ∈ pairs.map Prod.snd := by
  induction pairs with
  | nil => simp [givenScore]
  | cons p pairs ih =>
    rw [givenScore, Option.isSome_or, Bool.or_eq_true, ih, List.map_cons, List.mem_cons, or_comm]
    refine or_congr_left ?_
    split_ifs with this <;> simp [this]

theorem givenScore_lastPairs (pairs : List (Bytes × Bytes)) (m : Bytes) :
    givenScore score (lastPairs pairs) m = givenScore score pairs m := by
  induction pairs with
  | nil => rfl
  | cons p pairs ih =>
    rw [lastPairs_cons]
    split_ifs with again
    · rw [ih, givenScore]
      by_cases here : m = p.2
      · have named : (givenScore score pairs m).isSome = true :=
          givenScore_isSome.mpr (here ▸ again)
        obtain ⟨s, given⟩ := Option.isSome_iff_exists.mp named
        rw [given]
        rfl
      · rw [if_neg here, Option.or_none]
    · rw [givenScore, givenScore, ih]

theorem scoreMap_recorded {size : UInt64} (recorded : Recorded ctx key { meta' with size } store)
    (typed : meta'.dataType = some .zset) (normal : meta'.Normal) (m : Bytes) :
    scoreMap ctx env store key m = if meta'.isExpired env.nowMs then none else
      (store.get .subkey (ctx.subKey key meta'.version m)).map fun value =>
        decodeScore (value.take 8) := by
  have loaded : ctx.zsetMeta env store key = _ := zsetMeta_recorded recorded typed normal
  rw [scoreMap, loaded]
  by_cases expired : meta'.isExpired env.nowMs = true
  · have expired' : Metadata.isExpired { meta' with size } env.nowMs = true := expired
    rw [if_pos expired, if_pos expired']
  · have live : ¬ Metadata.isExpired { meta' with size } env.nowMs = true := expired
    rw [if_neg expired, if_neg live]

/-- An addition leaves values that can be read. -/
theorem ReadableScores.rescored {v : UInt64} {after : Store}
    (readable : ReadableScores ctx key v store) {given : Bytes → Option F64}
    (reads : ∀ m, after.get .subkey (ctx.subKey key v m) =
      (given m).elim (store.get .subkey (ctx.subKey key v m))
        fun s => flags.rescored s (store.get .subkey (ctx.subKey key v m))) :
    ReadableScores ctx key v after := by
  intro m value stored
  rw [reads] at stored
  generalize given m = new at stored
  cases new with
  | none => exact readable m value stored
  | some s =>
    rw [Option.elim_some] at stored
    cases found : store.get .subkey (ctx.subKey key v m) with
    | none =>
      rw [found, ZaddFlags.rescored] at stored
      split_ifs at stored
      cases stored
      exact (length_encodeScore s).ge
    | some old =>
      rw [found, ZaddFlags.rescored] at stored
      split_ifs at stored
      · cases stored
        exact readable m _ found
      · cases stored
        exact (length_encodeScore s).ge

/-- Additions one after the other, each for another member. -/
theorem zaddEach_reads (words : ctx.floats.RefusesOptions)
    (legal : parseZaddFlags options = pure (flags, [])) (regular : flags.incr = false)
    (valid : ∀ p ∈ pairs, parseScore ctx p.1 = pure (score p.1))
    (nodup : (pairs.map Prod.snd).Nodup) (base : ctx.zsetBase env store key = .ok meta')
    (readable : ReadableScores ctx key meta'.version store) :
    (pairs ≠ [] → ∃ size,
      Recorded ctx key { meta' with size } (zaddEach ctx key options env pairs store)) ∧
      ∀ m, (zaddEach ctx key options env pairs store).get .subkey (ctx.subKey key meta'.version m) =
        (givenScore score pairs m).elim (store.get .subkey (ctx.subKey key meta'.version m))
          fun s => flags.rescored s (store.get .subkey (ctx.subKey key meta'.version m)) := by
  induction pairs generalizing store meta' with
  | nil => exact ⟨fun none => absurd rfl none, fun m => rfl⟩
  | cons p pairs ih =>
    rw [List.map_cons, List.nodup_cons] at nodup
    obtain ⟨reply, after, size, ran, recorded, reads⟩ := exec_zadd_pairs words legal regular
      (fun q inside => valid q (by simp_all)) (List.cons_ne_nil p []) base readable
    have first : (zaddRequest key options env [p]).after ctx store = after :=
      Request.after_eq_of_exec ctx ran
    obtain ⟨typed, normal⟩ := zsetBase_dataType base
    have next : ctx.zsetBase env after key = .ok { meta' with size } := by
      have live : meta'.isExpired env.nowMs = false := zsetBase_live base
      have live' : Metadata.isExpired { meta' with size } env.nowMs = false := live
      rw [CommandContext.zsetBase, zsetMeta_recorded recorded typed normal, live']
      rfl
    obtain ⟨recorded', reads'⟩ :=
      ih (fun q inside => valid q (List.mem_cons_of_mem _ inside)) nodup.2
      next (readable.rescored reads)
    have run : zaddEach ctx key options env (p :: pairs) store =
        zaddEach ctx key options env pairs after := by
      rw [zaddEach, List.foldl_cons, first, zaddEach]
    rw [run]
    refine ⟨fun _ => ?_, fun m => ?_⟩
    · by_cases last : pairs = []
      · exact ⟨size, by rw [last]; exact recorded⟩
      · exact recorded' last
    · rw [reads' m, reads m, givenScore, givenScore, givenScore, Option.none_or]
      by_cases here : m = p.2
      · -- The members of the other pairs are not this one.
        have other : givenScore score pairs m = none := by
          rw [← Option.not_isSome_iff_eq_none, givenScore_isSome, here]
          exact nodup.1
        rw [if_pos here, other]
        rfl
      · rw [if_neg here, Option.or_none, Option.elim_none]

/-- A `ZADD` that finds a value of another type changes nothing. -/
theorem after_zadd_of_error {fault : Fault} (failed : ctx.zsetBase env store key = .error fault)
    (args : List Bytes) : Request.after ctx store ⟨.zadd, key :: args, env⟩ = store := by
  have ends : Program.Ends env.handle (Cmd.zadd ctx (key :: args)) store _ _ :=
    zadd_ends key args fun meta' base => absurd (failed.symm.trans base) (by simp)
  rw [Request.after_eq]
  refine Program.Ends.run_state (ends.mono ?_ fun _ _ same => same)
  rintro _ after (unchanged | ⟨meta', base, -⟩)
  · exact unchanged
  · exact absurd (failed.symm.trans base) (by simp)

/-- So does one without any pairs. -/
theorem after_zadd_of_no_pairs (legal : parseZaddFlags options = pure (flags, [])) :
    Request.after ctx store ⟨.zadd, key :: options, env⟩ = store := by
  rw [Request.after_eq]
  show (exec env (Cmd.zadd ctx (key :: options)) store).2 = store
  match options with
  | [] => rfl
  | [_] => rfl
  | option :: option' :: options =>
    rw [Cmd.zadd, legal, pure_bind]
    rfl

/-- A `ZADD` of several pairs leaves the same scores as one for each pair, one after the
other, of which those are left out whose member is named again. -/
theorem zadd_pairs_sequence (words : ctx.floats.RefusesOptions)
    (legal : parseZaddFlags options = pure (flags, [])) (regular : flags.incr = false)
    (valid : ∀ p ∈ pairs, parseScore ctx p.1 = pure (score p.1))
    (readable : ∀ meta', ctx.zsetBase env store key = .ok meta' →
      ReadableScores ctx key meta'.version store) (later : Env) (m : Bytes) :
    scoreMap ctx later ((zaddRequest key options env pairs).after ctx store) key m =
      scoreMap ctx later (zaddEach ctx key options env (lastPairs pairs) store) key m := by
  cases base : ctx.zsetBase env store key with
  | error fault =>
    have none : zaddEach ctx key options env (lastPairs pairs) store = store := by
      generalize lastPairs pairs = rest
      induction rest with
      | nil => rfl
      | cons p rest ih =>
        rw [zaddEach, List.foldl_cons, zaddRequest, after_zadd_of_error base]
        exact ih
    rw [none, zaddRequest, after_zadd_of_error base]
  | ok meta' =>
    by_cases empty : pairs = []
    · subst empty
      rw [zaddRequest, pairArgs, List.flatMap_nil, List.append_nil, after_zadd_of_no_pairs legal]
      rfl
    obtain ⟨reply, after, size, ran, recorded, reads⟩ :=
      exec_zadd_pairs words legal regular valid empty base (readable meta' base)
    obtain ⟨recorded', reads'⟩ := zaddEach_reads words legal regular
      (fun p inside => valid p (mem_lastPairs inside)) (nodup_lastPairs pairs) base
        (readable meta' base)
    obtain ⟨size', recorded'⟩ := recorded' (lastPairs_ne_nil empty)
    obtain ⟨typed, normal⟩ := zsetBase_dataType base
    have once : (zaddRequest key options env pairs).after ctx store = after :=
      Request.after_eq_of_exec ctx ran
    rw [once, scoreMap_recorded recorded typed normal,
      scoreMap_recorded recorded' typed normal, reads, reads', givenScore_lastPairs]

/-- A member at each infinity. -/
theorem zadd_pairs_sequence_of_infinite :
    scoreMap .plain (.plain 8) ((zaddRequest (ascii "z") [] (.plain 7)
        [(ascii "inf", ascii "a"), (ascii "-inf", ascii "a"), (ascii "inf", ascii "b")]).after
          .plain .empty)
        (ascii "z") (ascii "a") =
      scoreMap .plain (.plain 8) (zaddEach .plain (ascii "z") [] (.plain 7)
        [(ascii "-inf", ascii "a"), (ascii "inf", ascii "b")] .empty) (ascii "z") (ascii "a") := by
  refine @zadd_pairs_sequence .plain _ _ _ ⟨false, false, false, false, false, false⟩ _ _
    (fun text => if text = ascii "inf" then .infinity else .negInfinity) (fun _ _ => rfl) rfl rfl
    ?_ (fun meta' _ m value stored => ?_) _ _
  · intro p inside
    simp only [List.mem_cons, List.not_mem_nil, or_false] at inside
    rcases inside with rfl | rfl | rfl <;> rfl
  · cases stored

/-- A repeated member gets its last score although it may only be added: the first pair
alone would have added it already. -/
theorem zadd_nx_takes_last_score :
    scoreMap .plain (.plain 8) ((zaddRequest (ascii "z") [ascii "NX"] (.plain 7)
        [(ascii "inf", ascii "a"), (ascii "-inf", ascii "a")]).after .plain .empty)
        (ascii "z") (ascii "a") = some .negInfinity ∧
      scoreMap .plain (.plain 8) (zaddEach .plain (ascii "z") [ascii "NX"] (.plain 7)
        [(ascii "inf", ascii "a"), (ascii "-inf", ascii "a")] .empty) (ascii "z") (ascii "a") =
          some .infinity := by
  decide

end Sequences

end Kvdb
