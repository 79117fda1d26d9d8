import Kvdb.Expiry.Absence

/-!
# Deadlines

`EXPIRE`, `PEXPIRE` and `SET` with `EX` or `PX` add an amount of time to the clock. The sum
is a signed machine word, and a word that is not positive stands for no deadline at all. So a
sum that wraps around, or one that falls before the beginning of the time, gives a key that
never expires. `INCR`, `DECR` and `APPEND` write the new string without a deadline.

Not everyone looks at the deadline. The conditions of `SET` do, and so do the commands of the
record's type, except those on hashes. `EXISTS` does not.
-/

namespace Kvdb

open Data Semantics Cmd

variable {ctx : CommandContext} {key v encoded : Bytes} {type : DataType} {env : Env}
  {store : Store}

section Visibility

/-- The key exists at a time, and has not expired. -/
def KeyVisible (ctx : CommandContext) (env : Env) (store : Store) (key : Bytes) : Prop :=
  exec env (keyExists ctx key) store = (.ok true, store)

/-- What `PTTL` replies about a record with a deadline. -/
def timeLeft (deadline now : Int64) : Int64 :=
  if 0 < deadline then if deadline ≤ now then -2 else deadline - now else -1

theorem visible_iff (stored : ctx.lookupMeta store key = some v)
    (typed : recordType v = some type) :
    KeyVisible ctx env store key ↔ expiredAt (deadlineOf v) env.nowMs = false := by
  have ran : exec env (keyExists ctx key) store =
      (.ok (!expiredAt (deadlineOf v) env.nowMs), store) := by
    rw [keyExists, ctx.exec_getMeta_bind, stored]
    dsimp only
    rw [exec_nowMs_bind, isExpiredValue_eq typed]
    rfl
  rw [KeyVisible, ran]
  simp

theorem reply_pttl (stored : ctx.lookupMeta store key = some v) (typed : recordType v = some type) :
    Request.reply ctx store ⟨.pttl, [key], env⟩ =
      .ok (.integer (timeLeft (deadlineOf v) env.nowMs)) := by
  apply Request.reply_eq_ok ctx
  have read : exec env (readExpire ctx key) store = _ := exec_readExpire_of_typed stored typed
  change exec env (Cmd.pttl ctx [key]) store = (_, store)
  rw [Cmd.pttl, timeToLive, exec_bind_ok read, timeLeft]
  split_ifs with some past
  · dsimp only
    rw [exec_nowMs_bind, if_pos past]
    rfl
  · dsimp only
    rw [exec_nowMs_bind, if_neg past]
    rfl
  · rfl

/-- A loader finds a record at a time. -/
def FoundBy {ρ : Type} (env : Env) (store : Store) (load : Prog (Option ρ)) : Prop :=
  ∃ found, exec env load store = (.ok (some found), store)

def FoundAs (ctx : CommandContext) (env : Env) (store : Store) (key : Bytes) : DataType → Prop
  | .string => FoundBy env store (readString ctx key)
  | .hash => FoundBy env store (readHashMeta ctx key)
  | .list => FoundBy env store (loadListMeta ctx key)
  | .set => FoundBy env store (readSetMetadata ctx key)
  | .zset => FoundBy env store (readZsetMeta ctx key)
  | .stream => FoundBy env store (readStreamMeta ctx key)
  | .bitmap => FoundBy env store (readBitmapMeta ctx key)

/-- Who asks whether a key is there: the conditions of `SET`, the commands of the type of its
record, or `EXISTS`. -/
inductive Asker where
  | condition
  | commands
  | exists'
  deriving DecidableEq

/-- The key is there for those who ask. -/
def KeySeen (ctx : CommandContext) (env : Env) (store : Store) (key : Bytes) : Asker → Prop
  | .condition => KeyVisible ctx env store key
  | .commands => ∃ type, (ctx.lookupMeta store key).bind recordType = some type ∧
      FoundAs ctx env store key type
  | .exists' => Request.reply ctx store ⟨.exists', [key], env⟩ = .ok (.integer 1)

/-- Those who ask look at the deadline of a record. -/
def Asker.heeds : Asker → DataType → Bool
  | .condition, _ => true
  | .commands, type => type ≠ .hash
  | .exists', _ => false

theorem foundBy_iff {ρ : Type} {load : Prog (Option ρ)}
    {judge : Bytes → Int64 → Except Fault (Option ρ)} {expired : Bool}
    (judges : Judges ctx key load judge) (stored : ctx.lookupMeta store key = some v)
    (judged : ∃ found, judge v env.nowMs = .ok (if expired then none else some found)) :
    FoundBy env store load ↔ expired = false := by
  obtain ⟨found, judged⟩ := judged
  rw [FoundBy, judges, stored, Option.elim_some, judged]
  cases expired <;> simp

theorem foundAs_iff (stored : ctx.lookupMeta store key = some v)
    (typed : recordType v = some type) :
    FoundAs ctx env store key type ↔
      (type ≠ .hash → expiredAt (deadlineOf v) env.nowMs = false) := by
  cases type with
  | string =>
    exact (foundBy_iff judges_readString stored ⟨_, judgeString_typed typed _⟩).trans (by simp)
  | hash =>
    exact (@foundBy_iff _ _ _ _ _ _ _ _ false judges_readHashMeta stored
      (judgeHash_typed typed _)).trans (by simp)
  | list | set | bitmap =>
    exact (foundBy_iff (judges_loadLiveMeta _ _) stored
      (judgeLive_typed _ typed (by decide) _)).trans (by simp)
  | zset =>
    obtain ⟨meta', judged⟩ := judgeZset_typed typed (by decide) env.nowMs
    refine (@foundBy_iff _ _ _ _ _ _ _ _ (expiredAt (deadlineOf v) env.nowMs) judges_readZsetMeta
      stored ⟨meta', ?_⟩).trans (by simp)
    rw [judged, if_pos rfl]
    split_ifs <;> rfl
  | stream =>
    exact (foundBy_iff judges_readStreamMeta stored (judgeStream_typed typed _)).trans (by simp)

theorem keySeen_iff (stored : ctx.lookupMeta store key = some v) (typed : recordType v = some type)
    (asker : Asker) : KeySeen ctx env store key asker ↔
      (asker.heeds type = true → expiredAt (deadlineOf v) env.nowMs = false) := by
  cases asker with
  | condition => simpa [KeySeen, Asker.heeds] using visible_iff stored typed
  | commands => simpa [KeySeen, Asker.heeds, stored, typed] using foundAs_iff stored typed
  | exists' => simp [KeySeen, Asker.heeds, reply_exists, stored]

/-- Every word is the time of some clock. -/
theorem exists_env (time : Int64) : ∃ env : Env, env.nowMs = time :=
  ⟨.plain time.toUInt64.toNat, (toInt64_eq_ofNat time.toUInt64).symm.trans rfl⟩

end Visibility

section Arguments

/-- The units in which deadlines are given. -/
inductive TimeUnit where
  | seconds
  | milliseconds
  deriving DecidableEq

namespace TimeUnit

def ms : TimeUnit → Int64
  | seconds => 1000
  | milliseconds => 1

def ofWord (word : Bytes) : Option TimeUnit :=
  if isKeyword word "EX" then some seconds
  else if isKeyword word "PX" then some milliseconds else none

end TimeUnit

/-- An option of `SET`: to keep the value for some time, or to write only where no value is, or
only where one is. -/
inductive SetOption where
  | lasting (amount : Int64) (unit : TimeUnit)
  | ifAbsent
  | ifPresent
  deriving DecidableEq

namespace SetOption

/-- A time to live is positive. -/
def readLasting (unit : TimeUnit) (text : Bytes) : Except Fault SetOption :=
  match parseI64? text with
  | none => .error (.error .notInteger)
  | some amount =>
    if amount ≤ 0 then .error (.error (.command "invalid expire time"))
    else .ok (lasting amount unit)

def readFlag (word : Bytes) : Except Fault SetOption :=
  if isKeyword word "NX" then .ok ifAbsent
  else if isKeyword word "XX" then .ok ifPresent
  else .error (.error (.command "syntax error"))

/-- The options in a list of words. The first word that is wrong decides the error. -/
def readAll : List Bytes → Except Fault (List SetOption)
  | [] => .ok []
  | word :: rest =>
    match TimeUnit.ofWord word, rest with
    | none, rest => (readFlag word).bind fun flag => (readAll rest).map (flag :: ·)
    | some unit, text :: rest =>
      (readLasting unit text).bind fun time => (readAll rest).map (time :: ·)
    | some _, [] => .error (.error (.command "syntax error"))

/-- What is asked for after one more option. A time to live replaces the deadline. -/
def note (now : Int64) (asked : SetOptions) : SetOption → SetOptions
  | lasting amount unit => { asked with expireMs := now + amount * unit.ms }
  | ifAbsent => { asked with nx := true }
  | ifPresent => { asked with xx := true }

theorem map_bind_note (outcome : Except Fault SetOption) (rest : Except Fault (List SetOption))
    (now : Int64) (asked : SetOptions) :
    (outcome.bind fun option => rest.map (option :: ·)).map (List.foldl (note now) asked) =
      outcome.bind fun option => rest.map (List.foldl (note now) (option.note now asked)) := by
  cases outcome <;> cases rest <;> rfl

theorem expireMs_of_flags {now : Int64} {flags : List SetOption} {asked : SetOptions}
    (plain : flags ⊆ [ifAbsent, ifPresent]) :
    (flags.foldl (note now) asked).expireMs = asked.expireMs := by
  induction flags generalizing asked with
  | nil => rfl
  | cons flag flags ih =>
    obtain ⟨known, others⟩ := List.cons_subset.mp plain
    rw [List.foldl_cons, ih others]
    rcases List.mem_pair.mp known with rfl | rfl <;> rfl

end SetOption

/-- A request that sets the deadline of a key to an amount of units from now. -/
inductive SetsDeadline (key : Bytes) : Request → Int64 → TimeUnit → Prop
  | expire {text : Bytes} {amount : Int64} {env : Env} (parsed : parseI64? text = some amount) :
      SetsDeadline key ⟨.expire, [key, text], env⟩ amount .seconds
  | pexpire {text : Bytes} {amount : Int64} {env : Env} (parsed : parseI64? text = some amount) :
      SetsDeadline key ⟨.pexpire, [key, text], env⟩ amount .milliseconds
  | set {value : Bytes} {words : List Bytes} {options flags : List SetOption} {amount : Int64}
      {unit : TimeUnit} {env : Env}
      (read : SetOption.readAll words = .ok (options ++ .lasting amount unit :: flags))
      (plain : flags ⊆ [.ifAbsent, .ifPresent]) :
      SetsDeadline key ⟨.set, key :: value :: words, env⟩ amount unit

def deadlineSet (command : Command) : RespValue :=
  if command = .set then .simpleString "OK" else .integer 1

theorem setOptions_lasting {word : Bytes} {unit : TimeUnit}
    (timed : TimeUnit.ofWord word = some unit) (text : Bytes) (rest : List Bytes)
    (opts : SetOptions) : setOptions (word :: text :: rest) opts = (do
      let amount ← parseI64 text
      if amount ≤ 0 then raise (.command "invalid expire time")
      else
        let now ← nowMs
        setOptions rest { opts with expireMs := now + amount * unit.ms }) := by
  rw [TimeUnit.ofWord] at timed
  split_ifs at timed with seconds milliseconds <;> cases timed
  · rw [setOptions, if_pos seconds]
    rfl
  · rw [setOptions, if_neg seconds, if_pos milliseconds]
    simp only [TimeUnit.ms, Int64.mul_one]

/-- `SET` reads its options from left to right. -/
theorem exec_setOptions (words : List Bytes) (opts : SetOptions) :
    exec env (setOptions words opts) store =
      ((SetOption.readAll words).map (List.foldl (SetOption.note env.nowMs) opts), store) := by
  fun_induction SetOption.readAll words generalizing opts with
  | case1 => rfl
  | case2 word rest plain ih =>
    rw [TimeUnit.ofWord] at plain
    split_ifs at plain with seconds milliseconds
    rw [setOptions.eq_def, SetOption.map_bind_note, SetOption.readFlag]
    dsimp only
    rw [if_neg seconds, if_neg milliseconds]
    split_ifs
    · exact ih _
    · exact ih _
    · rfl
  | case3 word unit text rest timed ih =>
    rw [setOptions_lasting timed, SetOption.map_bind_note, parseI64, SetOption.readLasting]
    cases parseI64? text with
    | none => rfl
    | some amount =>
      dsimp only
      rw [exec_pure_bind]
      split_ifs
      · rfl
      · exact ih _
  | case4 word unit timed =>
    rw [TimeUnit.ofWord] at timed
    rw [setOptions]
    split_ifs at timed ⊢ <;> rfl

end Arguments

section Records

variable {amount deadline : Int64} {unit : TimeUnit} {request : Request} {after : Store}

/-- A record that can be read, with a deadline. -/
def RecordedDeadline (ctx : CommandContext) (store : Store) (key : Bytes) (deadline : Int64) :
    Prop :=
  ∃ v type, ctx.lookupMeta store key = some v ∧ recordType v = some type ∧ deadlineOf v = deadline

theorem recordedDeadline_put (typed : recordType encoded = some type) :
    RecordedDeadline ctx (store.apply (.put .metadata (ctx.metaKey key) encoded)) key
      (deadlineOf encoded) :=
  ⟨encoded, type, ctx.lookupMeta_of_some (by simp [Store.get_apply_put]), typed, rfl⟩

theorem recordType_encodeString (expire : Int64) (payload : Bytes) :
    recordType (encodeString stringFlags expire payload) = some .string := by
  have text : firstByte (encodeString stringFlags expire payload) &&& flagsTypeMask =
      DataType.string.code := (by decide : stringFlags &&& flagsTypeMask = DataType.string.code)
  rw [recordType, if_pos text, if_neg (by simp [encodeString])]

theorem deadlineOf_encodeString (flags : UInt8) (expire : Int64) (payload : Bytes) :
    deadlineOf (encodeString flags expire payload) = expire := by
  simp [deadlineOf, encodeString, wordAt_zero]

theorem recordedDeadline_putString (deadline : Int64) (payload : Bytes) :
    RecordedDeadline ctx (store.apply
      (.put .metadata (ctx.metaKey key) (encodeString stringFlags deadline payload))) key
      deadline := by
  have put := @recordedDeadline_put ctx key _ _ store (recordType_encodeString deadline payload)
  rwa [deadlineOf_encodeString] at put

/-- A value whose deadline can be set can be read. -/
theorem exists_recordType (changed : withExpire v expireMs = .ok encoded) :
    ∃ type, recordType v = some type := by
  cases redates_of_withExpire changed with
  | text typed long => exact ⟨.string, by rw [recordType, if_pos typed, if_neg long]⟩
  | record other decoded _ known =>
    exact ⟨_, by rw [recordType, if_neg other, decoded]; exact known.typed⟩

theorem recordedDeadline_setExpireMs
    (ran : exec env (setExpireMs ctx key deadline) store = (.ok true, after)) :
    RecordedDeadline ctx after key deadline := by
  rw [setExpireMs, ctx.exec_getMeta_bind] at ran
  cases stored : ctx.lookupMeta store key with
  | none =>
    rw [stored] at ran
    cases ran
  | some v =>
    rw [stored] at ran
    dsimp only at ran
    split_ifs at ran with empty
    · cases ran
    · obtain ⟨encoded, middle, changed, ran⟩ := exec_bind_eq_ok ran
      rw [exec_ofExcept] at changed
      injection changed with changed same
      subst same
      cases ran
      obtain ⟨type, typed⟩ := exists_recordType changed
      obtain ⟨same, set⟩ := recordType_withExpire changed
      exact set ▸ recordedDeadline_put (same.trans typed)

theorem recordedDeadline_expireIn {name : String} {text : Bytes}
    (parsed : parseI64? text = some amount)
    (ran : exec env (expireIn ctx name unit.ms [key, text]) store = (.ok (.integer 1), after)) :
    RecordedDeadline ctx after key (env.nowMs + amount * unit.ms) := by
  rw [expireIn] at ran
  obtain ⟨amount', middle, read, going⟩ := exec_bind_eq_ok ran
  obtain ⟨parsed', rfl⟩ := exec_parseI64_eq_ok read
  obtain rfl := Option.some.inj (parsed.symm.trans parsed')
  rw [exec_nowMs_bind] at going
  obtain ⟨ok, ended, done, going⟩ := exec_bind_eq_ok going
  cases ok with
  | false => cases going
  | true =>
    cases going
    exact recordedDeadline_setExpireMs done

theorem recordedDeadline_set {value : Bytes} {words : List Bytes} {options : List SetOption}
    (read : SetOption.readAll words = .ok options)
    (ran : exec env (Cmd.set ctx (key :: value :: words)) store =
      (.ok (.simpleString "OK"), after)) :
    RecordedDeadline ctx after key
      (options.foldl (SetOption.note env.nowMs) ⟨0, false, false⟩).expireMs := by
  rw [Cmd.set] at ran
  obtain ⟨opts, middle, parsed, going⟩ := exec_bind_eq_ok ran
  rw [exec_setOptions, read] at parsed
  cases parsed
  split_ifs at going with both
  · cases going
  · obtain ⟨found, ended, looked, going⟩ := exec_bind_eq_ok going
    split_ifs at going with taken missing
    · cases going
    · cases going
    · cases going
      exact recordedDeadline_putString _ value

/-- The record a successful request leaves. -/
theorem recordedDeadline_of_success (sets : SetsDeadline key request amount unit)
    (succeeded : request.reply ctx store = .ok (deadlineSet request.command)) :
    RecordedDeadline ctx (request.after ctx store) key
      (request.env.nowMs + amount * unit.ms) := by
  have ran := Request.returned_of_reply ctx succeeded
    (by intro text; rw [deadlineSet]; split_ifs <;> exact nofun)
  cases sets with
  | expire parsed =>
    exact @recordedDeadline_expireIn _ _ _ _ _ .seconds _ "EXPIRE" _ parsed ran
  | pexpire parsed =>
    exact @recordedDeadline_expireIn _ _ _ _ _ .milliseconds _ "PEXPIRE" _ parsed ran
  | set read plain =>
    have recorded := recordedDeadline_set read ran
    rwa [List.foldl_append, List.foldl_cons, SetOption.expireMs_of_flags plain] at recorded

end Records

section Exactness

variable {amount unit deadline : Int64} {request : Request} {after : Store} {asker : Asker}

theorem RecordedDeadline.visible_iff (recorded : RecordedDeadline ctx store key deadline) :
    KeyVisible ctx env store key ↔ deadline ≤ 0 ∨ env.nowMs < deadline := by
  obtain ⟨v, type, stored, typed, rfl⟩ := recorded
  rw [Kvdb.visible_iff stored typed, expiredAt, Bool.and_eq_false_iff, decide_eq_false_iff_not,
    decide_eq_false_iff_not, Int64.not_lt, Int64.not_le]

/-- Of a key with a deadline: its type, and that it is seen until the deadline by those who
look at it. -/
theorem RecordedDeadline.seen (recorded : RecordedDeadline ctx store key deadline) :
    ∃ type, (ctx.lookupMeta store key).bind recordType = some type ∧
      ∀ asker env, KeySeen ctx env store key asker ↔
        (asker.heeds type = true → deadline ≤ 0 ∨ env.nowMs < deadline) := by
  obtain ⟨v, type, stored, typed, rfl⟩ := recorded
  refine ⟨type, by rw [stored]; exact typed, fun asker env => ?_⟩
  rw [keySeen_iff stored typed, expiredAt, Bool.and_eq_false_iff, decide_eq_false_iff_not,
    decide_eq_false_iff_not, Int64.not_lt, Int64.not_le]

theorem RecordedDeadline.reply_pttl (recorded : RecordedDeadline ctx store key deadline) :
    Request.reply ctx store ⟨.pttl, [key], env⟩ = .ok (.integer (timeLeft deadline env.nowMs)) := by
  obtain ⟨v, type, stored, typed, rfl⟩ := recorded
  exact Kvdb.reply_pttl stored typed

/-- The key is seen until the amount of time has passed, and no longer. -/
structure ExactDeadline (ctx : CommandContext) (key : Bytes) (env : Env) (amount unit : Int64)
    (after : Store) (asker : Asker) : Prop where
  visible : ∀ later : Env, env.nowMs ≤ later.nowMs → (KeySeen ctx later after key asker ↔
    later.nowMs.toInt < env.nowMs.toInt + amount.toInt * unit.toInt)
  absent : amount ≤ 0 → ¬ KeySeen ctx env after key asker
  left : 0 < amount → ∃ left : Int64,
    Request.reply ctx after ⟨.pttl, [key], env⟩ = .ok (.integer left) ∧
      left.toInt = amount.toInt * unit.toInt

/-- A deadline in the future does not overflow, and one in the past is a positive word. -/
def Expressible (now amount unit : Int64) : Prop :=
  if 0 < amount then now.toInt + amount.toInt * unit.toInt < 2 ^ 63
  else 0 < now + amount * unit ∧ now + amount * unit ≤ now

theorem TimeUnit.ms_pos (unit : TimeUnit) : 0 < unit.ms.toInt := by cases unit <;> decide

/-- A sum that fits is not wrapped around. -/
theorem toInt_deadline {now : Int64} (clock : 0 ≤ now) (future : 0 < amount.toInt * unit.toInt)
    (fits : now.toInt + amount.toInt * unit.toInt < 2 ^ 63) :
    (now + amount * unit).toInt = now.toInt + amount.toInt * unit.toInt := by
  have clock : 0 ≤ now.toInt := Int64.le_iff_toInt_le.mp clock
  rw [Int64.toInt_add, Int64.toInt_mul, Int.add_bmod_bmod]
  exact Int.bmod_eq_of_le (by omega) (by omega)

theorem toInt_timeLeft {now : Int64} (clock : 0 ≤ now) (future : now < deadline) :
    (timeLeft deadline now).toInt = deadline.toInt - now.toInt := by
  rw [timeLeft, if_pos (Int64.lt_of_le_of_lt clock future), if_neg (Int64.not_le.mpr future),
    Int64.toInt_sub]
  rw [Int64.lt_iff_toInt_lt] at future
  rw [Int64.le_iff_toInt_le] at clock
  have := deadline.toInt_lt
  have : (0 : Int64).toInt = 0 := rfl
  exact Int.bmod_eq_of_le (by omega) (by omega)

theorem toInt_timeLeft_neg {now : Int64} (behind : ¬ now < deadline) :
    (timeLeft deadline now).toInt < 0 := by
  rw [timeLeft, if_pos (Int64.not_lt.mp behind)]
  split_ifs <;> decide

/-- What `PTTL` replies is the distance of two words, so the deadline has fitted. -/
theorem RecordedDeadline.fits_of_left
    (recorded : RecordedDeadline ctx after key (env.nowMs + amount * unit))
    (clock : 0 ≤ env.nowMs) (ahead : 0 < amount.toInt * unit.toInt)
    (left : ∃ left : Int64, Request.reply ctx after ⟨.pttl, [key], env⟩ = .ok (.integer left) ∧
      left.toInt = amount.toInt * unit.toInt) :
    env.nowMs.toInt + amount.toInt * unit.toInt < 2 ^ 63 := by
  obtain ⟨left, replied, same⟩ := left
  rw [recorded.reply_pttl, Except.ok.injEq, RespValue.integer.injEq] at replied
  by_cases later : env.nowMs < env.nowMs + amount * unit
  · have distance := toInt_timeLeft clock later
    have := (env.nowMs + amount * unit).toInt_lt
    rw [replied] at distance
    omega
  · have negative := toInt_timeLeft_neg later
    rw [replied] at negative
    omega

/-- A deadline that someone does not look at is not exact for them. -/
theorem RecordedDeadline.heeds_of_exact
    (recorded : RecordedDeadline ctx after key (env.nowMs + amount * unit))
    (clock : 0 ≤ env.nowMs) (scaled : 0 < unit.toInt)
    (exact : ExactDeadline ctx key env amount unit after asker)
    (seen : ∀ later : Env, KeySeen ctx later after key asker) : False := by
  by_cases future : 0 < amount
  · have ahead : 0 < amount.toInt * unit.toInt :=
      Int.mul_pos (Int64.lt_iff_toInt_lt.mp future) scaled
    have fits := recorded.fits_of_left clock ahead (exact.left future)
    have sum := toInt_deadline clock ahead fits
    -- At the deadline the key is still seen.
    obtain ⟨later, there⟩ := exists_env (env.nowMs + amount * unit)
    rw [← there] at sum
    have before := (exact.visible later (Int64.le_iff_toInt_le.mpr (by omega))).mp (seen later)
    omega
  · exact exact.absent (Int64.not_lt.mp future) (seen env)

theorem RecordedDeadline.expressible_of_exact
    (recorded : RecordedDeadline ctx after key (env.nowMs + amount * unit))
    (clock : 0 ≤ env.nowMs) (scaled : 0 < unit.toInt)
    (exact : ExactDeadline ctx key env amount unit after asker)
    (shown : env.nowMs + amount * unit ≤ 0 ∨ env.nowMs < env.nowMs + amount * unit →
      KeySeen ctx env after key asker) :
    Expressible env.nowMs amount unit := by
  rw [Expressible]
  split_ifs with future
  · exact recorded.fits_of_left clock (Int.mul_pos (Int64.lt_iff_toInt_lt.mp future) scaled)
      (exact.left future)
  · have gone := mt shown (exact.absent (Int64.not_lt.mp future))
    rwa [not_or, Int64.not_le, Int64.not_lt] at gone

theorem RecordedDeadline.exact_of_expressible
    (recorded : RecordedDeadline ctx after key (env.nowMs + amount * unit))
    (clock : 0 ≤ env.nowMs) (scaled : 0 < unit.toInt)
    (expressible : Expressible env.nowMs amount unit)
    (seen : ∀ later : Env, KeySeen ctx later after key asker ↔
      env.nowMs + amount * unit ≤ 0 ∨ later.nowMs < env.nowMs + amount * unit) :
    ExactDeadline ctx key env amount unit after asker := by
  rw [Expressible] at expressible
  split_ifs at expressible with future
  · have ahead : 0 < amount.toInt * unit.toInt :=
      Int.mul_pos (Int64.lt_iff_toInt_lt.mp future) scaled
    have sum := toInt_deadline clock ahead expressible
    have clock' : 0 ≤ env.nowMs.toInt := Int64.le_iff_toInt_le.mp clock
    have later : env.nowMs < env.nowMs + amount * unit := Int64.lt_iff_toInt_lt.mpr (by omega)
    refine ⟨fun env' after => ?_, fun past => absurd future (Int64.not_lt.mpr past), fun _ => ?_⟩
    · rw [seen, or_iff_right, Int64.lt_iff_toInt_lt, sum]
      exact Int64.not_le.mpr (Int64.lt_of_le_of_lt clock later)
    · exact ⟨_, recorded.reply_pttl, by rw [toInt_timeLeft clock later]; omega⟩
  · obtain ⟨positive, past⟩ := expressible
    have gone : ∀ env' : Env, env.nowMs ≤ env'.nowMs → ¬ KeySeen ctx env' after key asker := by
      intro env' after
      rw [seen, not_or, Int64.not_le, Int64.not_lt]
      exact ⟨positive, Int64.le_trans past after⟩
    refine ⟨fun env' after => iff_of_false (gone env' after) ?_,
      fun _ => gone env (Int64.le_refl _), fun ahead => absurd ahead future⟩
    have amount_le : amount.toInt ≤ 0 := Int64.le_iff_toInt_le.mp (Int64.not_lt.mp future)
    have := Int.mul_nonpos_of_nonpos_of_nonneg amount_le scaled.le
    have := Int64.le_iff_toInt_le.mp after
    omega

/-- After a successful request the deadline is exact for those who ask if and only if it can be
expressed and they look at it. -/
theorem exact_deadline_iff {unit : TimeUnit} (sets : SetsDeadline key request amount unit)
    (clock : 0 ≤ request.env.nowMs)
    (succeeded : request.reply ctx store = .ok (deadlineSet request.command)) :
    ∃ type, (ctx.lookupMeta (request.after ctx store) key).bind recordType = some type ∧
      ∀ asker, ExactDeadline ctx key request.env amount unit.ms (request.after ctx store) asker ↔
        Expressible request.env.nowMs amount unit.ms ∧ asker.heeds type = true := by
  have recorded := recordedDeadline_of_success sets succeeded
  obtain ⟨type, typed, seen⟩ := recorded.seen
  refine ⟨type, typed, fun asker => ⟨fun exact => ?_, fun ⟨expressible, heeds⟩ => ?_⟩⟩
  · refine ⟨recorded.expressible_of_exact clock unit.ms_pos exact fun shown =>
      (seen asker _).mpr fun _ => shown, ?_⟩
    by_contra ignored
    exact recorded.heeds_of_exact clock unit.ms_pos exact fun later =>
      (seen asker later).mpr fun heeds => absurd heeds ignored
  · exact recorded.exact_of_expressible clock unit.ms_pos expressible fun later =>
      (seen asker later).trans ⟨fun shown => shown heeds, fun shown _ => shown⟩

def briefString : Request :=
  ⟨.set, [ascii "k", ascii "v", ascii "PX", ascii "1"], .plain 5⟩

/-- It is there at its first millisecond and gone at the next, except for `EXISTS`. -/
theorem exact_deadline_of_millisecond :
    (∀ asker, ExactDeadline .plain (ascii "k") (.plain 5) 1 1 (briefString.after .plain .empty)
      asker ↔ asker ≠ .exists') ∧
    ([⟨.get, [ascii "k"], .plain 5⟩, ⟨.pttl, [ascii "k"], .plain 5⟩, ⟨.get, [ascii "k"], .plain 6⟩,
      ⟨.exists', [ascii "k"], .plain 6⟩] : List Request).map
        (Request.reply .plain (briefString.after .plain .empty)) =
      [.ok (.bulkString (some (ascii "v"))), .ok (.integer 1), .ok (.bulkString none),
        .ok (.integer 1)] := by
  refine ⟨fun asker => ?_, by decide⟩
  obtain ⟨type, typed, exact⟩ := @exact_deadline_iff .plain (ascii "k") .empty 1 briefString
    .milliseconds (.set (show SetOption.readAll _ = .ok ([] ++ [_]) from rfl) (List.nil_subset _))
      (by decide)
    (by decide)
  obtain rfl : type = .string := Option.some.inj (typed.symm.trans (by decide))
  refine (exact asker).trans ?_
  cases asker <;> unfold Expressible <;> decide

/-- A deadline before the beginning of the time, in 2023. -/
def pastDeadline : Request := ⟨.expire, [ascii "k", ascii "-1700000001"], .plain 1700000000000⟩

/-- A deadline that overflows. -/
def farDeadline : Request :=
  ⟨.set, [ascii "k", ascii "v", ascii "EX", ascii "9223372036854776"], .plain 1700000000000⟩

/-- A hash for five milliseconds. -/
def hashDeadline : Request := ⟨.pexpire, [ascii "h", ascii "5"], .plain 10⟩

/-- Neither of the first two is kept, for whoever asks, and the third is not by the hash. -/
theorem inexact_deadlines :
    (pastDeadline.reply .plain (farDeadline.after .plain .empty) = .ok (.integer 1) ∧
      ∀ asker, ¬ ExactDeadline .plain (ascii "k") pastDeadline.env (-1700000001) 1000
        (pastDeadline.after .plain (farDeadline.after .plain .empty)) asker) ∧
    (farDeadline.reply .plain .empty = .ok (.simpleString "OK") ∧
      ∀ asker, ¬ ExactDeadline .plain (ascii "k") farDeadline.env 9223372036854776 1000
        (farDeadline.after .plain .empty) asker) ∧
    let held := Request.after .plain .empty ⟨.hset, [ascii "h", ascii "f", ascii "v"], .plain 9⟩
    hashDeadline.reply .plain held = .ok (.integer 1) ∧
      Request.reply .plain (hashDeadline.after .plain held)
        ⟨.hget, [ascii "h", ascii "f"], .plain 15⟩ =
        .ok (.bulkString (some (ascii "v"))) := by
  have replied : pastDeadline.reply .plain (farDeadline.after .plain .empty) = .ok (.integer 1) ∧
      farDeadline.reply .plain .empty = .ok (.simpleString "OK") := by decide
  have sets : SetsDeadline (ascii "k") pastDeadline (-1700000001) .seconds := .expire (by decide)
  have sets' : SetsDeadline (ascii "k") farDeadline 9223372036854776 .seconds :=
    .set (show SetOption.readAll _ = .ok ([] ++ [_]) from rfl) (List.nil_subset _)
  have past := recordedDeadline_of_success sets replied.1
  have far := recordedDeadline_of_success sets' replied.2
  refine ⟨⟨replied.1, fun asker exact => ?_⟩, ⟨replied.2, fun asker exact => ?_⟩,
    by decide⟩
  · obtain ⟨type, -, seen⟩ := past.seen
    exact absurd (past.expressible_of_exact (by decide) (by decide) exact
      fun shown => (seen asker _).mpr fun _ => shown) (by unfold Expressible; decide)
  · obtain ⟨type, -, seen⟩ := far.seen
    exact absurd (far.expressible_of_exact (by decide) (by decide) exact
      fun shown => (seen asker _).mpr fun _ => shown) (by unfold Expressible; decide)

end Exactness

section Updates

variable {request : Request} {n deadline : Int64} {after : Store}

inductive UpdatesString (key : Bytes) : Request → Prop
  | incr (env : Env) : UpdatesString key ⟨.incr, [key], env⟩
  | decr (env : Env) : UpdatesString key ⟨.decr, [key], env⟩
  | append (suffix : Bytes) (env : Env) : UpdatesString key ⟨.append, [key, suffix], env⟩

/-- A request updates the string of a live key, and succeeds. -/
structure Updated (ctx : CommandContext) (key : Bytes) (store : Store) (request : Request) :
    Prop where
  updates : UpdatesString key request
  live : KeyVisible ctx request.env store key
  succeeded : ∃ n, request.reply ctx store = .ok (.integer n)

def KeepsTimeToLive (ctx : CommandContext) (key : Bytes) (store : Store) (request : Request) :
    Prop :=
  Updated ctx key store request →
    Request.reply ctx (request.after ctx store) ⟨.pttl, [key], request.env⟩ =
        Request.reply ctx store ⟨.pttl, [key], request.env⟩ ∧
      ∀ later : Env, request.env.nowMs ≤ later.nowMs →
        (KeyVisible ctx later (request.after ctx store) key ↔ KeyVisible ctx later store key)

def MeetsNoDeadline (ctx : CommandContext) (key : Bytes) (store : Store) (request : Request) :
    Prop :=
  Updated ctx key store request → ∀ v, ctx.lookupMeta store key = some v → deadlineOf v ≤ 0

theorem recordType_of_judgeString {now : Int64} {found : Option Bytes}
    (judged : judgeString v now = .ok found) : recordType v = some .string := by
  rw [judgeString, decodeString] at judged
  split_ifs at judged with short
  by_cases other : firstByte v &&& 0x0F ≠ DataType.string.code
  · dsimp only at judged
    rw [if_pos other] at judged
    cases judged
  have text : firstByte v &&& flagsTypeMask = DataType.string.code := not_not.mp other
  rw [recordType, if_pos text, if_neg short]

/-- What is read under a key that has a value is a string. -/
theorem recordType_of_read {found : Option Bytes} {after : Store}
    (stored : ctx.lookupMeta store key = some v)
    (read : exec env (readString ctx key) store = (.ok found, after)) :
    recordType v = some .string := by
  rw [judges_readString env store, stored] at read
  exact recordType_of_judgeString (Prod.mk.inj read).1

theorem recordedDeadline_writeString {after : Store} {payload : Bytes} {reply result : RespValue}
    (ran : exec env (writeString ctx key payload >>= fun _ => pure reply) store =
      (.ok result, after)) :
    RecordedDeadline ctx after key 0 := by
  cases ran
  exact recordedDeadline_putString 0 payload

/-- A successful update has read a string, and writes a string without a deadline. -/
theorem update_cases (updates : UpdatesString key request)
    (ran :
      exec request.env (request.command.run ctx request.args) store = (.ok (.integer n), after)) :
    (∃ found ended, exec request.env (readString ctx key) store = (.ok found, ended)) ∧
      RecordedDeadline ctx after key 0 := by
  have stepped : ∀ {env next} (name : String), exec env (stepInteger ctx name next [key]) store =
        (.ok (.integer n), after) →
      (∃ found ended, exec env (readString ctx key) store = (.ok found, ended)) ∧
        RecordedDeadline ctx after key 0 := by
    intro env next name ran
    rw [stepInteger, ctx.exec_withKeyLock] at ran
    obtain ⟨current, middle, read, ran⟩ := exec_bind_eq_ok ran
    rw [readInteger] at read
    obtain ⟨found, ended, loaded, -⟩ := exec_bind_eq_ok read
    refine ⟨⟨found, ended, loaded⟩, ?_⟩
    cases stepped : next current with
    | none =>
      rw [stepped] at ran
      cases ran
    | some new =>
      rw [stepped] at ran
      exact recordedDeadline_writeString ran
  cases updates with
  | incr => exact stepped "INCR" ran
  | decr => exact stepped "DECR" ran
  | append suffix env =>
    rw [Command.run, Cmd.append, ctx.exec_withKeyLock] at ran
    obtain ⟨found, ended, read, ran⟩ := exec_bind_eq_ok ran
    exact ⟨⟨found, ended, read⟩, recordedDeadline_writeString ran⟩

/-- The records before and after a successful update of a live key. -/
theorem Updated.records (updated : Updated ctx key store request) :
    (∃ v, ctx.lookupMeta store key = some v ∧ RecordedDeadline ctx store key (deadlineOf v)) ∧
      RecordedDeadline ctx (request.after ctx store) key 0 := by
  obtain ⟨updates, live, n, replied⟩ := updated
  obtain ⟨⟨found, ended, read⟩, written⟩ :=
    update_cases updates (Request.returned_of_reply ctx replied nofun)
  refine ⟨?_, written⟩
  cases stored : ctx.lookupMeta store key with
  | none =>
    rw [KeyVisible, keyExists, ctx.exec_getMeta_bind, stored] at live
    cases live
  | some v => exact ⟨v, rfl, v, .string, stored, recordType_of_read stored read, rfl⟩

/-- An update keeps the time to live if and only if there was no deadline to keep. -/
theorem keepsTimeToLive_iff (store : Store) (request : Request) :
    KeepsTimeToLive ctx key store request ↔ MeetsNoDeadline ctx key store request := by
  refine forall_congr' fun updated => ?_
  obtain ⟨⟨v, stored, before⟩, after⟩ := updated.records
  constructor
  · rintro ⟨-, visible⟩ v' stored'
    obtain rfl := Option.some.inj (stored.symm.trans stored')
    by_contra dated
    -- At its deadline the record before has expired, and the one after has not.
    obtain ⟨later, there⟩ := exists_env (deadlineOf v)
    rcases before.visible_iff.mp updated.live with past | ahead
    · exact dated past
    · have seen := (visible later (there ▸ Int64.le_of_lt ahead)).mp
        (after.visible_iff.mpr (.inl (Int64.le_refl 0)))
      rcases before.visible_iff.mp seen with past | ahead
      · exact dated past
      · exact Int64.lt_irrefl (there ▸ ahead)
  · intro undated
    have none : deadlineOf v ≤ 0 := undated v stored
    refine ⟨?_, fun later _ => ?_⟩
    · rw [after.reply_pttl, before.reply_pttl, timeLeft, timeLeft, if_neg (Int64.not_lt.mpr none)]
      rfl
    · rw [after.visible_iff, before.visible_iff]
      exact iff_of_true (.inl (Int64.le_refl 0)) (.inl none)

/-- In every run of requests, every update keeps the time to live of the key if and only if
every update meets a record without a deadline. -/
theorem update_keeps_time_to_live_iff (start : Store) (requests : List Request) :
    AtEveryStep (fun store request => request.after ctx store) (KeepsTimeToLive ctx key)
      start requests ↔
      AtEveryStep (fun store request => request.after ctx store) (MeetsNoDeadline ctx key) start
        requests := by
  refine forall_congr' fun n => forall_congr' fun request => forall_congr' fun _ => ?_
  exact keepsTimeToLive_iff _ request

/-- A counter for a hundred seconds. -/
def timedCounter : Request := ⟨.set, [ascii "c", ascii "1", ascii "EX", ascii "100"], .plain 5⟩

/-- Counting makes it stay for ever. -/
theorem counting_drops_deadline :
    ¬ AtEveryStep (fun store request => Request.after .plain store request)
      (KeepsTimeToLive .plain (ascii "c")) .empty
        [timedCounter, ⟨.incr, [ascii "c"], .plain 7⟩] := by
  intro keeps
  have shown : timedCounter.reply .plain .empty = .ok (deadlineSet timedCounter.command) ∧
      Request.reply .plain (timedCounter.after .plain .empty) ⟨.incr, [ascii "c"], .plain 7⟩ =
        .ok (.integer 2) := by decide
  have sets : SetsDeadline (ascii "c") timedCounter 100 .seconds :=
    .set (show SetOption.readAll _ = .ok ([] ++ [_]) from rfl) (List.nil_subset _)
  have before := recordedDeadline_of_success sets shown.1
  have updated : Updated .plain (ascii "c") (timedCounter.after .plain .empty)
      ⟨.incr, [ascii "c"], .plain 7⟩ :=
    ⟨.incr _, before.visible_iff.mpr (.inr (by decide)), 2, shown.2⟩
  have same := updated.records.2.reply_pttl.symm.trans (keeps 1 _ rfl updated).1
  exact absurd (same.trans before.reply_pttl) (by decide)

end Updates

end Kvdb
