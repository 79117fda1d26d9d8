import Kvdb.Command.Observation
import Kvdb.StreamRanges

/-!
# Counted ranges of streams

`XRANGE` with a count stops as soon as it has that many entries. A paging loop that stops
early fetches the same pages as the one that goes on, as far as it goes, so the entries
it has found are the first ones of the whole range. The counter is a machine word that is
lowered before it is compared with zero: a count of zero is as good as `2 ^ 64`.
-/

namespace Kvdb

open Data Semantics Cmd

section Shortcuts

variable {α β γ : Type}

/-- Take a step for each item until one breaks off. -/
def walk (step : β → α → ForInStep β) : List α → β → ForInStep β
  | [], acc => .yield acc
  | item :: items, acc =>
    match step acc item with
    | .done acc => .done acc
    | .yield acc => walk step items acc

theorem forEach_pure (step : β → α → ForInStep β) (items : List α) (acc : β) :
    forEach (fun acc item => return step acc item) items acc = pure (walk step items acc) := by
  induction items generalizing acc with
  | nil => rfl
  | cons item items ih =>
    rw [forEach, pure_bind, walk]
    cases step acc item with
    | done acc => rfl
    | yield acc => exact ih acc

/-- How far two walks over the same items are: both go on alike, both have ended, or only
the second one has. -/
inductive Abreast (alike held leads : β → γ → Prop) : ForInStep β → ForInStep γ → Prop
  | both {a : β} {b : γ} (same : alike a b) : Abreast alike held leads (.yield a) (.yield b)
  | ended {a : β} {b : γ} (led : leads a b) : Abreast alike held leads (.done a) (.done b)
  | cut {a : β} {b : γ} (hold : held a b) : Abreast alike held leads (.yield a) (.done b)

/-- The second body goes along with the first one and may break off earlier. What it has then
is related to all that the first one can still reach. -/
structure Shortcut (step : β → α → ForInStep β) (short : γ → α → ForInStep γ)
    (alike held leads : β → γ → Prop) : Prop where
  turn : ∀ {a b}, alike a b → ∀ item, Abreast alike held leads (step a item) (short b item)
  kept : ∀ {a b}, held a b → ∀ item, held (step a item).value b
  last : ∀ {a b}, alike a b → leads a b
  final : ∀ {a b}, held a b → leads a b

variable {step : β → α → ForInStep β} {short : γ → α → ForInStep γ}
  {alike held leads : β → γ → Prop}
  {a : β} {b : γ}

theorem Shortcut.walk_kept (shortcut : Shortcut step short alike held leads) (hold : held a b)
    (items : List α) : held (walk step items a).value b := by
  induction items generalizing a with
  | nil => exact hold
  | cons item items ih =>
    have next := shortcut.kept hold item
    rw [walk]
    cases taken : step a item with
    | done a' =>
      rw [taken] at next
      exact next
    | yield a' =>
      rw [taken] at next
      exact ih next

theorem Shortcut.walk_abreast (shortcut : Shortcut step short alike held leads) (same : alike a b)
    (items : List α) : Abreast alike held leads (walk step items a) (walk short items b) := by
  induction items generalizing a b with
  | nil => exact .both same
  | cons item items ih =>
    have turn := shortcut.turn same item
    rw [walk, walk]
    generalize step a item = s, short b item = t at turn
    cases turn with
    | both same => exact ih same
    | ended led => exact .ended led
    | @cut a b hold =>
      have rest := shortcut.walk_kept hold items
      dsimp only
      cases walked : walk step items a with
      | done a' =>
        rw [walked] at rest
        exact .ended (shortcut.final rest)
      | yield a' =>
        rw [walked] at rest
        exact .cut rest

variable {env : Env} {store after : Store} {page : Bytes → Prog (List α × Option Bytes)}
  {rounds : ℕ}
  {start : Bytes} {final : β}

/-- What is left to do behind a page, given the loop for the next ones. -/
def afterPage (items : List α) (next : Option Bytes) (loop : Bytes → β → Prog β) :
    ForInStep β → Prog β
  | .done acc => pure acc
  | .yield acc =>
    if items.isEmpty then pure acc
    else match next with
      | some key => loop key acc
      | none => pure acc

/-- One round of a paging loop. -/
theorem exec_pagedLoop_succ {items : List α} {next : Option Bytes}
    (fetched : exec env (page start) store = (.ok (items, next), store))
    (step : β → α → ForInStep β) (rounds : ℕ) (acc : β) :
    exec env (pagedLoop page (fun acc item => return step acc item) (rounds + 1) start acc) store =
      exec env (afterPage items next (pagedLoop page (fun acc item => return step acc item) rounds)
        (walk step items acc)) store := by
  rw [pagedLoop, exec_bind_ok fetched]
  cases items with
  | nil => rfl
  | cons item items =>
    dsimp only
    rw [forEach_pure, exec_pure_bind]
    cases walk step (item :: items) acc with
    | done acc => rfl
    | yield acc => cases next <;> rfl

/-- A paging loop that ends has fetched its first page. -/
theorem pagedLoop_succ_eq_ok (pages : ∀ start, ReadOnly (page start))
    (ran : exec env (pagedLoop page (fun acc item => return step acc item) (rounds + 1) start a)
      store = (.ok final, after)) :
    ∃ items next, exec env (page start) store = (.ok (items, next), store) ∧
      exec env (afterPage items next (pagedLoop page (fun acc item => return step acc item) rounds)
        (walk step items a)) store = (.ok final, after) := by
  rcases @ReadOnly.exec_cases _ _ env store (pages start) with ⟨⟨items, next⟩, fetched⟩
    | ⟨fault, failed⟩
  · exact ⟨items, next, fetched, (exec_pagedLoop_succ fetched step rounds a).symm.trans ran⟩
  · rw [pagedLoop, exec_bind_error failed] at ran
    cases ran

/-- Behind a page the loop is over, or goes on. -/
theorem afterPage_cases {items : List α} {next : Option Bytes} {loop : Bytes → β → Prog β}
    (ran : exec env (afterPage items next loop (.yield a)) store = (.ok final, after)) :
    final = a ∨ ∃ key, exec env (loop key a) store = (.ok final, after) := by
  simp only [afterPage] at ran
  split_ifs at ran
  · cases ran
    exact .inl rfl
  · cases next with
    | none =>
      cases ran
      exact .inl rfl
    | some key => exact .inr ⟨key, ran⟩

/-- Whatever a paging loop still does, it keeps what every step keeps. -/
theorem Shortcut.pagedLoop_kept (shortcut : Shortcut step short alike held leads)
    (pages : ∀ start, ReadOnly (page start)) (hold : held a b)
    (ran : exec env (pagedLoop page (fun acc item => return step acc item) rounds start a) store =
      (.ok final, after)) : held final b := by
  induction rounds generalizing start a with
  | zero => cases ran
  | succ rounds ih =>
    obtain ⟨items, next, -, ran⟩ := pagedLoop_succ_eq_ok pages ran
    have hold' := shortcut.walk_kept hold items
    cases walked : walk step items a with
    | done a' =>
      rw [walked] at ran hold'
      cases ran
      exact hold'
    | yield a' =>
      rw [walked] at ran hold'
      rcases afterPage_cases ran with rfl | ⟨key, ran⟩
      · exact hold'
      · exact ih hold' ran

/-- A paging loop that may break off earlier ends if the other one does. -/
theorem Shortcut.exec_pagedLoop (shortcut : Shortcut step short alike held leads)
    (pages : ∀ start, ReadOnly (page start)) (same : alike a b)
    (ran : exec env (pagedLoop page (fun acc item => return step acc item) rounds start a) store =
      (.ok final, after)) :
    ∃ found,
      exec env (pagedLoop page (fun acc item => return short acc item) rounds start b) store =
      (.ok found, store) ∧ leads final found := by
  induction rounds generalizing start a b with
  | zero => cases ran
  | succ rounds ih =>
    obtain ⟨items, next, fetched, ran⟩ := pagedLoop_succ_eq_ok pages ran
    rw [exec_pagedLoop_succ fetched]
    have abreast := shortcut.walk_abreast same items
    generalize walk step items a = s, walk short items b = t at abreast ran
    cases abreast with
    | @both a b same =>
      simp only [afterPage] at ran ⊢
      split_ifs at ran ⊢
      · cases ran
        exact ⟨b, rfl, shortcut.last same⟩
      · cases next with
        | none =>
          cases ran
          exact ⟨b, rfl, shortcut.last same⟩
        | some key => exact ih same ran
    | @ended a b led =>
      cases ran
      exact ⟨b, rfl, led⟩
    | @cut a b hold =>
      -- The other loop goes on, from where everything is related.
      refine ⟨b, rfl, shortcut.final ?_⟩
      rcases afterPage_cases ran with rfl | ⟨key, ran⟩
      · exact hold
      · exact shortcut.pagedLoop_kept pages hold ran

end Shortcuts

section Counts

variable {ctx : CommandContext} {key : Bytes} {env : Env} {store : Store} {first last : EntryId}
  {startArg endArg : Bytes} {n : ℕ}

/-- The number of entries after which a counter is used up. From zero it wraps around. -/
def countLimit (n : ℕ) : ℕ := if n = 0 then 2 ^ 64 else n

/-- The counted walk has the same entries so far and counts those that are missing. -/
structure Counting (limit : ℕ) (a b : List RespValue × Option ℕ) : Prop where
  free : a.2 = none
  same : b.1 = a.1
  counted : b.2 = some 0 ∧ a.1 = [] ∧ limit = 2 ^ 64 ∨
    ∃ k, 0 < k ∧ b.2 = some k ∧ k + a.1.length = limit

/-- The counted walk has the first entries, of which there are enough. -/
structure CountReached (limit : ℕ) (a b : List RespValue × Option ℕ) : Prop where
  free : a.2 = none
  enough : limit ≤ a.1.length
  taken : b.1 = a.1.take limit

theorem Counting.length_le {limit : ℕ} {a b : List RespValue × Option ℕ}
    (counting : Counting limit a b) :
    a.1.length ≤ limit := by
  rcases counting.counted with ⟨-, nothing, -⟩ | ⟨k, -, -, total⟩
  · simp [nothing]
  · omega

/-- The counter is lowered for an entry. -/
theorem Counting.push {limit : ℕ} {a b : List RespValue × Option ℕ} (counting : Counting limit a b)
    (shown : RespValue) :
    ∃ k, b.2 = some k ∧ (if k = 0 then 2 ^ 64 - 1 else k - 1) + (a.1 ++ [shown]).length =
      limit := by
  rcases counting.counted with ⟨counter, nothing, rfl⟩ | ⟨k, positive, counter, total⟩
  · exact ⟨0, counter, by simp [nothing]⟩
  · refine ⟨k, counter, ?_⟩
    rw [if_neg positive.ne', List.length_append, List.length_singleton]
    omega

/-- `XRANGE` with a count is a shortcut of the one without. -/
theorem shortcut_xrangeBody (first last : EntryId) (limit : ℕ) :
    Shortcut (xrangeBody first last) (xrangeBody first last) (Counting limit) (CountReached limit)
      fun a b => b.1 = a.1.take limit where
  turn := by
    rintro ⟨result, free⟩ ⟨result', counter⟩ counting entry
    obtain rfl : free = none := counting.free
    obtain rfl : result' = result := counting.same
    rw [xrangeBody, xrangeBody]
    dsimp only
    split_ifs with early beyond
    · exact .both counting
    · exact .ended (List.take_of_length_le counting.length_le).symm
    · obtain ⟨k, rfl, total⟩ := counting.push (buildEntryResp entry)
      dsimp only
      generalize (if k = 0 then 2 ^ 64 - 1 else k - 1) = left at total
      split_ifs with used
      · rw [used, Nat.zero_add] at total
        exact .cut ⟨rfl, total.ge, (List.take_of_length_le total.le).symm⟩
      · exact .both ⟨rfl, rfl, .inr ⟨left, Nat.pos_of_ne_zero used, rfl, total⟩⟩
  kept := by
    rintro ⟨result, free⟩ b filled entry
    obtain rfl : free = none := filled.free
    rw [xrangeBody]
    dsimp only
    split_ifs with early beyond
    · exact filled
    · exact filled
    · refine ⟨rfl, ?_, ?_⟩
      · exact filled.enough.trans (by simp [ForInStep.value])
      · rw [filled.taken]
        exact (List.take_append_of_le_length filled.enough).symm
  last counting := by
    rw [counting.same, List.take_of_length_le counting.length_le]
  final filled := filled.taken

theorem readOnly_decodeEntries (items : List Entry) : ReadOnly (decodeEntries ctx items) := by
  induction items with
  | nil => exact readOnly_pure _
  | cons item items ih =>
    unfold decodeEntries
    split
    · exact readOnly_raise _
    · split
      · exact readOnly_raise _
      · exact ih.bind fun _ => readOnly_pure _

theorem readOnly_iterEntriesPage (v : UInt64) (start : Bytes) :
    ReadOnly (iterEntriesPage ctx key v start) :=
  (readOnly_prefixScanPage _ _ _ _).bind fun _ => (readOnly_decodeEntries _).bind fun _ =>
    readOnly_pure _

/-- A counted walk finds the first entries of the whole one. -/
theorem exec_xrangePages {v : UInt64} {final : List RespValue × Option ℕ} {after : Store}
    (ran : exec env (forEachPage .subkey (iterEntriesPage ctx key v) ([], none)
      fun acc entry => return xrangeBody first last acc entry) store = (.ok final, after)) (n : ℕ) :
    ∃ found, exec env (forEachPage .subkey (iterEntriesPage ctx key v) ([], some n)
      fun acc entry => return xrangeBody first last acc entry) store = (.ok found, store) ∧
      found.1 = final.1.take (countLimit n) := by
  have start : Counting (countLimit n) ([], none) ([], some n) := by
    refine ⟨rfl, rfl, ?_⟩
    rw [countLimit]
    split_ifs with zero
    · exact .inl ⟨by rw [zero], rfl, rfl⟩
    · exact .inr ⟨n, Nat.pos_of_ne_zero zero, rfl, rfl⟩
  rw [forEachPage, forEachPageFrom, exec_familySize_bind] at ran ⊢
  exact (shortcut_xrangeBody first last _).exec_pagedLoop
    (fun _ => readOnly_iterEntriesPage v _) start ran

/-- `XRANGE` with a count lists the first entries of the whole range. -/
theorem exec_xrange_count {option value : Bytes} {items : List RespValue} {after : Store}
    (named : isKeyword option "COUNT" = true) (counted : parseU64 value = some n)
    (ran : exec env (Cmd.xrange ctx [key, startArg, endArg]) store = (.ok (.array items), after)) :
    exec env (Cmd.xrange ctx [key, startArg, endArg, option, value]) store =
      (.ok (.array (items.take (countLimit n))), store) := by
  have uncounted : xrangeCount [] = pure none := rfl
  have count : xrangeCount [option, value] = pure (some n) := by
    simp [xrangeCount, named, parseUsize, counted]
  have loaded : exec env (liveStreamMeta ctx key) store = _ := judges_liveStreamMeta env store
  rw [Cmd.xrange, if_neg (by simp)] at ran ⊢
  rw [uncounted] at ran
  rw [count]
  cases low : parseRangeBound startArg with
  | error fault =>
    rw [low, exec_ofExcept_error_bind] at ran
    cases ran
  | ok first =>
    cases high : parseRangeBound endArg with
    | error fault =>
      rw [low, high, exec_ofExcept_ok_bind, exec_ofExcept_error_bind] at ran
      cases ran
    | ok last =>
      rw [low, high, exec_ofExcept_ok_bind, exec_ofExcept_ok_bind, exec_pure_bind, exec_bind,
        loaded] at ran
      rw [exec_ofExcept_ok_bind, exec_ofExcept_ok_bind, exec_pure_bind, exec_bind, loaded]
      generalize (ctx.lookupMeta store key).elim (.ok none) (fun v => judgeStream v env.nowMs) =
        found at ran
      rcases found with fault | (_ | meta')
      · cases ran
      · cases ran
        rw [List.take_nil]
        rfl
      · dsimp only at ran ⊢
        obtain ⟨final, middle, walked, ran⟩ := exec_bind_eq_ok ran
        cases ran
        obtain ⟨found, ended, taken⟩ := exec_xrangePages walked n
        rw [exec_bind_ok ended, ← taken]
        rfl

/-- The reply with a count has the first `n` entries of the reply without if and only if the
count is not zero or there are no entries. -/
theorem xrange_count_iff {option value : Bytes} {items : List RespValue}
    (named : isKeyword option "COUNT" = true) (counted : parseU64 value = some n)
    (replied : Request.reply ctx store ⟨.xrange, [key, startArg, endArg], env⟩ = .ok
      (.array items)) :
    Request.reply ctx store ⟨.xrange, [key, startArg, endArg, option, value], env⟩ =
        .ok (.array (items.take n)) ↔
      n ≠ 0 ∨ items = [] := by
  have ran := Request.returned_of_reply ctx replied nofun
  have shown : Request.reply ctx store ⟨.xrange, [key, startArg, endArg, option, value], env⟩ =
      .ok (.array (items.take (countLimit n))) :=
        Request.reply_eq_ok ctx (exec_xrange_count named counted ran)
  rw [shown, Except.ok.injEq, RespValue.array.injEq, countLimit]
  split_ifs with zero
  · simp [zero, List.take_eq_nil_iff]
  · exact iff_of_true rfl (.inl zero)

def twoEntries : Store :=
  let first : Request := ⟨.xadd, [ascii "s", ascii "5-1", ascii "f", ascii "v"], .plain 7⟩
  let second : Request := ⟨.xadd, [ascii "s", ascii "9-2", ascii "f", ascii "w"], .plain 8⟩
  second.after .plain (first.after .plain .empty)

theorem reply_twoEntries :
    Request.reply .plain twoEntries ⟨.xrange, [ascii "s", ascii "-", ascii "+"], .plain 9⟩ =
      .ok (.array
        [.array [.bulkString (some (ascii "5-1")),
            .array [.bulkString (some (ascii "f")), .bulkString (some (ascii "v"))]],
          .array [.bulkString (some (ascii "9-2")),
            .array [.bulkString (some (ascii "f")), .bulkString (some (ascii "w"))]]]) := by
  decide

/-- The first of two entries. -/
theorem xrange_count_of_one :
    Request.reply .plain twoEntries
        ⟨.xrange, [ascii "s", ascii "-", ascii "+", ascii "count", ascii "1"], .plain 9⟩ =
      .ok (.array [.array [.bulkString (some (ascii "5-1")),
        .array [.bulkString (some (ascii "f")), .bulkString (some (ascii "v"))]]]) := by
  have named : isKeyword (ascii "count") "COUNT" = true := by decide
  have counted : parseU64 (ascii "1") = some 1 := by decide
  exact (xrange_count_iff named counted reply_twoEntries).mpr (.inl one_ne_zero)

/-- A count of zero lists both entries. -/
theorem xrange_count_zero :
    Request.reply .plain twoEntries ⟨.xrange, [ascii "s", ascii "-", ascii "+"], .plain 9⟩ =
        Request.reply .plain twoEntries
          ⟨.xrange, [ascii "s", ascii "-", ascii "+", ascii "COUNT", ascii "0"], .plain 9⟩ ∧
      Request.reply .plain twoEntries
          ⟨.xrange, [ascii "s", ascii "-", ascii "+", ascii "COUNT", ascii "0"], .plain 9⟩ ≠
        .ok (.array []) := by
  decide

end Counts

end Kvdb
