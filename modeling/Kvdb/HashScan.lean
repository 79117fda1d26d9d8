import Kvdb.HashFields

/-!
# Iteration over a hash

`HSCAN` returns a page of a hash and a cursor, the hexadecimal text of the last
element key of the page. A client that passes each cursor back iterates over the
hash, while others add and remove fields. The iteration moves through the fields in
byte order and never goes back, so it returns no field twice, and misses only fields
that were not there all the time.
-/

namespace Kvdb

open Data Semantics Cmd

variable {ctx : CommandContext} {key : Bytes} {store : Store} {env : Env} {meta' : Metadata}

section Cursors

/-- The two digits of a byte are text, and denote the byte. -/
theorem hexPair_hexDigit (byte : UInt8) :
    hexPair (hexDigit (byte / 16)) (hexDigit (byte % 16)) = some byte ∧
      hexDigit (byte / 16) < 0x80 ∧ hexDigit (byte % 16) < 0x80 := by
  have digits : ∀ n : Fin 256,
      hexPair (hexDigit (UInt8.ofFin n / 16)) (hexDigit (UInt8.ofFin n % 16)) =
          some (UInt8.ofFin n) ∧
        hexDigit (UInt8.ofFin n / 16) < 0x80 ∧ hexDigit (UInt8.ofFin n % 16) < 0x80 := by
    decide +kernel
  exact digits byte.toFin

theorem isContinuation_of_lt {byte : UInt8} (plain : byte < 0x80) :
    isContinuation byte = false := by
  have plain' : ∀ n : Fin 256, UInt8.ofFin n < 0x80 → isContinuation (UInt8.ofFin n) = false := by
    decide +kernel
  exact plain' byte.toFin plain

theorem isUtf8_of_forall_lt {text : Bytes} (plain : ∀ byte ∈ text, byte < 0x80) :
    isUtf8 text = true := by
  induction text with
  | nil => rfl
  | cons first text ih =>
    rw [List.forall_mem_cons] at plain
    cases text with
    | nil => simpa [isUtf8] using plain.1
    | cons second text =>
      unfold isUtf8
      rw [if_pos plain.1]
      exact ih plain.2

/-- The digits of a key. -/
def hexText (data : Bytes) : Bytes :=
  data.flatMap fun byte => [hexDigit (byte / 16), hexDigit (byte % 16)]

theorem hexText_plain (data : Bytes) : ∀ byte ∈ hexText data, byte < 0x80 := by
  intro digit member
  obtain ⟨byte, -, inside⟩ := List.mem_flatMap.mp member
  obtain ⟨-, high, low⟩ := hexPair_hexDigit byte
  simp only [List.mem_cons, List.not_mem_nil, or_false] at inside
  rcases inside with rfl | rfl
  · exact high
  · exact low

theorem length_hexText (data : Bytes) : (hexText data).length = 2 * data.length := by
  induction data with
  | nil => rfl
  | cons byte data ih =>
    have step : hexText (byte :: data) =
        hexDigit (byte / 16) :: hexDigit (byte % 16) :: hexText data := rfl
    rw [step, List.length_cons, List.length_cons, ih, List.length_cons]
    omega

theorem hexPairs_hexText (data : Bytes) : hexPairs (hexText data) = .ok (some data) := by
  induction data with
  | nil => rfl
  | cons byte data ih =>
    obtain ⟨pair, high, -⟩ := hexPair_hexDigit byte
    have next : (hexText data).head?.any isContinuation = false := by
      cases shape : hexText data with
      | nil => rfl
      | cons digit digits =>
        have plain := hexText_plain data digit (by simp [shape])
        simpa using isContinuation_of_lt plain
    have step : hexText (byte :: data) =
        hexDigit (byte / 16) :: hexDigit (byte % 16) :: hexText data := rfl
    rw [step, hexPairs, isContinuation_of_lt high, next, pair, ih]
    rfl

/-- A cursor denotes the key it was made of. -/
theorem decodeCursor_encodeCursor (data : Bytes) :
    decodeCursor (encodeCursor data) = .ok (some data) := by
  unfold encodeCursor
  split_ifs with empty
  · subst empty
    rfl
  · have even : (hexText data).length = 2 * data.length := length_hexText data
    have some_ : 0 < data.length := List.length_pos_iff.mpr empty
    have text : ¬ (hexText data = [] ∨ hexText data = ascii "0") := by
      rintro (none | zero)
      · rw [none, List.length_nil] at even
        omega
      · rw [zero] at even
        have one : (ascii "0").length = 1 := by decide
        omega
    have pairs : ¬ (hexText data).length % 2 ≠ 0 := by omega
    change decodeCursor (hexText data) = _
    rw [decodeCursor, if_neg text, if_neg pairs, hexPairs_hexText]

theorem isUtf8_encodeCursor (data : Bytes) : isUtf8 (encodeCursor data) = true := by
  unfold encodeCursor
  split_ifs with empty
  · decide
  · exact isUtf8_of_forall_lt (hexText_plain data)

/-- Only the cursor of the beginning is `0`. -/
theorem encodeCursor_eq_zero {data : Bytes} : encodeCursor data = ascii "0" ↔ data = [] := by
  constructor
  · intro zero
    have decoded := decodeCursor_encodeCursor data
    rw [zero] at decoded
    exact (Option.some.inj (Except.ok.inj decoded)).symm
  · rintro rfl
    rfl

end Cursors

section Pages

variable {cursor start : Bytes} {options : List Bytes} {count : ℕ}

/-- `HSCAN` with the cursor of a start key. -/
theorem exec_hscan (text : isUtf8 cursor = true)
    (decoded : decodeCursor cursor = .ok (some start))
    (counts : hscanCount options = pure count) :
    exec env (Cmd.hscan ctx (key :: cursor :: options)) store =
      match ctx.hashMeta store key with
      | .error fault => (.error fault, store)
      | .ok none => (.ok (.array [.bulkString (some (ascii "0")), .array []]), store)
      | .ok (some meta') => exec env (do
          let page ← prefixScanPage .subkey (ctx.subKey key meta'.version []) start count
          let entries ← pushFields ctx page.1 []
          return .array [.bulkString (some (encodeCursor (page.2.getD []))), .array entries])
          store := by
  rw [Cmd.hscan, if_neg (not_not.mpr text)]
  simp only [counts, decoded]
  rw [exec_pure_bind, exec_ofExcept_ok_bind, exec_bind, exec_readHashMeta]
  rcases ctx.hashMeta store key with _ | (_ | _) <;> rfl

def fieldReplies (fields : List Entry) : List RespValue :=
  fields.flatMap fun e => [.bulkString (some e.1), .bulkString (some e.2)]

theorem exec_pushFields {v : UInt64} (short : key.length < 2 ^ 32) (fields : List Entry)
    (result : List RespValue) :
    exec env (pushFields ctx (fields.map fun e => (ctx.subKey key v e.1, e.2)) result) store =
      (.ok (result ++ fieldReplies fields), store) := by
  induction fields generalizing result with
  | nil =>
    rw [fieldReplies, List.flatMap_nil, List.append_nil]
    rfl
  | cons field fields ih =>
    rw [List.map_cons, pushFields, pushField, ctx.parseSubkey_subKey _ _ short,
      exec_pure_bind, ih]
    simp [fieldReplies]

/-- The fields behind a bound, in byte order. -/
def fieldsAfter (ctx : CommandContext) (key : Bytes) (v : UInt64) (bound : Option Bytes)
    (store : Store) : List Entry :=
  (elements ctx .subkey key v store).filter fun e => bound.all (· < e.1)

def startKey (ctx : CommandContext) (key : Bytes) (v : UInt64) (bound : Option Bytes) : Bytes :=
  bound.elim [] (ctx.subKey key v)

theorem position_fieldsAfter (bound : Option Bytes) {v : UInt64} :
    Position store .subkey (ctx.subKey key v []) (startKey ctx key v bound)
      ((fieldsAfter ctx key v bound store).map fun e => (ctx.subKey key v e.1, e.2)) := by
  cases bound with
  | none =>
    have all : fieldsAfter ctx key v none store = elements ctx .subkey key v store := by
      simp [fieldsAfter]
    rw [all, ← behind_eq_elements]
    exact .first
  | some last =>
    have ahead : (fieldsAfter ctx key v (some last) store).map
        (fun e => (ctx.subKey key v e.1, e.2)) =
        entriesAfter (ctx.subKey key v last) (store.behind .subkey (ctx.subKey key v [])) := by
      rw [behind_eq_elements, entriesAfter, List.filter_map, fieldsAfter]
      congr 1
      refine List.filter_congr fun e _ => ?_
      simp
    rw [ahead]
    exact .resume (ctx.subKey_ne_nil _ _ _) (ctx.subKey_prefix_iff.mpr ⟨last, rfl⟩)

/-- The last field of a page, if there are more. -/
def nextBound (count : ℕ) (ahead : List Entry) : Option Bytes :=
  if count < ahead.length then (ahead.take count).getLast?.map Prod.fst else none

def HashAt (ctx : CommandContext) (key : Bytes) (v : UInt64) (store : Store) : Prop :=
  ∃ meta', ctx.hashMeta store key = .ok (some meta') ∧ meta'.version = v

/-- A call of `HSCAN` behind a bound returns the next fields, and the cursor of the
last one if there are more. -/
theorem HashAt.reply_hscan {v : UInt64} (hash : HashAt ctx key v store)
    (short : key.length < 2 ^ 32) (counts : hscanCount options = pure count)
    (positive : 0 < count) (small : count ≤ 2 ^ 32) (bound : Option Bytes) :
    let ahead := fieldsAfter ctx key v bound store
    Request.reply ctx store
        ⟨.hscan, key :: encodeCursor (startKey ctx key v bound) :: options, env⟩ =
      .ok (.array [.bulkString (some (encodeCursor (startKey ctx key v (nextBound count ahead)))),
        .array (fieldReplies (ahead.take count))]) := by
  intro ahead
  obtain ⟨meta', loaded, rfl⟩ := hash
  have page : exec env (prefixScanPage .subkey (ctx.subKey key meta'.version [])
      (startKey ctx key meta'.version bound) count) store = _ :=
    exec_prefixScanPage (position_fieldsAfter bound) positive
      (small.trans (show 2 ^ 32 ≤ maxPageLimit by decide))
  refine @Request.reply_eq_ok ctx store store _ _ ?_
  rw [Command.run, exec_hscan (isUtf8_encodeCursor _) (decodeCursor_encodeCursor _) counts, loaded]
  refine (exec_bind_ok page).trans ?_
  simp only [pageOf, ← List.map_take]
  rw [exec_bind_ok (exec_pushFields short _ [])]
  have next : (if count < (ahead.map fun e => (ctx.subKey key meta'.version e.1, e.2)).length then
      ((ahead.take count).map fun e =>
        (ctx.subKey key meta'.version e.1, e.2)).getLast?.map Prod.fst else none).getD [] =
      startKey ctx key meta'.version (nextBound count ahead) := by
    rw [List.length_map, List.getLast?_map, nextBound]
    split_ifs with more
    · cases (ahead.take count).getLast? <;> rfl
    · rfl
  rw [next]
  rfl

end Pages

section Updates

variable {v : UInt64}

theorem ofType_of_hashMeta (loaded : ctx.hashMeta store key = .ok (some meta')) :
    meta'.OfType .hash := by
  unfold CommandContext.hashMeta at loaded
  cases found : ctx.lookupMeta store key with
  | none => simp [found] at loaded
  | some value =>
    simp only [found, decodeAndCheckHash] at loaded
    cases checked : checkMetadata .hash "invalid metadata encoding" value with
    | error fault => simp [checked, Except.map] at loaded
    | ok record =>
      simp only [checked, Except.map, Except.ok.injEq, Option.some.injEq] at loaded
      exact loaded ▸ (checkMetadata_eq_ok checked).2.2

theorem hashAt_of_recorded (recorded : Recorded ctx key meta' store) (typed : meta'.OfType .hash)
    (version : meta'.version = v) : HashAt ctx key v store := by
  refine ⟨meta', ?_, version⟩
  rw [CommandContext.hashMeta, recorded.lookup]
  simp only [decodeAndCheckHash,
    checkMetadata_encodeMetadata typed.typed (by decide) typed.normal, Except.map]

theorem recorded_write_append {batch : WriteBatch} :
    Recorded ctx key meta'
      (store.write (batch ++ [.put .metadata (ctx.metaKey key) (encodeMetadata meta')])) := by
  rw [Store.write_append]
  exact recorded_put

/-- `HSET` keeps the version of a hash. -/
theorem HashAt.hset (hash : HashAt ctx key v store) (args : List Bytes) :
    HashAt ctx key v (exec env (Cmd.hset ctx (key :: args)) store).2 := by
  obtain ⟨meta', loaded, rfl⟩ := hash
  have typed := ofType_of_hashMeta loaded
  match args with
  | [] | [_] => exact ⟨meta', loaded, rfl⟩
  | field :: value :: rest =>
    rw [Cmd.hset]
    split_ifs with odd
    · exact ⟨meta', loaded, rfl⟩
    · have base : ctx.hashBase env store key = .ok meta' := by
        rw [CommandContext.hashBase, loaded]
        rfl
      rw [exec_bind_ok (exec_ensureHashMeta.trans (by rw [base])), exec_bind_ok (exec_hsetLoop ..)]
      change HashAt ctx key meta'.version (store.write (_ ++ [_]))
      exact hashAt_of_recorded recorded_write_append (typed.resize _) rfl

/-- So does `HDEL`, even if it deletes the last field. -/
theorem HashAt.hdel (hash : HashAt ctx key v store) (args : List Bytes) :
    HashAt ctx key v (exec env (Cmd.hdel ctx (key :: args)) store).2 := by
  obtain ⟨meta', loaded, rfl⟩ := hash
  have typed := ofType_of_hashMeta loaded
  match args with
  | [] => exact ⟨meta', loaded, rfl⟩
  | field :: rest =>
    obtain ⟨size, -, ran⟩ := @exec_hdelLoop ctx key store env (field :: rest) [] 0 meta'
    rw [Cmd.hdel, exec_bind_ok (exec_readHashMeta.trans (by rw [loaded]))]
    simp only
    rw [exec_bind_ok ran]
    simp only [List.nil_append, Int64.zero_add]
    split_ifs with some_
    · exact hashAt_of_recorded recorded_write_append (typed.resize size) rfl
    · -- Without the record the batch deletes elements only.
      have kept : ∀ place, (store.write (deleteElements ctx key meta'.version
          (storedNames ctx key meta'.version store (field :: rest)))).get .metadata place =
          store.get .metadata place := by
        intro place
        refine store.get_write_of_forall_ne fun op inside => ?_
        obtain ⟨name, -, rfl⟩ := List.mem_map.mp inside
        rintro ⟨⟨⟩, -⟩
      refine ⟨meta', ?_, rfl⟩
      have same : ctx.hashMeta (store.write (deleteElements ctx key meta'.version
          (storedNames ctx key meta'.version store (field :: rest)))) key =
            ctx.hashMeta store key := by
        rw [CommandContext.hashMeta, CommandContext.lookupMeta, kept, kept]
        rfl
      exact same.trans loaded

end Updates

section Iteration

/-- An iteration: the store, the cursor to pass next, and the pages so far, each with
the store of its call. -/
structure Iteration where
  store : Store
  cursor : Bytes
  pages : List (Store × List Entry)

/-- What happens during an iteration: an update, or the next call. -/
inductive IterationEvent where
  | update (request : Request)
  | call (options : List Bytes) (env : Env)

/-- The fields and values in a reply. -/
def pairsOf : List RespValue → List Entry
  | .bulkString (some field) :: .bulkString (some value) :: rest => (field, value) :: pairsOf rest
  | _ => []

theorem pairsOf_fieldReplies (fields : List Entry) : pairsOf (fieldReplies fields) = fields := by
  induction fields with
  | nil => rfl
  | cons field fields ih =>
    have step : fieldReplies (field :: fields) =
        .bulkString (some field.1) :: .bulkString (some field.2) :: fieldReplies fields := rfl
    rw [step, pairsOf, ih]

namespace Iteration

variable (ctx key)

/-- The client passes the cursor and keeps the one it gets. A reply that is no page
leaves it where it is. -/
def step (it : Iteration) : IterationEvent → Iteration
  | .update request => { it with store := request.after ctx it.store }
  | .call options env =>
    match Request.reply ctx it.store ⟨.hscan, key :: it.cursor :: options, env⟩ with
    | .ok (.array [.bulkString (some cursor), .array entries]) =>
      ⟨it.store, cursor, it.pages ++ [(it.store, pairsOf entries)]⟩
    | _ => it

def start (store : Store) : Iteration := ⟨store, ascii "0", []⟩

/-- The last call has returned the cursor `0`. -/
def Finished (it : Iteration) : Prop := it.pages ≠ [] ∧ it.cursor = ascii "0"

/-- An update sets or deletes fields of the hash. A call asks for a page of up to
`2 ^ 32` fields. -/
def Permitted (it : Iteration) : IterationEvent → Prop
  | .update request => request.command ∈ [Command.hset, .hdel] ∧ request.args.head? = some key
  | .call options _ => ¬ it.Finished ∧
      ∃ count, 1 ≤ count ∧ count ≤ 2 ^ 32 ∧ hscanCount options = pure count

variable {ctx key} {v : UInt64} {it : Iteration}

def returned (it : Iteration) : List Entry := it.pages.flatMap Prod.snd

/-- The field has been there at every call. -/
def Lasting (ctx : CommandContext) (key : Bytes) (v : UInt64) (it : Iteration) (field : Bytes) :
    Prop :=
  ∀ page ∈ it.pages, page.1.get .subkey (ctx.subKey key v field) ≠ none

/-- What holds all along: the calls have found the hash, and returned fields it had
then, none twice. They are those up to a bound, the cursor, or all of them. -/
structure Sound (ctx : CommandContext) (key : Bytes) (v : UInt64) (it : Iteration) : Prop where
  hash : HashAt ctx key v it.store
  paged : ∀ page ∈ it.pages, HashAt ctx key v page.1
  stored : ∀ page ∈ it.pages, ∀ e ∈ page.2, page.1.get .subkey (ctx.subKey key v e.1) = some e.2
  nodup : (it.returned.map Prod.fst).Nodup
  place : (∃ bound : Option Bytes, it.cursor = encodeCursor (startKey ctx key v bound) ∧
      (bound = none → it.pages = []) ∧ (∀ last ∈ bound, last ∈ it.returned.map Prod.fst) ∧
      (∀ e ∈ it.returned, ∃ last ∈ bound, e.1 ≤ last) ∧
      ∀ field, (∃ last ∈ bound, field ≤ last) → it.Lasting ctx key v field →
        field ∈ it.returned.map Prod.fst) ∨
    it.Finished ∧ ∀ field, it.Lasting ctx key v field → field ∈ it.returned.map Prod.fst

theorem sound_start (hash : HashAt ctx key v store) : (start store).Sound ctx key v where
  hash := hash
  paged := nofun
  stored := nofun
  nodup := List.nodup_nil
  place := .inl ⟨none, rfl, fun _ => rfl, nofun, nofun, nofun⟩

/-- Updates of the hash change nothing of that. -/
theorem Sound.update (sound : it.Sound ctx key v) {request : Request}
    (listed : request.command ∈ [Command.hset, .hdel]) (onKey : request.args.head? = some key) :
    (it.step ctx key (.update request)).Sound ctx key v := by
  refine ⟨?_, sound.paged, sound.stored, sound.nodup, sound.place⟩
  obtain ⟨command, args, env⟩ := request
  change HashAt ctx key v (Request.after ctx it.store ⟨command, args, env⟩)
  rw [Request.after_eq]
  match args, onKey with
  | _ :: args, rfl =>
    simp only [List.mem_cons, List.not_mem_nil, or_false] at listed
    rcases listed with rfl | rfl
    · exact sound.hash.hset args
    · exact sound.hash.hdel args

variable {bound : Option Bytes} {options : List Bytes} {count : ℕ}

theorem mem_fieldsAfter {e : Entry} : e ∈ fieldsAfter ctx key v bound store ↔
    store.get .subkey (ctx.subKey key v e.1) = some e.2 ∧ ∀ last ∈ bound, last < e.1 := by
  rw [fieldsAfter, List.mem_filter, mem_elements]
  cases bound <;> simp

theorem fieldsAfter_ordered (ctx : CommandContext) (key : Bytes) (v : UInt64) (bound : Option Bytes)
    (store : Store) : (fieldsAfter ctx key v bound store).Pairwise fun a b => a.1 < b.1 :=
  (elements_ordered ctx .subkey key v store).filter _

/-- A call appends the next fields and moves the cursor to the last of them. -/
theorem step_call (short : key.length < 2 ^ 32) (hash : HashAt ctx key v it.store)
    (cursor : it.cursor = encodeCursor (startKey ctx key v bound))
    (counts : hscanCount options = pure count) (positive : 1 ≤ count) (small : count ≤ 2 ^ 32) :
    let ahead := fieldsAfter ctx key v bound it.store
    it.step ctx key (.call options env) =
      ⟨it.store, encodeCursor (startKey ctx key v (nextBound count ahead)),
        it.pages ++ [(it.store, ahead.take count)]⟩ := by
  intro ahead
  have replied := @HashAt.reply_hscan _ _ _ env _ _ _ hash short counts positive small bound
  rw [← cursor] at replied
  simp only [Iteration.step, replied, pairsOf_fieldReplies]
  rfl

/-- The fields of the next page are none of those returned before. -/
theorem nodup_append_fields {before fields : List Entry}
    (nodup : (before.map Prod.fst).Nodup) (upTo : ∀ e ∈ before, ∃ last ∈ bound, e.1 ≤ last)
    (ordered : fields.Pairwise fun a b => a.1 < b.1)
    (beyond : ∀ e ∈ fields, ∀ last ∈ bound, last < e.1) :
    ((before ++ fields).map Prod.fst).Nodup := by
  rw [List.map_append, List.nodup_append]
  refine ⟨nodup, List.pairwise_map.mpr (ordered.imp ne_of_lt), ?_⟩
  intro name inside name' inside' same
  obtain ⟨e, member, rfl⟩ := List.mem_map.mp inside
  obtain ⟨e', member', rfl⟩ := List.mem_map.mp inside'
  obtain ⟨last, bounded, below⟩ := upTo e member
  exact absurd (same ▸ beyond e' member' last bounded) (not_lt.mpr below)

/-- A call finds all fields up to its new cursor. -/
theorem Sound.call (sound : it.Sound ctx key v) (short : key.length < 2 ^ 32)
    (unfinished : ¬ it.Finished) (counts : hscanCount options = pure count)
    (positive : 1 ≤ count) (small : count ≤ 2 ^ 32) :
    (it.step ctx key (.call options env)).Sound ctx key v := by
  obtain ⟨bound, cursor, -, -, upTo, complete⟩ := sound.place.resolve_right fun done =>
    unfinished done.1
  rw [step_call short sound.hash cursor counts positive small]
  have ordered := fieldsAfter_ordered ctx key v bound it.store
  have member : ∀ e, e ∈ fieldsAfter ctx key v bound it.store ↔ _ := fun e => mem_fieldsAfter
  generalize fieldsAfter ctx key v bound it.store = ahead at ordered member
  have taken : ∀ e ∈ ahead.take count, e ∈ ahead := fun e => List.mem_of_mem_take
  have returned : ∀ cursor, Iteration.returned
      ⟨it.store, cursor, it.pages ++ [(it.store, ahead.take count)]⟩ =
        it.returned ++ ahead.take count := by
    simp [Iteration.returned]
  -- A field that has been there at every call was there at the earlier ones and at this.
  have lasting : ∀ cursor field, Lasting ctx key v
      ⟨it.store, cursor, it.pages ++ [(it.store, ahead.take count)]⟩ field →
        it.Lasting ctx key v field ∧
        ((∃ last ∈ bound, field ≤ last) ∨ field ∈ ahead.map Prod.fst) := by
    intro cursor field there
    refine ⟨fun page inside => there page (List.mem_append_left _ inside), ?_⟩
    by_contra neither
    rw [not_or] at neither
    obtain ⟨value, stored⟩ := Option.ne_none_iff_exists'.mp
      (there (it.store, ahead.take count) (by simp))
    refine neither.2 (List.mem_map.mpr ⟨(field, value), (member _).mpr ⟨stored, ?_⟩, rfl⟩)
    exact fun last bounded => not_le.mp fun below => neither.1 ⟨last, bounded, below⟩
  refine ⟨sound.hash, ?_, ?_, ?_, ?_⟩
  · intro page inside
    rcases List.mem_append.mp inside with earlier | new
    · exact sound.paged page earlier
    · rw [List.mem_singleton.mp new]
      exact sound.hash
  · intro page inside e returned
    rcases List.mem_append.mp inside with earlier | new
    · exact sound.stored page earlier e returned
    · obtain rfl := List.mem_singleton.mp new
      exact ((member e).mp (taken e returned)).1
  · rw [returned]
    exact nodup_append_fields sound.nodup upTo (ordered.sublist (List.take_sublist count ahead))
      fun e inside => ((member e).mp (taken e inside)).2
  · by_cases more : count < ahead.length
    · -- The page is full, and its last field is the new bound.
      have full : ahead.take count ≠ [] := by
        rw [ne_eq, List.take_eq_nil_iff, not_or]
        exact ⟨by omega, List.ne_nil_of_length_pos (by omega)⟩
      obtain ⟨before, last, page⟩ := (List.eq_nil_or_concat (ahead.take count)).resolve_left full
      rw [List.concat_eq_append] at page
      have split : ahead = before ++ last :: ahead.drop count := by
        conv_lhs => rw [← List.take_append_drop count ahead, page]
        simp
      have inside : last ∈ ahead := by rw [split]; simp
      have sorted := ordered
      rw [split, List.pairwise_append, List.pairwise_cons] at sorted
      refine .inl ⟨some last.1, ?_, nofun, ?_, ?_, ?_⟩
      · simp [nextBound, more, page]
      · rintro _ ⟨⟩
        rw [returned, page]
        simp
      · rw [returned]
        intro e member'
        refine ⟨last.1, rfl, ?_⟩
        rcases List.mem_append.mp member' with earlier | new
        · obtain ⟨old, bounded, below⟩ := upTo e earlier
          exact below.trans (((member last).mp inside).2 old bounded).le
        · rw [page] at new
          rcases List.mem_append.mp new with early | final
          · exact (sorted.2.2 e early last List.mem_cons_self).le
          · rw [List.mem_singleton.mp final]
      · rintro field ⟨_, ⟨⟩, below⟩ there
        rw [returned, List.map_append, List.mem_append]
        obtain ⟨there', old | new⟩ := lasting _ field there
        · exact .inl (complete field old there')
        · obtain ⟨e, found, rfl⟩ := List.mem_map.mp new
          rw [← List.take_append_drop count ahead] at found
          rcases List.mem_append.mp found with now | later
          · exact .inr (List.mem_map_of_mem now)
          · exact absurd (sorted.2.1.1 e later) (not_lt.mpr below)
    · -- The page holds all there is, and the iteration ends.
      refine .inr ⟨⟨by simp, ?_⟩, fun field there => ?_⟩
      · rw [nextBound, if_neg more]
        rfl
      · rw [returned, List.take_of_length_le (not_lt.mp more), List.map_append, List.mem_append]
        obtain ⟨there', old | new⟩ := lasting _ field there
        · exact .inl (complete field old there')
        · exact .inr new

theorem Sound.step (sound : it.Sound ctx key v) (short : key.length < 2 ^ 32)
    {event : IterationEvent} (permitted : it.Permitted key event) :
    (it.step ctx key event).Sound ctx key v := by
  cases event with
  | update request => exact sound.update permitted.1 permitted.2
  | call options env =>
    obtain ⟨unfinished, count, positive, small, counts⟩ := permitted
    exact sound.call short unfinished counts positive small

end Iteration

variable {v : UInt64} {events : List IterationEvent} {it : Iteration}

theorem hashFields_of_hashAt (hash : HashAt ctx key v store) :
    hashFields ctx store key = elements ctx .subkey key v store := by
  obtain ⟨meta', loaded, rfl⟩ := hash
  rw [hashFields, loaded]

/-- An iteration over a hash, between any updates: every call is answered with a
page, no field is returned twice, every returned pair was in the hash at its call,
and at the end every field that was there at all calls has been returned once. A call
whose page leaves fields behind does not return the cursor `0`. -/
theorem hscan_iterates (short : key.length < 2 ^ 32) (hash : HashAt ctx key v store)
    (run : Run (Iteration.step ctx key) (Iteration.Permitted key) (.start store) events it) :
    (it.returned.map Prod.fst).Nodup ∧
    (∀ page ∈ it.pages, ∀ e ∈ page.2, e ∈ hashFields ctx page.1 key) ∧
    (it.Finished → ∀ field,
      (∀ page ∈ it.pages, field ∈ (hashFields ctx page.1 key).map Prod.fst) →
      (it.returned.map Prod.fst).count field = 1) ∧
    ∀ options env, it.Permitted key (.call options env) → ∃ cursor fields,
      Request.reply ctx it.store ⟨.hscan, key :: it.cursor :: options, env⟩ =
        .ok (.array [.bulkString (some cursor), .array (fieldReplies fields)]) ∧
      ((∃ e ∈ hashFields ctx it.store key, (∀ r ∈ it.returned, r.1 < e.1) ∧ e ∉ fields) →
        cursor ≠ ascii "0") := by
  have sound : it.Sound ctx key v :=
    run.invariant (Iteration.sound_start hash) fun _ _ permitted held => held.step short permitted
  refine ⟨sound.nodup, fun page inside e returned => ?_, fun finished field there => ?_, ?_⟩
  · rw [hashFields_of_hashAt (sound.paged page inside), mem_elements]
    exact sound.stored page inside e returned
  · have lasting : it.Lasting ctx key v field := by
      intro page inside absent
      have stored := there page inside
      rw [hashFields_of_hashAt (sound.paged page inside)] at stored
      obtain ⟨e, member, rfl⟩ := List.mem_map.mp stored
      rw [mem_elements.mp member] at absent
      cases absent
    refine List.count_eq_one_of_mem sound.nodup ?_
    rcases sound.place with ⟨bound, cursor, unstarted, -⟩ | ⟨-, complete⟩
    · -- The cursor of a bound is not the one of a finished iteration.
      cases bound with
      | none => exact absurd (unstarted rfl) finished.1
      | some last =>
        have zero := cursor.symm.trans finished.2
        exact absurd (encodeCursor_eq_zero.mp zero) (ctx.subKey_ne_nil _ _ _)
    · exact complete field lasting
  · rintro options env ⟨unfinished, count, positive, small, counts⟩
    obtain ⟨bound, cursor, -, known, -⟩ := sound.place.resolve_right fun done => unfinished done.1
    have replied := @HashAt.reply_hscan _ _ _ env _ _ _ sound.hash short counts positive small bound
    rw [← cursor] at replied
    refine ⟨_, _, replied, ?_⟩
    rintro ⟨e, stored, behind, left⟩ zero
    have member : e ∈ fieldsAfter ctx key v bound it.store := by
      rw [hashFields_of_hashAt sound.hash, mem_elements] at stored
      refine Iteration.mem_fieldsAfter.mpr ⟨stored, fun last bounded => ?_⟩
      obtain ⟨r, returned, rfl⟩ := List.mem_map.mp (known last bounded)
      exact behind r returned
    -- A full page has a last field, whose cursor is another.
    have all : ¬ count < (fieldsAfter ctx key v bound it.store).length := by
      intro more
      rw [nextBound, if_pos more] at zero
      obtain ⟨last, shape⟩ : ∃ last, ((fieldsAfter ctx key v bound it.store).take count).getLast? =
          some last := by
        refine Option.ne_none_iff_exists'.mp fun none => ?_
        rw [List.getLast?_eq_none_iff, List.take_eq_nil_iff] at none
        rcases none with zero | empty
        · omega
        · rw [empty] at member
          cases member
      rw [shape] at zero
      exact ctx.subKey_ne_nil _ _ _ (encodeCursor_eq_zero.mp zero)
    exact left (by rwa [List.take_of_length_le (not_lt.mp all)])

/-- Three fields in pages of two. The second is deleted after the first page. -/
theorem hscan_iterates_of_three :
    let store := Request.after .plain .empty
      ⟨.hset, ["h", "a", "1", "b", "2", "c", "3"].map ascii, .plain 1⟩
    let pages : List Bytes := [ascii "COUNT", ascii "2"]
    let events : List IterationEvent :=
      [.call pages (.plain 2), .update ⟨.hdel, [ascii "h", ascii "b"], .plain 3⟩,
        .call pages (.plain 4)]
    let it := events.foldl (Iteration.step .plain (ascii "h")) (.start store)
    it.Finished ∧
      it.returned = [(ascii "a", ascii "1"), (ascii "b", ascii "2"), (ascii "c", ascii "3")] ∧
      (it.returned.map Prod.fst).count (ascii "c") = 1 := by
  intro store pages events it
  have hash : HashAt .plain (ascii "h") (Env.plain 1).version store :=
    ⟨{ Metadata.new .hash (Env.plain 1).version with size := 3 }, by decide, rfl⟩
  have counts : hscanCount pages = pure 2 := rfl
  have run : Run (Iteration.step .plain (ascii "h")) (Iteration.Permitted (ascii "h"))
      (.start store)
      events it := by
    refine run_foldl _ fun n inside => ?_
    have small : n < 3 := inside
    interval_cases n
    · exact ⟨fun finished => finished.1 rfl, 2, by decide, by decide, counts⟩
    · exact ⟨by decide, rfl⟩
    · refine ⟨fun finished => absurd finished.2 ?_, 2, by decide, by decide, counts⟩
      decide
  have cursor : it.cursor = ascii "0" := by decide
  have called : it.pages.length = 2 := by decide
  have finished : it.Finished := ⟨List.ne_nil_of_length_pos (by omega), cursor⟩
  refine ⟨finished, by decide, ?_⟩
  refine (hscan_iterates (by decide) hash run).2.2.1 finished (ascii "c") ?_
  decide

end Iteration

end Kvdb
