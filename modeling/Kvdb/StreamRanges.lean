import Kvdb.Paging
import Kvdb.Protocol.RoundTrip
import Kvdb.StreamIds

/-!
# Ranges of a stream

The entries of a stream are stored in the order of their identifiers, each with its
fields behind their lengths. `XRANGE` walks over them and stops at the first
identifier beyond its range, and `XREAD` walks to the end. Both read every entry back
as it was added.
-/

namespace Kvdb

open Data Semantics Cmd

variable {ctx : CommandContext} {key : Bytes} {store : Store} {env : Env} {meta' : StreamMeta}

section Fields

/-- All strings of a list of fields have lengths of 32 bits. -/
def ShortFields (fields : List (Bytes × Bytes)) : Prop :=
  ∀ pair ∈ fields, pair.1.length < 2 ^ 32 ∧ pair.2.length < 2 ^ 32

/-- A string is read back from behind its length. -/
theorem takeString_append {text : Bytes} (short : text.length < 2 ^ 32) (rest : Bytes) :
    takeString (u32Bytes text.length ++ (text ++ rest)) = some (text, rest) := by
  have width : (u32Bytes text.length).length = 4 := length_u32Bytes _
  have head : (u32Bytes text.length ++ (text ++ rest)).take 4 = u32Bytes text.length :=
    List.take_left' width
  have tail : (u32Bytes text.length ++ (text ++ rest)).drop 4 = text ++ rest :=
    List.drop_left' width
  have long : ¬ (u32Bytes text.length ++ (text ++ rest)).length < 4 := by
    rw [List.length_append, width]
    omega
  have enough : ¬ (u32Bytes text.length ++ (text ++ rest)).length < 4 + text.length := by
    rw [List.length_append, List.length_append, width]
    omega
  rw [takeString, if_neg long]
  simp only [head, beNat_u32Bytes short, if_neg enough, ← List.drop_drop, tail, List.take_left,
    List.drop_left]

theorem decodeFieldsLoop_encodeFields {fields : List (Bytes × Bytes)}
    (short : ShortFields fields) {n : ℕ} (enough : fields.length ≤ n) :
    decodeFieldsLoop n (encodeFields fields) = some fields := by
  induction fields generalizing n with
  | nil => cases n <;> rfl
  | cons pair fields ih =>
    obtain ⟨k, v⟩ := pair
    obtain ⟨n, rfl⟩ : ∃ m, n = m + 1 := ⟨n - 1, by rw [List.length_cons] at enough; omega⟩
    obtain ⟨⟨shortKey, shortValue⟩, short⟩ := List.forall_mem_cons.mp short
    have some : encodeFields ((k, v) :: fields) ≠ [] := by
      intro none
      have width := congrArg List.length none
      simp [encodeFields] at width
    rw [decodeFieldsLoop, if_neg some, encodeFields, takeString_append shortKey]
    simp only [Option.bind_eq_bind, Option.bind_some, takeString_append shortValue]
    rw [ih short (by simpa using enough)]
    rfl

/-- The fields of an entry are read back. -/
theorem decodeFields_encodeFields {fields : List (Bytes × Bytes)} (short : ShortFields fields) :
    decodeFields (encodeFields fields) = some fields := by
  refine decodeFieldsLoop_encodeFields short ?_
  clear short
  induction fields with
  | nil => rfl
  | cons pair fields ih =>
    simp only [encodeFields, List.length_append, length_u32Bytes, List.length_cons]
    omega

end Fields

section Texts

variable {a b : EntryId}

/-- The text of an identifier names it. -/
theorem EntryId.parse_formatId (id : EntryId) : EntryId.parse id.formatId = .ok id := by
  have digits : ∀ byte ∈ renderNat id.ms.toNat, decide (byte ≠ 0x2D) = true := by
    intro byte inside
    have digit := isDigits_renderNat _ byte inside
    rw [decide_eq_true_eq]
    rintro rfl
    exact absurd digit (by decide)
  have word : ∀ n : UInt64, parseIdWord (renderNat n.toNat) = .ok n := by
    intro n
    rw [parseIdWord, parseU64_renderNat n.toNat_lt]
    exact congrArg Except.ok UInt64.ofNat_toNat
  have before : id.formatId.takeWhile (· ≠ 0x2D) = renderNat id.ms.toNat := by
    rw [EntryId.formatId, List.takeWhile_append_of_pos digits]
    simp
  have behind : id.formatId.dropWhile (· ≠ 0x2D) = 0x2D :: renderNat id.seq.toNat := by
    rw [EntryId.formatId, List.dropWhile_append_of_pos digits]
    simp
  have least : id.formatId ≠ ascii "-" := by
    intro same
    rw [same] at before
    exact renderNat_ne_nil _ before.symm
  have greatest : id.formatId ≠ ascii "+" := by
    intro same
    rw [same] at behind
    cases behind
  rw [EntryId.parse, if_neg least, if_neg greatest, behind]
  simp only [before, word]
  rfl

theorem EntryId.formatId_inj (same : a.formatId = b.formatId) : a = b := by
  have parsed := EntryId.parse_formatId a
  rw [same, EntryId.parse_formatId] at parsed
  exact (Except.ok.inj parsed).symm

theorem EntryId.not_lt_self : a.lt a = false := by
  simp [EntryId.lt]

/-- Identifiers are linearly ordered. -/
theorem EntryId.not_lt : (!a.lt b) = b.le a := by
  rw [Bool.eq_iff_iff, Bool.not_eq_true']
  constructor
  · intro early
    by_contra later
    rw [EntryId.lt_of_not_le later] at early
    cases early
  · intro late
    by_contra early
    rw [Bool.not_eq_false] at early
    rw [EntryId.le, Bool.or_eq_true, beq_iff_eq] at late
    have cycle : a.lt a = true := by
      rcases late with late | rfl
      · exact EntryId.lt_trans early late
      · exact early
    rw [EntryId.not_lt_self] at cycle
    cases cycle

end Texts

section Additions

/-- An `XADD` on a key. A version that is drawn for an absent key is a new one. -/
structure AddRequest (ctx : CommandContext) (key : Bytes) (store : Store) (request : Request) :
    Prop where
  listed : request.command = .xadd
  onKey : request.args.head? = some key
  unused : ctx.lookupMeta store key = none → Unused ctx key request.env.version store

variable {entries : List StreamEntry}

/-- The text and the fields of an entry. -/
def StreamEntry.shown (entry : StreamEntry) : Bytes × List (Bytes × Bytes) :=
  (entry.1.formatId, entry.2)

theorem StreamEntry.shown_inj {e e' : StreamEntry} (same : e.shown = e'.shown) : e = e' := by
  obtain ⟨ids, fields⟩ := Prod.mk.inj same
  exact Prod.ext (EntryId.formatId_inj ids) fields

/-- Generating an identifier changes nothing. -/
theorem generateId_ends (spec : Bytes) (meta' : StreamMeta) :
    Program.Ends env.handle (generateId spec meta') store (fun _ after => after = store ∧ True)
      (fun _ after => after = store) := by
  rcases @ReadOnly.exec_cases _ _ env store
    (viewed_generateId Observer.shares_single spec meta').readOnly with
    ⟨id, ran⟩ | ⟨fault, ran⟩
  · exact Program.Ends.of_run ran (fun _ _ => ⟨rfl, trivial⟩) nofun
  · exact Program.Ends.of_run ran nofun fun _ _ => rfl

/-- A request that fails accepts nothing and adds nothing. -/
theorem StreamGrown.add_error {request : Request} {new : List StreamEntry} {fault : Fault}
    (grown : StreamGrown ctx key entries store)
    (accepted : acceptedAdd ctx store request = new.map StreamEntry.shown)
    (failed : exec request.env (request.command.run ctx request.args) store =
      (.error fault, store)) :
    StreamGrown ctx key (entries ++ new) (request.after ctx store) := by
  rw [acceptedAdd_of_error failed] at accepted
  obtain rfl := List.map_eq_nil_iff.mp accepted.symm
  rw [Request.after_eq_of_exec ctx failed, List.append_nil]
  exact grown

/-- A request that accepts an entry with a later identifier than all others adds it. -/
theorem StreamGrown.add_accepted {request : Request} {new : List StreamEntry}
    (grown : StreamGrown ctx key entries store) (allowed : AddRequest ctx key store request)
    (accepted : acceptedAdd ctx store request = new.map StreamEntry.shown)
    (later : ∀ e ∈ entries, ∀ e' ∈ new, e.1.lt e'.1 = true) :
    StreamGrown ctx key (entries ++ new) (request.after ctx store) := by
  obtain ⟨command, args, env⟩ := request
  obtain ⟨rfl, onKey, unused⟩ := allowed
  match args, onKey with
  | [_], rfl | [_, _], rfl => exact grown.add_error accepted rfl
  | key :: spec :: field :: rest, rfl =>
    have ends := @xadd_ends ctx key store env entries spec field rest (fun _ _ => True) grown unused
      fun meta' _ => generateId_ends spec meta'
    obtain ⟨_, after, ran, meta', id, -, -, rfl, grows⟩ | ⟨fault, _, ran, rfl⟩ := ends.outcome
    · obtain ⟨one, rfl⟩ := acceptedAdd_of_ok ran
      obtain ⟨entry, rfl, same⟩ := List.map_eq_singleton_iff.mp (accepted.symm.trans one)
      -- The text that is replied stands for one identifier only.
      obtain rfl : entry = (id, Cmd.pairUp (field :: rest)) := StreamEntry.shown_inj same
      exact grows fun e inside => later e inside _ (List.mem_singleton_self _)
    · exact grown.add_error accepted ran

/-- The stream has the entries that were accepted, if their identifiers grow. -/
theorem StreamGrown.of_accepted {start : Store} {requests : List Request}
    (run : Runs ctx (AddRequest ctx key) start requests store)
    (absent : ctx.lookupMeta start key = none)
    (accepted : acceptedAdds ctx start requests = entries.map StreamEntry.shown)
    (growing : entries.Pairwise fun a b => a.1.lt b.1 = true) :
    StreamGrown ctx key entries store := by
  revert entries
  refine run.invariant_of_steps (fun requests store => ∀ {entries : List StreamEntry},
    acceptedAdds ctx start requests = entries.map StreamEntry.shown →
      entries.Pairwise (fun a b => a.1.lt b.1 = true) → StreamGrown ctx key entries store) ?_ ?_
  · intro entries accepted _
    obtain rfl := List.map_eq_nil_iff.mp accepted.symm
    exact .inl ⟨absent, rfl⟩
  · intro requests state request run allowed held entries accepted growing
    rw [acceptedAdds, run.outputs_concat] at accepted
    obtain ⟨earlier, new, rfl, before, last⟩ := List.append_eq_map_iff.mp accepted
    obtain ⟨growing, -, later⟩ := List.pairwise_append.mp growing
    exact (held before.symm growing).add_accepted allowed last.symm later

end Additions

section Walks

variable {entries : List StreamEntry} {v : UInt64}

/-- The entries of a version are stored, and all their fields are short. -/
structure StoresEntries (ctx : CommandContext) (key : Bytes) (v : UInt64) (store : Store)
    (entries : List StreamEntry) : Prop where
  short : key.length < 2 ^ 32
  stored : elements ctx .subkey key v store = entries.map StreamEntry.stored
  fields : ∀ e ∈ entries, ShortFields e.2

/-- What is read from a stored entry. -/
def decodeEntry (ctx : CommandContext) (e : Entry) : StreamEntry :=
  ((parseEntryIdFromSubkey ctx e.1).getD ⟨0, 0⟩, (decodeFields e.2).getD [])

theorem parseEntryIdFromSubkey_subKey (short : key.length < 2 ^ 32) (id : EntryId) :
    parseEntryIdFromSubkey ctx (ctx.subKey key v id.encode) = some id := by
  have width : ¬ id.encode.length < 16 := by simp [EntryId.encode]
  have ms : wordAt id.encode 0 = u64Bytes id.ms := wordAt_zero (length_u64Bytes _) _
  have seq : wordAt id.encode 8 = u64Bytes id.seq :=
    (wordAt_skip (length_u64Bytes _) _ 0).trans (wordAt_self (length_u64Bytes _))
  rw [parseEntryIdFromSubkey, ctx.parseSubkey_subKey _ _ short]
  simp only [if_neg width, ms, seq, u64OfBytes_u64Bytes]

/-- A page of entries that can all be read. -/
theorem exec_decodeEntries {items : List Entry}
    (readable : ∀ e ∈ items, ∃ entry : StreamEntry, parseEntryIdFromSubkey ctx e.1 = some entry.1 ∧
      decodeFields e.2 = some entry.2) :
    exec env (decodeEntries ctx items) store = (.ok (items.map (decodeEntry ctx)), store) := by
  induction items with
  | nil => rfl
  | cons e items ih =>
    obtain ⟨k, value⟩ := e
    obtain ⟨⟨entry, id, fields⟩, readable⟩ := List.forall_mem_cons.mp readable
    have decoded : decodeEntry ctx (k, value) = entry := by
      rw [decodeEntry, id, fields]
      rfl
    rw [decodeEntries, id]
    simp only [fields]
    rw [exec_bind_ok (ih readable), List.map_cons, decoded]
    rfl

theorem StoresEntries.readable (stores : StoresEntries ctx key v store entries) {e : Entry}
    (inside : e ∈ store.behind .subkey (ctx.subKey key v [])) :
    ∃ entry ∈ entries, parseEntryIdFromSubkey ctx e.1 = some entry.1 ∧
      decodeFields e.2 = some entry.2 := by
  rw [behind_eq_elements, stores.stored, List.map_map] at inside
  obtain ⟨entry, member, rfl⟩ := List.mem_map.mp inside
  exact ⟨entry, member, parseEntryIdFromSubkey_subKey stores.short entry.1,
    decodeFields_encodeFields (stores.fields entry member)⟩

/-- The entries behind the key are read as they were added. -/
theorem StoresEntries.decoded (stores : StoresEntries ctx key v store entries) :
    (store.behind .subkey (ctx.subKey key v [])).map (decodeEntry ctx) = entries := by
  rw [behind_eq_elements, stores.stored, List.map_map, List.map_map]
  conv_rhs => rw [← List.map_id entries]
  refine List.map_congr_left fun entry member => ?_
  have id := @parseEntryIdFromSubkey_subKey ctx key v stores.short entry.1
  have fields := decodeFields_encodeFields (stores.fields entry member)
  simp [decodeEntry, StreamEntry.stored, id, fields]

/-- A walk over a stream meets every entry, page after page. -/
theorem StoresEntries.exec_forEachPage (stores : StoresEntries ctx key v store entries) {β : Type}
    {body : β → StreamEntry → Prog (ForInStep β)}
    (readonly : ∀ acc entry, (exec env (body acc entry) store).2 = store) (acc : β) :
    exec env (forEachPage .subkey (iterEntriesPage ctx key v) acc body) store =
      exec env (forEach body entries acc >>= ForInStep.settle) store := by
  have paged : ∀ start rest, Position store .subkey (ctx.subKey key v []) start rest →
      exec env (iterEntriesPage ctx key v start) store =
        (.ok ((pageOf streamPageLimit rest).1.map (decodeEntry ctx),
          (pageOf streamPageLimit rest).2), store) := by
    intro start rest position
    have readable : ∀ e ∈ (pageOf streamPageLimit rest).1, ∃ entry : StreamEntry,
        parseEntryIdFromSubkey ctx e.1 = some entry.1 ∧ decodeFields e.2 = some entry.2 := by
      intro e inside
      have member := List.mem_of_mem_take inside
      obtain ⟨entry, -, readable⟩ := stores.readable
        (Store.mem_behind.mpr ⟨position.stored member, position.startsWith member⟩)
      exact ⟨entry, readable⟩
    rw [iterEntriesPage, exec_bind_ok (exec_prefixScanPage position (by decide) (by decide)),
      exec_bind_ok (exec_decodeEntries readable)]
    rfl
  rw [Kvdb.exec_forEachPage paged readonly (by decide) (.inl (ctx.subKey_ne_nil _ _ _)),
    stores.decoded]

end Walks

section Ranges

variable {entries : List StreamEntry} {first last : EntryId}

/-- The entries with identifiers between two given ones, these included. -/
def entriesBetween (first last : EntryId) (entries : List StreamEntry) : List StreamEntry :=
  entries.filter fun e => first.le e.1 && e.1.le last

def entriesAfterId (id : EntryId) (entries : List StreamEntry) : List StreamEntry :=
  entries.filter fun e => id.lt e.1

/-- `XRANGE` breaks off at the first identifier beyond its range, as all others are beyond it
too. -/
theorem exec_xrangeWalk (growing : entries.Pairwise fun a b => a.1.lt b.1 = true)
    (result : List RespValue) :
    exec env
      (forEach (fun acc entry => return xrangeBody first last acc entry) entries (result, none)
        >>= ForInStep.settle) store =
      (.ok (result ++ (entriesBetween first last entries).map buildEntryResp, none), store) := by
  induction entries generalizing result with
  | nil => simp [forEach, ForInStep.settle, entriesBetween]
  | cons entry entries ih =>
    obtain ⟨later, growing⟩ := List.pairwise_cons.mp growing
    rw [forEach, bind_assoc, exec_pure_bind]
    have low : first.le entry.1 = !entry.1.lt first := EntryId.not_lt.symm
    have high : entry.1.le last = !last.lt entry.1 := EntryId.not_lt.symm
    cases early : entry.1.lt first with
    | true =>
      have step : xrangeBody first last (result, none) entry = .yield (result, none) := by
        rw [xrangeBody, if_pos early]
      have skipped : entriesBetween first last (entry :: entries) =
          entriesBetween first last entries :=
        List.filter_cons_of_neg (by simp [low, early])
      rw [step, skipped]
      exact ih growing result
    | false =>
      cases beyond : last.lt entry.1 with
      | true =>
        have step : xrangeBody first last (result, none) entry = .done (result, none) := by
          rw [xrangeBody, if_neg (by simp [early]), if_pos beyond]
        have none : entriesBetween first last (entry :: entries) = [] := by
          refine List.filter_eq_nil_iff.mpr (List.forall_mem_cons.mpr ⟨by simp [high, beyond], ?_⟩)
          intro e inside
          have outside : last.lt e.1 = true := EntryId.lt_trans beyond (later e inside)
          have above : e.1.le last = !last.lt e.1 := EntryId.not_lt.symm
          simp [above, outside]
        rw [step, none]
        simp [ForInStep.settle]
      | false =>
        have step : xrangeBody first last (result, none) entry =
            .yield (result ++ [buildEntryResp entry], none) := by
          rw [xrangeBody, if_neg (by simp [early]), if_neg (by simp [beyond])]
        have shown : entriesBetween first last (entry :: entries) =
            entry :: entriesBetween first last entries :=
          List.filter_cons_of_pos (by simp [low, early, high, beyond])
        rw [step, shown, List.map_cons]
        exact (ih growing _).trans (by rw [List.append_assoc, List.singleton_append])

/-- `XREAD` walks to the end of the stream. -/
theorem exec_xreadWalk (entries : List StreamEntry) (id : EntryId) (result : List RespValue) :
    exec env (forEach (fun result entry => return .yield (if entry.1.le id then result
        else result ++ [buildEntryResp entry])) entries result >>= ForInStep.settle) store =
      (.ok (result ++ (entriesAfterId id entries).map buildEntryResp), store) := by
  refine exec_forEach_select (fun result entry => ?_) entries result
  have late : entry.1.le id = !id.lt entry.1 := EntryId.not_lt.symm
  rw [late]
  cases id.lt entry.1 <;> rfl

/-- `XRANGE` lists the entries of its range. -/
theorem StreamGrown.exec_xrange (grown : StreamGrown ctx key entries store)
    (short : key.length < 2 ^ 32) (fields : ∀ e ∈ entries, ShortFields e.2)
    {startArg endArg : Bytes} (from' : parseRangeBound startArg = .ok first)
    (to' : parseRangeBound endArg = .ok last) :
    exec env (Cmd.xrange ctx [key, startArg, endArg]) store =
      (.ok (.array ((entriesBetween first last entries).map buildEntryResp)), store) := by
  rw [Cmd.xrange, if_neg (by decide), from', to', exec_ofExcept_ok_bind, exec_ofExcept_ok_bind]
  rcases grown with ⟨absent, rfl⟩ | ⟨meta', recorded, sized⟩
  · exact exec_bind_ok (exec_liveStreamMeta_of_absent absent)
  · have stores : StoresEntries ctx key meta'.version store entries := ⟨short, sized.stored, fields⟩
    have walked : exec env (forEachPage .subkey (iterEntriesPage ctx key meta'.version) ([], none)
        fun acc entry => return xrangeBody first last acc entry) store =
        (.ok ((entriesBetween first last entries).map buildEntryResp, none), store) :=
      (stores.exec_forEachPage (fun _ _ => rfl) _).trans (exec_xrangeWalk sized.growing [])
    have counted : xrangeCount [] = pure none := rfl
    rw [counted, exec_pure_bind, exec_bind_ok (exec_liveStreamMeta_of_recorded recorded),
      exec_bind_ok walked]
    rfl

/-- What `XREAD` replies about one stream. -/
def readReply (key : Bytes) (shown : List RespValue) : RespValue :=
  .array (if shown = [] then [] else [.array [.bulkString (some key), .array shown]])

/-- `XREAD` lists the entries after its identifier, and a stream only if it has some. -/
theorem StreamGrown.exec_xread (grown : StreamGrown ctx key entries store)
    (short : key.length < 2 ^ 32) (fields : ∀ e ∈ entries, ShortFields e.2) {keyword idArg : Bytes}
    {id : EntryId} (named : isKeyword keyword "STREAMS" = true)
    (after : EntryId.parse idArg = .ok id) :
    exec env (Cmd.xread ctx [keyword, key, idArg]) store =
      (.ok (readReply key ((entriesAfterId id entries).map buildEntryResp)), store) := by
  have looped : exec env (xreadLoop ctx [(key, idArg)]) store =
      (.ok (if (entriesAfterId id entries).map buildEntryResp = [] then []
        else [.array [.bulkString (some key),
          .array ((entriesAfterId id entries).map buildEntryResp)]]), store) := by
    rw [xreadLoop, after, exec_ofExcept_ok_bind]
    rcases grown with ⟨absent, rfl⟩ | ⟨meta', recorded, sized⟩
    · exact exec_bind_ok (exec_liveStreamMeta_of_absent absent)
    · have stores : StoresEntries ctx key meta'.version store entries :=
        ⟨short, sized.stored, fields⟩
      have walked : exec env (forEachPage .subkey (iterEntriesPage ctx key meta'.version) []
          fun result entry => return .yield (if entry.1.le id then result
            else result ++ [buildEntryResp entry])) store =
          (.ok ((entriesAfterId id entries).map buildEntryResp), store) :=
        (stores.exec_forEachPage (fun _ _ => rfl) _).trans (exec_xreadWalk entries id [])
      rw [exec_bind_ok (exec_liveStreamMeta_of_recorded recorded), exec_bind_ok walked,
        xreadLoop, exec_pure_bind]
      split_ifs <;> rfl
  have halves : ([key, idArg].take ([key, idArg].length / 2)).zip
      ([key, idArg].drop ([key, idArg].length / 2)) = [(key, idArg)] := by simp
  rw [Cmd.xread]
  dsimp only
  rw [if_neg (not_not.mpr named), if_neg (by simp), halves]
  exact exec_bind_ok looped

/-- An entry as a reply lists it: the text of its identifier, and its fields and values in
turn. -/
def StreamEntry.listed (entry : StreamEntry) : RespValue :=
  .array [.bulkString (some
      (renderNat entry.1.ms.toNat ++ ascii "-" ++ renderNat entry.1.seq.toNat)),
    .array (entry.2.flatMap fun field => [.bulkString (some field.1), .bulkString (some field.2)])]

theorem buildEntryResp_eq : buildEntryResp = StreamEntry.listed := by
  funext entry
  rw [StreamEntry.listed, List.append_assoc]
  rfl

/-- The entries that `XADD` accepted on a key, starting where the key is absent, are listed
as they were added: `XRANGE` lists those between its bounds and `XREAD` those after its
identifier, however many pages they fill, provided that their identifiers grow and that the
lengths of their fields and values have 32 bits. -/
theorem stream_ranges_exact {start : Store} {requests : List Request}
    (run : Runs ctx (AddRequest ctx key) start requests store)
    (absent : ctx.lookupMeta start key = none) (short : key.length < 2 ^ 32)
    (accepted : acceptedAdds ctx start requests = entries.map StreamEntry.shown)
    (growing : entries.Pairwise fun a b => a.1.lt b.1 = true)
    (fields : ∀ e ∈ entries, ShortFields e.2) (env : Env) :
    (∀ startArg endArg first last, parseRangeBound startArg = .ok first →
      parseRangeBound endArg = .ok last →
      Request.reply ctx store ⟨.xrange, [key, startArg, endArg], env⟩ =
        .ok (.array ((entriesBetween first last entries).map StreamEntry.listed))) ∧
    (∀ keyword idArg id, isKeyword keyword "STREAMS" = true → EntryId.parse idArg = .ok id →
      Request.reply ctx store ⟨.xread, [keyword, key, idArg], env⟩ =
        .ok (readReply key ((entriesAfterId id entries).map StreamEntry.listed))) := by
  rw [← buildEntryResp_eq]
  have grown := StreamGrown.of_accepted run absent accepted growing
  constructor
  · intro startArg endArg first last from' to'
    exact Request.reply_eq_ok ctx (grown.exec_xrange short fields from' to')
  · intro keyword idArg id named after
    exact Request.reply_eq_ok ctx (grown.exec_xread short fields named after)

/-- A stream of two entries. -/
theorem stream_ranges_exact_of_two :
    let first : Request := ⟨.xadd, [ascii "s", ascii "5-1", ascii "f", ascii "v"], .plain 7⟩
    let second : Request := ⟨.xadd, [ascii "s", ascii "9-*", ascii "f", ascii "w"], .plain 8⟩
    let store := second.after .plain (first.after .plain .empty)
    let text (b : String) : RespValue := .bulkString (some (ascii b))
    Request.reply .plain store ⟨.xrange, [ascii "s", ascii "6-", ascii "+"], .plain 9⟩ =
      .ok (.array [.array [text "9-0", .array [text "f", text "w"]]]) ∧
    Request.reply .plain store ⟨.xread, [ascii "streams", ascii "s", ascii "5-1"], .plain 9⟩ =
      .ok (.array [.array [text "s",
        .array [.array [text "9-0", .array [text "f", text "w"]]]]]) := by
  intro first second store text
  let entries : List StreamEntry :=
    [(⟨5, 1⟩, [(ascii "f", ascii "v")]), (⟨9, 0⟩, [(ascii "f", ascii "w")])]
  have present : CommandContext.plain.lookupMeta (first.after .plain .empty)
      (ascii "s") ≠ none := by
    decide
  have run : Runs .plain (AddRequest .plain (ascii "s")) .empty [first, second] store := by
    refine .next (.single ⟨rfl, rfl, fun _ _ _ _ => rfl⟩) ⟨rfl, rfl, fun absent => ?_⟩
    exact absurd absent present
  have accepted : acceptedAdds .plain .empty [first, second] = entries.map StreamEntry.shown := by
    decide
  have fields : ∀ e ∈ entries, ShortFields e.2 := by
    unfold ShortFields
    decide
  have texts : StreamEntry.listed (⟨9, 0⟩, [(ascii "f", ascii "w")]) =
      .array [text "9-0", .array [text "f", text "w"]] := by decide
  obtain ⟨range, read⟩ :=
    stream_ranges_exact run rfl (by decide) accepted (by decide) fields (.plain 9)
  rw [← texts]
  exact ⟨range (ascii "6-") (ascii "+") ⟨6, 0⟩ EntryId.greatest (by decide)
      (by decide),
    read (ascii "streams") (ascii "5-1") ⟨5, 1⟩ (by decide) (by decide)⟩

end Ranges

end Kvdb
