import Kvdb.BitFunction
import Kvdb.Changes
import Kvdb.Expiry.Rewrite

/-!
# Byte ranges of a bitmap

`BITCOUNT` moves both ends of its range into the bitmap before it counts. An end
beyond the last byte loses nothing, but a start beyond it is moved back onto the
last byte, which is then counted although it was not asked for.

No bitmap that commands reach has more than `2 ^ 61` bytes, since an offset is a
machine word. So none of the sizes turns negative in the signed arithmetic.
-/

namespace Kvdb

open Data Semantics Cmd

variable {ctx : CommandContext} {key : Bytes} {store : Store} {env : Env} {meta' : Metadata}

section Sizes

variable {value : Bytes} {batch : WriteBatch}

/-- A metadata value that is no bitmap, or one that offsets can reach. -/
def SmallBitmap (value : Bytes) : Prop :=
  ∀ meta', decodeMetadata value = some meta' → meta'.dataType = some .bitmap →
    meta'.size.toNat ≤ 2 ^ 61

/-- No bitmap of the store reaches further than offsets do. -/
def Store.SmallBitmaps (store : Store) : Prop :=
  ∀ phys value, store.get .metadata phys = some value → SmallBitmap value

theorem smallBitmap_of_valueType (other : valueType value ≠ some .bitmap) : SmallBitmap value := by
  intro meta' decoded typed
  rw [valueType_of_decoded decoded] at other
  exact absurd typed other

theorem smallBitmap_encodeMetadata (known : meta'.OfType .bitmap)
    (small : meta'.size.toNat ≤ 2 ^ 61) :
    SmallBitmap (encodeMetadata meta') := by
  intro found decoded _
  rw [decodeMetadata_encodeMetadata known.typed known.normal] at decoded
  cases decoded
  exact small

theorem RecordOf.smallBitmap {type : DataType} {v : UInt64} (record : RecordOf type v value)
    (other : type ≠ .bitmap) : SmallBitmap value := by
  refine smallBitmap_of_valueType ?_
  rw [record.valueType_eq]
  exact fun same => other (Option.some.inj same)

/-- A new deadline leaves the size. -/
theorem SmallBitmap.withExpire {encoded : Bytes} {expireMs : Int64} (small : SmallBitmap value)
    (changed : Cmd.withExpire value expireMs = .ok encoded) : SmallBitmap encoded := by
  cases redates_of_withExpire changed with
  | text typed =>
    refine smallBitmap_of_valueType ?_
    rw [(valueType_withExpire changed).1, valueType_eq_string.mpr typed]
    decide
  | @record meta' type other decoded flags known =>
    intro found decoded' typed
    rw [@decodeMetadata_encodeMetadata { meta' with expire := expireMs } type known.typed
      known.normal] at decoded'
    cases decoded'
    exact small meta' decoded typed

theorem Store.smallBitmaps_empty : Store.empty.SmallBitmaps := by
  intro phys value stored
  cases stored

theorem Store.SmallBitmaps.write (small : store.SmallBitmaps)
    (puts : ∀ phys value, .put .metadata phys value ∈ batch → SmallBitmap value) :
    (store.write batch).SmallBitmaps := by
  intro phys value stored
  rcases store.get_write_cases batch .metadata phys with ⟨-, same⟩
    | ⟨other, inside, put⟩ | ⟨-, gone⟩
  · exact small phys value (same.symm.trans stored)
  · obtain rfl := Option.some.inj (put.symm.trans stored)
    exact puts phys other inside
  · exact absurd (gone.symm.trans stored) nofun

theorem Store.SmallBitmaps.lookup (small : store.SmallBitmaps)
    (found : ctx.lookupMeta store key = some value) :
    SmallBitmap value := by
  rw [CommandContext.lookupMeta, Option.or_eq_some_iff] at found
  rcases found with own | ⟨-, shared⟩
  · exact small _ _ own
  · split_ifs at shared
    exact small _ _ shared

/-- What a loader finds was stored. -/
theorem liveMeta_eq_some {wanted : DataType} {invalid : String}
    (live : ctx.liveMeta env store wanted invalid key = .ok (some meta')) :
    ∃ value, ctx.lookupMeta store key = some value ∧ decodeMetadata value = some meta' ∧
      meta'.OfType wanted := by
  unfold CommandContext.liveMeta at live
  cases found : ctx.lookupMeta store key with
  | none =>
    rw [found] at live
    cases live
  | some value =>
    rw [found] at live
    cases checked : checkMetadata wanted invalid value with
    | error fault => simp [checked, Except.map] at live
    | ok record =>
      simp only [checked, Except.map, Except.ok.injEq] at live
      split_ifs at live
      cases live
      exact ⟨value, rfl, (checkMetadata_eq_ok checked).2⟩

theorem Store.SmallBitmaps.size_le (small : store.SmallBitmaps)
    (live : ctx.liveMeta env store .bitmap "invalid bitmap metadata" key = .ok (some meta')) :
    meta'.size.toNat ≤ 2 ^ 61 := by
  obtain ⟨value, found, decoded, known⟩ := liveMeta_eq_some live
  exact small.lookup found meta' decoded known.typed

end Sizes

section Writers

variable {batch : WriteBatch} {args : List Bytes}

def SmallIf (sizes : List UInt64) (batch : WriteBatch) : Prop :=
  (∀ size ∈ sizes, size.toNat ≤ 2 ^ 61) →
    ∀ phys value, .put .metadata phys value ∈ batch → SmallBitmap value

theorem SmallIf.append {sizes : List UInt64} {first second : WriteBatch}
    (before : SmallIf sizes first) (behind : SmallIf sizes second) :
    SmallIf sizes (first ++ second) := by
  intro small phys value inside
  rcases List.mem_append.mp inside with inside | inside
  · exact before small phys value inside
  · exact behind small phys value inside

/-- `SETBIT` grows the bitmap up to the byte of its offset. -/
theorem editor_setbit_small :
    Editor (getOrCreateMetadata ctx key) (Metadata.OfType .bitmap)
      (fun meta' => SmallIf [meta'.size])
      (setbit ctx (key :: args)) := by
  match args with
  | [offsetArg, valueArg] =>
    rw [setbit, parseOffset]
    cases parsed : parseU64 offsetArg with
    | none => exact editor_raise (.command "bit offset is not an integer or out of range")
    | some offset =>
      have fits := parseU64_lt parsed
      rw [pure_bind]
      refine .step (viewed_parseBit _).readOnly fun value => .load fun meta' known => ?_
      refine (viewed_readFragment Observer.shares_single _).readOnly.bind_writing fun frag =>
        writing_write ?_
      intro small phys value inside
      rw [List.forall_mem_singleton] at small
      simp only [List.mem_cons, List.not_mem_nil, or_false, BatchOp.put.injEq,
        reduceCtorEq, false_and, true_and] at inside
      rw [inside.2]
      split_ifs
      · refine smallBitmap_encodeMetadata (known.resize _) ?_
        rw [UInt64.toNat_ofNat', Nat.mod_eq_of_lt (by omega)]
        omega
      · exact smallBitmap_encodeMetadata known small
  | [] | [_] | _ :: _ :: _ :: _ => exact editor_raise _

def sourceSizes (sources : List (Bytes × Option Metadata)) : List UInt64 :=
  sources.map fun source => source.2.elim 0 Metadata.size

def resultSize (sources : List (Bytes × Option Metadata)) : ℕ :=
  sources.foldl (fun size source => max size (source.2.elim 0 fun meta' => meta'.size.toNat)) 0

theorem resultSize_le {sources : List (Bytes × Option Metadata)} {bound : ℕ}
    (small : ∀ size ∈ sourceSizes sources, size.toNat ≤ bound) : resultSize sources ≤ bound := by
  have fold : ∀ init ≤ bound, sources.foldl
      (fun size source => max size (source.2.elim 0 fun meta' => meta'.size.toNat))
        init ≤ bound := by
    induction sources with
    | nil => exact fun init within => within
    | cons source rest ih =>
      rw [sourceSizes, List.map_cons, List.forall_mem_cons] at small
      intro init within
      refine ih small.2 _ (max_le within ?_)
      rcases source with ⟨name, none | meta'⟩
      · exact Nat.zero_le _
      · exact small.1
  exact fold 0 (Nat.zero_le _)

theorem reads_bitopLoop_small {sizes : List UInt64} (op : BitOp) (destMeta : Metadata)
    (sources : List (Bytes × Option Metadata)) (maxSize n fragIdx : ℕ) (batch : WriteBatch)
    (gathered : SmallIf sizes batch) :
    Reads (SmallIf sizes) (bitopLoop ctx op key destMeta sources maxSize n fragIdx batch) := by
  induction n generalizing fragIdx batch with
  | zero => exact gathered
  | succ n ih =>
    unfold bitopLoop
    dsimp only
    split_ifs
    · exact ih _ _ gathered
    · refine Program.Respects.bind
        (viewed_resultFragment Observer.aligned_single _ _ _ _).readOnly fun _ _ =>
          ih _ _ (gathered.append ?_)
      intro _ phys value inside
      simp at inside

/-- The result of `BITOP` is no larger than its sources. -/
theorem editor_bitop_small {operation srcKey : Bytes} {srcKeys : List Bytes} :
    Editor (loadSources ctx (srcKey :: srcKeys)) (fun _ => True)
      (fun sources => SmallIf (sourceSizes sources))
      (bitop ctx (operation :: key :: srcKey :: srcKeys)) := by
  have parsed : ReadOnly (parseOperation operation) :=
    ReadOnly.ite (readOnly_pure _) <| ReadOnly.ite (readOnly_pure _) <|
      ReadOnly.ite (readOnly_pure _) ((readOnly_pure _).ite (readOnly_raise _))
  refine .step parsed fun op => Editor.ite (editor_raise _) (.load fun sources _ => ?_)
  refine readOnly_generateVersion.bind_writing fun v => ?_
  have record : SmallIf (sourceSizes sources) [.put .metadata (ctx.metaKey key)
      (encodeMetadata
        { Metadata.new .bitmap v with size := UInt64.ofNat (resultSize sources) })] := by
    intro small phys value inside
    have limit := resultSize_le small
    simp only [List.mem_singleton, BatchOp.put.injEq, true_and] at inside
    rw [inside.2]
    refine smallBitmap_encodeMetadata ((Metadata.new_ofType .bitmap v).resize _) ?_
    rw [UInt64.toNat_ofNat', Nat.mod_eq_of_lt (by omega)]
    exact limit
  refine Writing.ite (writing_write record) ?_
  exact (reads_bitopLoop_small op _ sources _ _ _ _ record).bind_writing
    fun batch gathered => writing_write gathered

/-- What a program goes on with that has loaded a bitmap. -/
private theorem loaded_of_bind {α : Type} {next : Option Metadata → Prog α} {result : α}
    {after : Store}
    (ran : exec env (readBitmapMeta ctx key >>= next) store = (.ok result, after)) :
    ∃ found, ctx.liveMeta env store .bitmap "invalid bitmap metadata" key = .ok found ∧
      exec env (next found) store = (.ok result, after) := by
  obtain ⟨found, middle, read, ran⟩ := exec_bind_eq_ok ran
  obtain ⟨loaded, rfl⟩ := Prod.mk.inj (exec_loadLiveMeta.symm.trans read)
  exact ⟨found, loaded, ran⟩

/-- The sources that are loaded are those that their keys hold. -/
theorem exec_loadSources_cases {keys : List Bytes} {sources : List (Bytes × Option Metadata)}
    (ran : exec env (loadSources ctx keys) store = (.ok sources, store)) :
    List.Forall₂ (fun key source => source.1 = key ∧
      ctx.liveMeta env store .bitmap "invalid bitmap metadata" key = .ok source.2)
        keys sources := by
  induction keys generalizing sources with
  | nil =>
    cases ran
    exact .nil
  | cons key keys ih =>
    obtain ⟨found, loaded, ran⟩ := loaded_of_bind ran
    obtain ⟨others, middle, rest, ran⟩ := exec_bind_eq_ok ran
    cases ran
    exact .cons ⟨rfl, loaded⟩ (ih rest)

theorem Store.SmallBitmaps.sources {keys : List Bytes} {sources : List (Bytes × Option Metadata)}
    (small : store.SmallBitmaps)
    (ran : exec env (loadSources ctx keys) store = (.ok sources, store)) :
    ∀ size ∈ sourceSizes sources, size.toNat ≤ 2 ^ 61 := by
  have held := exec_loadSources_cases ran
  intro size inside
  obtain ⟨source, member, rfl⟩ := List.mem_map.mp inside
  obtain ⟨i, within, rfl⟩ := List.getElem_of_mem member
  obtain ⟨-, loaded⟩ := held.get (held.length_eq ▸ within) within
  rcases found : sources[i].2 with _ | meta'
  · exact Nat.zero_le _
  · exact small.size_le (loaded.trans (congrArg Except.ok found))

end Writers

section Runs

variable {request : Request}

/-- An editor that writes small records leaves the bitmaps small. -/
theorem smallBitmaps_exec {ρ α : Type} {load : Prog ρ} {good : ρ → Prop} {program : Prog α}
    {sizes : ρ → List UInt64} (small : store.SmallBitmaps)
    (editor : Editor load good (fun record => SmallIf (sizes record)) program)
    (loads : Reads good load) (fits : ∀ record, exec env load store = (.ok record, store) →
      ∀ size ∈ sizes record, size.toNat ≤ 2 ^ 61) :
    (exec env program store).2.SmallBitmaps := by
  rcases editor.exec loads fun _ _ _ =>
    SmallIf.append with same | ⟨record, batch, -, ran, puts, after⟩
  · rwa [same]
  · rw [after]
    exact small.write (puts (fits record ran))

theorem smallBitmaps_setbit (small : store.SmallBitmaps) (args : List Bytes) :
    (exec env (Cmd.setbit ctx args) store).2.SmallBitmaps := by
  cases args with
  | nil => exact small
  | cons key args =>
    refine smallBitmaps_exec small editor_setbit_small
      (views_getOrCreateMetadata Observer.shares_single Observer.shares_single).reads
        fun meta' ran => ?_
    rw [List.forall_mem_singleton]
    obtain ⟨found, loaded, ran⟩ := loaded_of_bind ran
    cases found with
    | none =>
      cases ran
      exact Nat.zero_le _
    | some record =>
      cases ran
      exact small.size_le loaded

theorem smallBitmaps_bitop (small : store.SmallBitmaps) (args : List Bytes) :
    (exec env (Cmd.bitop ctx args) store).2.SmallBitmaps := by
  match args with
  | [] | [_] | [_, _] => exact small
  | operation :: key :: srcKey :: srcKeys =>
    exact smallBitmaps_exec small editor_bitop_small
      (viewed_loadSources fun _ _ => Observer.shares_single).readOnly fun sources => small.sources

/-- Requests leave no bitmap larger than offsets reach. -/
theorem Request.smallBitmaps_after (regular : store.Regular) (small : store.SmallBitmaps) :
    (request.after ctx store).SmallBitmaps := by
  by_cases setbit : request.command = .setbit
  · rw [Request.after_eq, setbit]
    exact smallBitmaps_setbit small request.args
  by_cases bitop : request.command = .bitop
  · rw [Request.after_eq, bitop]
    exact smallBitmaps_bitop small request.args
  -- No other command stores the record of a bitmap, apart from its deadline.
  have change := @Request.change ctx store regular request
  generalize request.after ctx store = after at change
  cases change with
  | none => exact small
  | texts texts =>
    refine small.write fun phys value inside => ?_
    obtain ⟨_, -, expire, payload, put⟩ := texts _ inside
    cases put
    refine smallBitmap_of_valueType ?_
    rw [valueType_encodeString]
    decide
  | redated deadline named stored redated =>
    refine small.write fun phys value inside => ?_
    obtain ⟨expireMs, encoded, changed, put⟩ := redated _ inside
    cases put
    exact (small.lookup stored).withExpire changed
  | @added key args type v batch adds named opened additions =>
    have other : type ≠ .bitmap := by
      rintro rfl
      cases command : request.command <;> simp_all [Command.adds]
    refine small.write fun phys value inside => ?_
    have edit := additions.edits _ inside
    cases edit with
    | record record => exact record.smallBitmap other
  | renewed renews => exact absurd renews bitop
  | @removed key value args type meta' batch removes named removal edits =>
    have other : type ≠ .bitmap := by
      rintro rfl
      cases command : request.command <;> simp_all [Command.removes]
    refine small.write fun phys value inside => ?_
    have edit := edits _ inside
    cases edit with
    | record record => exact record.smallBitmap other
  | deleted =>
    intro phys value stored
    rcases @Store.get_foldl_deleted ctx phys request.args .metadata store with gone | same
    · exact absurd (gone.symm.trans stored) nofun
    · exact small phys value (same.symm.trans stored)
  | flushed =>
    intro phys value stored
    simp only [Store.get_without, reduceCtorEq, false_and, if_false] at stored
    split_ifs at stored
    exact small phys value stored

/-- Every store that commands reach has small bitmaps. -/
theorem Store.smallBitmaps_of_runs {requests : List (CommandContext × Request)}
    (run : TenantRuns .empty requests store) : store.SmallBitmaps := by
  have both : store.Regular ∧ store.SmallBitmaps := by
    induction run with
    | refl => exact ⟨Store.regular_empty, Store.smallBitmaps_empty⟩
    | @next _ _ request _ _ held =>
      exact ⟨request.2.regular_after held.1, request.2.smallBitmaps_after held.1 held.2⟩
  exact both.2

end Runs

section Counting

variable {startArg endArg : Bytes} {start stop : Int64}

theorem exec_bitcountRange (first : parseI64? startArg = some start)
    (last : parseI64? endArg = some stop) :
    exec env (bitcountRange [startArg, endArg]) store = (.ok (start, stop), store) := by
  rw [bitcountRange, parseI64, parseI64, first, last]
  rfl

theorem countOnes_le (byte : UInt8) : countOnes byte ≤ 8 :=
  List.countP_le_length.trans_eq List.length_range

/-- A start beyond the last byte selects the last byte, if the end is not before it. -/
theorem onesAmong_beyond {n s e : ℕ} (positive : 0 < n) (beyond : n ≤ s) :
    onesAmong ctx key meta' store ((Finset.range n).filter fun p => min s (n - 1) ≤ p ∧ p ≤ e) =
      if e < n - 1 then 0 else countOnes (storedByte ctx key meta' store (n - 1)) := by
  split_ifs with before
  · refine Finset.sum_eq_zero fun p inside => ?_
    simp only [Finset.mem_filter, Finset.mem_range] at inside
    omega
  · have last : ((Finset.range n).filter fun p => min s (n - 1) ≤ p ∧ p ≤ e) = {n - 1} := by
      ext p
      simp only [Finset.mem_filter, Finset.mem_range, Finset.mem_singleton]
      omega
    rw [last, onesAmong, Finset.sum_singleton]

/-- In every store that the commands of any tenants reach, `BITCOUNT` replies the number
of set bits in the requested bytes of a bitmap if and only if a reply can hold this number
and the range does not begin beyond the last byte and reach to it, unless the last byte is
zero. -/
theorem bitcount_exact_iff {requests : List (CommandContext × Request)}
    (run : TenantRuns .empty requests store)
    (live : ctx.liveMeta env store .bitmap "invalid bitmap metadata" key = .ok (some meta'))
    (nonempty : 0 < meta'.size.toNat) (first : parseI64? startArg = some start)
    (last : parseI64? endArg = some stop) :
    let n := meta'.size.toNat
    let s := byteIndex n start
    let e := byteIndex n stop
    let ones := onesAmong ctx key meta' store ((Finset.range n).filter fun p => s ≤ p ∧ p ≤ e)
    (∃ count : Int64, count.toInt = ones ∧
      Request.reply ctx store ⟨.bitcount, [key, startArg, endArg], env⟩ = .ok (.integer count)) ↔
    ones < 2 ^ 63 ∧
      (s < n ∨ e < n - 1 ∨ countOnes (storedByte ctx key meta' store (n - 1)) = 0) := by
  intro n s e ones
  have limit : n ≤ 2 ^ 61 := (Store.smallBitmaps_of_runs run).size_le live
  have loaded : exec env (readBitmapMeta ctx key) store = (.ok (some meta'), store) :=
    exec_loadLiveMeta.trans (by rw [live])
  let counted := onesAmong ctx key meta' store
    ((Finset.range n).filter fun p => min s (n - 1) ≤ p ∧ p ≤ e)
  have ran : exec env (bitcount ctx [key, startArg, endArg]) store =
      (.ok (.integer (Int64.ofNat counted)), store) :=
    exec_bitcount_of_live loaded (exec_bitcountRange first last) rfl nonempty (by omega)
  have replied : (∃ count : Int64, count.toInt = ones ∧
      Request.reply ctx store ⟨.bitcount, [key, startArg, endArg], env⟩ = .ok (.integer count)) ↔
      (Int64.ofNat counted).toInt = ones := by
    rw [Request.reply_eq_ok ctx ran]
    constructor
    · rintro ⟨count, value, same⟩
      cases same
      exact value
    · exact fun value => ⟨_, value, rfl⟩
  rw [replied]
  rcases Nat.lt_or_ge s n with within | beyond
  · -- The ends of the range select what was requested, and only the reply may wrap around.
    have same : counted = ones := by
      have start : min s (n - 1) = s := by omega
      simp only [counted, ones, start]
    rw [same]
    constructor
    · intro value
      have upper := Int64.toInt_lt (Int64.ofNat ones)
      exact ⟨by omega, .inl within⟩
    · rintro ⟨small, -⟩
      exact Int64.toInt_ofNat_of_lt small
  · have none : ones = 0 := by
      refine Finset.sum_eq_zero fun p inside => ?_
      simp only [Finset.mem_filter, Finset.mem_range] at inside
      omega
    -- A start behind the end is moved to the last byte, which is counted then.
    have moved : counted = if e < n - 1 then 0 else countOnes
        (storedByte ctx key meta' store (n - 1)) :=
      onesAmong_beyond nonempty beyond
    have few := countOnes_le (storedByte ctx key meta' store (n - 1))
    have value : (Int64.ofNat counted).toInt = counted := by
      refine Int64.toInt_ofNat_of_lt ?_
      split_ifs at moved <;> omega
    rw [value, none]
    split_ifs at moved <;> omega

/-- A range within a bitmap of one byte. -/
theorem bitcount_exact_of_one :
    let set : Request := ⟨.setbit, [ascii "b", ascii "3", ascii "1"], .plain 7⟩
    ∃ count : Int64, count.toInt = 1 ∧ Request.reply .plain (set.after .plain .empty)
      ⟨.bitcount, [ascii "b", ascii "-1", ascii "9"], .plain 8⟩ = .ok (.integer count) := by
  intro set
  let meta' : Metadata := { Metadata.new .bitmap (Env.plain 7).version with size := 1 }
  have run : TenantRuns .empty [(.plain, set)] (set.after .plain .empty) := .single trivial
  have live : CommandContext.plain.liveMeta (.plain 8) (set.after .plain .empty) .bitmap
      "invalid bitmap metadata" (ascii "b") = .ok (some meta') := by decide
  have first : parseI64? (ascii "-1") = some (-1) := by decide
  have last : parseI64? (ascii "9") = some 9 := by decide
  obtain ⟨count, value, replied⟩ :=
    (bitcount_exact_iff run live (by decide) first last).mpr (by decide)
  have ones : onesAmong .plain (ascii "b") meta' (set.after .plain .empty)
      ((Finset.range 1).filter fun p => byteIndex 1 (-1) ≤ p ∧ p ≤ byteIndex 1 9) = 1 := by
    decide
  exact ⟨count, value.trans (congrArg Nat.cast ones), replied⟩

/-- The bits from the fifth byte on of a bitmap of one byte: the reply counts the only
byte. -/
theorem bitcount_counts_last_byte :
    let set : Request := ⟨.setbit, [ascii "b", ascii "3", ascii "1"], .plain 7⟩
    let store := set.after .plain .empty
    TenantRuns .empty [(.plain, set)] store ∧
    (∃ meta', CommandContext.plain.liveMeta (.plain 8) store .bitmap "invalid bitmap metadata"
      (ascii "b") = .ok (some meta') ∧ meta'.size = 1) ∧
    Request.reply .plain store ⟨.bitcount, [ascii "b", ascii "4", ascii "9"], .plain 8⟩ =
      .ok (.integer 1) := by
  refine ⟨.single trivial, ⟨_, rfl, ?_⟩, ?_⟩ <;> decide

end Counting

end Kvdb
