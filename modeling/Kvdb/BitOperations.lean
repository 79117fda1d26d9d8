import Kvdb.BitRanges

/-!
# Bitwise operations on bitmaps

`BITOP` works fragment by fragment. Sources that are absent, fragments that were
never written and fragments that end early all read as zero, so a fragment of the
result depends on the sources at its own positions alone. The result has the size
of the largest source, whatever the operation.
-/

namespace Kvdb

open Data Semantics Cmd

variable {ctx : CommandContext} {key dest : Bytes} {keys : List Bytes} {store : Store} {env : Env}
  {meta' : Metadata} {op : BitOp}

section Reading

/-- The bitmap of a key, if the key holds one. -/
def bitmapOf (ctx : CommandContext) (env : Env) (store : Store) (key : Bytes) : Option Metadata :=
  (ctx.liveMeta env store .bitmap "invalid bitmap metadata" key).toOption.join

/-- The size of a bitmap in bytes. An absent one has none. -/
def bitmapSize (ctx : CommandContext) (env : Env) (store : Store) (key : Bytes) : ℕ :=
  (bitmapOf ctx env store key).elim 0 fun meta' => meta'.size.toNat

/-- The bit of a key at an offset. An absent key has no set bit. -/
def bitAt (ctx : CommandContext) (env : Env) (store : Store) (key : Bytes) (o : ℕ) : Bool :=
  (bitmapOf ctx env store key).elim false fun meta' => storedBit ctx key meta' store o

/-- The key is absent or holds a bitmap. -/
def IsBitmapOrAbsent (ctx : CommandContext) (env : Env) (store : Store) (key : Bytes) : Prop :=
  ∃ found, ctx.liveMeta env store .bitmap "invalid bitmap metadata" key = .ok found

theorem IsBitmapOrAbsent.live (bitmap : IsBitmapOrAbsent ctx env store key) :
    ctx.liveMeta env store .bitmap "invalid bitmap metadata" key =
      .ok (bitmapOf ctx env store key) := by
  obtain ⟨found, live⟩ := bitmap
  rw [bitmapOf, live]
  rfl

theorem bitmapOf_of_live {found : Option Metadata}
    (live : ctx.liveMeta env store .bitmap "invalid bitmap metadata" key = .ok found) :
    bitmapOf ctx env store key = found := by
  rw [bitmapOf, live]
  rfl

end Reading

section Specification

/-- The operation on the bits that the sources have at one offset. -/
def Cmd.BitOp.onBits : BitOp → List Bool → Bool
  | .and, bits => bits.all id
  | .or, bits => bits.any id
  | .xor, bits => bits.foldl Bool.xor false
  | .not, bits => !bits.headD false

def sourceByte (ctx : CommandContext) (store : Store) (source : Bytes × Option Metadata) (p : ℕ) :
    UInt8 :=
  source.2.elim 0 fun meta' => storedByte ctx source.1 meta' store p

def resultByte (ctx : CommandContext) (op : BitOp) (store : Store) :
    List (Bytes × Option Metadata) → ℕ → UInt8
  | [], _ => 0
  | source :: rest, p =>
    if op = .not then ~~~ sourceByte ctx store source p
    else rest.foldl (fun byte other => op.combine byte (sourceByte ctx store other p))
      (sourceByte ctx store source p)

variable {a b : UInt8} {i : ℕ}

theorem bitOf_not (small : i < 8) : bitOf (~~~a) i = !bitOf a i := by
  rw [bitOf_eq_getLsbD, bitOf_eq_getLsbD, UInt8.toBitVec_not, BitVec.getLsbD_not]
  simp [small]

/-- Combining bytes combines their bits. -/
theorem bitOf_combine (binary : op ≠ .not) :
    bitOf (op.combine a b) i = op.onBits [bitOf a i, bitOf b i] := by
  cases op with
  | and => simp [BitOp.combine, BitOp.onBits, bitOf_eq_getLsbD]
  | or => simp [BitOp.combine, BitOp.onBits, bitOf_eq_getLsbD]
  | xor => simp [BitOp.combine, BitOp.onBits, bitOf_eq_getLsbD]
  | not => exact absurd rfl binary

/-- Two bits may be combined before the others. -/
theorem Cmd.BitOp.onBits_cons_cons (binary : op ≠ .not) (x y : Bool) (bits : List Bool) :
    op.onBits (op.onBits [x, y] :: bits) = op.onBits (x :: y :: bits) := by
  cases op with
  | and => simp [BitOp.onBits, Bool.and_assoc]
  | or => simp [BitOp.onBits, Bool.or_assoc]
  | xor => simp [BitOp.onBits]
  | not => exact absurd rfl binary

theorem bitOf_foldl_combine (binary : op ≠ .not) (bytes : List UInt8) :
    bitOf (bytes.foldl op.combine a) i =
      op.onBits (bitOf a i :: bytes.map fun byte => bitOf byte i) := by
  induction bytes generalizing a with
  | nil => cases op <;> simp_all [BitOp.onBits]
  | cons b bytes ih =>
    rw [List.foldl_cons, ih, bitOf_combine binary, List.map_cons, BitOp.onBits_cons_cons binary]

/-- A bit of the result is the operation on the bits of the sources. -/
theorem bitOf_resultByte {sources : List (Bytes × Option Metadata)} (given : sources ≠ [])
    (single : op = .not → sources.length = 1) (small : i < 8) (p : ℕ) :
    bitOf (resultByte ctx op store sources p) i =
      op.onBits (sources.map fun source => bitOf (sourceByte ctx store source p) i) := by
  match sources with
  | [] => exact absurd rfl given
  | source :: rest =>
    by_cases unary : op = .not
    · obtain rfl := List.length_eq_zero_iff.mp (Nat.succ.inj (single unary))
      subst unary
      simp [resultByte, BitOp.onBits, bitOf_not small]
    · have bytes := @bitOf_foldl_combine op (sourceByte ctx store source p) i unary
        (rest.map fun other => sourceByte ctx store other p)
      rw [List.foldl_map, List.map_map] at bytes
      rw [resultByte, if_neg unary, List.map_cons]
      exact bytes

end Specification

section Execution

variable {sources : List (Bytes × Option Metadata)} {source : Bytes × Option Metadata}
  {index length : ℕ}

def loadedSources (ctx : CommandContext) (env : Env) (store : Store) (keys : List Bytes) :
    List (Bytes × Option Metadata) :=
  keys.map fun key => (key, bitmapOf ctx env store key)

theorem exec_loadSources (bitmaps : ∀ key ∈ keys, IsBitmapOrAbsent ctx env store key) :
    exec env (loadSources ctx keys) store = (.ok (loadedSources ctx env store keys), store) := by
  induction keys with
  | nil => rfl
  | cons key keys ih =>
    rw [List.forall_mem_cons] at bitmaps
    have loaded : exec env (readBitmapMeta ctx key) store =
        (.ok (bitmapOf ctx env store key), store) :=
      exec_loadLiveMeta.trans (by rw [bitmaps.1.live])
    rw [loadSources, exec_bind_ok loaded, exec_bind_ok (ih bitmaps.2)]
    rfl

/-- The bytes of a fragment, given by their positions in the bitmap. -/
def fragmentBy (byte : ℕ → UInt8) (index length : ℕ) : Bytes :=
  (List.range length).map fun j => byte (index * fragmentBytes + j)

theorem getD_fragmentBy (byte : ℕ → UInt8) (index length j : ℕ) :
    (fragmentBy byte index length).getD j 0 = if j <
      length then byte (index * fragmentBytes + j) else 0 := by
  rw [List.getD_eq_getElem?_getD, fragmentBy, List.getElem?_map]
  split_ifs with within
  · rw [List.getElem?_range within]
    rfl
  · rw [List.getElem?_eq_none (by simpa using within)]
    rfl

theorem zipWith_fragmentBy (f : UInt8 → UInt8 → UInt8) (byte byte' : ℕ → UInt8) :
    List.zipWith f (fragmentBy byte index length) (fragmentBy byte' index length) =
      fragmentBy (fun p => f (byte p) (byte' p)) index length := by
  rw [fragmentBy, fragmentBy, List.zipWith_map, List.zipWith_self]
  rfl

/-- A source fragment has a byte at every position, stored or not. -/
theorem exec_paddedFragment (small : length ≤ fragmentBytes) :
    exec env (paddedFragment ctx source index length) store =
      (.ok (fragmentBy (sourceByte ctx store source) index length), store) := by
  have bytes : fragmentBytes = 1024 := rfl
  obtain ⟨name, none | meta'⟩ := source
  · have zeros : List.replicate length 0 = fragmentBy (sourceByte ctx store (name, none))
        index length := by
      simp [fragmentBy, sourceByte]
    rw [← zeros]
    rfl
  · have padded : (resizeTo (fragmentOf ctx name meta' store index) length).take length =
        fragmentBy (sourceByte ctx store (name, some meta')) index length := by
      refine List.ext_getElem ?_ fun j within within' => ?_
      · simp [fragmentBy, length_resizeTo]
      · have below : j < length := by simpa [fragmentBy] using within'
        have here : (index * fragmentBytes + j) / fragmentBytes = index := by
          rw [bytes] at small ⊢
          omega
        have place : j % fragmentBytes = j := Nat.mod_eq_of_lt (below.trans_le small)
        have byte := getD_resizeTo (fragmentOf ctx name meta' store index) length j
        have inside : j < (resizeTo (fragmentOf ctx name meta' store index) length).length := by
          rw [length_resizeTo]
          omega
        rw [List.getD_eq_getElem?_getD, List.getElem?_eq_getElem inside, Option.getD_some] at byte
        simp [fragmentBy, sourceByte, storedByte, here, place, byte]
    rw [← padded]
    rfl

/-- The sources are combined byte by byte. -/
theorem exec_combineLoop (small : length ≤ fragmentBytes) (byte : ℕ → UInt8) :
    exec env (combineLoop ctx op index length sources (fragmentBy byte index length)) store =
      (.ok (fragmentBy (fun p => sources.foldl
        (fun byte source => op.combine byte (sourceByte ctx store source p)) (byte p))
          index length),
        store) := by
  induction sources generalizing byte with
  | nil => rfl
  | cons source rest ih =>
    rw [combineLoop, exec_bind_ok (exec_paddedFragment small), zipWith_fragmentBy, ih]
    rfl

theorem exec_resultFragment (small : length ≤ fragmentBytes) :
    exec env (resultFragment ctx op sources index length) store =
      (.ok (fragmentBy (resultByte ctx op store sources) index length), store) := by
  cases sources with
  | nil =>
    have zeros : List.replicate length 0 = fragmentBy (resultByte ctx op store [])
        index length := by
      simp [fragmentBy, resultByte]
    rw [← zeros]
    rfl
  | cons source rest =>
    rw [resultFragment, exec_bind_ok (exec_paddedFragment small)]
    by_cases unary : op = .not
    · have flipped : (fragmentBy (sourceByte ctx store source) index length).map
          (fun byte => ~~~byte) =
          fragmentBy (resultByte ctx op store (source :: rest)) index length := by
        simp [fragmentBy, resultByte, unary]
      rw [if_pos unary, ← flipped]
      rfl
    · have combined : resultByte ctx op store (source :: rest) = fun p => rest.foldl
          (fun byte other => op.combine byte (sourceByte ctx store other p))
          (sourceByte ctx store source p) := by
        funext p
        rw [resultByte, if_neg unary]
      rw [if_neg unary, exec_combineLoop small, combined]

def fragmentLength (size index : ℕ) : ℕ := min fragmentBytes (size - index * fragmentBytes)

/-- The operations that store some fragments. -/
def fragmentPuts (ctx : CommandContext) (dest : Bytes) (meta' : Metadata)
    (byte : ℕ → UInt8) (size : ℕ) (indexes : List ℕ) : WriteBatch :=
  indexes.map fun index => .put .subkey (fragmentKey ctx meta' dest index)
    (fragmentBy byte index (fragmentLength size index))

/-- `BITOP` stores every fragment below the size. -/
theorem exec_bitopLoop {size : ℕ} (n index : ℕ) (batch : WriteBatch)
    (within : n = 0 ∨ (index + n - 1) * fragmentBytes < size) :
    exec env (bitopLoop ctx op dest meta' sources size n index batch) store =
      (.ok (batch ++ fragmentPuts ctx dest meta' (resultByte ctx op store sources) size
        (List.range' index n)), store) := by
  have bytes : fragmentBytes = 1024 := rfl
  induction n generalizing index batch with
  | zero => simp [bitopLoop, fragmentPuts]
  | succ n ih =>
    rw [bytes] at within ih
    have some : ¬ min fragmentBytes (size - index * fragmentBytes) = 0 := by
      rw [bytes]
      omega
    rw [bitopLoop]
    simp only [if_neg some]
    rw [exec_bind_ok (exec_resultFragment (min_le_left _ _)), ih _ _ (by omega), List.append_assoc,
      List.range'_succ]
    rfl

def resultMeta (env : Env) (size : ℕ) : Metadata :=
  { Metadata.new .bitmap env.version with size := UInt64.ofNat size }

/-- The operations of `BITOP`. -/
def resultBatch (ctx : CommandContext) (env : Env) (store : Store) (op : BitOp) (dest : Bytes)
    (sources : List (Bytes × Option Metadata)) : WriteBatch :=
  .put .metadata (ctx.metaKey dest) (encodeMetadata (resultMeta env (resultSize sources))) ::
    fragmentPuts ctx dest (resultMeta env (resultSize sources)) (resultByte ctx op store sources)
      (resultSize sources) (List.range ((resultSize sources + 1023) / fragmentBytes))

/-- The operation that an argument names. -/
def operationOf (text : Bytes) : Option BitOp :=
  if isKeyword text "AND" then some .and
  else if isKeyword text "OR" then some .or
  else if isKeyword text "XOR" then some .xor
  else if isKeyword text "NOT" then some .not
  else none

theorem exec_parseOperation {text : Bytes} (named : operationOf text = some op) :
    exec env (parseOperation text) store = (.ok op, store) := by
  rw [operationOf] at named
  rw [parseOperation]
  split_ifs at named ⊢ <;> cases named <;> rfl

/-- `BITOP` writes the record and all fragments of the result in one batch. -/
theorem exec_bitop {operation : Bytes} (named : operationOf operation = some op) (given : keys ≠ [])
    (single : op = .not → keys.length = 1)
    (bitmaps : ∀ key ∈ keys, IsBitmapOrAbsent ctx env store key) :
    exec env (bitop ctx (operation :: dest :: keys)) store =
      (.ok (.integer (Int64.ofNat (resultSize (loadedSources ctx env store keys)))),
        store.write (resultBatch ctx env store op dest (loadedSources ctx env store keys))) := by
  have bytes : fragmentBytes = 1024 := rfl
  obtain ⟨srcKey, srcKeys, rfl⟩ := List.exists_cons_of_ne_nil given
  have counted : ¬ (op = .not ∧ (srcKey :: srcKeys).length ≠ 1) :=
    fun ⟨unary, other⟩ => other (single unary)
  rw [bitop, exec_bind_ok (exec_parseOperation named), if_neg counted,
    exec_bind_ok (exec_loadSources bitmaps)]
  generalize loadedSources ctx env store (srcKey :: srcKeys) = sources
  rw [exec_generateVersion_bind]
  show exec env (if resultSize sources = 0 then
      Storage.write
        [.put .metadata (ctx.metaKey dest) (encodeMetadata (resultMeta env (resultSize sources)))]
        >>= fun _ => pure (RespValue.integer 0)
    else bitopLoop ctx op dest (resultMeta env (resultSize sources)) sources (resultSize sources)
      ((resultSize sources - 1) / fragmentBytes + 1) 0 [.put .metadata (ctx.metaKey dest)
        (encodeMetadata (resultMeta env (resultSize sources)))] >>= fun batch =>
      Storage.write batch >>= fun _ => pure (RespValue.integer (Int64.ofNat (resultSize sources))))
        store = _
  rw [resultBatch]
  generalize resultSize sources = size
  split_ifs with empty
  · subst empty
    rfl
  · have count : (size - 1) / fragmentBytes + 1 = (size + 1023) / fragmentBytes := by
      rw [bytes]
      omega
    have within : (0 + ((size - 1) / fragmentBytes + 1) - 1) * fragmentBytes < size := by
      rw [bytes]
      omega
    rw [exec_bind_ok (exec_bitopLoop _ _ _ (.inr within)), exec_write_bind, exec_pure, count,
      ← List.range_eq_range']
    rfl

end Execution

section Results

variable {sources : List (Bytes × Option Metadata)} {index : ℕ}

theorem mem_fragmentPuts {byte : ℕ → UInt8} {size : ℕ} {indexes : List ℕ} {bop : BatchOp} :
    bop ∈ fragmentPuts ctx dest meta' byte size indexes ↔ ∃ index ∈ indexes,
      bop = .put .subkey (fragmentKey ctx meta' dest index)
        (fragmentBy byte index (fragmentLength size index)) := by
  simp only [fragmentPuts, List.mem_map, eq_comm]

/-- A fragment of the result is stored if it begins below the size. -/
theorem fragmentOf_result (fresh : Unused ctx dest env.version store) (small : index < 2 ^ 64)
    (fits : resultSize sources < 2 ^ 64) :
    fragmentOf ctx dest (resultMeta env (resultSize sources))
        (store.write (resultBatch ctx env store op dest sources)) index =
      if index * fragmentBytes < resultSize sources then
        fragmentBy (resultByte ctx op store sources) index
          (fragmentLength (resultSize sources) index)
      else [] := by
  have bytes : fragmentBytes = 1024 := rfl
  have missing :
      store.get .subkey (fragmentKey ctx (resultMeta env (resultSize sources)) dest index) =
      none := fresh .subkey (by decide) _
  rw [fragmentOf]
  rcases store.get_write_cases (resultBatch ctx env store op dest sources) .subkey
      (fragmentKey ctx (resultMeta env (resultSize sources)) dest index) with
    ⟨elsewhere, same⟩ | ⟨value, inside, put⟩ | ⟨inside, -⟩
  · have beyond : ¬ index * fragmentBytes < resultSize sources := by
      intro below
      have counted : index ∈ List.range ((resultSize sources + 1023) / fragmentBytes) := by
        rw [bytes] at below ⊢
        rw [List.mem_range]
        omega
      exact elsewhere _ (List.mem_cons_of_mem _ (mem_fragmentPuts.mpr ⟨index, counted, rfl⟩))
        ⟨rfl, rfl⟩
    rw [same, missing, if_neg beyond, Option.getD_none]
  · have later := (List.mem_cons.mp inside).resolve_left (by simp)
    obtain ⟨other, counted, same⟩ := mem_fragmentPuts.mp later
    obtain ⟨-, keys, rfl⟩ := BatchOp.put.inj same
    rw [List.mem_range, bytes] at counted
    obtain rfl := (fragmentKey_inj small (by omega)).mp keys
    have below : index * fragmentBytes < resultSize sources := by
      rw [bytes]
      omega
    rw [put, if_pos below, Option.getD_some]
  · have later := (List.mem_cons.mp inside).resolve_left (by simp)
    obtain ⟨other, -, same⟩ := mem_fragmentPuts.mp later
    cases same

/-- The bytes of the result below its size are the combined ones, and the others are zero. -/
theorem storedByte_result (fresh : Unused ctx dest env.version store) {p : ℕ} (small : p < 2 ^ 64)
    (fits : resultSize sources < 2 ^ 64) :
    storedByte ctx dest (resultMeta env (resultSize sources))
        (store.write (resultBatch ctx env store op dest sources)) p =
      if p < resultSize sources then resultByte ctx op store sources p else 0 := by
  have bytes : fragmentBytes = 1024 := rfl
  have position : p / fragmentBytes * fragmentBytes + p % fragmentBytes = p := Nat.div_add_mod' p _
  rw [storedByte, fragmentOf_result fresh ((Nat.div_le_self _ _).trans_lt small) fits]
  by_cases below : p < resultSize sources
  · have begins : p / fragmentBytes * fragmentBytes < resultSize sources := by omega
    have within : p % fragmentBytes < fragmentLength (resultSize sources) (p / fragmentBytes) := by
      rw [fragmentLength, bytes]
      omega
    rw [if_pos begins, if_pos below, getD_fragmentBy, if_pos within, position]
  · rw [if_neg below]
    split_ifs with begins
    · have outside : ¬ p % fragmentBytes < fragmentLength (resultSize sources)
          (p / fragmentBytes) := by
        rw [fragmentLength]
        omega
      rw [getD_fragmentBy, if_neg outside]
    · rfl

/-- The largest source size. -/
theorem resultSize_loadedSources :
    resultSize (loadedSources ctx env store keys) =
      (keys.map (bitmapSize ctx env store)).foldl max 0 := by
  rw [resultSize, loadedSources, List.foldl_map, List.foldl_map]
  rfl

theorem resultSize_lt (sources : List (Bytes × Option Metadata)) : resultSize sources < 2 ^ 64 := by
  have bound : resultSize sources ≤ 2 ^ 64 - 1 := resultSize_le fun size _ => by
    have := size.toNat_lt
    omega
  omega

theorem bitAt_eq (key : Bytes) (o : ℕ) :
    bitAt ctx env store key o =
      bitOf (sourceByte ctx store (key, bitmapOf ctx env store key) (o / 8)) (o % 8) := by
  rw [bitAt, sourceByte]
  cases bitmapOf ctx env store key with
  | none => exact bitOf_zero.symm
  | some meta' => exact storedBit_eq o

/-- The record of the result is found, at whatever time. -/
theorem recorded_result (sources : List (Bytes × Option Metadata)) :
    Recorded ctx dest (resultMeta env (resultSize sources))
      (store.write (resultBatch ctx env store op dest sources)) := by
  rcases store.get_write_cases (resultBatch ctx env store op dest sources) .metadata
      (ctx.metaKey dest) with ⟨elsewhere, -⟩ | ⟨value, inside, put⟩ | ⟨inside, -⟩
  · exact absurd ⟨rfl, rfl⟩ (elsewhere _ List.mem_cons_self)
  · rcases List.mem_cons.mp inside with same | later
    · cases same
      exact put
    · obtain ⟨_, -, same⟩ := mem_fragmentPuts.mp later
      cases same
  · rcases List.mem_cons.mp inside with same | later
    · cases same
    · obtain ⟨_, -, same⟩ := mem_fragmentPuts.mp later
      cases same

theorem live_result (sources : List (Bytes × Option Metadata)) (env' : Env) :
    ctx.liveMeta env' (store.write (resultBatch ctx env store op dest sources)) .bitmap
      "invalid bitmap metadata" dest = .ok (some (resultMeta env (resultSize sources))) :=
  liveMeta_of_recorded (recorded_result sources)
    ((Metadata.new_proper .bitmap env.version).resize _)
    (by decide)

/-- The bits of the result. -/
theorem bitAt_result {env' : Env} (given : keys ≠ []) (single : op = .not → keys.length = 1)
    (fresh : Unused ctx dest env.version store) {o : ℕ} (small : o < 2 ^ 67) :
    bitAt ctx env'
      (store.write (resultBatch ctx env store op dest (loadedSources ctx env store keys))) dest o =
      if o < 8 * resultSize (loadedSources ctx env store keys) then
        op.onBits (keys.map fun key => bitAt ctx env store key o) else false := by
  have below : o / 8 < resultSize (loadedSources ctx env store keys) ↔
      o < 8 * resultSize (loadedSources ctx env store keys) := by omega
  have named : loadedSources ctx env store keys ≠ [] := by simpa [loadedSources] using given
  have length : (loadedSources ctx env store keys).length = keys.length := List.length_map _
  have result :=
    @storedByte_result ctx dest store env op (loadedSources ctx env store keys) fresh (o / 8)
    (by omega) (resultSize_lt _)
  rw [bitAt, bitmapOf_of_live (live_result _ env'), Option.elim_some, storedBit_eq, result]
  simp only [below]
  split_ifs
  · rw [bitOf_resultByte named (fun unary => length.trans (single unary))
      (Nat.mod_lt _ (by decide)), loadedSources, List.map_map]
    simp only [bitAt_eq]
    rfl
  · exact bitOf_zero

/-- `BITOP` is the operation on all bits of the sources. The result has the size of the
largest source and no set bit beyond, nothing of the other sources changes, and the reply
is the size, which a reply can hold in every store that commands reach. The destination may
be a source, of any type before, and keys may repeat. -/
theorem bitop_bitwise {operation : Bytes} (named : operationOf operation = some op)
    (given : keys ≠ []) (single : op = .not → keys.length = 1)
    (bitmaps : ∀ key ∈ keys, IsBitmapOrAbsent ctx env store key)
    (short : ∀ key ∈ dest :: keys, key.length < 2 ^ 32)
    (fresh : Unused ctx dest env.version store) :
    let size := (keys.map (bitmapSize ctx env store)).foldl max 0
    let request : Request := ⟨.bitop, operation :: dest :: keys, env⟩
    let after := request.after ctx store
    (∀ env',
      (∃ meta', ctx.liveMeta env' after .bitmap "invalid bitmap metadata" dest = .ok (some meta')) ∧
      bitmapSize ctx env' after dest = size) ∧
    (∀ env' o, o < 8 * size →
      bitAt ctx env' after dest o = op.onBits (keys.map fun key => bitAt ctx env store key o)) ∧
    (∀ env' o, 8 * size ≤ o → o < 2 ^ 64 → bitAt ctx env' after dest o = false) ∧
    (∀ key ∈ keys, key ≠ dest →
      after.get .metadata (ctx.metaKey key) = store.get .metadata (ctx.metaKey key) ∧
      (∀ version, SameElements ctx key version store after) ∧
      (ctx.Separate key → ctx.lookupMeta after key = ctx.lookupMeta store key)) ∧
    request.reply ctx store = .ok (.integer (Int64.ofNat size)) ∧
    ∀ requests, TenantRuns .empty requests store → (Int64.ofNat size).toInt = size := by
  intro size request after
  have ran := @exec_bitop ctx dest keys store env op operation named given single bitmaps
  have total : resultSize (loadedSources ctx env store keys) = size := resultSize_loadedSources
  have reached : after =
      store.write (resultBatch ctx env store op dest (loadedSources ctx env store keys)) :=
    Request.after_eq_of_exec ctx ran
  have bits := fun env' o (small : o < 2 ^ 67) =>
    @bitAt_result ctx dest keys store env op env' given single fresh o small
  have limit := resultSize_lt (loadedSources ctx env store keys)
  rw [total] at limit
  simp only [← reached, total] at bits
  refine ⟨fun env' => ?_, fun env' o below => ?_, fun env' o beyond small => ?_,
    fun key named' other => ?_,
    ?_, fun requests run => ?_⟩
  · have live := @live_result ctx dest store env op (loadedSources ctx env store keys) env'
    rw [← reached] at live
    refine ⟨⟨_, live⟩, ?_⟩
    rw [bitmapSize, bitmapOf_of_live live, total]
    exact Nat.mod_eq_of_lt limit
  · rw [bits env' o (by omega), if_pos below]
  · rw [bits env' o (by omega), if_neg (by omega)]
  -- The command writes under its destination alone.
  · have elsewhere : request.Elsewhere [key] := by
      refine ⟨nofun, ?_, ?_⟩
      · exact List.forall_mem_singleton.mpr (short dest List.mem_cons_self)
      · exact List.forall_mem_singleton.mpr (by simpa using Ne.symm other)
    have inside : key ∈ [key] := List.mem_singleton_self key
    refine ⟨?_, fun version => ?_, elsewhere.lookupMeta inside⟩
    · by_contra changed
      obtain ⟨written, names, ⟨-, same⟩ | ⟨element, -⟩⟩ :=
        Request.mem_of_changed elsewhere.kept changed
      · obtain rfl := metadataKey_inj same
        exact elsewhere.apart _ names inside
      · exact element rfl
    · exact elsewhere.elements inside (short key (List.mem_cons_of_mem _ named')) version
  · rw [← total]
    exact Request.reply_eq_ok ctx ran
  · refine Int64.toInt_ofNat_of_lt ?_
    have small :=
      resultSize_le ((Store.smallBitmaps_of_runs run).sources (exec_loadSources bitmaps))
    omega

/-- The complement of a bitmap of one byte. -/
theorem bitop_bitwise_of_not :
    let set : Request := ⟨.setbit, [ascii "a", ascii "3", ascii "1"], .plain 7⟩
    let store := set.after .plain .empty
    let complement : Request := ⟨.bitop, [ascii "not", ascii "d", ascii "a"], .plain 8⟩
    bitAt .plain (.plain 9) (complement.after .plain store) (ascii "d") 3 = false ∧
    bitAt .plain (.plain 9) (complement.after .plain store) (ascii "d") 7 = true ∧
    complement.reply .plain store = .ok (.integer 1) := by
  intro set store complement
  have elsewhere : set.Elsewhere [ascii "d"] := ⟨nofun, by decide, by decide⟩
  have fresh : Unused .plain (ascii "d") (Env.plain 8).version store := by
    intro cf element sub
    exact elsewhere.elements (List.mem_singleton_self _) (by decide) _ cf element sub
  have bitmap : IsBitmapOrAbsent .plain (.plain 8) store (ascii "a") := ⟨some
    { Metadata.new .bitmap (Env.plain 7).version with size := 1 }, by decide⟩
  have size : bitmapSize .plain (.plain 8) store (ascii "a") = 1 := by decide
  have third : bitAt .plain (.plain 8) store (ascii "a") 3 = true := by decide
  have last : bitAt .plain (.plain 8) store (ascii "a") 7 = false := by decide
  have total : ([ascii "a"].map (bitmapSize .plain (.plain 8) store)).foldl max 0 = 1 := by
    rw [List.map_singleton, size]
    rfl
  obtain ⟨-, bits, -, -, reply, -⟩ :=
    @bitop_bitwise .plain (ascii "d") [ascii "a"] store (.plain 8) .not
    (ascii "not") (by decide) (by decide) (fun _ => rfl) (List.forall_mem_singleton.mpr bitmap)
    (by decide) fresh
  rw [total] at bits reply
  refine ⟨(bits (.plain 9) 3 (by decide)).trans ?_, (bits (.plain 9) 7 (by decide)).trans ?_, reply⟩
  · rw [List.map_singleton, third]
    rfl
  · rw [List.map_singleton, last]
    rfl

end Results

end Kvdb
