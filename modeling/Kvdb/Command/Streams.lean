import Kvdb.Command.Basic

/-!
# Stream commands

A stream keeps its entries under their identifiers, a pair of words that sort
like the bytes they are stored in. Its metadata has a layout of its own, with
the last identifier behind the common fields.
-/

namespace Kvdb.Cmd

open Data Semantics

variable (ctx : CommandContext)

section Records

def streamPageLimit : ℕ := 1000

structure StreamMeta where
  flags : UInt8
  expire : Int64
  version : UInt64
  size : UInt64
  lastMs : UInt64
  lastSeq : UInt64
deriving DecidableEq, Repr

def StreamMeta.new (version : UInt64) : StreamMeta := ⟨buildFlags .stream, 0, version, 0, 0, 0⟩

/-- The record's deadline has passed. -/
def StreamMeta.isExpired (meta' : StreamMeta) (now : Int64) : Bool := expiredAt meta'.expire now

def StreamMeta.encode (meta' : StreamMeta) : Bytes :=
  meta'.flags :: (i64Bytes meta'.expire ++ (u64Bytes meta'.version ++ (u64Bytes meta'.size ++
    (u64Bytes meta'.lastMs ++ u64Bytes meta'.lastSeq))))

def decodeStreamMeta (data : Bytes) : Option StreamMeta :=
  if data.length < 1 + 8 + 8 + 8 + 8 + 8 then none
  else some
    { flags := firstByte data
      expire := i64OfBytes (wordAt data 1)
      version := u64OfBytes (wordAt data 9)
      size := u64OfBytes (wordAt data 17)
      lastMs := u64OfBytes (wordAt data 25)
      lastSeq := u64OfBytes (wordAt data 33) }

/-- Check a metadata value that should be a stream's. A value in the common
layout is read as a stream without a last identifier. -/
def checkStreamMeta (v : Bytes) : Except Fault StreamMeta :=
  if v = [] then .error (.error (.protocol "empty metadata value"))
  else if DataType.fromCode (firstByte v &&& 0x0F) = some .string then .error wrongTypeError
  else
    match decodeStreamMeta v with
    | some meta' =>
      if DataType.fromCode (meta'.flags &&& 0x0F) ≠ some .stream then .error wrongTypeError
      else .ok meta'
    | none =>
      match decodeMetadata v with
      | none => .error (.error (.protocol "invalid stream metadata encoding"))
      | some meta' =>
        if meta'.dataType ≠ some .stream then .error wrongTypeError
        else .ok ⟨meta'.flags, meta'.expire, meta'.version, meta'.size, 0, 0⟩

def readStreamMeta (userKey : Bytes) : Prog (Option StreamMeta) := do
  match ← ctx.getMeta userKey with
  | none => return none
  | some v =>
    let meta' ← Program.ofExcept (checkStreamMeta v)
    let now ← nowMs
    if meta'.isExpired now then return none else return some meta'

end Records

section Ids

/-- An entry identifier: milliseconds and a sequence number. -/
structure EntryId where
  ms : UInt64
  seq : UInt64
deriving DecidableEq, Repr

/-- The stored form of an identifier. -/
def EntryId.encode (id : EntryId) : Bytes := u64Bytes id.ms ++ u64Bytes id.seq

/-- The text of an identifier. -/
def EntryId.formatId (id : EntryId) : Bytes :=
  renderNat id.ms.toNat ++ 0x2D :: renderNat id.seq.toNat

/-- Comparison by milliseconds, then by sequence number. -/
def EntryId.lt (a b : EntryId) : Bool := a.ms < b.ms || (a.ms == b.ms && a.seq < b.seq)

/-- Not after. -/
def EntryId.le (a b : EntryId) : Bool := a.lt b || a == b

def EntryId.greatest : EntryId := ⟨0xFFFFFFFFFFFFFFFF, 0xFFFFFFFFFFFFFFFF⟩

/-- The error for a malformed identifier. -/
def invalidStreamId : Fault := .error (.command "invalid stream ID")

def parseIdWord (text : Bytes) : Except Fault UInt64 :=
  match parseU64 text with
  | some n => .ok (UInt64.ofNat n)
  | none => .error invalidStreamId

/-- Parse an identifier: the two ends, or two numbers around the first dash. -/
def EntryId.parse (text : Bytes) : Except Fault EntryId :=
  if text = ascii "-" then .ok ⟨0, 0⟩
  else if text = ascii "+" then .ok EntryId.greatest
  else
    match text.dropWhile (· ≠ 0x2D) with
    | [] => .error invalidStreamId
    | _ :: seqText => do
      let ms ← parseIdWord (text.takeWhile (· ≠ 0x2D))
      let seq ← parseIdWord seqText
      return ⟨ms, seq⟩

/-- The identifier after the last one, at given milliseconds if those are later.
The sequence number wraps. -/
def nextId (ms : UInt64) (meta' : StreamMeta) : EntryId :=
  if meta'.lastMs < ms then ⟨ms, 0⟩ else ⟨meta'.lastMs, meta'.lastSeq + 1⟩

/-- The text before a trailing `-*`. -/
def stripAutoSeq (text : Bytes) : Option Bytes :=
  if text.drop (text.length - 2) = ascii "-*" then some (text.take (text.length - 2)) else none

/-- The identifier of a new entry. -/
def generateId (spec : Bytes) (meta' : StreamMeta) : Prog EntryId :=
  if spec = ascii "*" then do
    let now ← systemTime
    return nextId (UInt64.ofNat now) meta'
  else
    match stripAutoSeq spec with
    | some msText => do
      let ms ← Program.ofExcept (parseIdWord msText)
      return nextId ms meta'
    | none => do
      let id ← Program.ofExcept (EntryId.parse spec)
      if 0 < meta'.size ∧ id.le ⟨meta'.lastMs, meta'.lastSeq⟩ then
        raise (.command "The ID specified in XADD must be greater than 0-0")
      else return id

end Ids

section Fields

/-- The stored form of the fields of an entry. -/
def encodeFields : List (Bytes × Bytes) → Bytes
  | [] => []
  | (k, v) :: rest =>
    u32Bytes k.length ++ (k ++ (u32Bytes v.length ++ (v ++ encodeFields rest)))

/-- Read one string behind its length. -/
def takeString (data : Bytes) : Option (Bytes × Bytes) :=
  if data.length < 4 then none
  else
    let len := beNat (data.take 4)
    if data.length < 4 + len then none
    else some ((data.drop 4).take len, data.drop (4 + len))

/-- Read the fields of an entry. Each round uses up at least eight bytes. -/
def decodeFieldsLoop : ℕ → Bytes → Option (List (Bytes × Bytes))
  | 0, data => if data = [] then some [] else none
  | n + 1, data =>
    if data = [] then some []
    else do
      let (k, rest) ← takeString data
      let (v, rest) ← takeString rest
      let fields ← decodeFieldsLoop n rest
      return (k, v) :: fields

/-- Read the fields of an entry. -/
def decodeFields (data : Bytes) : Option (List (Bytes × Bytes)) := decodeFieldsLoop data.length data

/-- The fields that the arguments of `XADD` name. -/
def pairUp : List Bytes → List (Bytes × Bytes)
  | k :: v :: rest => (k, v) :: pairUp rest
  | _ => []

end Fields

section Commands

/-- Load the metadata of a stream, or start a new one. -/
def ensureStreamMeta (userKey : Bytes) : Prog StreamMeta := do
  match ← readStreamMeta ctx userKey with
  | some meta' =>
    let now ← nowMs
    if meta'.isExpired now then
      let version ← generateVersion
      return StreamMeta.new version
    else return meta'
  | none =>
    let version ← generateVersion
    return StreamMeta.new version

/-- `XADD key id field value [field value ...]` -/
def xadd : List Bytes → Prog RespValue
  | userKey :: idSpec :: field :: rest =>
    if (field :: rest).length % 2 ≠ 0 then raise (.wrongArgCount "XADD")
    else do
      let meta' ← ensureStreamMeta ctx userKey
      let id ← generateId idSpec meta'
      let subKey := ctx.subKey userKey meta'.version id.encode
      let meta' := { meta' with size := meta'.size + 1, lastMs := id.ms, lastSeq := id.seq }
      Storage.write [.put .subkey subKey (encodeFields (pairUp (field :: rest))),
        .put .metadata (ctx.metaKey userKey) meta'.encode]
      return .bulkString (some id.formatId)
  | _ => raise (.wrongArgCount "XADD")

/-- Load the metadata of a stream that is still alive. -/
def liveStreamMeta (userKey : Bytes) : Prog (Option StreamMeta) := do
  match ← readStreamMeta ctx userKey with
  | none => return none
  | some meta' =>
    let now ← nowMs
    if meta'.isExpired now then return none else return some meta'

def xlen : List Bytes → Prog RespValue
  | [userKey] => do
    match ← liveStreamMeta ctx userKey with
    | none => return .integer 0
    | some meta' => return .integer meta'.size.toInt64
  | _ => raise (.wrongArgCount "XLEN")

/-- Parse a bound of `XRANGE`, which may leave out the sequence number. -/
def parseRangeBound (text : Bytes) : Except Fault EntryId :=
  if text = ascii "-" then .ok ⟨0, 0⟩
  else if text = ascii "+" then .ok EntryId.greatest
  else if text.getLast? = some 0x2D ∧ 1 < text.length then do
    let ms ← parseIdWord text.dropLast
    return ⟨ms, 0⟩
  else EntryId.parse text

def buildEntryResp (entry : EntryId × List (Bytes × Bytes)) : RespValue :=
  .array [.bulkString (some entry.1.formatId),
    .array (entry.2.flatMap fun (k, v) => [.bulkString (some k), .bulkString (some v)])]

/-- The identifier in an element key. -/
def parseEntryIdFromSubkey (key : Bytes) : Option EntryId :=
  match ctx.parseSubkey key with
  | none => none
  | some (_, _, sub) =>
    if sub.length < 16 then none
    else some ⟨u64OfBytes (wordAt sub 0), u64OfBytes (wordAt sub 8)⟩

def decodeEntries : List Entry → Prog (List (EntryId × List (Bytes × Bytes)))
  | [] => return []
  | (k, v) :: items =>
    match parseEntryIdFromSubkey ctx k with
    | none => raise (.protocol "invalid stream subkey encoding")
    | some id =>
      match decodeFields v with
      | none => raise (.protocol "invalid stream entry encoding")
      | some fields => do
        let entries ← decodeEntries items
        return (id, fields) :: entries

def iterEntriesPage (userKey : Bytes) (version : UInt64) (startKey : Bytes) :
    Prog (List (EntryId × List (Bytes × Bytes)) × Option Bytes) := do
  let (items, nextKey) ←
    prefixScanPage .subkey (ctx.subKey userKey version []) startKey streamPageLimit
  let entries ← decodeEntries ctx items
  return (entries, nextKey)

def xrangeCount : List Bytes → Prog (Option ℕ)
  | [option, value] =>
    if ¬ isKeyword option "COUNT" then raise (.command "syntax error")
    else do
      let n ← parseUsize value
      return some n
  | _ => return none

/-- The body of the scan of `XRANGE`. A count that is used up wraps. -/
def xrangeBody (start stop : EntryId) (acc : List RespValue × Option ℕ)
    (entry : EntryId × List (Bytes × Bytes)) : ForInStep (List RespValue × Option ℕ) :=
  let (result, remaining) := acc
  if entry.1.lt start then .yield acc
  else if stop.lt entry.1 then .done acc
  else
    let result := result ++ [buildEntryResp entry]
    match remaining with
    | none => .yield (result, none)
    | some n =>
      let n := if n = 0 then 2 ^ 64 - 1 else n - 1
      if n = 0 then .done (result, some n) else .yield (result, some n)

/-- `XRANGE key start end [COUNT count]` -/
def xrange : List Bytes → Prog RespValue
  | userKey :: startArg :: endArg :: options =>
    if 2 < options.length then raise (.wrongArgCount "XRANGE")
    else do
      let start ← Program.ofExcept (parseRangeBound startArg)
      let stop ← Program.ofExcept (parseRangeBound endArg)
      let count ← xrangeCount options
      match ← liveStreamMeta ctx userKey with
      | none => return .array []
      | some meta' =>
        let (result, _) ← forEachPage .subkey (iterEntriesPage ctx userKey meta'.version)
          ([], count) fun acc entry => return xrangeBody start stop acc entry
        return .array result
  | _ => raise (.wrongArgCount "XRANGE")

def xreadLoop : List (Bytes × Bytes) → Prog (List RespValue)
  | [] => return []
  | (key, idSpec) :: rest => do
    let start ← Program.ofExcept (EntryId.parse idSpec)
    match ← liveStreamMeta ctx key with
    | none => xreadLoop rest
    | some meta' =>
      let entries ← forEachPage .subkey (iterEntriesPage ctx key meta'.version) []
        fun entries entry =>
          return .yield (if entry.1.le start then entries else entries ++ [buildEntryResp entry])
      let streams ← xreadLoop rest
      if entries = [] then return streams
      else return .array [.bulkString (some key), .array entries] :: streams

/-- `XREAD STREAMS key [key ...] id [id ...]` -/
def xread : List Bytes → Prog RespValue
  | keyword :: first :: second :: rest =>
    let args := first :: second :: rest
    if ¬ isKeyword keyword "STREAMS" then raise (.command "syntax error")
    else if args.length % 2 ≠ 0 then raise (.wrongArgCount "XREAD")
    else do
      let numStreams := args.length / 2
      let streams ← xreadLoop ctx ((args.take numStreams).zip (args.drop numStreams))
      return .array streams
  | _ => raise (.wrongArgCount "XREAD")

end Commands

end Kvdb.Cmd
