import Kvdb.Command.Basic

/-!
# Hash commands

A hash keeps one element per field. Its metadata counts the fields by hand:
a command reads which fields are stored before its own batch is applied.
-/

namespace Kvdb.Cmd

open Data Semantics

variable (ctx : CommandContext)

def hashPageSize : ℕ := 1024

/-- Check the metadata of a hash. Its deadline is not looked at. -/
def decodeAndCheckHash (v : Bytes) : Except Fault (Option Metadata) :=
  (checkMetadata .hash "invalid metadata encoding" v).map some

def readHashMeta (userKey : Bytes) : Prog (Option Metadata) := do
  match ← ctx.getMeta userKey with
  | some v => Program.ofExcept (decodeAndCheckHash v)
  | none => return none

def ensureHashMeta (userKey : Bytes) : Prog Metadata := do
  match ← readHashMeta ctx userKey with
  | some meta' => return meta'
  | none =>
    let version ← generateVersion
    return Metadata.new .hash version

/-- The loop of `HSET`: the batch so far, the new fields and the metadata. -/
def hsetLoop (userKey : Bytes) :
    List Bytes → WriteBatch → Int64 → Metadata → Prog (WriteBatch × Int64 × Metadata)
  | field :: value :: rest, batch, added, meta' => do
    let sk := ctx.subKey userKey meta'.version field
    let existed ← Storage.get .subkey sk
    let batch := batch ++ [.put .subkey sk value]
    if existed.isSome then hsetLoop userKey rest batch added meta'
    else hsetLoop userKey rest batch (added + 1) { meta' with size := meta'.size + 1 }
  | _, batch, added, meta' => return (batch, added, meta')

/-- `HSET key field value [field value ...]` -/
def hset (args : List Bytes) : Prog RespValue :=
  match args with
  | userKey :: field :: value :: rest =>
    if args.length % 2 = 0 then raise (.wrongArgCount "HSET")
    else do
      let meta' ← ensureHashMeta ctx userKey
      let (batch, added, meta') ← hsetLoop ctx userKey (field :: value :: rest) [] 0 meta'
      Storage.write (batch ++ [.put .metadata (ctx.metaKey userKey) (encodeMetadata meta')])
      return .integer added
  | _ => raise (.wrongArgCount "HSET")

/-- `HGET key field` -/
def hget : List Bytes → Prog RespValue
  | [userKey, field] => do
    match ← readHashMeta ctx userKey with
    | none => return .bulkString none
    | some meta' =>
      let v ← Storage.get .subkey (ctx.subKey userKey meta'.version field)
      return .bulkString v
  | _ => raise (.wrongArgCount "HGET")

/-- The values of several fields, in order. -/
def readFields (userKey : Bytes) (version : UInt64) : List Bytes → Prog (List RespValue)
  | [] => return []
  | field :: rest => do
    let v ← Storage.get .subkey (ctx.subKey userKey version field)
    let values ← readFields userKey version rest
    return .bulkString v :: values

/-- `HMGET key field [field ...]` -/
def hmget : List Bytes → Prog RespValue
  | userKey :: field :: rest => do
    match ← readHashMeta ctx userKey with
    | none => return .array (List.replicate (field :: rest).length (.bulkString none))
    | some meta' =>
      let values ← readFields ctx userKey meta'.version (field :: rest)
      return .array values
  | _ => raise (.wrongArgCount "HMGET")

/-- Add the field and the value of an element to a reply. -/
def pushField (result : List RespValue) (item : Entry) : Prog (List RespValue) :=
  match ctx.parseSubkey item.1 with
  | none => raise (.protocol "invalid subkey encoding")
  | some (_, _, field) => return result ++ [.bulkString (some field), .bulkString (some item.2)]

def hgetall : List Bytes → Prog RespValue
  | [userKey] => do
    match ← readHashMeta ctx userKey with
    | none => return .array []
    | some meta' =>
      let pre := ctx.subKey userKey meta'.version []
      let result ← forEachPage .subkey (fun start => prefixScanPage .subkey pre start hashPageSize)
        [] fun result item => ForInStep.yield <$> pushField ctx result item
      return .array result
  | _ => raise (.wrongArgCount "HGETALL")

/-- The loop of `HDEL`: the batch so far, the fields found and the metadata. -/
def hdelLoop (userKey : Bytes) :
    List Bytes → WriteBatch → Int64 → Metadata → Prog (WriteBatch × Int64 × Metadata)
  | field :: rest, batch, deleted, meta' => do
    let sk := ctx.subKey userKey meta'.version field
    let existed ← Storage.get .subkey sk
    if existed.isSome then
      let size := saturatingSub meta'.size 1
      hdelLoop userKey rest (batch ++ [.delete .subkey sk]) (deleted + 1) { meta' with size }
    else hdelLoop userKey rest batch deleted meta'
  | [], batch, deleted, meta' => return (batch, deleted, meta')

/-- `HDEL key field [field ...]` -/
def hdel : List Bytes → Prog RespValue
  | userKey :: field :: rest => do
    match ← readHashMeta ctx userKey with
    | none => return .integer 0
    | some meta' =>
      let (batch, deleted, meta') ← hdelLoop ctx userKey (field :: rest) [] 0 meta'
      Storage.write (if 0 < deleted then
        batch ++ [.put .metadata (ctx.metaKey userKey) (encodeMetadata meta')] else batch)
      return .integer deleted
  | _ => raise (.wrongArgCount "HDEL")

/-- `HEXISTS key field` -/
def hexists : List Bytes → Prog RespValue
  | [userKey, field] => do
    match ← readHashMeta ctx userKey with
    | none => return .integer 0
    | some meta' =>
      let v ← Storage.get .subkey (ctx.subKey userKey meta'.version field)
      return .integer (if v.isSome then 1 else 0)
  | _ => raise (.wrongArgCount "HEXISTS")

def hlen : List Bytes → Prog RespValue
  | [userKey] => do
    match ← readHashMeta ctx userKey with
    | none => return .integer 0
    | some meta' => return .integer meta'.size.toInt64
  | _ => raise (.wrongArgCount "HLEN")

section Cursors

/-- A hexadecimal digit, in lower case. -/
def hexDigit (n : UInt8) : UInt8 := if n < 10 then 0x30 + n else 0x57 + n

/-- The value of a hexadecimal digit. -/
def hexValue (byte : UInt8) : Option UInt8 :=
  if 0x30 ≤ byte ∧ byte ≤ 0x39 then some (byte - 0x30)
  else if 0x61 ≤ byte ∧ byte ≤ 0x66 then some (byte - 0x57)
  else if 0x41 ≤ byte ∧ byte ≤ 0x46 then some (byte - 0x37)
  else none

def encodeCursor (key : Bytes) : Bytes :=
  if key = [] then ascii "0"
  else key.flatMap fun byte => [hexDigit (byte / 16), hexDigit (byte % 16)]

/-- `u8::from_str_radix` of two bytes in base 16. A plus sign is accepted. -/
def hexPair (high low : UInt8) : Option UInt8 :=
  if high = 0x2B then hexValue low
  else do
    let h ← hexValue high
    let l ← hexValue low
    return h * 16 + l

/-- The bytes that the two-byte pieces of a text denote. Cutting a character in
two panics. -/
def hexPairs : Bytes → Except Fault (Option Bytes)
  | high :: low :: rest =>
    if isContinuation high || rest.head?.any isContinuation then .error .panic
    else
      match hexPair high low with
      | none => .ok none
      | some byte => (hexPairs rest).map (Option.map (byte :: ·))
  | _ => .ok (some [])

def decodeCursor (text : Bytes) : Except Fault (Option Bytes) :=
  if text = [] ∨ text = ascii "0" then .ok (some [])
  else if text.length % 2 ≠ 0 then .ok none
  else hexPairs text

/-- The page size `HSCAN` asks for. -/
def hscanCount : List Bytes → Prog ℕ
  | option :: value :: _ =>
    if isKeyword option "COUNT" then parseUsize value else raise (.command "syntax error")
  | [_] => raise (.command "syntax error")
  | [] => return 10

/-- Add the fields and values of a page to a reply. -/
def pushFields : List Entry → List RespValue → Prog (List RespValue)
  | [], result => return result
  | item :: items, result => do
    let result ← pushField ctx result item
    pushFields items result

/-- `HSCAN key cursor [COUNT count]` -/
def hscan : List Bytes → Prog RespValue
  | userKey :: cursor :: options =>
    if ¬ isUtf8 cursor then raise (.command "invalid cursor")
    else do
      let count ← hscanCount options
      match ← Program.ofExcept (decodeCursor cursor) with
      | none => raise (.command "invalid cursor")
      | some startKey =>
        match ← readHashMeta ctx userKey with
        | none => return .array [.bulkString (some (ascii "0")), .array []]
        | some meta' =>
          let pre := ctx.subKey userKey meta'.version []
          let (items, nextKey) ← prefixScanPage .subkey pre startKey count
          let entries ← pushFields ctx items []
          return .array [.bulkString (some (encodeCursor (nextKey.getD []))), .array entries]
  | _ => raise (.wrongArgCount "HSCAN")

end Cursors

end Kvdb.Cmd
