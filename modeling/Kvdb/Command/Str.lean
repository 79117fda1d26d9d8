import Kvdb.Command.Basic

/-!
# String and generic commands

The commands on string values, and the ones that work on keys of any type:
deletion, existence and expiry.
-/

namespace Kvdb.Cmd

open Data Semantics

variable (ctx : CommandContext)

section Strings

def stringFlags : UInt8 := buildFlags .string

def readString (userKey : Bytes) : Prog (Option Bytes) := do
  match ← ctx.getMeta userKey with
  | none => return none
  | some v =>
    match decodeString v with
    | none => raise (.protocol "invalid string encoding")
    | some (flags, expire, payload) =>
      if flags &&& 0x0F ≠ DataType.string.code then .fail wrongTypeError
      else
        let now ← nowMs
        if expiredAt expire now then return none else return some payload

/-- Write a string value that does not expire. -/
def writeString (userKey payload : Bytes) : Prog Unit :=
  Storage.put .metadata (ctx.metaKey userKey) (encodeString stringFlags 0 payload)

def get : List Bytes → Prog RespValue
  | [userKey] => do
    let v ← readString ctx userKey
    return .bulkString v
  | _ => raise (.wrongArgCount "GET")

structure SetOptions where
  expireMs : Int64
  nx : Bool
  xx : Bool

def setOptions : List Bytes → SetOptions → Prog SetOptions
  | [], opts => return opts
  | opt :: rest, opts =>
    if isKeyword opt "EX" then
      match rest with
      | [] => raise (.command "syntax error")
      | value :: rest => do
        let secs ← parseI64 value
        if secs ≤ 0 then raise (.command "invalid expire time")
        else
          let now ← nowMs
          setOptions rest { opts with expireMs := now + secs * 1000 }
    else if isKeyword opt "PX" then
      match rest with
      | [] => raise (.command "syntax error")
      | value :: rest => do
        let ms ← parseI64 value
        if ms ≤ 0 then raise (.command "invalid expire time")
        else
          let now ← nowMs
          setOptions rest { opts with expireMs := now + ms }
    else if isKeyword opt "NX" then setOptions rest { opts with nx := true }
    else if isKeyword opt "XX" then setOptions rest { opts with xx := true }
    else raise (.command "syntax error")

/-- A metadata value whose deadline has passed. -/
def isExpiredValue (v : Bytes) (now : Int64) : Bool :=
  if v = [] then false
  else if firstByte v &&& flagsTypeMask = DataType.string.code then
    match decodeString v with
    | some (_, expire, _) => expiredAt expire now
    | none => false
  else
    match decodeMetadata v with
    | some meta' => expiredAt meta'.expire now
    | none => false

/-- A key exists and has not expired. -/
def keyExists (userKey : Bytes) : Prog Bool := do
  match ← ctx.getMeta userKey with
  | none => return false
  | some v =>
    let now ← nowMs
    return !isExpiredValue v now

/-- `SET key value [EX seconds] [PX milliseconds] [NX|XX]` -/
def set : List Bytes → Prog RespValue
  | userKey :: value :: options => do
    let opts ← setOptions options ⟨0, false, false⟩
    if opts.nx ∧ opts.xx then raise (.command "syntax error")
    else
      let found ← keyExists ctx userKey
      if opts.nx ∧ found then return .bulkString none
      else if opts.xx ∧ ¬ found then return .bulkString none
      else
        Storage.put .metadata (ctx.metaKey userKey) (encodeString stringFlags opts.expireMs value)
        return .simpleString "OK"
  | _ => raise (.wrongArgCount "SET")

/-- The values of several string keys, in order. -/
def readStrings : List Bytes → Prog (List RespValue)
  | [] => return []
  | userKey :: rest => do
    let value ← readString ctx userKey
    let values ← readStrings rest
    return .bulkString value :: values

/-- `MGET key [key ...]` -/
def mget : List Bytes → Prog RespValue
  | [] => raise (.wrongArgCount "MGET")
  | userKeys => do
    let values ← readStrings ctx userKeys
    return .array values

def msetBatch : List Bytes → WriteBatch
  | userKey :: value :: rest =>
    .put .metadata (ctx.metaKey userKey) (encodeString stringFlags 0 value) :: msetBatch rest
  | _ => []

/-- `MSET key value [key value ...]` -/
def mset (args : List Bytes) : Prog RespValue :=
  if args.length % 2 ≠ 0 then raise (.wrongArgCount "MSET")
  else do
    Storage.write (msetBatch ctx args)
    return .simpleString "OK"

/-- Read a string as an integer. An absent key counts as zero. -/
def readInteger (userKey : Bytes) : Prog Int64 := do
  match ← readString ctx userKey with
  | some v => parseI64 v
  | none => return 0

def stepInteger (name : String) (next : Int64 → Option Int64) : List Bytes → Prog RespValue
  | [userKey] => ctx.withKeyLock userKey do
    let current ← readInteger ctx userKey
    match next current with
    | none => raise .outOfRange
    | some new =>
      writeString ctx userKey (renderI64 new)
      return .integer new
  | _ => raise (.wrongArgCount name)

def incr : List Bytes → Prog RespValue :=
  stepInteger ctx "INCR" fun n => if n = Int64.maxValue then none else some (n + 1)

def decr : List Bytes → Prog RespValue :=
  stepInteger ctx "DECR" fun n => if n = Int64.minValue then none else some (n - 1)

def append : List Bytes → Prog RespValue
  | [userKey, suffix] => ctx.withKeyLock userKey do
    let current ← readString ctx userKey
    let value := current.getD [] ++ suffix
    writeString ctx userKey value
    return .integer (Int64.ofNat value.length)
  | _ => raise (.wrongArgCount "APPEND")

end Strings

section Expiry

/-- The deadline of a key: nothing for an absent key, and no deadline for a key
that does not expire. -/
def readExpire (userKey : Bytes) : Prog (Option (Option Int64)) := do
  match ← ctx.getMeta userKey with
  | none => return none
  | some v =>
    if v = [] then return none
    else if firstByte v &&& flagsTypeMask = DataType.string.code then
      match decodeString v with
      | none => raise (.protocol "invalid string encoding")
      | some (_, expire, _) => return some (if 0 < expire then some expire else none)
    else
      match decodeMetadata v with
      | none => raise (.protocol "invalid metadata encoding")
      | some meta' => return some (if 0 < meta'.expire then some meta'.expire else none)

/-- A metadata value with another deadline. -/
def withExpire (v : Bytes) (expireMs : Int64) : Except Fault Bytes :=
  if firstByte v &&& flagsTypeMask = DataType.string.code then
    match decodeString v with
    | none => .error (.error (.protocol "invalid string encoding"))
    | some (flags, _, payload) => .ok (encodeString flags expireMs payload)
  else
    match decodeMetadata v with
    | none => .error (.error (.protocol "invalid metadata encoding"))
    | some meta' => .ok (encodeMetadata { meta' with expire := expireMs })

def setExpireMs (userKey : Bytes) (expireMs : Int64) : Prog Bool := do
  match ← ctx.getMeta userKey with
  | none => return false
  | some v =>
    if v = [] then return false
    else
      let encoded ← Program.ofExcept (withExpire v expireMs)
      Storage.put .metadata (ctx.metaKey userKey) encoded
      return true

/-- Remove the deadline of a key. -/
def clearExpire (userKey : Bytes) : Prog Bool := setExpireMs ctx userKey 0

/-- Set a deadline that many units from now. -/
def expireIn (name : String) (unit : Int64) : List Bytes → Prog RespValue
  | [userKey, amount] => do
    let amount ← parseI64 amount
    let now ← nowMs
    let ok ← setExpireMs ctx userKey (now + amount * unit)
    return .integer (if ok then 1 else 0)
  | _ => raise (.wrongArgCount name)

/-- `EXPIRE key seconds` -/
def expire : List Bytes → Prog RespValue := expireIn ctx "EXPIRE" 1000

/-- `PEXPIRE key milliseconds` -/
def pexpire : List Bytes → Prog RespValue := expireIn ctx "PEXPIRE" 1

/-- The time to live of a key, from the deadline and the clock. -/
def timeToLive (name : String) (remaining : Int64 → Int64) : List Bytes → Prog RespValue
  | [userKey] => do
    match ← readExpire ctx userKey with
    | none => return .integer (-2)
    | some none => return .integer (-1)
    | some (some expireMs) =>
      let now ← nowMs
      if expireMs ≤ now then return .integer (-2)
      else return .integer (remaining (expireMs - now))
  | _ => raise (.wrongArgCount name)

/-- `TTL key`, in seconds rounded up. -/
def ttl : List Bytes → Prog RespValue := timeToLive ctx "TTL" fun left => (left + 999) / 1000

/-- `PTTL key`, in milliseconds. -/
def pttl : List Bytes → Prog RespValue := timeToLive ctx "PTTL" fun left => left

def persist : List Bytes → Prog RespValue
  | [userKey] => do
    match ← readExpire ctx userKey with
    | none => return .integer 0
    | some none => return .integer 0
    | some (some _) =>
      let _ ← clearExpire ctx userKey
      return .integer 1
  | _ => raise (.wrongArgCount "PERSIST")

end Expiry

section Keys

/-- How many entries one batch of a deletion takes. -/
def delBatchSize : ℕ := 1024

def purgeSubkeys (userKey : Bytes) (version : UInt64) (isZset : Bool) : Prog Unit := do
  let pre := ctx.subKey userKey version []
  deletePrefix .subkey pre delBatchSize
  if isZset then deletePrefix .zsetScore pre delBatchSize else return ()

/-- Delete the elements a metadata value stands for. -/
def purgeValue (userKey metaVal : Bytes) : Prog Unit :=
  if metaVal ≠ [] ∧ firstByte metaVal &&& flagsTypeMask ≠ DataType.string.code then
    match decodeMetadata metaVal with
    | some meta' => purgeSubkeys ctx userKey meta'.version (meta'.dataType = some .zset)
    | none => return ()
  else return ()

/-- Delete keys, counting those that were there. -/
def delLoop : List Bytes → Int64 → Prog Int64
  | [], count => return count
  | userKey :: rest, count => do
    match ← ctx.getMeta userKey with
    | none => delLoop rest count
    | some metaVal =>
      purgeValue ctx userKey metaVal
      Storage.delete .metadata (ctx.metaKey userKey)
      delLoop rest (count + 1)

/-- `DEL key [key ...]` -/
def del : List Bytes → Prog RespValue
  | [] => raise (.wrongArgCount "DEL")
  | userKeys => do
    let count ← delLoop ctx userKeys 0
    return .integer count

/-- Count the keys that have metadata. -/
def existsLoop : List Bytes → Int64 → Prog Int64
  | [], count => return count
  | userKey :: rest, count => do
    let v ← ctx.getMeta userKey
    existsLoop rest (if v.isSome then count + 1 else count)

/-- `EXISTS key [key ...]` -/
def exists' : List Bytes → Prog RespValue
  | [] => raise (.wrongArgCount "EXISTS")
  | userKeys => do
    let count ← existsLoop ctx userKeys 0
    return .integer count

end Keys

end Kvdb.Cmd
