import Kvdb.Command.Basic

/-!
# List commands

The elements of a list have consecutive indexes between the head and the tail
of its metadata. An index is stored with its sign bit flipped, so the byte
order of the element keys is the order of the list.
-/

namespace Kvdb.Cmd

open Data Semantics

variable (ctx : CommandContext)

def listPageSize : ℕ := 1024

def loadListMeta : Bytes → Prog (Option Metadata) :=
  loadLiveMeta ctx .list "invalid list metadata"

def encodeIndex (idx : Int64) : Bytes := u64Bytes (idx.toUInt64 ^^^ signBit)

/-- The index that eight bytes denote. Fewer bytes panic. -/
def decodeIndex (bytes : Bytes) : Except Fault Int64 :=
  if bytes.length < 8 then .error .panic
  else .ok (u64OfBytes (bytes.take 8) ^^^ signBit).toInt64

inductive ListEnd where
  | left
  | right
deriving DecidableEq, Repr

/-- The loop of a push: the batch and the metadata after each element. -/
def pushLoop (side : ListEnd) (userKey : Bytes) :
    List Bytes → WriteBatch → Metadata → WriteBatch × Metadata
  | [], batch, meta' => (batch, meta')
  | element :: rest, batch, meta' =>
    match side with
    | .left =>
      let head := meta'.head - 1
      let sk := ctx.subKey userKey meta'.version (encodeIndex head)
      pushLoop side userKey rest (batch ++ [.put .subkey sk element])
        { meta' with head, size := meta'.size + 1 }
    | .right =>
      let tail := meta'.tail + 1
      let sk := ctx.subKey userKey meta'.version (encodeIndex tail)
      pushLoop side userKey rest (batch ++ [.put .subkey sk element])
        { meta' with tail, size := meta'.size + 1 }

def ensureListMeta (userKey : Bytes) : Prog Metadata := do
  match ← loadListMeta ctx userKey with
  | some meta' => return meta'
  | none =>
    let version ← generateVersion
    return Metadata.new .list version

/-- Push elements one after the other. -/
def push (side : ListEnd) : List Bytes → Prog RespValue
  | userKey :: element :: rest => do
    let meta' ← ensureListMeta ctx userKey
    let (batch, meta') := pushLoop ctx side userKey (element :: rest) [] meta'
    Storage.write (batch ++ [.put .metadata (ctx.metaKey userKey) (encodeMetadata meta')])
    return .integer meta'.size.toInt64
  | _ => raise (.wrongArgCount (match side with | .left => "LPUSH" | .right => "RPUSH"))

/-- `LPUSH key element [element ...]` -/
def lpush : List Bytes → Prog RespValue := push ctx .left

/-- `RPUSH key element [element ...]` -/
def rpush : List Bytes → Prog RespValue := push ctx .right

def endIndex (side : ListEnd) (meta' : Metadata) : Int64 :=
  match side with
  | .left => meta'.head
  | .right => meta'.tail

/-- The metadata after an end has moved over one element. -/
def dropEnd (side : ListEnd) (meta' : Metadata) : Metadata :=
  match side with
  | .left => { meta' with head := meta'.head + 1, size := meta'.size - 1 }
  | .right => { meta' with tail := meta'.tail - 1, size := meta'.size - 1 }

/-- An emptied list starts over. -/
def resetEmpty (meta' : Metadata) : Metadata :=
  if meta'.size = 0 then { meta' with head := 0, tail := -1 } else meta'

def popLoop (side : ListEnd) (userKey : Bytes) :
    ℕ → List RespValue → WriteBatch → Metadata → Prog (List RespValue × WriteBatch × Metadata)
  | 0, result, batch, meta' => return (result, batch, meta')
  | n + 1, result, batch, meta' => do
    let sk := ctx.subKey userKey meta'.version (encodeIndex (endIndex side meta'))
    match ← Storage.get .subkey sk with
    | some v =>
      popLoop side userKey n (result ++ [.bulkString (some v)]) (batch ++ [.delete .subkey sk])
        (dropEnd side meta')
    | none => popLoop side userKey n result batch (dropEnd side meta')

/-- Pop one element, or up to a given number. -/
def pop (side : ListEnd) : List Bytes → Prog RespValue
  | [userKey] => do
    match ← loadListMeta ctx userKey with
    | none => return .bulkString none
    | some meta' =>
      if meta'.size = 0 then return .bulkString none
      else
        let sk := ctx.subKey userKey meta'.version (encodeIndex (endIndex side meta'))
        let value ← Storage.get .subkey sk
        let meta' := resetEmpty (dropEnd side meta')
        Storage.write [.delete .subkey sk,
          .put .metadata (ctx.metaKey userKey) (encodeMetadata meta')]
        return .bulkString value
  | [userKey, count] => do
    let count ← parseUsize count
    if count = 0 then return .array []
    else
      match ← loadListMeta ctx userKey with
      | none => return .array []
      | some meta' =>
        if meta'.size = 0 then return .array []
        else
          let actual := min count meta'.size.toNat
          let (result, batch, meta') ← popLoop ctx side userKey actual [] [] meta'
          Storage.write (batch ++
            [.put .metadata (ctx.metaKey userKey) (encodeMetadata (resetEmpty meta'))])
          return .array result
  | _ => raise (.wrongArgCount (match side with | .left => "LPOP" | .right => "RPOP"))

/-- `LPOP key [count]` -/
def lpop : List Bytes → Prog RespValue := pop ctx .left

/-- `RPOP key [count]` -/
def rpop : List Bytes → Prog RespValue := pop ctx .right

/-- The body of the scan of `LRANGE`: skip before the range, stop after it or
once the range is full. -/
def lrangeBody (startIdx endIdx : Int64) (count : ℕ) (result : List RespValue) (item : Entry) :
    Prog (ForInStep (List RespValue)) :=
  match ctx.parseSubkey item.1 with
  | none => raise (.protocol "invalid list subkey")
  | some (_, _, sub) => do
    let idx ← Program.ofExcept (decodeIndex sub)
    if idx < startIdx then return .yield result
    else if endIdx < idx then return .done result
    else
      let result := result ++ [.bulkString (some item.2)]
      if count ≤ result.length then return .done result else return .yield result

/-- `LRANGE key start stop` -/
def lrange : List Bytes → Prog RespValue
  | [userKey, start, stop] => do
    let start ← parseI64 start
    let stop ← parseI64 stop
    match ← loadListMeta ctx userKey with
    | none => return .array []
    | some meta' =>
      if meta'.size = 0 then return .array []
      else
        let len := meta'.size.toInt64
        let s := if start < 0 then start + len else start
        let e := if stop < 0 then stop + len else stop
        let s := if s < 0 then 0 else s
        let e := if len ≤ e then len - 1 else e
        if e < s then return .array []
        else
          let count := (e - s + 1).toUInt64.toNat
          let pre := ctx.subKey userKey meta'.version []
          let result ← forEachPage .subkey
            (fun start => prefixScanPage .subkey pre start listPageSize) []
            (lrangeBody ctx (meta'.head + s) (meta'.head + e) count)
          return .array result
  | _ => raise (.wrongArgCount "LRANGE")

/-- `LINDEX key index` -/
def lindex : List Bytes → Prog RespValue
  | [userKey, index] => do
    let index ← parseI64 index
    match ← loadListMeta ctx userKey with
    | none => return .bulkString none
    | some meta' =>
      if meta'.size = 0 then return .bulkString none
      else
        let len := meta'.size.toInt64
        let i := if index < 0 then index + len else index
        if i < 0 ∨ len ≤ i then return .bulkString none
        else
          let v ← Storage.get .subkey
            (ctx.subKey userKey meta'.version (encodeIndex (meta'.head + i)))
          return .bulkString v
  | _ => raise (.wrongArgCount "LINDEX")

def llen : List Bytes → Prog RespValue
  | [userKey] => do
    match ← loadListMeta ctx userKey with
    | none => return .integer 0
    | some meta' => return .integer meta'.size.toInt64
  | _ => raise (.wrongArgCount "LLEN")

end Kvdb.Cmd
