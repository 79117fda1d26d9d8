import Kvdb.Command.Basic

/-!
# Bitmap commands

A bitmap is stored in fragments of 1024 bytes under their index. A fragment
that was never written reads as empty, and bytes beyond a fragment's end read as
zero.
-/

namespace Kvdb.Cmd

open Data Semantics

variable (ctx : CommandContext)

def fragmentBytes : ℕ := 1024

def fragmentBits : ℕ := fragmentBytes * 8

def readBitmapMeta : Bytes → Prog (Option Metadata) :=
  loadLiveMeta ctx .bitmap "invalid bitmap metadata"

def getOrCreateMetadata (userKey : Bytes) : Prog Metadata := do
  match ← readBitmapMeta ctx userKey with
  | some meta' => return meta'
  | none =>
    let version ← generateVersion
    return Metadata.new .bitmap version

def fragmentKey (meta' : Metadata) (userKey : Bytes) (index : ℕ) : Bytes :=
  ctx.subKey userKey meta'.version (u64Bytes (UInt64.ofNat index))

def readFragment (meta' : Metadata) (userKey : Bytes) (index : ℕ) : Prog Bytes := do
  let v ← Storage.get .subkey (fragmentKey ctx meta' userKey index)
  return v.getD []

def parseOffset (text : Bytes) : Prog ℕ :=
  match parseU64 text with
  | some n => return n
  | none => raise (.command "bit offset is not an integer or out of range")

def parseBit (text : Bytes) : Prog Bool :=
  if text = ascii "0" then return false
  else if text = ascii "1" then return true
  else raise (.command "bit is not an integer or out of range")

/-- A byte index counted from the end if it is negative, clamped to the
bitmap. -/
def normalizeIndex (idx size : Int64) : ℕ :=
  let idx := if idx < 0 then size + idx else idx
  let idx := if idx < 0 then 0 else idx
  let idx := if size ≤ idx then size - 1 else idx
  idx.toUInt64.toNat

/-- A bit of a byte, counted from the lowest. -/
def bitOf (byte : UInt8) (bitOff : ℕ) : Bool := byte.toNat.testBit bitOff

def withBit (byte : UInt8) (bitOff : ℕ) (value : Bool) : UInt8 :=
  let mask : UInt8 := (1 : UInt8) <<< UInt8.ofNat bitOff
  if value then byte ||| mask else byte &&& ~~~mask

/-- A fragment filled up with zeros to a length. -/
def resizeTo (frag : Bytes) (length : ℕ) : Bytes :=
  frag ++ List.replicate (length - frag.length) 0

def setbit : List Bytes → Prog RespValue
  | [userKey, offsetArg, valueArg] => do
    let offset ← parseOffset offsetArg
    let value ← parseBit valueArg
    let meta' ← getOrCreateMetadata ctx userKey
    let index := offset / fragmentBits
    let fragOff := offset % fragmentBits / 8
    let bitOff := offset % 8
    let frag ← readFragment ctx meta' userKey index
    let frag := resizeTo frag (fragOff + 1)
    let byte := frag.getD fragOff 0
    let frag := frag.set fragOff (withBit byte bitOff value)
    let bytePos := UInt64.ofNat (offset / 8 + 1)
    let meta' := if meta'.size < bytePos then { meta' with size := bytePos } else meta'
    Storage.write [.put .metadata (ctx.metaKey userKey) (encodeMetadata meta'),
      .put .subkey (fragmentKey ctx meta' userKey index) frag]
    return .integer (if bitOf byte bitOff then 1 else 0)
  | _ => raise (.wrongArgCount "SETBIT")

/-- `GETBIT key offset` -/
def getbit : List Bytes → Prog RespValue
  | [userKey, offsetArg] => do
    let offset ← parseOffset offsetArg
    match ← readBitmapMeta ctx userKey with
    | none => return .integer 0
    | some meta' =>
      let frag ← readFragment ctx meta' userKey (offset / fragmentBits)
      let byte := frag.getD (offset % fragmentBits / 8) 0
      return .integer (if bitOf byte (offset % 8) then 1 else 0)
  | _ => raise (.wrongArgCount "GETBIT")

/-- The number of set bits of a byte. -/
def countOnes (byte : UInt8) : ℕ := (List.range 8).countP fun i => bitOf byte i

/-- Count the set bits of some fragments between two bytes. -/
def bitcountLoop (meta' : Metadata) (userKey : Bytes) (start stop : ℕ) :
    ℕ → ℕ → ℕ → Prog ℕ
  | 0, _, count => return count
  | n + 1, fragIdx, count => do
    let frag ← readFragment ctx meta' userKey fragIdx
    let fragStart := fragIdx * fragmentBytes
    let localStart := start - fragStart
    let localEnd := min (min (stop - fragStart) (fragmentBytes - 1)) (frag.length - 1)
    if frag = [] ∨ localEnd < localStart then
      bitcountLoop meta' userKey start stop n (fragIdx + 1) count
    else
      let bytes := (frag.drop localStart).take (localEnd + 1 - localStart)
      bitcountLoop meta' userKey start stop n (fragIdx + 1) (count + (bytes.map countOnes).sum)

def bitcountRange : List Bytes → Prog (Int64 × Int64)
  | [] => return (0, -1)
  | [startArg, endArg] => do
    let start ← parseI64 startArg
    let stop ← parseI64 endArg
    return (start, stop)
  | _ => raise (.wrongArgCount "BITCOUNT")

/-- `BITCOUNT key [start end]` -/
def bitcount : List Bytes → Prog RespValue
  | [] => raise (.wrongArgCount "BITCOUNT")
  | userKey :: range => do
    let (start, stop) ← bitcountRange range
    match ← readBitmapMeta ctx userKey with
    | none => return .integer 0
    | some meta' =>
      let size := meta'.size.toInt64
      if size = 0 then return .integer 0
      else
        let start := normalizeIndex start size
        let stop := normalizeIndex stop size
        if stop < start then return .integer 0
        else
          let startFrag := start / fragmentBytes
          let endFrag := stop / fragmentBytes
          let count ← bitcountLoop ctx meta' userKey start stop
              (endFrag + 1 - startFrag) startFrag 0
          return .integer (Int64.ofNat count)

/-- The operations of `BITOP`. -/
inductive BitOp where
  | and
  | or
  | xor
  | not
deriving DecidableEq, Repr

def parseOperation (text : Bytes) : Prog BitOp :=
  if isKeyword text "AND" then return .and
  else if isKeyword text "OR" then return .or
  else if isKeyword text "XOR" then return .xor
  else if isKeyword text "NOT" then return .not
  else raise (.command "syntax error")

/-- Combine two bytes. -/
def BitOp.combine : BitOp → UInt8 → UInt8 → UInt8
  | .and, a, b => a &&& b
  | .or, a, b => a ||| b
  | .xor, a, b => a ^^^ b
  | .not, a, _ => a

def loadSources : List Bytes → Prog (List (Bytes × Option Metadata))
  | [] => return []
  | userKey :: rest => do
    let meta' ← readBitmapMeta ctx userKey
    let others ← loadSources rest
    return (userKey, meta') :: others

def paddedFragment (source : Bytes × Option Metadata) (fragIdx fragLen : ℕ) : Prog Bytes := do
  match source.2 with
  | none => return List.replicate fragLen 0
  | some meta' =>
    let frag ← readFragment ctx meta' source.1 fragIdx
    return (resizeTo frag fragLen).take fragLen

/-- Combine a fragment of all sources from left to right. -/
def combineLoop (op : BitOp) (fragIdx fragLen : ℕ) :
    List (Bytes × Option Metadata) → Bytes → Prog Bytes
  | [], result => return result
  | source :: rest, result => do
    let frag ← paddedFragment ctx source fragIdx fragLen
    combineLoop op fragIdx fragLen rest (List.zipWith op.combine result frag)

def resultFragment (op : BitOp) (sources : List (Bytes × Option Metadata)) (fragIdx fragLen : ℕ) :
    Prog Bytes :=
  match sources with
  | [] => return List.replicate fragLen 0
  | source :: rest => do
    let first ← paddedFragment ctx source fragIdx fragLen
    if op = .not then return first.map fun byte => ~~~byte
    else combineLoop ctx op fragIdx fragLen rest first

/-- The fragments of the result of `BITOP`. -/
def bitopLoop (op : BitOp) (destKey : Bytes) (destMeta : Metadata)
    (sources : List (Bytes × Option Metadata)) (maxSize : ℕ) :
    ℕ → ℕ → WriteBatch → Prog WriteBatch
  | 0, _, batch => return batch
  | n + 1, fragIdx, batch => do
    let fragLen := min fragmentBytes (maxSize - fragIdx * fragmentBytes)
    if fragLen = 0 then bitopLoop op destKey destMeta sources maxSize n (fragIdx + 1) batch
    else
      let result ← resultFragment ctx op sources fragIdx fragLen
      bitopLoop op destKey destMeta sources maxSize n (fragIdx + 1)
        (batch ++ [.put .subkey (fragmentKey ctx destMeta destKey fragIdx) result])

/-- `BITOP operation destkey key [key ...]` -/
def bitop : List Bytes → Prog RespValue
  | operation :: destKey :: srcKey :: srcKeys => do
    let op ← parseOperation operation
    if op = .not ∧ (srcKey :: srcKeys).length ≠ 1 then
      raise (.command "BITOP NOT must be called with a single source key")
    else
      let sources ← loadSources ctx (srcKey :: srcKeys)
      let maxSize := sources.foldl
        (fun size source => max size (source.2.elim 0 fun meta' => meta'.size.toNat)) 0
      let version ← generateVersion
      let destMeta := { Metadata.new .bitmap version with size := UInt64.ofNat maxSize }
      let batch := [.put .metadata (ctx.metaKey destKey) (encodeMetadata destMeta)]
      if maxSize = 0 then
        Storage.write batch
        return .integer 0
      else
        let fragments := (maxSize - 1) / fragmentBytes + 1
        let batch ← bitopLoop ctx op destKey destMeta sources maxSize fragments 0 batch
        Storage.write batch
        return .integer (Int64.ofNat maxSize)
  | _ => raise (.wrongArgCount "BITOP")

end Kvdb.Cmd
