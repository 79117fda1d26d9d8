import Kvdb.Command.Basic

/-!
# Sorted-set commands

A sorted set has two indexes: the score of each member, and the pairs of score
and member in score order. Every write goes to both, in one batch. The score is
stored in bytes that sort like the number.
-/

namespace Kvdb.Cmd

open Data Semantics

variable (ctx : CommandContext)

section Scores

/-- How many pairs one page of a sorted set has. -/
def zsetPageSize : ℕ := 1024

def flipFirst : Bytes → Bytes
  | [] => []
  | byte :: rest => (byte ^^^ 0x80) :: rest

def flipAll (bytes : Bytes) : Bytes := bytes.map (· ^^^ 0xFF)

/-- A score in bytes that sort like the score: the sign bit of a positive score
is flipped, and all bits of a negative one. -/
def encodeScore (score : F64) : Bytes :=
  if score.bits &&& signBit = 0 then flipFirst (u64Bytes score.bits)
  else flipAll (u64Bytes score.bits)

def decodeScore (bytes : Bytes) : F64 :=
  if firstByte bytes &&& 0x80 ≠ 0 then ⟨u64OfBytes (flipFirst bytes)⟩
  else ⟨u64OfBytes (flipAll bytes)⟩

/-- The score in a stored value. A value that is too short panics. -/
def scoreOfValue (bytes : Bytes) : Prog F64 :=
  if bytes.length < 8 then .fail .panic else return decodeScore (bytes.take 8)

def toAsciiLowercase (text : Bytes) : Bytes :=
  text.map fun byte => if 0x41 ≤ byte ∧ byte ≤ 0x5A then byte + 0x20 else byte

def parseScore (text : Bytes) : Prog F64 :=
  let lower := toAsciiLowercase text
  let parsed :=
    if lower = ascii "inf" ∨ lower = ascii "+inf" then some F64.infinity
    else if lower = ascii "-inf" then some F64.negInfinity
    else ctx.floats.parse text
  match parsed with
  | none => raise .notInteger
  | some score => if score.isNan then raise .notInteger else return score

def formatScore (score : F64) : Bytes :=
  if (ctx.floats.fract score).eq ⟨0⟩ ∧ score.isFinite then ctx.floats.formatWhole score
  else ctx.floats.format score

end Scores

section Access

/-- Load the metadata of a key. An expired record of any composite type counts
as absent. -/
def loadMeta (userKey : Bytes) : Prog (Option Metadata) := do
  match ← ctx.getMeta userKey with
  | none => return none
  | some v =>
    if v = [] then return none
    else
      match DataType.fromCode (firstByte v &&& 0x0F) with
      | none => raise (.protocol "invalid data type")
      | some dataType =>
        if dataType = .string then .fail wrongTypeError
        else
          match decodeMetadata v with
          | none => raise (.protocol "invalid metadata encoding")
          | some meta' =>
            let now ← nowMs
            if meta'.isExpired now then return none else return some meta'

/-- Load the metadata of a sorted set. -/
def readZsetMeta (userKey : Bytes) : Prog (Option Metadata) := do
  match ← loadMeta ctx userKey with
  | some meta' => if meta'.dataType ≠ some .zset then .fail wrongTypeError else return some meta'
  | none => return none

/-- Load or create the metadata of a sorted set. -/
def ensureZsetMeta (userKey : Bytes) : Prog Metadata := do
  match ← readZsetMeta ctx userKey with
  | some meta' => return meta'
  | none =>
    let version ← generateVersion
    return Metadata.new .zset version

def memberSubkey (userKey : Bytes) (version : UInt64) (member : Bytes) : Bytes :=
  ctx.subKey userKey version member

def scoreSubkey (userKey : Bytes) (version : UInt64) (score : F64) (member : Bytes) : Bytes :=
  ctx.subKey userKey version (encodeScore score ++ member)

/-- The least key of a score. -/
def scoreSeekKey (userKey : Bytes) (version : UInt64) (score : F64) : Bytes :=
  scoreSubkey ctx userKey version score []

def parseScoreSubkey (key : Bytes) : Option (F64 × Bytes) :=
  match ctx.parseSubkey key with
  | none => none
  | some (_, _, sub) =>
    if sub.length < 8 then none else some (decodeScore (sub.take 8), sub.drop 8)

def scorePairs : List Entry → Prog (List (F64 × Bytes))
  | [] => return []
  | item :: items => do
    match parseScoreSubkey ctx item.1 with
    | none => raise (.protocol "invalid zset score subkey")
    | some pair =>
      let pairs ← scorePairs items
      return pair :: pairs

/-- A page of pairs in ascending order. -/
def iterScorePage (userKey : Bytes) (version : UInt64) (startKey : Bytes) :
    Prog (List (F64 × Bytes) × Option Bytes) := do
  let (items, nextKey) ←
    prefixScanPage .zsetScore (ctx.subKey userKey version []) startKey zsetPageSize
  let pairs ← scorePairs ctx items
  return (pairs, nextKey)

/-- A page of pairs in descending order. -/
def iterScorePageReverse (userKey : Bytes) (version : UInt64) (startKey : Bytes) :
    Prog (List (F64 × Bytes) × Option Bytes) := do
  let (items, nextKey) ←
    prefixScanPageReverse .zsetScore (ctx.subKey userKey version []) startKey zsetPageSize
  let pairs ← scorePairs ctx items
  return (pairs, nextKey)

end Access

section Add

structure ZaddFlags where
  nx : Bool
  xx : Bool
  gt : Bool
  lt : Bool
  ch : Bool
  incr : Bool
deriving DecidableEq, Repr

/-- Read options up to the first argument that is none. -/
def zaddOptions : List Bytes → ZaddFlags → ZaddFlags × List Bytes
  | [], flags => (flags, [])
  | arg :: rest, flags =>
    if isKeyword arg "NX" then zaddOptions rest { flags with nx := true }
    else if isKeyword arg "XX" then zaddOptions rest { flags with xx := true }
    else if isKeyword arg "GT" then zaddOptions rest { flags with gt := true }
    else if isKeyword arg "LT" then zaddOptions rest { flags with lt := true }
    else if isKeyword arg "CH" then zaddOptions rest { flags with ch := true }
    else if isKeyword arg "INCR" then zaddOptions rest { flags with incr := true }
    else (flags, arg :: rest)

/-- Read the options of `ZADD`, with the arguments behind them. -/
def parseZaddFlags (args : List Bytes) : Prog (ZaddFlags × List Bytes) :=
  let (flags, rest) := zaddOptions args ⟨false, false, false, false, false, false⟩
  if flags.nx ∧ flags.xx then
    raise (.command "XX and NX options at the same time are not compatible")
  else if flags.gt ∧ flags.lt then
    raise (.command "GT, LT, and/or NX options at the same time are not compatible")
  else if flags.nx ∧ (flags.gt ∨ flags.lt) then
    raise (.command "GT, LT, and/or NX options at the same time are not compatible")
  else return (flags, rest)

def putScore (userKey : Bytes) (version : UInt64) (score : F64) (member : Bytes) : WriteBatch :=
  [.put .subkey (memberSubkey ctx userKey version member) (encodeScore score),
    .put .zsetScore (scoreSubkey ctx userKey version score member) []]

/-- The `INCR` mode of `ZADD`, for one member. -/
def zaddIncr (userKey : Bytes) (flags : ZaddFlags) (meta' : Metadata) (scoreArg member : Bytes) :
    Prog RespValue := do
  let score ← parseScore ctx scoreArg
  let existing ← Storage.get .subkey (memberSubkey ctx userKey meta'.version member)
  if flags.nx ∧ existing.isSome then return .bulkString none
  else if flags.xx ∧ existing.isNone then return .bulkString none
  else
    match existing with
    | some oldBytes =>
      let oldScore ← scoreOfValue oldBytes
      let newScore := ctx.floats.add oldScore score
      if ¬ newScore.isFinite then raise (.command "increment would produce NaN or Infinity")
      else if flags.gt ∧ newScore.le oldScore then return .bulkString none
      else if flags.lt ∧ oldScore.le newScore then return .bulkString none
      else
        Storage.write (.delete .zsetScore (scoreSubkey ctx userKey meta'.version oldScore member) ::
          putScore ctx userKey meta'.version newScore member ++
          [.put .metadata (ctx.metaKey userKey) (encodeMetadata meta')])
        return .bulkString (some (formatScore ctx newScore))
    | none =>
      let meta' := { meta' with size := meta'.size + 1 }
      Storage.write (putScore ctx userKey meta'.version score member ++
        [.put .metadata (ctx.metaKey userKey) (encodeMetadata meta')])
      return .bulkString (some (formatScore ctx score))

/-- Set the score of a member, replacing an earlier one. -/
def insertUpdate (member : Bytes) (score : F64) : List (Bytes × F64) → List (Bytes × F64)
  | [] => [(member, score)]
  | (m, s) :: rest =>
    if m = member then (m, score) :: rest else (m, s) :: insertUpdate member score rest

/-- The scores the arguments give to members, the last one for each. -/
def zaddUpdates : List Bytes → List (Bytes × F64) → Prog (List (Bytes × F64))
  | scoreArg :: member :: rest, updates => do
    let score ← parseScore ctx scoreArg
    zaddUpdates rest (insertUpdate member score updates)
  | _, updates => return updates

/-- What the loop of `ZADD` carries. -/
structure ZaddState where
  batch : WriteBatch
  added : Int64
  changed : Int64
  meta' : Metadata

def zaddLoop (userKey : Bytes) (flags : ZaddFlags) :
    List (Bytes × F64) → ZaddState → Prog ZaddState
  | [], state => return state
  | (member, score) :: rest, state => do
    let version := state.meta'.version
    match ← Storage.get .subkey (memberSubkey ctx userKey version member) with
    | some oldBytes =>
      let oldScore ← scoreOfValue oldBytes
      if flags.nx then zaddLoop userKey flags rest state
      else if flags.gt ∧ score.le oldScore then zaddLoop userKey flags rest state
      else if flags.lt ∧ oldScore.le score then zaddLoop userKey flags rest state
      else if oldScore.eq score then zaddLoop userKey flags rest state
      else
        zaddLoop userKey flags rest { state with
          batch :=
            state.batch ++ (.delete .zsetScore (scoreSubkey ctx userKey version oldScore member)
            :: putScore ctx userKey version score member)
          changed := state.changed + 1 }
    | none =>
      if flags.xx then zaddLoop userKey flags rest state
      else
        zaddLoop userKey flags rest
          { batch := state.batch ++ putScore ctx userKey version score member
            added := state.added + 1
            changed := state.changed + 1
            meta' := { state.meta' with size := state.meta'.size + 1 } }

/-- The updates in the order the hash table lists its members. -/
def zaddOrder (updates : List (Bytes × F64)) : Prog (List (Bytes × F64)) := do
  let members ← hashOrder (updates.map Prod.fst)
  return members.filterMap fun member => (updates.lookup member).map fun score => (member, score)

/-- `ZADD key [NX|XX] [GT|LT] [CH] [INCR] score member [score member ...]` -/
def zadd : List Bytes → Prog RespValue
  | userKey :: arg :: arg' :: args => do
    let (flags, pairs) ← parseZaddFlags (arg :: arg' :: args)
    if pairs = [] ∨ pairs.length % 2 ≠ 0 then raise (.wrongArgCount "ZADD")
    else if flags.incr ∧ pairs.length ≠ 2 then
      raise (.command "INCR option supports a single increment-element pair")
    else
      let meta' ← ensureZsetMeta ctx userKey
      if flags.incr then
        match pairs with
        | [scoreArg, member] => zaddIncr ctx userKey flags meta' scoreArg member
        | _ => .fail .panic
      else
        let updates ← zaddUpdates ctx pairs []
        let updates ← zaddOrder updates
        let state ← zaddLoop ctx userKey flags updates ⟨[], 0, 0, meta'⟩
        Storage.write (state.batch ++
          [.put .metadata (ctx.metaKey userKey) (encodeMetadata state.meta')])
        return .integer (if flags.ch then state.changed else state.added)
  | _ => raise (.wrongArgCount "ZADD")

end Add

section Remove

/-- The loop of `ZREM`: the batch, the members found and the metadata. -/
def zremLoop (userKey : Bytes) :
    List Bytes → WriteBatch → Int64 → Metadata → Prog (WriteBatch × Int64 × Metadata)
  | [], batch, removed, meta' => return (batch, removed, meta')
  | member :: rest, batch, removed, meta' => do
    let mkey := memberSubkey ctx userKey meta'.version member
    match ← Storage.get .subkey mkey with
    | none => zremLoop userKey rest batch removed meta'
    | some oldBytes =>
      let oldScore ← scoreOfValue oldBytes
      let skey := scoreSubkey ctx userKey meta'.version oldScore member
      let size := saturatingSub meta'.size 1
      zremLoop userKey rest (batch ++ [.delete .subkey mkey, .delete .zsetScore skey]) (removed + 1)
        { meta' with size }

/-- `ZREM key member [member ...]` -/
def zrem : List Bytes → Prog RespValue
  | userKey :: member :: rest => do
    match ← readZsetMeta ctx userKey with
    | none => return .integer 0
    | some meta' =>
      let (batch, removed, meta') ← zremLoop ctx userKey (member :: rest) [] 0 meta'
      if 0 < removed then
        Storage.write (batch ++ [.put .metadata (ctx.metaKey userKey) (encodeMetadata meta')])
        return .integer removed
      else return .integer removed
  | _ => raise (.wrongArgCount "ZREM")

/-- `ZINCRBY key increment member` -/
def zincrby : List Bytes → Prog RespValue
  | [userKey, incrementArg, member] => do
    let increment ← parseScore ctx incrementArg
    let meta' ← ensureZsetMeta ctx userKey
    match ← Storage.get .subkey (memberSubkey ctx userKey meta'.version member) with
    | some oldBytes =>
      let oldScore ← scoreOfValue oldBytes
      let newScore := ctx.floats.add oldScore increment
      if ¬ newScore.isFinite then raise (.command "increment would produce NaN or Infinity")
      else
        Storage.write (.delete .zsetScore (scoreSubkey ctx userKey meta'.version oldScore member) ::
          putScore ctx userKey meta'.version newScore member ++
          [.put .metadata (ctx.metaKey userKey) (encodeMetadata meta')])
        return .bulkString (some (formatScore ctx newScore))
    | none =>
      let meta' := { meta' with size := meta'.size + 1 }
      Storage.write (putScore ctx userKey meta'.version increment member ++
        [.put .metadata (ctx.metaKey userKey) (encodeMetadata meta')])
      return .bulkString (some (formatScore ctx increment))
  | _ => raise (.wrongArgCount "ZINCRBY")

end Remove

section Read

def readScore (userKey : Bytes) (version : UInt64) (member : Bytes) : Prog (Option F64) := do
  match ← Storage.get .subkey (memberSubkey ctx userKey version member) with
  | none => return none
  | some bytes =>
    let score ← scoreOfValue bytes
    return some score

/-- `ZSCORE key member` -/
def zscore : List Bytes → Prog RespValue
  | [userKey, member] => do
    match ← readZsetMeta ctx userKey with
    | none => return .bulkString none
    | some meta' =>
      let score ← readScore ctx userKey meta'.version member
      return .bulkString (score.map (formatScore ctx))
  | _ => raise (.wrongArgCount "ZSCORE")

def zcard : List Bytes → Prog RespValue
  | [userKey] => do
    match ← readZsetMeta ctx userKey with
    | none => return .integer 0
    | some meta' => return .integer meta'.size.toInt64
  | _ => raise (.wrongArgCount "ZCARD")

/-- A rank index, counted from the end if it is negative. -/
def normalizeRank (idx len : Int64) : Int64 :=
  if idx < 0 then (if len + idx < 0 then 0 else len + idx) else idx

/-- The first rank and the number of ranks between two indexes. -/
def rankRange (len start stop : Int64) : ℕ × ℕ :=
  let s := normalizeRank start len
  let e := normalizeRank stop len
  if e < s ∨ len ≤ s then (0, 0)
  else
    let e := if len - 1 < e then len - 1 else e
    (s.toUInt64.toNat, (e - s + 1).toUInt64.toNat)

/-- A page of the score index, from the top down if asked. The first page from
the top starts at an explicit upper bound. -/
def rankPage (pre : Bytes) (reverse : Bool) (currentKey : Bytes) : Prog Page :=
  if reverse then
    if currentKey = [] then
      prefixScanPageReverse .zsetScore pre (pre ++ List.replicate 8 0xFF) zsetPageSize
    else prefixScanPageReverse .zsetScore pre currentKey zsetPageSize
  else prefixScanPage .zsetScore pre currentKey zsetPageSize

/-- The body of a rank scan: skip up to the first rank, collect until there are
enough. -/
def rankBody (startRank count : ℕ) (acc : List (F64 × Bytes) × ℕ) (item : Entry) :
    Prog (ForInStep (List (F64 × Bytes) × ℕ)) :=
  match parseScoreSubkey ctx item.1 with
  | none => raise (.protocol "invalid zset score subkey")
  | some pair =>
    let (result, skipped) := acc
    if skipped < startRank then return .yield (result, skipped + 1)
    else
      let result := result ++ [pair]
      if count ≤ result.length then return .done (result, skipped)
      else return .yield (result, skipped)

def collectRankRangeItems (userKey : Bytes) (version : UInt64) (startRank count : ℕ)
    (reverse : Bool) : Prog (List (F64 × Bytes)) :=
  if count = 0 then return []
  else do
    let (result, _) ← forEachPage .zsetScore (rankPage (ctx.subKey userKey version []) reverse)
      ([], 0) (rankBody ctx startRank count)
    return result

/-- A pair in a reply, with its score if asked. -/
def pairReply (withScores : Bool) (pair : F64 × Bytes) : List RespValue :=
  if withScores then [.bulkString (some pair.2), .bulkString (some (formatScore ctx pair.1))]
  else [.bulkString (some pair.2)]

/-- Whether scores were asked for by the last argument of a rank range. -/
def withScoresOption : List Bytes → Prog Bool
  | [] => return false
  | option :: _ =>
    if isKeyword option "WITHSCORES" then return true else raise (.command "syntax error")

def rangeByRank (name : String) (reverse : Bool) (args : List Bytes) : Prog RespValue :=
  match args with
  | userKey :: startArg :: stopArg :: options =>
    if 1 < options.length then raise (.wrongArgCount name)
    else do
      let withScores ← withScoresOption options
      match ← readZsetMeta ctx userKey with
      | none => return .array []
      | some meta' =>
        let start ← parseI64 startArg
        let stop ← parseI64 stopArg
        let (startRank, count) := rankRange meta'.size.toInt64 start stop
        let items ← collectRankRangeItems ctx userKey meta'.version startRank count reverse
        return .array (items.flatMap (pairReply ctx withScores))
  | _ => raise (.wrongArgCount name)

/-- `ZRANGE key start stop [WITHSCORES]` -/
def zrange : List Bytes → Prog RespValue := rangeByRank ctx "ZRANGE" false

/-- `ZREVRANGE key start stop [WITHSCORES]` -/
def zrevrange : List Bytes → Prog RespValue := rangeByRank ctx "ZREVRANGE" true

structure ScoreRangeOptions where
  withScores : Bool
  offset : ℕ
  count : ℕ

def parseScoreRangeOptions : List Bytes → ScoreRangeOptions → Prog ScoreRangeOptions
  | [], opts => return opts
  | arg :: rest, opts =>
    if isKeyword arg "WITHSCORES" then parseScoreRangeOptions rest { opts with withScores := true }
    else if isKeyword arg "LIMIT" then
      match rest with
      | offsetArg :: countArg :: rest => do
        let offset ← parseUsize offsetArg
        let count ← parseUsize countArg
        parseScoreRangeOptions rest { opts with offset, count }
      | _ => raise (.command "syntax error")
    else raise (.command "syntax error")

/-- What a score scan carries: the reply, and how many pairs it has met and
matched. -/
structure ScoreScan where
  result : List RespValue
  seen : ℕ
  matched : ℕ

/-- Take a pair of the range: skip up to the offset, stop at the count. -/
def takeScored (opts : ScoreRangeOptions) (scan : ScoreScan) (pair : F64 × Bytes) :
    ForInStep ScoreScan :=
  let scan := { scan with seen := scan.seen + 1 }
  if scan.seen ≤ opts.offset then .yield scan
  else
    let scan := { scan with
      result := scan.result ++ pairReply ctx opts.withScores pair
      matched := scan.matched + 1 }
    if 0 < opts.count ∧ opts.count ≤ scan.matched then .done scan else .yield scan

/-- `ZRANGEBYSCORE key min max [WITHSCORES] [LIMIT offset count]` -/
def zrangebyscore : List Bytes → Prog RespValue
  | userKey :: minArg :: maxArg :: options => do
    match ← readZsetMeta ctx userKey with
    | none => return .array []
    | some meta' =>
      let min ← parseScore ctx minArg
      let max ← parseScore ctx maxArg
      let opts ← parseScoreRangeOptions options ⟨false, 0, 0⟩
      let startKey := scoreSeekKey ctx userKey meta'.version min
      let scan ← forEachPageFrom .zsetScore startKey (iterScorePage ctx userKey meta'.version)
        ⟨[], 0, 0⟩ fun scan pair =>
          if max.lt pair.1 then return .done scan else return takeScored ctx opts scan pair
      return .array scan.result
  | _ => raise (.wrongArgCount "ZRANGEBYSCORE")

/-- `ZREVRANGEBYSCORE key max min [WITHSCORES] [LIMIT offset count]` -/
def zrevrangebyscore : List Bytes → Prog RespValue
  | userKey :: maxArg :: minArg :: options => do
    match ← readZsetMeta ctx userKey with
    | none => return .array []
    | some meta' =>
      let max ← parseScore ctx maxArg
      let min ← parseScore ctx minArg
      let opts ← parseScoreRangeOptions options ⟨false, 0, 0⟩
      let scan ← forEachPage .zsetScore (iterScorePageReverse ctx userKey meta'.version)
        ⟨[], 0, 0⟩ fun scan pair =>
          if max.lt pair.1 then return .yield scan
          else if pair.1.lt min then return .done scan
          else return takeScored ctx opts scan pair
      return .array scan.result
  | _ => raise (.wrongArgCount "ZREVRANGEBYSCORE")

/-- The rank of a member, or the number of pairs met without finding it. -/
inductive RankScan where
  | found (rank : Int64)
  | missing (rank : Int64)

def rankSearch (targetScore : F64) (target : Bytes) (scan : RankScan) (item : Entry) :
    Prog (ForInStep RankScan) :=
  match scan with
  | .found rank => return .done (.found rank)
  | .missing rank =>
    match parseScoreSubkey ctx item.1 with
    | none => raise (.protocol "invalid zset score subkey")
    | some (score, member) =>
      if score.eq targetScore ∧ member = target then return .done (.found rank)
      else return .yield (.missing (rank + 1))

/-- The rank of a member from one of the two ends. -/
def rankOf (name : String) (reverse : Bool) : List Bytes → Prog RespValue
  | [userKey, target] => do
    match ← readZsetMeta ctx userKey with
    | none => return .bulkString none
    | some meta' =>
      match ← readScore ctx userKey meta'.version target with
      | none => return .bulkString none
      | some targetScore =>
        let scan ← forEachPage .zsetScore
          (rankPage (ctx.subKey userKey meta'.version []) reverse) (.missing 0)
          (rankSearch ctx targetScore target)
        match scan with
        | .found rank => return .integer rank
        | .missing _ => return .bulkString none
  | _ => raise (.wrongArgCount name)

/-- `ZRANK key member` -/
def zrank : List Bytes → Prog RespValue := rankOf ctx "ZRANK" false

/-- `ZREVRANK key member` -/
def zrevrank : List Bytes → Prog RespValue := rankOf ctx "ZREVRANK" true

end Read

end Kvdb.Cmd
