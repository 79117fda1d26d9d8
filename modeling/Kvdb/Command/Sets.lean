import Kvdb.Command.Basic

/-!
# Set commands

A set keeps one element with an empty value per member. Unlike the hash and
sorted-set commands, additions and removals remember the members they have
already handled.
-/

namespace Kvdb.Cmd

open Data Semantics

variable (ctx : CommandContext)

def readSetMetadata : Bytes → Prog (Option Metadata) :=
  loadLiveMeta ctx .set "invalid set metadata"

/-- How many members one page of a set has. -/
def setOpsChunkSize : ℕ := 1024

/-- How many members the result of `SUNION` may have. -/
def setUnionResultLimit : ℕ := 1000000

/-- The members of a set, in the order of a hash table. -/
def loadMembers (userKey : Bytes) (meta' : Metadata) : Prog (List Bytes) := do
  let items ← prefixScan .subkey (ctx.subKey userKey meta'.version [])
  let members := items.filterMap fun item =>
    match ctx.parseSubkey item.1 with
    | some (parsedKey, version, member) =>
      if parsedKey = userKey ∧ version = meta'.version then some member else none
    | none => none
  hashOrder members.dedup

def iterMembersPage (userKey : Bytes) (version : UInt64) (startKey : Bytes) :
    Prog (List Bytes × Option Bytes) := do
  let (items, nextKey) ←
    prefixScanPage .subkey (ctx.subKey userKey version []) startKey setOpsChunkSize
  let members := items.filterMap fun item =>
    match ctx.parseSubkey item.1 with
    | some (_, v, member) => if v = version then some member else none
    | none => none
  return (members, nextKey)

def memberExists (userKey : Bytes) (version : UInt64) (member : Bytes) : Prog Bool := do
  let v ← Storage.get .subkey (ctx.subKey userKey version member)
  return v.isSome

def saddLoop (userKey : Bytes) (version : UInt64) :
    List Bytes → List Bytes → WriteBatch → Int64 → Prog (WriteBatch × Int64)
  | [], _, batch, added => return (batch, added)
  | member :: rest, seen, batch, added =>
    if member ∈ seen then saddLoop userKey version rest seen batch added
    else do
      let skey := ctx.subKey userKey version member
      match ← Storage.get .subkey skey with
      | none =>
        saddLoop userKey version rest (member :: seen) (batch ++ [.put .subkey skey []]) (added + 1)
      | some _ => saddLoop userKey version rest (member :: seen) batch added

/-- Load or create the metadata of a set, with whether it is new. -/
def ensureSetMeta (userKey : Bytes) : Prog (Metadata × Bool) := do
  match ← readSetMetadata ctx userKey with
  | some meta' => return (meta', false)
  | none =>
    let version ← generateVersion
    return (Metadata.new .set version, true)

/-- `SADD key member [member ...]` -/
def sadd : List Bytes → Prog RespValue
  | userKey :: member :: rest => do
    let (meta', isNew) ← ensureSetMeta ctx userKey
    let (batch, added) ← saddLoop ctx userKey meta'.version (member :: rest) [] [] 0
    if 0 < added ∨ isNew then
      let newMeta := { meta' with size := saturatingAdd meta'.size added.toUInt64 }
      Storage.write (batch ++ [.put .metadata (ctx.metaKey userKey) (encodeMetadata newMeta)])
      return .integer added
    else return .integer added
  | _ => raise (.wrongArgCount "SADD")

def sremLoop (userKey : Bytes) (version : UInt64) :
    List Bytes → List Bytes → WriteBatch → Int64 → Prog (WriteBatch × Int64)
  | [], _, batch, removed => return (batch, removed)
  | member :: rest, seen, batch, removed =>
    if member ∈ seen then sremLoop userKey version rest seen batch removed
    else do
      let skey := ctx.subKey userKey version member
      match ← Storage.get .subkey skey with
      | some _ =>
        sremLoop userKey version rest (member :: seen) (batch ++ [.delete .subkey skey])
          (removed + 1)
      | none => sremLoop userKey version rest (member :: seen) batch removed

/-- `SREM key member [member ...]` -/
def srem : List Bytes → Prog RespValue
  | userKey :: member :: rest => do
    match ← readSetMetadata ctx userKey with
    | none => return .integer 0
    | some meta' =>
      let (batch, removed) ← sremLoop ctx userKey meta'.version (member :: rest) [] [] 0
      if 0 < removed then
        let newMeta := { meta' with size := saturatingSub meta'.size removed.toUInt64 }
        Storage.write (batch ++ [.put .metadata (ctx.metaKey userKey) (encodeMetadata newMeta)])
        return .integer removed
      else return .integer removed
  | _ => raise (.wrongArgCount "SREM")

/-- `SISMEMBER key member` -/
def sismember : List Bytes → Prog RespValue
  | [userKey, member] => do
    match ← readSetMetadata ctx userKey with
    | none => return .integer 0
    | some meta' =>
      let found ← memberExists ctx userKey meta'.version member
      return .integer (if found then 1 else 0)
  | _ => raise (.wrongArgCount "SISMEMBER")

def smembers : List Bytes → Prog RespValue
  | [userKey] => do
    match ← readSetMetadata ctx userKey with
    | none => return .array []
    | some meta' =>
      let members ← loadMembers ctx userKey meta'
      return .array (members.map fun m => .bulkString (some m))
  | _ => raise (.wrongArgCount "SMEMBERS")

def scard : List Bytes → Prog RespValue
  | [userKey] => do
    match ← readSetMetadata ctx userKey with
    | none => return .integer 0
    | some meta' => return .integer meta'.size.toInt64
  | _ => raise (.wrongArgCount "SCARD")

/-- The metadata of all keys, or nothing if one of them is absent. -/
def loadAll : List Bytes → Prog (Option (List (Bytes × Metadata)))
  | [] => return some []
  | userKey :: rest => do
    match ← readSetMetadata ctx userKey with
    | none => return none
    | some meta' =>
      match ← loadAll rest with
      | none => return none
      | some metas => return some ((userKey, meta') :: metas)

/-- All of the given sets have the member. -/
def inAll (member : Bytes) : List (Bytes × UInt64) → Prog Bool
  | [] => return true
  | (userKey, version) :: rest => do
    if ← memberExists ctx userKey version member then inAll member rest else return false

/-- One of the given sets has the member. -/
def inAny (member : Bytes) : List (Bytes × UInt64) → Prog Bool
  | [] => return false
  | (userKey, version) :: rest => do
    if ← memberExists ctx userKey version member then return true else inAny member rest

/-- Collect the members of a set that pass a test. -/
def selectMembers (userKey : Bytes) (version : UInt64) (test : Bytes → Prog Bool) :
    Prog (List RespValue) :=
  forEachPage .subkey (iterMembersPage ctx userKey version) [] fun result member => do
    if ← test member then return .yield (result ++ [.bulkString (some member)])
    else return .yield result

/-- Insert by size, behind entries of the same size. -/
def insertBySize (item : Bytes × Metadata) : List (Bytes × Metadata) → List (Bytes × Metadata)
  | [] => [item]
  | other :: rest =>
    if item.2.size < other.2.size then item :: other :: rest
    else other :: insertBySize item rest

/-- The stable sort of `SINTER` by size. -/
def sortBySize (metas : List (Bytes × Metadata)) : List (Bytes × Metadata) :=
  metas.foldl (fun sorted item => insertBySize item sorted) []

/-- `SINTER key [key ...]` -/
def sinter : List Bytes → Prog RespValue
  | [] => raise (.wrongArgCount "SINTER")
  | userKeys => do
    match ← loadAll ctx userKeys with
    | none => return .array []
    | some metas =>
      match sortBySize metas with
      | [] => .fail .panic
      | (baseKey, baseMeta) :: others =>
        let others := others.map fun (userKey, meta') => (userKey, meta'.version)
        let result ← selectMembers ctx baseKey baseMeta.version fun member =>
            inAll ctx member others
        return .array result

/-- The value of a program, or nothing if it reports an error. -/
def attempt {α : Type} (program : Prog α) : Prog (Option α) :=
  Program.recover (fun
    | .error _ => return none
    | fault => .fail fault) (some <$> program)

/-- The sets among the keys. Keys that are absent or of another type are left
out. -/
def loadSome : List Bytes → Prog (List (Bytes × UInt64))
  | [] => return []
  | userKey :: rest => do
    let found ← attempt (readSetMetadata ctx userKey)
    let others ← loadSome rest
    match found.join with
    | some meta' => return (userKey, meta'.version) :: others
    | none => return others

/-- `SDIFF key [key ...]` -/
def sdiff : List Bytes → Prog RespValue
  | [] => raise (.wrongArgCount "SDIFF")
  | firstKey :: rest => do
    match ← readSetMetadata ctx firstKey with
    | none => return .array []
    | some firstMeta =>
      let others ← loadSome ctx rest
      let result ← selectMembers ctx firstKey firstMeta.version fun member => do
        let found ← inAny ctx member others
        return !found
      return .array result

/-- The loop of `SUNION` over its keys: the members seen so far, which are also
the result, in the order they were met. -/
def sunionLoop : List Bytes → List Bytes → Prog (List Bytes)
  | [], seen => return seen
  | userKey :: rest, seen => do
    match ← readSetMetadata ctx userKey with
    | none => sunionLoop rest seen
    | some meta' =>
      let seen ← forEachPage .subkey (iterMembersPage ctx userKey meta'.version) seen
        fun seen member =>
          if setUnionResultLimit ≤ seen.length then
            raise (.command "SUNION result exceeds memory limit")
          else if member ∈ seen then return .yield seen
          else return .yield (seen ++ [member])
      sunionLoop rest seen

/-- `SUNION key [key ...]` -/
def sunion : List Bytes → Prog RespValue
  | [] => raise (.wrongArgCount "SUNION")
  | userKeys => do
    let members ← sunionLoop ctx userKeys []
    return .array (members.map fun m => .bulkString (some m))

end Kvdb.Cmd
