import Kvdb.Command.Basic

/-!
# Server commands

The commands that work on all keys of a tenant, and the two that only answer.
-/

namespace Kvdb.Cmd

open Data Semantics

variable (ctx : CommandContext)

def flushBatchSize : ℕ := 1024

/-- What all physical keys of the tenant begin with. -/
def namespacePrefix : Bytes :=
  if ctx.tenant = [] then [] else UInt8.ofNat ctx.tenant.length :: ctx.tenant

/-- `PING [message]` -/
def ping : List Bytes → Prog RespValue
  | [] => return .simpleString "PONG"
  | message :: _ => return .bulkString (some message)

def echo : List Bytes → Prog RespValue
  | [message] => return .bulkString (some message)
  | _ => raise (.wrongArgCount "ECHO")

/-- Count the metadata values of a page that have not expired. All of them are
read in the layout of strings, which has the deadline in the same place. -/
def dbsizeBody (count : Int64) (item : Entry) : Prog (ForInStep Int64) :=
  match decodeString item.2 with
  | none => return .yield (count + 1)
  | some (_, expire, _) => do
    let now ← nowMs
    return .yield (if expiredAt expire now then count else count + 1)

def dbsize (_ : List Bytes) : Prog RespValue := do
  let pre := namespacePrefix ctx
  let count ← forEachPage .metadata (fun start => prefixScanPage .metadata pre start flushBatchSize)
    0 dbsizeBody
  return .integer count

def flushdb (_ : List Bytes) : Prog RespValue := do
  let pre := namespacePrefix ctx
  deletePrefix .metadata pre flushBatchSize
  deletePrefix .subkey pre flushBatchSize
  deletePrefix .zsetScore pre flushBatchSize
  return .simpleString "OK"

end Kvdb.Cmd
