import Kvdb.Separation
import Kvdb.Server.Isolation

/-!
# Successive WATCH commands

A `WATCH` replaces the snapshot that the connection has. The keys of an earlier
`WATCH` are forgotten, unless the later one names them again, and a value that has
changed in between is then taken for the watched one.
-/

namespace Kvdb

open Data Semantics

variable {ctx : CommandContext} {engine : ScriptEngine} {key : Bytes} {store later : Store}

section Values

end Values

section Connections

variable {client : ℕ} {conn : Connection} {env : Env} {shared : Shared} {keys : List Bytes}

/-- A `WATCH` outside a transaction. -/
def Connection.watch (ctx : CommandContext) (engine : ScriptEngine) (client : ℕ) (keys : List Bytes)
    (env : Env) (shared : Shared) (conn : Connection) : Connection :=
  ((conn.receive (.watch keys)).work (commandBackend ctx engine) client env shared).1

/-- `MULTI` and the commands of the transaction. -/
def Connection.queue (calls : List Call) (conn : Connection) : Connection :=
  calls.foldl (fun conn call => conn.receive (.call call)) (conn.receive .multi)

end Connections

section Successive

variable {client : ℕ} {conn : Connection} {first second : List Bytes} {earlier shared : Shared}
  {calls : List Call}

end Successive

end Kvdb
