import Kvdb.Command.Admin
import Kvdb.Command.Bitmaps
import Kvdb.Command.Hash
import Kvdb.Command.Lists
import Kvdb.Command.Sets
import Kvdb.Command.Str
import Kvdb.Command.Streams
import Kvdb.Command.ZSets
import Kvdb.Semantics.Runs

/-!
# The command table

The registered data commands and their dispatch. A reported error becomes an
error reply. A worker that panics, or never ends, gives no reply at all.
-/

namespace Kvdb

open Data Semantics

/-- The commands on stored data. -/
inductive Command where
  | get | set | mget | mset | del | exists' | incr | decr | append
  | expire | pexpire | ttl | pttl | persist
  | ping | echo | dbsize | flushdb
  | hset | hget | hmget | hgetall | hdel | hexists | hlen | hscan
  | lpush | rpush | lpop | rpop | lrange | lindex | llen
  | sadd | srem | sismember | smembers | scard | sinter | sdiff | sunion
  | zadd | zrange | zrangebyscore | zrevrange | zrevrangebyscore | zrem | zrank | zrevrank
  | zscore | zcard | zincrby
  | xadd | xlen | xrange | xread
  | setbit | getbit | bitcount | bitop
deriving DecidableEq, Repr

namespace Command

/-- All commands, in the order they are registered. -/
def all : List Command :=
  [get, set, mget, mset, del, exists', incr, decr, append, expire, pexpire, ttl, pttl, persist,
    ping, echo, dbsize, flushdb, hset, hget, hmget, hgetall, hdel, hexists, hlen, hscan,
    lpush, rpush, lpop, rpop, lrange, lindex, llen, sadd, srem, sismember, smembers, scard, sinter,
    sdiff, sunion, zadd, zrange, zrangebyscore, zrevrange, zrevrangebyscore, zrem, zrank, zrevrank,
    zscore, zcard, zincrby, xadd, xlen, xrange, xread, setbit, getbit, bitcount, bitop]

def name : Command → String
  | get => "GET" | set => "SET" | mget => "MGET" | mset => "MSET" | del => "DEL"
  | exists' => "EXISTS" | incr => "INCR" | decr => "DECR" | append => "APPEND"
  | expire => "EXPIRE" | pexpire => "PEXPIRE" | ttl => "TTL" | pttl => "PTTL"
  | persist => "PERSIST" | ping => "PING" | echo => "ECHO" | dbsize => "DBSIZE"
  | flushdb => "FLUSHDB" | hset => "HSET" | hget => "HGET" | hmget => "HMGET"
  | hgetall => "HGETALL" | hdel => "HDEL" | hexists => "HEXISTS" | hlen => "HLEN"
  | hscan => "HSCAN" | lpush => "LPUSH" | rpush => "RPUSH" | lpop => "LPOP" | rpop => "RPOP"
  | lrange => "LRANGE" | lindex => "LINDEX" | llen => "LLEN" | sadd => "SADD" | srem => "SREM"
  | sismember => "SISMEMBER" | smembers => "SMEMBERS" | scard => "SCARD" | sinter => "SINTER"
  | sdiff => "SDIFF" | sunion => "SUNION" | zadd => "ZADD" | zrange => "ZRANGE"
  | zrangebyscore => "ZRANGEBYSCORE" | zrevrange => "ZREVRANGE"
  | zrevrangebyscore => "ZREVRANGEBYSCORE" | zrem => "ZREM" | zrank => "ZRANK"
  | zrevrank => "ZREVRANK" | zscore => "ZSCORE" | zcard => "ZCARD" | zincrby => "ZINCRBY"
  | xadd => "XADD" | xlen => "XLEN" | xrange => "XRANGE" | xread => "XREAD"
  | setbit => "SETBIT" | getbit => "GETBIT" | bitcount => "BITCOUNT" | bitop => "BITOP"

/-- Find a command by its name, in any case. -/
def lookup (cmd : Bytes) : Option Command :=
  all.find? fun command => toAsciiUppercase cmd = ascii command.name

def run (ctx : CommandContext) : Command → List Bytes → Prog RespValue
  | get => Cmd.get ctx | set => Cmd.set ctx | mget => Cmd.mget ctx | mset => Cmd.mset ctx
  | del => Cmd.del ctx | exists' => Cmd.exists' ctx | incr => Cmd.incr ctx | decr => Cmd.decr ctx
  | append => Cmd.append ctx | expire => Cmd.expire ctx | pexpire => Cmd.pexpire ctx
  | ttl => Cmd.ttl ctx | pttl => Cmd.pttl ctx | persist => Cmd.persist ctx
  | ping => Cmd.ping | echo => Cmd.echo | dbsize => Cmd.dbsize ctx | flushdb => Cmd.flushdb ctx
  | hset => Cmd.hset ctx | hget => Cmd.hget ctx | hmget => Cmd.hmget ctx
  | hgetall => Cmd.hgetall ctx | hdel => Cmd.hdel ctx | hexists => Cmd.hexists ctx
  | hlen => Cmd.hlen ctx | hscan => Cmd.hscan ctx | lpush => Cmd.lpush ctx
  | rpush => Cmd.rpush ctx | lpop => Cmd.lpop ctx | rpop => Cmd.rpop ctx
  | lrange => Cmd.lrange ctx | lindex => Cmd.lindex ctx | llen => Cmd.llen ctx
  | sadd => Cmd.sadd ctx | srem => Cmd.srem ctx | sismember => Cmd.sismember ctx
  | smembers => Cmd.smembers ctx | scard => Cmd.scard ctx | sinter => Cmd.sinter ctx
  | sdiff => Cmd.sdiff ctx | sunion => Cmd.sunion ctx | zadd => Cmd.zadd ctx
  | zrange => Cmd.zrange ctx | zrangebyscore => Cmd.zrangebyscore ctx
  | zrevrange => Cmd.zrevrange ctx | zrevrangebyscore => Cmd.zrevrangebyscore ctx
  | zrem => Cmd.zrem ctx | zrank => Cmd.zrank ctx | zrevrank => Cmd.zrevrank ctx
  | zscore => Cmd.zscore ctx | zcard => Cmd.zcard ctx | zincrby => Cmd.zincrby ctx
  | xadd => Cmd.xadd ctx | xlen => Cmd.xlen ctx | xrange => Cmd.xrange ctx
  | xread => Cmd.xread ctx | setbit => Cmd.setbit ctx | getbit => Cmd.getbit ctx
  | bitcount => Cmd.bitcount ctx | bitop => Cmd.bitop ctx

end Command

section Dispatch

/-- A text that begins with at least two capital letters and a space. -/
def hasRedisErrorCode (message : String) : Bool :=
  let word := message.toList.takeWhile Char.isUpper
  2 ≤ word.length && (message.toList.drop word.length).head? == some ' '

/-- The error text of the protocol. -/
def formatError (cause : KvdbError) : String :=
  if hasRedisErrorCode cause.message then cause.message else "ERR " ++ cause.message

/-- Run a command and turn a reported error into an error reply. -/
def dispatch (ctx : CommandContext) (command : Command) (args : List Bytes) : Prog RespValue :=
  Program.recover (fun
    | .error cause => return .error (formatError cause)
    | fault => .fail fault) (command.run ctx args)

/-- Dispatching reports the errors of the command in its reply. -/
theorem exec_dispatch (ctx : CommandContext) (env : Env) (store : Store) (command : Command)
    (args : List Bytes) :
    exec env (dispatch ctx command args) store =
      match exec env (command.run ctx args) store with
      | (.ok reply, after) => (.ok reply, after)
      | (.error (.error cause), after) => (.ok (.error (formatError cause)), after)
      | (.error fault, after) => (.error fault, after) := by
  unfold exec dispatch
  rw [Program.run_recover]
  rcases Program.run env.handle (command.run ctx args) store with ⟨(_ | _ | _) | _, _⟩ <;> rfl

end Dispatch

section Requests

/-- A request to the server, with the environment its command meets. -/
structure Request where
  command : Command
  args : List Bytes
  env : Env

variable (ctx : CommandContext)

def Request.after (store : Store) (request : Request) : Store :=
  (exec request.env (dispatch ctx request.command request.args) store).2

/-- The reply to a request, if there is one. -/
def Request.reply (store : Store) (request : Request) : Except Fault RespValue :=
  (exec request.env (dispatch ctx request.command request.args) store).1

/-- Dispatching does not touch the store on its own. -/
theorem Request.after_eq (store : Store) (request : Request) :
    request.after ctx store =
      (exec request.env (request.command.run ctx request.args) store).2 := by
  rw [Request.after, exec_dispatch]
  rcases exec request.env (request.command.run ctx request.args) store with ⟨(_ | _ | _) | _, _⟩ <;>
    rfl

/-- A command that is known to end in a store. -/
theorem Request.after_eq_of_exec {store after : Store} {request : Request}
    {result : Except Fault RespValue}
    (ran : exec request.env (request.command.run ctx request.args) store = (result, after)) :
    request.after ctx store = after := by
  rw [Request.after_eq, ran]

/-- What a command returns is its reply. -/
theorem Request.reply_eq_ok {store after : Store} {request : Request} {reply : RespValue}
    (returned : exec request.env (request.command.run ctx request.args) store =
      (.ok reply, after)) :
    request.reply ctx store = .ok reply := by
  rw [Request.reply, exec_dispatch, returned]

/-- What a command reports as an error is in its reply. -/
theorem Request.reply_eq_error {store after : Store} {request : Request} {cause : KvdbError}
    (raised : exec request.env (request.command.run ctx request.args) store =
      (.error (.error cause), after)) :
    request.reply ctx store = .ok (.error (formatError cause)) := by
  rw [Request.reply, exec_dispatch, raised]

/-- A reply that is not an error is what the command has returned. -/
theorem Request.returned_of_reply {store : Store} {request : Request} {reply : RespValue}
    (replied : request.reply ctx store = .ok reply) (fine : ∀ text, reply ≠ .error text) :
    exec request.env (request.command.run ctx request.args) store =
      (.ok reply, request.after ctx store) := by
  rw [Request.after_eq]
  rw [Request.reply, exec_dispatch] at replied
  generalize exec request.env (request.command.run ctx request.args) store = ended at replied ⊢
  rcases ended with ⟨(_ | _ | _) | value, after⟩
  · cases replied
    exact absurd rfl (fine _)
  · cases replied
  · cases replied
  · cases replied
    rfl

/-- A run of requests, each of them permitted in the store it meets. -/
abbrev Runs (permitted : Store → Request → Prop) : Store → List Request → Store → Prop :=
  Run (fun store request => request.after ctx store) permitted

/-- A run of requests of any tenants, which share the store. -/
abbrev TenantRuns : Store → List (CommandContext × Request) → Store → Prop :=
  Run (fun store request => request.2.after request.1 store) fun _ _ => True

end Requests

end Kvdb
