import Kvdb.Command.Node

/-!
# All registered commands

The command table finds a command by its name. There are the commands on stored
data, those on the node, and the two that run a script. What a script does is up
to its interpreter. A name that is not registered is an error that holds the name.
-/

namespace Kvdb

open Data Semantics

section Scripts

/-- What all connections share: the store, the node and the cached scripts, by
their hash. -/
structure Shared where
  store : Store
  node : Node
  scripts : List (String × String) := []

/-- The interpreter of scripts: the hash of a script, and a run of it with its keys
and arguments. -/
structure ScriptEngine where
  sha1 : String → String
  runScript : String → List Bytes → List Bytes → Env → Shared → Except Fault RespValue × Shared

inductive ScriptCommand where
  | eval | evalsha
deriving DecidableEq, Repr

def ScriptCommand.name : ScriptCommand → String
  | eval => "EVAL" | evalsha => "EVALSHA"

/-- The keys and the arguments of a script. The bound of the keys is computed in
machine arithmetic. -/
def scriptArgs (name : String) (args : List Bytes) (numkeys : Bytes) :
    Except Fault (List Bytes × List Bytes) :=
  match parseU64 numkeys with
  | none => .error (.error (.command "numkeys must be an integer"))
  | some numkeys =>
    let bound := (2 + numkeys) % 2 ^ 64
    if args.length < bound then .error (.error (.wrongArgCount name))
    -- The slice from 2 to the bound.
    else if bound < 2 then .error .panic
    else .ok ((args.take bound).drop 2, args.drop bound)

/-- `EVAL script numkeys key [key ...] arg [arg ...]`, and `EVALSHA` with the hash
of a script -/
def ScriptCommand.run (engine : ScriptEngine) (args : List Bytes) (env : Env) (shared : Shared)
    (command : ScriptCommand) : Except Fault RespValue × Shared :=
  match args with
  | first :: numkeys :: _ =>
    match scriptArgs command.name args numkeys with
    | .error fault => (.error fault, shared)
    | .ok (keys, argv) =>
      match command with
      | .eval =>
        let script := fromUtf8Lossy first
        let scripts := (engine.sha1 script, script) :: shared.scripts
        engine.runScript script keys argv env { shared with scripts }
      | .evalsha =>
        match shared.scripts.find? (·.1 = fromUtf8Lossy first) with
        | none =>
          (.error (.error (.command "NOSCRIPT No matching script. Please use EVAL.")), shared)
        | some (_, script) => engine.runScript script keys argv env shared
  | _ => (.error (.error (.wrongArgCount command.name)), shared)

def ScriptEngine.none : ScriptEngine := ⟨id, fun _ _ _ _ shared => (.ok .null, shared)⟩

def Shared.new : Shared := ⟨.empty, { config := ⟨"", "", 10000, "data"⟩ }, []⟩

end Scripts

section Dispatch

/-- What a name can stand for. -/
inductive Registered where
  | data (command : Command)
  | node (command : NodeCommand)
  | script (command : ScriptCommand)
deriving DecidableEq, Repr

/-- Find a registered command by its name, in any case. -/
def Registered.lookup (cmd : Bytes) : Option Registered :=
  (Command.lookup cmd).map data <|> (NodeCommand.lookup cmd).map node <|>
    ([ScriptCommand.eval, .evalsha].find? fun command =>
      toAsciiUppercase cmd = ascii command.name).map script

/-- The reply to a name that is not registered. -/
def unknownCommand (cmd : Bytes) : RespValue :=
  .error ("ERR unknown command '" ++ fromUtf8Lossy (toAsciiUppercase cmd) ++ "'")

/-- Turn a reported error into an error reply. -/
def replyOf : Except Fault RespValue → Except Fault RespValue
  | .error (.error cause) => .ok (.error (formatError cause))
  | outcome => outcome

/-- `CommandTable::dispatch`, for a client. -/
def dispatchCommand (ctx : CommandContext) (engine : ScriptEngine) (client : ℕ) (cmd : Bytes)
    (args : List Bytes) (env : Env) (shared : Shared) : Except Fault RespValue × Shared :=
  match Registered.lookup cmd with
  | none => (.ok (unknownCommand cmd), shared)
  | some (.data command) =>
    let (reply, store) := exec env (dispatch ctx command args) shared.store
    (reply, { shared with store })
  | some (.node command) =>
    let (reply, node) := command.run client args shared.node
    (replyOf (reply.mapError .error), { shared with node })
  | some (.script command) =>
    let (reply, shared) := command.run engine args env shared
    (replyOf reply, shared)

end Dispatch

end Kvdb
