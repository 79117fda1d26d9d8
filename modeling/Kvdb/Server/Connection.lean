import Kvdb.Command.Registry

/-!
# Connections

A connection keeps its transaction: whether `MULTI` is open, the commands queued
since then, and the values of the keys it watches. Its commands run as jobs of a
thread pool, on the state that all connections share. A dispatch, the snapshot
of `WATCH`, the check of `EXEC` and every queued command are a job each, and a
job is one step. A connection takes its next input only when its last job has
been answered.

A worker holds the lock of the pool while it runs a job. A job that never ends keeps
it. One that panics poisons it, and the workers end one after the other. The jobs that
wait are lost with the last worker, and after that handing over a job panics in the
task of the connection, which ends without an answer.

The transactions are stated for any backend: what the jobs do to the shared state
is a parameter, and the command table is one instance.
-/

namespace Kvdb

open Data Semantics

section Watching

variable (ctx : CommandContext)

/-- The values of the keys of a connection at the time of `WATCH`. -/
abbrev Snapshot := List (Bytes × Option Bytes)

/-- Take the snapshot of some keys: the metadata value of each. -/
def watchKeys : List Bytes → Prog Snapshot
  | [] => return []
  | key :: rest => do
    let value ← ctx.getMeta key
    let others ← watchKeys rest
    return (key, value) :: others

/-- Some key has another metadata value than in the snapshot. -/
def watchedKeysChanged : Snapshot → Prog Bool
  | [] => return false
  | (key, snapshot) :: rest => do
    let current ← ctx.getMeta key
    if current ≠ snapshot then return true else watchedKeysChanged rest

variable {ctx} {env : Env} {store : Store}

theorem exec_watchKeys (keys : List Bytes) :
    exec env (watchKeys ctx keys) store =
      (.ok (keys.map fun key => (key, ctx.lookupMeta store key)), store) := by
  induction keys with
  | nil => rfl
  | cons key rest ih =>
    rw [watchKeys, ctx.exec_getMeta_bind, exec_bind_ok ih]
    rfl

theorem exec_watchedKeysChanged (watched : Snapshot) :
    exec env (watchedKeysChanged ctx watched) store =
      (.ok (watched.any fun entry => ctx.lookupMeta store entry.1 ≠ entry.2), store) := by
  induction watched with
  | nil => rfl
  | cons entry rest ih =>
    rw [watchedKeysChanged, ctx.exec_getMeta_bind, List.any_cons]
    by_cases same : ctx.lookupMeta store entry.1 = entry.2 <;> simp [same, ih]

end Watching

section Connections

/-- A command with its arguments, as a client sends it. -/
structure Call where
  cmd : Bytes
  args : List Bytes
deriving DecidableEq, Repr

/-- What a client sends: a transaction command, or one for the command table. -/
inductive Input where
  | empty
  | multi
  | discard
  | watch (keys : List Bytes)
  | exec
  | call (call : Call)
deriving DecidableEq, Repr

/-- The input in the arguments of a request. -/
def Input.ofArgs : List Bytes → Input
  | [] => .empty
  | cmd :: args =>
    if isKeyword cmd "MULTI" then .multi
    else if isKeyword cmd "DISCARD" then .discard
    else if isKeyword cmd "WATCH" then .watch args
    else if isKeyword cmd "EXEC" then .exec
    else .call ⟨cmd, args⟩

/-- A job of the thread pool that is not answered yet. A job of a queue knows the
commands that come after it and the replies before it. -/
inductive Job where
  | dispatch (call : Call)
  | watch (keys : List Bytes)
  | check
  | queue (call : Call) (rest : List Call) (replies : List RespValue)
deriving DecidableEq

/-- The state of a connection, with the replies it has sent, and whether its task has
ended without an answer. -/
structure Connection where
  inMulti : Bool := false
  queued : List Call := []
  watched : Snapshot := []
  job : Option Job := none
  replies : List RespValue := []
  ended : Bool := false
deriving DecidableEq

/-- The thread pool: it runs jobs, or a job that never ends keeps it, or a job has
panicked and its workers are ending, or the last one has ended. -/
inductive Pool where
  | running
  | stuck
  | poisoned
  | closed
deriving DecidableEq, Repr

/-- The pool after a job without a result. -/
def Pool.failed : Fault → Pool
  | .error _ => .running
  | .panic => .poisoned
  | .hang => .stuck

/-- What the jobs of a client do to a shared state. -/
structure Backend (σ : Type) where
  dispatch : ℕ → Call → Env → σ → Except Fault RespValue × σ
  watchKeys : List Bytes → Env → σ → Except Fault Snapshot × σ
  watchedKeysChanged : Snapshot → Env → σ → Except Fault Bool × σ

namespace Connection

/-- Forget the transaction. -/
def reset (conn : Connection) : Connection :=
  { conn with inMulti := false, queued := [], watched := [] }

/-- Send a reply and wait for input. -/
def answer (conn : Connection) (reply : RespValue) : Connection :=
  { conn with job := none, replies := conn.replies ++ [reply] }

/-- End the task of the connection, without an answer. -/
def leave (conn : Connection) : Connection := { conn with job := none, ended := true }

/-- Put a command at the end of the queue. -/
def enqueue (conn : Connection) (call : Call) : Connection :=
  { conn with queued := conn.queued ++ [call] }

/-- Go on with a queue: hand over its next command, or send the replies. -/
def executeQueue (conn : Connection) (replies : List RespValue) : List Call → Connection
  | [] => conn.answer (.array replies)
  | call :: rest => { conn with job := some (.queue call rest replies) }

/-- The check has passed: run the queue of the transaction. -/
def startQueue (conn : Connection) : Connection := conn.reset.executeQueue [] conn.queued

def receive (conn : Connection) : Input → Connection
  | .empty => conn.answer (.error "ERR empty command")
  | .multi =>
    if conn.inMulti then conn.answer (.error "ERR MULTI calls can not be nested")
    else { conn with inMulti := true }.answer (.simpleString "OK")
  | .discard =>
    if conn.inMulti then conn.reset.answer (.simpleString "OK")
    else conn.answer (.error "ERR DISCARD without MULTI")
  | .watch keys =>
    if conn.inMulti then conn.answer (.error "ERR WATCH inside MULTI is not allowed")
    else { conn with job := some (.watch keys) }
  | .exec =>
    if ¬ conn.inMulti then conn.answer (.error "ERR EXEC without MULTI")
    -- Without watched keys there is nothing to check, and no job for it.
    else if conn.watched = [] then conn.startQueue
    else { conn with job := some .check }
  | .call call =>
    if conn.inMulti then (conn.enqueue call).answer (.simpleString "QUEUED")
    else { conn with job := some (.dispatch call) }

/-- What is sent for a job whose worker panicked. -/
def aborted : RespValue := .error "ERR command aborted"

variable {σ : Type} (backend : Backend σ) (client : ℕ)

/-- A worker runs the job of a connection. The result has the pool after it. -/
def work (conn : Connection) (env : Env) (state : σ) : Connection × σ × Pool :=
  match conn.job with
  | none => (conn, state, .running)
  | some (.dispatch call) =>
    match backend.dispatch client call env state with
    | (.ok reply, state) => (conn.answer reply, state, .running)
    | (.error .hang, state) => (conn, state, .stuck)
    | (.error fault, state) => (conn.answer aborted, state, .failed fault)
  | some (.watch keys) =>
    match backend.watchKeys keys env state with
    | (.ok watched, state) => ({ conn with watched }.answer (.simpleString "OK"), state, .running)
    | (.error .hang, state) => (conn, state, .stuck)
    | (.error fault, state) => (conn.leave, state, .failed fault)
  | some .check =>
    match backend.watchedKeysChanged conn.watched env state with
    | (.ok true, state) => (conn.reset.answer .null, state, .running)
    | (.ok false, state) => (conn.startQueue, state, .running)
    | (.error .hang, state) => (conn, state, .stuck)
    | (.error fault, state) => (conn.leave, state, .failed fault)
  | some (.queue call rest replies) =>
    match backend.dispatch client call env state with
    | (.ok reply, state) => (conn.executeQueue (replies ++ [reply]) rest, state, .running)
    | (.error .hang, state) => (conn, state, .stuck)
    | (.error fault, state) =>
      (conn.executeQueue (replies ++ [aborted]) rest, state, .failed fault)

/-- The job of a connection is lost with the last worker. -/
def drop (conn : Connection) : Connection :=
  match conn.job with
  | none => conn
  | some (.dispatch _) => conn.answer aborted
  | some (.queue _ rest replies) => conn.executeQueue (replies ++ [aborted]) rest
  | some (.watch _) | some .check => conn.leave

/-- Hand a new job over to the pool. There the task ends if the last worker has. -/
def spawn (conn : Connection) (pool : Pool) : Connection :=
  if pool = .closed ∧ conn.job ≠ none then conn.leave else conn

variable {backend client} {conn : Connection} {env : Env} {state after : σ} {call : Call}
  {rest : List Call} {replies : List RespValue} {reply : RespValue}

theorem spawn_of_idle {pool : Pool} (idle : conn.job = none) : conn.spawn pool = conn :=
  if_neg fun lost => lost.2 idle

theorem spawn_of_open {pool : Pool} (open' : pool ≠ .closed) : conn.spawn pool = conn :=
  if_neg fun lost => open' lost.1

theorem job_spawn_closed (conn : Connection) : (conn.spawn .closed).job = none := by
  rw [spawn]
  split_ifs with lost
  · rfl
  · simpa using lost

theorem work_of_idle (idle : conn.job = none) :
    conn.work backend client env state = (conn, state, .running) := by
  unfold work
  simp only [idle]

theorem work_dispatch (waits : conn.job = some (.dispatch call))
    (ran : backend.dispatch client call env state = (.ok reply, after)) :
    conn.work backend client env state = (conn.answer reply, after, .running) := by
  unfold work
  simp only [waits, ran]

theorem work_queue (waits : conn.job = some (.queue call rest replies))
    (ran : backend.dispatch client call env state = (.ok reply, after)) :
    conn.work backend client env state =
      (conn.executeQueue (replies ++ [reply]) rest, after, .running) := by
  unfold work
  simp only [waits, ran]

/-- A command without a reply is the last job of the pool. -/
theorem work_of_fault {fault : Fault}
    (waits : conn.job = some (.dispatch call) ∨
      ∃ rest replies, conn.job = some (.queue call rest replies))
    (ran : backend.dispatch client call env state = (.error fault, after)) :
    (conn.work backend client env state).2 = (after, .failed fault) := by
  unfold work
  obtain waits | ⟨rest, replies, waits⟩ := waits <;> cases fault <;>
    simp only [waits, ran, Pool.failed]

/-- What a command does to the shared state, its job does. -/
theorem work_state_of_call
    (waits : conn.job = some (.dispatch call) ∨
      ∃ rest replies, conn.job = some (.queue call rest replies)) :
    (conn.work backend client env state).2.1 = (backend.dispatch client call env state).2 := by
  rcases ran : backend.dispatch client call env state with ⟨fault | reply, after⟩
  · rw [work_of_fault waits ran]
  · obtain waits | ⟨rest, replies, waits⟩ := waits
    · rw [work_dispatch waits ran]
    · rw [work_queue waits ran]

end Connection

/-- The server: the shared state, the connections, by number, and the pool. -/
structure Server (σ : Type) where
  state : σ
  connection : ℕ → Connection
  pool : Pool := .running

/-- What happens next: a connection takes an input, its job is run or lost, or the last
worker of the pool ends. -/
inductive Event where
  | receive (client : ℕ) (input : Input)
  | work (client : ℕ) (env : Env)
  | close

/-- The connection an event is about. -/
def Event.client : Event → Option ℕ
  | .receive client _ | .work client _ => some client
  | .close => none

namespace Server

variable {σ : Type}

def start (state : σ) : Server σ := { state, connection := fun _ => {} }

variable (backend : Backend σ)

def step (server : Server σ) : Event → Server σ
  | .receive client input =>
    { server with
      connection := Function.update server.connection client
        (((server.connection client).receive input).spawn server.pool) }
  | .work client env =>
    if server.pool = .closed then
      { server with
        connection := Function.update server.connection client
          ((server.connection client).drop.spawn .closed) }
    else
      let (conn, state, pool) := (server.connection client).work backend client env server.state
      ⟨state, Function.update server.connection client conn, pool⟩
  | .close => { server with pool := .closed }

/-- The event can happen. A connection takes no input while it waits for a job, nor after
its task has ended. Jobs are run while the pool is running, and lost with its last worker. -/
def Enabled (server : Server σ) : Event → Prop
  | .receive client _ =>
    (server.connection client).job = none ∧ (server.connection client).ended = false
  | .work client _ =>
    (server.pool = .running ∨ server.pool = .closed) ∧ (server.connection client).job ≠ none
  | .close => server.pool = .poisoned

instance decidableEnabled (server : Server σ) : (event : Event) → Decidable (server.Enabled event)
  | .receive client _ => inferInstanceAs (Decidable
      ((server.connection client).job = none ∧ (server.connection client).ended = false))
  | .work client _ => inferInstanceAs (Decidable
      ((server.pool = .running ∨ server.pool = .closed) ∧ (server.connection client).job ≠ none))
  | .close => inferInstanceAs (Decidable (server.pool = .poisoned))

variable {backend} {server : Server σ} {client other : ℕ}

theorem connection_receive_self (input : Input) :
    (server.step backend (.receive client input)).connection client =
      ((server.connection client).receive input).spawn server.pool := by
  simp [step]

theorem step_work (open' : server.pool ≠ .closed) (env : Env) :
    server.step backend (.work client env) =
      let (conn, state, pool) := (server.connection client).work backend client env server.state
      ⟨state, Function.update server.connection client conn, pool⟩ :=
  if_neg open'

theorem connection_work_self (open' : server.pool ≠ .closed) (env : Env) :
    (server.step backend (.work client env)).connection client =
      ((server.connection client).work backend client env server.state).1 := by
  simp [step_work open']

theorem state_work (open' : server.pool ≠ .closed) (env : Env) :
    (server.step backend (.work client env)).state =
      ((server.connection client).work backend client env server.state).2.1 := by
  rw [step_work open']

/-- A job that is lost leaves the shared state alone. -/
theorem step_work_closed (closed : server.pool = .closed) (env : Env) :
    server.step backend (.work client env) =
      { server with
        connection := Function.update server.connection client
          ((server.connection client).drop.spawn .closed) } :=
  if_pos closed

theorem connection_step_of_ne {event : Event} (different : event.client ≠ some other) :
    (server.step backend event).connection other = server.connection other := by
  cases event with
  | close => rfl
  | receive client input =>
    exact Function.update_of_ne (fun same => different (congrArg some same.symm)) _ _
  | work client env =>
    have apart : other ≠ client := fun same => different (congrArg some same.symm)
    rw [step]
    split_ifs
    · exact Function.update_of_ne apart _ _
    · exact Function.update_of_ne apart _ _

end Server

end Connections

section Instance

variable (ctx : CommandContext) (engine : ScriptEngine)

def onStore {α : Type} (program : Prog α) (env : Env) (shared : Shared) : Except Fault α × Shared :=
  let (result, store) := exec env program shared.store
  (result, { shared with store })

/-- The backend of the server: the command table and the jobs of `WATCH`. -/
def commandBackend : Backend Shared where
  dispatch client call := dispatchCommand ctx engine client call.cmd call.args
  watchKeys keys := onStore (watchKeys ctx keys)
  watchedKeysChanged watched := onStore (watchedKeysChanged ctx watched)

end Instance

end Kvdb
