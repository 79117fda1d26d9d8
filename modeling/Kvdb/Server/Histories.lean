import Kvdb.Command.Table
import Kvdb.Semantics.Runs
import Kvdb.Server.Connection

/-!
# Histories of a server

Clients and transactions reach the store through the command table alone. So whatever the
clients send, and in whatever order the pool runs their jobs, the store is one that the
commands of these jobs reach one after the other. Scripts are left aside.

A connection gets one reply for each of its inputs, and a reply that was sent stays. The
exceptions are the input it is working on, and the one at which its task has ended.
-/

namespace Kvdb

open Data Semantics

section Requests

variable {ctx : CommandContext} {engine : ScriptEngine} {first server : Server Shared}
  {events : List Event}

def Job.call? : Job → Option Call
  | .dispatch call | .queue call _ _ => some call
  | .watch _ | .check => none

/-- The request of a call, if its command is one on stored data. -/
def Call.requests (call : Call) (env : Env) : List Request :=
  match Registered.lookup call.cmd with
  | some (.data command) => [⟨command, call.args, env⟩]
  | _ => []

def Call.isScript (call : Call) : Bool :=
  match Registered.lookup call.cmd with
  | some (.script _) => true
  | _ => false

def Server.call? (server : Server Shared) : Event → Option Call
  | .work client _ =>
    if server.pool = .closed then none else (server.connection client).job.bind Job.call?
  | _ => none

/-- The requests that an event carries out, one at most. -/
def Server.requests (server : Server Shared) (event : Event) : List Request :=
  match server.call? event, event with
  | some call, .work _ env => call.requests env
  | _, _ => []

/-- The event is enabled, and runs no script. -/
abbrev Server.Scriptless (server : Server Shared) (event : Event) : Prop :=
  server.Enabled event ∧ (server.call? event).any Call.isScript = false

theorem Call.runs_requests {call : Call} {client : ℕ} {env : Env} {shared : Shared}
    (scriptless : call.isScript = false) :
    Runs ctx (fun _ _ => True) shared.store (call.requests env)
      ((commandBackend ctx engine).dispatch client call env shared).2.store := by
  simp only [commandBackend, dispatchCommand, Call.requests]
  unfold Call.isScript at scriptless
  rcases found : Registered.lookup call.cmd with _ | command | command | command
  · exact .refl
  · exact .single trivial
  · exact .refl
  · simp [found] at scriptless

/-- A job carries out the request of its command. -/
theorem Server.runs_step {event : Event} (scriptless : server.Scriptless event) :
    Runs ctx (fun _ _ => True) server.state.store (server.requests event)
      (server.step (commandBackend ctx engine) event).state.store := by
  cases event with
  | receive | close => exact .refl
  | work client env =>
    have none := scriptless.2
    unfold Server.requests
    simp only [Server.call?] at none ⊢
    by_cases closed : server.pool = .closed
    · rw [if_pos closed, step_work_closed closed]
      exact .refl
    rw [if_neg closed] at none ⊢
    rw [state_work closed]
    rcases job : (server.connection client).job with _ | call | keys | _ | ⟨call, rest, replies⟩
    · exact absurd job scriptless.1.2
    · rw [Connection.work_state_of_call (.inl job)]
      exact Call.runs_requests (by simpa [job, Job.call?] using none)
    · simp only [Connection.work, job, commandBackend, onStore, exec_watchKeys]
      exact .refl
    · simp only [Connection.work, job, commandBackend, onStore, exec_watchedKeysChanged]
      cases (server.connection client).watched.any fun entry =>
        ctx.lookupMeta server.state.store entry.1 ≠ entry.2 <;> exact .refl
    · rw [Connection.work_state_of_call (.inr ⟨rest, replies, job⟩)]
      exact Call.runs_requests (by simpa [job, Job.call?] using none)

/-- A run of the server without scripts is the run of the requests of its jobs, each of them
once, in the order of the jobs and at their times. -/
theorem server_is_sequential
    (run : Run (Server.step (commandBackend ctx engine)) Server.Scriptless first events server) :
    Runs ctx (fun _ _ => True) first.state.store
      (outputs (Server.step (commandBackend ctx engine)) Server.requests first events)
      server.state.store := by
  refine run.invariant_of_steps (fun events server => Runs ctx (fun _ _ => True) first.state.store
    (outputs (Server.step (commandBackend ctx engine)) Server.requests first events)
    server.state.store) .refl ?_
  intro events server event before scriptless stored
  rw [before.outputs_concat]
  exact stored.trans (Server.runs_step scriptless)

/-- A transaction sets a key, and another client adds to it before the queue has run. -/
def interleaved : List Event :=
  [.receive 1 .multi, .receive 1 (.call ⟨ascii "SET", [ascii "k", ascii "1"]⟩),
    .receive 1 (.call ⟨ascii "GET", [ascii "k"]⟩), .receive 1 .exec, .work 1 (.plain 1),
    .receive 2 (.call ⟨ascii "INCR", [ascii "k"]⟩), .work 2 (.plain 2), .work 1 (.plain 3)]

/-- The server after these events. -/
def interleavedServer : Server Shared :=
  interleaved.foldl (Server.step (commandBackend .plain .none)) (.start .new)

theorem run_interleaved : Run (Server.step (commandBackend .plain .none)) Server.Scriptless
    (.start .new) interleaved interleavedServer := run_foldl _ (by decide)

theorem server_is_sequential_of_interleaved :
    (interleavedServer.connection 1).replies.getLast? =
        some (.array [.simpleString "OK", .bulkString (some (ascii "2"))]) ∧
      Runs .plain (fun _ _ => True) .empty
        [⟨.set, [ascii "k", ascii "1"], .plain 1⟩, ⟨.incr, [ascii "k"], .plain 2⟩,
          ⟨.get, [ascii "k"], .plain 3⟩] interleavedServer.state.store :=
  ⟨by decide, server_is_sequential run_interleaved⟩

end Requests

section Replies

variable {σ : Type} {backend : Backend σ} {conn next : Connection} {client inputs : ℕ}

/-- The inputs that a connection has answered, is working on, or has ended at. -/
def Connection.taken (conn : Connection) : ℕ :=
  conn.replies.length + conn.job.toList.length + conn.ended.toNat

def Event.isInput (client : ℕ) : Event → Bool
  | .receive other _ => other = client
  | .work _ _ | .close => false

/-- The connection goes on with what it has sent, and has taken so many inputs more. No job
waits for one whose task has ended. -/
def Connection.Extends (conn : Connection) (inputs : ℕ) (next : Connection) : Prop :=
  conn.replies <+: next.replies ∧ next.taken = conn.taken + inputs ∧
    (next.ended = true → next.job = none)

theorem Connection.Extends.trans {last : Connection} {more : ℕ} (first : conn.Extends inputs next)
    (second : next.Extends more last) : conn.Extends (inputs + more) last :=
  ⟨first.1.trans second.1, by rw [second.2.1, first.2.1, Nat.add_assoc], second.2.2⟩

section Answers

-- The connection has an input at hand, which it has just received or is working on.
variable (goes : conn.ended = false) (atHand : conn.job.toList.length + inputs = 1)
include goes atHand

theorem Connection.extends_answer (reply : RespValue) :
    conn.Extends inputs (conn.answer reply) := by
  refine ⟨List.prefix_append _ _, ?_, fun _ => rfl⟩
  simp only [taken, answer, goes, List.length_append, List.length_singleton, Option.toList_none,
    List.length_nil]
  omega

theorem Connection.extends_wait (job : Job) :
    conn.Extends inputs { conn with job := some job } := by
  refine ⟨List.prefix_rfl, ?_, fun gone => absurd (goes.symm.trans gone) nofun⟩
  simp only [taken, Option.toList_some, List.length_singleton]
  omega

theorem Connection.extends_leave : conn.Extends inputs conn.leave := by
  refine ⟨List.prefix_rfl, ?_, fun _ => rfl⟩
  simp only [taken, leave, goes, Option.toList_none, List.length_nil, Bool.toNat_true,
    Bool.toNat_false]
  omega

theorem Connection.extends_executeQueue (replies : List RespValue) (queue : List Call) :
    conn.Extends inputs (conn.executeQueue replies queue) := by
  cases queue with
  | nil => exact extends_answer goes atHand _
  | cons call rest => exact extends_wait goes atHand _

end Answers

theorem Connection.Extends.spawn (before : conn.Extends inputs next) (pool : Pool) :
    conn.Extends inputs (next.spawn pool) := by
  rw [Connection.spawn]
  split_ifs with lost
  · have goes : next.ended = false := by
      by_contra gone
      exact lost.2 (before.2.2 (by simpa using gone))
    obtain ⟨job, waits⟩ := Option.ne_none_iff_exists'.mp lost.2
    exact before.trans (@extends_leave next 0 goes (by simp [waits]))
  · exact before

theorem Connection.extends_receive (idle : conn.job = none) (goes : conn.ended = false)
    (input : Input) : conn.Extends 1 (conn.receive input) := by
  have atHand : conn.job.toList.length + 1 = 1 := by simp [idle]
  have answered := fun reply => extends_answer goes atHand reply
  cases input with
  | empty => exact answered _
  | multi =>
    rw [receive]
    split
    · exact answered _
    · exact answered (.simpleString "OK")
  | discard =>
    rw [receive]
    split
    · exact answered (.simpleString "OK")
    · exact answered _
  | watch keys =>
    rw [receive]
    split
    · exact answered _
    · exact extends_wait goes atHand _
  | exec =>
    rw [receive]
    split_ifs
    · exact @extends_executeQueue conn.reset 1 goes atHand [] conn.queued
    · exact extends_wait goes atHand _
    · exact answered _
  | call call =>
    rw [receive]
    split
    · exact answered (.simpleString "QUEUED")
    · exact extends_wait goes atHand _

theorem Connection.extends_drop (goes : conn.ended = false) : conn.Extends 0 conn.drop := by
  unfold drop
  rcases job : conn.job with _ | call | keys | _ | ⟨call, rest, replies⟩
  · exact ⟨List.prefix_rfl, rfl, fun _ => job⟩
  · exact extends_answer goes (by simp [job]) _
  · exact extends_leave goes (by simp [job])
  · exact extends_leave goes (by simp [job])
  · exact extends_executeQueue goes (by simp [job]) _ _

theorem Connection.extends_work (goes : conn.ended = false) (env : Env) (state : σ) :
    conn.Extends 0 (conn.work backend client env state).1 := by
  have same : conn.Extends 0 conn :=
    ⟨List.prefix_rfl, rfl, fun gone => absurd (goes.symm.trans gone) nofun⟩
  unfold work
  rcases job : conn.job with _ | call | keys | _ | ⟨call, rest, replies⟩ <;> dsimp only
  · exact same
  -- A job ends in an answer, in the next job of its connection, or with the task or the pool.
  · have atHand : conn.job.toList.length + 0 = 1 := by simp [job]
    split
    · exact extends_answer goes atHand _
    · exact same
    · exact extends_answer goes atHand _
  · have atHand : conn.job.toList.length + 0 = 1 := by simp [job]
    split
    · exact extends_answer goes atHand (.simpleString "OK")
    · exact same
    · exact extends_leave goes atHand
  · have atHand : conn.job.toList.length + 0 = 1 := by simp [job]
    split
    · exact extends_answer goes atHand .null
    · exact @extends_executeQueue conn.reset 0 goes atHand [] conn.queued
    · exact same
    · exact extends_leave goes atHand
  · have atHand : conn.job.toList.length + 0 = 1 := by simp [job]
    split
    · exact extends_executeQueue goes atHand _ _
    · exact same
    · exact extends_executeQueue goes atHand _ _

/-- What the events of a run add to a connection. -/
theorem Server.extends_of_run {first server : Server σ} {events : List Event}
    (settled : (first.connection client).ended = true → (first.connection client).job = none)
    (run : Run (Server.step backend) Server.Enabled first events server) :
    (first.connection client).Extends (events.countP (·.isInput client))
      (server.connection client) := by
  refine run.invariant_of_steps (fun events server => (first.connection client).Extends
    (events.countP (·.isInput client)) (server.connection client))
    ⟨List.prefix_rfl, rfl, settled⟩ ?_
  intro events server event _ enabled before
  rw [List.countP_append, List.countP_singleton]
  refine before.trans ?_
  by_cases own : event.client = some client
  · cases event with
    | close => cases own
    | receive receiver input =>
      obtain rfl : receiver = client := Option.some.inj own
      rw [connection_receive_self]
      simpa [Event.isInput] using (Connection.extends_receive enabled.1 enabled.2 input).spawn _
    | work worker env =>
      obtain rfl : worker = client := Option.some.inj own
      have goes : (server.connection worker).ended = false := by
        by_contra gone
        exact enabled.2 (before.2.2 (by simpa using gone))
      by_cases closed : server.pool = .closed
      · rw [step_work_closed closed]
        simpa [Event.isInput] using (Connection.extends_drop goes).spawn .closed
      · rw [connection_work_self closed]
        exact Connection.extends_work goes env _
  · have silent : event.isInput client = false := by
      cases event <;> simp_all [Event.isInput, Event.client]
    rw [connection_step_of_ne own, silent]
    exact ⟨List.prefix_rfl, rfl, before.2.2⟩

/-- A connection has one reply for each of its inputs, but for the one it is working on and
the one at which its task has ended, and what it has sent stays. -/
theorem one_reply_each {initial : σ} {first server : Server σ} {earlier events : List Event}
    (before : Run (Server.step backend) Server.Enabled (.start initial) earlier first)
    (run : Run (Server.step backend) Server.Enabled first events server) (client : ℕ) :
    (first.connection client).replies <+: (server.connection client).replies ∧
    (server.connection client).replies.length + (server.connection client).job.toList.length +
        (server.connection client).ended.toNat =
      (earlier ++ events).countP (·.isInput client) := by
  have begun := @Server.extends_of_run _ _ client _ _ _ (fun _ => rfl) before
  have goes := Server.extends_of_run begun.2.2 run
  refine ⟨goes.1, (begun.trans goes).2.1.trans ?_⟩
  rw [List.countP_append]
  exact Nat.zero_add _

/-- The transaction of the first client has one reply more than before its queue was run. -/
theorem one_reply_each_of_interleaved :
    let first :=
  (interleaved.take 4).foldl (Server.step (commandBackend .plain .none)) (.start .new)
    (first.connection 1).replies <+: (interleavedServer.connection 1).replies ∧
      (first.connection 1).replies.length = 3 ∧
      (interleavedServer.connection 1).replies.length + 0 + 0 = 4 := by
  intro first
  have enabled := run_interleaved.imp fun _ _ allowed => allowed.1
  have before : Run (Server.step (commandBackend .plain .none)) Server.Enabled (.start .new)
      (interleaved.take 4) first := run_foldl _ (by decide)
  obtain ⟨stays, counted⟩ :=
    one_reply_each before (@Run.split _ _ _ _ _ _ (interleaved.take 4) _ enabled) 1
  exact ⟨stays, by decide, counted⟩

end Replies

end Kvdb
