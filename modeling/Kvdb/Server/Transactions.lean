import Kvdb.Semantics.Runs
import Kvdb.Server.Connection

/-!
# Transactions of one connection

A connection without watched keys: `MULTI` opens a queue, commands are queued,
`EXEC` dispatches them one after the other and sends their replies, and `DISCARD`
forgets them. The results hold for any backend. After a job that panicked commands
are still queued, but `EXEC` is not answered.
-/

namespace Kvdb

open Semantics

variable {σ : Type} {backend : Backend σ} {client : ℕ}

/-- Dispatch commands one after the other, each in the environment it meets. -/
def Backend.dispatchAll (backend : Backend σ) (client : ℕ) :
    List (Call × Env) → σ → Except Fault (List RespValue) × σ
  | [], state => (.ok [], state)
  | (call, env) :: rest, state =>
    match backend.dispatch client call env state with
    | (.error fault, state) => (.error fault, state)
    | (.ok reply, state) =>
      match dispatchAll backend client rest state with
      | (.error fault, state) => (.error fault, state)
      | (.ok replies, state) => (.ok (reply :: replies), state)

def Event.isWatch : Event → Bool
  | .receive _ (.watch _) => true
  | _ => false

/-- The connection is alone, and sends `WATCH` only where it is refused. -/
abbrev Server.Alone (client : ℕ) (server : Server σ) (event : Event) : Prop :=
  server.Enabled event ∧ (event.client = none ∨ event.client = some client) ∧
    (event.isWatch = true → (server.connection client).inMulti = true)

namespace Connection

variable {conn : Connection}

/-- The transaction state of a new connection. -/
def Fresh (conn : Connection) : Prop := conn.inMulti = false ∧ conn.queued = [] ∧ conn.watched = []

/-- Without watched keys, a queue is there only inside `MULTI`, where the connection
waits for no job. -/
structure Unwatched (conn : Connection) : Prop where
  watched : conn.watched = []
  outside : conn.inMulti = false → conn.queued = []
  inside : conn.inMulti = true → conn.job = none ∧ conn.ended = false
  noWatch : ∀ keys, conn.job ≠ some (.watch keys)
  noCheck : conn.job ≠ some .check

theorem fresh_reset (conn : Connection) : conn.reset.Fresh := ⟨rfl, rfl, rfl⟩

theorem Fresh.unwatched (fresh : conn.Fresh) (noWatch : ∀ keys, conn.job ≠ some (.watch keys))
    (noCheck : conn.job ≠ some .check) : conn.Unwatched where
  watched := fresh.2.2
  outside _ := fresh.2.1
  inside now := absurd (fresh.1.symm.trans now) nofun
  noWatch := noWatch
  noCheck := noCheck

theorem Fresh.unwatched_of_idle (fresh : conn.Fresh) (idle : conn.job = none) : conn.Unwatched :=
  fresh.unwatched (by simp [idle]) (by simp [idle])

theorem Fresh.unwatched_answer (fresh : conn.Fresh) (reply : RespValue) :
    (conn.answer reply).Unwatched :=
  Fresh.unwatched_of_idle fresh rfl

theorem Fresh.unwatched_executeQueue (fresh : conn.Fresh) (replies : List RespValue)
    (queue : List Call) : (conn.executeQueue replies queue).Unwatched := by
  cases queue with
  | nil => exact fresh.unwatched_answer _
  | cons call rest => exact Fresh.unwatched fresh nofun nofun

theorem Unwatched.answer (held : conn.Unwatched) (reply : RespValue) :
    (conn.answer reply).Unwatched where
  watched := held.watched
  outside := held.outside
  inside now := ⟨rfl, (held.inside now).2⟩
  noWatch _ := nofun
  noCheck := nofun

/-- A connection that waits for a job is outside `MULTI`. -/
theorem Unwatched.fresh (held : conn.Unwatched) (waits : conn.job ≠ none) : conn.Fresh := by
  have outside : conn.inMulti = false := by
    by_contra now
    exact waits (held.inside (by simpa using now)).1
  exact ⟨outside, held.outside outside, held.watched⟩

theorem Unwatched.receive (held : conn.Unwatched) {input : Input} (goes : conn.ended = false)
    (refused : ∀ keys, input = .watch keys → conn.inMulti = true) :
    (conn.receive input).Unwatched := by
  cases input with
  | empty => exact held.answer _
  | multi =>
    rw [Connection.receive]
    split
    · exact held.answer _
    · exact ⟨held.watched, nofun, fun _ => ⟨rfl, goes⟩, nofun, nofun⟩
  | discard =>
    rw [Connection.receive]
    split
    · exact (fresh_reset conn).unwatched_answer _
    · exact held.answer _
  | watch keys =>
    rw [Connection.receive, if_pos (refused keys rfl)]
    exact held.answer _
  | exec =>
    rw [Connection.receive, if_pos held.watched]
    split
    · exact held.answer _
    · exact (fresh_reset conn).unwatched_executeQueue _ _
  | call call =>
    rw [Connection.receive]
    by_cases inside : conn.inMulti = true
    · rw [if_pos inside]
      exact ⟨held.watched, fun outside => absurd (inside.symm.trans outside) nofun,
        fun _ => ⟨rfl, goes⟩, nofun, nofun⟩
    · rw [if_neg inside]
      have outside : conn.inMulti = false := by simpa using inside
      exact ⟨held.watched, fun _ => held.outside outside, fun now => absurd now inside,
        nofun, nofun⟩

theorem Unwatched.spawn (held : conn.Unwatched) (pool : Pool) : (conn.spawn pool).Unwatched := by
  rw [Connection.spawn]
  split_ifs with lost
  · exact Fresh.unwatched_of_idle (held.fresh lost.2) rfl
  · exact held

theorem Unwatched.drop (held : conn.Unwatched) : conn.drop.Unwatched := by
  unfold Connection.drop
  cases waits : conn.job with
  | none => exact held
  | some job =>
    have fresh : conn.Fresh := held.fresh (by simp [waits])
    cases job with
    | watch keys => exact absurd waits (held.noWatch keys)
    | check => exact absurd waits held.noCheck
    | dispatch call => exact fresh.unwatched_answer _
    | queue call rest replies => exact fresh.unwatched_executeQueue _ _

theorem Unwatched.work (held : conn.Unwatched) (env : Env) (state : σ) :
    (conn.work backend client env state).1.Unwatched := by
  unfold Connection.work
  cases waits : conn.job with
  | none => exact held
  | some job =>
    have fresh : conn.Fresh := held.fresh (by simp [waits])
    cases job with
    | watch keys => exact absurd waits (held.noWatch keys)
    | check => exact absurd waits held.noCheck
    | dispatch call =>
      dsimp only
      split
      · exact fresh.unwatched_answer _
      · exact held
      · exact fresh.unwatched_answer _
    | queue call rest replies =>
      dsimp only
      split
      · exact fresh.unwatched_executeQueue _ _
      · exact held
      · exact fresh.unwatched_executeQueue _ _

theorem executeQueue_executeQueue (conn : Connection) (call : Call) (rest queue : List Call)
    (sent replies : List RespValue) :
    (conn.executeQueue sent (call :: rest)).executeQueue replies queue =
      conn.executeQueue replies queue := by
  cases queue <;> rfl

end Connection

section Runs

variable {server : Server σ}

/-- The jobs of a queue dispatch its commands one after the other, and the last one
sends the replies. -/
theorem Server.run_dispatchAll {conn : Connection} {queue : List Call} {envs : List Env}
    {sent replies : List RespValue} {after : σ} (running : server.pool = .running ∨ queue = [])
    (lengths : envs.length = queue.length)
    (waits : server.connection client = conn.executeQueue sent queue)
    (ran : backend.dispatchAll client (queue.zip envs) server.state = (.ok replies, after)) :
    ∃ later, Run (Server.step backend) Server.Enabled server (envs.map (.work client)) later ∧
      later.state = after ∧ later.connection client = conn.answer (.array (sent ++ replies)) := by
  induction queue generalizing server envs sent replies with
  | nil =>
    obtain rfl := List.length_eq_zero_iff.mp lengths
    cases ran
    exact ⟨server, .refl, rfl, by rw [waits, List.append_nil]; rfl⟩
  | cons call rest ih =>
    have running : server.pool = .running := running.resolve_right nofun
    have open' : server.pool ≠ .closed := by simp [running]
    cases envs with
    | nil => cases lengths
    | cons env envs =>
      rw [List.zip_cons_cons, Backend.dispatchAll] at ran
      rcases first : backend.dispatch client call env server.state with ⟨fault | reply, middle⟩
      · simp only [first] at ran
        cases ran
      rcases others : backend.dispatchAll client (rest.zip envs) middle with
        ⟨fault | replies', final⟩
      · simp only [first, others] at ran
        cases ran
      simp only [first, others, Prod.mk.injEq, Except.ok.injEq] at ran
      obtain ⟨rfl, rfl⟩ := ran
      have job : (server.connection client).job = some (.queue call rest sent) := by
        rw [waits]
        rfl
      have worked := Connection.work_queue job first
      have enabled : server.Enabled (.work client env) := ⟨.inl running, by simp [job]⟩
      have state : (server.step backend (.work client env)).state = middle := by
        rw [state_work open', worked]
      have conn' : (server.step backend (.work client env)).connection client =
          conn.executeQueue (sent ++ [reply]) rest := by
        rw [connection_work_self open', worked, waits, Connection.executeQueue_executeQueue]
      have running' : (server.step backend (.work client env)).pool = .running := by
        rw [step_work open', worked]
      obtain ⟨later, run, stored, sent_all⟩ :=
        ih (.inl running') (Nat.succ.inj lengths) conn' (by rw [state]; exact others)
      refine ⟨later, (Run.single enabled).trans run, stored, ?_⟩
      rw [sent_all, List.append_assoc]
      rfl

/-- There is one reply for each command. -/
theorem Backend.length_dispatchAll {calls : List (Call × Env)} {state after : σ}
    {replies : List RespValue}
    (ran : backend.dispatchAll client calls state = (.ok replies, after)) :
    replies.length = calls.length := by
  induction calls generalizing state replies with
  | nil =>
    cases ran
    rfl
  | cons call rest ih =>
    rw [Backend.dispatchAll] at ran
    rcases first : backend.dispatch client call.1 call.2 state with ⟨fault | reply, middle⟩
    · simp [first] at ran
    rcases others : backend.dispatchAll client rest middle with ⟨fault | replies', final⟩
    · simp [first, others] at ran
    simp only [first, others, Prod.mk.injEq, Except.ok.injEq] at ran
    obtain ⟨rfl, rfl⟩ := ran
    simp [ih others]

theorem Server.unwatched_of_run {initial : σ} {events : List Event}
    (run : Run (Server.step backend) (Server.Alone client) (Server.start initial) events server) :
    (server.connection client).Unwatched := by
  have fresh : ((Server.start initial).connection client).Unwatched :=
    ⟨rfl, fun _ => rfl, fun _ => ⟨rfl, rfl⟩, nofun, nofun⟩
  refine @Run.invariant _ _ _ _ _ _ _ (fun server => (server.connection client).Unwatched) run
    fresh ?_
  rintro server event ⟨enabled, own, refused⟩ held
  cases event with
  | close => exact held
  | receive receiver input =>
    obtain rfl : receiver = client := Option.some.inj (own.resolve_left nofun)
    rw [connection_receive_self]
    exact (held.receive enabled.2 fun keys same => refused (by rw [same]; rfl)).spawn _
  | work worker env =>
    obtain rfl : worker = client := Option.some.inj (own.resolve_left nofun)
    by_cases closed : server.pool = .closed
    · rw [step_work_closed closed]
      simpa using held.drop.spawn .closed
    · rw [connection_work_self closed]
      exact held.work env _

/-- The first command of a queue is not run unless the pool is running. -/
theorem Server.running_of_exec {queued : List Call} {envs : List Env} {later : Server σ}
    (lengths : envs.length = queued.length)
    (run : Run (Server.step backend) Server.Enabled server
      (.receive client .exec :: envs.map (.work client)) later) :
    server.pool = .running ∨ queued = [] := by
  cases envs with
  | nil => exact .inr (List.length_eq_zero_iff.mp lengths.symm)
  | cons env envs =>
    have second : (server.step backend (.receive client .exec)).Enabled (.work client env) :=
      run.atEveryStep 1 (.work client env) rfl
    rcases second.1 with running | closed
    · exact .inl running
    · refine absurd ?_ second.2
      have closed : server.pool = .closed := closed
      rw [connection_receive_self, closed, Connection.job_spawn_closed]

/-- Transactions of a connection that is alone and watches no key. Outside `MULTI`
the queue is empty. Inside, every input is taken: a command is queued and nothing else
happens, a nested `MULTI` or `WATCH` is an error that leaves the queue alone, and
`DISCARD` forgets the queue. `EXEC` replies what the queued commands reply when they are
dispatched one after the other, if and only if the pool is running or there is no command.
Both leave the transaction state of a new connection. -/
theorem transaction_of_one_connection {initial : σ} {events : List Event} {conn : Connection}
    (run : Run (Server.step backend) (Server.Alone client) (Server.start initial) events server)
    (here : server.connection client = conn) :
    (conn.inMulti = false → conn.queued = []) ∧
    (conn.inMulti = true →
      (∀ input, server.Enabled (.receive client input)) ∧
      (∀ call, (server.step backend (.receive client (.call call))).state = server.state ∧
        (server.step backend (.receive client (.call call))).connection client =
          { conn with
            queued := conn.queued ++ [call]
            replies := conn.replies ++ [.simpleString "QUEUED"] }) ∧
      (∀ input, (input = .multi ∨ ∃ keys, input = .watch keys) →
        (server.step backend (.receive client input)).state = server.state ∧
        ∃ text, (server.step backend (.receive client input)).connection client =
          { conn with replies := conn.replies ++ [.error text] }) ∧
      (∀ envs replies after, envs.length = conn.queued.length →
        backend.dispatchAll client (conn.queued.zip envs) server.state = (.ok replies, after) →
        replies.length = conn.queued.length ∧
        ((∃ later, Run (Server.step backend) Server.Enabled server
            (.receive client .exec :: envs.map (.work client)) later ∧
          later.state = after ∧
          later.connection client = { replies := conn.replies ++ [.array replies] }) ↔
        server.pool = .running ∨ conn.queued = [])) ∧
      (server.step backend (.receive client .discard)).state = server.state ∧
      (server.step backend (.receive client .discard)).connection client =
        { replies := conn.replies ++ [.simpleString "OK"] }) := by
  have held : conn.Unwatched := here ▸ Server.unwatched_of_run run
  refine ⟨held.outside, fun inside => ?_⟩
  obtain ⟨idle, goes⟩ := held.inside inside
  have taken : ∀ input, server.Enabled (.receive client input) := fun input => by
    rw [Server.Enabled, here]
    exact ⟨idle, goes⟩
  have answered {next : Connection} (reply : RespValue) :
      (next.answer reply).spawn server.pool = next.answer reply := Connection.spawn_of_idle rfl
  have forgotten (reply : RespValue) :
      conn.reset.answer reply = { replies := conn.replies ++ [reply] } := by
    simp [Connection.reset, Connection.answer, goes]
  refine ⟨taken, fun call => ⟨rfl, ?_⟩, fun input refused => ⟨rfl, ?_⟩, ?_, rfl, ?_⟩
  · rw [Server.connection_receive_self, here, Connection.receive, if_pos inside, answered,
      Connection.answer, Connection.enqueue, idle]
  · rw [Server.connection_receive_self, here]
    obtain rfl | ⟨keys, rfl⟩ := refused
    · rw [Connection.receive, if_pos inside, answered, Connection.answer, idle]
      exact ⟨_, rfl⟩
    · rw [Connection.receive, if_pos inside, answered, Connection.answer, idle]
      exact ⟨_, rfl⟩
  · intro envs replies after lengths ran
    have counted := Backend.length_dispatchAll ran
    rw [List.length_zip, lengths, min_self] at counted
    refine ⟨counted, fun ⟨later, runs, _⟩ =>
      Server.running_of_exec lengths runs, fun running => ?_⟩
    -- `EXEC` hands over the first command, and every job that ends the next one.
    have started : (server.step backend (.receive client .exec)).connection client =
        conn.reset.executeQueue [] conn.queued := by
      rw [Server.connection_receive_self, here, Connection.receive, if_neg (by simp [inside]),
        if_pos held.watched]
      rcases running with running | empty
      · exact Connection.spawn_of_open (by simp [running])
      · rw [Connection.startQueue, empty]
        exact answered _
    obtain ⟨later, runs, stored, sent⟩ :=
      @Server.run_dispatchAll _ backend client
        (server.step backend (.receive client .exec)) _ _ _ _ _
        _ running lengths started ran
    refine ⟨later, (Run.single (taken .exec)).trans runs, stored, ?_⟩
    rw [sent, List.nil_append, forgotten]
  · rw [Server.connection_receive_self, here, Connection.receive, if_pos inside,
      answered, forgotten]

/-- A transaction of two commands. -/
theorem transaction_of_set_and_get :
    let set : Call := ⟨ascii "SET", [ascii "k", ascii "v"]⟩
    let get : Call := ⟨ascii "GET", [ascii "k"]⟩
    let queueing : List Event := [.receive 1 .multi, .receive 1 (.call set), .receive 1 (.call get)]
    let server := queueing.foldl (Server.step (commandBackend .plain .none)) (Server.start .new)
    (server.connection 1).queued = [set, get] ∧
      ∃ later, Run (Server.step (commandBackend .plain .none)) Server.Enabled server
          [.receive 1 .exec, .work 1 (.plain 3), .work 1 (.plain 4)] later ∧
        later.connection 1 =
          { replies := [.simpleString "OK", .simpleString "QUEUED", .simpleString "QUEUED",
              .array [.simpleString "OK", .bulkString (some (ascii "v"))]] } := by
  intro set get queueing server
  have run : Run (Server.step (commandBackend .plain .none)) (Server.Alone 1) (Server.start .new)
      queueing server :=
    run_foldl _ (by decide)
  have queued : (server.connection 1).queued = [set, get] := by decide
  have sent : (server.connection 1).replies =
      [.simpleString "OK", .simpleString "QUEUED", .simpleString "QUEUED"] := by decide
  have replies : (commandBackend .plain .none).dispatchAll 1
      ((server.connection 1).queued.zip [.plain 3, .plain 4]) server.state =
        (.ok [.simpleString "OK", .bulkString (some (ascii "v"))],
          ((commandBackend .plain .none).dispatchAll 1
            ((server.connection 1).queued.zip [.plain 3, .plain 4]) server.state).2) := by
    refine Prod.ext ?_ rfl
    decide
  obtain ⟨-, -, -, execs, -⟩ := (transaction_of_one_connection run rfl).2 (by decide)
  obtain ⟨later, runs, -, answered⟩ :=
    (execs [.plain 3, .plain 4] _ _ (by rw [queued]; rfl) replies).2.mpr (.inl rfl)
  rw [sent] at answered
  exact ⟨queued, later, runs, answered⟩

/-- A count too large for the memory makes a worker panic. After that commands are still
queued, and the task of the connection ends at `EXEC`. -/
theorem exec_unanswered :
    let scan :=
      [ascii "HSCAN", ascii "h", ascii "0", ascii "COUNT", ascii "9223372036854775807"]
    let events : List Event :=
      [.receive 1 (.ofArgs [ascii "HSET", ascii "h", ascii "f", ascii "v"]), .work 1 (.plain 1),
        .receive 1 (.ofArgs scan), .work 1 (.plain 2), .close,
        .receive 1 (.ofArgs [ascii "MULTI"]), .receive 1 (.ofArgs [ascii "PING"]),
        .receive 1 (.ofArgs [ascii "EXEC"])]
    let server := events.foldl (Server.step (commandBackend .plain .none)) (.start .new)
    Run (Server.step (commandBackend .plain .none)) (Server.Alone 1) (Server.start .new) events
        server ∧
      (server.connection 1).replies =
        [.integer 1, .error "ERR command aborted", .simpleString "OK", .simpleString "QUEUED"] ∧
      (server.connection 1).ended = true := by
  refine ⟨run_foldl _ ?_, ?_⟩ <;> decide

end Runs

end Kvdb
