import Kvdb.Command.Observation
import Kvdb.Command.Writes
import Kvdb.Server.Connection

/-!
# Isolation of transactions

The check of `EXEC` and every command of its queue are jobs of their own, so a
job of another connection can run in between. Transactions are isolated when
the clients see to it: no `EXEC` is sent while another connection waits for a
writing command or an `EXEC`, and no writing command while another one waits for
an `EXEC`. Then the queue runs on the store that has passed the check.

The check compares metadata values. It misses a write that leaves the value as it
is, such as `HSET` on a field that is there, and a write that is taken back. Where
every write to a watched key shows, what a client has read of its watched keys is
what its queue finds.
-/

namespace Kvdb

open Data Semantics

variable {ctx : CommandContext} {engine : ScriptEngine}

section Waiting

/-- The command leaves the shared state alone. Unknown names do, and scripts may do
anything. -/
def Call.reads (call : Call) : Bool :=
  match Registered.lookup call.cmd with
  | none => true
  | some (.data command) => command.reads
  | some (.node command) => command == .info || command == .role || command == .cluster
  | some (.script _) => false

def Job.inExec : Job → Bool
  | .check | .queue .. => true
  | .dispatch _ | .watch _ => false

/-- The job can change the shared state, or lead to one that does. -/
def Job.mayWrite : Job → Bool
  | .dispatch call => !call.reads
  | .watch _ => false
  | .check | .queue .. => true

def Connection.InExec (conn : Connection) : Prop := ∃ job, conn.job = some job ∧ job.inExec = true

/-- The connection waits for something that can change the shared state. -/
def Connection.MayWrite (conn : Connection) : Prop :=
  ∃ job, conn.job = some job ∧ job.mayWrite = true

/-- The check has passed, and the queue has not been run to its end. -/
def Connection.RunsQueue (conn : Connection) : Prop :=
  ∃ call rest replies, conn.job = some (.queue call rest replies)

variable {conn : Connection} {client : ℕ} {env : Env} {shared : Shared}

theorem Call.reads_dispatch {call : Call} (reads : call.reads = true) :
    (dispatchCommand ctx engine client call.cmd call.args env shared).2 = shared := by
  unfold Call.reads at reads
  unfold dispatchCommand
  cases found : Registered.lookup call.cmd with
  | none => rfl
  | some registered =>
    cases registered with
    | data command =>
      simp only [found] at reads
      have kept : (exec env (dispatch ctx command call.args) shared.store).2 = shared.store :=
        (Request.after_eq ctx shared.store ⟨command, call.args, env⟩).trans
          (Command.readOnly ctx reads call.args).exec_state
      simp only [kept]
    | node command =>
      simp only [found] at reads
      cases command <;> first | rfl | cases reads
    | script command =>
      simp only [found] at reads
      cases reads

theorem Connection.RunsQueue.inExec (runs : conn.RunsQueue) : conn.InExec := by
  obtain ⟨call, rest, replies, waits⟩ := runs
  exact ⟨_, waits, rfl⟩

theorem Connection.InExec.mayWrite (inExec : conn.InExec) : conn.MayWrite := by
  obtain ⟨job, waits, exec⟩ := inExec
  cases job with
  | check | queue => exact ⟨_, waits, rfl⟩
  | dispatch | watch => cases exec

theorem not_mayWrite_of_idle (idle : conn.job = none) : ¬ conn.MayWrite := by
  rintro ⟨job, waits, -⟩
  rw [idle] at waits
  cases waits

theorem not_inExec_of_idle (idle : conn.job = none) : ¬ conn.InExec := fun inExec =>
  not_mayWrite_of_idle idle inExec.mayWrite

/-- Running a job leads to a transaction only from a transaction. -/
theorem Connection.mayWrite_of_work
    (running : (conn.work (commandBackend ctx engine) client env shared).2.2 = .running)
    (wrote : (conn.work (commandBackend ctx engine) client env shared).1.MayWrite) :
    conn.InExec := by
  have idle : ∀ {next : Connection}, next.MayWrite → next.job ≠ none := fun may none =>
    not_mayWrite_of_idle none may
  cases waits : conn.job with
  | none =>
    rw [work_of_idle waits] at wrote
    exact absurd waits (idle wrote)
  | some job =>
    cases job with
    | dispatch call =>
      unfold Connection.work at wrote running
      simp only [waits] at wrote running
      -- Only a job that never ends leaves its connection waiting, and that is the pool's last.
      split at wrote
      · exact absurd rfl (idle wrote)
      · simp_all
      · exact absurd rfl (idle wrote)
    | watch keys =>
      unfold Connection.work at wrote
      simp only [waits, commandBackend, onStore, exec_watchKeys] at wrote
      exact absurd rfl (idle wrote)
    | check => exact ⟨_, waits, rfl⟩
    | queue call rest replies => exact ⟨_, waits, rfl⟩

/-- A job that cannot write leaves the shared state alone. -/
theorem Connection.work_state (idle : ¬ conn.MayWrite) :
    (conn.work (commandBackend ctx engine) client env shared).2.1 = shared := by
  cases waits : conn.job with
  | none => rw [work_of_idle waits]
  | some job =>
    cases job with
    | dispatch call =>
      have reads : call.reads = true := by
        by_contra writes
        exact idle ⟨_, waits, by simp [Job.mayWrite, writes]⟩
      exact (work_state_of_call (.inl waits)).trans (Call.reads_dispatch reads)
    | watch keys =>
      unfold Connection.work
      simp only [waits, commandBackend, onStore, exec_watchKeys]
    | check => exact absurd ⟨_, waits, rfl⟩ idle
    | queue call rest replies => exact absurd ⟨_, waits, rfl⟩ idle

end Waiting

section Records

variable {key : Bytes} {store middle later : Store}

/-- Two stores hold the same under a key: its metadata value, and the elements of its
version. -/
structure HeldAlike (ctx : CommandContext) (key : Bytes) (store later : Store) : Prop where
  record : ctx.lookupMeta later key = ctx.lookupMeta store key
  elements : ∀ v, ctx.lookupMeta store key = some v →
    firstByte v &&& flagsTypeMask ≠ DataType.string.code →
    SameElements ctx key (versionOf v) store later

theorem HeldAlike.refl (ctx : CommandContext) (key : Bytes) (store : Store) :
    HeldAlike ctx key store store := ⟨rfl, fun _ _ _ _ _ _ => rfl⟩

theorem HeldAlike.trans (first : HeldAlike ctx key store middle)
    (second : HeldAlike ctx key middle later) : HeldAlike ctx key store later := by
  refine ⟨second.record.trans first.record, fun v stored composite cf element sub => ?_⟩
  rw [second.elements v (first.record.trans stored) composite cf element sub,
    first.elements v stored composite cf element sub]

/-- A reading command replies the same where the keys it reads are held alike. `HSCAN` does
so from its beginning. -/
theorem reply_of_heldAlike {command : Command} {args : List Bytes} (reads : command.reads = true)
    (named : command ≠ .dbsize)
    (held : ∀ key ∈ command.readKeys args, HeldAlike ctx key store later)
    (first : command = .hscan → args[1]? = some (ascii "0")) (env : Env) :
    Request.reply ctx later ⟨command, args, env⟩ =
      Request.reply ctx store ⟨command, args, env⟩ := by
  have seen : ∀ key ∈ command.readKeys args, SeenAlike ctx key env env store later :=
    fun key member =>
      ⟨⟨rfl, (held key member).record, fun _ _ => rfl⟩, (held key member).elements⟩
  suffices same : Same env env store later (command.run ctx args) from same.reply
  refine Command.same reads named rfl (fun key member => (seen key member).meets command) ?_
  rintro rfl key member meta' start count loaded decoded
  obtain ⟨found, ran, -, elements⟩ := (seen key (mem_take_one member)).alikeAs .hash
  have same : found = .ok (some meta') := congrArg Prod.fst (ran.symm.trans loaded)
  have beginning : start = [] := by
    rw [first rfl] at decoded
    have zero : Cmd.decodeCursor (ascii "0") = .ok (some []) := by decide
    simpa [zero, eq_comm] using decoded
  exact alike_prefixScanPage ((elements meta' same).behind (by decide)) fun nonempty =>
    absurd beginning nonempty

end Records

section Serial

variable {σ : Type}

/-- The clients keep transactions apart: an `EXEC` is sent while no other
connection waits for a writing command or an `EXEC`, and a writing command while
no other one waits for an `EXEC`. -/
def Server.Apart (server : Server σ) : Event → Prop
  | .receive client .exec => (server.connection client).inMulti = true →
    ∀ other, other ≠ client → ¬ (server.connection other).MayWrite
  | .receive client (.call call) => (server.connection client).inMulti = false →
    call.reads = false → ∀ other, other ≠ client → ¬ (server.connection other).InExec
  | _ => True

/-- A change of a watched key shows: the key has another metadata value then than in the
snapshot. -/
def Server.Shows (ctx : CommandContext) (server next : Server Shared) : Prop :=
  ∀ client, ∀ entry ∈ (server.connection client).watched,
    HeldAlike ctx entry.1 server.state.store next.state.store ∨
      ctx.lookupMeta next.state.store entry.1 ≠ entry.2

/-- An event of a server whose clients keep transactions apart, and make no write to a
watched key that does not show. -/
structure Server.Serial (ctx : CommandContext) (engine : ScriptEngine) (server : Server Shared)
    (event : Event) : Prop where
  enabled : server.Enabled event
  apart : server.Apart event
  shows : server.Shows ctx (server.step (commandBackend ctx engine) event)

/-- While a connection waits for its `EXEC`, no other one waits for anything that
can change the shared state. -/
def Server.Exclusive (server : Server σ) : Prop :=
  server.pool = .running → ∀ client other, other ≠ client →
    (server.connection client).InExec → ¬ (server.connection other).MayWrite

theorem Server.exclusive_start (state : σ) : (Server.start state).Exclusive := by
  intro _ client other _ inExec
  exact absurd inExec (not_inExec_of_idle rfl)

variable {conn : Connection} {server : Server Shared} {event : Event}

/-- Only `EXEC` and writing commands make a connection wait for something that
can change the store. -/
theorem Connection.mayWrite_of_receive {input : Input} (may : (conn.receive input).MayWrite) :
    (input = .exec ∧ conn.inMulti = true) ∨
      ∃ call, input = .call call ∧ conn.inMulti = false ∧ call.reads = false := by
  have waiting : (conn.receive input).job ≠ none := fun none => not_mayWrite_of_idle none may
  cases input with
  | empty => exact absurd rfl waiting
  | multi =>
    rw [receive] at waiting
    split_ifs at waiting <;> exact absurd rfl waiting
  | discard =>
    rw [receive] at waiting
    split_ifs at waiting <;> exact absurd rfl waiting
  | watch keys =>
    rw [receive] at may waiting
    split_ifs at may waiting
    · exact absurd rfl waiting
    · obtain ⟨job, same, writes⟩ := may
      cases same
      cases writes
  | exec =>
    by_cases inMulti : conn.inMulti = true
    · exact .inl ⟨rfl, inMulti⟩
    · rw [receive, if_pos inMulti] at waiting
      exact absurd rfl waiting
  | call call =>
    rw [receive] at may waiting
    split_ifs at may waiting with inMulti
    · exact absurd rfl waiting
    · obtain ⟨job, same, writes⟩ := may
      cases same
      exact .inr ⟨call, rfl, by simpa using inMulti, by simpa [Job.mayWrite] using writes⟩

theorem Connection.inExec_of_receive {input : Input} (inExec : (conn.receive input).InExec) :
    input = .exec ∧ conn.inMulti = true := by
  obtain exec | ⟨call, rfl, single, -⟩ := mayWrite_of_receive inExec.mayWrite
  · exact exec
  · obtain ⟨job, same, exec⟩ := inExec
    rw [receive, single, if_neg (by simp)] at same
    cases same
    cases exec

/-- A pool that is running has been so before. -/
theorem Server.Enabled.running (enabled : server.Enabled event)
    (running : (server.step (commandBackend ctx engine) event).pool = .running) :
    server.pool = .running := by
  cases event with
  | receive => exact running
  | close => cases running
  | work client env =>
    refine enabled.1.resolve_right fun closed => ?_
    rw [step_work_closed closed, closed] at running
    cases running

theorem Server.Exclusive.step (exclusive : server.Exclusive)
    (serial : server.Serial ctx engine event) :
    (server.step (commandBackend ctx engine) event).Exclusive := by
  intro running' first second different inExec may
  have running := serial.enabled.running running'
  have open' : server.pool ≠ .closed := by simp [running]
  have before := exclusive running
  have apart := serial.apart
  by_cases isFirst : event.client = some first
  · have other : event.client ≠ some second := fun same =>
      different (Option.some.inj (same.symm.trans isFirst))
    rw [connection_step_of_ne other] at may
    cases event with
    | close => cases isFirst
    | receive client input =>
      obtain rfl : client = first := Option.some.inj isFirst
      rw [connection_receive_self, Connection.spawn_of_open open'] at inExec
      obtain ⟨rfl, inMulti⟩ := Connection.inExec_of_receive inExec
      exact apart inMulti second different may
    | work client env =>
      obtain rfl : client = first := Option.some.inj isFirst
      rw [step_work open'] at running'
      rw [connection_work_self open'] at inExec
      exact before client second different (Connection.mayWrite_of_work running' inExec.mayWrite)
        may
  rw [connection_step_of_ne isFirst] at inExec
  by_cases isSecond : event.client = some second
  · cases event with
    | close => cases isSecond
    | receive client input =>
      obtain rfl : client = second := Option.some.inj isSecond
      rw [connection_receive_self, Connection.spawn_of_open open'] at may
      obtain ⟨rfl, inMulti⟩ | ⟨call, rfl, single, writes⟩ := Connection.mayWrite_of_receive may
      · exact apart inMulti first different.symm inExec.mayWrite
      · exact apart single writes first different.symm inExec
    | work client env =>
      -- The other one of the two was waiting for its `EXEC` before.
      obtain rfl : client = second := Option.some.inj isSecond
      rw [step_work open'] at running'
      rw [connection_work_self open'] at may
      exact before client first different.symm (Connection.mayWrite_of_work running' may)
        inExec.mayWrite
  · rw [connection_step_of_ne isSecond] at may
    exact before first second different inExec may

/-- A job that cannot write leaves the shared state alone. -/
theorem Server.work_state {client : ℕ} (quiet : ¬ (server.connection client).MayWrite) (env : Env) :
    (server.step (commandBackend ctx engine) (.work client env)).state = server.state := by
  by_cases closed : server.pool = .closed
  · rw [step_work_closed closed]
  · rw [state_work closed]
    exact Connection.work_state quiet

/-- While a queue runs, the jobs of other connections change nothing. -/
theorem Server.Exclusive.work_state {client other : ℕ} {env : Env} (exclusive : server.Exclusive)
    (enabled : server.Enabled (.work other env)) (different : other ≠ client)
    (inExec : (server.connection client).InExec) :
    (server.step (commandBackend ctx engine) (.work other env)).state = server.state := by
  rcases enabled.1 with running | closed
  · exact Server.work_state (exclusive running client other different inExec) env
  · rw [step_work_closed closed]

theorem Server.shows_of_state {next : Server Shared} (kept : next.state = server.state) :
    server.Shows ctx next := by
  intro client entry _
  rw [kept]
  exact .inl (.refl ctx entry.1 _)

/-- What a client sees of its watched keys is what the check finds, if it finds them
unchanged. -/
theorem Server.heldAlike_of_run {middle : Server Shared} {between : List Event} {client : ℕ}
    {entry : Bytes × Option Bytes}
    (run : Run (Server.step (commandBackend ctx engine))
      (fun state event => state.Serial ctx engine event ∧ entry ∈ (state.connection client).watched)
      middle between server)
    (unchanged : ctx.lookupMeta server.state.store entry.1 = entry.2) :
    HeldAlike ctx entry.1 middle.state.store server.state.store := by
  have held : HeldAlike ctx entry.1 middle.state.store server.state.store ∨
      ctx.lookupMeta server.state.store entry.1 ≠ entry.2 := by
    refine @Run.invariant _ _ _ _ _ _ _ (fun server =>
      HeldAlike ctx entry.1 middle.state.store server.state.store ∨
        ctx.lookupMeta server.state.store entry.1 ≠ entry.2) run (.inl (.refl ctx entry.1 _)) ?_
    rintro state event ⟨serial, watched⟩ before
    rcases serial.shows client entry watched with same | changed
    · exact before.imp (·.trans same) fun earlier => by rwa [same.record]
    · exact .inr changed
  exact held.resolve_right (not_not.mpr unchanged)

/-- The event runs a job. -/
def Event.isWork : Event → Bool
  | .work _ _ => true
  | _ => false

/-- A client that is alone keeps nobody apart. -/
theorem Server.serial_of_alone {initial : Shared} {events : List Event} {client : ℕ}
    (run : Run (Server.step (commandBackend ctx engine))
      (fun server event => server.Enabled event ∧ event.client = some client ∧
        (event.isWork = true → (server.connection client).job.any Job.mayWrite = false))
      (Server.start initial) events server) :
    Run (Server.step (commandBackend ctx engine)) (Server.Serial ctx engine) (Server.start initial)
        events server ∧
      ∀ other, other ≠ client → server.connection other = {} := by
  induction run with
  | refl => exact ⟨.refl, fun _ _ => rfl⟩
  | @next events server event _ allowed ih =>
    obtain ⟨serial, fresh⟩ := ih
    obtain ⟨enabled, own, quiet⟩ := allowed
    have silent : ∀ other, other ≠ client → ¬ (server.connection other).MayWrite := by
      intro other different
      rw [fresh other different]
      exact not_mayWrite_of_idle rfl
    refine ⟨serial.next ⟨enabled, ?_, Server.shows_of_state ?_⟩, fun other different => ?_⟩
    · cases event with
      | work | close => trivial
      | receive receiver input =>
        obtain rfl : receiver = client := Option.some.inj own
        cases input with
        | exec => exact fun _ => silent
        | call call =>
          exact fun _ _ other different inExec => silent other different inExec.mayWrite
        | empty | multi | discard | watch => trivial
    · cases event with
      | receive | close => rfl
      | work worker env =>
        obtain rfl : worker = client := Option.some.inj own
        refine Server.work_state ?_ env
        rintro ⟨job, waits, writes⟩
        simpa [waits, writes] using quiet rfl
    · rw [connection_step_of_ne fun same => different (Option.some.inj (same.symm.trans own))]
      exact fresh other different

end Serial

section Queues

variable {server : Server Shared} {client : ℕ}

/-- A check that leads to the queue has found every watched key as it was. -/
theorem Connection.unchanged_of_runsQueue {conn : Connection} {env : Env} {shared : Shared}
    (check : conn.job = some .check)
    (runs : (conn.work (commandBackend ctx engine) client env shared).1.RunsQueue) :
    (conn.work (commandBackend ctx engine) client env shared).2.1 = shared ∧
      ∀ entry ∈ conn.watched, ctx.lookupMeta shared.store entry.1 = entry.2 := by
  unfold Connection.work at runs ⊢
  simp only [check, commandBackend, onStore, exec_watchedKeysChanged] at runs ⊢
  cases changed : conn.watched.any fun entry =>
      decide (ctx.lookupMeta shared.store entry.1 ≠ entry.2) with
  | true =>
    simp only [changed] at runs
    obtain ⟨call, rest, replies, waits⟩ := runs
    cases waits
  | false =>
    refine ⟨rfl, fun entry inside => ?_⟩
    simpa using List.any_eq_false.mp changed entry inside

/-- Transactions are isolated in every run of a server whose clients keep them apart and
whose writes to watched keys show. While a queue runs, jobs of other connections change
nothing. It begins on the state that its check has found, with the watched keys as in the
snapshot, and whatever the client has read of these keys since the snapshot is what it would
read there, so it has missed no write. -/
theorem exec_isolated {initial : Shared} {events : List Event}
    (run : Run (Server.step (commandBackend ctx engine)) (Server.Serial ctx engine)
      (Server.start initial) events server) :
    (∀ client other env, server.Enabled (.work other env) → other ≠ client →
      (server.connection client).RunsQueue →
      (server.step (commandBackend ctx engine) (.work other env)).state = server.state) ∧
    ∀ client env, server.Enabled (.work client env) →
      (server.connection client).job = some .check →
      ((server.step (commandBackend ctx engine) (.work client env)).connection client).RunsQueue →
      (server.step (commandBackend ctx engine) (.work client env)).state = server.state ∧
      (∀ entry ∈ (server.connection client).watched,
        ctx.lookupMeta server.state.store entry.1 = entry.2) ∧
      ∀ middle between,
        Run (Server.step (commandBackend ctx engine))
          (fun state event => state.Serial ctx engine event ∧
            (state.connection client).watched = (server.connection client).watched)
          middle between server →
        ∀ command args, command.reads = true → command ≠ .dbsize →
          (∀ key ∈ command.readKeys args,
            ∃ value, (key, value) ∈ (server.connection client).watched) →
          (command = .hscan → args[1]? = some (ascii "0")) → ∀ env,
          Request.reply ctx server.state.store ⟨command, args, env⟩ =
            Request.reply ctx middle.state.store ⟨command, args, env⟩ := by
  have exclusive : server.Exclusive :=
    run.invariant (Server.exclusive_start initial) fun _ _ serial held => held.step serial
  refine ⟨fun client other env enabled different runs =>
    exclusive.work_state enabled different runs.inExec, ?_⟩
  intro client env enabled check runs
  have open' : server.pool ≠ .closed := by
    intro closed
    obtain ⟨call, rest, replies, waits⟩ := runs
    rw [Server.step_work_closed closed] at waits
    simp [Connection.job_spawn_closed] at waits
  rw [Server.connection_work_self open'] at runs
  obtain ⟨kept, unchanged⟩ := Connection.unchanged_of_runsQueue check runs
  refine ⟨by rw [Server.state_work open', kept], unchanged, ?_⟩
  intro middle between during command args reads named watched first env
  refine reply_of_heldAlike reads named (fun key member => ?_) first env
  obtain ⟨value, here⟩ := watched key member
  exact Server.heldAlike_of_run
    (during.imp fun _ _ ⟨serial, same⟩ => ⟨serial, same ▸ here⟩) (unchanged _ here)

/-- A client watches a key, reads it, and sends a transaction that sets it. -/
def optimisticSet (client : ℕ) (key value : Bytes) : List Event :=
  [.receive client (.watch [key]), .work client (.plain 1),
    .receive client (.call ⟨ascii "GET", [key]⟩), .work client (.plain 2),
    .receive client .multi, .receive client (.call ⟨ascii "SET", [key, value]⟩),
    .receive client .exec]

/-- The client reads the key as absent, and so does the check. -/
theorem exec_isolated_of_one_client :
    let server := (optimisticSet 1 (ascii "k") (ascii "1")).foldl
      (Server.step (commandBackend .plain .none)) (.start .new)
    let later := server.step (commandBackend .plain .none) (.work 1 (.plain 3))
    (server.connection 1).job = some .check ∧
      (later.connection 1).job = some (.queue ⟨ascii "SET", [ascii "k", ascii "1"]⟩ [] []) ∧
      later.state = server.state ∧
      Request.reply .plain server.state.store ⟨.get, [ascii "k"], .plain 2⟩ =
        .ok (.bulkString none) := by
  intro server later
  have serial := (@Server.serial_of_alone .plain .none server .new
    (optimisticSet 1 (ascii "k") (ascii "1")) 1 (run_foldl _ (by decide))).1
  let middle := ((optimisticSet 1 (ascii "k") (ascii "1")).take 2).foldl
    (Server.step (commandBackend .plain .none)) (.start .new)
  have during : Run (Server.step (commandBackend .plain .none))
      (fun state event => state.Serial .plain .none event ∧
        (state.connection 1).watched = (server.connection 1).watched)
      middle ((optimisticSet 1 (ascii "k") (ascii "1")).drop 2) server := by
    have same : ∀ n < 5, (((((optimisticSet 1 (ascii "k") (ascii "1")).drop 2).take n).foldl
        (Server.step (commandBackend .plain .none)) middle).connection 1).watched =
          (server.connection 1).watched := by decide
    exact (@Run.split _ _ _ _ _ _ ((optimisticSet 1 (ascii "k") (ascii "1")).take 2) _ serial).and
      fun n event here => same n (List.getElem?_eq_some_iff.mp here).1
  have check : (server.connection 1).job = some .check := by decide
  have starts : (later.connection 1).job =
      some (.queue ⟨ascii "SET", [ascii "k", ascii "1"]⟩ [] []) := by decide
  obtain ⟨kept, -, seen⟩ := (exec_isolated serial).2 1 (.plain 3) (by decide) check
    ⟨_, _, _, starts⟩
  refine ⟨check, starts, kept, ?_⟩
  rw [seen middle _ during .get [ascii "k"] rfl (by decide) ?_ nofun (.plain 2)]
  · decide
  · intro key member
    obtain rfl := List.mem_singleton.mp member
    exact ⟨none, by decide⟩

/-- A job of another connection between the check and the queue: the second
client's write is answered with `OK` and then lost, though the transaction of the
first client was based on the value before it and is answered with its replies. -/
theorem exec_loses_update :
    let events := optimisticSet 1 (ascii "k") (ascii "1") ++
      [.receive 2 (.call ⟨ascii "SET", [ascii "k", ascii "5"]⟩), .work 1 (.plain 3),
        .work 2 (.plain 4), .work 1 (.plain 5)]
    let server := events.foldl (Server.step (commandBackend .plain .none)) (.start .new)
    Run (Server.step (commandBackend .plain .none)) Server.Enabled (Server.start .new)
      events server ∧
      (server.connection 1).replies =
        [.simpleString "OK", .bulkString none, .simpleString "OK", .simpleString "QUEUED",
          .array [.simpleString "OK"]] ∧
      (server.connection 2).replies = [.simpleString "OK"] ∧
      Request.reply .plain server.state.store ⟨.get, [ascii "k"], .plain 6⟩ =
        .ok (.bulkString (some (ascii "1"))) := by
  refine ⟨run_foldl _ ?_, ?_⟩ <;> decide

end Queues

end Kvdb
