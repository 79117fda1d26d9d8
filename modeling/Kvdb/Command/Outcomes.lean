import Kvdb.Command.Registry
import Kvdb.Command.Writes

/-!
# How commands end

The writing commands read all they need and check all their arguments before
they write. `DEL` and `FLUSHDB` write more than once, and report no error on the
way. So a command that reports an error has changed nothing, and every reply is
one value of the protocol, with two exceptions: the errors for an unknown command
and for an unknown subcommand of `CLUSTER` hold the bytes of the client.
-/

namespace Kvdb

open Data Semantics

variable {α β : Type}

section Phases

variable {accepts : Bool → β → Prop} {wrote : Bool} {program : Prog α} {rest : α → Prog β}

/-- The program reports no error, wherever it is run. -/
def Steady (program : Prog α) : Prop := ∀ wrote, Tidy (fun _ _ => True) wrote program

theorem steady_pure (value : α) : Steady (pure value : Prog α) := fun _ => trivial

theorem steady_fail {fault : Fault} (silent : ∀ cause, fault ≠ .error cause) :
    Steady (.fail fault : Prog α) := by
  refine fun wrote => ⟨?_, fun _ => silent⟩
  cases fault with
  | error cause => exact absurd rfl (silent cause)
  | panic => trivial
  | hang => trivial

theorem steady_perform (op : Effect) : Steady (Program.perform (S := effects) op) :=
  fun _ _ => trivial

theorem Steady.bind (first : Steady program) (next : ∀ value, Steady (rest value)) :
    Steady (program >>= rest) := fun wrote =>
  Program.Follows.bind (first wrote) fun reached value _ => next value reached

theorem Steady.bind_tidy (first : Steady program)
    (next : ∀ wrote value, Tidy accepts wrote (rest value)) :
    Tidy accepts wrote (program >>= rest) :=
  Program.Follows.bind (first wrote) fun reached value _ => next reached value

theorem Steady.ite {condition : Prop} [Decidable condition] {other : Prog α}
    (first : Steady program) (second : Steady other) :
    Steady (if condition then program else other) := by
  split_ifs
  · exact first
  · exact second

end Phases

namespace Cmd

variable (ctx : CommandContext)

section Deletion

theorem steady_getMeta (userKey : Bytes) : Steady (ctx.getMeta userKey) := by
  refine (steady_perform _).bind fun found => ?_
  split
  · exact steady_pure _
  · split_ifs
    · exact steady_pure _
    · exact steady_perform _

theorem steady_prefixScanPage (cf : ColumnFamily) (pre startKey : Bytes) (limit : ℕ) :
    Steady (prefixScanPage cf pre startKey limit) :=
  (steady_perform _).bind fun _ => Steady.bind ((steady_pure _).ite (steady_fail nofun)) fun _ =>
    steady_pure _

theorem steady_deletePrefixLoop (cf : ColumnFamily) (pre : Bytes) (batchSize rounds : ℕ)
    (startKey : Bytes) : Steady (deletePrefixLoop cf pre batchSize rounds startKey) := by
  induction rounds generalizing startKey with
  | zero => exact steady_fail nofun
  | succ rounds ih =>
    refine (steady_prefixScanPage _ _ _ _).bind fun ⟨items, nextKey⟩ => ?_
    cases items with
    | nil => exact steady_pure _
    | cons item items =>
      refine (steady_perform _).bind fun _ => ?_
      cases nextKey with
      | none => exact steady_pure _
      | some key => exact ih key

theorem steady_deletePrefix (cf : ColumnFamily) (pre : Bytes) (batchSize : ℕ) :
    Steady (deletePrefix cf pre batchSize) :=
  (steady_perform _).bind fun _ => steady_deletePrefixLoop _ _ _ _ _

theorem steady_purgeValue (userKey metaVal : Bytes) : Steady (purgeValue ctx userKey metaVal) := by
  refine Steady.ite ?_ (steady_pure _)
  split
  · exact (steady_deletePrefix _ _ _).bind fun _ => (steady_deletePrefix _ _ _).ite (steady_pure _)
  · exact steady_pure _

theorem steady_delLoop (userKeys : List Bytes) (count : Int64) :
    Steady (delLoop ctx userKeys count) := by
  induction userKeys generalizing count with
  | nil => exact steady_pure _
  | cons userKey rest ih =>
    exact (steady_getMeta ctx userKey).bind fun
      | none => ih _
      | some metaVal => (steady_purgeValue ctx userKey metaVal).bind fun _ =>
        (steady_perform _).bind fun _ => ih _

theorem tidy_del (args : List Bytes) : Tidy Replied false (del ctx args) := by
  unfold del
  split
  · exact Answers.tidy (views_wrongArgCount rfl (by decide)).answers
  · exact (steady_delLoop ctx _ _).bind_tidy fun _ _ => replied_integer _

theorem tidy_flushdb (args : List Bytes) : Tidy Replied false (flushdb ctx args) := by
  refine Steady.bind_tidy (steady_deletePrefix _ _ _) fun _ _ => ?_
  refine Steady.bind_tidy (steady_deletePrefix _ _ _) fun _ _ => ?_
  exact Steady.bind_tidy (steady_deletePrefix _ _ _) fun _ _ => replied_ok

end Deletion

end Cmd

section Table

variable (ctx : CommandContext)

/-- Every command reports errors on one line, and none once it has written. -/
theorem Command.tidy (command : Command) (args : List Bytes) :
    Tidy Replied false (command.run ctx args) := by
  by_cases listed : command ∈ [.del, .flushdb, .dbsize]
  · simp only [List.mem_cons, List.not_mem_nil, or_false] at listed
    rcases listed with rfl | rfl | rfl
    · exact Cmd.tidy_del ctx args
    · exact Cmd.tidy_flushdb ctx args
    · exact (Command.answers ctx rfl args).tidy
  · have commits : Commits .single (BatchOnKeys ctx (command.writtenKeys args))
        (command.run ctx args) :=
      Command.commits listed trivial fun key _ => Observer.meets_single ctx command key
    exact commits.2

variable {ctx} {command : Command} {args : List Bytes} {env : Env} {store : Store}

/-- A command ends with a framed reply or an error on one line, and where it ends
with an error the store is what it was. -/
theorem Command.ends (command : Command) (args : List Bytes) (env : Env) (store : Store) :
    Program.Ends env.handle (command.run ctx args) store
      (fun reply after => reply.Framed ∧ ∀ text, reply = .error text → after = store)
      fun fault after => fault.OnLine ∧ ∀ cause, fault = .error cause → after = store := by
  have kept (wrote : Bool) (state : Store) (op : Effect)
      (unchanged : wrote = false → state = store) :
      (wrote || op.writes) = false → (env.handle op state).2 = store := by
    intro unwritten
    obtain ⟨still, reads⟩ := Bool.or_eq_false_iff.mp unwritten
    cases op with
    | write batch => cases reads
    | _ => exact unchanged still
  refine (Program.Follows.run (command.tidy ctx args) kept fun _ => rfl).mono ?_ ?_
  · rintro reply after ⟨wrote, unchanged, framed, noError⟩
    refine ⟨framed, fun text same => unchanged ?_⟩
    cases wrote with
    | false => rfl
    | true => exact absurd same (noError rfl text)
  · rintro fault after ⟨wrote, unchanged, line, noError⟩
    refine ⟨line, fun cause same => unchanged ?_⟩
    cases wrote with
    | false => rfl
    | true => exact absurd same (noError rfl cause)

/-- What dispatching a data command replies, and does if it replies an error. -/
theorem dispatch_outcome {reply : RespValue} {after : Store}
    (replied : exec env (dispatch ctx command args) store = (.ok reply, after)) :
    reply.Framed ∧ ∀ text, reply = .error text → after = store := by
  have ends := @Command.ends ctx command args env store
  rw [exec_dispatch] at replied
  rcases ends.outcome with ⟨value, state, ran, framed⟩ | ⟨fault, state, ran, line, unchanged⟩
  · have ran : exec env (command.run ctx args) store = (.ok value, state) := ran
    rw [ran] at replied
    cases replied
    exact framed
  · have ran : exec env (command.run ctx args) store = (.error fault, state) := ran
    rw [ran] at replied
    cases fault with
    | error cause =>
      cases replied
      exact ⟨line, fun _ _ => unchanged cause rfl⟩
    | panic => cases replied
    | hang => cases replied

end Table

section Failures

variable {ctx : CommandContext} {engine : ScriptEngine} {client : ℕ} {cmd : Bytes}
  {args : List Bytes} {env : Env} {shared after : Shared} {text : String}

/-- A command that is no script and replies with an error leaves all column
families as they were. -/
theorem dispatchCommand_error_unchanged
    (unscripted : ∀ command, Registered.lookup cmd ≠ some (.script command))
    (failed : dispatchCommand ctx engine client cmd args env shared = (.ok (.error text), after)) :
    after.store = shared.store := by
  unfold dispatchCommand at failed
  cases found : Registered.lookup cmd with
  | none =>
    simp only [found, Prod.mk.injEq] at failed
    rw [← failed.2]
  | some registered =>
    cases registered with
    | script command => exact absurd found (unscripted command)
    | node command =>
      simp only [found, Prod.mk.injEq] at failed
      rw [← failed.2]
    | data command =>
      simp only [found, Prod.mk.injEq] at failed
      obtain ⟨replied, rfl⟩ := failed
      exact (dispatch_outcome (Prod.ext replied rfl)).2 text rfl

theorem dispatchCommand_error_unchanged_of_incr :
    let stored :=
  (dispatchCommand .plain .none 1 (ascii "SET") [ascii "k", ascii "a"] (.plain 1) .new).2
    let outcome := dispatchCommand .plain .none 1 (ascii "INCR") [ascii "k"] (.plain 2) stored
    outcome.1 = .ok (.error "ERR value is not an integer") ∧ outcome.2.store = stored.store := by
  intro stored outcome
  have replied : outcome.1 = .ok (.error "ERR value is not an integer") := by decide +kernel
  have known : Registered.lookup (ascii "INCR") = some (.data .incr) := by decide +kernel
  have unscripted (command : ScriptCommand) :
      Registered.lookup (ascii "INCR") ≠ some (.script command) := by
    rw [known]
    exact nofun
  exact ⟨replied, dispatchCommand_error_unchanged unscripted (Prod.ext replied rfl)⟩

end Failures

section Framing

/-- A broken line ends at its first line break. -/
theorem exists_line_of_infix {line : Bytes} (broken : crlf <:+: line) :
    ∃ before behind, line = before ++ crlf ++ behind ∧ ¬ crlf <:+: before := by
  induction line with
  | nil => simp [crlf] at broken
  | cons a line ih =>
    by_cases begins : crlf <+: a :: line
    · obtain ⟨behind, whole⟩ := begins
      exact ⟨[], behind, whole.symm, by simp [crlf]⟩
    · obtain ⟨before, behind, whole, unbroken⟩ :=
        ih ((List.infix_cons_iff.mp broken).resolve_left begins)
      refine ⟨a :: before, behind, by rw [whole]; rfl, fun inside => ?_⟩
      rcases List.infix_cons_iff.mp inside with early | later
      · refine begins (early.trans ?_)
        rw [whole, List.append_assoc]
        exact List.prefix_append (a :: before) _
      · exact unbroken later

variable {ctx : CommandContext} {engine : ScriptEngine} {client : ℕ} {cmd : Bytes}
  {args : List Bytes} {env : Env} {shared after : Shared} {reply : RespValue} {floats : F64Ops}

/-- The bytes are read as one value, and none of them is left. -/
def OneValue (floats : F64Ops) (bytes : Bytes) : Prop :=
  ∃ value, parseOne floats bytes = .done value bytes.length

theorem oneValue_of_framed (framed : reply.Framed) (inMemory : reply.All RespValue.Allocated) :
    OneValue floats (serialize floats reply) := by
  refine ⟨reply, ?_⟩
  simpa using parseOne_serialize_append floats reply framed inMemory []

/-- A line break in the text of an error ends the error there. -/
theorem not_oneValue_of_broken {text : String} (broken : crlf <:+: utf8 text) :
    ¬ OneValue floats (serialize floats (.error text)) := by
  obtain ⟨before, behind, whole, unbroken⟩ := exists_line_of_infix broken
  rintro ⟨value, read⟩
  have early : parseOne floats (serialize floats (.error text)) =
      .done (.error (fromUtf8Lossy before)) (before.length + 3) := by
    rw [serialize, whole, List.append_assoc, parseOne_cons]
    exact Parser.map_of_done (parseLine_line (by decide : (0x2D : UInt8) ≠ 0x0D) unbroken
      (behind ++ crlf)) fun line => RespValue.error (fromUtf8Lossy line)
  rw [early] at read
  have lengths := (Parsed.done.inj read).2
  rw [serialize, whole] at lengths
  simp [crlf] at lengths

/-- The case of letters has no part in line breaks. -/
theorem broken_toAsciiUppercase (bytes : Bytes) :
    crlf <:+: toAsciiUppercase bytes ↔ crlf <:+: bytes := by
  have preimage (byte : UInt8) (small : byte < 0x20) (other : UInt8)
      (same : upperByte other = byte) :
      other = byte := by
    unfold upperByte at same
    split_ifs at same with letter
    · grind
    · exact same
  rw [toAsciiUppercase, List.infix_map_iff]
  constructor
  · rintro ⟨source, inside, same⟩
    obtain ⟨a, rest, rfl, first, later⟩ := List.map_eq_cons_iff.mp same.symm
    obtain ⟨b, none, rfl, second, empty⟩ := List.map_eq_cons_iff.mp later
    obtain rfl := List.map_eq_nil_iff.mp empty
    obtain rfl := preimage 0x0D (by decide) a first
    obtain rfl := preimage 0x0A (by decide) b second
    exact inside
  · intro inside
    exact ⟨crlf, inside, by decide⟩

/-- The bytes of a client between two texts of the server. -/
theorem broken_quoted {opening closing : String} (plain : Plain opening)
    (ending : '\n' ∉ closing.toList) (bytes : Bytes) :
    crlf <:+: utf8 (opening ++ fromUtf8Lossy (toAsciiUppercase bytes) ++ closing) ↔
      crlf <:+: bytes := by
  have ascii : ∀ byte ∈ crlf, byte < 0x80 :=
    List.forall_mem_cons.mpr ⟨by decide, List.forall_mem_singleton.mpr (by decide)⟩
  rw [← broken_toAsciiUppercase bytes, ← infix_fromUtf8Lossy ascii (toAsciiUppercase bytes)]
  have parts : utf8 (opening ++ fromUtf8Lossy (toAsciiUppercase bytes) ++ closing) =
      utf8 opening ++ (utf8 (fromUtf8Lossy (toAsciiUppercase bytes)) ++ utf8 closing) := by
    simp [utf8]
  rw [parts]
  generalize utf8 (fromUtf8Lossy (toAsciiUppercase bytes)) = middle
  unfold crlf
  constructor
  · intro inside
    have noReturn : (0x0D : UInt8) ∉ utf8 opening := not_mem_utf8_of_ascii (by decide) plain
    have noFeed : (0x0A : UInt8) ∉ (utf8 closing).reverse := by
      have absent : UInt8.ofNat '\n'.val.toNat ∉ utf8 closing :=
        not_mem_utf8_of_ascii (by decide) ending
      exact fun member => absent (List.mem_reverse.mp member)
    have behind : [0x0D, 0x0A] <:+: middle ++ utf8 closing := infix_of_infix_append noReturn inside
    have reversed : [0x0A, 0x0D] <:+: (utf8 closing).reverse ++ middle.reverse := by
      rw [← List.reverse_append]
      exact List.reverse_infix.mpr behind
    have before : [0x0A, 0x0D] <:+: middle.reverse := infix_of_infix_append noFeed reversed
    exact List.reverse_infix.mp before
  · intro inside
    exact List.infix_append_of_infix_right (List.infix_append_of_infix_left inside)

/-- The request has a line break where an error repeats it: in the name of a
command that is not registered, or in a subcommand of `CLUSTER`. -/
def Smuggles (cmd : Bytes) (args : List Bytes) : Prop :=
  (Registered.lookup cmd = none ∧ crlf <:+: cmd) ∨
    (Registered.lookup cmd = some (.node .cluster) ∧ ∃ sub rest, args = sub :: rest ∧ crlf <:+: sub)

/-- An error that repeats the bytes of a client is one value if these have no line
break. -/
theorem oneValue_quoted_iff {opening closing : String} (plain : Plain opening)
    (ending : '\n' ∉ closing.toList) (bytes : Bytes) :
    OneValue floats (serialize floats
      (.error (opening ++ fromUtf8Lossy (toAsciiUppercase bytes) ++ closing))) ↔
      ¬ crlf <:+: bytes := by
  rw [← broken_quoted plain ending bytes]
  constructor
  · intro whole broken
    exact not_oneValue_of_broken broken whole
  · intro unbroken
    have framed :
        (RespValue.error (opening ++ fromUtf8Lossy (toAsciiUppercase bytes) ++ closing)).Framed :=
      unbroken
    exact oneValue_of_framed framed trivial

theorem not_keyword_of_broken {sub : Bytes} (broken : crlf <:+: sub) {word : String}
    (plain : (0x0D : UInt8) ∉ ascii word) : isKeyword sub word = false := by
  rw [isKeyword, decide_eq_false_iff_not]
  intro same
  have inside : crlf <:+: ascii word := same ▸ (broken_toAsciiUppercase sub).mpr broken
  exact plain (inside.subset List.mem_cons_self)

/-- The reply is framed, or the error is on one line. -/
def FramedOutcome : Except KvdbError RespValue → Prop
  | .ok reply => reply.Framed
  | .error cause => (Fault.error cause).OnLine

theorem FramedOutcome.framed_reply {outcome : Except KvdbError RespValue}
    (framed : FramedOutcome outcome) (replied : replyOf (outcome.mapError .error) = .ok reply) :
    reply.Framed := by
  cases outcome with
  | ok value =>
    cases replied
    exact framed
  | error cause =>
    cases replied
    exact framed

namespace Node

variable (node : Node) (client : ℕ) (args : List Bytes)

theorem framed_replicaof : FramedOutcome (node.replicaof args).1 := by
  unfold replicaof
  split
  · split_ifs
    · exact framed_ok
    · split
      · exact onLine_command (plain_of_chars rfl (by decide))
      · exact framed_ok
  · exact onLine_wrongArgCount (plain_of_chars rfl (by decide))

theorem framed_roleReply : node.roleReply.Framed := by
  unfold roleReply
  split <;> simp

theorem framed_confirmations (word : String) (channels : List String) :
    (confirmations client word channels node).Framed := by
  simp [confirmations]

theorem framed_subscribe : FramedOutcome (node.subscribe client args).1 := by
  unfold subscribe
  split
  · exact onLine_wrongArgCount (plain_of_chars rfl (by decide))
  · exact framed_confirmations _ client _ _

theorem framed_unsubscribe : FramedOutcome (node.unsubscribe client args).1 := by
  unfold unsubscribe
  split
  · exact framed_confirmations _ client _ _
  · exact framed_confirmations _ client _ _

theorem framed_publish : FramedOutcome (node.publish args).1 := by
  unfold publish
  split
  · exact RespValue.framed_integer _
  · exact onLine_wrongArgCount (plain_of_chars rfl (by decide))

theorem framed_cluster_nil : FramedOutcome (node.cluster []) :=
  (plain_of_chars rfl (by decide)).unbroken

/-- An unknown subcommand is repeated in the error. -/
theorem framed_cluster_cons {sub : Bytes} (unbroken : ¬ crlf <:+: sub) (rest : List Bytes) :
    FramedOutcome (node.cluster (sub :: rest)) := by
  unfold cluster
  dsimp only
  split_ifs
  · rw [FramedOutcome, RespValue.framed_array, List.forall_mem_map]
    intro range _
    simp [slotsRangeToResp]
  · split
    · exact RespValue.framed_integer _
    · exact onLine_wrongArgCount (plain_of_chars rfl (by decide))
  · unfold clusterNodes
    split_ifs <;> exact RespValue.framed_bulkString _
  · exact fun broken =>
      unbroken ((broken_quoted (plain_of_chars rfl (by decide)) (by decide) sub).mp broken)

theorem cluster_of_broken {sub : Bytes} (broken : crlf <:+: sub) (rest : List Bytes) :
    node.cluster (sub :: rest) =
      .ok (.error ("ERR unknown subcommand '" ++ fromUtf8Lossy (toAsciiUppercase sub) ++ "'")) := by
  simp only [cluster, not_keyword_of_broken broken (by decide : (0x0D : UInt8) ∉ ascii "SLOTS"),
    not_keyword_of_broken broken (by decide : (0x0D : UInt8) ∉ ascii "KEYSLOT"),
    not_keyword_of_broken broken (by decide : (0x0D : UInt8) ∉ ascii "NODES"), Bool.false_eq_true,
    if_false]

end Node

/-- The outcomes of the commands on the node are framed, apart from those of
`CLUSTER` with a broken subcommand. -/
theorem NodeCommand.framed (command : NodeCommand) (client : ℕ) (args : List Bytes) (node : Node)
    (known : command = .cluster → ∀ sub rest, args = sub :: rest → ¬ crlf <:+: sub) :
    FramedOutcome (command.run client args node).1 := by
  cases command with
  | info => exact RespValue.framed_bulkString _
  | replicaof => exact node.framed_replicaof args
  | role => exact node.framed_roleReply
  | subscribe => exact node.framed_subscribe client args
  | unsubscribe => exact node.framed_unsubscribe client args
  | publish => exact node.framed_publish args
  | cluster =>
    cases args with
    | nil => exact node.framed_cluster_nil
    | cons sub rest => exact node.framed_cluster_cons (known rfl sub rest rfl) rest

/-- The reply to a command that is no script is one value, unless the request has a
line break where an error repeats it. -/
theorem dispatchCommand_oneValue_iff
    (unscripted : ∀ command, Registered.lookup cmd ≠ some (.script command))
    (replied : dispatchCommand ctx engine client cmd args env shared = (.ok reply, after))
    (inMemory : reply.All RespValue.Allocated) :
    OneValue ctx.floats (serialize ctx.floats reply) ↔ ¬ Smuggles cmd args := by
  unfold dispatchCommand at replied
  cases found : Registered.lookup cmd with
  | none =>
    simp only [found, Prod.mk.injEq, Except.ok.injEq] at replied
    rw [← replied.1, unknownCommand,
      oneValue_quoted_iff (plain_of_chars rfl (by decide)) (by decide)]
    simp [Smuggles, found]
  | some registered =>
    cases registered with
    | script command => exact absurd found (unscripted command)
    | data command =>
      simp only [found, Prod.mk.injEq] at replied
      have framed := (dispatch_outcome (Prod.ext replied.1 rfl)).1
      exact iff_of_true (oneValue_of_framed framed inMemory) (by simp [Smuggles, found])
    | node command =>
      simp only [found, Prod.mk.injEq] at replied
      by_cases smuggles : Smuggles cmd args
      · refine iff_of_false ?_ (not_not.mpr smuggles)
        rcases smuggles with ⟨unknown, -⟩ | ⟨cluster, sub, rest, rfl, broken⟩
        · rw [found] at unknown
          cases unknown
        · rw [found] at cluster
          cases cluster
          rw [NodeCommand.run, Node.cluster_of_broken _ broken] at replied
          cases replied.1
          exact not_oneValue_of_broken
            ((broken_quoted (plain_of_chars rfl (by decide)) (by decide) sub).mpr broken)
      · refine iff_of_true (oneValue_of_framed ?_ inMemory) smuggles
        refine (NodeCommand.framed command client args shared.node ?_).framed_reply replied.1
        rintro rfl sub rest rfl broken
        exact smuggles (.inr ⟨found, sub, rest, rfl, broken⟩)

theorem dispatchCommand_oneValue_iff_of_get :
    let outcome := dispatchCommand .plain .none 1 (ascii "GET") [ascii "k"] (.plain 1) .new
    outcome.1 = .ok (.bulkString none) ∧
      (OneValue CommandContext.plain.floats
        (serialize CommandContext.plain.floats (.bulkString none)) ↔
        ¬ Smuggles (ascii "GET") [ascii "k"]) := by
  intro outcome
  have replied : outcome.1 = .ok (.bulkString none) := by decide +kernel
  have known : Registered.lookup (ascii "GET") = some (.data .get) := by decide +kernel
  have unscripted (command : ScriptCommand) :
      Registered.lookup (ascii "GET") ≠ some (.script command) := by
    rw [known]
    exact nofun
  exact ⟨replied, dispatchCommand_oneValue_iff unscripted (Prod.ext replied rfl) trivial⟩

/-- A line break in the name of a command: the client reads an error, and `B'` is
left in front of the next reply. -/
theorem unknown_command_injects :
    let cmd : Bytes := [0x41, 0x0D, 0x0A, 0x42]
    let bytes := serialize CommandContext.plain.floats (unknownCommand cmd)
    (dispatchCommand .plain .none 1 cmd [] (.plain 1) .new).1 = .ok (unknownCommand cmd) ∧
      bytes = ascii "-ERR unknown command 'A" ++ [0x0D, 0x0A] ++ ascii "B'" ++ [0x0D, 0x0A] ∧
      parseOne CommandContext.plain.floats bytes = .done (.error "ERR unknown command 'A") 25 := by
  decide +kernel

end Framing

end Kvdb
