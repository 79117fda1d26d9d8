import Kvdb.Command.Registry
import Kvdb.Lua.Values

/-!
# Commands inside scripts

A script runs commands with `redis.call` and `redis.pcall`. Both hand the command to the
command table, which has turned an error into a reply before the script sees it. The script
gets such a reply as a string, and goes on. What does raise an error is a call without a
command, or a reply that is no Lua value. The latter is raised by the interpreter itself, and
passes by the code of the calls, so `redis.pcall` does not catch it.
-/

namespace Kvdb.Lua

open Data

section Calls

/-- What the interpreter of Lua writes about its values. -/
structure Texts where
  /-- A value in the debug format. -/
  debug : Value → String
  /-- An error that no script has caught. -/
  display : String → String

/-- An error of a call: one of the server, or one of the interpreter. -/
inductive CallError where
  | error (cause : KvdbError)
  | lua (message : String)

def CallError.message : CallError → String
  | .error cause => cause.message
  | .lua message => "lua error: " ++ message

variable (texts : Texts) (handle : Except String CommandContext) (engine : ScriptEngine)
  (client : ℕ) (env : Env)

/-- An argument of a command. -/
def argBytes (floats : F64Ops) : Value → Bytes
  | .string s => utf8 (fromUtf8Lossy s)
  | .integer n => renderI64 n
  | .number x => floats.format x
  | _ => []

def commandOf : List Value → Except CallError Bytes
  | .string s :: _ => .ok (utf8 (fromUtf8Lossy s))
  | value :: _ =>
    .error (.error (.command
      ("Lua redis() command argument must be a string, got " ++ texts.debug value)))
  | [] => .error (.error (.wrongArgCount "redis"))

/-- Run the command of a call. The context is in the global `_KVDB_CTX`, unless a script has
replaced it. The inner result is that of the interpreter, which may raise an error. -/
def execRedisCommand (params : List Value) (shared : Shared) :
    Except Fault (Except CallError (Except String Value)) × Shared :=
  match commandOf texts params with
  | .error e => (.ok (.error e), shared)
  | .ok cmd =>
    match handle with
    | .error message => (.ok (.error (.lua message)), shared)
    | .ok ctx =>
      let args := params.tail.map (argBytes ctx.floats)
      match dispatchCommand ctx engine client cmd args env shared with
      | (.error fault, shared) => (.error fault, shared)
      | (.ok reply, shared) => (.ok (.ok (luaValueFromResp reply)), shared)

/-- `redis.call`, which raises the text of an error. -/
def redisCall (params : List Value) (shared : Shared) :
    Except Fault (Except String Value) × Shared :=
  let (outcome, shared) := execRedisCommand texts handle engine client env params shared
  (outcome.map fun
    | .ok result => result
    | .error e => .error e.message, shared)

def errTable (message : String) : Value := .table [(.string (utf8 "err"), .string (utf8 message))]

/-- `redis.pcall`, which returns a table for an error. -/
def redisPcall (params : List Value) (shared : Shared) :
    Except Fault (Except String Value) × Shared :=
  let (outcome, shared) := execRedisCommand texts handle engine client env params shared
  (outcome.map fun
    | .ok result => result
    | .error e => .ok (errTable e.message), shared)

end Calls

section Scripts

/-- What a script does next: return, raise an error, run a command, run a part of it under
the `pcall` of Lua, or go on for ever. -/
inductive Script where
  | done (value : Value)
  | raise (message : String)
  | call (params : List Value) (next : Value → Script)
  | pcall (params : List Value) (next : Value → Script)
  | protect (body : Script) (next : Except String Value → Script)
  | diverge

variable (texts : Texts) (handle : Except String CommandContext) (engine : ScriptEngine)
  (client : ℕ) (envs : ℕ → Env)

/-- Run a script, to a value or an error. Each of its commands reads the clock and draws a
version itself, so they are numbered, and the next number is part of the result. -/
def Script.run : Script → ℕ → Shared → Except Fault (Except String Value) × ℕ × Shared
  | .done value, n, shared => (.ok (.ok value), n, shared)
  | .raise message, n, shared => (.ok (.error message), n, shared)
  | .call params next, n, shared =>
    match redisCall texts handle engine client (envs n) params shared with
    | (.ok (.ok value), shared) => (next value).run (n + 1) shared
    | (stopped, shared) => (stopped, n + 1, shared)
  | .pcall params next, n, shared =>
    match redisPcall texts handle engine client (envs n) params shared with
    | (.ok (.ok value), shared) => (next value).run (n + 1) shared
    | (stopped, shared) => (stopped, n + 1, shared)
  | .protect body next, n, shared =>
    match body.run n shared with
    | (.ok outcome, n, shared) => (next outcome).run n shared
    | (.error fault, n, shared) => (.error fault, n, shared)
  | .diverge, n, shared => (.error .hang, n, shared)

/-- The reply for the outcome of a script. An error is one of the interpreter. -/
def replyFor (order : Order) : Except Fault (Except String Value) → Except Fault RespValue
  | .error fault => .error fault
  | .ok (.ok value) => respValueFromLua order value
  | .ok (.error message) =>
    .error (.error (.command (CallError.lua (texts.display message)).message))

end Scripts

section Outcomes

/-- A call of a script: its parameters, and where it is made. The commands of the script,
this one first, each have an environment. -/
structure Call where
  texts : Texts
  ctx : CommandContext
  engine : ScriptEngine
  client : ℕ
  envs : ℕ → Env
  shared : Shared
  params : List Value

namespace Call

variable (call : Call)

/-- The command table replies to the command of the call. -/
def Replies (reply : RespValue) (after : Shared) : Prop :=
  ∃ cmd, commandOf call.texts call.params = .ok cmd ∧
    dispatchCommand call.ctx call.engine call.client cmd
      (call.params.tail.map (argBytes call.ctx.floats)) (call.envs 0) call.shared =
        (.ok reply, after)

/-- A call with texts as its parameters runs the command with these texts. -/
theorem replies_iff {texts : Texts} {ctx : CommandContext} {engine : ScriptEngine} {client : ℕ}
    {envs : ℕ → Env} {shared after : Shared} {reply : RespValue} (cmd : String)
    (args : List String) :
    (⟨texts, ctx, engine, client, envs, shared,
      .string (utf8 cmd) :: args.map (.string ∘ utf8)⟩ : Call).Replies reply after ↔
    dispatchCommand ctx engine client (utf8 cmd) (args.map utf8) (envs 0) shared =
      (.ok reply, after) := by
  simp only [Replies, commandOf, fromUtf8Lossy_utf8, List.tail_cons, List.map_map, Except.ok.injEq,
    exists_eq_left']
  have same : argBytes ctx.floats ∘ .string ∘ utf8 = utf8 := by
    funext text
    simp only [Function.comp_apply, argBytes, fromUtf8Lossy_utf8]
  rw [same]

def called : Except Fault (Except String Value) × Shared :=
  redisCall call.texts (.ok call.ctx) call.engine call.client (call.envs 0) call.params call.shared

/-- The outcome of the call with `redis.pcall`. -/
def pcalled : Except Fault (Except String Value) × Shared :=
  redisPcall call.texts (.ok call.ctx) call.engine call.client (call.envs 0) call.params call.shared

/-- The reply of `EVAL` to a script that begins with the call, with `redis.call`. -/
def evaluated (order : Order) (next : Value → Script) : Except Fault RespValue :=
  replyFor call.texts order ((Script.call call.params next).run call.texts (.ok call.ctx)
    call.engine call.client call.envs 0 call.shared).1

variable {call} {reply : RespValue} {after : Shared}

theorem called_eq (replies : call.Replies reply after) :
    call.called = (.ok (luaValueFromResp reply), after) := by
  obtain ⟨cmd, command, dispatched⟩ := replies
  simp only [called, redisCall, execRedisCommand, command, dispatched]
  rfl

/-- Both kinds of calls return the same value of a reply, or raise the same error. -/
theorem pcalled_eq (replies : call.Replies reply after) :
    call.pcalled = (.ok (luaValueFromResp reply), after) := by
  obtain ⟨cmd, command, dispatched⟩ := replies
  simp only [pcalled, redisPcall, execRedisCommand, command, dispatched]
  rfl

/-- A script goes on with a reply that is a Lua value. -/
theorem evaluated_eq (replies : call.Replies reply after) {value : Value}
    (converted : luaValueFromResp reply = .ok value) (order : Order) (next : Value → Script) :
    call.evaluated order next = replyFor call.texts order
      ((next value).run call.texts (.ok call.ctx) call.engine call.client call.envs 1 after).1 := by
  have returned := called_eq replies
  rw [converted, called] at returned
  simp only [evaluated, Script.run, returned]

end Call

end Outcomes

section Conversions

/-- The text of a reply that becomes a Lua string. -/
def textOf : RespValue → Option Bytes
  | .simpleString s | .error s => some (utf8 s)
  | .bulkString b => b
  | _ => none

/-- The reply becomes a key of a table: it is neither null nor NaN. -/
def IsKey : RespValue → Prop
  | .null | .bulkString none => False
  | .double x => x.isNan = false
  | _ => True

/-- The keys of a map become keys of a table. -/
def Keyed : RespValue → Prop
  | .map pairs => ∀ pair ∈ pairs, IsKey pair.1
  | _ => True

/-- The text under the last key `err` of a map. -/
def errText : RespValue → Option Bytes
  | .map pairs =>
    (pairs.reverse.find? fun pair => textOf pair.1 = some (utf8 "err")).bind (textOf ·.2)
  | _ => none

/-- The text of a Lua string. -/
def Value.text? : Value → Option Bytes
  | .string b => some b
  | _ => none

def errField : Value → Option Value
  | .table entries => (entries.find? fun entry => entry.1.same (.string (utf8 "err"))).map (·.2)
  | _ => none

variable {reply : RespValue} {value key : Value} {table table' : List (Value × Value)}

theorem exists_of_map_eq_ok {α β : Type} {result : Except String α} {f : α → β} {b : β}
    (mapped : result.map f = .ok b) : ∃ a, result = .ok a ∧ f a = b := by
  cases result with
  | error => cases mapped
  | ok a => exact ⟨a, rfl, Except.ok.inj mapped⟩

section Keys

theorem set_eq_ok_iff (converted : luaValueFromResp reply = .ok key) (value : Value) :
    (∃ table', set table key value = .ok table') ↔ IsKey reply := by
  rcases reply with _ | _ | _ | (_ | _) | items | _ | _ | x | pairs | items
  case array | map | set =>
    rw [luaValueFromResp] at converted
    obtain ⟨entries, -, rfl⟩ := exists_of_map_eq_ok converted
    simp [set, IsKey]
  case double =>
    cases converted
    cases nan : x.isNan <;> simp [set, IsKey, nan]
  all_goals
    cases converted
    simp [set, IsKey]

mutual

/-- A reply becomes a Lua value if and only if the keys of all maps in it become keys. -/
theorem converts_iff : (reply : RespValue) →
    ((∃ value, luaValueFromResp reply = .ok value) ↔ reply.All Keyed)
  | .array items | .set items => by
    have rest := setItems_iff items 0 []
    simp only [luaValueFromResp, RespValue.All, Keyed, true_and, ← rest]
    cases setItems items 0 [] <;> simp [Except.map]
  | .map pairs => by
    have rest := setPairs_iff pairs []
    simp only [luaValueFromResp, RespValue.All, Keyed, ← rest]
    cases setPairs pairs [] <;> simp [Except.map]
  | .simpleString _ | .error _ | .integer _ | .null | .boolean _ | .double _ =>
    iff_of_true ⟨_, by rw [luaValueFromResp]⟩ trivial
  | .bulkString none | .bulkString (some _) => iff_of_true ⟨_, by rw [luaValueFromResp]⟩ trivial

theorem setItems_iff : (items : List RespValue) → (i : ℕ) → (table : List (Value × Value)) →
    ((∃ table', setItems items i table = .ok table') ↔ RespValue.AllItems Keyed items)
  | [], _, table => iff_of_true ⟨table, rfl⟩ trivial
  | item :: items, i, table => by
    rw [RespValue.AllItems, ← converts_iff item]
    cases converted : luaValueFromResp item with
    | error => simp [setItems, converted, bind, Except.bind]
    | ok value =>
      have rest := setItems_iff items (i + 1) (assign table (keyAt i) value)
      simp only [setItems, converted]
      exact rest.trans (and_iff_right ⟨value, rfl⟩).symm

theorem setPairs_iff : (pairs : List (RespValue × RespValue)) → (table : List (Value × Value)) →
    ((∃ table', setPairs pairs table = .ok table') ↔
      (∀ pair ∈ pairs, IsKey pair.1) ∧ RespValue.AllPairs Keyed pairs)
  | [], table => iff_of_true ⟨table, rfl⟩ ⟨by simp, trivial⟩
  | (k, v) :: pairs, table => by
    rw [RespValue.AllPairs, ← converts_iff k, ← converts_iff v, List.forall_mem_cons]
    cases key : luaValueFromResp k with
    | error => simp [setPairs, key, bind, Except.bind]
    | ok key' =>
      cases value : luaValueFromResp v with
      | error => simp [setPairs, key, value, bind, Except.bind]
      | ok value' =>
        rw [← @set_eq_ok_iff k key' table key value']
        simp only [setPairs, key, value, bind, Except.bind]
        cases stored : set table key' value' with
        | error => simp
        | ok table' => simpa using setPairs_iff pairs table'

end

end Keys

section Fields

theorem text?_of_converted (converted : luaValueFromResp reply = .ok value) :
    value.text? = textOf reply := by
  rcases reply with _ | _ | _ | (_ | _) | items | _ | _ | x | pairs | items
  case array | map | set =>
    rw [luaValueFromResp] at converted
    obtain ⟨entries, -, rfl⟩ := exists_of_map_eq_ok converted
    rfl
  all_goals
    cases converted
    rfl

theorem same_string_iff {b : Bytes} : key.same (.string b) = true ↔ key.text? = some b := by
  cases key <;> simp [Value.same, Value.text?]

/-- Assigning to `err` replaces the field, assigning to another key leaves it. -/
theorem errField_assign : (errField (.table (assign table key value))).bind Value.text? =
    if key.text? = some (utf8 "err") then value.text?
    else (errField (.table table)).bind Value.text? := by
  by_cases err : key.text? = some (utf8 "err")
  · obtain rfl : key = .string (utf8 "err") := by cases key <;> simp_all [Value.text?]
    have others : (table.filter fun entry => !entry.1.same (.string (utf8 "err"))).find?
        (fun entry => entry.1.same (.string (utf8 "err"))) = none := by simp
    rw [if_pos err]
    cases value <;> simp only [assign, errField, List.find?_append, others] <;>
      simp [Value.same, Value.text?]
  · have apart : ∀ entry : Value × Value, entry.1.same (.string (utf8 "err")) = true →
        (!entry.1.same key) = true := by
      intro entry same
      have text := same_string_iff.mp same
      cases first : entry.1 <;> cases key <;> simp_all [Value.same, Value.text?, eq_comm]
    have others : (table.filter fun entry => !entry.1.same key).find?
        (fun entry => entry.1.same (.string (utf8 "err"))) =
          table.find? fun entry => entry.1.same (.string (utf8 "err")) := by
      rw [List.find?_filter]
      congr 1
      funext entry
      cases same : entry.1.same (.string (utf8 "err")) with
      | false => simp
      | true => simp [apart entry same]
    have different : key.same (.string (utf8 "err")) = false := by
      simpa using fun same => err (same_string_iff.mp same)
    rw [if_neg err]
    cases value <;> simp only [assign, errField, List.find?_append, others] <;> simp [different]

theorem set_eq_ok (stored : set table key value = .ok table') :
    ∃ key', key'.text? = key.text? ∧ table' = assign table key' value := by
  cases key with
  | nil => cases stored
  | number x =>
    rw [set] at stored
    split_ifs at stored
    refine ⟨(Value.number x).normal, ?_, (Except.ok.inj stored).symm⟩
    rw [Value.normal]
    cases toInteger? x <;> rfl
  | _ => exact ⟨_, rfl, (Except.ok.inj stored).symm⟩

theorem errField_setItems {items : List RespValue} {i : ℕ}
    (stored : setItems items i table = .ok table') :
    (errField (.table table')).bind Value.text? = (errField (.table table)).bind Value.text? := by
  induction items generalizing i table with
  | nil => cases stored; rfl
  | cons item items ih =>
    cases converted : luaValueFromResp item with
    | error => simp [setItems, converted, bind, Except.bind] at stored
    | ok value =>
      simp only [setItems, converted] at stored
      exact (ih stored).trans (errField_assign.trans (if_neg nofun))

theorem errField_setPairs {pairs : List (RespValue × RespValue)}
    (stored : setPairs pairs table = .ok table') :
    (errField (.table table')).bind Value.text? =
      (pairs.reverse.find? fun pair => textOf pair.1 = some (utf8 "err")).elim
        ((errField (.table table)).bind Value.text?) (textOf ·.2) := by
  induction pairs generalizing table with
  | nil => cases stored; rfl
  | cons pair pairs ih =>
    obtain ⟨k, v⟩ := pair
    cases key : luaValueFromResp k with
    | error => simp [setPairs, key, bind, Except.bind] at stored
    | ok key' =>
      cases value : luaValueFromResp v with
      | error => simp [setPairs, key, value, bind, Except.bind] at stored
      | ok value' =>
        simp only [setPairs, key, value, bind, Except.bind] at stored
        cases assigned : set table key' value' with
        | error => simp [assigned] at stored
        | ok middle =>
          rw [assigned] at stored
          obtain ⟨key'', same, rfl⟩ := set_eq_ok assigned
          rw [ih stored, errField_assign, same, text?_of_converted key, text?_of_converted value,
            List.reverse_cons, List.find?_append]
          cases pairs.reverse.find? fun pair => textOf pair.1 = some (utf8 "err") with
          | some last => rfl
          | none => by_cases err : textOf k = some (utf8 "err") <;> simp [err]

/-- The field `err` of the value has the text of the last key `err` of the reply. -/
theorem errField_of_converted (converted : luaValueFromResp reply = .ok value) :
    (errField value).bind Value.text? = errText reply := by
  rcases reply with _ | _ | _ | (_ | _) | items | _ | _ | x | pairs | items
  case map =>
    rw [luaValueFromResp] at converted
    obtain ⟨entries, stored, rfl⟩ := exists_of_map_eq_ok converted
    rw [errField_setPairs stored, errText]
    cases pairs.reverse.find? fun pair => textOf pair.1 = some (utf8 "err") <;> rfl
  case array | set =>
    rw [luaValueFromResp] at converted
    obtain ⟨entries, stored, rfl⟩ := exists_of_map_eq_ok converted
    exact errField_setItems stored
  all_goals
    cases converted
    rfl

end Fields

end Conversions

section Failures

namespace Call

variable (call : Call)

/-- The call raises an error that carries a text. -/
def Raises (e : String) : Prop :=
  ∃ message after, call.called = (.ok (.error message), after) ∧ e.toList <:+: message.toList

/-- A script stops at the call, and `EVAL` fails. -/
def Stops : Prop := ∀ order next, ∃ cause, call.evaluated order next = .error (.error cause)

/-- The protected call returns a table with a text in its field `err`. -/
def ReturnsErr (e : String) : Prop :=
  ∃ value after, call.pcalled = (.ok (.ok value), after) ∧
    errField value = some (.string (utf8 e))

/-- The call fails with the error of its command, and does not fail without one. -/
def FailsInside : Prop :=
  ∀ reply after, call.Replies reply after →
    (∀ e, reply = .error e → call.Raises e ∧ call.Stops ∧ call.ReturnsErr e) ∧
    ((∀ e, reply ≠ .error e) → ∀ e, ¬ call.Raises e ∧ ¬ call.ReturnsErr e)

end Call

/-- The reply is no error, the keys of its maps can be keys of a table, and it is no map with a
text under the key `err`. -/
def Passes (reply : RespValue) : Prop :=
  (∀ e, reply ≠ .error e) ∧ reply.All Keyed ∧ ∀ e, errText reply ≠ some (utf8 e)

variable {call : Call} {reply : RespValue} {after : Shared}

/-- A protected call returns a table with `err` exactly if the reply has a text there. -/
theorem Call.returnsErr_iff (replies : call.Replies reply after) (keyed : reply.All Keyed)
    (e : String) : call.ReturnsErr e ↔ errText reply = some (utf8 e) := by
  obtain ⟨value, converted⟩ := (converts_iff reply).mpr keyed
  have text := errField_of_converted converted
  have returned := pcalled_eq replies
  rw [converted] at returned
  constructor
  · rintro ⟨value', after', returned', field⟩
    cases returned.symm.trans returned'
    rw [← text, field]
    rfl
  · intro here
    rw [← text] at here
    obtain ⟨field, found, string⟩ := Option.bind_eq_some_iff.mp here
    refine ⟨value, after, returned, found.trans ?_⟩
    cases field <;> cases string
    rfl

theorem passes_of_failsInside (replies : call.Replies reply after) (fails : call.FailsInside) :
    Passes reply := by
  have returned := Call.called_eq replies
  obtain ⟨failing, passing⟩ := fails reply after replies
  have noError : ∀ e, reply ≠ .error e := by
    rintro e rfl
    -- The error has become a string, which is returned.
    obtain ⟨message, after', raised, _⟩ := (failing e rfl).1
    cases returned.symm.trans raised
  have keyed : reply.All Keyed := by
    refine (converts_iff reply).mp ?_
    cases converted : luaValueFromResp reply with
    | ok value => exact ⟨value, rfl⟩
    | error message =>
      rw [converted] at returned
      have raised : call.Raises "" := ⟨_, _, returned, List.nil_infix⟩
      exact absurd raised (passing noError "").1
  exact ⟨noError, keyed,
    fun e field => (passing noError e).2 ((Call.returnsErr_iff replies keyed e).mpr field)⟩

theorem failsInside_of_passes (passes : ∀ reply after, call.Replies reply after → Passes reply) :
    call.FailsInside := by
  intro reply after replies
  obtain ⟨noError, keyed, noField⟩ := passes reply after replies
  refine ⟨fun e error => absurd error (noError e), fun _ e => ⟨?_, ?_⟩⟩
  · rintro ⟨message, after', raised, _⟩
    obtain ⟨value, converted⟩ := (converts_iff reply).mpr keyed
    have returned := Call.called_eq replies
    rw [converted] at returned
    cases returned.symm.trans raised
  · exact fun returns => noField e ((Call.returnsErr_iff replies keyed e).mp returns)

/-- A command fails inside a script as it does outside if and only if it does not fail, and
its reply is one that becomes a value, which does not look like a failure. -/
theorem fails_inside_iff (call : Call) :
    call.FailsInside ↔ ∀ reply after, call.Replies reply after → Passes reply :=
  ⟨fun fails _ _ replies => passes_of_failsInside replies fails, failsInside_of_passes⟩

/-- An error is a string for a script, which goes on with it. -/
theorem errors_returned :
    let call : Call := ⟨⟨fun _ => "", id⟩, .plain, .none, 0, fun _ => .plain 0, .new,
      [.string (utf8 "NOSUCH")]⟩
    call.Replies (.error "ERR unknown command 'NOSUCH'") .new ∧
    call.called = (.ok (.ok (.string (utf8 "ERR unknown command 'NOSUCH'"))), .new) ∧
    call.pcalled = (.ok (.ok (.string (utf8 "ERR unknown command 'NOSUCH'"))), .new) ∧
    call.evaluated Order.assigned (fun _ => .done (.integer 1)) = .ok (.integer 1) := by
  intro call
  have replies : call.Replies (.error "ERR unknown command 'NOSUCH'") .new := by
    refine (Call.replies_iff "NOSUCH" []).mpr ?_
    have missing : Registered.lookup (utf8 "NOSUCH") = none := by decide +kernel
    have text : unknownCommand (utf8 "NOSUCH") = .error "ERR unknown command 'NOSUCH'" := by
      decide +kernel
    simp only [dispatchCommand, missing, text]
  have converted : luaValueFromResp (.error "ERR unknown command 'NOSUCH'") =
      .ok (.string (utf8 "ERR unknown command 'NOSUCH'")) := rfl
  refine ⟨replies, Call.called_eq replies, Call.pcalled_eq replies, ?_⟩
  rw [Call.evaluated_eq replies converted]
  rfl

end Failures

end Kvdb.Lua
