import Kvdb.Deletion
import Kvdb.Command.Registry
import Kvdb.Expiry.Deadlines

/-!
# Strings as registers

A string key is a register: it holds a text with a deadline, or nothing. The commands on
strings read and replace its contents, and requests on other keys leave it alone, whatever
they are. The replies of a whole run are those of the register.
-/

namespace Kvdb

open Data Semantics Cmd

section Registers

/-- What a register holds: a text with its deadline, which is zero for none. -/
abbrev Register := Option (Bytes × Int64)

/-- The text, until its deadline. -/
def Register.shown (register : Register) (now : Int64) : Option Bytes :=
  (register.filter fun held => !expiredAt held.2 now).map Prod.fst

inductive TextCommand where
  | get
  | set (value : Bytes) (options : List Bytes)
  | append (suffix : Bytes)
  | incr
  | decr
  | del

namespace TextCommand

def request (key : Bytes) (env : Env) : TextCommand → Request
  | get => ⟨.get, [key], env⟩
  | set value options => ⟨.set, key :: value :: options, env⟩
  | append suffix => ⟨.append, [key, suffix], env⟩
  | incr => ⟨.incr, [key], env⟩
  | decr => ⟨.decr, [key], env⟩
  | del => ⟨.del, [key], env⟩

/-- The text as a number, an empty register as zero, makes place for the next one. -/
def step (shown : Option Bytes) (next : Int64 → Option Int64) :
    Except Fault (Register × RespValue) :=
  match shown.elim (some 0) parseI64? with
  | none => .error (.error .notInteger)
  | some n =>
    match next n with
    | none => .error (.error .outOfRange)
    | some new => .ok (some (renderI64 new, 0), .integer new)

/-- The new contents of the register and the reply, or an error. -/
def apply (env : Env) (register : Register) : TextCommand → Except Fault (Register × RespValue)
  | get => .ok (register, .bulkString (register.shown env.nowMs))
  | set value options =>
    match SetOption.readAll options with
    | .error fault => .error fault
    | .ok options =>
      let shown := (register.shown env.nowMs).isSome
      let asked := options.foldl (SetOption.note env.nowMs) ⟨0, false, false⟩
      if asked.nx ∧ asked.xx then .error (.error (.command "syntax error"))
      else if asked.nx ∧ shown ∨ asked.xx ∧ ¬ shown then .ok (register, .bulkString none)
      else .ok (some (value, asked.expireMs), .simpleString "OK")
  | append suffix =>
    let value := (register.shown env.nowMs).getD [] ++ suffix
    .ok (some (value, 0), .integer (Int64.ofNat value.length))
  | incr =>
    step (register.shown env.nowMs) fun n => if n = Int64.maxValue then none else some (n + 1)
  | decr =>
    step (register.shown env.nowMs) fun n => if n = Int64.minValue then none else some (n - 1)
  | del => .ok (none, .integer (if register.isSome then 1 else 0))

/-- An error leaves the register as it is. -/
def next (env : Env) (register : Register) (command : TextCommand) : Register :=
  ((command.apply env register).map Prod.fst).toOption.getD register

end TextCommand

end Registers

section Refinement

variable {ctx : CommandContext} {key : Bytes} {env : Env} {store : Store} {register : Register}

/-- The store holds the register under a key, with no legacy entry behind it. -/
structure HoldsText (ctx : CommandContext) (key : Bytes) (register : Register) (store : Store) :
    Prop where
  stored : store.get .metadata (ctx.metaKey key) =
    register.map fun held => encodeString stringFlags held.2 held.1
  unshadowed : ctx.Unshadowed store key

theorem HoldsText.lookup (holds : HoldsText ctx key register store) : ctx.lookupMeta store key =
    register.map fun held => encodeString stringFlags held.2 held.1 := by
  rw [CommandContext.lookupMeta, holds.stored]
  split_ifs with unnamed
  · exact Option.or_none
  · rw [holds.unshadowed unnamed, Option.or_none]

theorem HoldsText.readString (holds : HoldsText ctx key register store) :
    exec env (readString ctx key) store = (.ok (register.shown env.nowMs), store) := by
  rw [judges_readString, holds.lookup]
  rcases register with _ | ⟨text, deadline⟩
  · rfl
  · have flags : stringFlags &&& 0x0F = DataType.string.code := by decide
    cases late : expiredAt deadline env.nowMs <;>
      simp [judgeString, decodeString_encodeString, flags, Register.shown, late]

theorem HoldsText.keyExists (holds : HoldsText ctx key register store) :
    exec env (keyExists ctx key) store = (.ok (register.shown env.nowMs).isSome, store) := by
  rw [Cmd.keyExists, ctx.exec_getMeta_bind, holds.lookup]
  rcases register with _ | ⟨text, deadline⟩
  · rfl
  · simp only [Option.map_some, exec_nowMs_bind,
      isExpiredValue_eq (recordType_encodeString deadline text), deadlineOf_encodeString]
    cases late : expiredAt deadline env.nowMs <;> simp [Register.shown, late]

theorem HoldsText.put (holds : HoldsText ctx key register store) (text : Bytes) (deadline : Int64) :
    HoldsText ctx key (some (text, deadline)) (store.apply
      (.put .metadata (ctx.metaKey key) (encodeString stringFlags deadline text))) where
  stored := by simp [Store.get_apply_put]
  unshadowed named := by
    rw [Store.get_apply_put, if_neg fun same => ctx.metaKey_ne_legacy named key same.2]
    exact holds.unshadowed named

/-- The program returns what the register does, and leaves its new contents in the store. -/
def Follows (ctx : CommandContext) (key : Bytes) (env : Env) (register : Register) (store : Store)
    (program : Prog RespValue) (outcome : Except Fault (Register × RespValue)) : Prop :=
  ∃ after, exec env program store = (outcome.map Prod.snd, after) ∧
    HoldsText ctx key ((outcome.map Prod.fst).toOption.getD register) after

theorem HoldsText.stepInteger (holds : HoldsText ctx key register store) (name : String)
    (next : Int64 → Option Int64) :
    Follows ctx key env register store (stepInteger ctx name next [key])
      (TextCommand.step (register.shown env.nowMs) next) := by
  have read : exec env (readInteger ctx key) store =
      (((register.shown env.nowMs).elim (some 0) parseI64?).elim (.error (.error .notInteger)) .ok,
        store) := by
    rw [readInteger, exec_bind_ok holds.readString]
    cases register.shown env.nowMs with
    | none => rfl
    | some text =>
      dsimp only [Option.elim]
      rw [parseI64]
      cases parseI64? text <;> rfl
  rw [Follows, Cmd.stepInteger, ctx.exec_withKeyLock, TextCommand.step]
  cases number : (register.shown env.nowMs).elim (some 0) parseI64? with
  | none =>
    rw [number] at read
    exact ⟨store, exec_bind_error read, holds⟩
  | some n =>
    rw [number] at read
    rw [exec_bind_ok read]
    dsimp only
    cases next n with
    | none => exact ⟨store, rfl, holds⟩
    | some new => exact ⟨_, rfl, holds.put (renderI64 new) 0⟩

/-- Every command does to the store what it does to the register. -/
theorem HoldsText.follows (holds : HoldsText ctx key register store) (env : Env)
    (command : TextCommand) :
    Follows ctx key (command.request key env).env register store
      ((command.request key env).command.run ctx
      (command.request key env).args) (command.apply env register) := by
  cases command with
  | get =>
    refine ⟨store, ?_, holds⟩
    exact exec_bind_ok holds.readString
  | set value options =>
    have read := @exec_setOptions env store options ⟨0, false, false⟩
    change Follows ctx key env register store (Cmd.set ctx (key :: value :: options)) _
    rw [Follows, Cmd.set, TextCommand.apply]
    cases known : SetOption.readAll options with
    | error fault =>
      rw [known] at read
      exact ⟨store, exec_bind_error read, holds⟩
    | ok options =>
      rw [known] at read
      rw [exec_bind_ok read]
      dsimp only
      generalize options.foldl (SetOption.note env.nowMs) ⟨0, false, false⟩ = asked
      by_cases both : asked.nx ∧ asked.xx
      · rw [if_pos both, if_pos both]
        exact ⟨store, rfl, holds⟩
      · rw [if_neg both, if_neg both, exec_bind_ok holds.keyExists]
        split_ifs with refused declined missing missing <;> first
          | exact ⟨store, rfl, holds⟩
          | exact ⟨_, rfl, holds.put value asked.expireMs⟩
          | tauto
  | append suffix =>
    refine ⟨_, ?_, holds.put ((register.shown env.nowMs).getD [] ++ suffix) 0⟩
    exact (ctx.exec_withKeyLock key _).trans (exec_bind_ok holds.readString)
  | incr => exact holds.stepInteger "INCR" _
  | decr => exact holds.stepInteger "DECR" _
  | del =>
    -- `DEL` counts an expired text too.
    refine ⟨store.deleted ctx key, ?_, Store.get_metaKey_deleted, holds.unshadowed.deleted key⟩
    refine (exec_del (List.cons_ne_nil key [])).trans ?_
    rw [deletedCount, deletedCount, holds.lookup]
    cases register <;> rfl

/-- What happens to the store: a command on the register, or a request on other keys. -/
inductive RegisterEvent where
  | own (command : TextCommand) (env : Env)
  | other (request : Request)

namespace RegisterEvent

def after (ctx : CommandContext) (key : Bytes) (store : Store) : RegisterEvent → Store
  | own command env => (command.request key env).after ctx store
  | other request => request.after ctx store

def Permitted (key : Bytes) (_ : Store) : RegisterEvent → Prop
  | own _ _ => True
  | other request => request.Elsewhere [key]

/-- The register knows its own commands only. -/
def next (register : Register) : RegisterEvent → Register
  | own command env => command.next env register
  | other _ => register

end RegisterEvent

/-- Requests on other keys leave both places of the key alone. -/
theorem HoldsText.elsewhere {request : Request} (holds : HoldsText ctx key register store)
    (elsewhere : request.Elsewhere [key]) (separate : ctx.Separate key) :
    HoldsText ctx key register (request.after ctx store) := by
  have kept : ∀ place ∈ ctx.places key, (request.after ctx store).get .metadata place =
      store.get .metadata place := by
    intro place here
    by_contra changed
    obtain ⟨other, written, ⟨-, rfl⟩ | ⟨element, -⟩⟩ :=
      Request.mem_of_changed elsewhere.kept changed
    · refine separate other (elsewhere.short other written) ?_ here
      rintro rfl
      exact elsewhere.apart _ written (List.mem_singleton_self _)
    · exact element rfl
  refine ⟨(kept _ ?_).trans holds.stored, fun named => (kept _ ?_).trans (holds.unshadowed named)⟩
  · unfold CommandContext.places
    split_ifs <;> simp
  · simp [CommandContext.places, named]

/-- A string key replies like a register, over every run of its commands and of any requests on
other keys. -/
theorem string_refines_register {start : Store} {events : List RegisterEvent}
    (short : key.length < 2 ^ 24) (absent : ctx.lookupMeta start key = none)
    (run : Run (RegisterEvent.after ctx key) (RegisterEvent.Permitted key) start events store)
    (command : TextCommand) (env : Env) :
    (command.request key env).reply ctx store =
      replyOf ((command.apply env (events.foldl RegisterEvent.next none)).map Prod.snd) := by
  have holds : HoldsText ctx key (events.foldl RegisterEvent.next none) store := by
    refine run.invariant_of_steps (fun events store =>
      HoldsText ctx key (events.foldl RegisterEvent.next none) store) ?_ ?_
    · rw [CommandContext.lookupMeta, Option.or_eq_none_iff] at absent
      exact ⟨absent.1, fun named => by simpa [named] using absent.2⟩
    · intro events store event _ permitted holds
      rw [List.foldl_concat]
      cases event with
      | own command env =>
        obtain ⟨after, ran, next⟩ := holds.follows env command
        rwa [RegisterEvent.after, Request.after_eq_of_exec ctx ran]
      | other request => exact holds.elsewhere permitted (CommandContext.separate_of_short short)
  obtain ⟨after, ran, -⟩ := holds.follows env command
  rw [Request.reply, exec_dispatch, ran]
  rcases (command.apply env (events.foldl RegisterEvent.next none)).map Prod.snd
    with (_ | _ | _) | _ <;> rfl

/-- A counter that was set for nine milliseconds, and loses its deadline when it counts. -/
theorem string_refines_register_of_counter :
    let events : List RegisterEvent :=
      [.own (.set (ascii "41") [ascii "PX", ascii "9", ascii "nx"]) (.plain 1),
        .other ⟨.sadd, [ascii "s", ascii "m"], .plain 2⟩, .own .incr (.plain 3)]
    let store := events.foldl (RegisterEvent.after .plain (ascii "k")) .empty
    (TextCommand.get.request (ascii "k") (.plain 99)).reply .plain store =
        .ok (.bulkString (some (ascii "42"))) ∧
      ((TextCommand.set (ascii "v") [ascii "NX"]).request (ascii "k") (.plain 99)).reply .plain
        store = .ok (.bulkString none) := by
  intro events store
  have run : Run (RegisterEvent.after .plain (ascii "k")) (RegisterEvent.Permitted (ascii "k"))
      .empty events store :=
    .next (.next (.next .refl trivial) ⟨nofun, by decide, by decide⟩) trivial
  constructor
  · exact (string_refines_register (by decide) rfl run _ _).trans (by decide)
  · exact (string_refines_register (by decide) rfl run _ _).trans (by decide)

end Refinement

end Kvdb
