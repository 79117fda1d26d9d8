import Kvdb.Command.Table
import Kvdb.Protocol.RoundTrip

/-!
# What commands reply

A command reads, writes and replies in that order. Once it has written, it
reports no error any more. The texts of its errors are fixed, so none of them
breaks its line in the protocol, and the bytes that a client sent come back in
bulk strings only.
-/

namespace Kvdb

open Data Semantics

variable {α β : Type}

section Phases

/-- The text of the error stays on its line. -/
def Fault.OnLine : Fault → Prop
  | .error cause => ¬ crlf <:+: utf8 (formatError cause)
  | _ => True

/-- The text has no carriage return. -/
def Plain (text : String) : Prop := '\r' ∉ text.toList

/-- A literal is checked character by character. -/
theorem plain_of_chars {text : String} {chars : List Char} (same : text = String.ofList chars)
    (absent : '\r' ∉ chars) : Plain text := by
  rw [Plain, same, String.toList_ofList]
  exact absent

theorem Plain.append {text text' : String} (plain : Plain text) (plain' : Plain text') :
    Plain (text ++ text') := by
  rw [Plain, String.toList_append, List.mem_append, not_or]
  exact ⟨plain, plain'⟩

theorem Plain.unbroken {text : String} (plain : Plain text) : ¬ crlf <:+: utf8 text := by
  exact unbroken_of_not_mem (not_mem_utf8_of_ascii (by decide) plain)

theorem onLine_of_plain {cause : KvdbError} (plain : Plain cause.message) :
    (Fault.error cause).OnLine := by
  have code : Plain "ERR " := plain_of_chars rfl (by decide)
  refine Plain.unbroken ?_
  unfold formatError
  split_ifs
  · exact plain
  · exact code.append plain

theorem onLine_command {text : String} (plain : Plain text) :
    (Fault.error (.command text)).OnLine :=
  onLine_of_plain plain

theorem onLine_protocol {text : String} (plain : Plain text) :
    (Fault.error (.protocol text)).OnLine :=
  onLine_of_plain ((plain_of_chars rfl (by decide) : Plain "protocol error: ").append plain)

theorem onLine_wrongArgCount {name : String} (plain : Plain name) :
    (Fault.error (.wrongArgCount name)).OnLine :=
  onLine_of_plain
    (((plain_of_chars rfl (by decide) : Plain "wrong number of arguments for '").append
    plain).append (plain_of_chars rfl (by decide)))

theorem onLine_wrongTypeError : wrongTypeError.OnLine :=
  onLine_command (plain_of_chars rfl (by decide))

/-- All texts in the reply stay on their lines. -/
def RespValue.Framed (value : RespValue) : Prop := value.All RespValue.OnLine

@[simp] theorem RespValue.framed_integer (n : Int64) : (RespValue.integer n).Framed := trivial

@[simp] theorem RespValue.framed_bulkString (bytes : Option Bytes) :
    (RespValue.bulkString bytes).Framed := trivial

@[simp] theorem RespValue.framed_array (items : List RespValue) :
    (RespValue.array items).Framed ↔ ∀ item ∈ items, item.Framed := by
  rw [Framed, RespValue.All, RespValue.allItems_iff]
  exact and_iff_right trivial

/-- All texts in the replies stay on their lines. -/
def AllFramed (values : List RespValue) : Prop := ∀ value ∈ values, value.Framed

theorem allFramed_nil : AllFramed [] := List.forall_mem_nil _

theorem AllFramed.cons {values : List RespValue} {value : RespValue} (framed : AllFramed values)
    (first : value.Framed) : AllFramed (value :: values) :=
  List.forall_mem_cons.mpr ⟨first, framed⟩

theorem AllFramed.append {values others : List RespValue} (framed : AllFramed values)
    (framed' : AllFramed others) : AllFramed (values ++ others) :=
  List.forall_mem_append.mpr ⟨framed, framed'⟩

theorem AllFramed.snoc {values : List RespValue} {value : RespValue} (framed : AllFramed values)
    (last : value.Framed) : AllFramed (values ++ [value]) :=
  framed.append (allFramed_nil.cons last)

/-- An array is framed if its items are. -/
theorem AllFramed.array {values : List RespValue} (framed : AllFramed values) :
    (RespValue.array values).Framed :=
  (RespValue.framed_array values).mpr framed

def Effect.writes : Effect → Bool
  | .write _ => true
  | _ => false

/-- The program reports errors on one line, and none once it has written. -/
abbrev Tidy (accept : Bool → α → Prop) (wrote : Bool) (program : Prog α) : Prop :=
  program.Follows (fun wrote (op : Effect) => wrote || op.writes) accept
    (fun wrote fault => fault.OnLine ∧ (wrote = true → ∀ cause, fault ≠ .error cause)) wrote

/-- The program makes no write, returns what is accepted, and reports errors on
one line. -/
def Answers (accept : α → Prop) (program : Prog α) : Prop :=
  program.Follows (fun wrote (op : Effect) => wrote || op.writes)
    (fun wrote value => wrote = false ∧ accept value)
      (fun wrote fault => wrote = false ∧ fault.OnLine)
    false

/-- The program makes no write and reports errors on one line. -/
abbrev Quiet (program : Prog α) : Prop := Answers (fun _ => True) program

variable {accept : α → Prop} {accepts : β → Prop} {program : Prog α} {rest : α → Prog β}

theorem answers_pure {value : α} (accepted : accept value) :
    Answers accept (pure value : Prog α) := ⟨rfl, accepted⟩

theorem answers_fail {fault : Fault} (line : fault.OnLine) :
    Answers accept (.fail fault : Prog α) := ⟨rfl, line⟩

theorem answers_ofExcept {result : Except Fault α}
    (accepted : ∀ value, result = .ok value → accept value)
    (lines : ∀ fault, result = .error fault → fault.OnLine) :
    Answers accept (.ofExcept result : Prog α) :=
  Program.follows_ofExcept (fun value returned => ⟨rfl, accepted value returned⟩)
    fun fault failed => ⟨rfl, lines fault failed⟩

theorem Answers.bind (first : Answers accept program)
    (next : ∀ value, accept value → Answers accepts (rest value)) :
    Answers accepts (program >>= rest) := by
  refine Program.Follows.bind first ?_
  rintro _ value ⟨rfl, accepted⟩
  exact next value accepted

theorem Quiet.bind (first : Quiet program) (next : ∀ value, Answers accepts (rest value)) :
    Answers accepts (program >>= rest) :=
  Answers.bind first fun value _ => next value

theorem Answers.ite {condition : Prop} [Decidable condition] {other : Prog α}
    (first : Answers accept program) (second : Answers accept other) :
    Answers accept (if condition then program else other) := by
  split_ifs
  · exact first
  · exact second

/-- Reads that promise something about their result. -/
abbrev Reads (accept : α → Prop) (program : Prog α) : Prop :=
  program.Respects (fun op => ∀ batch, op ≠ Effect.write batch) accept

theorem Reads.readOnly (reads : Reads accept program) : ReadOnly program :=
  reads.mono (fun _ => id) fun _ _ => trivial

/-- A program that is known to end without a write makes none. -/
theorem Answers.reads (answers : Answers accept program) : Reads accept program := by
  have unwritten {program : Prog α} :
      ¬ program.Follows (fun wrote (op : Effect) => wrote || op.writes)
      (fun wrote value => wrote = false ∧ accept value)
        (fun wrote fault => wrote = false ∧ fault.OnLine)
      true := by
    intro follows
    induction program with
    | done value => cases follows.1
    | fail fault => cases follows.1
    -- Any environment shows that there is a reply.
    | request op next ih => exact ih _ (follows ((Env.plain 0).handle op .empty).1)
  induction program with
  | done value => exact answers.2
  | fail fault => trivial
  | request op next ih =>
    cases op with
    | write batch => exact absurd (answers ()) unwritten
    | _ => exact ⟨nofun, fun reply => ih reply (answers reply)⟩

theorem quiet_perform {op : Effect} (reads : op.writes = false) :
    Quiet (Program.perform (S := effects) op) :=
  fun _ => ⟨reads, trivial⟩

theorem quiet_get (cf : ColumnFamily) (key : Bytes) : Quiet (Storage.get cf key) :=
  quiet_perform rfl

theorem quiet_nowMs : Quiet nowMs := (quiet_perform rfl).bind fun _ => answers_pure trivial

theorem quiet_iterate (cf : ColumnFamily) (mode : IteratorMode) : Quiet (Storage.iterate cf mode) :=
  quiet_perform rfl

theorem quiet_familySize (cf : ColumnFamily) : Quiet (Storage.familySize cf) := quiet_perform rfl

theorem CommandContext.quiet_getMeta (ctx : CommandContext) (userKey : Bytes) :
    Quiet (ctx.getMeta userKey) := by
  refine (quiet_get _ _).bind fun found => ?_
  split
  · exact answers_pure trivial
  · split_ifs
    · exact answers_pure trivial
    · exact quiet_get _ _

end Phases

section Scans

theorem quiet_reservePage (limit : ℕ) : Quiet (reservePage limit) :=
  (answers_pure trivial).ite (answers_fail trivial)

theorem quiet_prefixScanPage (cf : ColumnFamily) (pre startKey : Bytes) (limit : ℕ) :
    Quiet (prefixScanPage cf pre startKey limit) :=
  (quiet_iterate _ _).bind fun _ => (quiet_reservePage _).bind fun _ => answers_pure trivial

theorem quiet_prefixScanPageReverse (cf : ColumnFamily) (pre startKey : Bytes) (limit : ℕ) :
    Quiet (prefixScanPageReverse cf pre startKey limit) :=
  (quiet_iterate _ _).bind fun _ => (quiet_reservePage _).bind fun _ => answers_pure trivial

end Scans

end Kvdb
