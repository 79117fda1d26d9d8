import Mathlib.Logic.Relation
import Mathlib.Tactic

/-!
# Effect programs

A program is a tree of typed requests to its environment: each request waits
for a reply and continues with it, and the tree ends in a value or an error.
The same program can be run in one go against a state, or taken apart request
by request when several programs share the state.

`Respects` bounds what a program may ask for, whatever replies it gets, and
what it may return. It composes along sequencing, and it yields the invariants
of every execution: a property that no permitted request breaks survives any
run.

`Ends` is the program logic of runs: a program run from a state ends with a
value and a state that meet one postcondition, or with an error and a state that
meet another. `Alike` compares two runs of a program that reads: they end in the
same way and change nothing. `Throughout` looks at every state that a run passes
through, in each of which it may be cut short.
-/

namespace Kvdb.Semantics

/-- The requests a program may make, and the type of each reply. -/
structure Signature where
  Op : Type
  Reply : Op → Type

/-- A program over a signature, with errors of type `ε`. -/
inductive Program (S : Signature) (ε α : Type) where
  | done (value : α)
  | fail (error : ε)
  | request (op : S.Op) (next : S.Reply op → Program S ε α)

namespace Program

variable {S : Signature} {ε α β γ σ : Type}

/-- Run a program and continue with its value. -/
def bind : Program S ε α → (α → Program S ε β) → Program S ε β
  | done value, rest => rest value
  | fail error, _ => fail error
  | request op next, rest => request op fun reply => (next reply).bind rest

instance : Monad (Program S ε) where
  pure := done
  bind := bind

theorem bind_done (program : Program S ε α) : program.bind done = program := by
  induction program with
  | done value => rfl
  | fail error => rfl
  | request op next ih => exact congrArg (request op) (funext ih)

theorem bind_assoc (program : Program S ε α) (first : α → Program S ε β)
    (second : β → Program S ε γ) :
    (program.bind first).bind second = program.bind fun value => (first value).bind second := by
  induction program with
  | done value => rfl
  | fail error => rfl
  | request op next ih => exact congrArg (request op) (funext ih)

instance : LawfulMonad (Program S ε) :=
  .mk' (Program S ε) bind_done (fun _ _ => rfl) bind_assoc

def perform (op : S.Op) : Program S ε (S.Reply op) := request op done

/-- The program that only reports a result. -/
def ofExcept : Except ε α → Program S ε α
  | .ok value => done value
  | .error error => fail error

theorem ofExcept_ok (value : α) : (ofExcept (.ok value) : Program S ε α) = pure value := rfl

/-- Continue with another program where the program fails. -/
def recover (handler : ε → Program S ε α) : Program S ε α → Program S ε α
  | done value => done value
  | fail error => handler error
  | request op next => request op fun reply => (next reply).recover handler

/-- Make a last request on the way out, whether the program returns or fails. -/
def thenAlways (cleanup : S.Op) : Program S ε α → Program S ε α
  | done value => request cleanup fun _ => done value
  | fail error => request cleanup fun _ => fail error
  | request op next => request op fun reply => (next reply).thenAlways cleanup

section Run

/-- An environment that answers every request at once. -/
abbrev Handler (S : Signature) (σ : Type) := (op : S.Op) → σ → S.Reply op × σ

variable (handle : Handler S σ)

/-- Run a program to its end. The state survives an error. -/
def run : Program S ε α → σ → Except ε α × σ
  | done value, state => (.ok value, state)
  | fail error, state => (.error error, state)
  | request op next, state =>
    (next (handle op state).1).run (handle op state).2

variable {handle} {program : Program S ε α} {rest : α → Program S ε β} {state after : σ}

@[simp] theorem run_ofExcept (result : Except ε α) :
    run handle (ofExcept result : Program S ε α) state = (result, state) := by
  cases result <;> rfl

theorem run_bind : run handle (program >>= rest) state =
    match run handle program state with
    | (.ok value, middle) => run handle (rest value) middle
    | (.error error, middle) => (.error error, middle) := by
  change run handle (program.bind rest) state = _
  induction program generalizing state with
  | done value => rfl
  | fail error => rfl
  | request op next ih => exact ih _

theorem run_bind_ok {value : α} (first : run handle program state = (.ok value, after)) :
    run handle (program >>= rest) state = run handle (rest value) after := by
  rw [run_bind, first]

theorem run_bind_error {error : ε} (first : run handle program state = (.error error, after)) :
    run handle (program >>= rest) state = (.error error, after) := by
  rw [run_bind, first]

theorem run_recover (handler : ε → Program S ε α) :
    run handle (program.recover handler) state =
      match run handle program state with
      | (.ok value, middle) => (.ok value, middle)
      | (.error error, middle) => run handle (handler error) middle := by
  induction program generalizing state with
  | done value => rfl
  | fail error => rfl
  | request op next ih => exact ih _

/-- A cleanup request that leaves the state alone changes nothing. -/
theorem run_thenAlways {cleanup : S.Op} (idle : ∀ state, (handle cleanup state).2 = state) :
    run handle (program.thenAlways cleanup) state = run handle program state := by
  induction program generalizing state with
  | done value => simp [thenAlways, run, idle]
  | fail error => simp [thenAlways, run, idle]
  | request op next ih => exact ih _

end Run

section Respects

/-- Every request the program can make is permitted, whatever replies it gets,
and every value it can return is acceptable. -/
def Respects (permitted : S.Op → Prop) (accept : α → Prop) : Program S ε α → Prop
  | done value => accept value
  | fail _ => True
  | request op next => permitted op ∧ ∀ reply, (next reply).Respects permitted accept

variable {permitted : S.Op → Prop} {accept : α → Prop} {accepts : β → Prop}
  {program : Program S ε α} {rest : α → Program S ε β} {handle : Handler S σ}

theorem respects_pure {value : α} (accepted : accept value) :
    (pure value : Program S ε α).Respects permitted accept := accepted

theorem respects_fail (error : ε) : (fail error : Program S ε α).Respects permitted accept :=
  trivial

theorem respects_perform {op : S.Op} {acceptReply : S.Reply op → Prop} (allowed : permitted op)
    (accepted : ∀ reply, acceptReply reply) :
    (perform op : Program S ε _).Respects permitted acceptReply :=
  ⟨allowed, accepted⟩

theorem respects_ofExcept {result : Except ε α}
    (accepted : ∀ value, result = .ok value → accept value) :
    (ofExcept result : Program S ε α).Respects permitted accept := by
  cases result with
  | ok value => exact accepted value rfl
  | error error => trivial

theorem Respects.bind (first : program.Respects permitted accept)
    (next : ∀ value, accept value → (rest value).Respects permitted accepts) :
    (program >>= rest).Respects permitted accepts := by
  change (Program.bind program rest).Respects permitted accepts
  induction program with
  | done value => exact next value first
  | fail error => trivial
  | request op continuation ih => exact ⟨first.1, fun reply => ih reply (first.2 reply)⟩

theorem Respects.mono {permitted' : S.Op → Prop} {accept' : α → Prop}
    (respects : program.Respects permitted accept) (ops : ∀ op, permitted op → permitted' op)
    (values : ∀ value, accept value → accept' value) :
    program.Respects permitted' accept' := by
  induction program with
  | done value => exact values value respects
  | fail error => trivial
  | request op next ih => exact ⟨ops op respects.1, fun reply => ih reply (respects.2 reply)⟩

theorem Respects.thenAlways {cleanup : S.Op} (respects : program.Respects permitted accept)
    (allowed : permitted cleanup) : (program.thenAlways cleanup).Respects permitted accept := by
  induction program with
  | done value => exact ⟨allowed, fun _ => respects⟩
  | fail error => exact ⟨allowed, fun _ => trivial⟩
  | request op next ih => exact ⟨respects.1, fun reply => ih reply (respects.2 reply)⟩

/-- What no permitted request breaks survives every run of the program. -/
theorem Respects.run_invariant (respects : program.Respects permitted accept)
    {invariant : σ → Prop}
    (preserved : ∀ op, permitted op → ∀ state, invariant state → invariant (handle op state).2)
    {state : σ} (holds : invariant state) : invariant (run handle program state).2 := by
  induction program generalizing state with
  | done value => exact holds
  | fail error => exact holds
  | request op next ih => exact ih _ (respects.2 _) (preserved op respects.1 state holds)

/-- Whatever a program returns is acceptable. -/
theorem Respects.run_value (respects : program.Respects permitted accept) {state after : σ}
    {value : α} (returned : run handle program state = (.ok value, after)) : accept value := by
  induction program generalizing state with
  | done result =>
    simp only [run, Prod.mk.injEq, Except.ok.injEq] at returned
    exact returned.1 ▸ respects
  | fail error => simp [run] at returned
  | request op next ih => exact ih _ (respects.2 _) returned

end Respects

section Ends

/-- The program ends in a value and a state with `returns`, or in an error and a
state with `fails`. -/
def Ends (handle : Handler S σ) (program : Program S ε α) (state : σ) (returns : α → σ → Prop)
    (fails : ε → σ → Prop) : Prop :=
  match run handle program state with
  | (.ok value, after) => returns value after
  | (.error error, after) => fails error after

variable {handle : Handler S σ} {program : Program S ε α} {rest : α → Program S ε β} {state : σ}
  {returns : α → σ → Prop} {returnsLast : β → σ → Prop} {fails : ε → σ → Prop}

theorem ends_pure {value : α} (holds : returns value state) :
    Ends handle (pure value : Program S ε α) state returns fails := holds

theorem ends_fail {error : ε} (holds : fails error state) :
    Ends handle (fail error : Program S ε α) state returns fails := holds

/-- Sequencing: the first program leads to where the rest can take over. -/
theorem Ends.bind
    (first : Ends handle program state
      (fun value middle => Ends handle (rest value) middle returnsLast fails) fails) :
    Ends handle (program >>= rest) state returnsLast fails := by
  unfold Ends at first ⊢
  rw [run_bind]
  rcases known : run handle program state with ⟨_ | _, _⟩ <;> simp only [known] at first ⊢ <;>
    exact first

theorem Ends.mono {returns' : α → σ → Prop} {fails' : ε → σ → Prop}
    (ends : Ends handle program state returns fails)
    (values : ∀ value after, returns value after → returns' value after)
    (errors : ∀ error after, fails error after → fails' error after) :
    Ends handle program state returns' fails' := by
  unfold Ends at ends ⊢
  rcases known : run handle program state with ⟨_ | _, _⟩ <;> simp only [known] at ends ⊢
  · exact errors _ _ ends
  · exact values _ _ ends

theorem Ends.of_run {result : Except ε α} {after : σ}
    (known : run handle program state = (result, after))
    (values : ∀ value, result = .ok value → returns value after)
    (errors : ∀ error, result = .error error → fails error after) :
    Ends handle program state returns fails := by
  unfold Ends
  rw [known]
  cases result with
  | ok value => exact values value rfl
  | error error => exact errors error rfl

/-- What holds however the program ends holds of the state it leaves. -/
theorem Ends.run_state {invariant : σ → Prop}
    (ends : Ends handle program state (fun _ => invariant) (fun _ => invariant)) :
    invariant (run handle program state).2 := by
  unfold Ends at ends
  rcases known : run handle program state with ⟨_ | _, _⟩ <;> simpa only [known] using ends

/-- The two ways to end. -/
theorem Ends.outcome (ends : Ends handle program state returns fails) :
    (∃ value after, run handle program state = (.ok value, after) ∧ returns value after) ∨
      ∃ error after, run handle program state = (.error error, after) ∧ fails error after := by
  unfold Ends at ends
  rcases known : run handle program state with ⟨error | value, after⟩ <;> simp only [known] at ends
  · exact .inr ⟨error, after, rfl, ends⟩
  · exact .inl ⟨value, after, rfl, ends⟩

/-- A program that cannot fail returns. -/
theorem Ends.succeeds (ends : Ends handle program state returns fun _ _ => False) :
    ∃ value after, run handle program state = (.ok value, after) ∧ returns value after :=
  ends.outcome.resolve_right fun ⟨_, _, _, failed⟩ => failed

end Ends

section Follows

variable {γ : Type}

/-- The program passes through phases: each request advances the phase, and where
it returns or fails, the phase it has reached has a say in what is accepted. -/
def Follows (advance : γ → S.Op → γ) (returns : γ → α → Prop) (fails : γ → ε → Prop) :
    γ → Program S ε α → Prop
  | phase, done value => returns phase value
  | phase, fail error => fails phase error
  | phase, request op next =>
    ∀ reply, (next reply).Follows advance returns fails (advance phase op)

variable {advance : γ → S.Op → γ} {returns : γ → α → Prop} {returnsLast : γ → β → Prop}
  {fails : γ → ε → Prop} {phase : γ} {program : Program S ε α} {rest : α → Program S ε β}

theorem follows_ofExcept {result : Except ε α}
    (values : ∀ value, result = .ok value → returns phase value)
    (errors : ∀ error, result = .error error → fails phase error) :
    (ofExcept result : Program S ε α).Follows advance returns fails phase := by
  cases result with
  | ok value => exact values value rfl
  | error error => exact errors error rfl

/-- Sequencing: the rest takes over in the phase where the first program returns. -/
theorem Follows.bind (first : program.Follows advance returns fails phase)
    (next : ∀ reached value, returns reached value →
      (rest value).Follows advance returnsLast fails reached) :
    (program >>= rest).Follows advance returnsLast fails phase := by
  change (Program.bind program rest).Follows advance returnsLast fails phase
  induction program generalizing phase with
  | done value => exact next phase value first
  | fail error => exact first
  | request op continuation ih => exact fun reply => ih reply (first reply)

theorem Follows.mono {returns' : γ → α → Prop} {fails' : γ → ε → Prop}
    (follows : program.Follows advance returns fails phase)
    (values : ∀ reached value, returns reached value → returns' reached value)
    (errors : ∀ reached error, fails reached error → fails' reached error) :
    program.Follows advance returns' fails' phase := by
  induction program generalizing phase with
  | done value => exact values phase value follows
  | fail error => exact errors phase error follows
  | request op next ih => exact fun reply => ih reply (follows reply)

/-- Errors that are handled in the phase where they occur. -/
theorem Follows.recover {handler : ε → Program S ε α} {fails' : γ → ε → Prop}
    (follows : program.Follows advance returns fails phase)
    (handled : ∀ reached error, fails reached error →
      (handler error).Follows advance returns fails' reached) :
    (program.recover handler).Follows advance returns fails' phase := by
  induction program generalizing phase with
  | done value => exact follows
  | fail error => exact handled phase error follows
  | request op next ih => exact fun reply => ih reply (follows reply)

/-- A last request, which advances the phase once more. -/
theorem Follows.thenAlways {cleanup : S.Op} {returns' : γ → α → Prop} {fails' : γ → ε → Prop}
    (follows : program.Follows advance returns fails phase)
    (values : ∀ reached value, returns reached value → returns' (advance reached cleanup) value)
    (errors : ∀ reached error, fails reached error → fails' (advance reached cleanup) error) :
    (program.thenAlways cleanup).Follows advance returns' fails' phase := by
  induction program generalizing phase with
  | done value => exact fun _ => values phase value follows
  | fail error => exact fun _ => errors phase error follows
  | request op next ih => exact fun reply => ih reply (follows reply)

/-- A run ends in a phase that is related to its state, if the requests keep phase
and state related. -/
theorem Follows.run {handle : Handler S σ} {related : γ → σ → Prop} {state : σ}
    (follows : program.Follows advance returns fails phase)
    (kept : ∀ reached state op, related reached state →
      related (advance reached op) (handle op state).2)
    (initial : related phase state) :
    Ends handle program state
      (fun value after => ∃ reached, related reached after ∧ returns reached value)
      fun error after => ∃ reached, related reached after ∧ fails reached error := by
  induction program generalizing phase state with
  | done value => exact ⟨phase, initial, follows⟩
  | fail error => exact ⟨phase, initial, follows⟩
  | request op next ih => exact ih _ (follows _) (kept phase state op initial)

end Follows

section Alike

/-- From two states, the program ends in the same way and leaves both as they
are. -/
def Alike (handle handle' : Handler S σ) (state state' : σ) (program : Program S ε α) : Prop :=
  ∃ result, run handle program state = (result, state) ∧
    run handle' program state' = (result, state')

variable {handle handle' : Handler S σ} {state state' : σ} {program : Program S ε α}
  {rest : α → Program S ε β}

theorem alike_pure (value : α) : Alike handle handle' state state' (pure value : Program S ε α) :=
  ⟨_, rfl, rfl⟩

theorem alike_fail (error : ε) : Alike handle handle' state state' (fail error : Program S ε α) :=
  ⟨_, rfl, rfl⟩

/-- Sequencing: the rest has to be alike for the values that the first program
can return. -/
theorem Alike.bind (first : Alike handle handle' state state' program)
    (next : ∀ value, run handle program state = (.ok value, state) →
      Alike handle handle' state state' (rest value)) :
    Alike handle handle' state state' (program >>= rest) := by
  obtain ⟨result, ran, ran'⟩ := first
  cases result with
  | error error => exact ⟨.error error, run_bind_error ran, run_bind_error ran'⟩
  | ok value =>
    obtain ⟨result, next, next'⟩ := next value ran
    exact ⟨result, (run_bind_ok ran).trans next, (run_bind_ok ran').trans next'⟩

theorem Alike.ite {condition : Prop} [Decidable condition] {other : Program S ε α}
    (yes : Alike handle handle' state state' program)
    (no : Alike handle handle' state state' other) :
    Alike handle handle' state state' (if condition then program else other) := by
  split_ifs
  · exact yes
  · exact no

/-- From two states, the program ends in the same way, with a value that is accepted if it
returns one, and leaves both as they are. -/
def AlikeWith (accept : α → Prop) (handle handle' : Handler S σ) (state state' : σ)
    (program : Program S ε α) : Prop :=
  ∃ result, run handle program state = (result, state) ∧
    run handle' program state' = (result, state') ∧ ∀ value, result = .ok value → accept value

variable {accept : α → Prop} {accepts : β → Prop}

theorem AlikeWith.alike (first : AlikeWith accept handle handle' state state' program) :
    Alike handle handle' state state' program :=
  first.elim fun result ran => ⟨result, ran.1, ran.2.1⟩

/-- What two runs return is what the first of them returns. -/
theorem Alike.alikeWith (first : Alike handle handle' state state' program) (accepted : ∀ value,
    run handle program state = (.ok value, state) → accept value) :
    AlikeWith accept handle handle' state state' program := by
  obtain ⟨result, ran, ran'⟩ := first
  refine ⟨result, ran, ran', ?_⟩
  rintro value rfl
  exact accepted value ran

theorem AlikeWith.bind (first : AlikeWith accept handle handle' state state' program)
    (next : ∀ value, accept value → AlikeWith accepts handle handle' state state' (rest value)) :
    AlikeWith accepts handle handle' state state' (program >>= rest) := by
  obtain ⟨error | value, ran, ran', accepted⟩ := first
  · exact ⟨.error error, run_bind_error ran, run_bind_error ran', nofun⟩
  · obtain ⟨result, next, next', known⟩ := next value (accepted value rfl)
    exact ⟨result, (run_bind_ok ran).trans next, (run_bind_ok ran').trans next', known⟩

end Alike

section Throughout

/-- The states before, between and after the requests of a run. -/
def passed (handle : Handler S σ) : Program S ε α → σ → List σ
  | done _, state => [state]
  | fail _, state => [state]
  | request op next, state =>
    state :: (next (handle op state).1).passed handle (handle op state).2

/-- The property holds in every state that the run passes through. -/
def Throughout (handle : Handler S σ) (holds : σ → Prop) (program : Program S ε α) (state : σ) :
    Prop :=
  ∀ reached ∈ program.passed handle state, holds reached

variable {handle : Handler S σ} {holds : σ → Prop} {program : Program S ε α}
  {rest : α → Program S ε β} {state : σ}

@[simp] theorem throughout_done {value : α} :
    (done value : Program S ε α).Throughout handle holds state ↔ holds state :=
  List.forall_mem_singleton

@[simp] theorem throughout_fail {error : ε} :
    (fail error : Program S ε α).Throughout handle holds state ↔ holds state :=
  List.forall_mem_singleton

@[simp] theorem throughout_request {op : S.Op} {next : S.Reply op → Program S ε α} :
    (request op next).Throughout handle holds state ↔
      holds state ∧ (next (handle op state).1).Throughout handle holds (handle op state).2 :=
  List.forall_mem_cons

theorem Throughout.start (throughout : program.Throughout handle holds state) : holds state := by
  cases program with
  | done value => exact throughout_done.mp throughout
  | fail error => exact throughout_fail.mp throughout
  | request op next => exact (throughout_request.mp throughout).1

theorem Throughout.run (throughout : program.Throughout handle holds state) :
    holds (run handle program state).2 := by
  induction program generalizing state with
  | done value => exact throughout_done.mp throughout
  | fail error => exact throughout_fail.mp throughout
  | request op next ih => exact ih _ (throughout_request.mp throughout).2

theorem throughout_bind : (program >>= rest).Throughout handle holds state ↔
    program.Throughout handle holds state ∧ ∀ value after,
      Program.run handle program state = (.ok value, after) →
      (rest value).Throughout handle holds after := by
  change (Program.bind program rest).Throughout handle holds state ↔ _
  induction program generalizing state with
  | done value =>
    constructor
    · intro throughout
      refine ⟨throughout_done.mpr throughout.start, ?_⟩
      rintro _ _ ⟨⟩
      exact throughout
    · exact fun both => both.2 value state rfl
  | fail error => exact ⟨fun held => ⟨held, nofun⟩, fun both => both.1⟩
  | request op next ih =>
    rw [Program.bind, throughout_request, throughout_request, ih]
    exact and_assoc.symm

theorem throughout_bind_ok {value : α} {after : σ}
    (first : Program.run handle program state = (.ok value, after)) :
    (program >>= rest).Throughout handle holds state ↔
      program.Throughout handle holds state ∧ (rest value).Throughout handle holds after := by
  rw [throughout_bind]
  refine and_congr_right fun _ => ⟨fun onward => onward value after first, ?_⟩
  rintro onward _ _ ran
  rw [first] at ran
  cases ran
  exact onward

/-- Requests that change nothing. -/
theorem Respects.throughout {permitted : S.Op → Prop} {accept : α → Prop}
    (respects : program.Respects permitted accept)
    (idle : ∀ op, permitted op → ∀ state, (handle op state).2 = state) (held : holds state) :
    program.Throughout handle holds state := by
  induction program with
  | done value => exact throughout_done.mpr held
  | fail error => exact throughout_fail.mpr held
  | request op next ih =>
    refine throughout_request.mpr ⟨held, ?_⟩
    rw [idle op respects.1]
    exact ih _ (respects.2 _)

end Throughout

section Performed

/-- The requests of a run. -/
def performed (handle : Handler S σ) : Program S ε α → σ → List S.Op
  | done _, _ => []
  | fail _, _ => []
  | request op next, state => op :: (next (handle op state).1).performed handle (handle op state).2

variable {handle : Handler S σ} {program : Program S ε α} {rest : α → Program S ε β}
  {state after : σ}

theorem performed_bind_ok {value : α}
    (first : Program.run handle program state = (.ok value, after)) :
    (program >>= rest).performed handle state =
      program.performed handle state ++ (rest value).performed handle after := by
  change (Program.bind program rest).performed handle state = _
  induction program generalizing state with
  | done value =>
    cases first
    rfl
  | fail error => cases first
  | request op next ih => exact congrArg (op :: ·) (ih _ first)

theorem performed_bind_error {error : ε}
    (first : Program.run handle program state = (.error error, after)) :
    (program >>= rest).performed handle state = program.performed handle state := by
  change (Program.bind program rest).performed handle state = _
  induction program generalizing state with
  | done value => cases first
  | fail error => rfl
  | request op next ih => exact congrArg (op :: ·) (ih _ first)

/-- The requests of a run are permitted ones. -/
theorem Respects.performed {permitted : S.Op → Prop} {accept : α → Prop}
    (respects : program.Respects permitted accept) {op : S.Op}
    (inside : op ∈ program.performed handle state) : permitted op := by
  induction program generalizing state with
  | done value => cases inside
  | fail error => cases inside
  | request first next ih =>
    rcases List.mem_cons.mp inside with rfl | later
    · exact respects.1
    · exact ih _ (respects.2 _) later

end Performed

end Program

end Kvdb.Semantics
