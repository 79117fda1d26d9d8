import Mathlib.Tactic

/-!
# Incremental parsers

A parser takes a value off the front of its input, asks for more input, or
panics. A value is final in an incremental parser: input that arrives later does
not change it. Such a parser can be run in a loop over a buffer that grows piece
by piece, and the values do not depend on the pieces.
-/

namespace Kvdb.Data

variable {τ α β : Type}

/-- What a parser makes of its input. A value comes with the length it took. -/
inductive Parsed (α : Type) where
  | done (value : α) (used : ℕ)
  | more
  | panic
deriving DecidableEq

/-- Go on with a value and the length it took. -/
def Parsed.andThen (parsed : Parsed α) (next : α → ℕ → Parsed β) : Parsed β :=
  match parsed with
  | .done value used => next value used
  | .more => .more
  | .panic => .panic

theorem Parsed.andThen_congr {parsed : Parsed α} {next next' : α → ℕ → Parsed β}
    (same : ∀ value used, parsed = .done value used → next value used = next' value used) :
    parsed.andThen next = parsed.andThen next' := by
  cases parsed with
  | done value used => exact same value used rfl
  | more => rfl
  | panic => rfl

theorem Parsed.andThen_assoc {γ : Type} (parsed : Parsed α) (next : α → ℕ → Parsed β)
    (last : β → ℕ → Parsed γ) :
    (parsed.andThen next).andThen last = parsed.andThen fun value used =>
      (next value used).andThen last := by
  cases parsed <;> rfl

/-- What a parser makes of its input, but for the value. -/
def Parsed.extent (parsed : Parsed α) : Parsed Unit := parsed.andThen fun _ used => .done () used

theorem Parsed.extent_eq_done {parsed : Parsed α} {used : ℕ} :
    parsed.extent = .done () used ↔ ∃ value, parsed = .done value used := by
  cases parsed <;> simp [extent, andThen]

theorem Parsed.extent_eq_panic {parsed : Parsed α} : parsed.extent = .panic ↔ parsed = .panic := by
  cases parsed <;> simp [extent, andThen]

/-- A parser of inputs over an alphabet. -/
def Parser (τ α : Type) : Type := List τ → Parsed α

namespace Parser

/-- Ask for more input, whatever there is. -/
def more : Parser τ α := fun _ => .more

def panic : Parser τ α := fun _ => .panic

def pure (value : α) : Parser τ α := fun _ => .done value 0

/-- Go on with the input that is left. -/
def bind (first : Parser τ α) (next : α → Parser τ β) : Parser τ β := fun data =>
  match first data with
  | .done value used =>
    match next value (data.drop used) with
    | .done result further => .done result (used + further)
    | .more => .more
    | .panic => .panic
  | .more => .more
  | .panic => .panic

instance instMonad : Monad (Parser τ) where
  pure := pure
  bind := bind

/-- A value or a demand for more input. -/
def ofOption : Option α → Parser τ α
  | some value => pure value
  | none => more

def times (item : Parser τ α) : ℕ → Parser τ (List α)
  | 0 => return []
  | count + 1 => do
    let first ← item
    let rest ← times item count
    return first :: rest

@[simp] theorem pure_apply (value : α) (data : List τ) :
    (Pure.pure value : Parser τ α) data = .done value 0 := rfl

@[simp] theorem ofOption_none : (ofOption none : Parser τ α) = more := rfl

@[simp] theorem ofOption_some (value : α) :
    (ofOption (some value) : Parser τ α) = Pure.pure value :=
  rfl

section Sequencing

variable {first : Parser τ α} {next : α → Parser τ β} {data : List τ}

theorem bind_of_done {value : α} {used : ℕ} (ran : first data = .done value used) :
    (first >>= next) data =
      match next value (data.drop used) with
      | .done result further => .done result (used + further)
      | .more => .more
      | .panic => .panic := by
  change bind first next data = _
  simp only [bind, ran]

theorem bind_apply : (first >>= next) data = (first data).andThen fun value used =>
    (next value (data.drop used)).andThen fun result further => .done result (used + further) := by
  change bind first next data = _
  unfold bind Parsed.andThen
  cases first data <;> rfl

theorem bind_of_done_done {value : α} {result : β} {used further : ℕ}
    (ran : first data = .done value used)
    (went : next value (data.drop used) = .done result further) :
    (first >>= next) data = .done result (used + further) := by
  rw [bind_of_done ran, went]

theorem map_of_done {value : α} {used : ℕ} (ran : first data = .done value used) (build : α → β) :
    (first >>= fun value => Pure.pure (build value)) data = .done (build value) used := by
  rw [bind_of_done ran]
  rfl

theorem ite_of_not {condition : Prop} [Decidable condition] {yes no : Parser τ α}
    {result : Parsed α} (other : ¬ condition) (ran : no data = result) :
    (if condition then yes else no) data = result := by
  rw [if_neg other]
  exact ran

theorem bind_of_more (ran : first data = .more) : (first >>= next) data = .more := by
  change bind first next data = _
  simp only [bind, ran]

theorem bind_of_panic (ran : first data = .panic) : (first >>= next) data = .panic := by
  change bind first next data = _
  simp only [bind, ran]

/-- A sequence that yields a value does so in two steps. -/
theorem bind_eq_done {result : β} {total : ℕ} (ran : (first >>= next) data = .done result total) :
    ∃ value used further, first data = .done value used ∧
      next value (data.drop used) = .done result further ∧ total = used + further := by
  cases started : first data with
  | more => simp [bind_of_more started] at ran
  | panic => simp [bind_of_panic started] at ran
  | done value used =>
    rw [bind_of_done started] at ran
    cases went : next value (data.drop used) with
    | more => simp [went] at ran
    | panic => simp [went] at ran
    | done result' further =>
      simp only [went, Parsed.done.injEq] at ran
      exact ⟨value, used, further, rfl, by rw [went, ran.1], ran.2.symm⟩

/-- A sequence that panics does so in its first or in its second part. -/
theorem bind_eq_panic (ran : (first >>= next) data = .panic) :
    first data = .panic ∨
      ∃ value used, first data = .done value used ∧ next value (data.drop used) = .panic := by
  cases started : first data with
  | more => simp [bind_of_more started] at ran
  | panic => exact .inl rfl
  | done value used =>
    rw [bind_of_done started] at ran
    refine .inr ⟨value, used, rfl, ?_⟩
    cases went : next value (data.drop used) <;> simp_all

theorem map_eq_done {build : α → β} {result : β} {used : ℕ}
    (ran : (first >>= fun value => Pure.pure (build value)) data = .done result used) :
    ∃ value, first data = .done value used ∧ result = build value := by
  obtain ⟨value, taken, further, started, went, rfl⟩ := bind_eq_done ran
  cases went
  exact ⟨value, started, rfl⟩

theorem times_succ_of_done {item : Parser τ α} {value : α} {rest : List α} {count used further : ℕ}
    (ran : item data = .done value used)
    (went : item.times count (data.drop used) = .done rest further) :
    item.times (count + 1) data = .done (value :: rest) (used + further) :=
  bind_of_done_done ran (map_of_done went (value :: ·))

theorem times_succ_eq_done {item : Parser τ α} {values : List α} {count total : ℕ}
    (ran : item.times (count + 1) data = .done values total) :
    ∃ value rest used further, item data = .done value used ∧
      item.times count (data.drop used) = .done rest further ∧ values = value :: rest ∧
      total = used + further := by
  obtain ⟨value, used, further, started, went, rfl⟩ := bind_eq_done ran
  obtain ⟨rest, others, rfl⟩ := map_eq_done went
  exact ⟨value, rest, used, further, started, others, rfl, rfl⟩

/-- A loop that panics does so in one of its rounds, behind the ones before. -/
theorem times_eq_panic {item : Parser τ α} {count : ℕ} (ran : item.times count data = .panic) :
    ∃ before < count, ∃ values used, item.times before data = .done values used ∧
      item (data.drop used) = .panic := by
  induction count generalizing data with
  | zero => cases ran
  | succ count ih =>
    obtain first | ⟨value, used, started, went⟩ := bind_eq_panic ran
    · exact ⟨0, Nat.succ_pos count, [], 0, rfl, by rwa [List.drop_zero]⟩
    · obtain later | ⟨_, _, -, done⟩ := bind_eq_panic went
      · obtain ⟨before, fewer, values, further, others, stopped⟩ := ih later
        rw [List.drop_drop] at stopped
        exact ⟨before + 1, Nat.succ_lt_succ fewer, _, _, times_succ_of_done started others, stopped⟩
      · cases done

theorem times_of_panic {item : Parser τ α} {before count used : ℕ} {values : List α}
    (fewer : before < count) (ran : item.times before data = .done values used)
    (stopped : item (data.drop used) = .panic) : item.times count data = .panic := by
  obtain ⟨count, rfl⟩ : ∃ n, count = n + 1 := ⟨count - 1, by omega⟩
  induction before generalizing data used values count with
  | zero =>
    cases ran
    exact bind_of_panic stopped
  | succ before ih =>
    obtain ⟨value, rest, first, further, started, others, -, rfl⟩ := times_succ_eq_done ran
    obtain ⟨count, rfl⟩ : ∃ n, count = n + 1 := ⟨count - 1, by omega⟩
    rw [← List.drop_drop] at stopped
    have later := ih others stopped count (by omega)
    have rest : (item.times (count + 1) >>= fun rest => Pure.pure (value :: rest))
        (data.drop first) = .panic := bind_of_panic later
    exact (bind_of_done started).trans (by rw [rest])

end Sequencing

/-- Values and panics are final, and a value takes no more than there is. -/
structure Incremental (parser : Parser τ α) : Prop where
  done : ∀ {data value used}, parser data = .done value used →
    used ≤ data.length ∧ ∀ later, parser (data ++ later) = .done value used
  panic : ∀ {data}, parser data = .panic → ∀ later, parser (data ++ later) = .panic

/-- A value takes some input. -/
def Consuming (parser : Parser τ α) : Prop :=
  ∀ {data value used}, parser data = .done value used → 0 < used

section Rules

theorem incremental_pure (value : α) : Incremental (Pure.pure value : Parser τ α) where
  done := by
    intro data result used ran
    cases ran
    exact ⟨Nat.zero_le _, fun _ => rfl⟩
  panic ran := nomatch ran

theorem incremental_more : Incremental (more : Parser τ α) where
  done ran := nomatch ran
  panic ran := nomatch ran

theorem incremental_panic : Incremental (panic : Parser τ α) where
  done ran := nomatch ran
  panic _ _ := rfl

theorem incremental_ofOption (found : Option α) : Incremental (ofOption found : Parser τ α) := by
  cases found with
  | none => exact incremental_more
  | some value => exact incremental_pure value

variable {first : Parser τ α} {next : α → Parser τ β}

theorem Incremental.bind (start : Incremental first) (goes : ∀ value, Incremental (next value)) :
    Incremental (first >>= next) where
  done := by
    intro data result total ran
    obtain ⟨value, used, further, started, went, rfl⟩ := bind_eq_done ran
    obtain ⟨within, kept⟩ := start.done started
    obtain ⟨behind, kept'⟩ := (goes value).done went
    rw [List.length_drop] at behind
    refine ⟨by omega, fun later => bind_of_done_done (kept later) ?_⟩
    rw [List.drop_append_of_le_length within]
    exact kept' later
  panic := by
    intro data ran later
    obtain started | ⟨value, used, started, went⟩ := bind_eq_panic ran
    · exact bind_of_panic (start.panic started later)
    · obtain ⟨within, kept⟩ := start.done started
      rw [bind_of_done (kept later), List.drop_append_of_le_length within,
        (goes value).panic went later]

theorem Incremental.ite {condition : Prop} [Decidable condition] {yes no : Parser τ α}
    (first : Incremental yes) (second : Incremental no) :
    Incremental (if condition then yes else no) := by
  split
  · exact first
  · exact second

theorem Incremental.times {item : Parser τ α} (each : Incremental item) (count : ℕ) :
    Incremental (item.times count) := by
  induction count with
  | zero => exact incremental_pure []
  | succ count ih => exact each.bind fun _ => ih.bind fun _ => incremental_pure _

theorem Consuming.bind (takes : Consuming first) : Consuming (first >>= next) := by
  intro data result total ran
  obtain ⟨value, used, further, started, -, rfl⟩ := bind_eq_done ran
  exact Nat.lt_of_lt_of_le (takes started) (Nat.le_add_right _ _)

theorem Consuming.ite {condition : Prop} [Decidable condition] {yes no : Parser τ α}
    (first : Consuming yes) (second : Consuming no) :
    Consuming (if condition then yes else no) := by
  split
  · exact first
  · exact second

end Rules

section Calmness

/-- A parser that never panics. -/
def Calm (parser : Parser τ α) : Prop := ∀ data, parser data ≠ .panic

theorem calm_pure (value : α) : Calm (Pure.pure value : Parser τ α) := fun _ => nofun

theorem calm_more : Calm (more : Parser τ α) := fun _ => nofun

theorem calm_ofOption (found : Option α) : Calm (ofOption found : Parser τ α) := by
  cases found with
  | none => exact calm_more
  | some value => exact calm_pure value

theorem Calm.bind {first : Parser τ α} {next : α → Parser τ β} (start : Calm first)
    (goes : ∀ value, Calm (next value)) : Calm (first >>= next) := by
  intro data ran
  obtain started | ⟨value, used, -, went⟩ := bind_eq_panic ran
  · exact start data started
  · exact goes value _ went

theorem Calm.ite {condition : Prop} [Decidable condition] {yes no : Parser τ α}
    (left : condition → Calm yes) (right : Calm no) : Calm (if condition then yes else no) := by
  split_ifs with holds
  · exact left holds
  · exact right

end Calmness

section Agreement

/-- Two parsers do the same on inputs shorter than a bound. -/
def AgreeBelow (bound : ℕ) (parser parser' : Parser τ α) : Prop :=
  ∀ data : List τ, data.length < bound → parser data = parser' data

variable {bound : ℕ} {first first' : Parser τ α} {next next' : α → Parser τ β}

theorem agreeBelow_refl (bound : ℕ) (parser : Parser τ α) : AgreeBelow bound parser parser :=
  fun _ _ => rfl

theorem AgreeBelow.bind (start : AgreeBelow bound first first')
    (goes : ∀ value, AgreeBelow bound (next value) (next' value)) :
    AgreeBelow bound (first >>= next) (first' >>= next') := by
  intro data short
  cases ran : first data with
  | more => rw [bind_of_more ran, bind_of_more (start data short ▸ ran)]
  | panic => rw [bind_of_panic ran, bind_of_panic (start data short ▸ ran)]
  | done value used =>
    rw [bind_of_done ran, bind_of_done (start data short ▸ ran),
      goes value (data.drop used) (by rw [List.length_drop]; omega)]

/-- What stands behind a part that takes some input meets a shorter one. -/
theorem Consuming.agreeBelow_bind {first : Parser τ α} (takes : Consuming first)
    (within : ∀ {data value used}, first data = .done value used → used ≤ data.length)
    (goes : ∀ value, AgreeBelow bound (next value) (next' value)) :
    AgreeBelow (bound + 1) (first >>= next) (first >>= next') := by
  intro data short
  cases ran : first data with
  | more => rw [bind_of_more ran, bind_of_more ran]
  | panic => rw [bind_of_panic ran, bind_of_panic ran]
  | done value used =>
    have positive := takes ran
    have fits := within ran
    rw [bind_of_done ran, bind_of_done ran,
      goes value (data.drop used) (by rw [List.length_drop]; omega)]

theorem AgreeBelow.ite {condition : Prop} [Decidable condition] {yes yes' no no' : Parser τ α}
    (left : AgreeBelow bound yes yes') (right : AgreeBelow bound no no') :
    AgreeBelow bound (if condition then yes else no) (if condition then yes' else no') := by
  split
  · exact left
  · exact right

theorem AgreeBelow.times (each : AgreeBelow bound first first') (count : ℕ) :
    AgreeBelow bound (first.times count) (first'.times count) := by
  induction count with
  | zero => exact agreeBelow_refl _ _
  | succ count ih => exact each.bind fun _ => ih.bind fun _ => agreeBelow_refl _ _

end Agreement

section Streams

/-- What the loop over a buffer is left with: input that waits for more, or nothing
because the loop has panicked. -/
inductive Buffer (τ : Type) where
  | waiting (rest : List τ)
  | dead
deriving DecidableEq

/-- Take values off the front of a buffer while there are any. -/
def drain (parser : Parser τ α) : ℕ → List τ → List α × Buffer τ
  | 0, data => ([], .waiting data)
  | fuel + 1, data =>
    match parser data with
    | .done value used =>
      let (values, left) := drain parser fuel (data.drop used)
      (value :: values, left)
    | .more => ([], .waiting data)
    | .panic => ([], .dead)

/-- Take all values off the front of a buffer. Each of them takes some of it, so
its length is fuel enough. -/
def drainAll (parser : Parser τ α) (data : List τ) : List α × Buffer τ :=
  parser.drain (data.length + 1) data

/-- Append a piece of input to the buffer and go on. -/
def feed (parser : Parser τ α) (state : List α × Buffer τ) (piece : List τ) : List α × Buffer τ :=
  match state.2 with
  | .dead => state
  | .waiting rest => ((state.1 ++ (parser.drainAll (rest ++ piece)).1),
      (parser.drainAll (rest ++ piece)).2)

variable {parser : Parser τ α} (kept : Incremental parser) (takes : Consuming parser)
include kept takes

theorem drain_of_fuel {fuel fuel' : ℕ} {data : List τ} (enough : data.length < fuel)
    (enough' : data.length < fuel') : parser.drain fuel data = parser.drain fuel' data := by
  induction fuel generalizing fuel' data with
  | zero => omega
  | succ fuel ih =>
    obtain ⟨fuel', rfl⟩ : ∃ n, fuel' = n + 1 := ⟨fuel' - 1, by omega⟩
    rw [drain, drain]
    cases ran : parser data with
    | more | panic => rfl
    | done value used =>
      have positive := takes ran
      have within := (kept.done ran).1
      have shorter : (data.drop used).length < data.length := by
        rw [List.length_drop]
        omega
      simp only [ih (by omega : (data.drop used).length < fuel)
        (by omega : (data.drop used).length < fuel')]

theorem drainAll_of_done {data : List τ} {value : α} {used : ℕ}
    (ran : parser data = .done value used) :
    parser.drainAll data =
      (value :: (parser.drainAll (data.drop used)).1, (parser.drainAll (data.drop used)).2) := by
  have positive := takes ran
  have within := (kept.done ran).1
  have shorter : (data.drop used).length < data.length := by
    rw [List.length_drop]
    omega
  rw [drainAll, drain, ran]
  simp only [drain_of_fuel kept takes shorter (Nat.lt_succ_self _)]
  rfl

omit kept takes in
theorem drainAll_of_more {data : List τ} (ran : parser data = .more) :
    parser.drainAll data = ([], .waiting data) := by
  rw [drainAll, drain, ran]

omit kept takes in
theorem drainAll_of_panic {data : List τ} (ran : parser data = .panic) :
    parser.drainAll data = ([], .dead) := by
  rw [drainAll, drain, ran]

/-- Input that arrives later only continues the loop. -/
theorem drainAll_append (data later : List τ) :
    parser.drainAll (data ++ later) = parser.feed (parser.drainAll data) later := by
  -- By induction on the length of the buffer, along the values it starts with.
  induction size : data.length using Nat.strong_induction_on generalizing data with
  | _ size ih =>
    cases ran : parser data with
    | more => simp [drainAll_of_more ran, feed]
    | panic => simp [drainAll_of_panic ran, drainAll_of_panic (kept.panic ran later), feed]
    | done value used =>
      have positive := takes ran
      obtain ⟨within, final⟩ := kept.done ran
      have rest := ih (data.drop used).length (by rw [List.length_drop]; omega) _ rfl
      rw [drainAll_of_done kept takes ran, drainAll_of_done kept takes (final later),
        List.drop_append_of_le_length within, rest]
      cases left : (parser.drainAll (data.drop used)).2 <;> simp [feed, left]

/-- The values, and what is left, do not depend on how the input is cut. -/
theorem foldl_feed (pieces : List (List τ)) :
    pieces.foldl parser.feed (parser.drainAll []) = parser.drainAll pieces.flatten := by
  induction pieces using List.reverseRecOn with
  | nil => rfl
  | append_singleton pieces piece ih =>
    rw [List.foldl_concat, ih, ← drainAll_append kept takes, List.flatten_concat]

/-- Values whose encodings are read back are taken off a stream of them, one after the other. -/
theorem drainAll_flatMap {encode : α → List τ} {values : List α} (waits : parser [] = .more)
    (reads : ∀ value ∈ values, ∀ rest, parser (encode value ++ rest) = .done value
      (encode value).length) :
    parser.drainAll (values.flatMap encode) = (values, .waiting []) := by
  induction values with
  | nil => exact drainAll_of_more waits
  | cons value values ih =>
    obtain ⟨first, others⟩ := List.forall_mem_cons.mp reads
    rw [List.flatMap_cons, drainAll_of_done kept takes (first _), List.drop_left, ih others]

/-- While such a stream arrives, in any pieces, only its first values have been taken. -/
theorem feed_flatMap {encode : α → List τ} {values : List α} (waits : parser [] = .more)
    (reads : ∀ value ∈ values, ∀ rest, parser (encode value ++ rest) = .done value
      (encode value).length)
    {pieces : List (List τ)} {later : List τ}
    (stream : values.flatMap encode = pieces.flatten ++ later) :
    (pieces.foldl parser.feed (parser.drainAll [])).1 <+: values ∧
      (later = [] → pieces.foldl parser.feed (parser.drainAll []) = (values, .waiting [])) := by
  have all := drainAll_flatMap kept takes waits reads
  rw [foldl_feed kept takes]
  constructor
  · rw [stream, drainAll_append kept takes, feed] at all
    split at all
    · exact ⟨[], by rw [List.append_nil, all]⟩
    · exact ⟨_, congrArg Prod.fst all⟩
  · rintro rfl
    rwa [stream, List.append_nil] at all

end Streams

end Parser

end Kvdb.Data
