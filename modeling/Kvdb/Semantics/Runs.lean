import Mathlib.Tactic

/-!
# Runs of a deterministic system

A run takes one step after another from a start state, each of them permitted
in the state where it is taken. What holds at the start and survives every
permitted step holds wherever a run leads. The outputs of a run are those of its
steps, each in the state it meets.
-/

namespace Kvdb.Semantics

variable {σ ι : Type}

inductive Run (step : σ → ι → σ) (permitted : σ → ι → Prop) (start : σ) : List ι → σ → Prop
  | refl : Run step permitted start [] start
  | next {steps : List ι} {state : σ} {input : ι} (run : Run step permitted start steps state)
      (allowed : permitted state input) :
      Run step permitted start (steps ++ [input]) (step state input)

variable {step : σ → ι → σ} {permitted : σ → ι → Prop} {start state : σ} {steps : List ι}

/-- The invariant rule. -/
theorem Run.invariant {holds : σ → Prop} (run : Run step permitted start steps state)
    (initial : holds start)
    (preserved : ∀ state input, permitted state input → holds state → holds (step state input)) :
    holds state := by
  induction run with
  | refl => exact initial
  | next _ allowed ih => exact preserved _ _ allowed ih

/-- The invariant rule with the steps taken so far. -/
theorem Run.invariant_of_steps (run : Run step permitted start steps state)
    (holds : List ι → σ → Prop) (initial : holds [] start)
    (preserved : ∀ steps state input, Run step permitted start steps state →
      permitted state input → holds steps state → holds (steps ++ [input]) (step state input)) :
    holds steps state := by
  induction run with
  | refl => exact initial
  | next run allowed ih => exact preserved _ _ _ run allowed ih

/-- The invariant rule with a measure of the steps taken so far. -/
theorem Run.invariant_of_cost (run : Run step permitted start steps state) (cost : ι → ℕ)
    (holds : ℕ → σ → Prop) (initial : holds 0 start)
    (preserved : ∀ total state input, permitted state input → holds total state →
      holds (total + cost input) (step state input)) :
    holds (steps.map cost).sum state := by
  refine run.invariant_of_steps (fun steps => holds (steps.map cost).sum) initial ?_
  intro steps state input _ allowed held
  simpa using preserved _ _ _ allowed held

theorem Run.trans {middle : σ} {further : List ι} (run : Run step permitted start steps middle)
    (rest : Run step permitted middle further state) :
    Run step permitted start (steps ++ further) state := by
  induction rest with
  | refl => simpa using run
  | next _ allowed ih =>
    rw [← List.append_assoc]
    exact ih.next allowed

theorem Run.imp {allows : σ → ι → Prop} (run : Run step permitted start steps state)
    (weaker : ∀ state input, permitted state input → allows state input) :
    Run step allows start steps state := by
  induction run with
  | refl => exact .refl
  | next _ allowed ih => exact ih.next (weaker _ _ allowed)

theorem Run.single {input : ι} (allowed : permitted start input) :
    Run step permitted start [input] (step start input) :=
  .next .refl allowed

/-- A run leads to where its steps lead. -/
theorem Run.eq_foldl (run : Run step permitted start steps state) :
    state = steps.foldl step start := by
  induction run with
  | refl => rfl
  | next _ _ ih => simp [← ih]

section Moments

variable {holds : List ι → σ → Prop} {safe : σ → ι → Prop}

/-- A property of the steps taken so far and of the state they led to, at every moment. -/
def AtEveryState (step : σ → ι → σ) (holds : List ι → σ → Prop) (start : σ) (steps : List ι) :
    Prop :=
  ∀ n ≤ steps.length, holds (steps.take n) ((steps.take n).foldl step start)

/-- A condition on every step in the state where it is taken. -/
def AtEveryStep (step : σ → ι → σ) (safe : σ → ι → Prop) (start : σ) (steps : List ι) : Prop :=
  ∀ n input, steps[n]? = some input → safe ((steps.take n).foldl step start) input

theorem atEveryState_nil : AtEveryState step holds start [] ↔ holds [] start := by
  simp [AtEveryState]

theorem atEveryState_concat (input : ι) :
    AtEveryState step holds start (steps ++ [input]) ↔
      AtEveryState step holds start steps ∧
        holds (steps ++ [input]) ((steps ++ [input]).foldl step start) := by
  constructor
  · intro always
    refine ⟨fun n within => ?_, ?_⟩
    · have before := always n (within.trans (by simp))
      rwa [List.take_append_of_le_length within] at before
    · have last := always (steps ++ [input]).length le_rfl
      rwa [List.take_length] at last
  · rintro ⟨always, last⟩ n within
    rcases Nat.lt_or_ge steps.length n with beyond | before
    · rwa [List.take_of_length_le (by simp; omega)]
    · rw [List.take_append_of_le_length before]
      exact always n before

theorem atEveryStep_concat (input : ι) :
    AtEveryStep step safe start (steps ++ [input]) ↔
      AtEveryStep step safe start steps ∧ safe (steps.foldl step start) input := by
  constructor
  · intro always
    refine ⟨fun n other found => ?_, ?_⟩
    · have before := (List.getElem?_eq_some_iff.mp found).1
      have now := always n other (by rwa [List.getElem?_append_left before])
      rwa [List.take_append_of_le_length before.le] at now
    · simpa using always steps.length input (by simp)
  · rintro ⟨always, last⟩ n other found
    rcases Nat.lt_or_ge n steps.length with before | beyond
    · rw [List.take_append_of_le_length before.le]
      exact always n other (by rwa [List.getElem?_append_left before] at found)
    · rw [List.getElem?_append_right beyond, List.getElem?_singleton] at found
      split_ifs at found with here
      cases found
      obtain rfl : n = steps.length := by omega
      simpa using last

/-- Every step of a run is permitted. -/
theorem Run.atEveryStep (run : Run step permitted start steps state) :
    AtEveryStep step permitted start steps := by
  induction run with
  | refl => simp [AtEveryStep]
  | next run allowed ih => exact (atEveryStep_concat _).mpr ⟨ih, run.eq_foldl ▸ allowed⟩

/-- A run with another condition on its steps. -/
theorem Run.and (run : Run step permitted start steps state)
    (always : AtEveryStep step safe start steps) :
    Run step (fun state input => permitted state input ∧ safe state input) start steps state := by
  induction run with
  | refl => exact .refl
  | next run allowed ih =>
    obtain ⟨before, last⟩ := (atEveryStep_concat _).mp always
    exact (ih before).next ⟨allowed, run.eq_foldl ▸ last⟩

/-- A property that a step keeps exactly if it is safe holds at every moment exactly if
every step is safe. -/
theorem Run.atEveryState_iff (run : Run step permitted start steps state) (initial : holds [] start)
    (kept_iff : ∀ steps state input, Run step permitted start steps state → permitted state input →
      holds steps state → (holds (steps ++ [input]) (step state input) ↔ safe state input)) :
    AtEveryState step holds start steps ↔ AtEveryStep step safe start steps := by
  induction run with
  | refl => simp [atEveryState_nil, AtEveryStep, initial]
  | @next steps state input run allowed ih =>
    rw [atEveryState_concat, atEveryStep_concat, ih, List.foldl_concat, ← run.eq_foldl]
    refine and_congr_right fun always => kept_iff steps state input run allowed ?_
    have last := ih.mpr always steps.length le_rfl
    rwa [List.take_length, ← run.eq_foldl] at last

end Moments

section Since

variable {does undoes : List ι → ι → Prop}

/-- Some step did the one thing, and no later step the other. A step is judged with the steps
before it. -/
def Since (does undoes : List ι → ι → Prop) (steps : List ι) : Prop :=
  ∃ n input, steps[n]? = some input ∧ does (steps.take n) input ∧
    ∀ m later, n < m → steps[m]? = some later → ¬ undoes (steps.take m) later

theorem not_since_nil : ¬ Since does undoes [] := by
  rintro ⟨n, input, found, -⟩
  simp at found

theorem since_concat (input : ι) :
    Since does undoes (steps ++ [input]) ↔
      does steps input ∨ Since does undoes steps ∧ ¬ undoes steps input := by
  constructor
  · rintro ⟨n, done, found, did, undone⟩
    rcases Nat.lt_or_ge n steps.length with before | beyond
    · right
      rw [List.take_append_of_le_length before.le] at did
      rw [List.getElem?_append_left before] at found
      refine ⟨⟨n, done, found, did, fun m later after there => ?_⟩, ?_⟩
      · have inside := (List.getElem?_eq_some_iff.mp there).1
        have kept := undone m later after (by rwa [List.getElem?_append_left inside])
        rwa [List.take_append_of_le_length inside.le] at kept
      · simpa using undone steps.length input before (by simp)
    · left
      rw [List.getElem?_append_right beyond, List.getElem?_singleton] at found
      split_ifs at found with here
      cases found
      obtain rfl : n = steps.length := by omega
      simpa using did
  · rintro (did | ⟨⟨n, done, found, did, undone⟩, kept⟩)
    · refine ⟨steps.length, input, by simp, by simpa using did, fun m later after there => ?_⟩
      have inside := (List.getElem?_eq_some_iff.mp there).1
      simp at inside
      omega
    · have before := (List.getElem?_eq_some_iff.mp found).1
      refine ⟨n, done, by rwa [List.getElem?_append_left before], ?_, fun m later after there => ?_⟩
      · rwa [List.take_append_of_le_length before.le]
      · rcases Nat.lt_or_ge m steps.length with inside | beyond
        · rw [List.take_append_of_le_length inside.le]
          exact undone m later after (by rwa [List.getElem?_append_left inside] at there)
        · rw [List.getElem?_append_right beyond, List.getElem?_singleton] at there
          split_ifs at there with here
          cases there
          obtain rfl : m = steps.length := by omega
          simpa using kept

end Since

section Outputs

variable {β : Type}

/-- What the steps put out, one after the other. -/
def outputs (step : σ → ι → σ) (output : σ → ι → List β) : σ → List ι → List β
  | _, [] => []
  | state, input :: steps => output state input ++ outputs step output (step state input) steps

theorem outputs_append (output : σ → ι → List β) (start : σ) (first second : List ι) :
    outputs step output start (first ++ second) =
      outputs step output start first ++ outputs step output (first.foldl step start) second := by
  induction first generalizing start with
  | nil => rfl
  | cons input first ih => simp [outputs, ih]

/-- Steps that are permitted one after the other are a run. -/
theorem run_foldl (steps : List ι)
    (allowed : ∀ n (inside : n < steps.length),
      permitted ((steps.take n).foldl step start) (steps.get ⟨n, inside⟩)) :
    Run step permitted start steps (steps.foldl step start) := by
  induction steps using List.reverseRecOn with
  | nil => exact .refl
  | append_singleton steps input ih =>
    rw [List.foldl_concat]
    refine .next (ih fun n inside => ?_) ?_
    · have within : n < (steps ++ [input]).length := by simp; omega
      simpa [List.take_append_of_le_length inside.le, inside] using allowed n within
    · simpa using allowed steps.length (by simp)

/-- The last part of a run starts where the first part leads. -/
theorem Run.split {first second : List ι} (run : Run step permitted start (first ++ second) state) :
    Run step permitted (first.foldl step start) second state := by
  rw [run.eq_foldl, List.foldl_append]
  refine run_foldl second fun n inside => ?_
  have allowed := run.atEveryStep (first.length + n) (second.get ⟨n, inside⟩) (by
    rw [List.getElem?_append_right (by omega), Nat.add_sub_cancel_left]
    exact List.getElem?_eq_getElem inside)
  rwa [List.take_length_add_append, List.foldl_append] at allowed

/-- The last step of a run puts out what it does in the state it meets. -/
theorem Run.outputs_concat (run : Run step permitted start steps state) (output : σ → ι → List β)
    (input : ι) :
    outputs step output start (steps ++ [input]) =
      outputs step output start steps ++ output state input := by
  rw [outputs_append, ← run.eq_foldl]
  simp [outputs]

end Outputs

end Kvdb.Semantics
