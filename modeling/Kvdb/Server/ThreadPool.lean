import Kvdb.Command.Table
import Kvdb.Semantics.Runs

/-!
# The thread pool

Commands run on a fixed number of workers that share the receiving end of one channel
behind a mutex. The guard made by `while let Ok(job) = rx.lock().unwrap().recv()` lives
until the end of the loop's body, so a worker holds the mutex while it waits for a job
and while it runs one: jobs run one at a time, in the order in which they were sent. A
job that panics ends its worker and poisons the mutex, and `unwrap` then ends every
worker that takes it.
-/

namespace Kvdb

open Data Semantics

inductive Worker (Job : Type) where
  /-- At `rx.lock()`. -/
  | locking
  /-- At `recv()`, with the guard. -/
  | receiving
  /-- In the loop's body, still with the guard. -/
  | running (job : Job)
  /-- After the loop. -/
  | ended
  | panicked
deriving DecidableEq

/-- The workers, the channel, the mutex around its receiver, and what the jobs work on. -/
structure ThreadPool (size : ℕ) (Job σ : Type) where
  workers : Fin size → Worker Job
  queue : List Job
  poisoned : Bool
  /-- Every sender has been dropped. -/
  closed : Bool
  store : σ

namespace Worker

variable {Job : Type}

/-- The guard is alive. -/
def holds : Worker Job → Bool
  | .receiving | .running _ => true
  | .locking | .ended | .panicked => false

/-- The thread is over, and has dropped its share of the receiver. -/
def isGone : Worker Job → Bool
  | .ended | .panicked => true
  | .locking | .receiving | .running _ => false

end Worker

namespace ThreadPool

variable {size : ℕ} {Job σ : Type}

def new (size : ℕ) (store : σ) : ThreadPool size Job σ where
  workers _ := .locking
  queue := []
  poisoned := false
  closed := false
  store := store

def setWorker (pool : ThreadPool size Job σ) (i : Fin size) (worker : Worker Job) :
    ThreadPool size Job σ :=
  { pool with workers := Function.update pool.workers i worker }

/-- Send a job. Once the last worker is gone so is the receiver, and `expect` panics in
the caller. -/
def spawn (pool : ThreadPool size Job σ) (job : Job) : Option (ThreadPool size Job σ) :=
  if ∀ i, (pool.workers i).isGone then none else some { pool with queue := pool.queue ++ [job] }

/-- A worker that could still run a job that is sent now. -/
def able (pool : ThreadPool size Job σ) (i : Fin size) : Bool :=
  match pool.workers i with
  | .locking => !pool.poisoned
  | .receiving | .running _ => true
  | .ended | .panicked => false

/-- Jobs are pending or can still be sent, and no worker is able to run them. -/
def Stuck (pool : ThreadPool size Job σ) : Prop :=
  (pool.queue ≠ [] ∨ pool.closed = false) ∧ ∀ i, pool.able i = false

/-- What can happen to a pool. -/
inductive Action (size : ℕ) (Job : Type) where
  | spawn (job : Job)
  /-- The last sender is dropped. -/
  | close
  /-- A worker takes its next step. -/
  | turn (worker : Fin size)

def Action.job? : Action size Job → Option Job
  | .spawn job => some job
  | .close | .turn _ => none

/-- A job is sent through a sender. -/
def Permits (pool : ThreadPool size Job σ) (action : Action size Job) : Prop :=
  action.job?.isSome → pool.closed = false

section Steps

variable (panics : Job → σ → Bool) (perform : Job → σ → σ)

/-- The next step of a worker, unless it is blocked or gone. -/
def turn (pool : ThreadPool size Job σ) (i : Fin size) : Option (ThreadPool size Job σ) :=
  match pool.workers i with
  | .locking =>
    if ∃ j, (pool.workers j).holds then none
    else some (pool.setWorker i (if pool.poisoned then .panicked else .receiving))
  | .receiving =>
    match pool.queue with
    | job :: queue => some { pool.setWorker i (.running job) with queue }
    | [] => if pool.closed then some (pool.setWorker i .ended) else none
  | .running job =>
    let after := { pool with store := perform job pool.store }
    -- Unwinding drops the guard, and that poisons the mutex.
    if panics job pool.store then some { after.setWorker i .panicked with poisoned := true }
    else some (after.setWorker i .locking)
  | .ended | .panicked => none

def step (pool : ThreadPool size Job σ) : Action size Job → ThreadPool size Job σ
  | .spawn job => (pool.spawn job).getD pool
  | .close => { pool with closed := true }
  | .turn i => (pool.turn panics perform i).getD pool

abbrev Reaches (start : σ) : List (Action size Job) → ThreadPool size Job σ → Prop :=
  Run (step panics perform) Permits (new size start)

/-- What jobs that run one after the other leave. -/
def performAll : σ → List Job → σ :=
  List.foldl fun store job => perform job store

/-- None of the jobs panics when they run one after the other. -/
def Returning : σ → List Job → Prop
  | _, [] => True
  | store, job :: jobs => panics job store = false ∧ Returning (perform job store) jobs

end Steps

section Order

variable {panics : Job → σ → Bool} {perform : Job → σ → σ} {start : σ} {sent done : List Job}
  {pool : ThreadPool size Job σ} {i j : Fin size} {worker : Worker Job}

theorem workers_setWorker (j : Fin size) :
    (pool.setWorker i worker).workers j = if j = i then worker else pool.workers j :=
  Function.update_apply _ _ _ _

theorem returning_append (first second : List Job) :
    Returning panics perform start (first ++ second) ↔
      Returning panics perform start first ∧
        Returning panics perform (performAll perform start first) second := by
  induction first generalizing start with
  | nil => simp [Returning, performAll]
  | cons job first ih => simp [Returning, performAll, ih, and_assoc]

/-- The jobs that were sent are those that have returned, the one that a worker has in
hand, and those that wait. -/
structure Serial (perform : Job → σ → σ) (start : σ) (sent : List Job)
    (pool : ThreadPool size Job σ) : Prop where
  unpoisoned : pool.poisoned = false
  alive : ∀ i, pool.workers i ≠ .panicked
  ended : ∀ i, pool.workers i = .ended → pool.closed = true ∧ pool.queue = []
  /-- The mutex has one holder. -/
  exclusive : ∀ i j, (pool.workers i).holds → (pool.workers j).holds → i = j
  order : ∃ done inHand, pool.store = performAll perform start done ∧
    sent = done ++ inHand ++ pool.queue ∧
    (∀ i job, pool.workers i = .running job → inHand = [job]) ∧
    (inHand ≠ [] → ∃ i job, pool.workers i = .running job)

theorem serial_new : Serial perform start [] (new size start : ThreadPool size Job σ) where
  unpoisoned := rfl
  alive := by simp [new]
  ended := by simp [new]
  exclusive := by simp [new, Worker.holds]
  order := ⟨[], [], rfl, rfl, by simp [new], by simp⟩

/-- While nothing panics and jobs can be sent, every worker can run them. -/
theorem Serial.able (serial : Serial perform start sent pool)
    (wanted : pool.queue ≠ [] ∨ pool.closed = false) (i : Fin size) : pool.able i = true := by
  cases here : pool.workers i with
  | locking => simp [ThreadPool.able, here, serial.unpoisoned]
  | receiving => simp [ThreadPool.able, here]
  | running job => simp [ThreadPool.able, here]
  | ended =>
    obtain ⟨closed, drained⟩ := serial.ended i here
    simp [closed, drained] at wanted
  | panicked => exact absurd here (serial.alive i)

theorem Serial.spawn (serial : Serial perform start sent pool) (i : Fin size) (job : Job)
    (opened : pool.closed = false) :
    Serial perform start (sent ++ [job]) ((pool.spawn job).getD pool) := by
  have present : ¬ ∀ i, (pool.workers i).isGone := by
    intro gone
    have able := serial.able (.inr opened) i
    have left := gone i
    cases here : pool.workers i <;> simp_all [ThreadPool.able, Worker.isGone]
  rw [ThreadPool.spawn, if_neg present]
  obtain ⟨done, inHand, stored, split, one, some⟩ := serial.order
  refine ⟨serial.unpoisoned, serial.alive, fun i finished => ?_, serial.exclusive,
    done, inHand, stored, ?_, one, some⟩
  · exact absurd (serial.ended i finished).1 (by simp [opened])
  · simp [split]

/-- A worker whose place does not change which jobs are in hand. -/
theorem Serial.setWorker (serial : Serial perform start sent pool)
    (before : ∀ job, pool.workers i ≠ .running job) (after : ∀ job, worker ≠ .running job)
    (alive : worker ≠ .panicked) (ended : worker = .ended → pool.closed = true ∧ pool.queue = [])
    (exclusive : worker.holds → ∀ j, (pool.workers j).holds → i = j) :
    Serial perform start sent (pool.setWorker i worker) := by
  obtain ⟨done, inHand, stored, split, one, some⟩ := serial.order
  have running : ∀ j job,
      (pool.setWorker i worker).workers j = .running job ↔ pool.workers j = .running job := by
    intro j job
    rw [workers_setWorker]
    split_ifs with same
    · subst same
      simp [before job, after job]
    · rfl
  refine ⟨serial.unpoisoned, fun j => ?_, fun j finished => ?_, fun j k first second => ?_,
    done, inHand, stored, split, fun j job working => one j job ((running j job).mp working),
    fun any => ?_⟩
  · rw [workers_setWorker]
    split_ifs
    exacts [alive, serial.alive j]
  · rw [workers_setWorker] at finished
    split_ifs at finished
    exacts [ended finished, serial.ended j finished]
  · rw [workers_setWorker] at first second
    split_ifs at first second with here there there
    · rw [here, there]
    · rw [here, exclusive first k second]
    · rw [there, exclusive second j first]
    · exact serial.exclusive j k first second
  · obtain ⟨j, job, working⟩ := some any
    exact ⟨j, job, (running j job).mpr working⟩

/-- The holder of the mutex takes the next job. -/
theorem Serial.receive {job : Job} {queue : List Job} (serial : Serial perform start sent pool)
    (here : pool.workers i = .receiving) (next : pool.queue = job :: queue) :
    Serial perform start sent { pool.setWorker i (.running job) with queue } := by
  have alone : ∀ j, (pool.workers j).holds → j = i := fun j holds =>
    serial.exclusive j i holds (by rw [here]; rfl)
  obtain ⟨done, inHand, stored, split, -, some⟩ := serial.order
  -- Nobody is running a job, since that takes the mutex.
  have idle : inHand = [] := by
    by_contra any
    obtain ⟨j, other, working⟩ := some any
    rw [alone j (by rw [working]; rfl), here] at working
    cases working
  refine ⟨serial.unpoisoned, fun j => ?_, fun j finished => ?_, fun j k first second => ?_,
    done, [job], stored, ?_, fun j other working => ?_, fun _ => ⟨i, job, ?_⟩⟩
  · rw [workers_setWorker]
    split_ifs
    exacts [by simp, serial.alive j]
  · rw [workers_setWorker] at finished
    split_ifs at finished
    exact absurd (serial.ended j finished).2 (by simp [next])
  · rw [workers_setWorker] at first second
    have at_i : ∀ j, (if j = i then Worker.running job else pool.workers j).holds → j = i := by
      intro j holds
      split_ifs at holds with same
      exacts [same, alone j holds]
    rw [at_i j first, at_i k second]
  · simp [split, idle, next]
  · rw [workers_setWorker] at working
    split_ifs at working with same
    · cases working
      rfl
    · exact absurd (alone j (by rw [working]; rfl)) same
  · rw [workers_setWorker, if_pos rfl]

/-- A job returns, and its worker drops the guard. -/
theorem Serial.finish {job : Job} (serial : Serial perform start sent pool)
    (here : pool.workers i = .running job) :
    Serial perform start sent
      ({ pool with store := perform job pool.store }.setWorker i .locking) := by
  have alone : ∀ j, (pool.workers j).holds → j = i := fun j holds =>
    serial.exclusive j i holds (by rw [here]; rfl)
  obtain ⟨done, inHand, stored, split, one, -⟩ := serial.order
  have idle : ∀ j, ((({ pool with store := perform job pool.store } :
      ThreadPool size Job σ).setWorker i .locking).workers j).holds = false := by
    intro j
    rw [workers_setWorker]
    split_ifs with same
    · rfl
    · exact Bool.eq_false_iff.mpr fun holds => same (alone j holds)
  refine ⟨serial.unpoisoned, fun j => ?_, fun j finished => ?_, fun j k first => ?_,
    done ++ [job], [], ?_, ?_, fun j other working => ?_, fun any => absurd rfl any⟩
  · rw [workers_setWorker]
    split_ifs
    exacts [by simp, serial.alive j]
  · rw [workers_setWorker] at finished
    split_ifs at finished
    exact serial.ended j finished
  · exact absurd first (by rw [idle]; simp)
  · simp [ThreadPool.setWorker, performAll, stored]
  · rw [split, one i job here]
    simp [ThreadPool.setWorker]
  · have holds := idle j
    rw [working] at holds
    cases holds

/-- A job that is running does not panic if none of the jobs does in this order. -/
theorem Serial.not_panics {job : Job} (serial : Serial perform start sent pool)
    (here : pool.workers i = .running job) (returning : Returning panics perform start sent) :
    panics job pool.store = false := by
  obtain ⟨done, inHand, stored, split, one, -⟩ := serial.order
  rw [split, one i job here, List.append_assoc, returning_append] at returning
  rw [stored]
  exact returning.2.1

theorem Serial.turn (serial : Serial perform start sent pool)
    (returning : Returning panics perform start sent) (i : Fin size) :
    Serial perform start sent ((pool.turn panics perform i).getD pool) := by
  cases here : pool.workers i with
  | locking =>
    by_cases taken : ∃ j, (pool.workers j).holds
    · simpa [ThreadPool.turn, here, taken] using serial
    · simp only [ThreadPool.turn, here, taken, serial.unpoisoned, if_false, Bool.false_eq_true,
        Option.getD_some]
      refine serial.setWorker ?_ ?_ ?_ ?_ fun _ j holds => absurd ⟨j, holds⟩ taken <;> simp [here]
  | receiving =>
    cases waiting : pool.queue with
    | nil =>
      by_cases closed : pool.closed = true
      · simp only [ThreadPool.turn, here, waiting, closed, if_true, Option.getD_some]
        refine serial.setWorker ?_ ?_ ?_ ?_ ?_ <;> simp [here, waiting, closed, Worker.holds]
      · simpa [ThreadPool.turn, here, waiting, closed] using serial
    | cons job queue =>
      simp only [ThreadPool.turn, here, waiting, Option.getD_some]
      exact serial.receive here waiting
  | running job =>
    simp only [ThreadPool.turn, here, serial.not_panics here returning, if_false,
      Bool.false_eq_true, Option.getD_some]
    exact serial.finish here
  | ended => simpa [ThreadPool.turn, here] using serial
  | panicked => exact absurd here (serial.alive i)

/-- In a run whose jobs all return, they run one at a time and in order. -/
theorem serial_of_reaches {actions : List (Action size Job)} (populated : 0 < size)
    (reaches : Reaches panics perform start actions pool)
    (returning : Returning panics perform start (actions.filterMap Action.job?)) :
    Serial perform start (actions.filterMap Action.job?) pool := by
  refine reaches.invariant_of_steps (fun actions pool =>
    Returning panics perform start (actions.filterMap Action.job?) →
      Serial perform start (actions.filterMap Action.job?) pool)
    (fun _ => serial_new) ?_ returning
  intro actions pool action _ permitted serial returning
  rw [List.filterMap_append] at returning ⊢
  have serial := serial ((returning_append _ _).mp returning).1
  cases action with
  | spawn job => exact serial.spawn ⟨0, populated⟩ job (permitted rfl)
  | close =>
    simp only [List.filterMap_cons, Action.job?, List.filterMap_nil, List.append_nil]
    exact ⟨serial.unpoisoned, serial.alive, fun i finished => ⟨rfl, (serial.ended i finished).2⟩,
      serial.exclusive, serial.order⟩
  | turn i =>
    simp only [List.filterMap_cons, Action.job?, List.filterMap_nil, List.append_nil] at returning ⊢
    exact serial.turn returning i

end Order

section Poisoning

variable {panics : Job → σ → Bool} {perform : Job → σ → σ} {start : σ}

/-- A pool where jobs wait and nobody holds the mutex. -/
def idle (size : ℕ) (store : σ) (queue : List Job) : ThreadPool size Job σ :=
  { new size store with queue }

theorem reaches_idle (i : Fin size) (jobs : List Job) :
    Reaches panics perform start (jobs.map .spawn) (idle size start jobs) := by
  induction jobs using List.reverseRecOn with
  | nil => exact .refl
  | append_singleton jobs job ih =>
    have present : ¬ ∀ j, ((idle size start jobs).workers j).isGone := fun gone =>
      Bool.noConfusion (gone i)
    have sent : idle size start (jobs ++ [job]) =
        step panics perform (idle size start jobs) (.spawn job) := by
      rw [step, spawn, if_neg present]
      rfl
    rw [List.map_append, sent]
    exact ih.next fun _ => rfl

/-- A worker's job has panicked while nobody else held the mutex. -/
def poison (size : ℕ) (store : σ) (queue : List Job) (i : Fin size) : ThreadPool size Job σ :=
  { (idle size store queue).setWorker i .panicked with poisoned := true }

/-- A panic leaves no worker that could run a job. -/
theorem stuck_poison (store : σ) (queue : List Job) (i : Fin size) :
    (poison size store queue i).Stuck := by
  refine ⟨.inr rfl, fun j => ?_⟩
  rw [able, poison, workers_setWorker]
  split_ifs <;> rfl

/-- In three steps, one worker takes the mutex, then a job, and runs it. -/
theorem run_three_turns (panics : Job → σ → Bool) (perform : Job → σ → σ) (i : Fin size)
    (store : σ) (job : Job) (queue : List Job) :
    Run (step panics perform) Permits (idle size store (job :: queue)) [.turn i, .turn i, .turn i]
      (if panics job store then poison size (perform job store) queue i
      else idle size (perform job store) queue) := by
  have quiet : ∀ pool : ThreadPool size Job σ, pool.Permits (.turn i) := fun _ sends =>
    Bool.noConfusion sends
  have turns : Run (step panics perform) Permits (idle size store (job :: queue))
      [.turn i, .turn i, .turn i]
      ([Action.turn i, .turn i, .turn i].foldl (step panics perform)
        (idle size store (job :: queue))) :=
    .next (.next (.next .refl (quiet _)) (quiet _)) (quiet _)
  convert turns using 1
  have free : ¬ (Worker.locking : Worker Job).holds := Bool.noConfusion
  by_cases panicking : panics job store <;>
    simp [step, turn, poison, idle, new, setWorker, free, panicking]

/-- Wherever one of the jobs panics, a worker gets as far as that job. -/
theorem exists_stuck_of_idle (i : Fin size) (store : σ) (queue : List Job)
    (panicking : ¬ Returning panics perform store queue) :
    ∃ actions pool, Run (step panics perform) Permits (idle size store queue) actions pool ∧
      actions.filterMap Action.job? = [] ∧ pool.Stuck := by
  induction queue generalizing store with
  | nil => exact absurd trivial panicking
  | cons job queue ih =>
    have turns := run_three_turns panics perform i store job queue
    by_cases panicked : panics job store
    · rw [if_pos panicked] at turns
      exact ⟨_, _, turns, rfl, stuck_poison _ _ _⟩
    · rw [if_neg panicked] at turns
      obtain ⟨actions, pool, run, silent, stuck⟩ := ih (perform job store) fun returning =>
        panicking ⟨Bool.eq_false_iff.mpr panicked, returning⟩
      exact ⟨_, pool, turns.trans run, by simpa [Action.job?] using silent, stuck⟩

/-- A pool never is without a worker for its jobs if none of them panics when they run one
after the other, and only then: wherever a job panics, some run with the same jobs ends
with the mutex poisoned and no worker left. -/
theorem survives_iff (panics : Job → σ → Bool) (perform : Job → σ → σ) (start : σ)
    (jobs : List Job) (populated : 0 < size) :
    (∀ (actions : List (Action size Job)) (pool : ThreadPool size Job σ),
      Reaches panics perform start actions pool → actions.filterMap Action.job? = jobs →
        ¬ pool.Stuck) ↔
      Returning panics perform start jobs := by
  constructor
  · intro survives
    by_contra panicking
    obtain ⟨actions, pool, run, silent, stuck⟩ :=
      exists_stuck_of_idle ⟨0, populated⟩ start jobs panicking
    refine survives _ pool ((reaches_idle ⟨0, populated⟩ jobs).trans run) ?_ stuck
    simp [silent, List.filterMap_map, Function.comp_def, Action.job?]
  · rintro returning actions pool reaches rfl ⟨wanted, unable⟩
    have serial := serial_of_reaches populated reaches returning
    have able := serial.able wanted ⟨0, populated⟩
    rw [unable] at able
    cases able

end Poisoning

end ThreadPool

section Commands

variable (ctx : CommandContext)

/-- A command that panics in its worker. -/
def Request.panics (request : Request) (store : Store) : Bool :=
  request.reply ctx store matches .error .panic

/-- Two workers and two commands that return. -/
theorem survives_set_get :
    let jobs : List Request :=
      [⟨.set, [ascii "k", ascii "v"], .plain 1⟩, ⟨.get, [ascii "k"], .plain 1⟩]
    ∀ (actions : List (ThreadPool.Action 2 Request)) (pool : ThreadPool 2 Request Store),
      ThreadPool.Reaches (Request.panics .plain) (fun request store => request.after .plain store)
        .empty actions pool → actions.filterMap ThreadPool.Action.job? = jobs → ¬ pool.Stuck := by
  intro jobs
  refine (ThreadPool.survives_iff _ _ _ jobs Nat.two_pos).mpr ⟨?_, ?_, trivial⟩
  · decide
  · decide

/-- One connection's `HSCAN` panics on the size of its page, and nobody is left to run
another connection's `GET`. -/
theorem panic_leaves_no_worker :
    let field : Request := ⟨.hset, [ascii "h", ascii "f", ascii "v"], .plain 1⟩
    let scan : Request :=
      ⟨.hscan, [ascii "h", ascii "0", ascii "COUNT", ascii "9223372036854775807"], .plain 1⟩
    let get : Request := ⟨.get, [ascii "k"], .plain 1⟩
    ∃ pool : ThreadPool 2 Request Store,
      ThreadPool.Reaches (Request.panics .plain) (fun request store => request.after .plain store)
        .empty
        [.spawn field, .spawn scan, .spawn get, .turn 0, .turn 0, .turn 0, .turn 1,
          .turn 1, .turn 1]
        pool ∧ pool.queue = [get] ∧ pool.Stuck := by
  intro field scan get
  have first := ThreadPool.run_three_turns (Request.panics .plain)
    (fun request store => request.after .plain store) (0 : Fin 2) .empty field [scan, get]
  rw [if_neg (by decide)] at first
  have second := ThreadPool.run_three_turns (Request.panics .plain)
    (fun request store => request.after .plain store) (1 : Fin 2) (field.after .plain .empty)
    scan [get]
  rw [if_pos (by decide)] at second
  exact ⟨_, ((ThreadPool.reaches_idle 0 [field, scan, get]).trans first).trans second, rfl,
    ThreadPool.stuck_poison _ _ _⟩

end Commands

end Kvdb
