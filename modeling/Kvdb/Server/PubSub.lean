import Kvdb.Semantics.Runs
import Mathlib.Data.List.AList

/-!
# Publishing and subscribing

The hub keeps one list of subscribers for each channel in a concurrent map. Each access
to the map is guarded, and calls interleave between two accesses: a list that a call has
found empty is removed only in its next access, when it may no longer be empty.
-/

namespace Kvdb

open Semantics

namespace PubSub

/-- The map of the hub, and the receiving ends that its senders lead to. A client is its
id together with its sender. -/
structure Hub (Client Channel Message : Type) where
  subscribers : AList fun _ : Channel => List Client
  /-- The client has dropped its receiver. -/
  closed : Client → Bool
  inbox : Client → List (Channel × Message)

/-- A call of one of the hub's functions. -/
inductive Call (Client Channel Message : Type) where
  | subscribe (client : Client) (channels : List Channel)
  | unsubscribe (client : Client) (channels : Option (List Channel))
  | publish (channel : Channel) (message : Message)

/-- What a call returns. -/
inductive Result (Channel : Type) where
  | channels (names : List Channel)
  | delivered (count : ℕ)

/-- Where a thread is between two accesses to the map. -/
inductive Task (Client Channel Message : Type) where
  | idle
  | subscribing (client : Client) (channels added : List Channel)
  | unsubscribing (client : Client) (channels removed : List Channel)
  /-- The list was empty and its guard is dropped: `remove` is next. -/
  | emptied (client : Client) (channel : Channel) (channels removed : List Channel)
  /-- In the loop over `iter_mut`, with the channels that it still has to visit. -/
  | sweeping (client : Client) (pending removed : List Channel)
  /-- In `retain`, which drops the empty lists. -/
  | purging (pending removed : List Channel)
  | publishing (channel : Channel) (message : Message)
  /-- Some senders have failed: `get_mut` is next. -/
  | burying (channel : Channel) (dead : List Client) (delivered : ℕ)
  /-- The list was empty and its guard is dropped: `remove` is next. -/
  | buried (channel : Channel) (delivered : ℕ)
  | returned (result : Result Channel)

/-- What a client did, as far as its subscriptions are concerned. -/
inductive Event (Client Channel : Type) where
  | subscribed (client : Client) (channel : Channel)
  | unsubscribed (client : Client) (channel : Channel)
  | closed (client : Client)
deriving DecidableEq

variable {Client Channel Message : Type} [DecidableEq Client] [DecidableEq Channel]

namespace Hub

variable (hub : Hub Client Channel Message)

def listed (channel : Channel) : List Client := (hub.subscribers.lookup channel).getD []

def put (channel : Channel) (entry : List Client) : Hub Client Channel Message :=
  { hub with subscribers := hub.subscribers.insert channel entry }

def remove (channel : Channel) : Hub Client Channel Message :=
  { hub with subscribers := hub.subscribers.erase channel }

/-- Send an event to the subscribers whose receiver is still there. -/
def send (channel : Channel) (message : Message) : Hub Client Channel Message :=
  { hub with
    inbox := fun client =>
      hub.inbox client ++ ((hub.listed channel).filter fun receiver =>
        receiver = client && !hub.closed receiver).map fun _ => (channel, message) }

end Hub

/-- The first access of a call. -/
def Call.start (hub : Hub Client Channel Message) :
    Call Client Channel Message → Task Client Channel Message
  | .subscribe client channels => .subscribing client channels []
  | .unsubscribe client (some channels) => .unsubscribing client channels []
  | .unsubscribe client none => .sweeping client hub.subscribers.keys []
  | .publish channel message => .publishing channel message

/-- The channels that `unsubscribe` returns, once a list went from `before` to `after`. -/
def noteRemoved (removed : List Channel) (channel : Channel) (before after : List Client) :
    List Channel :=
  if after.length < before.length then removed ++ [channel] else removed

/-- One access to the map. The loops over all channels visit them in an order that is
not specified, given by `choice`, and may or may not meet channels that came later. -/
def Task.turn (hub : Hub Client Channel Message) (choice : Option Channel) :
    Task Client Channel Message →
      Option (Hub Client Channel Message × Task Client Channel Message ×
        List (Event Client Channel))
  | .idle | .returned _ => none
  | .subscribing _ [] added => some (hub, .returned (.channels added), [])
  | .subscribing client (channel :: channels) added =>
    let entry := hub.listed channel
    if client ∈ entry then
      some (hub.put channel entry, .subscribing client channels added, [.subscribed client channel])
    else
      some (hub.put channel (entry ++ [client]), .subscribing client channels (added ++ [channel]),
        [.subscribed client channel])
  | .unsubscribing _ [] removed => some (hub, .returned (.channels removed), [])
  | .unsubscribing client (channel :: channels) removed =>
    match hub.subscribers.lookup channel with
    | none => some (hub, .unsubscribing client channels removed, [.unsubscribed client channel])
    | some entry =>
      let kept := entry.filter (· ≠ client)
      let removed := noteRemoved removed channel entry kept
      some (hub.put channel kept,
        if kept.isEmpty then .emptied client channel channels removed
        else .unsubscribing client channels removed,
        [.unsubscribed client channel])
  | .emptied client channel channels removed =>
    some (hub.remove channel, .unsubscribing client channels removed, [])
  | .sweeping client pending removed =>
    match choice with
    | some channel =>
      match hub.subscribers.lookup channel with
      | none => some (hub, .sweeping client (pending.erase channel) removed, [])
      | some entry =>
        let kept := entry.filter (· ≠ client)
        some (hub.put channel kept,
          .sweeping client (pending.erase channel) (noteRemoved removed channel entry kept),
          [.unsubscribed client channel])
    | none =>
      if pending.isEmpty then some (hub, .purging hub.subscribers.keys removed, []) else none
  | .purging pending removed =>
    match choice with
    | some channel =>
      some (if (hub.listed channel).isEmpty then hub.remove channel else hub,
        .purging (pending.erase channel) removed, [])
    | none => if pending.isEmpty then some (hub, .returned (.channels removed), []) else none
  | .publishing channel message =>
    let dead := (hub.listed channel).filter hub.closed
    let delivered := ((hub.listed channel).filter fun client => !hub.closed client).length
    some (hub.send channel message,
      if dead.isEmpty then .returned (.delivered delivered) else .burying channel dead delivered,
        [])
  | .burying channel dead delivered =>
    match hub.subscribers.lookup channel with
    | none => some (hub, .returned (.delivered delivered), [])
    | some entry =>
      let kept := entry.filter (· ∉ dead)
      some (hub.put channel kept,
        if kept.isEmpty then .buried channel delivered else .returned (.delivered delivered), [])
  | .buried channel delivered => some (hub.remove channel, .returned (.delivered delivered), [])

/-- The hub, and the threads that call it. -/
structure System (Thread Client Channel Message : Type) where
  hub : Hub Client Channel Message
  threads : Thread → Task Client Channel Message

inductive Action (Thread Client Channel Message : Type) where
  | call (thread : Thread) (call : Call Client Channel Message)
  /-- A thread makes its next access. -/
  | turn (thread : Thread) (choice : Option Channel)
  /-- A client drops its receiver. -/
  | close (client : Client)

namespace System

variable {Thread : Type} [DecidableEq Thread]

def start : System Thread Client Channel Message where
  hub := ⟨∅, fun _ => false, fun _ => []⟩
  threads _ := .idle

/-- A thread calls the hub when it is not inside a call. -/
def step (system : System Thread Client Channel Message) :
    Action Thread Client Channel Message → System Thread Client Channel Message
  | .call thread call =>
    match system.threads thread with
    | .idle | .returned _ =>
      { system with threads := Function.update system.threads thread (call.start system.hub) }
    | _ => system
  | .turn thread choice =>
    match (system.threads thread).turn system.hub choice with
    | some (hub, task, _) => ⟨hub, Function.update system.threads thread task⟩
    | none => system
  | .close client =>
    { system with hub :=
      { system.hub with closed := Function.update system.hub.closed client true } }

/-- What an action does to the subscriptions. -/
def events (system : System Thread Client Channel Message) :
    Action Thread Client Channel Message → List (Event Client Channel)
  | .call _ _ => []
  | .turn thread choice =>
    match (system.threads thread).turn system.hub choice with
    | some (_, _, events) => events
    | none => []
  | .close client => [.closed client]

end System

/-- Whether a client's last word on a channel was to subscribe. -/
def standing (client : Client) (channel : Channel) (events : List (Event Client Channel)) : Bool :=
  events.foldl (fun standing event =>
    if event = .subscribed client channel then true
    else if event = .unsubscribed client channel then false
    else standing) false

/-- A client has subscribed to a channel, and has since neither unsubscribed from it nor
closed its receiver. -/
def Owed (events : List (Event Client Channel)) (client : Client) (channel : Channel) : Prop :=
  standing client channel events = true ∧ .closed client ∉ events

section Accesses

variable {hub after : Hub Client Channel Message} {task next : Task Client Channel Message}
  {choice : Option Channel} {events : List (Event Client Channel)}

omit [DecidableEq Client] in
@[simp] theorem Hub.listed_put (channel : Channel) (entry : List Client) :
    (hub.put channel entry).listed = Function.update hub.listed channel entry := by
  ext other : 1
  by_cases same : other = channel
  · subst same
    simp [Hub.listed, Hub.put]
  · simp [Hub.listed, Hub.put, AList.lookup_insert_ne same, same]

omit [DecidableEq Client] in
@[simp] theorem Hub.listed_remove (channel : Channel) :
    (hub.remove channel).listed = Function.update hub.listed channel [] := by
  ext other : 1
  by_cases same : other = channel
  · subst same
    simp [Hub.listed, Hub.remove]
  · simp [Hub.listed, Hub.remove, AList.lookup_erase_ne same, same]

/-- A listed client with an open receiver is sent a message once. -/
theorem Hub.inbox_send_of_listed {channel : Channel} {client : Client}
    (distinct : (hub.listed channel).Nodup) (inside : client ∈ hub.listed channel)
    (opened : hub.closed client = false) (message : Message) :
    (hub.send channel message).inbox client = hub.inbox client ++ [(channel, message)] := by
  have alone : ∀ receiver, (decide (receiver = client) && !hub.closed receiver) =
      decide (receiver = client) := by
    intro receiver
    by_cases same : receiver = client <;> simp [same, opened]
  simp only [Hub.send, alone]
  rw [List.filter_eq, List.count_eq_one_of_mem distinct inside]
  rfl

def Task.removes : Task Client Channel Message → Option Channel
  | .emptied _ channel _ _ | .buried channel _ => some channel
  | _ => none

/-- The clients that a thread is about to strike off. -/
def Task.buries : Task Client Channel Message → List Client
  | .burying _ dead _ => dead
  | _ => []

/-- What one access does to the lists, and what it means for the clients. -/
inductive Change (hub : Hub Client Channel Message) (task : Task Client Channel Message) :
    (Channel → List Client) → List (Event Client Channel) → Prop
  | none : Change hub task hub.listed []
  | join (client : Client) (channel : Channel) (entry : List Client)
      (joined : entry = hub.listed channel ∧ client ∈ hub.listed channel ∨
        entry = hub.listed channel ++ [client] ∧ client ∉ hub.listed channel) :
      Change hub task (Function.update hub.listed channel entry) [.subscribed client channel]
  | leave (client : Client) (channel : Channel) :
      Change hub task
        (Function.update hub.listed channel ((hub.listed channel).filter (· ≠ client)))
        [.unsubscribed client channel]
  | bury (channel : Channel) :
      Change hub task
        (Function.update hub.listed channel ((hub.listed channel).filter (· ∉ task.buries))) []
  | remove (channel : Channel) (removes : task.removes = some channel) :
      Change hub task (Function.update hub.listed channel []) []

omit [DecidableEq Client] in
theorem update_filter_of_absent {channel : Channel}
    (absent : hub.subscribers.lookup channel = none) (keep : Client → Bool) :
    Function.update hub.listed channel ((hub.listed channel).filter keep) = hub.listed := by
  have empty : hub.listed channel = [] := by simp [Hub.listed, absent]
  rw [empty, List.filter_nil, ← empty, Function.update_eq_self]

/-- A list is replaced by a part of it. -/
theorem Change.put_leave {channel : Channel} {entry : List Client}
    (found : hub.subscribers.lookup channel = some entry) (client : Client) :
    Change hub task (hub.put channel (entry.filter (· ≠ client))).listed
      [.unsubscribed client channel] := by
  have here : hub.listed channel = entry := by simp [Hub.listed, found]
  rw [Hub.listed_put, ← here]
  exact .leave client channel

/-- Every access is one of these changes; a thread strikes off only clients that have
closed their receivers. -/
theorem Task.change_of_turn (turn : task.turn hub choice = some (after, next, events)) :
    Change hub task after.listed events ∧ after.closed = hub.closed ∧
      ∀ client ∈ next.buries, hub.closed client = true := by
  cases task with
  | idle => cases turn
  | returned result => cases turn
  | subscribing client channels added =>
    cases channels with
    | nil =>
      cases turn
      exact ⟨.none, rfl, by simp [Task.buries]⟩
    | cons channel channels =>
      simp only [Task.turn] at turn
      split_ifs at turn with inside <;> cases turn <;>
        refine ⟨?_, rfl, by simp [Task.buries]⟩ <;> rw [Hub.listed_put]
      · exact .join client channel _ (.inl ⟨rfl, inside⟩)
      · exact .join client channel _ (.inr ⟨rfl, inside⟩)
  | unsubscribing client channels removed =>
    cases channels with
    | nil =>
      cases turn
      exact ⟨.none, rfl, by simp [Task.buries]⟩
    | cons channel channels =>
      simp only [Task.turn] at turn
      split at turn
      · rename_i absent
        cases turn
        refine ⟨?_, rfl, by simp [Task.buries]⟩
        rw [← update_filter_of_absent absent (· ≠ client)]
        exact .leave client channel
      · rename_i entry found
        cases turn
        exact ⟨.put_leave found client, rfl, by split_ifs <;> simp [Task.buries]⟩
  -- Whoever has come since the list was found empty is removed with it.
  | emptied client channel channels removed =>
    cases turn
    refine ⟨?_, rfl, by simp [Task.buries]⟩
    rw [Hub.listed_remove]
    exact .remove channel rfl
  | sweeping client pending removed =>
    cases choice with
    | none =>
      simp only [Task.turn] at turn
      split_ifs at turn
      cases turn
      exact ⟨.none, rfl, by simp [Task.buries]⟩
    | some channel =>
      simp only [Task.turn] at turn
      split at turn
      · cases turn
        exact ⟨.none, rfl, by simp [Task.buries]⟩
      · rename_i entry found
        cases turn
        exact ⟨.put_leave found client, rfl, by simp [Task.buries]⟩
  | purging pending removed =>
    cases choice with
    | none =>
      simp only [Task.turn] at turn
      split_ifs at turn
      cases turn
      exact ⟨.none, rfl, by simp [Task.buries]⟩
    | some channel =>
      cases turn
      refine ⟨?_, by split_ifs <;> rfl, by simp [Task.buries]⟩
      split_ifs with empty
      · -- The list is dropped under the guard under which it was found empty.
        rw [Hub.listed_remove, ← List.isEmpty_iff.mp empty, Function.update_eq_self]
        exact .none
      · exact .none
  | publishing channel message =>
    cases turn
    refine ⟨.none, rfl, fun client dead => ?_⟩
    split_ifs at dead
    · cases dead
    · exact (List.mem_filter.mp dead).2
  | burying channel dead delivered =>
    simp only [Task.turn] at turn
    split at turn
    · cases turn
      exact ⟨.none, rfl, by simp [Task.buries]⟩
    · rename_i entry found
      cases turn
      have here : hub.listed channel = entry := by simp [Hub.listed, found]
      refine ⟨?_, rfl, by split_ifs <;> simp [Task.buries]⟩
      rw [Hub.listed_put, ← here]
      exact .bury channel
  | buried channel delivered =>
    cases turn
    refine ⟨?_, rfl, by simp [Task.buries]⟩
    rw [Hub.listed_remove]
    exact .remove channel rfl

/-- A thread that is about to remove a channel does so in its next access. -/
theorem Task.turn_of_removes {channel : Channel} (removes : task.removes = some channel)
    (hub : Hub Client Channel Message) (choice : Option Channel) :
    ∃ next, task.turn hub choice = some (hub.remove channel, next, []) := by
  cases task <;> cases removes <;> exact ⟨_, rfl⟩

end Accesses

section Subscriptions

variable {hub : Hub Client Channel Message} {task : Task Client Channel Message}
  {lists : Channel → List Client} {events more : List (Event Client Channel)}

theorem standing_concat (client : Client) (channel : Channel) (event : Event Client Channel) :
    standing client channel (events ++ [event]) =
      if event = .subscribed client channel then true
      else if event = .unsubscribed client channel then false
      else standing client channel events :=
  List.foldl_concat ..

/-- Whoever is on a list has subscribed to its channel and not unsubscribed since. -/
theorem Change.standing (change : Change hub task lists more)
    (joined : ∀ client channel, client ∈ hub.listed channel → standing client channel events = true)
    {client : Client} {channel : Channel} (inside : client ∈ lists channel) :
    PubSub.standing client channel (events ++ more) = true := by
  cases change with
  | none => simpa using joined client channel inside
  | join other name entry cases' =>
    rw [standing_concat]
    rw [Function.update_apply] at inside
    grind
  | leave other name =>
    rw [standing_concat]
    rw [Function.update_apply] at inside
    grind
  | bury name =>
    rw [Function.update_apply] at inside
    grind
  | remove name removes =>
    rw [Function.update_apply] at inside
    grind

theorem Change.closed_notMem (change : Change hub task lists more) (client : Client) :
    .closed client ∉ more := by
  cases change <;> simp

theorem Change.nodup (change : Change hub task lists more)
    (distinct : ∀ channel, (hub.listed channel).Nodup) (channel : Channel) :
    (lists channel).Nodup := by
  cases change with
  | none => exact distinct channel
  | join other name entry cases' =>
    rw [Function.update_apply]
    grind
  | leave other name =>
    rw [Function.update_apply]
    grind
  | bury name =>
    rw [Function.update_apply]
    grind
  | remove name removes =>
    rw [Function.update_apply]
    grind

theorem Change.kept (change : Change hub task lists more)
    (kept : ∀ client channel, Owed events client channel → client ∈ hub.listed channel)
    (closed : ∀ client, hub.closed client = true → .closed client ∈ events)
    (dead : ∀ client ∈ task.buries, hub.closed client = true)
    (safe : ∀ channel, task.removes = some channel →
      ∀ client ∈ hub.listed channel, hub.closed client = true)
    {client : Client} {channel : Channel} (owed : Owed (events ++ more) client channel) :
    client ∈ lists channel := by
  cases change with
  | none => exact kept client channel (by simpa using owed)
  | join other name entry cases' =>
    rw [Function.update_apply]
    rw [Owed, standing_concat] at owed
    grind [Owed]
  | leave other name =>
    rw [Function.update_apply]
    rw [Owed, standing_concat] at owed
    grind [Owed]
  | bury name =>
    rw [Function.update_apply]
    grind [Owed]
  | remove name removes =>
    rw [Function.update_apply]
    grind [Owed]

end Subscriptions

namespace System

variable {Thread : Type} [DecidableEq Thread] {system : System Thread Client Channel Message}
  {events : List (Event Client Channel)} {actions : List (Action Thread Client Channel Message)}

/-- The events of some actions, one action after the other. -/
abbrev history (actions : List (Action Thread Client Channel Message)) :
    List (Event Client Channel) :=
  outputs step System.events start actions

/-- What holds between any two accesses. -/
structure Sound (events : List (Event Client Channel))
    (system : System Thread Client Channel Message) : Prop where
  distinct : ∀ channel, (system.hub.listed channel).Nodup
  joined : ∀ client channel, client ∈ system.hub.listed channel →
    standing client channel events = true
  closed : ∀ client, system.hub.closed client = true ↔ .closed client ∈ events
  dead : ∀ thread, ∀ client ∈ (system.threads thread).buries, system.hub.closed client = true

omit [DecidableEq Thread] in
theorem sound_start : Sound [] (start : System Thread Client Channel Message) where
  distinct channel := by simp [start, Hub.listed]
  joined client channel := by simp [start, Hub.listed]
  closed client := by simp [start]
  dead thread := by simp [start, Task.buries]

omit [DecidableEq Thread] [DecidableEq Client] [DecidableEq Channel] in
theorem buries_start (call : Call Client Channel Message) (hub : Hub Client Channel Message) :
    (call.start hub).buries = [] := by
  rcases call with _ | ⟨_, _ | _⟩ | _ <;> rfl

theorem Sound.step (sound : Sound events system) (action : Action Thread Client Channel Message) :
    Sound (events ++ system.events action) (system.step action) := by
  cases action with
  | call thread call =>
    rw [System.events, List.append_nil]
    have dead : ∀ other, ∀ client ∈ (Function.update system.threads thread
        (call.start system.hub) other).buries, system.hub.closed client = true := by
      intro other client inside
      rw [Function.update_apply] at inside
      split_ifs at inside
      · rw [buries_start] at inside
        cases inside
      · exact sound.dead other client inside
    cases here : system.threads thread <;> simp only [System.step, here] <;>
      first
        | exact sound
        | exact ⟨sound.distinct, sound.joined, sound.closed, dead⟩
  | turn thread choice =>
    cases turn : (system.threads thread).turn system.hub choice with
    | none => simpa [System.step, System.events, turn] using sound
    | some result =>
      obtain ⟨hub, task, more⟩ := result
      obtain ⟨change, same, dead⟩ := Task.change_of_turn turn
      simp only [System.step, System.events, turn]
      refine ⟨change.nodup sound.distinct, fun client channel => change.standing sound.joined,
        fun client => ?_, fun other client inside => ?_⟩
      · simp [same, sound.closed, change.closed_notMem client]
      · change client ∈ (Function.update system.threads thread task other).buries at inside
        change hub.closed client = true
        rw [Function.update_apply] at inside
        rw [same]
        split_ifs at inside
        · exact dead client inside
        · exact sound.dead other client inside
  | close client =>
    refine ⟨sound.distinct, fun other channel inside => ?_, fun other => ?_,
      fun thread other inside => ?_⟩
    · simp only [System.events, standing_concat, reduceCtorEq, if_false]
      exact sound.joined other channel inside
    · by_cases same : other = client
      · simp [System.step, System.events, same]
      · simp [System.step, System.events, same, sound.closed]
    · by_cases same : other = client
      · simp [System.step, same]
      · simpa [System.step, same] using sound.dead thread other inside

theorem sound_of_run
    (run : Run step (fun _ _ => True) start actions system) : Sound (history actions) system := by
  refine run.invariant_of_steps (fun actions system => Sound (history actions) system)
    sound_start ?_
  intro actions system action run _ sound
  rw [history, run.outputs_concat]
  exact sound.step action

/-- Every client that is owed the messages of a channel is on its list, and the next
message that is sent there reaches it once. -/
structure Kept (events : List (Event Client Channel))
    (system : System Thread Client Channel Message) : Prop where
  listed : ∀ client channel, Owed events client channel → client ∈ system.hub.listed channel
  delivered : ∀ client channel, Owed events client channel → ∀ thread message choice,
    system.threads thread = .publishing channel message →
      (system.step (.turn thread choice)).hub.inbox client =
        system.hub.inbox client ++ [(channel, message)]

/-- No client with an open receiver is on a list that is about to be removed. -/
def Safe (system : System Thread Client Channel Message) :
    Action Thread Client Channel Message → Prop
  | .turn thread _ => ∀ channel, (system.threads thread).removes = some channel →
    ∀ client ∈ system.hub.listed channel, system.hub.closed client = true
  | .call _ _ | .close _ => True

/-- Who is on the list gets the message. -/
theorem Sound.kept_iff (sound : Sound events system) :
    Kept events system ↔
      ∀ client channel, Owed events client channel → client ∈ system.hub.listed channel := by
  refine ⟨Kept.listed, fun listed => ⟨listed, ?_⟩⟩
  intro client channel owed thread message choice publishing
  have opened : system.hub.closed client = false :=
    Bool.eq_false_iff.mpr fun closed => owed.2 ((sound.closed client).mp closed)
  simp only [System.step, publishing, Task.turn]
  exact Hub.inbox_send_of_listed (sound.distinct channel) (listed _ _ owed) opened message

theorem Sound.kept_step_iff (sound : Sound events system) (kept : Kept events system)
    (action : Action Thread Client Channel Message) :
    Kept (events ++ system.events action) (system.step action) ↔ system.Safe action := by
  rw [(sound.step action).kept_iff]
  cases action with
  | call thread call =>
    rw [System.events, List.append_nil]
    have same : (system.step (.call thread call)).hub = system.hub := by
      cases here : system.threads thread <;> simp [System.step, here]
    simpa [same, Safe] using kept.listed
  | turn thread choice =>
    constructor
    · -- Whoever is on the list is owed its messages, and no longer on the list afterwards.
      intro after channel removes client inside
      by_contra opened
      obtain ⟨next, turn⟩ := Task.turn_of_removes removes system.hub choice
      simp only [System.step, System.events, turn, List.append_nil, Hub.listed_remove] at after
      have owed : Owed events client channel :=
        ⟨sound.joined client channel inside, fun closed =>
          opened ((sound.closed client).mpr closed)⟩
      simpa using after client channel owed
    · intro safe
      cases turn : (system.threads thread).turn system.hub choice with
      | none => simpa [System.step, System.events, turn] using kept.listed
      | some result =>
        obtain ⟨hub, task, more⟩ := result
        obtain ⟨change, -, -⟩ := Task.change_of_turn turn
        simp only [System.step, System.events, turn]
        exact fun client channel => change.kept kept.listed (fun other => (sound.closed other).mp)
          (sound.dead thread) safe
  | close client =>
    refine iff_of_true (fun other channel owed => kept.listed other channel ?_) trivial
    obtain ⟨standing, opened⟩ := owed
    simp only [System.events, standing_concat, reduceCtorEq, if_false, List.mem_append, not_or]
      at standing opened
    exact ⟨standing, opened.1⟩

/-- In every run, every subscription is kept at every moment if no list with an open
receiver on it is removed, and only then. -/
theorem subscriptions_kept_iff (actions : List (Action Thread Client Channel Message)) :
    AtEveryState step (fun actions => Kept (history actions)) start actions ↔
      AtEveryStep step Safe start actions := by
  have run : Run step (fun _ _ => True) start actions (actions.foldl step start) :=
    run_foldl actions fun _ _ => trivial
  refine run.atEveryState_iff (sound_start.kept_iff.mpr ?_) ?_
  · intro client channel owed
    exact absurd owed.1 Bool.false_ne_true
  · intro actions system action run _ kept
    rw [history, run.outputs_concat]
    exact (sound_of_run run).kept_step_iff kept action

/-- Client 8 subscribes after client 7, the last one on the list, has left it and before
the list is removed: it is on no list then, and a message does not reach it. -/
theorem subscription_lost :
    let actions : List (Action (Fin 2) ℕ String String) :=
      [.call 0 (.subscribe 7 ["news"]), .turn 0 none, .turn 0 none,
        .call 0 (.unsubscribe 7 (some ["news"])), .turn 0 none,
        .call 1 (.subscribe 8 ["news"]), .turn 1 none, .turn 1 none,
        .turn 0 none, .call 1 (.publish "news" "hello")]
    Owed (history actions) 8 "news" ∧ (actions.foldl step start).hub.listed "news" = [] ∧
      ((actions ++ [Action.turn 1 none]).foldl step start).hub.inbox 8 = [] := by
  refine ⟨⟨?_, ?_⟩, ?_, ?_⟩ <;> decide

end System

end PubSub

end Kvdb
