import Kvdb.Server.PubSub

/-!
# The table of subscribers

The functions of the hub, when no two of their calls overlap. The lists of the channels then
record who has subscribed and neither unsubscribed since nor been found with a closed
receiver, and each call returns what it has changed.
-/

namespace Kvdb.PubSub

open Semantics

variable {Client Channel Message : Type} [DecidableEq Client] [DecidableEq Channel]

/-- The order in which a loop over the map meets its keys. -/
def Iteration (Channel : Type) : Type :=
  { order : List Channel → List Channel // ∀ keys, (order keys).Perm keys }

namespace Hub

variable (hub : Hub Client Channel Message)

/-- The hub before the first call. -/
def new : Hub Client Channel Message := ⟨∅, fun _ => false, fun _ => []⟩

/-- The loop of `subscribe`, with the channels added so far. -/
def subscribeLoop (hub : Hub Client Channel Message) (client : Client) :
    List Channel → List Channel → Hub Client Channel Message × List Channel
  | [], added => (hub, added)
  | ch :: channels, added =>
    let entry := hub.listed ch
    if client ∈ entry then (hub.put ch entry).subscribeLoop client channels added
    else (hub.put ch (entry ++ [client])).subscribeLoop client channels (added ++ [ch])

def subscribe (client : Client) (channels : List Channel) :
    Hub Client Channel Message × List Channel :=
  hub.subscribeLoop client channels []

/-- The loop of `unsubscribe` over a list of channels, with the channels removed so far. -/
def unsubscribeLoop (hub : Hub Client Channel Message) (client : Client) :
    List Channel → List Channel → Hub Client Channel Message × List Channel
  | [], removed => (hub, removed)
  | ch :: channels, removed =>
    match hub.subscribers.lookup ch with
    | none => hub.unsubscribeLoop client channels removed
    | some entry =>
      let kept := entry.filter (· ≠ client)
      let removed := noteRemoved removed ch entry kept
      let hub := hub.put ch kept
      (if kept.isEmpty then hub.remove ch else hub).unsubscribeLoop client channels removed

def sweepLoop (hub : Hub Client Channel Message) (client : Client) :
    List Channel → List Channel → Hub Client Channel Message × List Channel
  | [], removed => (hub, removed)
  | ch :: channels, removed =>
    match hub.subscribers.lookup ch with
    | none => hub.sweepLoop client channels removed
    | some entry =>
      let kept := entry.filter (· ≠ client)
      (hub.put ch kept).sweepLoop client channels (noteRemoved removed ch entry kept)

/-- `retain` of the lists that are not empty. -/
def retainLoop (hub : Hub Client Channel Message) : List Channel → Hub Client Channel Message
  | [] => hub
  | ch :: channels =>
    (if (hub.listed ch).isEmpty then hub.remove ch else hub).retainLoop channels

def unsubscribe (iteration : Iteration Channel) (client : Client) :
    Option (List Channel) → Hub Client Channel Message × List Channel
  | some list => hub.unsubscribeLoop client list []
  | none =>
    let (swept, removed) := hub.sweepLoop client (iteration.1 hub.subscribers.keys) []
    (swept.retainLoop swept.subscribers.keys, removed)

def publish (channel : Channel) (message : Message) : Hub Client Channel Message × ℕ :=
  let dead := (hub.listed channel).filter hub.closed
  let delivered := ((hub.listed channel).filter fun client => !hub.closed client).length
  let sent := hub.send channel message
  if dead.isEmpty then (sent, delivered)
  else
    match sent.subscribers.lookup channel with
    | none => (sent, delivered)
    | some subs =>
      let kept := subs.filter (· ∉ dead)
      let buried := sent.put channel kept
      (if kept.isEmpty then buried.remove channel else buried, delivered)

/-- In how many channels a client is listed. -/
def subscriptionCount (client : Client) : ℕ :=
  (hub.subscribers.entries.filter fun entry => client ∈ entry.2).length

/-- A client drops its receiver. -/
def close (client : Client) : Hub Client Channel Message :=
  { hub with closed := Function.update hub.closed client true }

end Hub

section Completion

variable {hub after : Hub Client Channel Message} {client : Client}

/-- A call comes to its end with no access of another call in between. -/
inductive Completes : Hub Client Channel Message → Task Client Channel Message →
    Hub Client Channel Message → Result Channel → Prop
  | done {hub : Hub Client Channel Message} {result : Result Channel} :
      Completes hub (.returned result) hub result
  | turn {hub middle after : Hub Client Channel Message} {task next : Task Client Channel Message}
      {events : List (Event Client Channel)} {result : Result Channel} (choice : Option Channel)
      (access : task.turn hub choice = some (middle, next, events))
      (rest : Completes middle next after result) : Completes hub task after result

theorem completes_subscribing (channels added : List Channel) :
    Completes hub (.subscribing client channels added) (hub.subscribeLoop client channels added).1
      (.channels (hub.subscribeLoop client channels added).2) := by
  induction channels generalizing hub added with
  | nil => exact .turn none rfl .done
  | cons ch channels ih =>
    rw [Hub.subscribeLoop]
    split_ifs with inside
    · exact .turn none (if_pos inside) (ih added)
    · exact .turn none (if_neg inside) (ih (added ++ [ch]))

theorem completes_unsubscribing (channels removed : List Channel) :
    Completes hub (.unsubscribing client channels removed)
      (hub.unsubscribeLoop client channels removed).1
      (.channels (hub.unsubscribeLoop client channels removed).2) := by
  induction channels generalizing hub removed with
  | nil => exact .turn none rfl .done
  | cons ch channels ih =>
    rw [Hub.unsubscribeLoop]
    cases found : hub.subscribers.lookup ch with
    | none => exact .turn none (by rw [Task.turn, found]) (ih removed)
    | some entry =>
      have access : (Task.unsubscribing client (ch :: channels) removed).turn hub none =
          some (hub.put ch (entry.filter (· ≠ client)),
            if (entry.filter (· ≠ client)).isEmpty then
              .emptied client ch channels (noteRemoved removed ch entry (entry.filter (· ≠ client)))
            else .unsubscribing client channels
              (noteRemoved removed ch entry (entry.filter (· ≠ client))),
            [.unsubscribed client ch]) := by
        rw [Task.turn, found]
      dsimp only
      split_ifs at access ⊢ with empty
      · exact .turn none access (.turn none rfl (ih _))
      · exact .turn none access (ih _)

/-- The loops over all channels may take them in any order. -/
theorem completes_purging (channels removed : List Channel) :
    Completes hub (.purging channels removed) (hub.retainLoop channels) (.channels removed) := by
  induction channels generalizing hub with
  | nil => exact .turn none rfl .done
  | cons ch channels ih =>
    refine .turn (some ch) rfl ?_
    rw [List.erase_cons_head]
    exact ih

theorem completes_sweeping {pending order : List Channel} (same : order.Perm pending)
    (removed : List Channel) :
    Completes hub (.sweeping client pending removed)
      ((hub.sweepLoop client order removed).1.retainLoop
        (hub.sweepLoop client order removed).1.subscribers.keys)
      (.channels (hub.sweepLoop client order removed).2) := by
  induction order generalizing hub pending removed with
  | nil =>
    obtain rfl := same.nil_eq
    exact .turn none rfl (completes_purging _ removed)
  | cons ch order ih =>
    have rest : order.Perm (pending.erase ch) := by
      rw [← List.erase_cons_head ch order]
      exact same.erase ch
    rw [Hub.sweepLoop]
    cases found : hub.subscribers.lookup ch with
    | none => exact .turn (some ch) (by rw [Task.turn, found]) (ih rest removed)
    | some entry => exact .turn (some ch) (by rw [Task.turn, found]) (ih rest _)

theorem completes_publishing (channel : Channel) (message : Message) :
    Completes hub (.publishing channel message) (hub.publish channel message).1
      (.delivered (hub.publish channel message).2) := by
  rw [Hub.publish]
  dsimp only
  split_ifs with alive
  · refine .turn none rfl ?_
    rw [if_pos alive]
    exact .done
  · -- Some senders have failed: one more access, and a third one if nobody is left.
    refine .turn none rfl ?_
    rw [if_neg alive]
    cases found : (hub.send channel message).subscribers.lookup channel with
    | none => exact .turn none (by rw [Task.turn, found]) .done
    | some subs =>
      refine .turn none (by rw [Task.turn, found]) ?_
      dsimp only
      split_ifs
      · exact .turn none rfl .done
      · exact .done

/-- A call that is not interrupted does what its function does. -/
theorem completes_start (iteration : Iteration Channel) :
    (∀ channels, Completes hub (Call.start hub (.subscribe client channels))
      (hub.subscribe client channels).1 (.channels (hub.subscribe client channels).2)) ∧
    (∀ channels, Completes hub (Call.start hub (.unsubscribe client channels))
      (hub.unsubscribe iteration client channels).1
      (.channels (hub.unsubscribe iteration client channels).2)) ∧
    ∀ channel message, Completes hub (Call.start hub (.publish channel message))
      (hub.publish channel message).1 (.delivered (hub.publish channel message).2) := by
  refine ⟨fun channels => completes_subscribing channels [], fun channels => ?_,
    completes_publishing⟩
  cases channels with
  | none => exact completes_sweeping (iteration.2 _) []
  | some list => exact completes_unsubscribing list []

end Completion

section Calls

variable {hub : Hub Client Channel Message} {client : Client} {channels noted : List Channel}

omit [DecidableEq Channel] in
/-- What `unsubscribe` notes: the channels on whose lists the client was. -/
theorem noteRemoved_eq (removed : List Channel) (channel : Channel) (entry : List Client) :
    noteRemoved removed channel entry (entry.filter (· ≠ client)) =
      if client ∈ entry then removed ++ [channel] else removed := by
  have shorter : (entry.filter (· ≠ client)).length < entry.length ↔ client ∈ entry := by
    rw [List.length_filter_lt_length_iff_exists]
    simp
  simp only [noteRemoved, shorter]

omit [DecidableEq Client] in
/-- Dropping an empty list changes no list. -/
theorem Hub.listed_drop_empty (channel : Channel) :
    (if (hub.listed channel).isEmpty then hub.remove channel else hub).listed = hub.listed := by
  split_ifs with empty
  · rw [Hub.listed_remove, ← List.isEmpty_iff.mp empty, Function.update_eq_self]
  · rfl

/-- A loop over channels edits those of their lists that want it, and notes their channels. -/
structure Hub.Edits (wants : List Client → Prop) (edit : List Client → List Client)
    (hub : Hub Client Channel Message) (channels noted : List Channel)
    (result : Hub Client Channel Message × List Channel) : Prop where
  edited : ∀ channel ∈ channels, wants (hub.listed channel) →
    result.1.listed channel = edit (hub.listed channel)
  kept : ∀ channel, ¬ (channel ∈ channels ∧ wants (hub.listed channel)) →
    result.1.listed channel = hub.listed channel
  returned : ∀ channel, channel ∈ result.2 ↔
    channel ∈ noted ∨ channel ∈ channels ∧ wants (hub.listed channel)
  nodup : noted.Nodup → (∀ channel ∈ noted, ¬ wants (hub.listed channel)) → result.2.Nodup
  closed : result.1.closed = hub.closed
  inbox : result.1.inbox = hub.inbox

section Edits

variable {wants : List Client → Prop} {edit : List Client → List Client}
  {after : Hub Client Channel Message}
  {result : Hub Client Channel Message × List Channel} {channel : Channel}

omit [DecidableEq Client] in
theorem Hub.edits_nil : Hub.Edits wants edit hub [] noted (hub, noted) :=
  ⟨by simp, by simp, by simp, fun distinct _ => distinct, rfl, rfl⟩

omit [DecidableEq Client] in
/-- One round of such a loop. A list that has been edited does not want it again. -/
theorem Hub.Edits.edit_first
    (rest : Hub.Edits wants edit after channels (noted ++ [channel]) result)
    (settled : ∀ l, wants l → ¬ wants (edit l)) (wanted : wants (hub.listed channel))
    (first : after.listed = Function.update hub.listed channel (edit (hub.listed channel)))
    (closed : after.closed = hub.closed) (inbox : after.inbox = hub.inbox) :
    Hub.Edits wants edit hub (channel :: channels) noted result := by
  have here : after.listed channel = edit (hub.listed channel) := by simp [first]
  have there : ∀ other, other ≠ channel → after.listed other = hub.listed other := by
    intro other different
    simp [first, different]
  have done : ¬ wants (after.listed channel) := here ▸ settled _ wanted
  refine ⟨fun other listed wanted' => ?_, fun other unwanted => ?_, fun other => ?_,
    fun distinct unwanted => ?_, rest.closed.trans closed, rest.inbox.trans inbox⟩
  · by_cases same : other = channel
    · rw [same, rest.kept channel fun again => done again.2, here]
    · rw [rest.edited other (List.mem_of_ne_of_mem same listed) (there other same ▸ wanted'),
        there other same]
  · have different : other ≠ channel := by
      rintro rfl
      exact unwanted ⟨by simp, wanted⟩
    rw [rest.kept other, there other different]
    rintro ⟨listed, wanted'⟩
    exact unwanted ⟨by simp [listed], there other different ▸ wanted'⟩
  · rw [rest.returned]
    by_cases same : other = channel
    · simp [same, wanted]
    · simp [same, there other same]
  · refine rest.nodup ?_ ?_
    · rw [List.nodup_append]
      refine ⟨distinct, by simp, ?_⟩
      rintro other listed _ (_ | ⟨_, ⟨⟩⟩) rfl
      exact unwanted _ listed wanted
    · intro other listed
      by_cases same : other = channel
      · exact same ▸ done
      · rw [there other same]
        exact unwanted other (by simpa [same] using listed)

omit [DecidableEq Client] in
theorem Hub.Edits.keep_first (rest : Hub.Edits wants edit after channels noted result)
    (unwanted : ¬ wants (hub.listed channel)) (first : after.listed = hub.listed)
    (closed : after.closed = hub.closed) (inbox : after.inbox = hub.inbox) :
    Hub.Edits wants edit hub (channel :: channels) noted result := by
  obtain ⟨edited, kept, returned, nodup, closed', inbox'⟩ := rest
  rw [first] at edited kept returned nodup
  refine ⟨fun other listed wanted => ?_, fun other => ?_, fun other => ?_, nodup,
    closed'.trans closed,
    inbox'.trans inbox⟩
  · obtain rfl | listed := List.mem_cons.mp listed
    · exact absurd wanted unwanted
    · exact edited other listed wanted
  · intro unwanted'
    exact kept other fun wanted => unwanted' ⟨by simp [wanted.1], wanted.2⟩
  · rw [returned]
    by_cases same : other = channel
    · simp [same, unwanted]
    · simp [same]

end Edits

theorem Hub.edits_subscribeLoop :
    Hub.Edits (client ∉ ·) (· ++ [client]) hub channels noted
      (hub.subscribeLoop client channels noted) := by
  induction channels generalizing hub noted with
  | nil => exact edits_nil
  | cons ch channels ih =>
    rw [subscribeLoop]
    split_ifs with inside
    · exact ih.keep_first (not_not.mpr inside) (by simp) rfl rfl
    · exact ih.edit_first (by simp) inside (by simp) rfl rfl

/-- The round of `unsubscribe` for a channel that has a list. -/
theorem Hub.Edits.unsubscribe_first {after : Hub Client Channel Message} {channel : Channel}
    {entry : List Client} {result : Hub Client Channel Message × List Channel}
    (rest : Hub.Edits (client ∈ ·) (List.filter (· ≠ client)) after channels
      (noteRemoved noted channel entry (entry.filter (· ≠ client))) result)
    (found : hub.subscribers.lookup channel = some entry)
    (first : after.listed = Function.update hub.listed channel (entry.filter (· ≠ client)))
    (closed : after.closed = hub.closed) (inbox : after.inbox = hub.inbox) :
    Hub.Edits (client ∈ ·) (List.filter (· ≠ client)) hub (channel :: channels) noted result := by
  obtain rfl : hub.listed channel = entry := by simp [Hub.listed, found]
  rw [noteRemoved_eq] at rest
  split_ifs at rest with inside
  · exact rest.edit_first (by simp) inside first closed inbox
  · refine rest.keep_first inside ?_ closed inbox
    have same : (hub.listed channel).filter (· ≠ client) = hub.listed channel := by
      rw [List.filter_eq_self]
      intro other listed
      simpa using fun here : other = client => inside (here ▸ listed)
    rw [first, same, Function.update_eq_self]

theorem Hub.edits_unsubscribeLoop :
    Hub.Edits (client ∈ ·) (List.filter (· ≠ client)) hub channels noted
      (hub.unsubscribeLoop client channels noted) := by
  induction channels generalizing hub noted with
  | nil => exact edits_nil
  | cons ch channels ih =>
    rw [unsubscribeLoop]
    cases found : hub.subscribers.lookup ch with
    | none => exact ih.keep_first (by simp [Hub.listed, found]) rfl rfl rfl
    | some entry =>
      refine ih.unsubscribe_first found ?_ ?_ ?_
      · have dropped := @Hub.listed_drop_empty _ _ _ _ (hub.put ch (entry.filter (· ≠ client))) ch
        simpa using dropped
      · split_ifs <;> rfl
      · split_ifs <;> rfl

theorem Hub.edits_sweepLoop :
    Hub.Edits (client ∈ ·) (List.filter (· ≠ client)) hub channels noted
      (hub.sweepLoop client channels noted) := by
  induction channels generalizing hub noted with
  | nil => exact edits_nil
  | cons ch channels ih =>
    rw [sweepLoop]
    cases found : hub.subscribers.lookup ch with
    | none => exact ih.keep_first (by simp [Hub.listed, found]) rfl rfl rfl
    | some entry => exact ih.unsubscribe_first found (by simp) rfl rfl

omit [DecidableEq Client] in
/-- `retain` changes no list. -/
theorem Hub.retainLoop_same : (hub.retainLoop channels).listed = hub.listed ∧
    (hub.retainLoop channels).closed = hub.closed ∧ (hub.retainLoop channels).inbox =
      hub.inbox := by
  induction channels generalizing hub with
  | nil => exact ⟨rfl, rfl, rfl⟩
  | cons ch channels ih =>
    rw [retainLoop]
    obtain ⟨listed, closed, inbox⟩ := @ih (if (hub.listed ch).isEmpty then hub.remove ch else hub)
    refine ⟨listed.trans (Hub.listed_drop_empty ch), closed.trans ?_, inbox.trans ?_⟩
    · split_ifs <;> rfl
    · split_ifs <;> rfl

omit [DecidableEq Client] in
/-- Whoever is listed is listed in the map. -/
theorem Hub.mem_keys_of_listed {channel : Channel} (inside : client ∈ hub.listed channel) :
    channel ∈ hub.subscribers.keys := by
  rw [← AList.mem_keys, ← AList.lookup_isSome]
  cases found : hub.subscribers.lookup channel with
  | none => simp [Hub.listed, found] at inside
  | some entry => rfl

theorem Hub.edits_unsubscribe (iteration : Iteration Channel) (names : Option (List Channel)) :
    Hub.Edits (client ∈ ·) (List.filter (· ≠ client)) hub
      (names.getD hub.subscribers.keys) [] (hub.unsubscribe iteration client names) := by
  cases names with
  | some list => exact edits_unsubscribeLoop
  | none =>
    have order := iteration.2 hub.subscribers.keys
    obtain ⟨edited, kept, returned, nodup, closed, inbox⟩ :=
      @edits_sweepLoop _ _ _ _ _ hub client (iteration.1 hub.subscribers.keys) []
    simp only [order.mem_iff] at edited kept returned
    obtain ⟨listed', closed', inbox'⟩ := @retainLoop_same _ _ _ _
      (hub.sweepLoop client (iteration.1 hub.subscribers.keys) []).1
      (hub.sweepLoop client (iteration.1 hub.subscribers.keys) []).1.subscribers.keys
    exact ⟨fun channel listed wanted => (congrFun listed' channel).trans
      (edited channel listed wanted),
      fun channel unwanted => (congrFun listed' channel).trans (kept channel unwanted),
        returned, nodup,
      closed'.trans closed, inbox'.trans inbox⟩

/-- A message goes to the open receivers, and the clients with closed ones leave the list. -/
theorem Hub.listed_publish (channel : Channel) (message : Message) :
    (hub.publish channel message).1.listed =
      Function.update hub.listed channel
        ((hub.listed channel).filter fun other => !hub.closed other) := by
  have sent : (hub.send channel message).listed = hub.listed := rfl
  rw [publish]
  dsimp only
  split_ifs with alive
  · have same : (hub.listed channel).filter (fun other => !hub.closed other) =
        hub.listed channel := by
      rw [List.filter_eq_self]
      intro other listed
      rw [List.isEmpty_iff, List.filter_eq_nil_iff] at alive
      simpa using alive other listed
    rw [same, Function.update_eq_self, sent]
  · cases found : hub.subscribers.lookup channel with
    | none =>
      have none : hub.listed channel = [] := by simp [Hub.listed, found]
      simp [none] at alive
    | some subs =>
      have here : hub.listed channel = subs := by simp [Hub.listed, found]
      have buried : subs.filter (fun other => other ∉ (hub.listed channel).filter hub.closed) =
          (hub.listed channel).filter fun other => !hub.closed other := by
        rw [here]
        refine List.filter_congr fun other listed => ?_
        cases closed : hub.closed other <;> simp [listed, closed]
      have stored : (hub.send channel message).subscribers.lookup channel = some subs := found
      rw [stored]
      dsimp only
      rw [buried]
      have dropped := @Hub.listed_drop_empty _ _ _ _ ((hub.send channel message).put channel
        ((hub.listed channel).filter fun other => !hub.closed other)) channel
      simpa [sent] using dropped

theorem Hub.inbox_publish (channel : Channel) (message : Message) :
    (hub.publish channel message).1.inbox = (hub.send channel message).inbox ∧
      (hub.publish channel message).1.closed = hub.closed := by
  rw [publish]
  dsimp only
  split_ifs with alive
  · exact ⟨rfl, rfl⟩
  · cases (hub.send channel message).subscribers.lookup channel with
    | none => exact ⟨rfl, rfl⟩
    | some subs =>
      dsimp only
      split_ifs <;> exact ⟨rfl, rfl⟩

theorem Hub.delivered_publish (channel : Channel) (message : Message) :
    (hub.publish channel message).2 =
      ((hub.listed channel).filter fun other => !hub.closed other).length := by
  rw [publish]
  dsimp only
  split_ifs with alive
  · rfl
  · cases (hub.send channel message).subscribers.lookup channel <;> rfl

omit [DecidableEq Client] in
theorem Hub.mem_listed_iff {channel : Channel} :
    client ∈ hub.listed channel ↔ ∃ entry, ⟨channel, entry⟩ ∈ hub.subscribers.entries ∧
      client ∈ entry := by
  simp only [← AList.mem_lookup_iff, Option.mem_def, Hub.listed]
  cases hub.subscribers.lookup channel <;> simp

/-- The channels are counted in the map, where each of them has one list. -/
theorem Hub.subscriptionCount_eq (client : Client) :
    hub.subscriptionCount client = {channel | client ∈ hub.listed channel}.ncard := by
  have names : {channel | client ∈ hub.listed channel} =
      ((hub.subscribers.entries.filter fun entry => client ∈ entry.2).map Sigma.fst).toFinset := by
    ext channel
    simp [Hub.mem_listed_iff]
  have distinct :
      ((hub.subscribers.entries.filter fun entry => client ∈ entry.2).map Sigma.fst).Nodup :=
    hub.subscribers.nodupKeys.sublist List.filter_sublist
  rw [names, Set.ncard_coe_finset, List.toFinset_card_of_nodup distinct, List.length_map,
    subscriptionCount]

end Calls

section Histories

/-- What can happen to the hub. -/
inductive Operation (Client Channel Message : Type) where
  | subscribe (client : Client) (channels : List Channel)
  | unsubscribe (iteration : Iteration Channel) (client : Client) (channels : Option (List Channel))
  | close (client : Client)
  | publish (channel : Channel) (message : Message)

variable {operations : List (Operation Client Channel Message)} {hub : Hub Client Channel Message}
  {client : Client} {channel : Channel}

def Hub.step (hub : Hub Client Channel Message) :
    Operation Client Channel Message → Hub Client Channel Message
  | .subscribe client channels => (hub.subscribe client channels).1
  | .unsubscribe iteration client channels => (hub.unsubscribe iteration client channels).1
  | .close client => hub.close client
  | .publish channel message => (hub.publish channel message).1

namespace Operation

def Subscribes (client : Client) (channel : Channel) : Operation Client Channel Message → Prop
  | .subscribe other channels => other = client ∧ channel ∈ channels
  | _ => False

/-- From the channel, or from all channels. -/
def Unsubscribes (client : Client) (channel : Channel) : Operation Client Channel Message → Prop
  | .unsubscribe _ other channels => other = client ∧ ∀ list ∈ channels, channel ∈ list
  | _ => False

/-- The client has closed its receiver, and a message to the channel cannot be delivered. -/
def Prunes (client : Client) (channel : Channel) (past : List (Operation Client Channel Message)) :
    Operation Client Channel Message → Prop
  | .publish other _ => other = channel ∧ .close client ∈ past
  | _ => False

end Operation

/-- The client has subscribed to the channel after its last unsubscription from it, and has
not been pruned since. -/
def Subscribed (client : Client) (channel : Channel)
    (operations : List (Operation Client Channel Message)) : Prop :=
  Since (fun _ operation => operation.Subscribes client channel)
    (fun past operation => operation.Unsubscribes client channel ∨
      operation.Prunes client channel past)
    operations

omit [DecidableEq Client] [DecidableEq Channel] in
theorem subscribed_concat (operation : Operation Client Channel Message) :
    Subscribed client channel (operations ++ [operation]) ↔ operation.Subscribes client channel ∨
      Subscribed client channel operations ∧ ¬ operation.Unsubscribes client channel ∧
        ¬ operation.Prunes client channel operations := by
  rw [Subscribed, since_concat, not_or]
  rfl

/-- A call returns the channels whose lists it has changed, each once. -/
def ReturnsChanged (hub : Hub Client Channel Message)
    (result : Hub Client Channel Message × List Channel) : Prop :=
  result.2.Nodup ∧ ∀ channel, channel ∈ result.2 ↔ result.1.listed channel ≠ hub.listed channel

/-- A message is enqueued once for each listed client with an open receiver, these are
counted, and exactly the listed clients with closed ones are struck off. -/
structure Published (hub : Hub Client Channel Message) (channel : Channel) (message : Message)
    (result : Hub Client Channel Message × ℕ) : Prop where
  enqueued : ∀ client, client ∈ hub.listed channel → hub.closed client = false →
    result.1.inbox client = hub.inbox client ++ [(channel, message)]
  others : ∀ client, ¬ (client ∈ hub.listed channel ∧ hub.closed client = false) →
    result.1.inbox client = hub.inbox client
  delivered : result.2 = {client | client ∈ hub.listed channel ∧ hub.closed client = false}.ncard
  pruned : ∀ client other, client ∈ result.1.listed other ↔
    client ∈ hub.listed other ∧ ¬ (other = channel ∧ hub.closed client = true)

/-- What holds between two calls: the table is consistent with the operations so far, and
every call that may come next tells what it does. -/
structure Consistent (operations : List (Operation Client Channel Message))
    (hub : Hub Client Channel Message) : Prop where
  once : ∀ channel, (hub.listed channel).Nodup
  listed_iff : ∀ client channel, client ∈ hub.listed channel ↔ Subscribed client channel operations
  count : ∀ client, hub.subscriptionCount client = {channel | client ∈ hub.listed channel}.ncard
  subscribe : ∀ client channels, ReturnsChanged hub (hub.subscribe client channels)
  unsubscribe : ∀ iteration client channels,
    ReturnsChanged hub (hub.unsubscribe iteration client channels)
  publish : ∀ channel message, Published hub channel message (hub.publish channel message)

omit [DecidableEq Client] in
theorem Hub.Edits.returnsChanged {wants : List Client → Prop} {edit : List Client → List Client}
    {channels : List Channel} {result : Hub Client Channel Message × List Channel}
    (edits : Hub.Edits wants edit hub channels [] result) (alters : ∀ l, wants l → edit l ≠ l) :
    ReturnsChanged hub result := by
  refine ⟨edits.nodup List.nodup_nil (by simp), fun channel => ?_⟩
  rw [edits.returned]
  constructor
  · rintro (none | ⟨inside, wanted⟩)
    · cases none
    · rw [edits.edited channel inside wanted]
      exact alters _ wanted
  · intro changed
    by_contra unwanted
    exact changed (edits.kept channel fun wanted => unwanted (.inr wanted))

theorem Hub.mem_subscribe (channels : List Channel) (other : Client) :
    other ∈ (hub.subscribe client channels).1.listed channel ↔
      other ∈ hub.listed channel ∨ other = client ∧ channel ∈ channels := by
  have edits := @edits_subscribeLoop _ _ _ _ _ hub client channels []
  by_cases wanted : channel ∈ channels ∧ client ∉ hub.listed channel
  · rw [subscribe, edits.edited channel wanted.1 wanted.2]
    simp [wanted.1]
  · rw [subscribe, edits.kept channel wanted]
    refine ⟨.inl, ?_⟩
    rintro (inside | ⟨rfl, named⟩)
    · exact inside
    · by_contra outside
      exact wanted ⟨named, outside⟩

theorem Hub.mem_unsubscribe (iteration : Iteration Channel) (channels : Option (List Channel))
    (other : Client) :
    other ∈ (hub.unsubscribe iteration client channels).1.listed channel ↔
      other ∈ hub.listed channel ∧ ¬ (other = client ∧ ∀ list ∈ channels, channel ∈ list) := by
  have edits := @edits_unsubscribe _ _ _ _ _ hub client iteration channels
  by_cases wanted : channel ∈ channels.getD hub.subscribers.keys ∧ client ∈ hub.listed channel
  · rw [edits.edited channel wanted.1 wanted.2]
    have named : ∀ list ∈ channels, channel ∈ list := by
      rintro list rfl
      exact wanted.1
    rw [List.mem_filter, decide_eq_true_iff, and_iff_left named]
  · rw [edits.kept channel wanted]
    refine ⟨fun inside => ⟨inside, ?_⟩, And.left⟩
    rintro ⟨rfl, named⟩
    refine wanted ⟨?_, inside⟩
    cases channels with
    | none => exact mem_keys_of_listed inside
    | some list => exact named list rfl

theorem Hub.mem_publish (other : Channel) (message : Message) :
    client ∈ (hub.publish channel message).1.listed other ↔
      client ∈ hub.listed other ∧ ¬ (other = channel ∧ hub.closed client = true) := by
  rw [listed_publish, Function.update_apply]
  split_ifs with same
  · simp [same]
  · simp [same]

/-- What the operations so far determine. -/
structure Recorded (operations : List (Operation Client Channel Message))
    (hub : Hub Client Channel Message) : Prop where
  once : ∀ channel, (hub.listed channel).Nodup
  listed_iff : ∀ client channel, client ∈ hub.listed channel ↔ Subscribed client channel operations
  closed_iff : ∀ client, hub.closed client = true ↔ .close client ∈ operations

omit [DecidableEq Client] in
theorem recorded_new : Recorded [] (Hub.new : Hub Client Channel Message) where
  once channel := by simp [Hub.new, Hub.listed]
  listed_iff client channel := by
    have none : client ∉ (Hub.new : Hub Client Channel Message).listed channel := by
      simp [Hub.new, Hub.listed]
    exact iff_of_false none not_since_nil
  closed_iff client := by simp [Hub.new]

theorem Recorded.step (recorded : Recorded operations hub)
    (operation : Operation Client Channel Message) :
    Recorded (operations ++ [operation]) (hub.step operation) := by
  obtain ⟨once, listed_iff, closed_iff⟩ := recorded
  cases operation with
  | subscribe client channels =>
    have edits := @Hub.edits_subscribeLoop _ _ _ _ _ hub client channels []
    refine ⟨fun channel => ?_, fun other channel => ?_, fun other => ?_⟩
    · by_cases wanted : channel ∈ channels ∧ client ∉ hub.listed channel
      · rw [Hub.step, Hub.subscribe, edits.edited channel wanted.1 wanted.2,
          ← List.concat_eq_append]
        exact (once channel).concat wanted.2
      · rw [Hub.step, Hub.subscribe, edits.kept channel wanted]
        exact once channel
    · rw [Hub.step, Hub.mem_subscribe, listed_iff, subscribed_concat]
      simp [Operation.Subscribes, Operation.Unsubscribes, Operation.Prunes, or_comm, eq_comm]
    · rw [Hub.step, Hub.subscribe, edits.closed, closed_iff]
      simp
  | unsubscribe iteration client channels =>
    have edits := @Hub.edits_unsubscribe _ _ _ _ _ hub client iteration channels
    refine ⟨fun channel => ?_, fun other channel => ?_, fun other => ?_⟩
    · by_cases wanted : channel ∈ channels.getD hub.subscribers.keys ∧ client ∈ hub.listed channel
      · rw [Hub.step, edits.edited channel wanted.1 wanted.2]
        exact (once channel).filter _
      · rw [Hub.step, edits.kept channel wanted]
        exact once channel
    · rw [Hub.step, Hub.mem_unsubscribe, listed_iff, subscribed_concat]
      simp [Operation.Subscribes, Operation.Unsubscribes, Operation.Prunes, eq_comm]
    · rw [Hub.step, edits.closed, closed_iff]
      simp
  | close client =>
    refine ⟨once, fun other channel => ?_, fun other => ?_⟩
    · rw [subscribed_concat, ← listed_iff]
      simp [Operation.Subscribes, Operation.Unsubscribes, Operation.Prunes, Hub.step,
        Hub.close, Hub.listed]
    · by_cases same : other = client
      · simp [Hub.step, Hub.close, same]
      · simp [Hub.step, Hub.close, same, closed_iff]
  | publish channel message =>
    refine ⟨fun other => ?_, fun client other => ?_, fun client => ?_⟩
    · rw [Hub.step, Hub.listed_publish, Function.update_apply]
      split_ifs
      · exact (once channel).filter _
      · exact once other
    · rw [Hub.step, Hub.mem_publish, listed_iff, subscribed_concat, closed_iff]
      simp [Operation.Subscribes, Operation.Unsubscribes, Operation.Prunes, eq_comm]
    · rw [Hub.step, (Hub.inbox_publish channel message).2, closed_iff]
      simp

/-- After every operation the records are right. -/
theorem recorded_foldl (operations : List (Operation Client Channel Message)) :
    Recorded operations (operations.foldl Hub.step Hub.new) := by
  induction operations using List.reverseRecOn with
  | nil => exact recorded_new
  | append_singleton operations operation ih =>
    rw [List.foldl_concat]
    exact ih.step operation

theorem Recorded.published (recorded : Recorded operations hub) (channel : Channel)
    (message : Message) :
    Published hub channel message (hub.publish channel message) := by
  have sent := (@Hub.inbox_publish _ _ _ _ _ hub channel message).1
  refine ⟨fun client listed opened => ?_, fun client other => ?_, ?_,
    fun client other => Hub.mem_publish other message⟩
  · rw [sent, Hub.inbox_send_of_listed (recorded.once channel) listed opened]
  · have nobody : (hub.listed channel).filter (fun receiver =>
        receiver = client && !hub.closed receiver) = [] := by
      rw [List.filter_eq_nil_iff]
      intro receiver listed
      simp only [Bool.and_eq_true, decide_eq_true_eq, Bool.not_eq_true']
      rintro ⟨rfl, opened⟩
      exact other ⟨listed, opened⟩
    simp [sent, Hub.send, nobody]
  · have open_clients : {client | client ∈ hub.listed channel ∧ hub.closed client = false} =
        ((hub.listed channel).filter fun client => !hub.closed client).toFinset := by
      ext client
      simp
    rw [Hub.delivered_publish, open_clients, Set.ncard_coe_finset,
      List.toFinset_card_of_nodup ((recorded.once channel).filter _)]

/-- In every run of calls, one after the other, the table of subscribers is consistent. -/
theorem subscribers_consistent (operations : List (Operation Client Channel Message)) :
    Consistent operations (operations.foldl Hub.step Hub.new) := by
  have recorded := recorded_foldl operations
  refine ⟨recorded.once, recorded.listed_iff, Hub.subscriptionCount_eq, fun client channels => ?_,
    fun iteration client channels => ?_, recorded.published⟩
  · exact Hub.edits_subscribeLoop.returnsChanged (by simp)
  · refine (Hub.edits_unsubscribe iteration channels).returnsChanged fun l inside same => ?_
    have gone : client ∉ l.filter (· ≠ client) := by simp
    exact gone (same.symm ▸ inside)

end Histories

end Kvdb.PubSub
