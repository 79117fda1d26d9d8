import Kvdb.Command.Observation
import Kvdb.Command.Replies

/-!
# Readers

What a command reads is gone through once, for one reader and for two. One reader
may meet any store: the program makes no write, reports errors on one line and
returns what is accepted. Two readers are compared: they have the same elements
before them, or find the same record, and then their programs end in the same way.
The rules of the two are the same, so a command is shown to view its keys without
saying by whom.
-/

namespace Kvdb

open Data Semantics

variable {ctx : CommandContext} {key : Bytes} {α β ρ : Type}

section Observers

/-- Who runs a program: one reader of any store, or two that are compared. -/
inductive Observer where
  | single
  | pair (env env' : Env) (store store' : Store)

namespace Observer

/-- What two readers have in common. It asks nothing of one reader. -/
def Shares (common : Env → Env → Store → Store → Prop) : Observer → Prop
  | single => True
  | pair env env' store store' => common env env' store store'

variable (observer : Observer)

/-- The elements of a version are the same to both. -/
def Sees (ctx : CommandContext) (key : Bytes) (version : UInt64) : Prop :=
  observer.Shares fun _ _ store store' => SameElements ctx key version store store'

def Finds (type : DataType) (ctx : CommandContext) (key : Bytes) : Prop :=
  observer.Shares fun env env' store store' => AlikeAs type ctx key env env' store store'

/-- A key is looked up with the same result, at the same time. -/
def LooksUp (ctx : CommandContext) (key : Bytes) : Prop :=
  observer.Shares fun env env' store store' =>
    env' = env ∧ ctx.lookupMeta store' key = ctx.lookupMeta store key

/-- Both read at the same time, in stores that differ in metadata at most. -/
def Aligned : Prop :=
  observer.Shares fun env env' store store' => env' = env ∧ SameBeyondMetadata store store'

/-- A record of the type whose elements are the same to both. -/
def Opens (type : DataType) (ctx : CommandContext) (key : Bytes) (meta' : Metadata) : Prop :=
  meta'.OfType type ∧ observer.Sees ctx key meta'.version

/-- The record of a stream whose entries are the same to both. -/
def OpensStream (ctx : CommandContext) (key : Bytes) (meta' : Cmd.StreamMeta) : Prop :=
  dataTypeFromFlags meta'.flags = some .stream ∧ observer.Sees ctx key meta'.version

variable {observer} {common common' : Env → Env → Store → Store → Prop}

theorem Shares.imp (shares : observer.Shares common)
    (weaker : ∀ env env' store store', common env env' store store' →
      common' env env' store store') :
    observer.Shares common' := by
  cases observer with
  | single => trivial
  | pair env env' store store' => exact weaker env env' store store' shares

theorem shares_single : single.Shares common := trivial

theorem aligned_single : single.Aligned := trivial

theorem Aligned.sees (aligned : observer.Aligned) (ctx : CommandContext) (key : Bytes)
    (version : UInt64) : observer.Sees ctx key version :=
  Shares.imp aligned fun _ _ _ _ both => both.2.elements key version

theorem Aligned.clock (aligned : observer.Aligned) :
    observer.Shares fun env env' _ _ => env' = env :=
  Shares.imp aligned fun _ _ _ _ both => both.1

theorem LooksUp.clock (looks : observer.LooksUp ctx key) :
    observer.Shares fun env env' _ _ => env' = env :=
  Shares.imp looks fun _ _ _ _ both => both.1

/-- The entries behind a prefix are the same to both. The prefix is not empty. -/
def SeesBehind (observer : Observer) (cf : ColumnFamily) (pre : Bytes) : Prop :=
  observer.Shares fun _ _ store store' => pre ≠ [] ∧ store'.behind cf pre = store.behind cf pre

theorem Sees.behind {version : UInt64} (sees : observer.Sees ctx key version) {cf : ColumnFamily}
    (element : cf ≠ .metadata) : observer.SeesBehind cf (ctx.subKey key version []) :=
  Shares.imp sees fun _ _ _ _ same =>
    ⟨ctx.subKey_ne_nil key version [], SameElements.behind same element⟩

end Observer

end Observers

section Rules

variable {observer : Observer} {accept : α → Prop} {accepts : β → Prop} {program : Prog α}
  {rest : α → Prog β}

/-- The program returns what is accepted: to one reader without a write and with
errors on one line, to two readers the same. -/
def Views (observer : Observer) (accept : α → Prop) (program : Prog α) : Prop :=
  match observer with
  | .single => Answers accept program
  | .pair env env' store store' =>
    Program.AlikeWith accept env.handle env'.handle store store' program

/-- The program is viewed, whatever it returns. -/
abbrev Viewed (observer : Observer) (program : Prog α) : Prop :=
  Views observer (fun _ => True) program

theorem Views.same {env env' : Env} {store store' : Store}
    (views : Views (.pair env env' store store') accept program) :
    Same env env' store store' program :=
  Program.AlikeWith.alike views

theorem Same.viewed {env env' : Env} {store store' : Store}
    (same : Same env env' store store' program) : Viewed (.pair env env' store store') program :=
  Program.Alike.alikeWith same fun _ _ => trivial

theorem Views.answers (views : Views .single accept program) : Answers accept program := views

theorem Views.reads (views : Views .single accept program) : Reads accept program :=
  Answers.reads views

theorem Views.readOnly (views : Views .single accept program) : ReadOnly program :=
  views.reads.readOnly

/-- What one reader accepts of any store, and two readers have in common. -/
theorem Answers.views (answers : Answers accept program) (same : observer.Shares
    fun env env' store store' => Same env env' store store' program) :
    Views observer accept program := by
  cases observer with
  | single => exact answers
  | pair env env' store store' =>
    exact Program.Alike.alikeWith same fun _ ran => answers.reads.run_value ran

theorem views_pure {value : α} (accepted : accept value) : Views observer accept (pure value) := by
  refine (answers_pure accepted).views ?_
  cases observer with
  | single => trivial
  | pair => exact same_pure value

theorem viewed_pure (value : α) : Viewed observer (pure value) := views_pure trivial

theorem views_fail {fault : Fault} (line : fault.OnLine) :
    Views observer accept (.fail fault : Prog α) := by
  refine (answers_fail line).views ?_
  cases observer with
  | single => trivial
  | pair => exact same_fail fault

theorem views_raise {cause : KvdbError} (line : (Fault.error cause).OnLine) :
    Views observer accept (raise cause : Prog α) := views_fail line

theorem views_command {text : String} {chars : List Char} (same : text = String.ofList chars)
    (absent : '\r' ∉ chars) : Views observer accept (raise (.command text) : Prog α) :=
  views_raise (onLine_command (plain_of_chars same absent))

theorem views_protocol {text : String} {chars : List Char} (same : text = String.ofList chars)
    (absent : '\r' ∉ chars) : Views observer accept (raise (.protocol text) : Prog α) :=
  views_raise (onLine_protocol (plain_of_chars same absent))

theorem views_wrongArgCount {name : String} {chars : List Char} (same : name = String.ofList chars)
    (absent : '\r' ∉ chars) : Views observer accept (raise (.wrongArgCount name) : Prog α) :=
  views_raise (onLine_wrongArgCount (plain_of_chars same absent))

theorem views_notInteger : Views observer accept (raise .notInteger : Prog α) :=
  views_raise (onLine_of_plain (plain_of_chars rfl (by decide)))

/-- The value of a result is known to be its value. -/
theorem views_ofExcept {result : Except Fault α}
    (lines : ∀ fault, result = .error fault → fault.OnLine) :
    Views observer (fun value => result = .ok value) (.ofExcept result : Prog α) := by
  cases result with
  | error fault => exact views_fail (lines fault rfl)
  | ok value => exact views_pure rfl

theorem Views.bind (first : Views observer accept program)
    (next : ∀ value, accept value → Views observer accepts (rest value)) :
    Views observer accepts (program >>= rest) := by
  cases observer with
  | single => exact Answers.bind first next
  | pair => exact Program.AlikeWith.bind first next

theorem Views.mono {weaker : α → Prop} (views : Views observer accept program)
    (implied : ∀ value, accept value → weaker value) : Views observer weaker program := by
  rw [← bind_pure program]
  exact views.bind fun value known => views_pure (implied value known)

theorem Views.viewed (views : Views observer accept program) : Viewed observer program :=
  views.mono fun _ _ => trivial

theorem viewed_ofExcept {result : Except Fault α}
    (lines : ∀ fault, result = .error fault → fault.OnLine) :
    Viewed observer (.ofExcept result : Prog α) :=
  (views_ofExcept lines).viewed

theorem Viewed.bind (first : Viewed observer program)
    (next : ∀ value, Views observer accepts (rest value)) :
    Views observer accepts (program >>= rest) :=
  Views.bind first fun value _ => next value

/-- What is found is accepted, or there is nothing. -/
theorem Views.found {good : ρ → Prop} {load : Prog (Option ρ)} {next : Option ρ → Prog β}
    (loads : Views observer (Cmd.Found good) load) (absent : Views observer accepts (next none))
    (present : ∀ record, good record → Views observer accepts (next (some record))) :
    Views observer accepts (load >>= next) :=
  Views.bind loads fun
    | none, _ => absent
    | some record, known => present record (known record rfl)

theorem Views.ite {condition : Prop} [Decidable condition] {other : Prog α}
    (first : Views observer accept program) (second : Views observer accept other) :
    Views observer accept (if condition then program else other) := by
  split_ifs
  · exact first
  · exact second

/-- A value that both readers get is what the program of the first one returns. -/
theorem Views.returned (views : Views observer accept program) :
    Views observer (fun value => accept value ∧ observer.Shares fun env _ store _ =>
      exec env program store = (.ok value, store)) program := by
  cases observer with
  | single =>
    exact Program.Follows.mono views (fun _ _ known => ⟨known.1, known.2, trivial⟩) fun _ _ => id
  | pair env env' store store' =>
    obtain ⟨result, ran, ran', accepted⟩ := views
    refine ⟨result, ran, ran', ?_⟩
    rintro value rfl
    exact ⟨accepted value rfl, ran⟩

theorem viewed_perform {op : Effect} (reads : op.writes = false) (same : observer.Shares
    fun env env' store store' => (env.handle op store).1 = (env'.handle op store').1) :
    Viewed observer (Program.perform (S := effects) op) := by
  refine Answers.views (quiet_perform reads)
    (Observer.Shares.imp same fun env env' store store' same => ?_)
  cases op with
  | write batch => cases reads
  | _ => exact ⟨.ok _, rfl, congrArg (fun reply => (Except.ok reply, store')) same.symm⟩

theorem viewed_element {version : UInt64} (sees : observer.Sees ctx key version) {cf : ColumnFamily}
    (element : cf ≠ .metadata) (sub : Bytes) :
    Viewed observer (Storage.get cf (ctx.subKey key version sub)) :=
  viewed_perform rfl (Observer.Shares.imp sees fun _ _ _ _ same => (same cf element sub).symm)

theorem viewed_hashOrder
    (ordered : observer.Shares fun env env' _ _ => env'.hashOrder = env.hashOrder)
    (keys : List Bytes) : Viewed observer (hashOrder keys) :=
  viewed_perform rfl (Observer.Shares.imp ordered fun _ _ _ _ same => congrFun same.symm keys)

section Clocks

variable (clock : observer.Shares fun env env' _ _ => env' = env)
include clock

theorem viewed_now : Viewed observer (Program.perform (S := effects) .now) :=
  viewed_perform rfl (Observer.Shares.imp clock fun _ _ _ _ same => same ▸ rfl)

theorem viewed_nowMs : Viewed observer nowMs := (viewed_now clock).bind fun _ => viewed_pure _

theorem viewed_generateVersion : Viewed observer generateVersion := by
  have random : Viewed observer (Program.perform (S := effects) .random) :=
    viewed_perform rfl (Observer.Shares.imp clock fun _ _ _ _ same => same ▸ rfl)
  exact (viewed_now clock).bind fun _ => random.bind fun _ => viewed_pure _

end Clocks

theorem viewed_parseI64 (text : Bytes) : Viewed observer (parseI64 text) := by
  unfold parseI64
  split
  · exact viewed_pure _
  · exact views_notInteger

theorem viewed_parseUsize (text : Bytes) : Viewed observer (parseUsize text) := by
  unfold parseUsize
  split
  · exact viewed_pure _
  · exact views_notInteger

theorem viewed_getMeta (looks : observer.LooksUp ctx key) : Viewed observer (ctx.getMeta key) := by
  refine Answers.views (ctx.quiet_getMeta key)
    (Observer.Shares.imp looks fun env env' store store' both => ?_)
  obtain ⟨rfl, same⟩ := both
  exact RecordAlike.getMeta ⟨rfl, same, fun _ _ => rfl⟩

end Rules

section Pages

variable {observer : Observer} {accept : β → Prop} {cf : ColumnFamily} {pre : Bytes} {limit : ℕ}
  {body : β → α → Prog (ForInStep β)} {page : Bytes → Prog (List α × Option Bytes)}

theorem answers_forEach
    (bodies : ∀ acc item, accept acc → Answers (fun step => accept step.value) (body acc item))
    (items : List α) (acc : β) (initial : accept acc) :
    Answers (fun step => accept step.value) (forEach body items acc) := by
  induction items generalizing acc with
  | nil => exact answers_pure initial
  | cons item items ih =>
    refine (bodies acc item initial).bind fun step accepted => ?_
    cases step with
    | done acc => exact answers_pure accepted
    | yield acc => exact ih acc accepted

/-- A paging loop keeps what its body keeps. -/
theorem answers_pagedLoop (pages : ∀ startKey, Quiet (page startKey))
    (bodies : ∀ acc item, accept acc → Answers (fun step => accept step.value) (body acc item))
    (rounds : ℕ) (startKey : Bytes) (acc : β) (initial : accept acc) :
    Answers accept (pagedLoop page body rounds startKey acc) := by
  induction rounds generalizing startKey acc with
  | zero => exact answers_fail trivial
  | succ rounds ih =>
    refine (pages startKey).bind fun ⟨items, nextKey⟩ => ?_
    cases items with
    | nil => exact answers_pure initial
    | cons item items =>
      refine (answers_forEach bodies (item :: items) acc initial).bind fun step accepted => ?_
      cases step with
      | done acc => exact answers_pure accepted
      | yield acc =>
        cases nextKey with
        | none => exact answers_pure accepted
        | some key => exact ih key acc accepted

/-- The pages of a loop are the pages that a scan gives, decoded. -/
structure Fetches (observer : Observer) (scan : Bytes → ℕ → Prog Page)
    (page : Bytes → Prog (List α × Option Bytes)) (limit : ℕ) : Prop where
  positive : 0 < limit
  small : limit ≤ maxPageLimit
  decoded : ∃ decode : List Entry → Prog (List α), (∀ items, Viewed observer (decode items)) ∧
    ∀ start, page start = scan start limit >>= fun found =>
      decode found.1 >>= fun items => pure (items, found.2)

theorem fetches_plain {scan : Bytes → ℕ → Prog Page} (positive : 0 < limit)
    (small : limit ≤ maxPageLimit) : Fetches observer scan (fun start => scan start limit) limit :=
  ⟨positive, small, pure, fun _ => viewed_pure _, fun _ => (bind_pure _).symm⟩

/-- A decoded page, fetched by either reader. -/
theorem Fetches.fetched {env env' : Env} {store store' : Store} {scan : Bytes → ℕ → Prog Page}
    (pages : Fetches (.pair env env' store store') scan page limit) {start : Bytes} {found : Page}
    (ran : exec env (scan start limit) store = (.ok found, store))
    (ran' : exec env' (scan start limit) store' = (.ok found, store')) :
    ∃ items : Except Fault (List α), exec env (page start) store = (items.map (·, found.2), store) ∧
      exec env' (page start) store' = (items.map (·, found.2), store') := by
  obtain ⟨decode, views, shape⟩ := pages.decoded
  obtain ⟨items, decoded, decoded', -⟩ := views found.1
  have decoded : exec env (decode found.1) store = (items, store) := decoded
  have decoded' : exec env' (decode found.1) store' = (items, store') := decoded'
  refine ⟨items, ?_, ?_⟩
  · rw [shape, exec_bind_ok ran, exec_bind, decoded]
    cases items <;> rfl
  · rw [shape, exec_bind_ok ran', exec_bind, decoded']
    cases items <;> rfl

theorem Fetches.quiet {scan : Bytes → ℕ → Prog Page} (pages : Fetches .single scan page limit)
    (quiet : ∀ start, Quiet (scan start limit)) (start : Bytes) : Quiet (page start) := by
  obtain ⟨decode, views, shape⟩ := pages.decoded
  rw [shape]
  exact (quiet start).bind fun found => Quiet.bind (views found.1) fun _ => answers_pure trivial

variable (accept) (behind : observer.SeesBehind cf pre) {acc : β} (initial : accept acc)
  (bodies : ∀ acc item, accept acc → Views observer (fun step => accept step.value) (body acc item))
include behind initial bodies

/-- A loop over the entries behind a prefix, page by page, from a position. -/
theorem views_forEachPageFrom {start : Bytes} (place : start = [] ∨ pre <+: start)
    (pages : Fetches observer (prefixScanPage cf pre) page limit) :
    Views observer accept (forEachPageFrom cf start page acc body) := by
  cases observer with
  | single =>
    exact (quiet_familySize cf).bind fun _ =>
      answers_pagedLoop (pages.quiet fun _ => quiet_prefixScanPage _ _ _ _) bodies _ _ _ initial
  | pair env env' store store' =>
    obtain ⟨named, behind⟩ := behind
    have moved : ∀ {start rest}, Position store cf pre start rest →
        Position store' cf pre start rest := by
      intro start rest position
      cases position with
      | first => exact behind ▸ .first
      | resume nonempty inside => exact behind ▸ .resume nonempty inside
    obtain ⟨rest, position⟩ : ∃ rest, Position store cf pre start rest := by
      rcases place with rfl | inside
      · exact ⟨_, .first⟩
      · exact ⟨_, .resume (fun empty => named (List.prefix_nil.mp (empty ▸ inside))) inside⟩
    exact alike_forEachPageFrom pages.positive named position (moved position)
      (fun start rest position =>
        pages.fetched (exec_prefixScanPage position pages.positive pages.small)
        (exec_prefixScanPage (moved position) pages.positive pages.small)) bodies initial

/-- A loop over the entries behind a prefix from the last one down. The first page
may name its seek point. -/
theorem views_forEachPage_reverse (place : Bytes → Bytes) (first : place [] = [] ∨ pre <+: place [])
    (resumed : ∀ start, start ≠ [] → place start = start)
    (pages : Fetches observer (fun start => prefixScanPageReverse cf pre (place start))
      page limit) :
    Views observer accept (forEachPage cf page acc body) := by
  cases observer with
  | single =>
    exact (quiet_familySize cf).bind fun _ =>
      answers_pagedLoop (pages.quiet fun _ => quiet_prefixScanPageReverse _ _ _ _)
        bodies _ _ _ initial
  | pair env env' store store' =>
    obtain ⟨named, behind⟩ := behind
    refine alike_forEachPage_reverse pages.positive named behind (fun start within => ?_)
      bodies initial
    have inside : place start = [] ∨ pre <+: place start := by
      by_cases fresh : start = []
      · exact fresh ▸ first
      · rw [resumed start fresh]
        exact within
    have below : store'.below cf pre (place start) = store.below cf pre (place start) := by
      rw [Store.below, Store.below, behind]
    obtain ⟨items, fetched⟩ := pages.fetched
      (exec_prefixScanPageReverse pages.positive pages.small named inside)
      (below ▸ exec_prefixScanPageReverse pages.positive pages.small named inside)
    exact ⟨place start, items, resumed start, fetched⟩

end Pages

namespace Cmd

section Loaders

variable {observer : Observer}

/-- The faults of the metadata check are on one line if the text for an invalid
value is. -/
theorem checkMetadata_onLine {wanted : DataType} {invalid : String} {v : Bytes}
    (plain : Plain invalid) (fault : Fault)
    (failed : checkMetadata wanted invalid v = .error fault) : fault.OnLine := by
  unfold checkMetadata at failed
  split_ifs at failed
  · exact Except.error.inj failed ▸ onLine_protocol (plain_of_chars rfl (by decide))
  · exact Except.error.inj failed ▸ onLine_wrongTypeError
  · split at failed
    · exact Except.error.inj failed ▸ onLine_protocol plain
    · split_ifs at failed
      exact Except.error.inj failed ▸ onLine_wrongTypeError

theorem checkStreamMeta_onLine {v : Bytes} (fault : Fault)
    (failed : checkStreamMeta v = .error fault) :
    fault.OnLine := by
  unfold checkStreamMeta at failed
  split_ifs at failed
  · exact Except.error.inj failed ▸ onLine_protocol (plain_of_chars rfl (by decide))
  · exact Except.error.inj failed ▸ onLine_wrongTypeError
  · split at failed
    · split_ifs at failed
      exact Except.error.inj failed ▸ onLine_wrongTypeError
    · split at failed
      · exact Except.error.inj failed ▸ onLine_protocol (plain_of_chars rfl (by decide))
      · split_ifs at failed
        exact Except.error.inj failed ▸ onLine_wrongTypeError

/-- A loader that checks what it finds and drops what has expired. -/
private theorem answers_live {good : ρ → Prop} {check : Bytes → Except Fault ρ}
    {expired : ρ → Int64 → Bool} (checked : ∀ v value, check v = .ok value → good value)
    (lines : ∀ v fault, check v = .error fault → fault.OnLine) :
    Answers (Found good) (do
      match ← ctx.getMeta key with
      | none => return none
      | some v =>
        let value ← Program.ofExcept (check v)
        let now ← nowMs
        if expired value now then return none else return some value) := by
  refine Quiet.bind (ctx.quiet_getMeta key) fun found => ?_
  cases found with
  | none => exact answers_pure nofun
  | some v =>
    refine Answers.bind (answers_ofExcept (checked v) (lines v)) fun value known => ?_
    refine Quiet.bind quiet_nowMs fun now => (answers_pure nofun).ite (answers_pure ?_)
    rintro _ ⟨⟩
    exact known

theorem answers_loadLiveMeta {wanted : DataType} {invalid : String} (plain : Plain invalid) :
    Answers (Found (Metadata.OfType wanted)) (loadLiveMeta ctx wanted invalid key) :=
  answers_live (fun _ _ checked => (checkMetadata_eq_ok checked).2.2) fun _ =>
    checkMetadata_onLine plain

theorem answers_readHashMeta : Answers (Found (Metadata.OfType .hash)) (readHashMeta ctx key) := by
  refine Quiet.bind (ctx.quiet_getMeta key) fun found => ?_
  cases found with
  | none => exact answers_pure nofun
  | some v =>
    cases checked : checkMetadata .hash "invalid metadata encoding" v with
    | error fault =>
      simp only [decodeAndCheckHash, checked]
      exact answers_fail (checkMetadata_onLine (plain_of_chars rfl (by decide)) fault checked)
    | ok meta' =>
      simp only [decodeAndCheckHash, checked]
      refine answers_pure ?_
      rintro _ ⟨⟩
      exact (checkMetadata_eq_ok checked).2.2

theorem answers_readZsetMeta : Answers (Found (Metadata.OfType .zset)) (readZsetMeta ctx key) := by
  have loaded : Answers (Found fun meta' => meta'.Normal) (loadMeta ctx key) := by
    refine Quiet.bind (ctx.quiet_getMeta key) fun found => ?_
    cases found with
    | none => exact answers_pure nofun
    | some v =>
      refine Answers.ite (answers_pure nofun) ?_
      split
      · exact answers_fail (onLine_protocol (plain_of_chars rfl (by decide)))
      · refine Answers.ite (answers_fail onLine_wrongTypeError) ?_
        cases decoded : decodeMetadata v with
        | none => exact answers_fail (onLine_protocol (plain_of_chars rfl (by decide)))
        | some meta' =>
          refine Quiet.bind quiet_nowMs fun _ => (answers_pure nofun).ite (answers_pure ?_)
          rintro _ ⟨⟩
          exact (decodeMetadata_eq_some decoded).2.2.2.1
  refine Answers.bind loaded fun found normal => ?_
  cases found with
  | none => exact answers_pure nofun
  | some meta' =>
    dsimp only
    split_ifs with other
    · exact answers_fail onLine_wrongTypeError
    · refine answers_pure ?_
      rintro _ ⟨⟩
      exact ⟨not_not.mp other, normal meta' rfl⟩

theorem answers_readStreamMeta :
    Answers (Found fun meta' : StreamMeta => dataTypeFromFlags meta'.flags = some .stream)
      (readStreamMeta ctx key) :=
  answers_live (fun _ _ checked => (checkStreamMeta_eq_ok checked).2.2.2) fun _ =>
    checkStreamMeta_onLine

theorem answers_liveStreamMeta :
    Answers (Found fun meta' : StreamMeta => dataTypeFromFlags meta'.flags = some .stream)
      (liveStreamMeta ctx key) :=
  answers_readStreamMeta.bind fun
    | none, _ => answers_pure nofun
    | some _, known => Quiet.bind quiet_nowMs fun _ => (answers_pure nofun).ite (answers_pure known)

theorem quiet_readString : Quiet (readString ctx key) := by
  refine Quiet.bind (ctx.quiet_getMeta key) fun found => ?_
  cases found with
  | none => exact answers_pure trivial
  | some v =>
    dsimp only
    split
    · exact answers_fail (onLine_protocol (plain_of_chars rfl (by decide)))
    · exact (answers_fail onLine_wrongTypeError).ite
        (quiet_nowMs.bind fun _ => (answers_pure trivial).ite (answers_pure trivial))

/-- What a loader finds, with its elements. -/
private theorem views_loads {good : ρ → Prop} {version : ρ → UInt64} {load : Prog (Option ρ)}
    (answers : Answers (Found good) load) (finds : observer.Shares fun env env' store store' =>
      LoadsAlike ctx key env env' store store' version load) :
    Views observer (Found fun record => good record ∧ observer.Sees ctx key (version record))
      load := by
  cases observer with
  | single =>
    exact Program.Follows.mono answers
      (fun _ _ known => ⟨known.1, fun record found => ⟨known.2 record found, trivial⟩⟩)
        fun _ _ => id
  | pair env env' store store' =>
    obtain ⟨found, ran, ran', elements⟩ := finds
    refine ⟨found, ran, ran', ?_⟩
    rintro value rfl record rfl
    exact ⟨answers.reads.run_value ran record rfl, elements record rfl⟩

theorem viewed_readString (finds : observer.Finds .string ctx key) :
    Viewed observer (readString ctx key) :=
  Answers.views quiet_readString finds

theorem views_readHashMeta (finds : observer.Finds .hash ctx key) :
    Views observer (Found (observer.Opens .hash ctx key)) (readHashMeta ctx key) :=
  views_loads answers_readHashMeta finds

theorem views_loadListMeta (finds : observer.Finds .list ctx key) :
    Views observer (Found (observer.Opens .list ctx key)) (loadListMeta ctx key) :=
  views_loads (answers_loadLiveMeta (plain_of_chars rfl (by decide))) finds

theorem views_readSetMetadata (finds : observer.Finds .set ctx key) :
    Views observer (Found (observer.Opens .set ctx key)) (readSetMetadata ctx key) :=
  views_loads (answers_loadLiveMeta (plain_of_chars rfl (by decide))) finds

theorem views_readZsetMeta (finds : observer.Finds .zset ctx key) :
    Views observer (Found (observer.Opens .zset ctx key)) (readZsetMeta ctx key) :=
  views_loads answers_readZsetMeta finds

theorem views_readBitmapMeta (finds : observer.Finds .bitmap ctx key) :
    Views observer (Found (observer.Opens .bitmap ctx key)) (readBitmapMeta ctx key) :=
  views_loads (answers_loadLiveMeta (plain_of_chars rfl (by decide))) finds

theorem views_readStreamMeta (finds : observer.Finds .stream ctx key) :
    Views observer (Found (observer.OpensStream ctx key)) (readStreamMeta ctx key) :=
  views_loads answers_readStreamMeta (finds.imp fun _ _ _ _ both => both.1)

theorem views_liveStreamMeta (finds : observer.Finds .stream ctx key) :
    Views observer (Found (observer.OpensStream ctx key)) (liveStreamMeta ctx key) :=
  views_loads answers_liveStreamMeta (finds.imp fun _ _ _ _ both => both.2)

end Loaders

end Cmd

end Kvdb
