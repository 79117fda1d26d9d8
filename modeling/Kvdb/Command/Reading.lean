import Kvdb.Command.Views

/-!
# The reading commands

A reading command looks at the keys it names through the loader of its type, and
at the elements of the records that the loader lets pass. Its reply is framed. Two
stores in which the loader finds the same records with the same elements give the
same reply, at any two times.
-/

namespace Kvdb

open Data Semantics Cmd

variable {observer : Observer} {ctx : CommandContext} {key : Bytes} {args : List Bytes} {α β : Type}

namespace Cmd

section Strings

theorem views_get (finds : ∀ key ∈ args.head?, observer.Finds .string ctx key) :
    Views observer RespValue.Framed (get ctx args) := by
  unfold get
  split
  · exact (viewed_readString (finds _ rfl)).bind fun _ => views_pure trivial
  · exact views_wrongArgCount rfl (by decide)

theorem views_readStrings (finds : ∀ key ∈ args, observer.Finds .string ctx key) :
    Views observer AllFramed (readStrings ctx args) := by
  induction args with
  | nil => exact views_pure allFramed_nil
  | cons key args ih =>
    obtain ⟨first, rest⟩ := List.forall_mem_cons.mp finds
    exact (viewed_readString first).bind fun _ => (ih rest).bind fun _ framed =>
      views_pure (framed.cons trivial)

theorem views_mget (finds : ∀ key ∈ args, observer.Finds .string ctx key) :
    Views observer RespValue.Framed (mget ctx args) := by
  unfold mget
  split
  · exact views_wrongArgCount rfl (by decide)
  · exact (views_readStrings finds).bind fun _ framed => views_pure framed.array

theorem viewed_setOptions (clock : observer.Shares fun env env' _ _ => env' = env)
    (args : List Bytes) (opts : SetOptions) : Viewed observer (setOptions args opts) := by
  fun_induction setOptions args opts with
  | case1 => exact viewed_pure _
  | case2 | case4 | case8 => exact views_command rfl (by decide)
  | case3 opt opts _ value rest ih =>
    exact (viewed_parseI64 _).bind fun secs =>
      (views_command rfl (by decide)).ite ((viewed_nowMs clock).bind (ih secs))
  | case5 opt opts _ _ value rest ih =>
    exact (viewed_parseI64 _).bind fun ms =>
      (views_command rfl (by decide)).ite ((viewed_nowMs clock).bind (ih ms))
  | case6 opt rest opts _ _ _ ih => exact ih
  | case7 opt rest opts _ _ _ _ ih => exact ih

theorem viewed_keyExists (looks : observer.LooksUp ctx key) : Viewed observer (keyExists ctx key) :=
  (viewed_getMeta looks).bind fun
    | none => viewed_pure _
    | some _ => (viewed_nowMs looks.clock).bind fun _ => viewed_pure _

theorem viewed_readExpire (looks : observer.LooksUp ctx key) :
    Viewed observer (readExpire ctx key) := by
  refine (viewed_getMeta looks).bind fun found => ?_
  cases found with
  | none => exact viewed_pure _
  | some v =>
    refine Views.ite (viewed_pure _) (Views.ite ?_ ?_)
    all_goals
      split
      · exact views_protocol rfl (by decide)
      · exact viewed_pure _

theorem views_timeToLive {name : String} (looks : ∀ key ∈ args.head?, observer.LooksUp ctx key)
    (plain : Plain name) (remaining : Int64 → Int64) :
    Views observer RespValue.Framed (timeToLive ctx name remaining args) := by
  unfold timeToLive
  split
  · exact (viewed_readExpire (looks _ rfl)).bind fun
      | none | some none => views_pure trivial
      | some (some _) => (viewed_nowMs (looks _ rfl).clock).bind fun _ =>
        (views_pure trivial).ite (views_pure trivial)
  · exact views_raise (onLine_wrongArgCount plain)

theorem views_ttl (looks : ∀ key ∈ args.head?, observer.LooksUp ctx key) :
    Views observer RespValue.Framed (ttl ctx args) :=
  views_timeToLive looks (plain_of_chars rfl (by decide)) _

theorem views_pttl (looks : ∀ key ∈ args.head?, observer.LooksUp ctx key) :
    Views observer RespValue.Framed (pttl ctx args) :=
  views_timeToLive looks (plain_of_chars rfl (by decide)) _

theorem viewed_existsLoop (looks : ∀ key ∈ args, observer.LooksUp ctx key) (count : Int64) :
    Viewed observer (existsLoop ctx args count) := by
  induction args generalizing count with
  | nil => exact viewed_pure _
  | cons key args ih =>
    obtain ⟨first, rest⟩ := List.forall_mem_cons.mp looks
    exact (viewed_getMeta first).bind fun _ => ih rest _

theorem views_exists (looks : ∀ key ∈ args, observer.LooksUp ctx key) :
    Views observer RespValue.Framed (exists' ctx args) := by
  unfold exists'
  split
  · exact views_wrongArgCount rfl (by decide)
  · exact (viewed_existsLoop looks _).bind fun _ => views_pure trivial

end Strings

section Admin

theorem views_ping (args : List Bytes) : Views observer RespValue.Framed (ping args) := by
  have pong : ¬ crlf <:+: utf8 "PONG" := (plain_of_chars rfl (by decide)).unbroken
  cases args with
  | nil => exact views_pure pong
  | cons message rest => exact views_pure trivial

theorem views_echo (args : List Bytes) : Views observer RespValue.Framed (echo args) := by
  unfold echo
  split
  · exact views_pure trivial
  · exact views_wrongArgCount rfl (by decide)

theorem views_dbsize (clock : observer.Shares fun env env' _ _ => env' = env)
    (behind : observer.SeesBehind .metadata (namespacePrefix ctx)) (args : List Bytes) :
    Views observer RespValue.Framed (dbsize ctx args) := by
  refine Viewed.bind
    (views_forEachPageFrom (fun _ => True) behind trivial (fun count item _ => ?_) (.inl rfl)
    (fetches_plain (by decide) (by decide))) fun _ => views_pure trivial
  unfold dbsizeBody
  split
  · exact viewed_pure _
  · exact (viewed_nowMs clock).bind fun _ => viewed_pure _

end Admin

section Hashes

theorem views_readFields {version : UInt64} (sees : observer.Sees ctx key version)
    (fields : List Bytes) :
    Views observer AllFramed (readFields ctx key version fields) := by
  induction fields with
  | nil => exact views_pure allFramed_nil
  | cons field fields ih =>
    exact (viewed_element sees (by decide) field).bind fun _ => ih.bind fun _ framed =>
      views_pure (framed.cons trivial)

theorem views_pushField {result : List RespValue} (framed : AllFramed result) (item : Entry) :
    Views observer AllFramed (pushField ctx result item) := by
  unfold pushField
  split
  · exact views_protocol rfl (by decide)
  · exact views_pure (framed.append (by simp [AllFramed]))

theorem views_pushFields (items : List Entry) {result : List RespValue}
    (framed : AllFramed result) :
    Views observer AllFramed (pushFields ctx items result) := by
  induction items generalizing result with
  | nil => exact views_pure framed
  | cons item items ih => exact (views_pushField framed item).bind fun _ => ih

theorem viewed_hscanCount (options : List Bytes) : Viewed observer (hscanCount options) := by
  unfold hscanCount
  split
  · exact (viewed_parseUsize _).ite (views_command rfl (by decide))
  · exact views_command rfl (by decide)
  · exact viewed_pure _

/-- A cursor is refused or, if it cuts a character in two, panics. -/
theorem decodeCursor_onLine {text : Bytes} (fault : Fault)
    (failed : decodeCursor text = .error fault) :
    fault.OnLine := by
  have pairs : ∀ text, hexPairs text = .error fault → fault.OnLine := by
    intro text
    fun_induction hexPairs text with
    | case1 => rintro ⟨⟩; trivial
    | case2 => exact nofun
    | case3 high low rest _ byte _ ih =>
      intro failed
      cases known : hexPairs rest with
      | error other =>
        simp only [known, Except.map, Except.error.injEq] at failed
        exact ih (known.trans (congrArg Except.error failed))
      | ok value => simp [known, Except.map] at failed
    | case4 => exact nofun
  unfold decodeCursor at failed
  split_ifs at failed
  exact pairs text failed

variable (finds : ∀ key ∈ args.head?, observer.Finds .hash ctx key)
include finds

theorem views_hget : Views observer RespValue.Framed (hget ctx args) := by
  unfold hget
  split
  · exact (views_readHashMeta (finds _ rfl)).found (views_pure trivial) fun _ opens =>
      (viewed_element opens.2 (by decide) _).bind fun _ => views_pure trivial
  · exact views_wrongArgCount rfl (by decide)

theorem views_hmget : Views observer RespValue.Framed (hmget ctx args) := by
  unfold hmget
  split
  · exact (views_readHashMeta (finds _ rfl)).found (views_pure (by simp)) fun _ opens =>
      (views_readFields opens.2 _).bind fun _ framed => views_pure framed.array
  · exact views_wrongArgCount rfl (by decide)

theorem views_hgetall : Views observer RespValue.Framed (hgetall ctx args) := by
  unfold hgetall
  split
  · refine (views_readHashMeta (finds _ rfl)).found (views_pure (by simp)) fun _ opens => ?_
    refine Views.bind (views_forEachPageFrom AllFramed (opens.2.behind (by decide)) allFramed_nil
      (fun result item framed => ?_) (.inl rfl) (fetches_plain (by decide) (by decide)))
      fun _ framed => views_pure framed.array
    rw [map_eq_pure_bind]
    exact (views_pushField framed item).bind fun _ framed => views_pure framed
  · exact views_wrongArgCount rfl (by decide)

theorem views_hexists : Views observer RespValue.Framed (hexists ctx args) := by
  unfold hexists
  split
  · exact (views_readHashMeta (finds _ rfl)).found (views_pure trivial) fun _ opens =>
      (viewed_element opens.2 (by decide) _).bind fun _ => views_pure trivial
  · exact views_wrongArgCount rfl (by decide)

theorem views_hlen : Views observer RespValue.Framed (hlen ctx args) := by
  unfold hlen
  split
  · exact (views_readHashMeta (finds _ rfl)).found (views_pure trivial) fun _ _ =>
      views_pure trivial
  · exact views_wrongArgCount rfl (by decide)

/-- A cursor can point anywhere, so the page of `HSCAN` is a condition. -/
theorem views_hscan (pages : ∀ key ∈ args.head?, ∀ meta' start count,
      (observer.Shares fun env _ store _ =>
        exec env (readHashMeta ctx key) store = (.ok (some meta'), store)) →
      args[1]?.map decodeCursor = some (.ok (some start)) →
      Viewed observer (prefixScanPage .subkey (ctx.subKey key meta'.version []) start count)) :
    Views observer RespValue.Framed (hscan ctx args) := by
  unfold hscan
  split
  · refine Views.ite (views_command rfl (by decide)) <| (viewed_hscanCount _).bind fun count => ?_
    refine (views_ofExcept decodeCursor_onLine).bind fun start decoded => ?_
    cases start with
    | none => exact views_command rfl (by decide)
    | some start =>
      refine (views_readHashMeta (finds _ rfl)).returned.bind fun found known => ?_
      cases found with
      | none => exact views_pure (by simp)
      | some meta' =>
        refine (pages _ rfl meta' start count known.2 (congrArg some decoded)).bind fun page => ?_
        exact (views_pushFields page.1 allFramed_nil).bind fun _ framed =>
          views_pure (by simpa [AllFramed] using framed)
  · exact views_wrongArgCount rfl (by decide)

end Hashes

section Lists

theorem decodeIndex_onLine {bytes : Bytes} (fault : Fault)
    (failed : decodeIndex bytes = .error fault) :
    fault.OnLine := by
  unfold decodeIndex at failed
  split_ifs at failed
  cases failed
  trivial

theorem views_lrangeBody (startIdx endIdx : Int64) (count : ℕ) {result : List RespValue}
    (framed : AllFramed result) (item : Entry) :
    Views observer (fun step => AllFramed step.value)
      (lrangeBody ctx startIdx endIdx count result item) := by
  have longer : AllFramed (result ++ [.bulkString (some item.2)]) := framed.snoc trivial
  unfold lrangeBody
  split
  · exact views_protocol rfl (by decide)
  · exact (viewed_ofExcept decodeIndex_onLine).bind fun _ => Views.ite (views_pure framed) <|
      Views.ite (views_pure framed) <| Views.ite (views_pure longer) (views_pure longer)

variable (finds : ∀ key ∈ args.head?, observer.Finds .list ctx key)
include finds

theorem views_lrange : Views observer RespValue.Framed (lrange ctx args) := by
  unfold lrange
  split
  · refine (viewed_parseI64 _).bind fun _ => (viewed_parseI64 _).bind fun _ => ?_
    refine (views_loadListMeta (finds _ rfl)).found (views_pure (by simp)) fun _ opens => ?_
    refine Views.ite (views_pure (by simp)) (Views.ite (views_pure (by simp)) ?_)
    exact Views.bind (views_forEachPageFrom AllFramed (opens.2.behind (by decide)) allFramed_nil
      (fun _ item framed => views_lrangeBody _ _ _ framed item) (.inl rfl)
      (fetches_plain (by decide) (by decide))) fun _ framed => views_pure framed.array
  · exact views_wrongArgCount rfl (by decide)

theorem views_lindex : Views observer RespValue.Framed (lindex ctx args) := by
  unfold lindex
  split
  · refine (viewed_parseI64 _).bind fun _ => ?_
    refine (views_loadListMeta (finds _ rfl)).found (views_pure trivial) fun _ opens => ?_
    exact Views.ite (views_pure trivial) <| Views.ite (views_pure trivial) <|
      (viewed_element opens.2 (by decide) _).bind fun _ => views_pure trivial
  · exact views_wrongArgCount rfl (by decide)

theorem views_llen : Views observer RespValue.Framed (llen ctx args) := by
  unfold llen
  split
  · exact (views_loadListMeta (finds _ rfl)).found (views_pure trivial) fun _ _ =>
      views_pure trivial
  · exact views_wrongArgCount rfl (by decide)

end Lists

section Sets

theorem viewed_memberExists {version : UInt64} (sees : observer.Sees ctx key version)
    (member : Bytes) :
    Viewed observer (memberExists ctx key version member) :=
  (viewed_element sees (by decide) member).bind fun _ => viewed_pure _

section Tests

variable {sets : List (Bytes × UInt64)} (sees : ∀ set ∈ sets, observer.Sees ctx set.1 set.2)
include sees

theorem viewed_inAll (member : Bytes) : Viewed observer (inAll ctx member sets) := by
  induction sets with
  | nil => exact viewed_pure _
  | cons set sets ih =>
    obtain ⟨first, rest⟩ := List.forall_mem_cons.mp sees
    exact (viewed_memberExists first member).bind fun _ => (ih rest).ite (viewed_pure _)

theorem viewed_inAny (member : Bytes) : Viewed observer (inAny ctx member sets) := by
  induction sets with
  | nil => exact viewed_pure _
  | cons set sets ih =>
    obtain ⟨first, rest⟩ := List.forall_mem_cons.mp sees
    exact (viewed_memberExists first member).bind fun _ => (viewed_pure _).ite (ih rest)

end Tests

theorem fetches_iterMembersPage (version : UInt64) :
    Fetches observer (prefixScanPage .subkey (ctx.subKey key version []))
      (iterMembersPage ctx key version)
      setOpsChunkSize :=
  ⟨by decide, by decide, _, fun _ => viewed_pure _, fun _ => rfl⟩

theorem views_selectMembers {version : UInt64} (sees : observer.Sees ctx key version)
    {test : Bytes → Prog Bool} (tests : ∀ member, Viewed observer (test member)) :
    Views observer AllFramed (selectMembers ctx key version test) := by
  refine views_forEachPageFrom AllFramed (sees.behind (by decide)) allFramed_nil
    (fun result member framed => ?_)
    (.inl rfl) (fetches_iterMembersPage version)
  exact (tests member).bind fun _ =>
    Views.ite (views_pure (AllFramed.snoc framed trivial)) (views_pure framed)

theorem insertBySize_perm (item : Bytes × Metadata) (sorted : List (Bytes × Metadata)) :
    (insertBySize item sorted).Perm (item :: sorted) := by
  induction sorted with
  | nil => exact .refl _
  | cons other sorted ih =>
    rw [insertBySize]
    split_ifs
    · exact .refl _
    · exact (ih.cons other).trans (.swap _ _ _)

theorem sortBySize_perm (metas : List (Bytes × Metadata)) : (sortBySize metas).Perm metas := by
  have sorted : ∀ metas sorted : List (Bytes × Metadata),
      (metas.foldl (fun sorted item => insertBySize item sorted) sorted).Perm
        (sorted ++ metas) := by
    intro metas
    induction metas with
    | nil => exact fun sorted => by simp
    | cons item metas ih =>
      intro sorted
      refine (ih _).trans (((insertBySize_perm item sorted).append_right metas).trans ?_)
      exact List.perm_middle.symm
  exact sorted metas []

/-- What is left of a result when an error counts as nothing found. -/
def attempted : Except Fault α → Except Fault (Option α)
  | .ok value => .ok (some value)
  | .error (.error _) => .ok none
  | .error fault => .error fault

theorem exec_attempt {env : Env} {store : Store} {program : Prog α} {result : Except Fault α}
    (ran : exec env program store = (result, store)) :
    exec env (attempt program) store = (attempted result, store) := by
  have mapped : exec env (some <$> program) store = (result.map some, store) := by
    rw [map_eq_pure_bind, exec_bind, ran]
    cases result <;> rfl
  unfold exec at mapped
  unfold exec attempt
  rw [Program.run_recover, mapped]
  rcases result with (_ | _ | _) | _ <;> rfl

/-- An error counts as nothing found, to one reader and to two. -/
theorem views_attempt {accept : α → Prop} {program : Prog α}
    (views : Views observer accept program) :
    Views observer (Found accept) (attempt program) := by
  have found : ∀ {value : α}, accept value → Found accept (some value) := by
    rintro value accepted _ ⟨⟩
    exact accepted
  cases observer with
  | single =>
    change Answers (Found accept) (attempt program)
    unfold attempt
    rw [map_eq_pure_bind]
    refine Program.Follows.recover
      (Answers.bind views fun value accepted => answers_pure (found accepted))
      fun wrote fault failed => ?_
    cases fault with
    | error cause => exact ⟨failed.1, nofun⟩
    | panic => exact failed
    | hang => exact failed
  | pair env env' store store' =>
    obtain ⟨result, ran, ran', accepted⟩ := views
    refine ⟨_, exec_attempt ran, exec_attempt ran', ?_⟩
    rcases result with (_ | _ | _) | value
    · rintro _ ⟨⟩
      exact nofun
    · rintro _ ⟨⟩
    · rintro _ ⟨⟩
    · rintro _ ⟨⟩
      exact found (accepted value rfl)

theorem views_sismember (finds : ∀ key ∈ args.head?, observer.Finds .set ctx key) :
    Views observer RespValue.Framed (sismember ctx args) := by
  unfold sismember
  split
  · exact (views_readSetMetadata (finds _ rfl)).found (views_pure trivial) fun _ opens =>
      (viewed_memberExists opens.2 _).bind fun _ => views_pure trivial
  · exact views_wrongArgCount rfl (by decide)

theorem viewed_prefixScan {version : UInt64} (sees : observer.Sees ctx key version) :
    Viewed observer (prefixScan .subkey (ctx.subKey key version [])) := by
  have quiet : Quiet (prefixScan .subkey (ctx.subKey key version [])) :=
    (quiet_iterate _ _).bind fun _ => answers_pure trivial
  have behind : observer.SeesBehind .subkey (ctx.subKey key version []) := sees.behind (by decide)
  refine Answers.views quiet (Observer.Shares.imp behind fun _ _ _ _ same => ?_)
  exact ⟨_, exec_prefixScan, exec_prefixScan.trans (by rw [same.2])⟩

theorem views_smembers
    (ordered : observer.Shares fun env env' _ _ => env'.hashOrder = env.hashOrder)
    (finds : ∀ key ∈ args.head?, observer.Finds .set ctx key) :
    Views observer RespValue.Framed (smembers ctx args) := by
  unfold smembers
  split
  · exact (views_readSetMetadata (finds _ rfl)).found (views_pure (by simp)) fun _ opens =>
      Viewed.bind ((viewed_prefixScan opens.2).bind fun _ => viewed_hashOrder ordered _)
        fun _ => views_pure (by simp)
  · exact views_wrongArgCount rfl (by decide)

theorem views_scard (finds : ∀ key ∈ args.head?, observer.Finds .set ctx key) :
    Views observer RespValue.Framed (scard ctx args) := by
  unfold scard
  split
  · exact (views_readSetMetadata (finds _ rfl)).found (views_pure trivial) fun _ _ =>
      views_pure trivial
  · exact views_wrongArgCount rfl (by decide)

variable (finds : ∀ key ∈ args, observer.Finds .set ctx key)
include finds

theorem views_loadAll : Views observer
    (Found fun metas => ∀ m ∈ metas, observer.Sees ctx m.1 m.2.version) (loadAll ctx args) := by
  induction args with
  | nil =>
    refine views_pure ?_
    rintro _ ⟨⟩
    exact List.forall_mem_nil _
  | cons key args ih =>
    obtain ⟨first, rest⟩ := List.forall_mem_cons.mp finds
    refine (views_readSetMetadata first).found (views_pure nofun) fun meta' opens => ?_
    refine (ih rest).found (views_pure nofun) fun metas others => views_pure ?_
    rintro _ ⟨⟩
    exact List.forall_mem_cons.mpr ⟨opens.2, others⟩

theorem views_sinter : Views observer RespValue.Framed (sinter ctx args) := by
  unfold sinter
  split
  · exact views_wrongArgCount rfl (by decide)
  · refine (views_loadAll finds).found (views_pure (by simp)) fun metas sees => ?_
    have sorted : ∀ m ∈ sortBySize metas, observer.Sees ctx m.1 m.2.version :=
      fun m member => sees m ((sortBySize_perm _).mem_iff.mp member)
    dsimp only
    split
    next => exact views_fail trivial
    next shape =>
      rw [shape] at sorted
      obtain ⟨first, others⟩ := List.forall_mem_cons.mp sorted
      refine Views.bind
        (views_selectMembers first fun member => viewed_inAll (fun set inside => ?_) member)
        fun _ framed => views_pure framed.array
      obtain ⟨m, listed, rfl⟩ := List.mem_map.mp inside
      exact others m listed

theorem views_loadSome : Views observer (fun sets => ∀ set ∈ sets, observer.Sees ctx set.1 set.2)
    (loadSome ctx args) := by
  induction args with
  | nil => exact views_pure (List.forall_mem_nil _)
  | cons key args ih =>
    obtain ⟨first, rest⟩ := List.forall_mem_cons.mp finds
    refine (views_attempt (views_readSetMetadata first)).bind fun found here => ?_
    refine (ih rest).bind fun others there => ?_
    cases found with
    | none => exact views_pure there
    | some found =>
      cases found with
      | none => exact views_pure there
      | some meta' =>
        exact views_pure (List.forall_mem_cons.mpr ⟨(here _ rfl meta' rfl).2, there⟩)

theorem views_sdiff : Views observer RespValue.Framed (sdiff ctx args) := by
  unfold sdiff
  split
  · exact views_wrongArgCount rfl (by decide)
  · obtain ⟨first, rest⟩ := List.forall_mem_cons.mp finds
    exact (views_readSetMetadata first).found (views_pure (by simp)) fun _ opens =>
      (views_loadSome rest).bind fun _ others => (views_selectMembers opens.2 fun member =>
        (viewed_inAny others member).bind fun _ => viewed_pure _).bind fun _ framed =>
          views_pure framed.array

theorem viewed_sunionLoop (seen : List Bytes) : Viewed observer (sunionLoop ctx args seen) := by
  induction args generalizing seen with
  | nil => exact viewed_pure _
  | cons key args ih =>
    obtain ⟨first, rest⟩ := List.forall_mem_cons.mp finds
    exact (views_readSetMetadata first).found (ih rest _) fun meta' opens =>
      Viewed.bind
        (views_forEachPageFrom (fun _ => True) (opens.2.behind (by decide)) trivial (fun _ _ _ =>
        Views.ite (views_command rfl (by decide)) ((viewed_pure _).ite (viewed_pure _))) (.inl rfl)
        (fetches_iterMembersPage meta'.version)) fun _ => ih rest _

theorem views_sunion : Views observer RespValue.Framed (sunion ctx args) := by
  unfold sunion
  split
  · exact views_wrongArgCount rfl (by decide)
  · exact (viewed_sunionLoop finds _).bind fun _ => views_pure (by simp)

end Sets

section SortedSets

theorem viewed_parseScore (text : Bytes) : Viewed observer (parseScore ctx text) := by
  unfold parseScore
  dsimp only
  split
  · exact views_notInteger
  · exact views_notInteger.ite (viewed_pure _)

theorem viewed_scoreOfValue (bytes : Bytes) : Viewed observer (scoreOfValue bytes) :=
  Views.ite (views_fail trivial) (viewed_pure _)

theorem viewed_readScore {version : UInt64} (sees : observer.Sees ctx key version)
    (member : Bytes) :
    Viewed observer (readScore ctx key version member) :=
  (viewed_element sees (by decide) member).bind fun
    | none => viewed_pure _
    | some _ => (viewed_scoreOfValue _).bind fun _ => viewed_pure _

/-- A loop over the score index of a key from either end. -/
theorem viewed_rankPages {version : UInt64} (sees : observer.Sees ctx key version) (reverse : Bool)
    {body : β → Entry → Prog (ForInStep β)} (bodies : ∀ acc item, Viewed observer (body acc item))
    (acc : β) : Viewed observer
      (forEachPage .zsetScore (rankPage (ctx.subKey key version []) reverse) acc body) := by
  have behind : observer.SeesBehind .zsetScore (ctx.subKey key version []) :=
    sees.behind (by decide)
  cases reverse with
  | false =>
    exact views_forEachPageFrom (fun _ => True) behind trivial
      (fun acc item _ => bodies acc item) (.inl rfl)
      (fetches_plain (by decide) (by decide))
  | true =>
    -- The first page names the seek point itself.
    let place (start : Bytes) : Bytes :=
      if start = [] then ctx.subKey key version [] ++ List.replicate 8 0xFF else start
    have paged : ∀ start, rankPage (ctx.subKey key version []) true start =
        prefixScanPageReverse .zsetScore (ctx.subKey key version []) (place start) zsetPageSize >>=
          fun found => pure found.1 >>= fun items => pure (items, found.2) := by
      intro start
      refine Eq.trans ?_ (bind_pure _).symm
      by_cases first : start = [] <;> simp [rankPage, place, first]
    exact views_forEachPage_reverse (fun _ => True) behind trivial
      (fun acc item _ => bodies acc item)
      place (.inr (List.prefix_append _ _)) (fun start resumed => if_neg resumed)
      ⟨by decide, by decide, pure, fun _ => viewed_pure _, paged⟩

theorem viewed_rankBody (startRank count : ℕ) (acc : List (F64 × Bytes) × ℕ) (item : Entry) :
    Viewed observer (rankBody ctx startRank count acc item) := by
  unfold rankBody
  split
  · exact views_protocol rfl (by decide)
  · exact Views.ite (viewed_pure _) ((viewed_pure _).ite (viewed_pure _))

theorem viewed_withScoresOption (options : List Bytes) :
    Viewed observer (withScoresOption options) := by
  unfold withScoresOption
  split
  · exact viewed_pure _
  · exact (viewed_pure _).ite (views_command rfl (by decide))

theorem framed_pairReply (withScores : Bool) (pair : F64 × Bytes) :
    ∀ value ∈ pairReply ctx withScores pair, value.Framed := by
  cases withScores <;> simp [pairReply]

theorem viewed_parseScoreRangeOptions (args : List Bytes) (opts : ScoreRangeOptions) :
    Viewed observer (parseScoreRangeOptions args opts) := by
  fun_induction parseScoreRangeOptions args opts with
  | case1 => exact viewed_pure _
  | case2 arg rest opts _ ih => exact ih
  | case3 arg opts _ _ offsetArg countArg rest ih =>
    exact (viewed_parseUsize _).bind fun offset => (viewed_parseUsize _).bind (ih offset)
  | case4 | case5 => exact views_command rfl (by decide)

theorem viewed_scorePairs (items : List Entry) : Viewed observer (scorePairs ctx items) := by
  induction items with
  | nil => exact viewed_pure _
  | cons item items ih =>
    unfold scorePairs
    split
    · exact views_protocol rfl (by decide)
    · exact ih.bind fun _ => viewed_pure _

/-- A pair that is taken adds bulk strings to the reply. -/
theorem takeScored_framed (opts : ScoreRangeOptions) {scan : ScoreScan} (pair : F64 × Bytes)
    (framed : AllFramed scan.result) : AllFramed (takeScored ctx opts scan pair).value.result := by
  have longer : AllFramed (scan.result ++ pairReply ctx opts.withScores pair) :=
    List.forall_mem_append.mpr ⟨framed, framed_pairReply _ pair⟩
  unfold takeScored
  dsimp only
  split_ifs
  · exact framed
  · exact longer
  · exact longer

theorem viewed_rankSearch (targetScore : F64) (target : Bytes) (scan : RankScan) (item : Entry) :
    Viewed observer (rankSearch ctx targetScore target scan item) := by
  unfold rankSearch
  split
  · exact viewed_pure _
  · split
    · exact views_protocol rfl (by decide)
    · exact (viewed_pure _).ite (viewed_pure _)

variable (finds : ∀ key ∈ args.head?, observer.Finds .zset ctx key)
include finds

theorem views_zscore : Views observer RespValue.Framed (zscore ctx args) := by
  unfold zscore
  split
  · exact (views_readZsetMeta (finds _ rfl)).found (views_pure trivial) fun _ opens =>
      (viewed_readScore opens.2 _).bind fun _ => views_pure trivial
  · exact views_wrongArgCount rfl (by decide)

theorem views_zcard : Views observer RespValue.Framed (zcard ctx args) := by
  unfold zcard
  split
  · exact (views_readZsetMeta (finds _ rfl)).found (views_pure trivial) fun _ _ =>
      views_pure trivial
  · exact views_wrongArgCount rfl (by decide)

theorem views_rangeByRank {name : String} (plain : Plain name) (reverse : Bool) :
    Views observer RespValue.Framed (rangeByRank ctx name reverse args) := by
  unfold rangeByRank
  split
  · refine Views.ite (views_raise (onLine_wrongArgCount plain)) ?_
    refine (viewed_withScoresOption _).bind fun withScores => ?_
    refine (views_readZsetMeta (finds _ rfl)).found (views_pure (by simp)) fun meta' opens => ?_
    refine (viewed_parseI64 _).bind fun start => (viewed_parseI64 _).bind fun stop => ?_
    refine Viewed.bind ?_ fun items => views_pure ?_
    · exact Views.ite (viewed_pure _) <| Viewed.bind
        (viewed_rankPages opens.2 reverse (viewed_rankBody _ _) _) fun _ => viewed_pure _
    · rw [RespValue.framed_array, List.forall_mem_flatMap]
      exact fun pair _ => framed_pairReply withScores pair
  · exact views_raise (onLine_wrongArgCount plain)

theorem views_rankOf {name : String} (plain : Plain name) (reverse : Bool) :
    Views observer RespValue.Framed (rankOf ctx name reverse args) := by
  unfold rankOf
  split
  · refine (views_readZsetMeta (finds _ rfl)).found (views_pure trivial) fun meta' opens => ?_
    exact (viewed_readScore opens.2 _).bind fun
      | none => views_pure trivial
      | some targetScore =>
        (viewed_rankPages opens.2 reverse (viewed_rankSearch targetScore _) _).bind fun
          | .found _ => views_pure trivial
          | .missing _ => views_pure trivial
  · exact views_raise (onLine_wrongArgCount plain)

theorem views_zrangebyscore : Views observer RespValue.Framed (zrangebyscore ctx args) := by
  unfold zrangebyscore
  split
  · refine (views_readZsetMeta (finds _ rfl)).found (views_pure (by simp)) fun meta' opens => ?_
    refine (viewed_parseScore _).bind fun min => (viewed_parseScore _).bind fun max => ?_
    refine (viewed_parseScoreRangeOptions _ _).bind fun opts => ?_
    refine Views.bind (views_forEachPageFrom (fun scan => AllFramed scan.result)
      (opens.2.behind (by decide)) allFramed_nil (fun scan pair framed => ?_)
      (.inr (ctx.subKey_prefix_iff.mpr ⟨_, rfl⟩))
      ⟨by decide, by decide, _, viewed_scorePairs, fun _ => rfl⟩) fun _ framed =>
        views_pure framed.array
    exact Views.ite (views_pure framed) (views_pure (takeScored_framed opts pair framed))
  · exact views_wrongArgCount rfl (by decide)

theorem views_zrevrangebyscore : Views observer RespValue.Framed (zrevrangebyscore ctx args) := by
  unfold zrevrangebyscore
  split
  · refine (views_readZsetMeta (finds _ rfl)).found (views_pure (by simp)) fun meta' opens => ?_
    refine (viewed_parseScore _).bind fun max => (viewed_parseScore _).bind fun min => ?_
    refine (viewed_parseScoreRangeOptions _ _).bind fun opts => ?_
    refine Views.bind (views_forEachPage_reverse (fun scan => AllFramed scan.result)
      (opens.2.behind (by decide)) allFramed_nil (fun scan pair framed => ?_) id (.inl rfl)
        (fun start _ => rfl)
      ⟨by decide, by decide, _, viewed_scorePairs, fun _ => rfl⟩) fun _ framed =>
        views_pure framed.array
    exact Views.ite (views_pure framed) <| Views.ite (views_pure framed)
      (views_pure (takeScored_framed opts pair framed))
  · exact views_wrongArgCount rfl (by decide)

end SortedSets

section Streams

theorem viewed_decodeEntries (items : List Entry) : Viewed observer (decodeEntries ctx items) := by
  induction items with
  | nil => exact viewed_pure _
  | cons item items ih =>
    unfold decodeEntries
    split
    · exact views_protocol rfl (by decide)
    · split
      · exact views_protocol rfl (by decide)
      · exact ih.bind fun _ => viewed_pure _

theorem fetches_iterEntriesPage (version : UInt64) :
    Fetches observer (prefixScanPage .subkey (ctx.subKey key version []))
      (iterEntriesPage ctx key version)
      streamPageLimit :=
  ⟨by decide, by decide, _, viewed_decodeEntries, fun _ => rfl⟩

theorem viewed_xrangeCount (options : List Bytes) : Viewed observer (xrangeCount options) := by
  unfold xrangeCount
  split
  · exact Views.ite (views_command rfl (by decide))
      ((viewed_parseUsize _).bind fun _ => viewed_pure _)
  · exact viewed_pure _

theorem framed_buildEntryResp (entry : EntryId × List (Bytes × Bytes)) :
    (buildEntryResp entry).Framed := by
  simp only [buildEntryResp, RespValue.framed_array, List.forall_mem_cons, List.forall_mem_flatMap]
  simp

theorem parseIdWord_onLine {text : Bytes} (fault : Fault)
    (failed : parseIdWord text = .error fault) :
    fault.OnLine := by
  unfold parseIdWord at failed
  split at failed
  · cases failed
  · exact Except.error.inj failed ▸ onLine_command (plain_of_chars rfl (by decide))

/-- Two steps of a parser that report errors on one line. -/
theorem Except.bind_onLine {α β : Type} {first : Except Fault α} {next : α → Except Fault β}
    (lines : ∀ fault, first = .error fault → fault.OnLine)
    (lines' : ∀ value fault, next value = .error fault → fault.OnLine) (fault : Fault)
    (failed : first >>= next = .error fault) : fault.OnLine := by
  cases first with
  | error other =>
    cases failed
    exact lines _ rfl
  | ok value => exact lines' value fault failed

theorem EntryId.parse_onLine {text : Bytes} (fault : Fault)
    (failed : EntryId.parse text = .error fault) :
    fault.OnLine := by
  unfold EntryId.parse at failed
  split_ifs at failed
  split at failed
  · exact Except.error.inj failed ▸ onLine_command (plain_of_chars rfl (by decide))
  · refine Except.bind_onLine parseIdWord_onLine (fun _ => Except.bind_onLine parseIdWord_onLine ?_)
      fault failed
    rintro _ _ ⟨⟩

theorem parseRangeBound_onLine {text : Bytes} (fault : Fault)
    (failed : parseRangeBound text = .error fault) : fault.OnLine := by
  unfold parseRangeBound at failed
  split_ifs at failed
  · refine Except.bind_onLine parseIdWord_onLine ?_ fault failed
    rintro _ _ ⟨⟩
  · exact EntryId.parse_onLine fault failed

theorem xrangeBody_framed (start stop : EntryId) {acc : List RespValue × Option ℕ}
    (entry : EntryId × List (Bytes × Bytes)) (framed : AllFramed acc.1) :
    AllFramed (xrangeBody start stop acc entry).value.1 := by
  obtain ⟨result, remaining⟩ := acc
  have longer : AllFramed (result ++ [buildEntryResp entry]) :=
    AllFramed.snoc framed (framed_buildEntryResp entry)
  unfold xrangeBody
  dsimp only
  split_ifs
  · exact framed
  · exact framed
  · cases remaining with
    | none => exact longer
    | some n =>
      dsimp only
      split_ifs <;> exact longer

theorem views_xlen (finds : ∀ key ∈ args.head?, observer.Finds .stream ctx key) :
    Views observer RespValue.Framed (xlen ctx args) := by
  unfold xlen
  split
  · exact (views_liveStreamMeta (finds _ rfl)).found (views_pure trivial) fun _ _ =>
      views_pure trivial
  · exact views_wrongArgCount rfl (by decide)

theorem views_xrange (finds : ∀ key ∈ args.head?, observer.Finds .stream ctx key) :
    Views observer RespValue.Framed (xrange ctx args) := by
  unfold xrange
  split
  · refine Views.ite (views_wrongArgCount rfl (by decide)) ?_
    refine (viewed_ofExcept parseRangeBound_onLine).bind fun start =>
      (viewed_ofExcept parseRangeBound_onLine).bind fun stop => (viewed_xrangeCount _).bind
        fun count => ?_
    refine (views_liveStreamMeta (finds _ rfl)).found (views_pure (by simp)) fun meta' opens => ?_
    exact Views.bind
      (views_forEachPageFrom (fun acc => AllFramed acc.1) (opens.2.behind (by decide))
      allFramed_nil (fun _ entry framed => views_pure (xrangeBody_framed _ _ entry framed))
        (.inl rfl)
      (fetches_iterEntriesPage _)) fun _ framed => views_pure framed.array
  · exact views_wrongArgCount rfl (by decide)

theorem views_xreadLoop {streams : List (Bytes × Bytes)}
    (finds : ∀ stream ∈ streams, observer.Finds .stream ctx stream.1) :
    Views observer AllFramed (xreadLoop ctx streams) := by
  induction streams with
  | nil => exact views_pure allFramed_nil
  | cons stream streams ih =>
    obtain ⟨first, rest⟩ := List.forall_mem_cons.mp finds
    refine (viewed_ofExcept EntryId.parse_onLine).bind fun start => ?_
    refine (views_liveStreamMeta first).found (ih rest) fun meta' opens => ?_
    refine Views.bind (views_forEachPageFrom AllFramed (opens.2.behind (by decide)) allFramed_nil
      (fun entries entry framed => views_pure ?_) (.inl rfl) (fetches_iterEntriesPage _))
      fun entries framed => (ih rest).bind fun others framed' =>
        (views_pure framed').ite (views_pure ?_)
    · show AllFramed (if entry.1.le start then entries else entries ++ [buildEntryResp entry])
      split_ifs
      · exact framed
      · exact framed.snoc (framed_buildEntryResp entry)
    · exact framed'.cons (by simpa [AllFramed] using framed)

def xreadKeys (args : List Bytes) : List Bytes := args.tail.take (args.tail.length / 2)

theorem views_xread (finds : ∀ key ∈ xreadKeys args, observer.Finds .stream ctx key) :
    Views observer RespValue.Framed (xread ctx args) := by
  unfold xread
  split
  · refine Views.ite (views_command rfl (by decide))
      (Views.ite (views_wrongArgCount rfl (by decide)) ?_)
    refine (views_xreadLoop fun stream member => ?_).bind fun _ framed => views_pure framed.array
    exact finds stream.1 (List.of_mem_zip member).1
  · exact views_wrongArgCount rfl (by decide)

end Streams

section Bitmaps

theorem viewed_parseOffset (text : Bytes) : Viewed observer (parseOffset text) := by
  unfold parseOffset
  split
  · exact viewed_pure _
  · exact views_command rfl (by decide)

theorem viewed_readFragment {meta' : Metadata} (sees : observer.Sees ctx key meta'.version)
    (index : ℕ) :
    Viewed observer (readFragment ctx meta' key index) :=
  (viewed_element sees (by decide) _).bind fun _ => viewed_pure _

theorem viewed_bitcountLoop {meta' : Metadata} (sees : observer.Sees ctx key meta'.version)
    (start stop n fragIdx count : ℕ) :
    Viewed observer (bitcountLoop ctx meta' key start stop n fragIdx count) := by
  induction n generalizing fragIdx count with
  | zero => exact viewed_pure _
  | succ n ih => exact (viewed_readFragment sees _).bind fun _ => (ih _ _).ite (ih _ _)

theorem viewed_bitcountRange (range : List Bytes) : Viewed observer (bitcountRange range) := by
  unfold bitcountRange
  split
  · exact viewed_pure _
  · exact (viewed_parseI64 _).bind fun _ => (viewed_parseI64 _).bind fun _ => viewed_pure _
  · exact views_wrongArgCount rfl (by decide)

variable (finds : ∀ key ∈ args.head?, observer.Finds .bitmap ctx key)
include finds

theorem views_getbit : Views observer RespValue.Framed (getbit ctx args) := by
  unfold getbit
  split
  · refine (viewed_parseOffset _).bind fun _ => ?_
    exact (views_readBitmapMeta (finds _ rfl)).found (views_pure trivial) fun _ opens =>
      (viewed_readFragment opens.2 _).bind fun _ => views_pure trivial
  · exact views_wrongArgCount rfl (by decide)

theorem views_bitcount : Views observer RespValue.Framed (bitcount ctx args) := by
  unfold bitcount
  split
  · exact views_wrongArgCount rfl (by decide)
  · refine (viewed_bitcountRange _).bind fun _ => ?_
    refine (views_readBitmapMeta (finds _ rfl)).found (views_pure trivial) fun _ opens => ?_
    exact Views.ite (views_pure trivial) <| Views.ite (views_pure trivial) <|
      (viewed_bitcountLoop opens.2 _ _ _ _ _).bind fun _ => views_pure trivial

end Bitmaps

end Cmd

section Table

def Command.reads : Command → Bool
  | .get | .mget | .exists' | .ttl | .pttl | .ping | .echo | .dbsize | .hget | .hmget | .hgetall
  | .hexists | .hlen | .hscan | .lrange | .lindex | .llen | .sismember | .smembers | .scard
  | .sinter | .sdiff | .sunion | .zrange | .zrevrange | .zrangebyscore | .zrevrangebyscore
  | .zrank | .zrevrank | .zscore | .zcard | .xlen | .xrange | .xread | .getbit | .bitcount => true
  | _ => false

/-- The type of the values that a command works on, for the commands that look at
keys through the loader of a type. -/
def Command.family : Command → Option DataType
  | .get | .mget | .incr | .decr | .append => some .string
  | .hset | .hget | .hmget | .hgetall | .hdel | .hexists | .hlen | .hscan => some .hash
  | .lpush | .rpush | .lpop | .rpop | .lrange | .lindex | .llen => some .list
  | .sadd | .srem | .sismember | .smembers | .scard | .sinter | .sdiff | .sunion => some .set
  | .zadd | .zrange | .zrangebyscore | .zrevrange | .zrevrangebyscore | .zrem | .zrank | .zrevrank
  | .zscore | .zcard | .zincrby => some .zset
  | .xadd | .xlen | .xrange | .xread => some .stream
  | .setbit | .getbit | .bitcount | .bitop => some .bitmap
  | .set | .mset | .del | .exists' | .expire | .pexpire | .ttl | .pttl | .persist | .ping | .echo
  | .dbsize | .flushdb => none

/-- The keys whose metadata a command reads. `DBSIZE` and `FLUSHDB` name none of
the keys they look at. -/
def Command.readKeys : Command → List Bytes → List Bytes
  | .mget, args | .del, args | .exists', args | .sinter, args | .sdiff, args | .sunion, args => args
  | .xread, args => xreadKeys args
  | .bitop, args => args.drop 2
  | .mset, _ | .ping, _ | .echo, _ | .dbsize, _ | .flushdb, _ => []
  | _, args => args.take 1

/-- The page of `HSCAN`, if that is the command, is the same. -/
def CursorAlike (ctx : CommandContext) (command : Command) (args : List Bytes) (env env' : Env)
    (store store' : Store) : Prop :=
  command = .hscan → ∀ key ∈ args.head?, ∀ meta' start count,
    exec env (readHashMeta ctx key) store = (.ok (some meta'), store) →
    args[1]?.map decodeCursor = some (.ok (some start)) →
    Same env env' store store'
      (prefixScanPage .subkey (ctx.subKey key meta'.version []) start count)

theorem mem_take_one {args : List Bytes} (member : key ∈ args.head?) : key ∈ args.take 1 := by
  cases args with
  | nil => cases member
  | cons first args =>
    obtain rfl : first = key := Option.some.inj member
    simp

/-- What a command finds under a key is the same to both readers: the record of its
type or, if it has none, any record at the same time. -/
def Observer.Meets (observer : Observer) (command : Command) (ctx : CommandContext) (key : Bytes) :
    Prop :=
  match command.family with
  | some type => observer.Finds type ctx key
  | none => observer.LooksUp ctx key

/-- A reading command views the keys it names. `DBSIZE` names none. -/
theorem Command.views {command : Command} (reads : command.reads = true) (named : command ≠ .dbsize)
    (ordered : observer.Shares fun env env' _ _ => env'.hashOrder = env.hashOrder)
    (meets : ∀ key ∈ command.readKeys args, observer.Meets command ctx key)
    (cursor :
      observer.Shares fun env env' store store' =>
      CursorAlike ctx command args env env' store store') :
    Views observer RespValue.Framed (command.run ctx args) := by
  have first : command.readKeys args = args.take 1 → ∀ key ∈ args.head?,
      observer.Meets command ctx key :=
    fun shape key member => meets key (shape ▸ mem_take_one member)
  cases command <;> cases reads
  case get => exact views_get (first rfl)
  case mget => exact views_mget meets
  case exists' => exact views_exists meets
  case ttl => exact views_ttl (first rfl)
  case pttl => exact views_pttl (first rfl)
  case ping => exact views_ping args
  case echo => exact views_echo args
  case dbsize => exact absurd rfl named
  case hget => exact views_hget (first rfl)
  case hmget => exact views_hmget (first rfl)
  case hgetall => exact views_hgetall (first rfl)
  case hexists => exact views_hexists (first rfl)
  case hlen => exact views_hlen (first rfl)
  case hscan =>
    refine views_hscan (first rfl) fun key member meta' start count ran decoded => ?_
    cases observer with
    | single => exact quiet_prefixScanPage _ _ _ _
    | pair env env' store store' =>
      exact (cursor rfl key member meta' start count ran decoded).viewed
  case lrange => exact views_lrange (first rfl)
  case lindex => exact views_lindex (first rfl)
  case llen => exact views_llen (first rfl)
  case sismember => exact views_sismember (first rfl)
  case smembers => exact views_smembers ordered (first rfl)
  case scard => exact views_scard (first rfl)
  case sinter => exact views_sinter meets
  case sdiff => exact views_sdiff meets
  case sunion => exact views_sunion meets
  case zrange => exact views_rangeByRank (first rfl) (plain_of_chars rfl (by decide)) _
  case zrevrange => exact views_rangeByRank (first rfl) (plain_of_chars rfl (by decide)) _
  case zrangebyscore => exact views_zrangebyscore (first rfl)
  case zrevrangebyscore => exact views_zrevrangebyscore (first rfl)
  case zrank => exact views_rankOf (first rfl) (plain_of_chars rfl (by decide)) _
  case zrevrank => exact views_rankOf (first rfl) (plain_of_chars rfl (by decide)) _
  case zscore => exact views_zscore (first rfl)
  case zcard => exact views_zcard (first rfl)
  case xlen => exact views_xlen (first rfl)
  case xrange => exact views_xrange (first rfl)
  case xread => exact views_xread meets
  case getbit => exact views_getbit (first rfl)
  case bitcount => exact views_bitcount (first rfl)

theorem Observer.meets_single (ctx : CommandContext) (command : Command) (key : Bytes) :
    Observer.single.Meets command ctx key := by
  unfold Observer.Meets
  split <;> trivial

/-- A reading command makes no write, and its reply is framed. -/
theorem Command.answers (ctx : CommandContext) {command : Command} (reads : command.reads = true)
    (args : List Bytes) : Answers RespValue.Framed (command.run ctx args) := by
  change Views .single RespValue.Framed (command.run ctx args)
  by_cases counting : command = .dbsize
  · subst counting
    exact @views_dbsize .single ctx trivial trivial args
  · exact Command.views reads counting trivial
      (fun key _ => Observer.meets_single ctx command key) trivial

/-- A reading command makes no write. -/
theorem Command.readOnly (ctx : CommandContext) {command : Command} (reads : command.reads = true)
    (args : List Bytes) : ReadOnly (command.run ctx args) :=
  (Command.answers ctx reads args).reads.readOnly

section Pairs

variable {env env' : Env} {store store' : Store}

/-- What is seen alike at the same time is met by every command. -/
theorem SeenAlike.meets (seen : SeenAlike ctx key env env store store') (command : Command) :
    Observer.Meets (.pair env env store store') command ctx key := by
  unfold Observer.Meets
  split
  · exact seen.alikeAs _
  · exact ⟨rfl, seen.record⟩

/-- A reading command replies the same where the keys it names are found in the same
way. -/
theorem Command.same {command : Command} (reads : command.reads = true) (named : command ≠ .dbsize)
    (order : env'.hashOrder = env.hashOrder)
    (meets :
      ∀ key ∈ command.readKeys args, Observer.Meets (.pair env env' store store') command ctx key)
    (cursor : CursorAlike ctx command args env env' store store') :
    Same env env' store store' (command.run ctx args) := by
  have viewed : Views (.pair env env' store store') RespValue.Framed (command.run ctx args) :=
    Command.views reads named order meets cursor
  exact viewed.same

end Pairs

end Table

end Kvdb
