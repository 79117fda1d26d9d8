import Kvdb.Command.Basic

/-!
# The elements of a key

The elements of one version of a key are the entries behind one prefix. Writing
a single element changes their number by at most one. A key that only commands
of its own type have touched is absent, or has the record its encoder wrote.
-/

namespace Kvdb

open Data Semantics

variable {ctx : CommandContext} {key : Bytes} {v : UInt64} {store after : Store}

section Contents

variable {cf : ColumnFamily}

/-- The elements of one version of a key in a family, by name, in the order of
their names. -/
def elements (ctx : CommandContext) (cf : ColumnFamily) (key : Bytes) (v : UInt64) (store : Store) :
    List Entry :=
  (store.behind cf (ctx.subKey key v [])).map fun e => (e.1.drop (ctx.subKey key v []).length, e.2)

@[simp] theorem drop_subKey (sub : Bytes) :
    (ctx.subKey key v sub).drop (ctx.subKey key v []).length = sub := by
  rw [CommandContext.subKey, CommandContext.subKey, subkey_eq_prefix_append key v sub]
  exact List.drop_left

/-- The element keys of a version are in the order of their elements. -/
@[simp] theorem subKey_lt_subKey {sub sub' : Bytes} :
    ctx.subKey key v sub < ctx.subKey key v sub' ↔ sub < sub' := by
  rw [CommandContext.subKey, CommandContext.subKey, subkey_eq_prefix_append key v sub,
    subkey_eq_prefix_append key v sub', append_lt_append_left_iff]

/-- The entries behind the prefix of a version are its elements. -/
theorem behind_eq_elements :
    store.behind cf (ctx.subKey key v []) =
      (elements ctx cf key v store).map fun e => (ctx.subKey key v e.1, e.2) := by
  rw [elements, List.map_map]
  conv_lhs => rw [← List.map_id (store.behind cf (ctx.subKey key v []))]
  refine List.map_congr_left ?_
  rintro ⟨phys, value⟩ inside
  obtain ⟨sub, rfl⟩ := ctx.subKey_prefix_iff.mp (Store.mem_behind.mp inside).2
  simp [drop_subKey]

theorem mem_elements {m value : Bytes} :
    (m, value) ∈ elements ctx cf key v store ↔ store.get cf (ctx.subKey key v m) = some value := by
  constructor
  · intro inside
    obtain ⟨⟨phys, value⟩, behind, same⟩ := List.mem_map.mp inside
    obtain ⟨stored, within⟩ := Store.mem_behind.mp behind
    obtain ⟨sub, rfl⟩ := ctx.subKey_prefix_iff.mp within
    simp only [drop_subKey, Prod.mk.injEq] at same
    obtain ⟨rfl, rfl⟩ := same
    exact stored
  · intro stored
    refine List.mem_map.mpr ⟨(ctx.subKey key v m, value), ?_, by simp [drop_subKey]⟩
    exact Store.mem_behind.mpr ⟨stored, ctx.subKey_prefix_iff.mpr ⟨m, rfl⟩⟩

theorem elements_ordered (ctx : CommandContext) (cf : ColumnFamily) (key : Bytes) (v : UInt64)
    (store : Store) :
    (elements ctx cf key v store).Pairwise fun a b => a.1 < b.1 := by
  have ordered := store.behind_ordered cf (ctx.subKey key v [])
  rw [behind_eq_elements, List.pairwise_map] at ordered
  exact ordered.imp subKey_lt_subKey.mp

theorem elements_nodup (ctx : CommandContext) (cf : ColumnFamily) (key : Bytes) (v : UInt64)
    (store : Store) :
    ((elements ctx cf key v store).map Prod.fst).Nodup :=
  List.pairwise_map.mpr ((elements_ordered ctx cf key v store).imp fun less => ne_of_lt less)

theorem elements_congr
    (same : ∀ m, after.get cf (ctx.subKey key v m) = store.get cf (ctx.subKey key v m)) :
    elements ctx cf key v after = elements ctx cf key v store := by
  refine eq_of_ordered (elements_ordered ..) (elements_ordered ..) fun e => ?_
  rw [mem_elements, mem_elements, same]

/-- A new element before all others. -/
theorem elements_put_front {m value : Bytes} (first : ∀ e ∈ elements ctx cf key v store, m < e.1) :
    elements ctx cf key v (store.apply (.put cf (ctx.subKey key v m) value)) =
      (m, value) :: elements ctx cf key v store := by
  refine eq_of_ordered (elements_ordered ..)
    (List.pairwise_cons.mpr ⟨first, elements_ordered ..⟩) ?_
  rintro ⟨m', x⟩
  rw [mem_elements, Store.get_apply_put, List.mem_cons, mem_elements, Prod.mk.injEq]
  by_cases same : m' = m
  · subst same
    have absent : store.get cf (ctx.subKey key v m') ≠ some x := fun stored =>
      lt_irrefl m' (first _ (mem_elements.mpr stored))
    simp [absent, eq_comm]
  · simp [same]

/-- A new element behind all others. -/
theorem elements_put_back {m value : Bytes} (last : ∀ e ∈ elements ctx cf key v store, e.1 < m) :
    elements ctx cf key v (store.apply (.put cf (ctx.subKey key v m) value)) =
      elements ctx cf key v store ++ [(m, value)] := by
  have ordered : (elements ctx cf key v store ++ [(m, value)]).Pairwise fun a b => a.1 < b.1 := by
    refine List.pairwise_append.mpr ⟨elements_ordered .., List.pairwise_singleton _ _, ?_⟩
    intro e inside e' single
    rw [List.mem_singleton.mp single]
    exact last e inside
  refine eq_of_ordered (elements_ordered ..) ordered ?_
  rintro ⟨m', x⟩
  rw [mem_elements, Store.get_apply_put, List.mem_append, mem_elements, List.mem_singleton,
    Prod.mk.injEq]
  by_cases same : m' = m
  · subst same
    have absent : store.get cf (ctx.subKey key v m') ≠ some x := fun stored =>
      lt_irrefl m' (last _ (mem_elements.mpr stored))
    simp [absent, eq_comm]
  · simp [same]

/-- Deleting the first element. -/
theorem elements_delete_front {m x : Bytes} {rest : List Entry}
    (shape : elements ctx cf key v store = (m, x) :: rest) :
    elements ctx cf key v (store.apply (.delete cf (ctx.subKey key v m))) = rest := by
  have ordered := elements_ordered ctx cf key v store
  rw [shape, List.pairwise_cons] at ordered
  refine eq_of_ordered (elements_ordered ..) ordered.2 ?_
  rintro ⟨m', y⟩
  have before : store.get cf (ctx.subKey key v m') = some y ↔ (m', y) ∈ (m, x) :: rest := by
    rw [← shape, mem_elements]
  rw [mem_elements, Store.get_apply_delete]
  by_cases same : m' = m
  · subst same
    have gone : (m', y) ∉ rest := fun inside => lt_irrefl m' (ordered.1 _ inside)
    simp [gone]
  · simp [same, before]

/-- Deleting the last element. -/
theorem elements_delete_back {m x : Bytes} {rest : List Entry}
    (shape : elements ctx cf key v store = rest ++ [(m, x)]) :
    elements ctx cf key v (store.apply (.delete cf (ctx.subKey key v m))) = rest := by
  have ordered := elements_ordered ctx cf key v store
  rw [shape, List.pairwise_append] at ordered
  refine eq_of_ordered (elements_ordered ..) ordered.1 ?_
  rintro ⟨m', y⟩
  have before : store.get cf (ctx.subKey key v m') = some y ↔ (m', y) ∈ rest ++ [(m, x)] := by
    rw [← shape, mem_elements]
  rw [mem_elements, Store.get_apply_delete]
  by_cases same : m' = m
  · subst same
    have gone : (m', y) ∉ rest := fun inside =>
      lt_irrefl m' (ordered.2.2 _ inside _ (List.mem_singleton_self _))
    simp [gone]
  · simp [same, before]

section Walks

variable {env : Env} {β : Type} {limit : ℕ} {body : β → Entry → Prog (ForInStep β)}
  (positive : 0 < limit) (small : limit ≤ maxPageLimit)
  (readonly : ∀ acc item, (exec env (body acc item) store).2 = store)
include positive small readonly

/-- A paging loop over a version visits every element. -/
theorem exec_forEachPage_elements (acc : β) :
    exec env (forEachPage cf (fun start => prefixScanPage cf (ctx.subKey key v []) start limit) acc
      body) store =
      exec env
        (forEach body ((elements ctx cf key v store).map fun e => (ctx.subKey key v e.1, e.2))
        acc >>= ForInStep.settle) store := by
  have resumable : Resumable store cf (ctx.subKey key v []) limit := .inl (ctx.subKey_ne_nil _ _ _)
  have paged : ∀ start rest, Position store cf (ctx.subKey key v []) start rest →
      exec env (prefixScanPage cf (ctx.subKey key v []) start limit) store =
        (.ok ((pageOf limit rest).1.map id, (pageOf limit rest).2), store) := by
    intro start rest position
    rw [exec_prefixScanPage position positive small, List.map_id]
  rw [exec_forEachPage paged readonly positive resumable, List.map_id, behind_eq_elements]

/-- A paging loop that only updates its accumulator folds over the elements. -/
theorem exec_forEachPage_fold (f : β → Entry → β)
    (updates : ∀ e acc, body acc (ctx.subKey key v e.1, e.2) = pure (.yield (f acc e))) (acc : β) :
    exec env (forEachPage cf (fun start => prefixScanPage cf (ctx.subKey key v []) start limit) acc
      body) store = (.ok ((elements ctx cf key v store).foldl f acc), store) := by
  have folded : ∀ (items : List Entry) acc,
      forEach body (items.map fun e => (ctx.subKey key v e.1, e.2)) acc =
      pure (.yield (items.foldl f acc)) := by
    intro items
    induction items with
    | nil => exact fun _ => rfl
    | cons item items ih =>
      intro acc
      rw [List.map_cons, forEach, updates, pure_bind]
      exact ih _
  rw [exec_forEachPage_elements positive small readonly, folded]
  rfl

end Walks

end Contents

def elementCount (ctx : CommandContext) (key : Bytes) (v : UInt64) (store : Store) : ℕ :=
  (store.behind .subkey (ctx.subKey key v [])).length

theorem elementCount_eq_count (ctx : CommandContext) (key : Bytes) (v : UInt64) (store : Store) :
    elementCount ctx key v store =
      (store.family .subkey).count fun phys => startsWith phys (ctx.subKey key v []) := by
  rw [elementCount, Store.behind, OrderedMap.count, List.countP_eq_length_filter]

theorem length_elements :
    (elements ctx .subkey key v store).length = elementCount ctx key v store :=
  List.length_map _

theorem startsWith_subKey (sub : Bytes) :
    startsWith (ctx.subKey key v sub) (ctx.subKey key v []) = true := by
  rw [startsWith_iff, CommandContext.subKey_prefix_iff]
  exact ⟨sub, rfl⟩

/-- Storing an element adds one exactly when it is new. -/
theorem elementCount_put (m value : Bytes) :
    elementCount ctx key v (store.apply (.put .subkey (ctx.subKey key v m) value)) =
      elementCount ctx key v store +
        if (store.get .subkey (ctx.subKey key v m)).isNone then 1 else 0 := by
  rw [elementCount_eq_count, elementCount_eq_count, Store.family_apply_put, OrderedMap.count_insert,
    startsWith_subKey, Store.get]
  cases (store.family .subkey).get (ctx.subKey key v m) <;> rfl

/-- Deleting an element takes one away exactly when it was stored. -/
theorem elementCount_delete (m : Bytes) :
    elementCount ctx key v (store.apply (.delete .subkey (ctx.subKey key v m))) +
        (if (store.get .subkey (ctx.subKey key v m)).isSome then 1 else 0) =
      elementCount ctx key v store := by
  rw [elementCount_eq_count, elementCount_eq_count, Store.family_apply_delete,
    ← (store.family .subkey).count_erase _ (ctx.subKey key v m), startsWith_subKey, Store.get]
  cases (store.family .subkey).get (ctx.subKey key v m) <;> rfl

theorem elementCount_congr (same : ∀ phys, after.get .subkey phys = store.get .subkey phys) :
    elementCount ctx key v after = elementCount ctx key v store := by
  have families : after.family .subkey = store.family .subkey := OrderedMap.ext_get same
  rw [elementCount, elementCount, Store.behind, Store.behind, families]

section Batches

/-- The operations that store some elements. -/
def putElements (ctx : CommandContext) (key : Bytes) (v : UInt64) (items : List Entry) :
    WriteBatch :=
  items.map fun item => .put .subkey (ctx.subKey key v item.1) item.2

def deleteElements (ctx : CommandContext) (key : Bytes) (v : UInt64) (names : List Bytes) :
    WriteBatch :=
  names.map fun m => .delete .subkey (ctx.subKey key v m)

def newNames (ctx : CommandContext) (key : Bytes) (v : UInt64) (store : Store)
    (names : List Bytes) :
    List Bytes :=
  names.filter fun m => (store.get .subkey (ctx.subKey key v m)).isNone

def storedNames (ctx : CommandContext) (key : Bytes) (v : UInt64) (store : Store)
    (names : List Bytes) : List Bytes :=
  names.filter fun m => (store.get .subkey (ctx.subKey key v m)).isSome

theorem newNames_cons (m : Bytes) (names : List Bytes) :
    newNames ctx key v store (m :: names) =
      if (store.get .subkey (ctx.subKey key v m)).isNone then m :: newNames ctx key v store names
      else newNames ctx key v store names :=
  List.filter_cons

theorem storedNames_cons (m : Bytes) (names : List Bytes) :
    storedNames ctx key v store (m :: names) =
      if (store.get .subkey (ctx.subKey key v m)).isSome then m :: storedNames ctx key v store names
      else storedNames ctx key v store names :=
  List.filter_cons

/-- Storing elements adds one for each new name, if new names are not repeated. -/
theorem elementCount_putElements (items : List Entry)
    (nodup : (newNames ctx key v store (items.map Prod.fst)).Nodup) :
    elementCount ctx key v (store.write (putElements ctx key v items)) =
      elementCount ctx key v store + (newNames ctx key v store (items.map Prod.fst)).length := by
  induction items generalizing store with
  | nil => rfl
  | cons item items ih =>
    obtain ⟨m, value⟩ := item
    let next := store.apply (.put .subkey (ctx.subKey key v m) value)
    have get_next : ∀ m', next.get .subkey (ctx.subKey key v m') =
        if m' = m then some value else store.get .subkey (ctx.subKey key v m') := by
      intro m'
      simp [next, Store.get_apply_put]
    have rest : newNames ctx key v next (items.map Prod.fst) =
        newNames ctx key v store (items.map Prod.fst) := by
      refine List.filter_congr fun m' inside => ?_
      by_cases same : m' = m
      · -- A repeated name was stored before, or it would be repeated among the new ones.
        subst same
        have old : (store.get .subkey (ctx.subKey key v m')).isNone = false := by
          by_contra isNew
          rw [Bool.not_eq_false] at isNew
          rw [List.map_cons, newNames_cons, if_pos isNew, List.nodup_cons] at nodup
          exact nodup.1 (List.mem_filter.mpr ⟨inside, isNew⟩)
        rw [old, get_next, if_pos rfl]
        rfl
      · rw [get_next, if_neg same]
    have nodup' : (newNames ctx key v store (items.map Prod.fst)).Nodup :=
      nodup.sublist ((List.sublist_cons_self _ _).filter _)
    have counted : elementCount ctx key v (next.write (putElements ctx key v items)) = _ :=
      ih (rest.symm ▸ nodup')
    have first : elementCount ctx key v next = _ := elementCount_put m value
    change elementCount ctx key v (next.write (putElements ctx key v items)) = _
    rw [counted, rest, first, List.map_cons, newNames_cons]
    by_cases isNew : (store.get .subkey (ctx.subKey key v m)).isNone
    · rw [if_pos isNew, if_pos isNew, List.length_cons]
      omega
    · rw [if_neg isNew, if_neg isNew, Nat.add_zero]

/-- Deleting elements takes one away for each stored name, if stored names are
not repeated. -/
theorem elementCount_deleteElements (names : List Bytes)
    (nodup : (storedNames ctx key v store names).Nodup) :
    elementCount ctx key v (store.write (deleteElements ctx key v names)) +
        (storedNames ctx key v store names).length =
      elementCount ctx key v store := by
  induction names generalizing store with
  | nil => rfl
  | cons m names ih =>
    let next := store.apply (.delete .subkey (ctx.subKey key v m))
    have get_next : ∀ m', next.get .subkey (ctx.subKey key v m') =
        if m' = m then none else store.get .subkey (ctx.subKey key v m') := by
      intro m'
      simp [next, Store.get_apply_delete]
    have rest : storedNames ctx key v next names = storedNames ctx key v store names := by
      refine List.filter_congr fun m' inside => ?_
      by_cases same : m' = m
      · subst same
        have missing : (store.get .subkey (ctx.subKey key v m')).isSome = false := by
          by_contra stored
          rw [Bool.not_eq_false] at stored
          rw [storedNames_cons, if_pos stored, List.nodup_cons] at nodup
          exact nodup.1 (List.mem_filter.mpr ⟨inside, stored⟩)
        rw [missing, get_next, if_pos rfl]
        rfl
      · rw [get_next, if_neg same]
    have nodup' : (storedNames ctx key v store names).Nodup :=
      nodup.sublist ((List.sublist_cons_self _ _).filter _)
    have counted : elementCount ctx key v (next.write (deleteElements ctx key v names)) + _ = _ :=
      ih (rest.symm ▸ nodup')
    have first : elementCount ctx key v next + _ = _ := elementCount_delete m
    change elementCount ctx key v (next.write (deleteElements ctx key v names)) + _ = _
    rw [rest] at counted
    rw [← first, ← counted, storedNames_cons]
    by_cases stored : (store.get .subkey (ctx.subKey key v m)).isSome
    · rw [if_pos stored, if_pos stored, List.length_cons]
      omega
    · rw [if_neg stored, if_neg stored, Nat.add_zero]

end Batches

def Unused (ctx : CommandContext) (key : Bytes) (v : UInt64) (store : Store) : Prop :=
  ∀ cf, cf ≠ .metadata → ∀ sub, store.get cf (ctx.subKey key v sub) = none

theorem Unused.elementCount (unused : Unused ctx key v store) :
    elementCount ctx key v store = 0 := by
  refine List.length_eq_zero_iff.mpr (List.eq_nil_iff_forall_not_mem.mpr ?_)
  rintro ⟨phys, value⟩ inside
  obtain ⟨stored, behind⟩ := Store.mem_behind.mp inside
  obtain ⟨sub, rfl⟩ := ctx.subKey_prefix_iff.mp behind
  rw [unused .subkey (by decide) sub] at stored
  cases stored

/-- A record of the given type as commands of that type leave it: it survives
its encoding and does not expire. -/
structure Metadata.Proper (type : DataType) (meta' : Metadata) : Prop where
  typed : meta'.dataType = some type
  normal : meta'.Normal
  lasting : meta'.expire = 0

variable {type : DataType} {meta' : Metadata}

theorem Metadata.new_proper (type : DataType) (v : UInt64) : (Metadata.new type v).Proper type where
  typed := Metadata.new_dataType type v
  normal := Metadata.new_normal type v
  lasting := rfl

theorem Metadata.Proper.resize (proper : meta'.Proper type) (size : UInt64) :
    ({ meta' with size } : Metadata).Proper type where
  typed := proper.typed
  normal := proper.normal
  lasting := proper.lasting

theorem Metadata.Proper.not_expired (proper : meta'.Proper type) (now : Int64) :
    meta'.isExpired now = false := by
  rw [Metadata.isExpired, expiredAt, proper.lasting]
  rfl

/-- The key's own metadata entry is the given record. -/
def Recorded (ctx : CommandContext) (key : Bytes) (meta' : Metadata) (store : Store) : Prop :=
  store.get .metadata (ctx.metaKey key) = some (encodeMetadata meta')

theorem recorded_put :
    Recorded ctx key meta'
      (store.apply (.put .metadata (ctx.metaKey key) (encodeMetadata meta'))) := by
  simp [Recorded, Store.get_apply_put]

theorem Recorded.lookup (recorded : Recorded ctx key meta' store) :
    ctx.lookupMeta store key = some (encodeMetadata meta') :=
  ctx.lookupMeta_of_some recorded

section Loading

variable {env : Env} {invalid : String}

theorem liveMeta_of_absent (absent : ctx.lookupMeta store key = none) :
    ctx.liveMeta env store type invalid key = .ok none := by
  rw [CommandContext.liveMeta, absent]

/-- A loader finds the record of its type. -/
theorem liveMeta_of_recorded (recorded : Recorded ctx key meta' store) (proper : meta'.Proper type)
    (composite : type ≠ .string) : ctx.liveMeta env store type invalid key = .ok (some meta') := by
  rw [CommandContext.liveMeta, recorded.lookup]
  simp [checkMetadata_encodeMetadata proper.typed composite proper.normal, Except.map,
    proper.not_expired]

theorem exec_loadLiveMeta_of_absent (absent : ctx.lookupMeta store key = none) :
    exec env (loadLiveMeta ctx type invalid key) store = (.ok none, store) := by
  rw [exec_loadLiveMeta, liveMeta_of_absent absent]

theorem exec_loadLiveMeta_of_recorded (recorded : Recorded ctx key meta' store)
    (proper : meta'.Proper type) (composite : type ≠ .string) :
    exec env (loadLiveMeta ctx type invalid key) store = (.ok (some meta'), store) := by
  rw [exec_loadLiveMeta, liveMeta_of_recorded recorded proper composite]

end Loading

end Kvdb
