import Kvdb.Command.Elements
import Kvdb.SortedSet.Scores

/-!
# The two indexes of a sorted set

The member index maps a member to its score, and the score index holds one
entry for each pair. They agree when every member's pair is stored and every
stored pair belongs to a member.

A batch of a sorted-set command is a sequence of single-member changes, each
moving one member from its old score to a new one, or to none. Every such change
keeps the indexes in agreement, leaves other keys and versions alone, and
changes the number of members by what it says.
-/

namespace Kvdb

open Data Semantics Cmd

variable {ctx : CommandContext} {key : Bytes} {v : UInt64} {store after : Store}

/-- The two indexes of one version of a key agree. -/
structure Indexed (ctx : CommandContext) (key : Bytes) (v : UInt64) (store : Store) : Prop where
  /-- The pair of every member is stored. -/
  scored : ∀ m s, store.get .subkey (ctx.subKey key v m) = some s →
    s.length = 8 ∧ store.get .zsetScore (ctx.subKey key v (s ++ m)) = some []
  /-- Every stored pair is the pair of a member. -/
  backed : ∀ sub value, store.get .zsetScore (ctx.subKey key v sub) = some value →
    ∃ s m, s.length = 8 ∧ sub = s ++ m ∧ store.get .subkey (ctx.subKey key v m) = some s

/-- A pair is stored exactly when it is the pair of its member. -/
theorem Indexed.pair_iff (indexed : Indexed ctx key v store) {s m : Bytes} (width : s.length = 8) :
    store.get .subkey (ctx.subKey key v m) = some s ↔
      store.get .zsetScore (ctx.subKey key v (s ++ m)) = some [] := by
  constructor
  · exact fun stored => (indexed.scored m s stored).2
  · intro pair
    obtain ⟨s', m', width', same, stored⟩ := indexed.backed _ _ pair
    obtain ⟨rfl, rfl⟩ := List.append_inj same (width.trans width'.symm)
    exact stored

theorem Indexed.pair_eq_none (indexed : Indexed ctx key v store) {s m : Bytes}
    (width : s.length = 8) (other : store.get .subkey (ctx.subKey key v m) ≠ some s) :
    store.get .zsetScore (ctx.subKey key v (s ++ m)) = none := by
  cases found : store.get .zsetScore (ctx.subKey key v (s ++ m)) with
  | none => rfl
  | some value =>
    obtain ⟨s', m', width', same, stored⟩ := indexed.backed _ _ found
    obtain ⟨rfl, rfl⟩ := List.append_inj same (width.trans width'.symm)
    exact absurd stored other

/-- Indexes that read the same agree alike. -/
theorem Indexed.of_same (indexed : Indexed ctx key v store)
    (members : ∀ m, after.get .subkey (ctx.subKey key v m) = store.get .subkey (ctx.subKey key v m))
    (pairs : ∀ sub, after.get .zsetScore (ctx.subKey key v sub) =
      store.get .zsetScore (ctx.subKey key v sub)) :
    Indexed ctx key v after where
  scored m s stored := by
    rw [members] at stored
    rw [pairs]
    exact indexed.scored m s stored
  backed sub value stored := by
    rw [pairs] at stored
    simp only [members]
    exact indexed.backed sub value stored

/-- Indexes with nothing in them agree. -/
theorem Indexed.of_none (members : ∀ m, store.get .subkey (ctx.subKey key v m) = none)
    (pairs : ∀ sub, store.get .zsetScore (ctx.subKey key v sub) = none) :
    Indexed ctx key v store where
  scored m s stored := by rw [members] at stored; cases stored
  backed sub value stored := by rw [pairs] at stored; cases stored

section Changes

/-- One member of a version gets a new score, or is removed, in both indexes. -/
structure MemberSet (ctx : CommandContext) (key : Bytes) (v : UInt64) (m : Bytes)
    (score : Option Bytes) (store after : Store) : Prop where
  member : after.get .subkey (ctx.subKey key v m) = score
  pairs : ∀ s, s.length = 8 → after.get .zsetScore (ctx.subKey key v (s ++ m)) =
    if score = some s then some [] else none
  otherMembers : ∀ phys, phys ≠ ctx.subKey key v m →
    after.get .subkey phys = store.get .subkey phys
  otherPairs : ∀ phys, (∀ s : Bytes, s.length = 8 → phys ≠ ctx.subKey key v (s ++ m)) →
    after.get .zsetScore phys = store.get .zsetScore phys
  metadata : ∀ phys, after.get .metadata phys = store.get .metadata phys

variable {m : Bytes} {score : Option Bytes}

theorem Indexed.memberSet (indexed : Indexed ctx key v store)
    (change : MemberSet ctx key v m score store after)
    (width : ∀ s, score = some s → s.length = 8) :
    Indexed ctx key v after where
  scored m' s stored := by
    by_cases same : m' = m
    · subst same
      rw [change.member] at stored
      have eight := width s stored
      exact ⟨eight, by rw [change.pairs s eight, if_pos stored]⟩
    · have elsewhere : ctx.subKey key v m' ≠ ctx.subKey key v m := by simp [same]
      rw [change.otherMembers _ elsewhere] at stored
      obtain ⟨eight, pair⟩ := indexed.scored m' s stored
      refine ⟨eight, ?_⟩
      rw [change.otherPairs, pair]
      intro s' eight' clash
      obtain ⟨-, parts⟩ := CommandContext.subKey_inj.mp clash
      exact same (List.append_inj parts (eight.trans eight'.symm)).2
  backed sub value stored := by
    by_cases own : ∃ s, s.length = 8 ∧ sub = s ++ m
    · obtain ⟨s, eight, rfl⟩ := own
      rw [change.pairs s eight] at stored
      by_cases current : score = some s
      · exact ⟨s, m, eight, rfl, by rw [change.member, current]⟩
      · rw [if_neg current] at stored
        cases stored
    · rw [change.otherPairs] at stored
      · obtain ⟨s, m', eight, rfl, found⟩ := indexed.backed sub value stored
        have different : m' ≠ m := fun same => own ⟨s, eight, by rw [same]⟩
        refine ⟨s, m', eight, rfl, ?_⟩
        rw [change.otherMembers _ (by simp [different]), found]
      · intro s eight clash
        exact own ⟨s, eight, (CommandContext.subKey_inj.mp clash).2⟩

/-- A new member. -/
theorem memberSet_putScore (indexed : Indexed ctx key v store)
    (absent : store.get .subkey (ctx.subKey key v m) = none) (new : F64) :
    MemberSet ctx key v m (some (encodeScore new)) store
      (store.write (putScore ctx key v new m)) := by
  constructor
  · simp [putScore, memberSubkey, Store.get_apply_put]
  · intro s eight
    have vacant : store.get .zsetScore (ctx.subKey key v (s ++ m)) = none :=
      indexed.pair_eq_none eight (by simp [absent])
    simp only [putScore, scoreSubkey, Store.write_cons, Store.write_nil,
      Store.get_apply_put, CommandContext.subKey_inj, true_and, List.append_cancel_right_eq,
      Option.some.injEq, reduceCtorEq, false_and, if_false, vacant]
    by_cases same : s = encodeScore new <;> simp [same, eq_comm]
  · intro phys elsewhere
    simp [putScore, memberSubkey, Store.get_apply_put, elsewhere]
  · intro phys elsewhere
    have other := elsewhere (encodeScore new) (length_encodeScore new)
    simp [putScore, scoreSubkey, Store.get_apply_put, other]
  · intro phys
    simp [putScore, Store.get_apply_put]

/-- A member moves from its score to another one. -/
theorem memberSet_replace (indexed : Indexed ctx key v store) {old : Bytes}
    (stored : store.get .subkey (ctx.subKey key v m) = some old) (new : F64) :
    MemberSet ctx key v m (some (encodeScore new)) store
      (store.write (.delete .zsetScore (scoreSubkey ctx key v (decodeScore old) m) ::
        putScore ctx key v new m)) := by
  have oldKey : scoreSubkey ctx key v (decodeScore old) m = ctx.subKey key v (old ++ m) := by
    rw [scoreSubkey, encodeScore_decodeScore (indexed.scored m old stored).1]
  rw [oldKey]
  constructor
  · simp [putScore, memberSubkey, Store.get_apply_put]
  · intro s eight
    simp only [putScore, scoreSubkey, Store.write_cons, Store.write_nil,
      Store.get_apply_put, Store.get_apply_delete, CommandContext.subKey_inj, true_and,
      List.append_cancel_right_eq, Option.some.injEq, reduceCtorEq, false_and, if_false]
    by_cases same : s = encodeScore new
    · simp [same]
    · rw [if_neg same, if_neg (Ne.symm same)]
      by_cases current : s = old
      · rw [if_pos current]
      · rw [if_neg current, indexed.pair_eq_none eight (by simpa [stored] using Ne.symm current)]
  · intro phys elsewhere
    simp [putScore, memberSubkey, Store.get_apply_put, Store.get_apply_delete, elsewhere]
  · intro phys elsewhere
    have other := elsewhere (encodeScore new) (length_encodeScore new)
    have former := elsewhere old (indexed.scored m old stored).1
    simp [putScore, scoreSubkey, Store.get_apply_put, Store.get_apply_delete, other, former]
  · intro phys
    simp [putScore, Store.get_apply_put, Store.get_apply_delete]

/-- A member is removed. -/
theorem memberSet_remove (indexed : Indexed ctx key v store) {old : Bytes}
    (stored : store.get .subkey (ctx.subKey key v m) = some old) :
    MemberSet ctx key v m none store
      (store.write [.delete .subkey (memberSubkey ctx key v m),
        .delete .zsetScore (scoreSubkey ctx key v (decodeScore old) m)]) := by
  have oldKey : scoreSubkey ctx key v (decodeScore old) m = ctx.subKey key v (old ++ m) := by
    rw [scoreSubkey, encodeScore_decodeScore (indexed.scored m old stored).1]
  rw [oldKey]
  constructor
  · simp [memberSubkey, Store.get_apply_delete]
  · intro s eight
    simp only [Store.write_cons, Store.write_nil, Store.get_apply_delete,
      CommandContext.subKey_inj, true_and, List.append_cancel_right_eq, reduceCtorEq, false_and,
      if_false]
    by_cases current : s = old
    · simp [current]
    · rw [if_neg current, indexed.pair_eq_none eight (by simpa [stored] using Ne.symm current)]
  · intro phys elsewhere
    simp [memberSubkey, Store.get_apply_delete, elsewhere]
  · intro phys elsewhere
    have former := elsewhere old (indexed.scored m old stored).1
    simp [Store.get_apply_delete, former]
  · intro phys
    simp [Store.get_apply_delete]

/-- Removing a member that is not there changes nothing. -/
theorem write_remove_absent (indexed : Indexed ctx key v store)
    (absent : store.get .subkey (ctx.subKey key v m) = none) {old : Bytes}
    (width : old.length = 8) :
    store.write [.delete .subkey (memberSubkey ctx key v m),
      .delete .zsetScore (scoreSubkey ctx key v (decodeScore old) m)] = store := by
  have vacant : store.get .zsetScore (ctx.subKey key v (old ++ m)) = none :=
    indexed.pair_eq_none width (by simp [absent])
  refine Store.ext_get fun cf phys => ?_
  simp only [Store.write_cons, Store.write_nil, Store.get_apply_delete, memberSubkey,
    scoreSubkey, encodeScore_decodeScore width]
  split_ifs with pair member
  · rw [pair.1, pair.2, vacant]
  · rw [member.1, member.2, absent]
  · rfl

/-- The indexes of other keys and versions are left alone. -/
theorem MemberSet.elsewhere (change : MemberSet ctx key v m score store after) {other : Bytes}
    {w : UInt64} (short : key.length < 2 ^ 32) (short' : other.length < 2 ^ 32)
    (different : ¬ (other = key ∧ w = v)) (indexed : Indexed ctx other w store) :
    Indexed ctx other w after := by
  have apart (sub sub' : Bytes) : ctx.subKey other w sub ≠ ctx.subKey key v sub' :=
    CommandContext.subKey_ne short' short different
  exact indexed.of_same (fun m' => change.otherMembers _ (apart _ _))
    fun sub => change.otherPairs _ fun _ _ => apart _ _

end Changes

section Counting

/-- How a single-member change counts. -/
theorem MemberSet.elementCount {m : Bytes} {score : Option Bytes}
    (change : MemberSet ctx key v m score store after) :
    elementCount ctx key v after +
        (if (store.get .subkey (ctx.subKey key v m)).isSome then 1 else 0) =
      elementCount ctx key v store + if score.isSome then 1 else 0 := by
  cases score with
  | some s =>
    have same : ∀ phys, after.get .subkey phys =
        (store.apply (.put .subkey (ctx.subKey key v m) s)).get .subkey phys := by
      intro phys
      rw [Store.get_apply_put]
      by_cases own : phys = ctx.subKey key v m
      · simp [own, change.member]
      · simp [own, change.otherMembers phys own]
    rw [elementCount_congr same, elementCount_put]
    cases store.get .subkey (ctx.subKey key v m) <;> simp
  | none =>
    have same : ∀ phys, after.get .subkey phys =
        (store.apply (.delete .subkey (ctx.subKey key v m))).get .subkey phys := by
      intro phys
      rw [Store.get_apply_delete]
      by_cases own : phys = ctx.subKey key v m
      · simp [own, change.member]
      · simp [own, change.otherMembers phys own]
    rw [elementCount_congr same, elementCount_delete]
    simp

end Counting

end Kvdb
