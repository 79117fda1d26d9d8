import Kvdb.Expiry.Absence

/-!
# The dead and the living

An expired record is absent to the commands of its type for as long as its
deadline stays in the past. `EXPIRE`, `PEXPIRE` and `PERSIST` move the deadline
of a record without asking whether it has passed, so each of them can bring an
expired key back.
-/

namespace Kvdb

open Data Semantics Cmd

variable {ctx : CommandContext} {key v : Bytes} {type : DataType} {t : Int64}
  {env : Env} {store later : Store} {request : Request}

/-- Setting a deadline writes at most the metadata value of the key. -/
theorem setExpireMs_cases (other : Bytes) (expireMs : Int64) :
    (exec env (setExpireMs ctx other expireMs) store).2 = store ∨
      ∃ v encoded, ctx.lookupMeta store other = some v ∧ withExpire v expireMs = .ok encoded ∧
        (exec env (setExpireMs ctx other expireMs) store).2 =
          store.apply (.put .metadata (ctx.metaKey other) encoded) := by
  rw [setExpireMs, ctx.exec_getMeta_bind]
  cases stored : ctx.lookupMeta store other with
  | none => exact .inl rfl
  | some v =>
    dsimp only
    by_cases empty : v = []
    · rw [if_pos empty]
      exact .inl rfl
    rw [if_neg empty]
    cases changed : withExpire v expireMs with
    | error fault => exact .inl rfl
    | ok encoded => exact .inr ⟨v, encoded, rfl, changed, rfl⟩

/-- A deadline that is found is in the metadata value. -/
theorem deadline_of_readExpire {other : Bytes} {e : Int64} {after : Store}
    (found : exec env (readExpire ctx other) store = (.ok (some (some e)), after)) :
    ∃ v, ctx.lookupMeta store other = some v ∧ 0 < deadlineOf v := by
  rw [readExpire, ctx.exec_getMeta_bind] at found
  cases stored : ctx.lookupMeta store other with
  | none => simp [stored] at found
  | some v =>
    refine ⟨v, rfl, ?_⟩
    by_contra never
    simp only [stored] at found
    split_ifs at found with empty text
    · simp at found
    · by_cases short : v.length < 1 + 8
      · simp [decodeString, short] at found
      · have past : ¬ 0 < i64OfBytes (wordAt v 1) := never
        simp [decodeString, short, past] at found
    · cases decoded : decodeMetadata v with
      | none => simp [decoded] at found
      | some meta' => simp [decoded, (decodeMetadata_fields decoded).1, never] at found

/-- The three commands set the deadline of the key they name, or do nothing. -/
theorem Request.after_expiry_cases
    (listed : request.command ∈ [Command.expire, .pexpire, .persist]) :
    request.after ctx store = store ∨ ∃ other v expireMs encoded,
      request.args.head? = some other ∧ ctx.lookupMeta store other = some v ∧
      request.deadline v = some expireMs ∧ withExpire v expireMs = .ok encoded ∧
      request.after ctx store = store.apply (.put .metadata (ctx.metaKey other) encoded) := by
  obtain ⟨command, args, env⟩ := request
  rw [Request.after_eq]
  have set : ∀ {other : Bytes} {rest : List Bytes} (expireMs : Int64), args = other :: rest →
      (exec env (command.run ctx args) store).2 =
        (exec env (setExpireMs ctx other expireMs) store).2 →
      (∀ v, ctx.lookupMeta store other = some v →
        Request.deadline ⟨command, args, env⟩ v = some expireMs) →
      (exec env (command.run ctx args) store).2 = store ∨ ∃ other v expireMs encoded,
        args.head? = some other ∧ ctx.lookupMeta store other = some v ∧
        Request.deadline ⟨command, args, env⟩ v = some expireMs ∧
        withExpire v expireMs = .ok encoded ∧
        (exec env (command.run ctx args) store).2 =
          store.apply (.put .metadata (ctx.metaKey other) encoded) := by
    intro other rest expireMs shape same deadline
    rcases @setExpireMs_cases ctx env store other expireMs with kept | ⟨v, encoded, stored,
      changed, put⟩
    · exact .inl (same.trans kept)
    · exact .inr
        ⟨other, v, expireMs, encoded, by rw [shape]; rfl, stored, deadline v stored, changed,
        same.trans put⟩
  simp only [List.mem_cons, List.not_mem_nil, or_false] at listed
  rcases listed with rfl | rfl | rfl
  · rcases args with _ | ⟨other, _ | ⟨amount, _ | ⟨_, _⟩⟩⟩
    · exact .inl rfl
    · exact .inl rfl
    · have moved := @exec_expireIn ctx other store env "EXPIRE" 1000 amount
      cases parsed : parseI64? amount with
      | none =>
        rw [parsed] at moved
        exact .inl moved
      | some n =>
        rw [parsed] at moved
        exact set _ rfl moved fun v _ => by simp [Request.deadline, parsed]
    · exact .inl rfl
  · rcases args with _ | ⟨other, _ | ⟨amount, _ | ⟨_, _⟩⟩⟩
    · exact .inl rfl
    · exact .inl rfl
    · have moved := @exec_expireIn ctx other store env "PEXPIRE" 1 amount
      cases parsed : parseI64? amount with
      | none =>
        rw [parsed] at moved
        exact .inl moved
      | some n =>
        simp only [parsed, Int64.mul_one] at moved
        exact set _ rfl moved fun v _ => by simp [Request.deadline, parsed]
    · exact .inl rfl
  · rcases args with _ | ⟨other, _ | ⟨_, _⟩⟩
    · exact .inl rfl
    · have kept : (exec env (readExpire ctx other) store).2 = store :=
        (viewed_readExpire Observer.shares_single).readOnly.exec_state
      rcases found : exec env (readExpire ctx other) store with ⟨result, after⟩
      rw [found] at kept
      subst kept
      rcases result with fault | (_ | (_ | e))
      · exact .inl (congrArg Prod.snd (exec_bind_error found))
      · exact .inl (congrArg Prod.snd (exec_bind_ok found))
      · exact .inl (congrArg Prod.snd (exec_bind_ok found))
      · obtain ⟨v, stored, expires⟩ := deadline_of_readExpire found
        refine set 0 rfl ?_ fun v' stored' => ?_
        · refine (congrArg Prod.snd (exec_bind_ok found)).trans ?_
          dsimp only
          rw [clearExpire, exec_bind]
          -- The reply does not touch the store.
          rcases exec env (setExpireMs ctx other 0) after with ⟨_ | _, _⟩ <;> rfl
        · obtain rfl : v = v' := Option.some.inj (stored.symm.trans stored')
          simp [Request.deadline, expires]
    · exact .inl rfl

/-- A key has a record of a type whose deadline is at or before some time. -/
def Dead (ctx : CommandContext) (key : Bytes) (type : DataType) (t : Int64) (store : Store) :
    Prop :=
  ∃ v, ctx.lookupMeta store key = some v ∧ recordType v = some type ∧
    expiredAt (deadlineOf v) t = true

/-- A request of the expiry commands or the reading ones that sets no deadline
under the key, unless it is a passed one. Only the names of enormous keys share
their place with another. -/
structure Request.Buries (ctx : CommandContext) (key : Bytes) (t : Int64) (store : Store)
    (request : Request) : Prop where
  listed : request.command ∈ [Command.expire, .pexpire, .persist] ∨ request.command.reads = true
  late : t ≤ request.env.nowMs
  passed : ∀ other ∈ request.args.head?, ∀ v ∈ ctx.lookupMeta store other,
    ∀ expireMs ∈ request.deadline v, ctx.metaKey other ∈ ctx.places key →
      other = key ∧ expiredAt expireMs t = true

theorem Dead.step (dead : Dead ctx key type t store) (buries : request.Buries ctx key t store) :
    Dead ctx key type t (request.after ctx store) := by
  obtain ⟨v, stored, typed, passed⟩ := dead
  rcases buries.listed with listed | reads
  · rcases Request.after_expiry_cases listed with
      kept | ⟨other, w, expireMs, encoded, named, found, due, changed, put⟩
    · rw [kept]
      exact ⟨v, stored, typed, passed⟩
    rw [put]
    by_cases shared : ctx.metaKey other ∈ ctx.places key
    · -- The record of the key itself, with a deadline that has passed as well.
      obtain ⟨rfl, past⟩ := buries.passed other named w found expireMs due shared
      obtain rfl : v = w := Option.some.inj (stored.symm.trans found)
      obtain ⟨sameType, deadline⟩ := recordType_withExpire changed
      refine ⟨encoded, CommandContext.lookupMeta_of_some ?_, sameType.trans typed, deadline ▸ past⟩
      simp [Store.get_apply_put]
    · refine ⟨v, (ctx.lookupMeta_congr fun place here => ?_).trans stored, typed, passed⟩
      have other : place ≠ ctx.metaKey other := fun same => shared (same ▸ here)
      rw [Store.get_apply_put, if_neg fun both => other both.2]
  · have kept : request.after ctx store = store :=
      (Request.after_eq ctx store request).trans
        (Command.readOnly ctx reads request.args).exec_state
    rw [kept]
    exact ⟨v, stored, typed, passed⟩

/-- In every run of requests that leave an expired key dead, the key is absent to
the reading commands of its type from the time it expired on: their replies are
those of a store that has no record of the key. -/
theorem expired_key_stays_absent {requests : List Request} (kept : type ≠ .hash)
    (stored : ctx.lookupMeta store key = some v) (typed : recordType v = some type)
    (passed : expiredAt (deadlineOf v) t = true)
    (run : Runs ctx (Request.Buries ctx key t) store requests later) :
    ∀ (read : Request) (gone : Store), read.command.reads = true →
      read.command.family = some type → t ≤ read.env.nowMs → ctx.lookupMeta gone key = none →
      (∀ other ∈ read.command.readKeys read.args, other ≠ key →
        SeenAlike ctx other read.env read.env gone later) →
      read.reply ctx later = read.reply ctx gone := by
  intro read gone reads family late absent others
  obtain ⟨w, found, sameType, past⟩ : Dead ctx key type t later :=
    run.invariant ⟨v, stored, typed, passed⟩ fun _ _ buries dead => dead.step buries
  have expired : expiredAt (deadlineOf w) read.env.nowMs = true := by
    unfold expiredAt at past ⊢
    grind
  have overlooked : Overlooks type type = true := by
    cases type <;> first | rfl | exact absurd rfl kept
  have absentLater : TakenAbsent type ctx key read.env later := by
    intro x member
    obtain rfl : w = x := Option.some.inj (found.symm.trans member)
    exact ⟨expired, type, sameType, overlooked⟩
  have absentGone : TakenAbsent type ctx key read.env gone := fun x member =>
    nomatch absent.symm.trans member
  refine (Command.same reads ?_ rfl (fun other named => ?_) fun scan => ?_).reply
  · intro counts
    rw [counts] at family
    cases family
  · by_cases same : other = key
    · rw [same, Observer.Meets, family]
      exact alikeAs_of_absent absentGone absentLater
    · exact (others other named same).meets read.command
  · rw [scan] at family
    exact absurd (Option.some.inj family).symm kept

/-- A string with a deadline of 5 ms is asked for its lifetime at 7 ms and given
another deadline that has passed. -/
theorem expired_key_stays_absent_of_string :
    let set : Request := ⟨.set, [ascii "k", ascii "v", ascii "PX", ascii "5"], .plain 0⟩
    let store := set.after .plain .empty
    let ask : Request := ⟨.ttl, [ascii "k"], .plain 7⟩
    let move : Request := ⟨.pexpire, [ascii "k", ascii "-4"], .plain 8⟩
    let read : Request := ⟨.get, [ascii "k"], .plain 9⟩
    read.reply .plain (move.after .plain (ask.after .plain store)) = read.reply .plain .empty := by
  intro set store ask move read
  have stored : CommandContext.plain.lookupMeta store (ascii "k") =
      some (encodeString stringFlags 5 (ascii "v")) := by decide
  have asked : ask.Buries .plain (ascii "k") 5 store :=
    ⟨.inr rfl, by decide, fun _ _ _ _ _ due => nomatch due⟩
  have moved : move.Buries .plain (ascii "k") 5 (ask.after .plain store) := by
    refine ⟨.inl (by decide), by decide, ?_⟩
    rintro _ ⟨⟩ w - expireMs due -
    have four : some (4 : Int64) = (parseI64? (ascii "-4")).map (8 + ·) := by decide
    obtain rfl : (4 : Int64) = expireMs := Option.some.inj (four.trans due)
    exact ⟨rfl, by decide⟩
  refine expired_key_stays_absent (by decide) stored (by decide) (by decide)
    (.next (.next .refl asked) moved) read .empty rfl rfl (by decide) rfl ?_
  intro other named other_ne
  exact absurd (List.mem_singleton.mp named) other_ne

/-- A string that is absent at 7 ms is there again after `PERSIST`, and after
`EXPIRE`. -/
theorem expired_key_returns :
    let set : Request := ⟨.set, [ascii "k", ascii "v", ascii "PX", ascii "5"], .plain 0⟩
    let persist : Request := ⟨.persist, [ascii "k"], .plain 8⟩
    let expire : Request := ⟨.expire, [ascii "k", ascii "100"], .plain 8⟩
    let read (now : ℕ) : Request := ⟨.get, [ascii "k"], .plain now⟩
    let store := set.after .plain .empty
    (read 7).reply .plain store = .ok (.bulkString none) ∧
      (read 9).reply .plain (persist.after .plain store) = .ok (.bulkString (some (ascii "v"))) ∧
      (read 9).reply .plain (expire.after .plain store) = .ok (.bulkString (some (ascii "v"))) := by
  decide

end Kvdb
