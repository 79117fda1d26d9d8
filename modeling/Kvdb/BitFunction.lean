import Kvdb.Command.Elements
import Kvdb.Command.Writes
import Kvdb.Protocol.RoundTrip

/-!
# A stored bitmap refines a bit function

A bitmap is given by the offsets whose bit is one and by the number of bytes it
reaches over. Its fragments are stored at their own lengths, and whatever lies
beyond the end of a fragment reads as zero, so a fragment says nothing about the
size and the size nothing about the fragments. They agree on the bits.
-/

namespace Kvdb

open Data Semantics Cmd

variable {ctx : CommandContext} {key : Bytes} {store : Store} {env : Env} {meta' : Metadata}

section Bytes

variable {byte : UInt8} {i j : ℕ}

theorem bitOf_eq_getLsbD : bitOf byte i = byte.toBitVec.getLsbD i := rfl

@[simp] theorem bitOf_zero : bitOf 0 i = false := Nat.zero_testBit i

@[simp] theorem countOnes_zero : countOnes 0 = 0 := by decide

/-- Changing one bit of a byte. -/
theorem bitOf_withBit (small : i < 8) (small' : j < 8) (value : Bool) :
    bitOf (withBit byte i value) j = if j = i then value else bitOf byte j := by
  simp only [bitOf_eq_getLsbD, withBit]
  interval_cases i <;> cases value <;> interval_cases j <;> simp

theorem getD_resizeTo (frag : Bytes) (length k : ℕ) :
    (resizeTo frag length).getD k 0 = frag.getD k 0 := by
  rw [resizeTo, List.getD_eq_getElem?_getD, List.getD_eq_getElem?_getD, List.getElem?_append]
  split_ifs with within
  · rfl
  · rw [List.getElem?_eq_none (not_lt.mp within), List.getElem?_replicate]
    split_ifs <;> rfl

theorem length_resizeTo (frag : Bytes) (length : ℕ) :
    (resizeTo frag length).length = max frag.length length := by
  rw [resizeTo, List.length_append, List.length_replicate]
  omega

/-- A fragment after one of its bytes was written. -/
theorem getD_set_resizeTo (frag : Bytes) (k k' : ℕ) (byte : UInt8) :
    ((resizeTo frag (k + 1)).set k byte).getD k' 0 = if k' = k then byte else frag.getD k' 0 := by
  have within : k < (resizeTo frag (k + 1)).length := by
    rw [length_resizeTo]
    omega
  rw [← getD_resizeTo frag (k + 1) k', List.getD_eq_getElem?_getD, List.getD_eq_getElem?_getD,
    List.getElem?_set]
  by_cases same : k' = k
  · subst same
    simp [within]
  · simp [same, Ne.symm same]

end Bytes

section Spec

/-- A bitmap: the offsets whose bit is one, and the bytes up to the last one that
was touched. -/
structure Bits where
  ones : Finset ℕ
  size : ℕ

/-- A bitmap that was never written. -/
def Bits.blank : Bits := ⟨∅, 0⟩

/-- Set the bit at an offset, which touches its byte. -/
def Bits.set (bits : Bits) (offset : ℕ) (value : Bool) : Bits where
  ones := if value then insert offset bits.ones else bits.ones.erase offset
  size := max bits.size (offset / 8 + 1)

theorem Bits.mem_set {bits : Bits} {offset o : ℕ} {value : Bool} :
    o ∈ (bits.set offset value).ones ↔ if o = offset then value = true else o ∈ bits.ones := by
  cases value <;> by_cases same : o = offset <;> simp [Bits.set, same]

/-- Every set bit lies in a byte that was touched. -/
structure Bits.Bounded (bits : Bits) : Prop where
  size : bits.size ≤ 2 ^ 61
  below : ∀ o ∈ bits.ones, o / 8 < bits.size

theorem Bits.Bounded.set {bits : Bits} (bounded : bits.Bounded) {offset : ℕ} (value : Bool)
    (fits : offset < 2 ^ 64) : (bits.set offset value).Bounded where
  size := by
    have size := bounded.size
    simp only [Bits.set]
    omega
  below := by
    intro o inside
    rw [Bits.mem_set] at inside
    simp only [Bits.set]
    split_ifs at inside with same
    · subst same
      omega
    · exact (bounded.below o inside).trans_le (le_max_left _ _)

end Spec

section Contents

def fragmentOf (ctx : CommandContext) (key : Bytes) (meta' : Metadata) (store : Store) (index : ℕ) :
    Bytes :=
  (store.get .subkey (fragmentKey ctx meta' key index)).getD []

/-- The bit at an offset as it is read. -/
def storedBit (ctx : CommandContext) (key : Bytes) (meta' : Metadata) (store : Store) (o : ℕ) :
    Bool :=
  bitOf ((fragmentOf ctx key meta' store (o / fragmentBits)).getD (o % fragmentBits / 8) 0) (o % 8)

/-- The fragments of the record's version have the bits of a bitmap. -/
structure BitsHeld (ctx : CommandContext) (key : Bytes) (bits : Bits) (meta' : Metadata)
    (store : Store) : Prop where
  proper : meta'.Proper .bitmap
  size : meta'.size.toNat = bits.size
  bounded : bits.Bounded
  short : ∀ name frag, store.get .subkey (ctx.subKey key meta'.version name) = some frag →
    frag.length ≤ fragmentBytes
  stored : ∀ o < 2 ^ 64, storedBit ctx key meta' store o = decide (o ∈ bits.ones)

/-- The key is absent and its bitmap blank, or its record holds the bitmap. -/
def BitsRefine (ctx : CommandContext) (key : Bytes) (bits : Bits) (store : Store) : Prop :=
  (ctx.lookupMeta store key = none ∧ bits = .blank) ∨
    ∃ meta', Recorded ctx key meta' store ∧ BitsHeld ctx key bits meta' store

theorem BitsHeld.new {v : UInt64} (unused : Unused ctx key v store) :
    BitsHeld ctx key .blank (Metadata.new .bitmap v) store where
  proper := Metadata.new_proper .bitmap v
  size := rfl
  bounded := ⟨Nat.zero_le _, by simp [Bits.blank]⟩
  short := by
    intro name frag stored
    have missing := unused .subkey (by decide) name
    simp [Metadata.new, missing] at stored
  stored := by
    intro o _
    have missing := unused .subkey (by decide) (u64Bytes (UInt64.ofNat (o / fragmentBits)))
    have nothing : fragmentOf ctx key (Metadata.new .bitmap v) store (o / fragmentBits) = [] := by
      simp [fragmentOf, fragmentKey, Metadata.new, missing]
    simp [storedBit, nothing, Bits.blank]

theorem BitsHeld.length_fragmentOf_le {bits : Bits} (held : BitsHeld ctx key bits meta' store)
    (index : ℕ) : (fragmentOf ctx key meta' store index).length ≤ fragmentBytes := by
  rw [fragmentOf]
  cases stored : store.get .subkey (fragmentKey ctx meta' key index) with
  | none => exact Nat.zero_le _
  | some frag => exact held.short _ _ stored

/-- Fragments of offsets have different keys. -/
theorem fragmentKey_inj {index index' : ℕ} (small : index < 2 ^ 64) (small' : index' < 2 ^ 64) :
    fragmentKey ctx meta' key index = fragmentKey ctx meta' key index' ↔ index = index' := by
  rw [fragmentKey, fragmentKey, CommandContext.subKey_inj, u64Bytes_inj]
  constructor
  · rintro ⟨-, same⟩
    have values := congrArg UInt64.toNat same
    rwa [UInt64.toNat_ofNat', UInt64.toNat_ofNat', Nat.mod_eq_of_lt small,
      Nat.mod_eq_of_lt small'] at values
  · rintro rfl
    exact ⟨rfl, rfl⟩

/-- The fragment that `SETBIT` stores. -/
def changedFragment (frag : Bytes) (offset : ℕ) (value : Bool) : Bytes :=
  let fragOff := offset % fragmentBits / 8
  (resizeTo frag (fragOff + 1)).set fragOff (withBit (frag.getD fragOff 0) (offset % 8) value)

/-- A changed fragment ends with the touched byte or where it ended before. -/
theorem length_changedFragment_le {frag : Bytes} (short : frag.length ≤ fragmentBytes) (offset : ℕ)
    (value : Bool) : (changedFragment frag offset value).length ≤ fragmentBytes := by
  have within : offset % fragmentBits < 8192 := Nat.mod_lt _ (by decide)
  have bytes : fragmentBytes = 1024 := rfl
  rw [changedFragment, List.length_set, length_resizeTo]
  omega

/-- The bits of the stored fragments after one of them was changed. -/
theorem storedBit_changed {offset o : ℕ} {value : Bool} {after : Store}
    (fits : offset < 2 ^ 64) (fits' : o < 2 ^ 64)
    (wrote : ∀ phys, after.get .subkey phys =
      if phys = fragmentKey ctx meta' key (offset / fragmentBits) then
        some (changedFragment (fragmentOf ctx key meta' store (offset / fragmentBits)) offset value)
      else store.get .subkey phys) :
    storedBit ctx key meta' after o = if o =
      offset then value else storedBit ctx key meta' store o := by
  have bits : fragmentBits = 8192 := rfl
  rw [storedBit, fragmentOf, wrote]
  by_cases here : o / fragmentBits = offset / fragmentBits
  · rw [here, if_pos rfl, Option.getD_some, changedFragment, getD_set_resizeTo]
    by_cases byte : o % fragmentBits / 8 = offset % fragmentBits / 8
    · have place : o % 8 = offset % 8 ↔ o = offset := by
        rw [bits] at here byte
        omega
      rw [if_pos byte, bitOf_withBit (Nat.mod_lt _ (by decide)) (Nat.mod_lt _ (by decide)),
        storedBit, here, byte]
      simp only [place]
    · have other : o ≠ offset := fun equal => byte (by rw [equal])
      rw [if_neg byte, if_neg other, storedBit, here]
  · have apart : ¬ fragmentKey ctx meta' key (o / fragmentBits) =
        fragmentKey ctx meta' key (offset / fragmentBits) := by
      rw [fragmentKey_inj ((Nat.div_le_self _ _).trans_lt fits')
        ((Nat.div_le_self _ _).trans_lt fits)]
      exact here
    have other : o ≠ offset := fun equal => here (by rw [equal])
    rw [if_neg apart, if_neg other, storedBit, fragmentOf]

end Contents

section Commands

variable {bits : Bits} {offsetArg valueArg : Bytes} {offset : ℕ} {value : Bool}

/-- The bit that an argument means. -/
def bitArg (text : Bytes) : Option Bool :=
  if text = ascii "0" then some false else if text = ascii "1" then some true else none

theorem exec_parseBit (parsed : bitArg valueArg = some value) :
    exec env (parseBit valueArg) store = (.ok value, store) := by
  rw [bitArg] at parsed
  rw [parseBit]
  split_ifs at parsed ⊢ <;> cases parsed <;> rfl

theorem parseU64_lt {text : Bytes} {n : ℕ} (parsed : parseU64 text = some n) : n < 2 ^ 64 := by
  simp only [parseU64, Option.bind_eq_bind, Option.bind_eq_some_iff] at parsed
  obtain ⟨m, -, fits⟩ := parsed
  split_ifs at fits with small
  cases fits
  exact small

theorem exec_parseOffset (parsed : parseU64 offsetArg = some offset) :
    exec env (parseOffset offsetArg) store = (.ok offset, store) := by
  rw [parseOffset, parsed]
  rfl

theorem exec_readFragment (index : ℕ) :
    exec env (readFragment ctx meta' key index) store =
      (.ok (fragmentOf ctx key meta' store index), store) := rfl

/-- What `SETBIT` starts from. -/
theorem BitsRefine.base (refine : BitsRefine ctx key bits store)
    (unused : ctx.lookupMeta store key = none → Unused ctx key env.version store) :
    ∃ meta', exec env (getOrCreateMetadata ctx key) store = (.ok meta', store) ∧
      BitsHeld ctx key bits meta' store := by
  rcases refine with ⟨absent, rfl⟩ | ⟨meta', recorded, held⟩
  · refine ⟨Metadata.new .bitmap env.version, ?_, .new (unused absent)⟩
    exact exec_bind_ok (exec_loadLiveMeta_of_absent absent)
  · refine ⟨meta', ?_, held⟩
    exact exec_bind_ok (exec_loadLiveMeta_of_recorded recorded held.proper (by decide))

/-- The record with the fragment of one offset changed. -/
theorem BitsHeld.wrote {size : UInt64} (held : BitsHeld ctx key bits meta' store)
    (fits : offset < 2 ^ 64) (grown : size.toNat = max bits.size (offset / 8 + 1)) :
    BitsRefine ctx key (bits.set offset value) (store.write
      [.put .metadata (ctx.metaKey key) (encodeMetadata { meta' with size }),
        .put .subkey (fragmentKey ctx meta' key (offset / fragmentBits))
          (changedFragment (fragmentOf ctx key meta' store (offset / fragmentBits))
            offset value)]) := by
  have wrote : ∀ phys, (store.write
      [.put .metadata (ctx.metaKey key) (encodeMetadata { meta' with size }),
        .put .subkey (fragmentKey ctx meta' key (offset / fragmentBits)) (changedFragment
          (fragmentOf ctx key meta' store (offset / fragmentBits)) offset value)]).get
            .subkey phys =
      if phys = fragmentKey ctx meta' key (offset / fragmentBits) then
        some (changedFragment (fragmentOf ctx key meta' store (offset / fragmentBits)) offset value)
      else store.get .subkey phys := by
    intro phys
    simp [Store.get_apply_put]
  refine .inr ⟨{ meta' with size }, ?_, held.proper.resize size, grown, held.bounded.set value fits,
    fun name frag found => ?_, fun o fits' => ?_⟩
  · simp [Recorded, Store.get_apply_put]
  · rw [wrote] at found
    split_ifs at found with here
    · cases found
      exact length_changedFragment_le (held.length_fragmentOf_le _) offset value
    · exact held.short name frag found
  · refine (storedBit_changed fits fits' wrote).trans ?_
    rw [held.stored o fits']
    by_cases same : o = offset <;> simp [same, Bits.mem_set]

/-- `SETBIT` sets the bit and replies the one that was there. -/
theorem BitsRefine.exec_setbit (refines : BitsRefine ctx key bits store)
    (unused : ctx.lookupMeta store key = none → Unused ctx key env.version store)
    (parsed : parseU64 offsetArg = some offset) (parsed' : bitArg valueArg = some value) :
    ∃ after, exec env (setbit ctx [key, offsetArg, valueArg]) store =
        (.ok (.integer (if offset ∈ bits.ones then 1 else 0)), after) ∧
      BitsRefine ctx key (bits.set offset value) after := by
  have fits := parseU64_lt parsed
  obtain ⟨meta', loaded, held⟩ := refines.base unused
  have old := held.stored offset fits
  have position : (UInt64.ofNat (offset / 8 + 1)).toNat = offset / 8 + 1 :=
    Nat.mod_eq_of_lt (by omega)
  let size := if meta'.size < UInt64.ofNat (offset / 8 + 1) then UInt64.ofNat (offset / 8 + 1)
    else meta'.size
  have grown : size.toNat = max bits.size (offset / 8 + 1) := by
    have before := held.size
    simp only [size, UInt64.lt_iff_toNat_lt, position]
    split_ifs <;> omega
  have resized : (if meta'.size < UInt64.ofNat (offset / 8 + 1) then
      ({ meta' with size := UInt64.ofNat (offset / 8 + 1) } : Metadata) else meta') =
      { meta' with size } := by
    simp only [size]
    split_ifs <;> rfl
  refine ⟨_, ?_, held.wrote fits grown⟩
  rw [storedBit] at old
  rw [setbit, exec_bind_ok (exec_parseOffset parsed), exec_bind_ok (exec_parseBit parsed'),
    exec_bind_ok loaded]
  simp only [exec_bind_ok (exec_readFragment _), exec_write_bind, exec_pure, getD_resizeTo, old,
    resized, decide_eq_true_eq]
  rfl

/-- `GETBIT` replies the bit. -/
theorem BitsRefine.exec_getbit (refines : BitsRefine ctx key bits store)
    (parsed : parseU64 offsetArg = some offset) (env : Env) :
    exec env (getbit ctx [key, offsetArg]) store =
      (.ok (.integer (if offset ∈ bits.ones then 1 else 0)), store) := by
  have fits := parseU64_lt parsed
  refine (exec_bind_ok (exec_parseOffset parsed)).trans ?_
  rcases refines with ⟨absent, rfl⟩ | ⟨meta', recorded, held⟩
  · exact exec_bind_ok (exec_loadLiveMeta_of_absent absent)
  · refine (exec_bind_ok (exec_loadLiveMeta_of_recorded recorded held.proper (by decide))).trans ?_
    have bit := held.stored offset fits
    rw [storedBit] at bit
    simp only [exec_bind_ok (exec_readFragment _), exec_pure, bit, decide_eq_true_eq]

end Commands

section Ranges

variable {start stop index : ℕ}

/-- The byte at a position as it is read. -/
def storedByte (ctx : CommandContext) (key : Bytes) (meta' : Metadata) (store : Store) (p : ℕ) :
    UInt8 :=
  (fragmentOf ctx key meta' store (p / fragmentBytes)).getD (p % fragmentBytes) 0

/-- A bit is read from its byte. -/
theorem storedBit_eq (o : ℕ) :
    storedBit ctx key meta' store o = bitOf (storedByte ctx key meta' store (o / 8)) (o % 8) := by
  have bytes : fragmentBytes = 1024 := rfl
  have bits : fragmentBits = 8192 := rfl
  have fragment : o / 8 / 1024 = o / fragmentBits := by
    rw [bits]
    omega
  have place : o / 8 % 1024 = o % fragmentBits / 8 := by
    rw [bits]
    omega
  rw [storedBit, storedByte, bytes, fragment, place]

/-- The set bits of the bytes among some positions. -/
def onesAmong (ctx : CommandContext) (key : Bytes) (meta' : Metadata) (store : Store)
    (positions : Finset ℕ) : ℕ :=
  ∑ p ∈ positions, countOnes (storedByte ctx key meta' store p)

/-- A stretch of a list as a sum over its positions. -/
theorem sum_map_drop_take (f : UInt8 → ℕ) (frag : Bytes) {first past : ℕ} (ordered : first ≤ past)
    (within : past ≤ frag.length) :
    (((frag.drop first).take (past - first)).map f).sum =
      ∑ j ∈ Finset.Ico first past, f (frag.getD j 0) := by
  induction past, ordered using Nat.le_induction with
  | base => simp
  | succ past ordered ih =>
    have inside : past < frag.length := within
    have place : (frag.drop first)[past - first]? = some frag[past] := by
      rw [List.getElem?_drop, Nat.add_sub_cancel' ordered, List.getElem?_eq_getElem inside]
    have last : frag.getD past 0 = frag[past] := by
      rw [List.getD_eq_getElem?_getD, List.getElem?_eq_getElem inside, Option.getD_some]
    rw [Finset.sum_Ico_succ_top ordered, ← ih (by omega), Nat.sub_add_comm ordered,
      List.take_add_one, place, last]
    simp

/-- One round of `BITCOUNT` counts the bits of a fragment that lie in the range. -/
theorem exec_bitcountLoop_succ (reached : index * 1024 ≤ stop) (n count : ℕ) :
    exec env (bitcountLoop ctx meta' key start stop (n + 1) index count) store =
      exec env (bitcountLoop ctx meta' key start stop n (index + 1)
        (count + onesAmong ctx key meta' store
          ((Finset.Ico (index * 1024) ((index + 1) * 1024)).filter
            fun p => start ≤ p ∧ p ≤ stop))) store := by
  have bytes : fragmentBytes = 1024 := rfl
  let frag := fragmentOf ctx key meta' store index
  let first := start - index * 1024
  let last := min (min (stop - index * 1024) 1023) (frag.length - 1)
  -- Only the positions that are stored count, so the others may be left out.
  have stored : onesAmong ctx key meta' store
      ((Finset.Ico (index * 1024) ((index + 1) * 1024)).filter
        fun p => start ≤ p ∧ p ≤ stop) =
      ∑ j ∈ (Finset.range 1024).filter fun j => first ≤ j ∧ j ≤ stop - index * 1024,
        countOnes (frag.getD j 0) := by
    refine Finset.sum_bij' (fun p _ => p - index * 1024) (fun j _ => index * 1024 + j)
      ?_ ?_ ?_ ?_ ?_
    · intro p inside
      simp only [Finset.mem_filter, Finset.mem_Ico, Finset.mem_range, first] at inside ⊢
      omega
    · intro j inside
      simp only [Finset.mem_filter, Finset.mem_Ico, Finset.mem_range, first] at inside ⊢
      omega
    · intro p inside
      simp only [Finset.mem_filter, Finset.mem_Ico] at inside
      omega
    · intro j inside
      omega
    · intro p inside
      simp only [Finset.mem_filter, Finset.mem_Ico] at inside
      have here : p / 1024 = index := by omega
      have place : p % 1024 = p - index * 1024 := by omega
      rw [storedByte, bytes, here, place]
  have beyond : ∀ j, frag.length ≤ j → countOnes (frag.getD j 0) = 0 := by
    intro j outside
    rw [List.getD_eq_getElem?_getD, List.getElem?_eq_none outside]
    exact countOnes_zero
  rw [stored, bitcountLoop, exec_bind_ok (exec_readFragment index)]
  show exec env
      (if frag = [] ∨ last < first then bitcountLoop ctx meta' key start stop n (index + 1) count
    else bitcountLoop ctx meta' key start stop n (index + 1)
      (count + (((frag.drop first).take (last + 1 - first)).map countOnes).sum)) store = _
  by_cases skipped : frag = [] ∨ last < first
  · have nothing : ∑ j ∈ (Finset.range 1024).filter fun j =>
        first ≤ j ∧ j ≤ stop - index * 1024, countOnes (frag.getD j 0) = 0 := by
      refine Finset.sum_eq_zero fun j inside => beyond j ?_
      simp only [Finset.mem_filter, Finset.mem_range] at inside
      rcases skipped with none | empty
      · rw [none]
        exact Nat.zero_le j
      · omega
    rw [if_pos skipped, nothing]
    rfl
  · obtain ⟨some, ordered⟩ := not_or.mp skipped
    have positive : 0 < frag.length := List.length_pos_of_ne_nil some
    have counted := sum_map_drop_take countOnes frag (by omega : first ≤ last + 1) (by omega)
    have same : ∑ j ∈ Finset.Ico first (last + 1), countOnes (frag.getD j 0) =
        ∑ j ∈ (Finset.range 1024).filter fun j => first ≤ j ∧ j ≤ stop - index * 1024,
          countOnes (frag.getD j 0) := by
      refine Finset.sum_subset (fun j inside => ?_) fun j inside outside => beyond j ?_
      · simp only [Finset.mem_filter, Finset.mem_range, Finset.mem_Ico] at inside ⊢
        omega
      · simp only [Finset.mem_filter, Finset.mem_range, Finset.mem_Ico] at inside outside
        omega
    rw [if_neg skipped, counted, same]

/-- The rounds of `BITCOUNT` count the bits of their fragments that lie in the range. -/
theorem exec_bitcountLoop (n index count : ℕ) (reached : (index + n) * 1024 < stop + 1 + 1024) :
    exec env (bitcountLoop ctx meta' key start stop n index count) store =
      (.ok (count + onesAmong ctx key meta' store
        ((Finset.Ico (index * 1024) ((index + n) * 1024)).filter
          fun p => start ≤ p ∧ p ≤ stop)), store) := by
  induction n generalizing index count with
  | zero => simp [bitcountLoop, onesAmong]
  | succ n ih =>
    have shift : index + 1 + n = index + (n + 1) := by omega
    have split : ((Finset.Ico (index * 1024) ((index + (n + 1)) * 1024)).filter
          fun p => start ≤ p ∧ p ≤ stop) =
        ((Finset.Ico (index * 1024) ((index + 1) * 1024)).filter
          fun p => start ≤ p ∧ p ≤ stop) ∪
        ((Finset.Ico ((index + 1) * 1024) ((index + (n + 1)) * 1024)).filter
          fun p => start ≤ p ∧ p ≤ stop) := by
      rw [← Finset.filter_union, Finset.Ico_union_Ico_eq_Ico] <;> omega
    rw [exec_bitcountLoop_succ (by omega), ih _ _ (by rw [shift]; exact reached), shift,
      split, onesAmong, onesAmong, onesAmong, Finset.sum_union, Nat.add_assoc]
    refine Finset.disjoint_filter_filter (Finset.disjoint_left.mpr fun p before behind => ?_)
    rw [Finset.mem_Ico] at before behind
    omega

/-- The byte that an index means: from the end if it is negative, and the first one if
that is not reached. -/
def byteIndex (size : ℕ) (idx : Int64) : ℕ :=
  (if idx.toInt < 0 then size + idx.toInt else idx.toInt).toNat

/-- An index beyond the last byte is moved to the last byte. -/
theorem normalizeIndex_eq {size : ℕ} (positive : 0 < size) (small : size < 2 ^ 63) (idx : Int64) :
    normalizeIndex idx (Int64.ofNat size) = min (byteIndex size idx) (size - 1) := by
  have value := Int64.toInt_ofNat_of_lt small
  have lower := Int64.le_toInt idx
  have upper := Int64.toInt_lt idx
  have zero : (0 : Int64).toInt = 0 := rfl
  have one : (1 : Int64).toInt = 1 := rfl
  have last : (Int64.ofNat size - 1).toInt = size - 1 := by
    rw [toInt_sub_of_lt (by omega) (by omega), value, one]
  -- The index counted from the start, and then raised to zero.
  let counted := if idx < 0 then Int64.ofNat size + idx else idx
  have counts : counted.toInt = if idx.toInt < 0 then size + idx.toInt else idx.toInt := by
    simp only [counted, Int64.lt_iff_toInt_lt, zero]
    split_ifs
    · rw [toInt_add_of_lt (by omega) (by omega), value]
    · rfl
  let raised := if counted < 0 then 0 else counted
  have raises : raised.toInt = byteIndex size idx := by
    simp only [raised, Int64.lt_iff_toInt_lt, zero]
    rw [byteIndex, ← counts]
    split_ifs <;> omega
  show (if Int64.ofNat size ≤ raised then Int64.ofNat size - 1 else raised).toUInt64.toNat = _
  split_ifs with beyond <;> rw [Int64.le_iff_toInt_le, value, raises] at beyond
  · have word := @toNat_toUInt64 (Int64.ofNat size - 1) (by omega)
    omega
  · have word := @toNat_toUInt64 raised (by omega)
    omega

/-- `BITCOUNT` counts between the two bytes that its range is moved to. -/
theorem exec_bitcount_of_live {range : List Bytes} {first last : Int64} {size : ℕ}
    (loaded : exec env (readBitmapMeta ctx key) store = (.ok (some meta'), store))
    (ranged : exec env (bitcountRange range) store = (.ok (first, last), store))
    (sized : meta'.size.toNat = size) (positive : 0 < size) (small : size < 2 ^ 63) :
    exec env (bitcount ctx (key :: range)) store =
      (.ok
        (.integer (Int64.ofNat (onesAmong ctx key meta' store ((Finset.range size).filter fun p =>
        min (byteIndex size first) (size - 1) ≤ p ∧ p ≤ byteIndex size last)))), store) := by
  have bytes : fragmentBytes = 1024 := rfl
  have nonzero : ¬ Int64.ofNat size = 0 := by
    intro zero
    have value := Int64.toInt_ofNat_of_lt small
    rw [zero, Int64.toInt_zero] at value
    omega
  rw [bitcount, exec_bind_ok ranged, exec_bind_ok loaded]
  simp only [toInt64_eq_ofNat, sized, if_neg nonzero, normalizeIndex_eq positive small, bytes]
  generalize byteIndex size first = s
  generalize byteIndex size last = e
  split_ifs with empty
  · have nothing : ((Finset.range size).filter fun p => min s (size - 1) ≤ p ∧ p ≤ e) = ∅ := by
      refine Finset.filter_eq_empty_iff.mpr fun p inside => ?_
      rw [Finset.mem_range] at inside
      omega
    rw [nothing]
    rfl
  · -- The fragments between the two bytes have all positions between them.
    have same : ((Finset.Ico (min s (size - 1) / 1024 * 1024)
          ((min s (size - 1) / 1024 + (min e (size - 1) / 1024 + 1 - min s (size - 1) / 1024)) *
            1024)).filter
            fun p => min s (size - 1) ≤ p ∧ p ≤ min e (size - 1)) =
        (Finset.range size).filter fun p => min s (size - 1) ≤ p ∧ p ≤ e := by
      ext p
      simp only [Finset.mem_filter, Finset.mem_Ico, Finset.mem_range]
      omega
    rw [exec_bind_ok (exec_bitcountLoop _ _ _ (by omega)), same, Nat.zero_add]
    rfl

end Ranges

section Counting

variable {bits : Bits}

/-- How many bits of a byte of the bitmap are set. -/
def Bits.weight (bits : Bits) (p : ℕ) : ℕ := (bits.ones.filter fun o => o / 8 = p).card

/-- The bytes of a bitmap have all of its bits. -/
theorem Bits.Bounded.sum_weight (bounded : bits.Bounded) {n : ℕ} (enough : bits.size ≤ n) :
    ∑ p ∈ Finset.Ico 0 n, bits.weight p = bits.ones.card := by
  refine (Finset.card_eq_sum_card_fiberwise fun o inside => ?_).symm
  have below := bounded.below o inside
  rw [Finset.coe_Ico]
  exact ⟨Nat.zero_le _, by omega⟩

/-- The set bits of a stored byte are those of the bitmap. -/
theorem BitsHeld.countOnes_eq (held : BitsHeld ctx key bits meta' store) {p : ℕ}
    (fits : p < 2 ^ 61) :
    countOnes (storedByte ctx key meta' store p) = bits.weight p := by
  have bit : ∀ i < 8, bitOf (storedByte ctx key meta' store p) i =
      decide (p * 8 + i ∈ bits.ones) := by
    intro i small
    have byte : (p * 8 + i) / 8 = p := by omega
    have place : (p * 8 + i) % 8 = i := by omega
    rw [← held.stored _ (by omega), storedBit_eq, byte, place]
  have counted : countOnes (storedByte ctx key meta' store p) =
      ((Finset.range 8).filter fun i => p * 8 + i ∈ bits.ones).card := by
    rw [countOnes, List.countP_eq_length_filter]
    refine congrArg List.length (List.filter_congr fun i inside => ?_)
    rw [bit i (List.mem_range.mp inside)]
  rw [counted, Bits.weight]
  -- A bit of the byte is its offset in the bitmap.
  refine Finset.card_bij (fun i _ => p * 8 + i) ?_ ?_ ?_
  · intro i inside
    obtain ⟨small, member⟩ := Finset.mem_filter.mp inside
    rw [Finset.mem_range] at small
    exact Finset.mem_filter.mpr ⟨member, by omega⟩
  · intro i _ i' _ same
    omega
  · intro o inside
    obtain ⟨member, here⟩ := Finset.mem_filter.mp inside
    have shape : p * 8 + o % 8 = o := by omega
    refine ⟨o % 8, Finset.mem_filter.mpr ⟨Finset.mem_range.mpr (Nat.mod_lt _ (by decide)), ?_⟩,
      shape⟩
    rwa [shape]

/-- `BITCOUNT` replies the number of set bits, as far as a reply can hold it. -/
theorem BitsRefine.exec_bitcount (refines : BitsRefine ctx key bits store) (env : Env) :
    exec env (bitcount ctx [key]) store =
      (.ok (.integer (Int64.ofNat bits.ones.card)), store) := by
  rcases refines with ⟨absent, rfl⟩ | ⟨meta', recorded, held⟩
  · exact exec_bind_ok (exec_loadLiveMeta_of_absent absent)
  have loaded : exec env (readBitmapMeta ctx key) store = (.ok (some meta'), store) :=
    exec_loadLiveMeta_of_recorded recorded held.proper (by decide)
  have limit := held.bounded.size
  by_cases empty : bits.size = 0
  · -- Without a touched byte there is no bit.
    have none : bits.ones = ∅ := by
      refine Finset.eq_empty_iff_forall_notMem.mpr fun o inside => ?_
      have below := held.bounded.below o inside
      omega
    have zero : Int64.ofNat bits.size = 0 := by rw [empty]; rfl
    rw [bitcount, bitcountRange, exec_pure_bind, exec_bind_ok loaded]
    simp only [toInt64_eq_ofNat, held.size]
    rw [if_pos zero, none]
    rfl
  have first : byteIndex bits.size 0 = 0 := rfl
  have last : byteIndex bits.size (-1) = bits.size - 1 := by
    have minus : (-1 : Int64).toInt = -1 := rfl
    rw [byteIndex, minus]
    omega
  have whole : ((Finset.range bits.size).filter fun p =>
      min (byteIndex bits.size 0) (bits.size - 1) ≤ p ∧ p ≤ byteIndex bits.size (-1)) =
      Finset.Ico 0 bits.size := by
    rw [first, last]
    ext p
    simp only [Finset.mem_filter, Finset.mem_range, Finset.mem_Ico]
    omega
  have ones : onesAmong ctx key meta' store (Finset.Ico 0 bits.size) = bits.ones.card := by
    rw [← held.bounded.sum_weight le_rfl]
    refine Finset.sum_congr rfl fun p inside => held.countOnes_eq ?_
    rw [Finset.mem_Ico] at inside
    omega
  rw [exec_bitcount_of_live loaded (exec_pure (0, -1)) held.size (by omega) (by omega), whole, ones]

end Counting

section Requests

variable {bits : Bits}

/-- The offset and the bit of a `SETBIT` with legal arguments. -/
def Request.setsBit (request : Request) : Option (ℕ × Bool) :=
  match request.args with
  | [_, offsetArg, valueArg] => do
    let offset ← parseU64 offsetArg
    let value ← bitArg valueArg
    return (offset, value)
  | _ => none

theorem Request.setsBit_eq_some {request : Request} {offset : ℕ} {value : Bool}
    (legal : request.setsBit = some (offset, value)) :
    ∃ first offsetArg valueArg, request.args = [first, offsetArg, valueArg] ∧
      parseU64 offsetArg = some offset ∧ bitArg valueArg = some value := by
  obtain ⟨command, args, env⟩ := request
  rcases args with _ | ⟨first, _ | ⟨offsetArg, _ | ⟨valueArg, _ | ⟨other, rest⟩⟩⟩⟩
  · cases legal
  · cases legal
  · cases legal
  · simp only [Request.setsBit, Option.bind_eq_bind, Option.bind_eq_some_iff] at legal
    obtain ⟨o, parsed, b, bit, same⟩ := legal
    cases same
    exact ⟨first, offsetArg, valueArg, rfl, parsed, bit⟩
  · cases legal

/-- What a request does to the bitmap itself. -/
def Request.onBits (bits : Bits) (request : Request) : Bits :=
  (request.setsBit.map fun change => bits.set change.1 change.2).getD bits

/-- A `SETBIT` on a key. A version that is drawn for an absent key is a new
one. -/
structure BitRequest (ctx : CommandContext) (key : Bytes) (store : Store) (request : Request) :
    Prop where
  isSetbit : request.command = .setbit
  onKey : request.args.head? = some key
  unused : ctx.lookupMeta store key = none → Unused ctx key request.env.version store

/-- A `SETBIT` with other arguments changes nothing. -/
theorem exec_setbit_of_illegal {request : Request} (illegal : request.setsBit = none) (env : Env) :
    (exec env (setbit ctx request.args) store).2 = store := by
  obtain ⟨command, args, env'⟩ := request
  rcases args with _ | ⟨first, _ | ⟨offsetArg, _ | ⟨valueArg, _ | ⟨other, rest⟩⟩⟩⟩
  · rfl
  · rfl
  · rfl
  · rw [setbit]
    cases parsed : parseU64 offsetArg with
    | none =>
      rw [parseOffset, parsed]
      rfl
    | some offset =>
      rw [exec_bind_ok (exec_parseOffset parsed)]
      cases bit : bitArg valueArg with
      | some value => simp [Request.setsBit, parsed, bit] at illegal
      | none =>
        rw [bitArg] at bit
        rw [parseBit]
        split_ifs at bit ⊢
        rfl
  · rfl

/-- A request changes the stored bitmap as it changes the bitmap itself. -/
theorem BitsRefine.step {request : Request} (refines : BitsRefine ctx key bits store)
    (allowed : BitRequest ctx key store request) :
    BitsRefine ctx key (request.onBits bits) (request.after ctx store) := by
  cases legal : request.setsBit with
  | none =>
    have same : request.after ctx store = store := by
      rw [Request.after_eq, allowed.isSetbit]
      exact exec_setbit_of_illegal legal request.env
    rwa [Request.onBits, legal, same]
  | some change =>
    obtain ⟨offset, value⟩ := change
    obtain ⟨command, args, env⟩ := request
    obtain ⟨first, offsetArg, valueArg, rfl, parsed, bit⟩ := Request.setsBit_eq_some legal
    obtain ⟨rfl, onKey, unused⟩ := allowed
    obtain rfl : first = key := Option.some.inj onKey
    obtain ⟨after, ran, refines'⟩ := refines.exec_setbit unused parsed bit
    rw [Request.onBits, legal, Request.after_eq_of_exec ctx ran]
    exact refines'

theorem BitsRefine.run {start : Store} {requests : List Request}
    (run : Runs ctx (BitRequest ctx key) start requests store)
    (absent : ctx.lookupMeta start key = none) :
    BitsRefine ctx key (requests.foldl Request.onBits .blank) store := by
  refine run.invariant_of_steps
    (fun requests store => BitsRefine ctx key (requests.foldl Request.onBits .blank) store)
    (.inl ⟨absent, rfl⟩) ?_
  intro requests state request _ allowed refines
  rw [List.foldl_concat]
  exact refines.step allowed

/-- In every run of `SETBIT` on a key, starting where the key is absent, `GETBIT`
replies the bit that was last set at an offset. `SETBIT` replies the bit that was
there and changes no other one. No fragment has more than 1024 bytes, the size is
that of the bitmap itself, and all set bits lie below it. `BITCOUNT` replies the
number of set bits, provided that it is one that a reply can hold. -/
theorem bitmap_refines_bits {start : Store} {requests : List Request}
    (run : Runs ctx (BitRequest ctx key) start requests store)
    (absent : ctx.lookupMeta start key = none) (env : Env) :
    let bits := requests.foldl Request.onBits .blank
    (∀ text offset, parseU64 text = some offset →
      Request.reply ctx store ⟨.getbit, [key, text], env⟩ =
        .ok (.integer (if offset ∈ bits.ones then 1 else 0))) ∧
    (∀ request offset value, BitRequest ctx key store request →
      request.setsBit = some (offset, value) →
      request.reply ctx store = .ok (.integer (if offset ∈ bits.ones then 1 else 0)) ∧
      ∀ text other, parseU64 text = some other → other ≠ offset →
        Request.reply ctx (request.after ctx store) ⟨.getbit, [key, text], env⟩ =
          Request.reply ctx store ⟨.getbit, [key, text], env⟩) ∧
    (∀ meta', ctx.liveMeta env store .bitmap "invalid bitmap metadata" key = .ok (some meta') →
      (∀ e ∈ elements ctx .subkey key meta'.version store, e.2.length ≤ 1024) ∧
      meta'.size.toNat = bits.size ∧ ∀ o ∈ bits.ones, o / 8 < meta'.size.toNat) ∧
    (bits.ones.card < 2 ^ 63 → ∃ n : Int64, n.toInt = bits.ones.card ∧
      Request.reply ctx store ⟨.bitcount, [key], env⟩ = .ok (.integer n)) := by
  intro bits
  have refines : BitsRefine ctx key bits store := BitsRefine.run run absent
  refine ⟨fun text offset parsed => Request.reply_eq_ok ctx (refines.exec_getbit parsed env),
    fun request offset value allowed legal => ?_, fun meta' loaded => ?_, fun few => ?_⟩
  · have refines' := refines.step allowed
    obtain ⟨command, args, env'⟩ := request
    obtain ⟨first, offsetArg, valueArg, rfl, parsed, bit⟩ := Request.setsBit_eq_some legal
    obtain ⟨rfl, onKey, unused⟩ := allowed
    obtain rfl : first = key := Option.some.inj onKey
    obtain ⟨after, ran, -⟩ := refines.exec_setbit unused parsed bit
    refine ⟨Request.reply_eq_ok ctx ran, fun text other parsed' different => ?_⟩
    rw [Request.onBits, legal] at refines'
    rw [Request.reply_eq_ok ctx (refines'.exec_getbit parsed' env),
      Request.reply_eq_ok ctx (refines.exec_getbit parsed' env)]
    simp [Bits.mem_set, different]
  · rcases refines with ⟨missing, -⟩ | ⟨record, recorded, held⟩
    · rw [liveMeta_of_absent missing] at loaded
      cases loaded
    · rw [liveMeta_of_recorded recorded held.proper (by decide)] at loaded
      cases loaded
      refine ⟨?_, held.size, fun o inside => held.size ▸ held.bounded.below o inside⟩
      rintro ⟨name, frag⟩ inside
      exact held.short name frag (mem_elements.mp inside)
  · exact ⟨_, Int64.toInt_ofNat_of_lt few, Request.reply_eq_ok ctx (refines.exec_bitcount env)⟩

/-- Bits in two fragments. -/
theorem bitmap_refines_bits_of_two :
    let first : Request := ⟨.setbit, [ascii "b", ascii "8191", ascii "1"], .plain 7⟩
    let second : Request := ⟨.setbit, [ascii "b", ascii "8192", ascii "1"], .plain 8⟩
    let store := second.after .plain (first.after .plain .empty)
    Request.reply .plain store ⟨.getbit, [ascii "b", ascii "8191"], .plain 9⟩ = .ok (.integer 1) ∧
    ∃ n : Int64, n.toInt = 2 ∧
      Request.reply .plain store ⟨.bitcount, [ascii "b"], .plain 9⟩ = .ok (.integer n) := by
  intro first second store
  have unused : Unused .plain (ascii "b") (Env.plain 7).version .empty := fun _ _ _ => rfl
  have present : CommandContext.plain.lookupMeta (first.after .plain .empty)
      (ascii "b") ≠ none := by
    decide
  have run : Runs .plain (BitRequest .plain (ascii "b")) .empty [first, second] store := by
    refine .next (.single ⟨rfl, rfl, fun _ => unused⟩) ⟨rfl, rfl, fun absent => ?_⟩
    exact absurd absent present
  have ones : ([first, second].foldl Request.onBits .blank).ones = {8191, 8192} := by decide
  obtain ⟨read, -, -, count⟩ := bitmap_refines_bits run rfl (.plain 9)
  rw [ones] at read count
  exact ⟨read (ascii "8191") 8191 (by decide), count (by decide)⟩

def setOne (offset : ℕ) : Request := ⟨.setbit, [ascii "b", renderNat offset, ascii "1"], .plain 7⟩

theorem onBits_setOne {offset : ℕ} (small : offset < 2 ^ 64) (bits : Bits) :
    (setOne offset).onBits bits = bits.set offset true := by
  simp [Request.onBits, Request.setsBit, setOne, parseU64_renderNat small, bitArg, ascii]

/-- Setting one bit after the other. -/
theorem run_setOne (n : ℕ) (small : n ≤ 2 ^ 64) :
    ∃ store, Runs .plain (BitRequest .plain (ascii "b")) .empty ((List.range n).map setOne) store ∧
      (((List.range n).map setOne).foldl Request.onBits .blank).ones = Finset.range n := by
  induction n with
  | zero => exact ⟨.empty, .refl, rfl⟩
  | succ n ih =>
    obtain ⟨store, run, ones⟩ := ih (by omega)
    have refines := BitsRefine.run run rfl
    have unused : CommandContext.plain.lookupMeta store (ascii "b") = none →
        Unused .plain (ascii "b") (Env.plain 7).version store := by
      intro absent
      -- The key is absent only before the first request.
      cases n with
      | zero =>
        obtain rfl := run.eq_foldl
        exact fun _ _ _ => rfl
      | succ n =>
        rcases refines with ⟨-, blank⟩ | ⟨meta', recorded, -⟩
        · rw [blank] at ones
          exact absurd (ones ▸ Finset.mem_range.mpr n.succ_pos : 0 ∈ Bits.blank.ones)
            (Finset.notMem_empty 0)
        · rw [recorded.lookup] at absent
          cases absent
    rw [List.range_succ, List.map_append, List.map_singleton]
    refine ⟨(setOne n).after .plain store, run.next ⟨rfl, rfl, unused⟩, ?_⟩
    rw [List.foldl_concat, onBits_setOne (by omega), Finset.range_add_one, ← ones]
    rfl

/-- After the first `2 ^ 63` bits were set, one by one, `BITCOUNT` replies a
negative number. -/
theorem bitcount_negative :
    ∃ requests store, Runs .plain (BitRequest .plain (ascii "b")) .empty requests store ∧
      (requests.foldl Request.onBits .blank).ones.card = 2 ^ 63 ∧
      Request.reply .plain store ⟨.bitcount, [ascii "b"], .plain 7⟩ =
        .ok (.integer Int64.minValue) := by
  obtain ⟨store, run, ones⟩ := run_setOne (2 ^ 63) (by decide)
  have count := ones ▸ Finset.card_range (2 ^ 63)
  refine ⟨_, store, run, count, ?_⟩
  have wrapped : Int64.ofNat (2 ^ 63) = Int64.minValue := by decide
  rw [← wrapped, ← count]
  exact Request.reply_eq_ok .plain ((BitsRefine.run run rfl).exec_bitcount (.plain 7))

end Requests

end Kvdb
