import Kvdb.Data.Indexing
import Kvdb.StreamRanges

/-!
# Exact decoding

The decoders of element keys and of the fields of a stream entry, with every read at a position
as the code makes it. No read leaves the string. What the decoders accept is what the encoders
write: they give back what was encoded, and a string that they accept is the encoding of what
they read from it.

The sums of positions are taken without overflow: a string has less than `2 ^ 63` bytes, and the
lengths that are read from it have 32 bits.
-/

namespace Kvdb

open Data

namespace Checked

section Keys

/-- Where the length of the user key stands, if the tenant's header is right. -/
def keyOffset (data tenant : Bytes) : Except OutOfRange (Option ℕ) :=
  let nsLen := tenant.length
  if tenant = [] then return some 0
  else if data.length < 1 + nsLen + 4 then return none
  else do
    let first ← byteAt data 0
    if first.toNat ≠ nsLen then return none
    else
      let name ← rangeOf data 1 (1 + nsLen)
      if name ≠ tenant then return none else return some (1 + nsLen)

/-- The key, version and element name of a physical element key. -/
def parseSubkey (data tenant : Bytes) : Except OutOfRange (Option (Bytes × UInt64 × Bytes)) := do
  match ← keyOffset data tenant with
  | none => return none
  | some keyOffset =>
    if data.length < keyOffset + 4 then return none
    else
      let keyLen := beNat (← bytesAt data keyOffset 4)
      if data.length < keyOffset + 4 + keyLen + 8 then return none
      else
        let userKey ← rangeOf data (keyOffset + 4) (keyOffset + 4 + keyLen)
        let versionPos := keyOffset + 4 + keyLen
        let version := u64OfBytes (← bytesAt data versionPos 8)
        let sub ← rangeOf data (versionPos + 8) data.length
        return some (userKey, version, sub)

end Keys

section Fields

/-- What a round of the loop over the fields comes to. -/
inductive Round where
  | ended (fields : Option (List (Bytes × Bytes)))
  | next (pos : ℕ) (result : List (Bytes × Bytes))

/-- One round of the loop over the fields. -/
def decodeRound (data : Bytes) (pos : ℕ) (result : List (Bytes × Bytes)) :
    Except OutOfRange Round :=
  if pos < data.length then
    if data.length < pos + 4 then return .ended none
    else do
      let kLen := beNat (← bytesAt data pos 4)
      let pos := pos + 4
      if data.length < pos + kLen + 4 then return .ended none
      else
        let k ← rangeOf data pos (pos + kLen)
        let pos := pos + kLen
        let vLen := beNat (← bytesAt data pos 4)
        let pos := pos + 4
        if data.length < pos + vLen then return .ended none
        else
          let v ← rangeOf data pos (pos + vLen)
          return .next (pos + vLen) (result ++ [(k, v)])
  else return .ended (some result)

/-- A number of rounds of the loop. Without a result it has not ended after them. -/
def decodeLoop (data : Bytes) :
    ℕ → ℕ → List (Bytes × Bytes) → Option (Except OutOfRange (Option (List (Bytes × Bytes))))
  | 0, _, _ => none
  | rounds + 1, pos, result =>
    match decodeRound data pos result with
    | .error outside => some (.error outside)
    | .ok (.ended fields) => some (.ok fields)
    | .ok (.next pos result) => decodeLoop data rounds pos result

/-- Read the fields of an entry in a number of rounds. -/
def decodeFields (rounds : ℕ) (data : Bytes) :
    Option (Except OutOfRange (Option (List (Bytes × Bytes)))) :=
  decodeLoop data rounds 0 []

end Fields

end Checked

variable {data tenant : Bytes}

/-- A length that is read and written again is the same four bytes. -/
theorem u32Bytes_beNat {bytes : Bytes} (width : bytes.length = 4) :
    u32Bytes (beNat bytes) = bytes := by
  rw [u32Bytes, ← width, beBytes_beNat]

section Keys

namespace Checked

theorem keyOffset_eq (data tenant : Bytes) :
    keyOffset data tenant = pure (
      if tenant = [] then some 0
      else if data.length < 1 + tenant.length + 4 then none
      else if (firstByte data).toNat ≠ tenant.length ∨ (data.drop 1).take tenant.length ≠
        tenant then none
      else some (1 + tenant.length)) := by
  rw [keyOffset]
  by_cases unnamed : tenant = []
  · rw [if_pos unnamed, if_pos unnamed]
  by_cases short : data.length < 1 + tenant.length + 4
  · rw [if_neg unnamed, if_neg unnamed, if_pos short, if_pos short]
  have first : byteAt data 0 = pure (firstByte data) := by
    cases data with
    | nil => simp at short
    | cons byte rest => rfl
  have name : rangeOf data 1 (1 + tenant.length) = pure ((data.drop 1).take tenant.length) := by
    rw [rangeOf_of_le (by omega) (by omega), Nat.add_sub_cancel_left]
  simp only [if_neg unnamed, if_neg short, first, name, pure_bind]
  generalize (data.drop 1).take tenant.length = stored
  by_cases marked : (firstByte data).toNat = tenant.length <;> by_cases same : stored = tenant <;>
    simp [marked, same]

/-- Every read of the decoder of element keys is inside the key. -/
theorem parseSubkey_eq (data tenant : Bytes) :
    parseSubkey data tenant = .ok (Kvdb.parseSubkey data tenant) := by
  rw [parseSubkey, keyOffset_eq, pure_bind, Kvdb.parseSubkey]
  generalize (if tenant = [] then some 0 else _ : Option ℕ) = header
  cases header with
  | none => rfl
  | some offset =>
    by_cases short : data.length < offset + 4
    · simp only [if_pos short]
      rfl
    simp only [if_neg short, bytesAt_of_le (Nat.le_of_not_lt short), pure_bind]
    by_cases cut : data.length < offset + 4 + beNat ((data.drop offset).take 4) + 8
    · simp only [if_pos cut]
      rfl
    simp only [if_neg cut]
    rw [rangeOf_of_le (by omega) (by omega), bytesAt_of_le (by omega),
      rangeOf_of_le le_rfl (by omega), Nat.add_sub_cancel_left, ← List.length_drop,
        List.take_length]
    rfl

end Checked

/-- The header that is accepted is the tenant's. -/
theorem take_of_header {offset : ℕ}
    (read : (if tenant = [] then some 0
      else if data.length < 1 + tenant.length + 4 then none
      else if (firstByte data).toNat ≠ tenant.length ∨ (data.drop 1).take tenant.length ≠
      tenant then none
      else some (1 + tenant.length)) = some offset) :
    data.take offset = if tenant = [] then [] else UInt8.ofNat tenant.length :: tenant := by
  split_ifs at read ⊢ with unnamed short mismatch
  · obtain rfl := Option.some.inj read
    rfl
  · obtain rfl := Option.some.inj read
    obtain ⟨marked, named⟩ := not_or.mp mismatch
    cases data with
    | nil => simp at short
    | cons byte rest =>
      have marker : UInt8.ofNat tenant.length = byte := by
        rw [← not_not.mp marked, firstByte_cons, UInt8.ofNat_toNat]
      rw [Nat.add_comm, List.take_succ_cons, marker]
      exact congrArg _ (not_not.mp named)

/-- A key that is accepted is the key of the element it was read as. -/
theorem subkey_of_parseSubkey {key sub : Bytes} {version : UInt64}
    (read : parseSubkey data tenant = some (key, version, sub)) :
    subkey key version sub tenant = data := by
  rw [parseSubkey] at read
  split at read
  · cases read
  · next offset header =>
    split_ifs at read with short
    obtain ⟨keyLen, stated⟩ : ∃ keyLen, beNat ((data.drop offset).take 4) = keyLen := ⟨_, rfl⟩
    obtain ⟨long, rfl, rfl, rfl⟩ : offset + 4 + keyLen + 8 ≤ data.length ∧
        (data.drop (offset + 4)).take keyLen = key ∧
        u64OfBytes (wordAt data (offset + 4 + keyLen)) = version ∧
        data.drop (offset + 4 + keyLen + 8) = sub := by
      simpa [stated] using read
    have keyWidth : ((data.drop (offset + 4)).take keyLen).length = keyLen := by
      rw [List.length_take, List.length_drop]
      omega
    have lengthField : u32Bytes keyLen = (data.drop offset).take 4 := by
      rw [← stated, u32Bytes_beNat (by rw [List.length_take, List.length_drop]; omega)]
    have versionField : u64Bytes (u64OfBytes (wordAt data (offset + 4 + keyLen))) =
        wordAt data (offset + 4 + keyLen) :=
      u64Bytes_u64OfBytes (by rw [wordAt, List.length_take, List.length_drop]; omega)
    -- The parts that were cut off, put together again from the last to the first.
    rw [subkey, metadataKey_eq, ← take_of_header header, keyWidth, lengthField,
      versionField, wordAt, take_append_drop_add, List.append_assoc, List.append_assoc,
        take_append_drop_add,
      take_append_drop_add, List.take_append_drop]

/-- Element keys are decoded exactly, without a read outside of the key. -/
theorem subkeys_decode_exactly (tenant : Bytes) :
    (∀ (key : Bytes) (version : UInt64) (sub : Bytes), tenant.length ≤ 255 → key.length < 2 ^ 32 →
        Checked.parseSubkey (subkey key version sub tenant) tenant =
          .ok (some (key, version, sub))) ∧
      (∀ (data key : Bytes) (version : UInt64) (sub : Bytes),
        Checked.parseSubkey data tenant = .ok (some (key, version, sub)) →
          subkey key version sub tenant = data) ∧
      ∀ data : Bytes, ∃ result, Checked.parseSubkey data tenant = .ok result := by
  refine ⟨?_, ?_, ?_⟩
  · intro key version sub named short
    rw [Checked.parseSubkey_eq, parseSubkey_subkey version sub short named]
  · intro data key version sub read
    rw [Checked.parseSubkey_eq] at read
    exact subkey_of_parseSubkey (Except.ok.inj read)
  · intro data
    exact ⟨_, Checked.parseSubkey_eq data tenant⟩

theorem subkeys_decode_exactly_of_one :
    Checked.parseSubkey (subkey [107] 7 [102] [116]) [116] = .ok (some ([107], 7, [102])) ∧
      subkey [107] 7 [102] [116] = [1, 116, 0, 0, 0, 1, 107, 0, 0, 0, 0, 0, 0, 0, 7, 102] ∧
      ∃ result, Checked.parseSubkey [1, 116, 0, 0, 0, 9] [116] = .ok result :=
  ⟨(subkeys_decode_exactly [116]).1 [107] 7 [102] (by decide) (by decide),
    (subkeys_decode_exactly [116]).2.1 _ [107] 7 [102] (by decide),
    (subkeys_decode_exactly [116]).2.2 _⟩

end Keys

section Fields

variable {pos : ℕ} {result : List (Bytes × Bytes)}

/-- A string that is taken off stood behind its length. -/
theorem takeString_eq_some {text rest : Bytes} (read : Cmd.takeString data = some (text, rest)) :
    u32Bytes text.length ++ (text ++ rest) = data := by
  rw [Cmd.takeString] at read
  split_ifs at read with short
  obtain ⟨len, stated⟩ : ∃ len, beNat (data.take 4) = len := ⟨_, rfl⟩
  obtain ⟨long, rfl, rfl⟩ : 4 + len ≤ data.length ∧ (data.drop 4).take len = text ∧
      data.drop (4 + len) = rest := by
    simpa [stated] using read
  have width : ((data.drop 4).take len).length = len := by
    rw [List.length_take, List.length_drop]
    omega
  rw [width, ← stated, u32Bytes_beNat (by rw [List.length_take]; omega), take_append_drop_add,
    List.take_append_drop]

theorem encodeFields_of_decodeFieldsLoop {n : ℕ} {fields : List (Bytes × Bytes)}
    (read : Cmd.decodeFieldsLoop n data = some fields) : Cmd.encodeFields fields = data := by
  induction n generalizing data fields with
  | zero =>
    rw [Cmd.decodeFieldsLoop] at read
    split_ifs at read with empty
    rw [← Option.some.inj read, empty]
    rfl
  | succ n ih =>
    rw [Cmd.decodeFieldsLoop] at read
    split_ifs at read with empty
    · rw [← Option.some.inj read, empty]
      rfl
    · obtain ⟨⟨k, rest⟩, first, read⟩ := Option.bind_eq_some_iff.mp read
      obtain ⟨⟨v, rest'⟩, second, read⟩ := Option.bind_eq_some_iff.mp read
      obtain ⟨others, third, read⟩ := Option.bind_eq_some_iff.mp read
      rw [← Option.some.inj read, Cmd.encodeFields, ih third, takeString_eq_some second,
        takeString_eq_some first]

theorem takeString_drop (inside : pos ≤ data.length) :
    Cmd.takeString (data.drop pos) =
      if data.length < pos + 4 then none
      else if data.length < pos + 4 + beNat ((data.drop pos).take 4) then none
      else some ((data.drop (pos + 4)).take (beNat ((data.drop pos).take 4)),
        data.drop (pos + 4 + beNat ((data.drop pos).take 4))) := by
  have short : (data.drop pos).length < 4 ↔ data.length < pos + 4 := by
    rw [List.length_drop]
    omega
  have cut : (data.drop pos).length < 4 + beNat ((data.drop pos).take 4) ↔
      data.length < pos + 4 + beNat ((data.drop pos).take 4) := by
    rw [List.length_drop]
    omega
  simp only [Cmd.takeString, short, cut, List.drop_drop, Nat.add_assoc]

/-- A round reads a name and a value behind the cursor, and no byte outside of the string. -/
theorem Checked.decodeRound_eq (inside : pos ≤ data.length) :
    decodeRound data pos result = .ok (
      if data.drop pos = [] then .ended (some result)
      else
        match Cmd.takeString (data.drop pos) with
        | none => .ended none
        | some (k, rest) =>
          match Cmd.takeString rest with
          | none => .ended none
          | some (v, rest) => .next (data.length - rest.length) (result ++ [(k, v)])) := by
  change _ = pure _
  rw [decodeRound, takeString_drop inside]
  by_cases ended : pos < data.length
  swap
  · rw [if_neg ended, if_pos (List.drop_eq_nil_of_le (Nat.le_of_not_lt ended))]
  have left : data.drop pos ≠ [] := by
    rw [Ne, List.drop_eq_nil_iff]
    omega
  rw [if_pos ended, if_neg left]
  by_cases short : data.length < pos + 4
  · simp only [if_pos short]
  simp only [if_neg short, bytesAt_of_le (Nat.le_of_not_lt short), pure_bind]
  generalize beNat ((data.drop pos).take 4) = kLen
  by_cases cut : data.length < pos + 4 + kLen
  · rw [if_pos (by omega)]
    simp only [if_pos cut]
  simp only [if_neg cut, takeString_drop (Nat.le_of_not_lt cut)]
  by_cases short' : data.length < pos + 4 + kLen + 4
  · simp only [if_pos short']
  simp only [if_neg short', bytesAt_of_le (Nat.le_of_not_lt short')]
  rw [rangeOf_of_le (by omega) (by omega), Nat.add_sub_cancel_left, pure_bind, pure_bind]
  generalize beNat ((data.drop (pos + 4 + kLen)).take 4) = vLen
  by_cases cut' : data.length < pos + 4 + kLen + 4 + vLen
  · simp only [if_pos cut']
  simp only [if_neg cut']
  rw [rangeOf_of_le (by omega) (by omega), Nat.add_sub_cancel_left, pure_bind, List.length_drop,
    Nat.sub_sub_self (by omega)]

/-- The loop ends with what the fields behind the cursor are, after the pairs read before. -/
theorem Checked.decodeLoop_eq {rounds n : ℕ} (inside : pos ≤ data.length)
    (enough : data.length - pos < rounds) (fuel : data.length - pos ≤ n) :
    decodeLoop data rounds pos result =
      some (.ok ((Cmd.decodeFieldsLoop n (data.drop pos)).map (result ++ ·))) := by
  induction rounds generalizing pos n result with
  | zero => omega
  | succ rounds ih =>
    rw [decodeLoop, decodeRound_eq inside]
    by_cases ended : data.drop pos = []
    · rw [if_pos ended]
      cases n <;> simp [Cmd.decodeFieldsLoop, ended]
    rw [if_neg ended]
    have left : pos < data.length := by
      rw [List.drop_eq_nil_iff] at ended
      omega
    obtain ⟨n, rfl⟩ : ∃ m, n = m + 1 := ⟨n - 1, by omega⟩
    rw [Cmd.decodeFieldsLoop, if_neg ended]
    cases first : Cmd.takeString (data.drop pos) with
    | none => rfl
    | some pair =>
      obtain ⟨k, rest⟩ := pair
      cases second : Cmd.takeString rest with
      | none => simp [second]
      | some pair =>
        obtain ⟨v, rest'⟩ := pair
        have shape : u32Bytes k.length ++ (k ++ (u32Bytes v.length ++ (v ++ rest'))) =
            data.drop pos := by
          rw [takeString_eq_some second, takeString_eq_some first]
        have used := congrArg List.length shape
        simp only [List.length_append, length_u32Bytes, List.length_drop] at used
        have behind : rest' = data.drop (data.length - rest'.length) := by
          refine List.suffix_iff_eq_drop.mp (.trans ?_ (List.drop_suffix pos data))
          exact ⟨u32Bytes k.length ++ (k ++ (u32Bytes v.length ++ v)), by simpa using shape⟩
        simp only [Option.bind_eq_bind, Option.bind_some, second]
        rw [ih (n := n) (by omega) (by omega) (by omega), ← behind]
        cases Cmd.decodeFieldsLoop n rest' <;> simp

theorem Checked.decodeFields_eq {rounds : ℕ} (enough : data.length < rounds) :
    decodeFields rounds data = some (.ok (Cmd.decodeFields data)) := by
  rw [decodeFields, decodeLoop_eq (n := data.length) (Nat.zero_le _) (by omega) (by omega),
    List.drop_zero]
  simp [Cmd.decodeFields]

/-- Fields are decoded exactly. The loop ends, after one round more than there are bytes at the
latest, and reads nothing outside of the string. -/
theorem fields_decode_exactly :
    (∀ (fields : List (Bytes × Bytes)) (rounds : ℕ), ShortFields fields →
        (Cmd.encodeFields fields).length < rounds →
        Checked.decodeFields rounds (Cmd.encodeFields fields) = some (.ok (some fields))) ∧
      ∀ (data : Bytes) (rounds : ℕ), data.length < rounds →
        ∃ result, Checked.decodeFields rounds data = some (.ok result) ∧
          ∀ fields, result = some fields → Cmd.encodeFields fields = data := by
  constructor
  · intro fields rounds short enough
    rw [Checked.decodeFields_eq enough, decodeFields_encodeFields short]
  · intro data rounds enough
    refine ⟨_, Checked.decodeFields_eq enough, ?_⟩
    intro fields read
    exact encodeFields_of_decodeFieldsLoop read

theorem fields_decode_exactly_of_three :
    Checked.decodeFields 40 (Cmd.encodeFields [([97], []), ([], [255]), ([97], [0])]) =
        some (.ok (some [([97], []), ([], [255]), ([97], [0])])) ∧
      ∃ result, Checked.decodeFields 6 [0, 0, 0, 1, 97] = some (.ok result) ∧
        ∀ fields, result = some fields → Cmd.encodeFields fields = [0, 0, 0, 1, 97] :=
  ⟨fields_decode_exactly.1 _ 40 (by simp [ShortFields]) (by decide),
    fields_decode_exactly.2 _ 6 (by decide)⟩

end Fields

end Kvdb
