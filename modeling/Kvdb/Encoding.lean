import Kvdb.Types

/-!
# Physical keys and stored values

A user key is stored behind its length, and in a named tenant behind the
tenant's name, so that within one tenant no physical key is a prefix of another
key's. Elements of a composite value live behind the key's metadata key and the
version of the value. A metadata value is a string payload behind flags and
expiry, or a record of fixed-width fields.

User keys are taken shorter than `2 ^ 32` bytes where their length matters: the
length field has four bytes, and the engine's documented limit is 512 MB.
-/

namespace Kvdb

open Data

section Words

/-- A `u64` in big-endian bytes. -/
def u64Bytes (n : UInt64) : Bytes := beBytes 8 n.toNat

/-- The `u64` that big-endian bytes denote. -/
def u64OfBytes (bytes : Bytes) : UInt64 := UInt64.ofNat (beNat bytes)

/-- An `i64` in big-endian two's complement. -/
def i64Bytes (n : Int64) : Bytes := u64Bytes n.toUInt64

/-- The `i64` that big-endian two's complement bytes denote. -/
def i64OfBytes (bytes : Bytes) : Int64 := (u64OfBytes bytes).toInt64

def signBit : UInt64 := (1 : UInt64) <<< 63

/-- A length as a `u32` in big-endian bytes. Longer lengths are truncated. -/
def u32Bytes (n : ℕ) : Bytes := beBytes 4 n

@[simp] theorem length_u64Bytes (n : UInt64) : (u64Bytes n).length = 8 := length_beBytes 8 _

@[simp] theorem length_i64Bytes (n : Int64) : (i64Bytes n).length = 8 := length_u64Bytes _

@[simp] theorem length_u32Bytes (n : ℕ) : (u32Bytes n).length = 4 := length_beBytes 4 _

theorem beNat_u64Bytes (n : UInt64) : beNat (u64Bytes n) = n.toNat := by
  rw [u64Bytes, beNat_beBytes]
  exact Nat.mod_eq_of_lt n.toNat_lt

@[simp] theorem u64OfBytes_u64Bytes (n : UInt64) : u64OfBytes (u64Bytes n) = n := by
  rw [u64OfBytes, beNat_u64Bytes, UInt64.ofNat_toNat]

@[simp] theorem i64OfBytes_i64Bytes (n : Int64) : i64OfBytes (i64Bytes n) = n := by
  rw [i64OfBytes, i64Bytes, u64OfBytes_u64Bytes, Int64.toInt64_toUInt64]

theorem u64Bytes_u64OfBytes {bytes : Bytes} (width : bytes.length = 8) :
    u64Bytes (u64OfBytes bytes) = bytes := by
  have small : beNat bytes < 2 ^ 64 := by simpa [width] using beNat_lt bytes
  rw [u64Bytes, u64OfBytes, UInt64.toNat_ofNat', Nat.mod_eq_of_lt small, ← width, beBytes_beNat]

theorem u64Bytes_injective : Function.Injective u64Bytes := fun m n same => by
  simpa using congrArg u64OfBytes same

@[simp] theorem u64Bytes_inj {m n : UInt64} : u64Bytes m = u64Bytes n ↔ m = n :=
  u64Bytes_injective.eq_iff

theorem beNat_u32Bytes {n : ℕ} (small : n < 2 ^ 32) : beNat (u32Bytes n) = n := by
  rw [u32Bytes, beNat_beBytes, Nat.mod_eq_of_lt (by simpa using small)]

theorem toNat_signBit : signBit.toNat = 2 ^ 63 := by decide

/-- The sign bit is clear exactly below `2 ^ 63`. -/
theorem and_signBit_eq_zero {n : UInt64} : n &&& signBit = 0 ↔ n.toNat < 2 ^ 63 := by
  have bound := n.toNat_lt
  have high : (n.toNat &&& 2 ^ 63) / 2 ^ 63 = n.toNat / 2 ^ 63 % 2 := by
    rw [Nat.and_div_two_pow, Nat.div_self (by norm_num), Nat.and_one_is_mod]
  have rest : (n.toNat &&& 2 ^ 63) % 2 ^ 63 = 0 := by
    rw [Nat.and_mod_two_pow, Nat.mod_self, Nat.and_zero]
  rw [← UInt64.toNat_inj, UInt64.toNat_and, toNat_signBit, UInt64.toNat_zero]
  omega

/-- Flipping the sign bit moves a word by `2 ^ 63`. -/
theorem toNat_xor_signBit (n : UInt64) :
    (n ^^^ signBit).toNat = if n.toNat < 2 ^ 63 then n.toNat + 2 ^ 63 else n.toNat - 2 ^ 63 := by
  have bound := n.toNat_lt
  have xor_low {m : ℕ} (low : m < 2 ^ 63) : m ^^^ 2 ^ 63 = m + 2 ^ 63 := by
    have high : (m ^^^ 2 ^ 63) / 2 ^ 63 = 1 := by
      rw [Nat.xor_div_two_pow, Nat.div_eq_of_lt low]
      simp
    have rest : (m ^^^ 2 ^ 63) % 2 ^ 63 = m := by
      rw [Nat.xor_mod_two_pow, Nat.mod_eq_of_lt low]
      simp
    omega
  rw [UInt64.toNat_xor, toNat_signBit]
  by_cases low : n.toNat < 2 ^ 63
  · rw [if_pos low, xor_low low]
  · have split : n.toNat = (n.toNat - 2 ^ 63) ^^^ 2 ^ 63 := by
      rw [xor_low (by omega)]
      omega
    rw [if_neg low]
    conv_lhs => rw [split]
    rw [Nat.xor_assoc, Nat.xor_self, Nat.xor_zero]

def firstByte : Bytes → UInt8
  | [] => 0
  | byte :: _ => byte

@[simp] theorem firstByte_cons (byte : UInt8) (rest : Bytes) : firstByte (byte :: rest) = byte :=
  rfl

def wordAt (data : Bytes) (position : ℕ) : Bytes := (data.drop position).take 8

@[simp] theorem wordAt_cons (byte : UInt8) (rest : Bytes) (position : ℕ) :
    wordAt (byte :: rest) (position + 1) = wordAt rest position := rfl

theorem wordAt_zero {word : Bytes} (width : word.length = 8) (rest : Bytes) :
    wordAt (word ++ rest) 0 = word := by
  rw [wordAt, List.drop_zero, List.take_left' width]

theorem wordAt_skip {word : Bytes} (width : word.length = 8) (rest : Bytes) (position : ℕ) :
    wordAt (word ++ rest) (position + 8) = wordAt rest position := by
  rw [wordAt, wordAt, Nat.add_comm, ← List.drop_drop, List.drop_left' width]

theorem wordAt_self {word : Bytes} (width : word.length = 8) : wordAt word 0 = word := by
  simpa using wordAt_zero width []

end Words

section Keys

def metadataKey (userKey tenant : Bytes) : Bytes :=
  if tenant = [] then u32Bytes userKey.length ++ userKey
  else UInt8.ofNat tenant.length :: (tenant ++ (u32Bytes userKey.length ++ userKey))

/-- The physical key of an element of a composite value. -/
def subkey (userKey : Bytes) (version : UInt64) (sub tenant : Bytes) : Bytes :=
  metadataKey userKey tenant ++ (u64Bytes version ++ sub)

/-- The key, version and element name of a physical element key. -/
def parseSubkey (data tenant : Bytes) : Option (Bytes × UInt64 × Bytes) :=
  let nsLen := tenant.length
  let header : Option ℕ :=
    if tenant = [] then some 0
    else if data.length < 1 + nsLen + 4 then none
    else if (firstByte data).toNat ≠ nsLen ∨ (data.drop 1).take nsLen ≠ tenant then none
    else some (1 + nsLen)
  match header with
  | none => none
  | some keyOffset =>
    if data.length < keyOffset + 4 then none
    else
      let keyLen := beNat ((data.drop keyOffset).take 4)
      if data.length < keyOffset + 4 + keyLen + 8 then none
      else
        let versionPos := keyOffset + 4 + keyLen
        some ((data.drop (keyOffset + 4)).take keyLen, u64OfBytes (wordAt data versionPos),
          data.drop (versionPos + 8))

/-- Behind the tenant's header every physical key is a length and a user key. -/
theorem metadataKey_eq (userKey tenant : Bytes) :
    metadataKey userKey tenant =
      (if tenant = [] then [] else UInt8.ofNat tenant.length :: tenant) ++
        (u32Bytes userKey.length ++ userKey) := by
  unfold metadataKey
  split_ifs <;> simp

/-- Within a tenant a physical key determines the user key and what follows it,
so no key's entries run into another key's. -/
theorem metadataKey_append_inj {key other tenant rest rest' : Bytes}
    (short : key.length < 2 ^ 32) (short' : other.length < 2 ^ 32)
    (same : metadataKey key tenant ++ rest = metadataKey other tenant ++ rest') :
    key = other ∧ rest = rest' := by
  rw [metadataKey_eq, metadataKey_eq] at same
  simp only [List.append_assoc, List.append_cancel_left_eq] at same
  obtain ⟨lengths, tails⟩ := List.append_inj same (by simp)
  have equal : key.length = other.length := by
    rw [← beNat_u32Bytes short, ← beNat_u32Bytes short', lengths]
  exact List.append_inj tails equal

/-- Within a tenant a metadata key determines the user key. -/
theorem metadataKey_inj {key other tenant : Bytes}
    (same : metadataKey key tenant = metadataKey other tenant) : key = other := by
  rw [metadataKey_eq, metadataKey_eq, List.append_cancel_left_eq] at same
  exact (List.append_inj same (by simp)).2

/-- An element key names its version and element, given the user key. -/
@[simp] theorem subkey_inj {key tenant sub sub' : Bytes} {version version' : UInt64} :
    subkey key version sub tenant = subkey key version' sub' tenant ↔
      version = version' ∧ sub = sub' := by
  rw [subkey, subkey, List.append_cancel_left_eq]
  constructor
  · intro same
    obtain ⟨versions, subs⟩ := List.append_inj same (by simp)
    exact ⟨u64Bytes_injective versions, subs⟩
  · rintro ⟨rfl, rfl⟩
    rfl

/-- An element key of one short user key is never one of another. -/
theorem subkey_key_inj {key other tenant sub sub' : Bytes} {version version' : UInt64}
    (short : key.length < 2 ^ 32) (short' : other.length < 2 ^ 32)
    (same : subkey key version sub tenant = subkey other version' sub' tenant) : key = other :=
  (metadataKey_append_inj short short' same).1

/-- The keys of the elements of one version are the extensions of one prefix. -/
theorem subkey_eq_prefix_append (key : Bytes) (version : UInt64) (sub tenant : Bytes) :
    subkey key version sub tenant = subkey key version [] tenant ++ sub := by
  simp [subkey]

theorem subkey_prefix_iff {key tenant data : Bytes} {version : UInt64} :
    subkey key version [] tenant <+: data ↔ ∃ sub, data = subkey key version sub tenant := by
  constructor
  · rintro ⟨sub, rfl⟩
    exact ⟨sub, (subkey_eq_prefix_append key version sub tenant).symm⟩
  · rintro ⟨sub, rfl⟩
    exact ⟨sub, (subkey_eq_prefix_append key version sub tenant).symm⟩

theorem subkey_ne_nil (key : Bytes) (version : UInt64) (sub tenant : Bytes) :
    subkey key version sub tenant ≠ [] := by
  intro empty
  have lengths := congrArg List.length empty
  simp [subkey] at lengths

/-- The fields of an element key behind a header of known width. -/
private theorem subkey_fields (header key : Bytes) (version : UInt64) (sub : Bytes) {offset : ℕ}
    (width : header.length = offset) :
    let data := header ++ (u32Bytes key.length ++ (key ++ (u64Bytes version ++ sub)))
    (data.drop offset).take 4 = u32Bytes key.length ∧
      (data.drop (offset + 4)).take key.length = key ∧
      wordAt data (offset + 4 + key.length) = u64Bytes version ∧
      data.drop (offset + 4 + key.length + 8) = sub := by
  intro data
  have lengthField : data.drop offset = u32Bytes key.length ++ (key ++ (u64Bytes version ++ sub)) :=
    List.drop_left' width
  have keyField : data.drop (offset + 4) = key ++ (u64Bytes version ++ sub) := by
    rw [← List.drop_drop, lengthField, List.drop_left' (by simp)]
  have versionField : data.drop (offset + 4 + key.length) = u64Bytes version ++ sub := by
    rw [← List.drop_drop, keyField, List.drop_left' rfl]
  refine ⟨?_, ?_, ?_, ?_⟩
  · rw [lengthField, List.take_left' (by simp)]
  · rw [keyField, List.take_left' rfl]
  · rw [wordAt, versionField, List.take_left' (by simp)]
  · rw [← List.drop_drop, versionField, List.drop_left' (by simp)]

/-- Parsing an element key gives back its parts. -/
theorem parseSubkey_subkey {key tenant : Bytes} (version : UInt64) (sub : Bytes)
    (short : key.length < 2 ^ 32) (named : tenant.length ≤ 255) :
    parseSubkey (subkey key version sub tenant) tenant = some (key, version, sub) := by
  have keyLen := beNat_u32Bytes short
  by_cases unnamed : tenant = []
  · subst unnamed
    obtain ⟨lengthField, keyField, versionField, subField⟩ :=
      subkey_fields [] key version sub List.length_nil
    simp only [List.nil_append] at lengthField keyField versionField subField
    have shape : subkey key version sub [] =
        u32Bytes key.length ++ (key ++ (u64Bytes version ++ sub)) := by
      simp [subkey, metadataKey]
    rw [parseSubkey, shape]
    simp only [reduceIte, lengthField, keyLen, keyField, versionField, subField,
      u64OfBytes_u64Bytes]
    rw [if_neg (by simp), if_neg (by simp; omega)]
  · let header : Bytes := UInt8.ofNat tenant.length :: tenant
    have width : header.length = 1 + tenant.length := by simp [header]; omega
    obtain ⟨lengthField, keyField, versionField, subField⟩ :=
      subkey_fields header key version sub width
    have shape : subkey key version sub tenant =
        header ++ (u32Bytes key.length ++ (key ++ (u64Bytes version ++ sub))) := by
      simp [subkey, metadataKey, unnamed, header]
    have marker : (UInt8.ofNat tenant.length).toNat = tenant.length := by
      rw [UInt8.toNat_ofNat']
      omega
    have accepted : ¬ ((firstByte (header ++ (u32Bytes key.length ++ (key ++
        (u64Bytes version ++ sub))))).toNat ≠ tenant.length ∨
        ((header ++ (u32Bytes key.length ++ (key ++ (u64Bytes version ++ sub)))).drop 1).take
          tenant.length ≠ tenant) := by
      simp [header, marker]
    rw [parseSubkey, shape]
    simp only [unnamed, reduceIte, if_neg accepted]
    rw [if_neg (by simp [header]; omega)]
    simp only [lengthField, keyLen, keyField, versionField, subField, u64OfBytes_u64Bytes]
    rw [if_neg (by simp [header]; omega), if_neg (by simp [header]; omega)]

end Keys

section Values

/-- The metadata value of a composite type. Lists keep two more fields. -/
def encodeMetadata (meta' : Metadata) : Bytes :=
  meta'.flags :: (i64Bytes meta'.expire ++ (u64Bytes meta'.version ++ (u64Bytes meta'.size ++
    if meta'.dataType = some .list then i64Bytes meta'.head ++ i64Bytes meta'.tail else [])))

/-- Read the metadata value of a composite type. -/
def decodeMetadata (data : Bytes) : Option Metadata :=
  if data.length < 1 + 8 + 8 + 8 then none
  else
    let flags := firstByte data
    match dataTypeFromFlags flags with
    | none => none
    | some dataType =>
      let expire := i64OfBytes (wordAt data 1)
      let version := u64OfBytes (wordAt data 9)
      let size := u64OfBytes (wordAt data 17)
      if dataType = .list then
        if data.length < 1 + 8 + 8 + 8 + 8 + 8 then none
        else some ⟨flags, expire, version, size, i64OfBytes (wordAt data 25),
          i64OfBytes (wordAt data 33)⟩
      else some ⟨flags, expire, version, size, 0, -1⟩

/-- The metadata value of a string: its payload behind flags and expiry. -/
def encodeString (flags : UInt8) (expire : Int64) (payload : Bytes) : Bytes :=
  flags :: (i64Bytes expire ++ payload)

/-- Read the metadata value of a string. -/
def decodeString (data : Bytes) : Option (UInt8 × Int64 × Bytes) :=
  if data.length < 1 + 8 then none
  else some (firstByte data, i64OfBytes (wordAt data 1), data.drop 9)

@[simp] theorem decodeString_encodeString (flags : UInt8) (expire : Int64) (payload : Bytes) :
    decodeString (encodeString flags expire payload) = some (flags, expire, payload) := by
  simp [decodeString, encodeString, wordAt_zero]

/-- Only lists use the index fields. -/
def Metadata.Normal (meta' : Metadata) : Prop :=
  meta'.dataType ≠ some .list → meta'.head = 0 ∧ meta'.tail = -1

theorem Metadata.new_normal (dataType : DataType) (version : UInt64) :
    (Metadata.new dataType version).Normal := fun _ => ⟨rfl, rfl⟩

/-- Reading a stored record gives it back. -/
theorem decodeMetadata_encodeMetadata {meta' : Metadata} {dataType : DataType}
    (known : meta'.dataType = some dataType) (normal : meta'.Normal) :
    decodeMetadata (encodeMetadata meta') = some meta' := by
  obtain ⟨flags, expire, version, size, head, tail⟩ := meta'
  have type : dataTypeFromFlags flags = some dataType := known
  by_cases list : dataType = .list
  · subst list
    simp [decodeMetadata, encodeMetadata, Metadata.dataType, type, wordAt_zero, wordAt_skip,
      wordAt_self]
  · have indexes : head = 0 ∧ tail = -1 := normal (by rw [known]; simpa using list)
    simp [decodeMetadata, encodeMetadata, Metadata.dataType, type, list, wordAt_zero, wordAt_skip,
      wordAt_self, indexes]

/-- What a metadata value says when it can be read. -/
theorem decodeMetadata_eq_some {data : Bytes} {meta' : Metadata}
    (decoded : decodeMetadata data = some meta') :
    25 ≤ data.length ∧ meta'.flags = firstByte data ∧ (∃ dataType, meta'.dataType = some dataType) ∧
      meta'.Normal ∧ (meta'.dataType = some .list → 41 ≤ data.length) := by
  by_cases short : data.length < 1 + 8 + 8 + 8
  · simp [decodeMetadata, short] at decoded
  cases known : dataTypeFromFlags (firstByte data) with
  | none => simp [decodeMetadata, known] at decoded
  | some dataType =>
    simp only [decodeMetadata, if_neg short, known] at decoded
    by_cases list : dataType = .list
    · by_cases narrow : data.length < 1 + 8 + 8 + 8 + 8 + 8
      · simp [list, narrow] at decoded
      · simp only [if_pos list, if_neg narrow, Option.some.injEq] at decoded
        subst decoded list
        exact ⟨by omega, rfl, ⟨_, known⟩, fun other => absurd known other, fun _ => by omega⟩
    · simp only [if_neg list, Option.some.injEq] at decoded
      subst decoded
      refine ⟨by omega, rfl, ⟨dataType, known⟩, fun _ => ⟨rfl, rfl⟩, fun isList => absurd ?_ list⟩
      exact Option.some.inj (known.symm.trans isList)

/-- The deadline of a stored value, which is in the same place in every layout. -/
def deadlineOf (v : Bytes) : Int64 := i64OfBytes (wordAt v 1)

/-- The common fields are in the same place in every layout. -/
theorem decodeMetadata_fields {data : Bytes} {meta' : Metadata}
    (decoded : decodeMetadata data = some meta') :
    meta'.expire = deadlineOf data ∧ meta'.version = u64OfBytes (wordAt data 9) ∧
      meta'.size = u64OfBytes (wordAt data 17) := by
  by_cases short : data.length < 1 + 8 + 8 + 8
  · simp [decodeMetadata, short] at decoded
  cases known : dataTypeFromFlags (firstByte data) with
  | none => simp [decodeMetadata, known] at decoded
  | some dataType =>
    simp only [decodeMetadata, if_neg short, known] at decoded
    split_ifs at decoded <;> cases decoded <;> exact ⟨rfl, rfl, rfl⟩

end Values

end Kvdb
