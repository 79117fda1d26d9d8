import Kvdb.Paging

/-!
# What commands share

The context a command runs in, the metadata lookup with its fallback to the
format without tenants, the text parsers, and the metadata check that the
loaders of the composite types have in common.
-/

namespace Kvdb

open Data Semantics

section Texts

def ascii (text : String) : Bytes := text.toList.map fun c => UInt8.ofNat c.toNat

/-- The byte with an ASCII lower-case letter made upper case. -/
def upperByte (byte : UInt8) : UInt8 := if 0x61 ≤ byte ∧ byte ≤ 0x7A then byte - 0x20 else byte

def toAsciiUppercase (text : Bytes) : Bytes := text.map upperByte

/-- `eq_ignore_ascii_case` against an upper-case keyword. -/
def isKeyword (text : Bytes) (keyword : String) : Bool := toAsciiUppercase text = ascii keyword

/-- A byte that continues a character in UTF-8. -/
def isContinuation (byte : UInt8) : Bool := byte &&& 0xC0 = 0x80

/-- The byte string is valid UTF-8. -/
def isUtf8 : Bytes → Bool
  | [] => true
  | [a] => a < 0x80
  | a :: b :: rest =>
    if a < 0x80 then isUtf8 (b :: rest)
    else if 0xC2 ≤ a ∧ a ≤ 0xDF then isContinuation b && isUtf8 rest
    else
      match rest with
      | [] => false
      | c :: rest =>
        if 0xE0 ≤ a ∧ a ≤ 0xEF then
          isContinuation b && (a != 0xE0 || 0xA0 ≤ b) && (a != 0xED || b ≤ 0x9F) &&
            isContinuation c && isUtf8 rest
        else
          match rest with
          | [] => false
          | d :: rest =>
            0xF0 ≤ a && a ≤ 0xF4 && isContinuation b && (a != 0xF0 || 0x90 ≤ b) &&
              (a != 0xF4 || b ≤ 0x8F) && isContinuation c && isContinuation d && isUtf8 rest

/-- The value of a nonempty string of decimal digits. -/
def parseDigits (text : Bytes) : Option ℕ :=
  if text = [] then none
  else text.foldlM (fun n byte =>
    if 0x30 ≤ byte ∧ byte ≤ 0x39 then some (n * 10 + (byte.toNat - 0x30)) else none) 0

/-- `str::parse::<u64>` of a byte string, also used for `usize`. -/
def parseU64 (text : Bytes) : Option ℕ := do
  let n ← parseDigits (if text.head? = some 0x2B then text.tail else text)
  if n < 2 ^ 64 then some n else none

/-- `str::parse::<i64>` of a byte string. -/
def parseI64? (text : Bytes) : Option Int64 :=
  if text.head? = some 0x2D then do
    let n ← parseDigits text.tail
    if n ≤ 2 ^ 63 then some (Int64.ofInt (-(n : ℤ))) else none
  else do
    let n ← parseDigits (if text.head? = some 0x2B then text.tail else text)
    if n < 2 ^ 63 then some (Int64.ofInt n) else none

/-- A natural number in decimal digits. -/
def renderNat (n : ℕ) : Bytes := (Nat.toDigits 10 n).map fun c => UInt8.ofNat c.toNat

/-- An `i64` in decimal digits. -/
def renderI64 (n : Int64) : Bytes :=
  if n.toInt < 0 then 0x2D :: renderNat n.toInt.natAbs else renderNat n.toInt.natAbs

/-- Parse an integer argument. -/
def parseI64 (text : Bytes) : Prog Int64 :=
  match parseI64? text with
  | some n => pure n
  | none => raise .notInteger

/-- Parse a count argument. -/
def parseUsize (text : Bytes) : Prog ℕ :=
  match parseU64 text with
  | some n => pure n
  | none => raise .notInteger

theorem exec_parseI64_eq_ok {env : Env} {store after : Store} {text : Bytes} {n : Int64}
    (ran : exec env (parseI64 text) store = (.ok n, after)) :
    parseI64? text = some n ∧ after = store := by
  rw [parseI64] at ran
  cases parsed : parseI64? text with
  | none =>
    rw [parsed] at ran
    cases ran
  | some m =>
    rw [parsed] at ran
    cases ran
    exact ⟨rfl, rfl⟩

theorem readOnly_parseI64 (text : Bytes) : ReadOnly (parseI64 text) := by
  unfold parseI64
  split
  · exact readOnly_pure _
  · exact readOnly_raise _

end Texts

section Counters

/-- `u64::saturating_add`. -/
def saturatingAdd (m n : UInt64) : UInt64 :=
  if m.toNat + n.toNat < 2 ^ 64 then m + n else UInt64.ofNat (2 ^ 64 - 1)

/-- `u64::saturating_sub`. -/
def saturatingSub (m n : UInt64) : UInt64 := if n ≤ m then m - n else 0

theorem toNat_saturatingSub (m n : UInt64) : (saturatingSub m n).toNat = m.toNat - n.toNat := by
  unfold saturatingSub
  split_ifs with le
  · exact UInt64.toNat_sub_of_le _ _ le
  · rw [UInt64.le_iff_toNat_le, not_le] at le
    rw [UInt64.toNat_zero]
    omega

/-- Counting one more and then some. -/
theorem int64_add_one_add (n : Int64) (k : ℕ) :
    n + 1 + Int64.ofNat k = n + Int64.ofNat (k + 1) := by
  rw [Int64.ofNat_add, Int64.add_comm (Int64.ofNat k), ← Int64.add_assoc]
  rfl

theorem int64_ofNat_pos {n : ℕ} (small : n < 2 ^ 63) : 0 < Int64.ofNat n ↔ 0 < n := by
  rw [Int64.lt_iff_toInt_lt, Int64.toInt_ofNat_of_lt small, Int64.toInt_zero]
  omega

theorem toInt64_eq_ofNat (n : UInt64) : n.toInt64 = Int64.ofNat n.toNat :=
  Int64.toBitVec.inj (BitVec.eq_of_toNat_eq (by simp))

theorem uint64_add_one_add (n : UInt64) (k : ℕ) :
    n + 1 + UInt64.ofNat k = n + UInt64.ofNat (k + 1) := by
  rw [UInt64.ofNat_add, UInt64.add_comm (UInt64.ofNat k), ← UInt64.add_assoc]
  rfl

/-- A signed number as a machine word. -/
theorem toInt_eq_toUInt64 (n : Int64) :
    n.toInt = if 2 * n.toUInt64.toNat < 2 ^ 64 then (n.toUInt64.toNat : ℤ)
      else (n.toUInt64.toNat : ℤ) - (2 ^ 64 : ℕ) :=
  BitVec.toInt_eq_toNat_cond _

theorem toNat_toUInt64 {n : Int64} (nonneg : 0 ≤ n.toInt) :
    (n.toUInt64.toNat : ℤ) = n.toInt := by
  have bound := n.toUInt64.toNat_lt
  rw [toInt_eq_toUInt64] at nonneg ⊢
  split_ifs at nonneg ⊢ <;> omega

/-- Sums that stay in range do not wrap. -/
theorem toInt_add_of_lt {i j : Int64} (lower : -2 ^ 63 ≤ i.toInt + j.toInt)
    (upper : i.toInt + j.toInt < 2 ^ 63) : (i + j).toInt = i.toInt + j.toInt := by
  rw [Int64.toInt_add]
  exact Int.bmod_eq_of_le (by omega) (by omega)

theorem toInt_sub_of_lt {i j : Int64} (lower : -2 ^ 63 ≤ i.toInt - j.toInt)
    (upper : i.toInt - j.toInt < 2 ^ 63) : (i - j).toInt = i.toInt - j.toInt := by
  rw [Int64.toInt_sub]
  exact Int.bmod_eq_of_le (by omega) (by omega)

end Counters

/-- The context of a command: the tenant, whose name has at most 255 bytes in a
valid configuration, the float routines, and the shard a key's lock is in. -/
structure CommandContext where
  tenant : Bytes
  tenant_le : tenant.length ≤ 255
  floats : F64Ops
  shardIndex : Bytes → ℕ

namespace CommandContext

theorem nil_tenant_le : ([] : Bytes).length ≤ 255 := Nat.zero_le _

/-- The context of the default configuration, which has no tenant, with float
routines that know no decimal number. -/
def plain : CommandContext where
  tenant := []
  tenant_le := nil_tenant_le
  floats := ⟨fun _ => none, fun x _ => x, id, fun _ => [], fun _ => []⟩
  shardIndex _ := 0

variable (ctx : CommandContext)

def metaKey (userKey : Bytes) : Bytes := metadataKey userKey ctx.tenant

/-- The physical key of an element. -/
def subKey (userKey : Bytes) (version : UInt64) (sub : Bytes) : Bytes :=
  subkey userKey version sub ctx.tenant

/-- The parts of a physical element key. -/
def parseSubkey (data : Bytes) : Option (Bytes × UInt64 × Bytes) :=
  Kvdb.parseSubkey data ctx.tenant

/-- Read the metadata of a key, falling back to the format without tenants. -/
def getMeta (userKey : Bytes) : Prog (Option Bytes) := do
  match ← Storage.get .metadata (ctx.metaKey userKey) with
  | some v => return some v
  | none =>
    if ctx.tenant = [] then return none
    else Storage.get .metadata (metadataKey userKey [])

def withKeyLock {α : Type} (userKey : Bytes) (program : Prog α) : Prog α := do
  let shard := ctx.shardIndex (ctx.metaKey userKey)
  let _ ← (Program.perform (S := effects) (.lock shard) : Prog Unit)
  program.thenAlways (S := effects) (.unlock shard)

def lookupMeta (store : Store) (userKey : Bytes) : Option Bytes :=
  (store.get .metadata (ctx.metaKey userKey)).or
    (if ctx.tenant = [] then none else store.get .metadata (metadataKey userKey []))

variable {ctx} {env : Env} {store : Store} {α β : Type}

@[simp] theorem exec_getMeta (userKey : Bytes) :
    exec env (ctx.getMeta userKey) store = (.ok (ctx.lookupMeta store userKey), store) := by
  rw [getMeta, exec_get_bind, lookupMeta]
  cases store.get .metadata (ctx.metaKey userKey) with
  | some v => rfl
  | none => by_cases unnamed : ctx.tenant = [] <;> simp only [unnamed, if_true, if_false] <;> rfl

@[simp] theorem exec_getMeta_bind (userKey : Bytes) (next : Option Bytes → Prog β) :
    exec env (ctx.getMeta userKey >>= next) store =
      exec env (next (ctx.lookupMeta store userKey)) store :=
  exec_bind_ok (exec_getMeta userKey)

variable (ctx) in
theorem readOnly_getMeta (userKey : Bytes) : ReadOnly (ctx.getMeta userKey) := by
  refine (readOnly_get _ _).bind fun found => ?_
  split
  · exact readOnly_pure _
  · split_ifs
    · exact readOnly_pure _
    · exact readOnly_get _ _

@[simp] theorem exec_withKeyLock (userKey : Bytes) (program : Prog α) :
    exec env (ctx.withKeyLock userKey program) store = exec env program store :=
  Program.run_thenAlways fun _ => rfl

theorem parseSubkey_subKey {userKey : Bytes} (version : UInt64) (sub : Bytes)
    (short : userKey.length < 2 ^ 32) :
    ctx.parseSubkey (ctx.subKey userKey version sub) = some (userKey, version, sub) :=
  parseSubkey_subkey version sub short ctx.tenant_le

@[simp] theorem subKey_inj {userKey sub sub' : Bytes} {version version' : UInt64} :
    ctx.subKey userKey version sub = ctx.subKey userKey version' sub' ↔
      version = version' ∧ sub = sub' :=
  subkey_inj

/-- Elements of different short keys, or of different versions, are stored under
different physical keys. -/
theorem subKey_ne {userKey other sub sub' : Bytes} {version version' : UInt64}
    (short : userKey.length < 2 ^ 32) (short' : other.length < 2 ^ 32)
    (different : ¬ (userKey = other ∧ version = version')) :
    ctx.subKey userKey version sub ≠ ctx.subKey other version' sub' := by
  intro same
  obtain rfl := subkey_key_inj short short' same
  exact different ⟨rfl, (subKey_inj.mp same).1⟩

theorem subKey_ne_nil (userKey : Bytes) (version : UInt64) (sub : Bytes) :
    ctx.subKey userKey version sub ≠ [] :=
  subkey_ne_nil userKey version sub ctx.tenant

/-- The element keys of a version are the extensions of one of them. -/
theorem subKey_prefix_iff {userKey data : Bytes} {version : UInt64} :
    ctx.subKey userKey version [] <+: data ↔ ∃ sub, data = ctx.subKey userKey version sub :=
  subkey_prefix_iff

theorem metaKey_ne_legacy (named : ctx.tenant ≠ []) (userKey : Bytes) :
    metadataKey userKey [] ≠ ctx.metaKey userKey := by
  intro same
  have lengths := congrArg List.length same
  simp only [metaKey, metadataKey, if_true, if_neg named, List.length_append, List.length_cons,
    length_u32Bytes] at lengths
  omega

/-- What a key's own metadata entry holds decides its lookup. -/
theorem lookupMeta_of_some {userKey v : Bytes}
    (stored : store.get .metadata (ctx.metaKey userKey) = some v) :
    ctx.lookupMeta store userKey = some v := by
  rw [lookupMeta, stored, Option.some_or]

theorem lookupMeta_empty {userKey : Bytes} : ctx.lookupMeta .empty userKey = none := by
  simp [lookupMeta]

end CommandContext

section Loaders

/-- Check a metadata value against the type a command works on. -/
def checkMetadata (wanted : DataType) (invalid : String) (v : Bytes) : Except Fault Metadata :=
  if v = [] then .error (.error (.protocol "empty metadata value"))
  -- Strings have their own layout, so their type is tested before decoding.
  else if firstByte v &&& flagsTypeMask = DataType.string.code then .error wrongTypeError
  else
    match decodeMetadata v with
    | none => .error (.error (.protocol invalid))
    | some meta' => if meta'.dataType ≠ some wanted then .error wrongTypeError else .ok meta'

/-- Load the metadata of a key that must have a given type. An expired record
counts as absent, and is of the given type all the same. -/
def loadLiveMeta (ctx : CommandContext) (wanted : DataType) (invalid : String) (userKey : Bytes) :
    Prog (Option Metadata) := do
  match ← ctx.getMeta userKey with
  | none => return none
  | some v =>
    let meta' ← Program.ofExcept (checkMetadata wanted invalid v)
    let now ← nowMs
    if meta'.isExpired now then return none else return some meta'

/-- The live metadata of a key, as its loader finds it. -/
def CommandContext.liveMeta (ctx : CommandContext) (env : Env) (store : Store) (wanted : DataType)
    (invalid : String) (userKey : Bytes) : Except Fault (Option Metadata) :=
  match ctx.lookupMeta store userKey with
  | none => .ok none
  | some v => (checkMetadata wanted invalid v).map fun meta' =>
    if meta'.isExpired env.nowMs then none else some meta'

variable {ctx : CommandContext} {env : Env} {store : Store} {wanted : DataType} {invalid : String}
  {userKey : Bytes}

theorem exec_loadLiveMeta :
    exec env (loadLiveMeta ctx wanted invalid userKey) store =
      (ctx.liveMeta env store wanted invalid userKey, store) := by
  rw [loadLiveMeta, ctx.exec_getMeta_bind, CommandContext.liveMeta]
  cases ctx.lookupMeta store userKey with
  | none => rfl
  | some v =>
    cases checked : checkMetadata wanted invalid v with
    | error fault => simp only [checked, exec_ofExcept_error_bind, Except.map]
    | ok meta' =>
      simp only [checked, exec_ofExcept_ok_bind, exec_nowMs_bind, Except.map]
      by_cases expired : meta'.isExpired env.nowMs <;> simp [expired]

/-- A record of the wanted type that was stored by its encoder is found as it is. -/
theorem checkMetadata_encodeMetadata {meta' : Metadata} (known : meta'.dataType = some wanted)
    (composite : wanted ≠ .string) (normal : meta'.Normal) :
    checkMetadata wanted invalid (encodeMetadata meta') = .ok meta' := by
  have code : meta'.flags &&& flagsTypeMask = wanted.code := dataTypeFromFlags_eq_some.mp known
  have other : wanted.code ≠ DataType.string.code := fun same =>
    composite (DataType.code_injective same)
  have head : firstByte (encodeMetadata meta') = meta'.flags := rfl
  have nonempty : encodeMetadata meta' ≠ [] := List.cons_ne_nil _ _
  rw [checkMetadata, if_neg nonempty, head, code, if_neg other,
    decodeMetadata_encodeMetadata known normal]
  simp [known]

end Loaders

end Kvdb
