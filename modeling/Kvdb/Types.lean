import Kvdb.Data.Bytes

/-!
# Values, metadata and errors

The data types shared by all commands: the type codes and flags byte of a
stored value, the metadata record of the composite types, the reply values of
the wire protocol and the error type.

Machine integers keep their width, so arithmetic wraps as in a release build.
Floating-point scores are bit patterns. Their IEEE order is defined here, while
decimal conversion and addition belong to the standard library and stay
parameters.
-/

namespace Kvdb

open Data

section Flags

/-- The current encoding version, kept in the high half of a flags byte. -/
def encodingVersion : UInt8 := 1

/-- The low half of a flags byte, which holds the data type. -/
def flagsTypeMask : UInt8 := 0x0F

inductive DataType where
  | string
  | hash
  | list
  | set
  | zset
  | stream
  | bitmap
deriving DecidableEq, Repr

def DataType.code : DataType → UInt8
  | .string => 1
  | .hash => 2
  | .list => 3
  | .set => 4
  | .zset => 5
  | .bitmap => 6
  | .stream => 8

def DataType.fromCode (code : UInt8) : Option DataType :=
  if code = 1 then some .string
  else if code = 2 then some .hash
  else if code = 3 then some .list
  else if code = 4 then some .set
  else if code = 5 then some .zset
  else if code = 8 then some .stream
  else if code = 6 then some .bitmap
  else none

def buildFlags (dataType : DataType) : UInt8 :=
  (encodingVersion <<< 4) ||| (dataType.code &&& flagsTypeMask)

def dataTypeFromFlags (flags : UInt8) : Option DataType :=
  DataType.fromCode (flags &&& flagsTypeMask)

@[simp] theorem dataTypeFromFlags_buildFlags (dataType : DataType) :
    dataTypeFromFlags (buildFlags dataType) = some dataType := by
  cases dataType <;> rfl

@[simp] theorem buildFlags_typeCode (dataType : DataType) :
    buildFlags dataType &&& flagsTypeMask = dataType.code := by
  cases dataType <;> rfl

@[simp] theorem DataType.fromCode_code (dataType : DataType) :
    DataType.fromCode dataType.code = some dataType := by
  cases dataType <;> rfl

theorem DataType.fromCode_eq_some {code : UInt8} {dataType : DataType} :
    DataType.fromCode code = some dataType ↔ code = dataType.code := by
  constructor
  · intro found
    unfold DataType.fromCode at found
    split_ifs at found with h1 h2 h3 h4 h5 h6 h7
    all_goals
      obtain rfl := Option.some.inj found
      assumption
  · rintro rfl
    exact DataType.fromCode_code dataType

theorem dataTypeFromFlags_eq_some {flags : UInt8} {dataType : DataType} :
    dataTypeFromFlags flags = some dataType ↔ flags &&& flagsTypeMask = dataType.code :=
  DataType.fromCode_eq_some

theorem DataType.code_injective : Function.Injective DataType.code := by
  intro a b same
  simpa using congrArg DataType.fromCode same

end Flags

section Metadata

/-- The metadata record of a composite type. The index fields matter to lists
only. -/
structure Metadata where
  flags : UInt8
  expire : Int64
  version : UInt64
  size : UInt64
  head : Int64
  tail : Int64
deriving DecidableEq, Repr

/-- Fresh metadata: no expiry, no elements. -/
def Metadata.new (dataType : DataType) (version : UInt64) : Metadata where
  flags := buildFlags dataType
  expire := 0
  version := version
  size := 0
  head := 0
  tail := -1

def Metadata.dataType (meta' : Metadata) : Option DataType := dataTypeFromFlags meta'.flags

/-- A nonzero deadline has passed. -/
def expiredAt (expire now : Int64) : Bool := 0 < expire && expire ≤ now

/-- The record's deadline has passed. -/
def Metadata.isExpired (meta' : Metadata) (now : Int64) : Bool := expiredAt meta'.expire now

@[simp] theorem Metadata.new_dataType (dataType : DataType) (version : UInt64) :
    (Metadata.new dataType version).dataType = some dataType :=
  dataTypeFromFlags_buildFlags dataType

end Metadata

section Scores

/-- A 64-bit float, as its bit pattern. -/
structure F64 where
  bits : UInt64
deriving DecidableEq, Repr

namespace F64

/-- The bits without the sign. -/
def magnitude (x : F64) : ℕ := x.bits.toNat % 2 ^ 63

/-- The sign bit is set. -/
def isNegative (x : F64) : Bool := 2 ^ 63 ≤ x.bits.toNat

/-- The bit pattern of positive infinity, which bounds the finite magnitudes. -/
def infinity : F64 := ⟨0x7FF0000000000000⟩

/-- The bit pattern of negative infinity. -/
def negInfinity : F64 := ⟨0xFFF0000000000000⟩

/-- The exponent is all ones and the fraction is not zero. -/
def isNan (x : F64) : Bool := infinity.bits.toNat < x.magnitude

/-- Neither infinite nor a NaN. -/
def isFinite (x : F64) : Bool := x.magnitude < infinity.bits.toNat

/-- Position in the IEEE order. Both zeros are at the origin. -/
def rank (x : F64) : ℤ := if x.isNegative then -(x.magnitude : ℤ) else x.magnitude

/-- The IEEE comparison `<`, false on NaNs. -/
def lt (x y : F64) : Bool := !x.isNan && !y.isNan && decide (x.rank < y.rank)

/-- The IEEE comparison `<=`, false on NaNs. -/
def le (x y : F64) : Bool := !x.isNan && !y.isNan && decide (x.rank ≤ y.rank)

/-- The IEEE comparison `==`, false on NaNs. -/
def eq (x y : F64) : Bool := !x.isNan && !y.isNan && decide (x.rank = y.rank)

end F64

/-- The standard library's float routines: decimal parsing of a UTF-8 text,
addition, the fractional part, and the two decimal renderings (`{:.0}` and the
shortest one). -/
structure F64Ops where
  parse : Bytes → Option F64
  add : F64 → F64 → F64
  fract : F64 → F64
  formatWhole : F64 → Bytes
  format : F64 → Bytes

end Scores

section Replies

/-- A reply value of the wire protocol. -/
inductive RespValue where
  | simpleString (text : String)
  | error (text : String)
  | integer (value : Int64)
  | bulkString (bytes : Option Bytes)
  | array (items : List RespValue)
  | null
  | boolean (value : Bool)
  | double (value : F64)
  | map (pairs : List (RespValue × RespValue))
  | set (items : List RespValue)

namespace RespValue

mutual

/-- Structural comparison of replies. -/
def beq : RespValue → RespValue → Bool
  | .simpleString s, .simpleString t => s == t
  | .error s, .error t => s == t
  | .integer m, .integer n => m == n
  | .bulkString s, .bulkString t => s == t
  | .array xs, .array ys => beqList xs ys
  | .null, .null => true
  | .boolean p, .boolean q => p == q
  | .double x, .double y => x == y
  | .map xs, .map ys => beqPairs xs ys
  | .set xs, .set ys => beqList xs ys
  | _, _ => false

/-- Structural comparison of reply lists. -/
def beqList : List RespValue → List RespValue → Bool
  | [], [] => true
  | x :: xs, y :: ys => x.beq y && beqList xs ys
  | _, _ => false

/-- Structural comparison of lists of key-value replies. -/
def beqPairs : List (RespValue × RespValue) → List (RespValue × RespValue) → Bool
  | [], [] => true
  | (x, y) :: xs, (u, v) :: ys => x.beq u && y.beq v && beqPairs xs ys
  | _, _ => false

end

mutual

theorem beq_iff_eq : (x y : RespValue) → (x.beq y = true ↔ x = y)
  | .simpleString _, y => by cases y <;> simp [beq]
  | .error _, y => by cases y <;> simp [beq]
  | .integer _, y => by cases y <;> simp [beq]
  | .bulkString _, y => by cases y <;> simp [beq]
  | .array xs, y => by cases y <;> simp [beq, beqList_iff_eq xs]
  | .null, y => by cases y <;> simp [beq]
  | .boolean _, y => by cases y <;> simp [beq]
  | .double _, y => by cases y <;> simp [beq]
  | .map xs, y => by cases y <;> simp [beq, beqPairs_iff_eq xs]
  | .set xs, y => by cases y <;> simp [beq, beqList_iff_eq xs]

theorem beqList_iff_eq : (xs ys : List RespValue) → (beqList xs ys = true ↔ xs = ys)
  | [], ys => by cases ys <;> simp [beqList]
  | x :: xs, ys => by cases ys <;> simp [beqList, beq_iff_eq x, beqList_iff_eq xs]

theorem beqPairs_iff_eq :
    (xs ys : List (RespValue × RespValue)) → (beqPairs xs ys = true ↔ xs = ys)
  | [], ys => by cases ys <;> simp [beqPairs]
  | (x, y) :: xs, ys => by
    rcases ys with _ | ⟨⟨u, v⟩, ys⟩ <;>
      simp [beqPairs, beq_iff_eq x, beq_iff_eq y, beqPairs_iff_eq xs]

end

instance : DecidableEq RespValue := fun x y => decidable_of_iff _ (beq_iff_eq x y)

end RespValue

end Replies

section Errors

/-- The errors a command reports. -/
inductive KvdbError where
  | protocol (message : String)
  | command (message : String)
  | wrongArgCount (name : String)
  | notInteger
  | outOfRange
deriving DecidableEq, Repr

def KvdbError.message : KvdbError → String
  | .protocol message => "protocol error: " ++ message
  | .command message => message
  | .wrongArgCount name => "wrong number of arguments for '" ++ name ++ "' command"
  | .notInteger => "value is not an integer"
  | .outOfRange => "value is out of range"

/-- The ways a command can end without a reply: an error it reports, a panic of
its worker thread, or a loop that never ends. -/
inductive Fault where
  | error (cause : KvdbError)
  | panic
  | hang
deriving DecidableEq, Repr

def wrongType : String := "WRONGTYPE Operation against a key holding the wrong kind of value"

def wrongTypeError : Fault := .error (.command wrongType)

end Errors

end Kvdb
