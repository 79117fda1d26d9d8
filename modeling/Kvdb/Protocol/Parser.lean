import Kvdb.Command.Basic
import Kvdb.Data.Incremental
import Kvdb.Data.Utf8

/-!
# The parser of the wire protocol

A message begins with a byte for its kind and a line up to the first CR LF. The
line holds the value or, for bulk strings and collections, a length. A parser
that finds an incomplete or a malformed message gives no value, and the
connection waits for more bytes.

The capacity of a collection is reserved from its header. A request beyond the
greatest allocation panics.
-/

namespace Kvdb

open Data

abbrev Reader := Parser UInt8

section Lines

/-- The position of the first CR LF. -/
def findCrlf : Bytes → Option ℕ
  | a :: b :: rest =>
    if a = 0x0D ∧ b = 0x0A then some 0 else (findCrlf (b :: rest)).map (· + 1)
  | _ => none

/-- The line behind the first byte, which is not CR where this is used. -/
def parseLine : Reader Bytes := fun data =>
  match findCrlf data with
  | some pos => .done ((data.take pos).drop 1) (pos + 2)
  | none => .more

def parseNumber (line : Bytes) : Reader Int64 := Parser.ofOption (parseI64? line)

theorem findCrlf_append {data : Bytes} {pos : ℕ} (found : findCrlf data = some pos) :
    pos + 2 ≤ data.length ∧ ∀ later, findCrlf (data ++ later) = some pos := by
  fun_induction findCrlf data generalizing pos with
  | case1 a b rest crlf =>
    cases found
    exact ⟨by simp, fun later => if_pos crlf⟩
  | case2 a b rest other ih =>
    obtain ⟨before, earlier, rfl⟩ := Option.map_eq_some_iff.mp found
    obtain ⟨within, kept⟩ := ih earlier
    refine ⟨by simp at within ⊢; omega, fun later => ?_⟩
    have later_found : findCrlf (b :: (rest ++ later)) = some before := kept later
    simp only [List.cons_append, findCrlf, if_neg other, later_found, Option.map_some]
  | case3 => cases found

theorem incremental_parseLine : Parser.Incremental parseLine where
  done := by
    intro data line used ran
    unfold parseLine at ran ⊢
    cases found : findCrlf data with
    | none => simp [found] at ran
    | some pos =>
      obtain ⟨within, kept⟩ := findCrlf_append found
      simp only [found, Parsed.done.injEq] at ran
      obtain ⟨rfl, rfl⟩ := ran
      refine ⟨within, fun later => ?_⟩
      simp only [kept later, List.take_append_of_le_length (by omega : pos ≤ data.length)]
  panic := by
    intro data ran
    unfold parseLine at ran
    cases found : findCrlf data <;> simp [found] at ran

theorem consuming_parseLine : Parser.Consuming parseLine := by
  intro data line used ran
  unfold parseLine at ran
  cases found : findCrlf data with
  | none => simp [found] at ran
  | some pos =>
    simp only [found, Parsed.done.injEq] at ran
    omega

end Lines

section Values

/-- `isize::MAX`, the greatest number of bytes of an allocation. -/
def isizeMax : ℕ := 2 ^ 63 - 1

def valueSize : ℕ := 40

/-- `Vec::with_capacity` for a count that was read as an `i64`. -/
def reserve (count : Int64) (size : ℕ) : Reader Unit :=
  if count.toUInt64.toNat * size ≤ isizeMax then return () else Parser.panic

/-- The bytes of a bulk string. The two bytes behind them are skipped. -/
def parseBody (len : ℕ) : Reader Bytes := fun data =>
  if data.length < len + 2 then .more else .done (data.take len) (len + 2)

/-- A simple string, from its line. -/
def parseSimple : Reader RespValue := do
  let line ← parseLine
  return .simpleString (fromUtf8Lossy line)

def parseError : Reader RespValue := do
  let line ← parseLine
  return .error (fromUtf8Lossy line)

def parseInt : Reader RespValue := do
  let line ← parseLine
  let n ← parseNumber line
  return .integer n

/-- A bulk string. A negative length stands for none. -/
def parseBulk : Reader RespValue := do
  let line ← parseLine
  let len ← parseNumber line
  if len < 0 then return .bulkString none
  else do
    let body ← parseBody len.toUInt64.toNat
    return .bulkString (some body)

def parseNull : Reader RespValue := do
  let _ ← parseLine
  return .null

def parseBool : Reader RespValue := do
  let line ← parseLine
  if line = ascii "t" then return .boolean true
  else if line = ascii "f" then return .boolean false
  else Parser.more

def parseDouble (floats : F64Ops) : Reader RespValue := do
  let line ← parseLine
  let f ← Parser.ofOption (floats.parse line)
  return .double f

def rounds (count : Int64) : ℕ := count.toInt.toNat

theorem incremental_reserve (count : Int64) (size : ℕ) : Parser.Incremental (reserve count size) :=
  (Parser.incremental_pure ()).ite Parser.incremental_panic

theorem incremental_parseBody (len : ℕ) : Parser.Incremental (parseBody len) where
  done := by
    intro data body used ran
    unfold parseBody at ran ⊢
    by_cases short : data.length < len + 2
    · simp [short] at ran
    · simp only [if_neg short, Parsed.done.injEq] at ran
      obtain ⟨rfl, rfl⟩ := ran
      refine ⟨by omega, fun later => ?_⟩
      rw [if_neg (by simp; omega), List.take_append_of_le_length (by omega)]
  panic := by
    intro data ran
    unfold parseBody at ran
    split_ifs at ran

theorem incremental_parseNumber (line : Bytes) : Parser.Incremental (parseNumber line) :=
  Parser.incremental_ofOption _

/-- A parser that starts with a line. -/
theorem incremental_behindLine {α : Type} {next : Bytes → Reader α}
    (goes : ∀ line, Parser.Incremental (next line)) : Parser.Incremental (parseLine >>= next) :=
  incremental_parseLine.bind goes

/-- A parser that starts with a line with a number. -/
theorem incremental_behindNumber {α : Type} {next : Int64 → Reader α}
    (goes : ∀ n, Parser.Incremental (next n)) :
    Parser.Incremental (parseLine >>= fun line => parseNumber line >>= next) :=
  incremental_parseLine.bind fun line => (incremental_parseNumber line).bind goes

variable (one : Reader RespValue)

/-- An array. A negative count stands for null. -/
def parseArray : Reader RespValue := do
  let line ← parseLine
  let count ← parseNumber line
  if count < 0 then return .null
  else do
    reserve count valueSize
    let items ← one.times (rounds count)
    return .array items

/-- A key of a map with its value. -/
def parsePair : Reader (RespValue × RespValue) := do
  let key ← one
  let value ← one
  return (key, value)

/-- A map. A negative count is no smaller than any other one as a capacity. -/
def parseMap : Reader RespValue := do
  let line ← parseLine
  let count ← parseNumber line
  reserve count (2 * valueSize)
  let pairs ← (parsePair one).times (rounds count)
  return .map pairs

/-- A set, with the same treatment of negative counts. -/
def parseSet : Reader RespValue := do
  let line ← parseLine
  let count ← parseNumber line
  reserve count valueSize
  let items ← one.times (rounds count)
  return .set items

/-- The parser for a kind of message, given the one for what it contains. -/
def parseKind (floats : F64Ops) (kind : UInt8) : Reader RespValue :=
  if kind = 0x2B then parseSimple
  else if kind = 0x2D then parseError
  else if kind = 0x3A then parseInt
  else if kind = 0x24 then parseBulk
  else if kind = 0x2A then parseArray one
  else if kind = 0x5F then parseNull
  else if kind = 0x23 then parseBool
  else if kind = 0x2C then parseDouble floats
  else if kind = 0x25 then parseMap one
  else if kind = 0x7E then parseSet one
  else Parser.more

variable {one} (each : Parser.Incremental one)
include each

theorem incremental_parsePair : Parser.Incremental (parsePair one) :=
  each.bind fun _ => each.bind fun _ => Parser.incremental_pure _

theorem incremental_parseArray : Parser.Incremental (parseArray one) :=
  incremental_behindNumber fun count =>
    (Parser.incremental_pure _).ite <|
      (incremental_reserve count valueSize).bind fun _ =>
        (each.times _).bind fun _ => Parser.incremental_pure _

theorem incremental_parseMap : Parser.Incremental (parseMap one) :=
  incremental_behindNumber fun count =>
    (incremental_reserve count _).bind fun _ =>
      ((incremental_parsePair each).times _).bind fun _ => Parser.incremental_pure _

theorem incremental_parseSet : Parser.Incremental (parseSet one) :=
  incremental_behindNumber fun count =>
    (incremental_reserve count _).bind fun _ =>
      (each.times _).bind fun _ => Parser.incremental_pure _

theorem incremental_parseKind (floats : F64Ops) (kind : UInt8) :
    Parser.Incremental (parseKind one floats kind) := by
  refine .ite (incremental_behindLine fun _ => Parser.incremental_pure _) <|
    .ite (incremental_behindLine fun _ => Parser.incremental_pure _) <|
    .ite (incremental_behindNumber fun _ => Parser.incremental_pure _) <|
    .ite (incremental_behindNumber fun len => ?_) <|
    .ite (incremental_parseArray each) <|
    .ite (incremental_behindLine fun _ => Parser.incremental_pure _) <|
    .ite (incremental_behindLine fun line => ?_) <|
    .ite (incremental_behindLine fun line => ?_) <|
    .ite (incremental_parseMap each) <|
    .ite (incremental_parseSet each) Parser.incremental_more
  · exact (Parser.incremental_pure _).ite <|
      (incremental_parseBody _).bind fun _ => Parser.incremental_pure _
  · exact (Parser.incremental_pure _).ite <|
      (Parser.incremental_pure _).ite Parser.incremental_more
  · exact (Parser.incremental_ofOption _).bind fun _ => Parser.incremental_pure _

omit each in
theorem consuming_parseKind (floats : F64Ops) (kind : UInt8) :
    Parser.Consuming (parseKind one floats kind) := by
  unfold parseKind
  iterate 10 refine Parser.Consuming.ite consuming_parseLine.bind ?_
  exact fun ran => nomatch ran

omit each in
/-- What is contained in a message of a kind is shorter than the message. -/
theorem agreeBelow_parseKind {one' : Reader RespValue} {bound : ℕ}
    (same : Parser.AgreeBelow bound one one') (floats : F64Ops) (kind : UInt8) :
    Parser.AgreeBelow (bound + 1) (parseKind one floats kind) (parseKind one' floats kind) := by
  have behind {α : Type} {next next' : Int64 → Reader α}
      (goes : ∀ n, Parser.AgreeBelow bound (next n) (next' n)) :
      Parser.AgreeBelow (bound + 1) (parseLine >>= fun line => parseNumber line >>= next)
        (parseLine >>= fun line => parseNumber line >>= next') :=
    consuming_parseLine.agreeBelow_bind (fun ran => (incremental_parseLine.done ran).1) fun line =>
      (Parser.agreeBelow_refl _ (parseNumber line)).bind goes
  have pair : Parser.AgreeBelow bound (parsePair one) (parsePair one') :=
    same.bind fun _ => same.bind fun _ => Parser.agreeBelow_refl _ _
  refine .ite (Parser.agreeBelow_refl _ _) <| .ite (Parser.agreeBelow_refl _ _) <|
    .ite (Parser.agreeBelow_refl _ _) <| .ite (Parser.agreeBelow_refl _ _) <|
    .ite (behind fun count => ?_) <| .ite (Parser.agreeBelow_refl _ _) <|
    .ite (Parser.agreeBelow_refl _ _) <| .ite (Parser.agreeBelow_refl _ _) <|
    .ite (behind fun count => ?_) <| .ite (behind fun count => ?_) (Parser.agreeBelow_refl _ _)
  · exact .ite (Parser.agreeBelow_refl _ _) <|
      (Parser.agreeBelow_refl _ _).bind fun _ =>
        (same.times _).bind fun _ => Parser.agreeBelow_refl _ _
  · exact (Parser.agreeBelow_refl _ _).bind fun _ =>
      (pair.times _).bind fun _ => Parser.agreeBelow_refl _ _
  · exact (Parser.agreeBelow_refl _ _).bind fun _ =>
      (same.times _).bind fun _ => Parser.agreeBelow_refl _ _

end Values

section Messages

variable (floats : F64Ops)

/-- Parse a message whose nesting is bounded by the fuel. -/
def parseNested : ℕ → Reader RespValue
  | 0 => Parser.more
  | fuel + 1 => fun data =>
    match data with
    | [] => .more
    | kind :: _ => parseKind (parseNested fuel) floats kind data

/-- Parse a message from the front of a buffer. Each level of nesting takes some
bytes. -/
def parseOne : Reader RespValue := fun data => parseNested floats (data.length + 1) data

variable {floats}

theorem incremental_parseNested (fuel : ℕ) : Parser.Incremental (parseNested floats fuel) := by
  induction fuel with
  | zero => exact Parser.incremental_more
  | succ fuel ih =>
    constructor
    · intro data value used ran
      cases data with
      | nil => cases ran
      | cons kind rest => exact (incremental_parseKind ih floats kind).done ran
    · intro data ran
      cases data with
      | nil => cases ran
      | cons kind rest => exact (incremental_parseKind ih floats kind).panic ran

theorem agreeBelow_parseNested {fuel fuel' : ℕ} (more : fuel ≤ fuel') :
    Parser.AgreeBelow fuel (parseNested floats fuel) (parseNested floats fuel') := by
  induction fuel generalizing fuel' with
  | zero => exact fun data short => absurd short (Nat.not_lt_zero _)
  | succ fuel ih =>
    obtain ⟨fuel', rfl⟩ : ∃ n, fuel' = n + 1 := ⟨fuel' - 1, by omega⟩
    intro data short
    cases data with
    | nil => rfl
    | cons kind rest =>
      exact agreeBelow_parseKind (ih (Nat.le_of_succ_le_succ more)) floats kind _ short

theorem parseNested_of_fuel {fuel : ℕ} {data : Bytes} (enough : data.length < fuel) :
    parseNested floats fuel data = parseOne floats data :=
  (agreeBelow_parseNested enough data (Nat.lt_succ_self _)).symm

/-- How a message is parsed depends on its first byte. -/
theorem parseOne_cons (kind : UInt8) (rest : Bytes) :
    parseOne floats (kind :: rest) = parseKind (parseOne floats) floats kind (kind :: rest) := by
  have same : Parser.AgreeBelow (kind :: rest).length
      (parseNested floats (kind :: rest).length) (parseOne floats) :=
    fun data short => parseNested_of_fuel short
  exact agreeBelow_parseKind same floats kind _ (Nat.lt_succ_self _)

theorem incremental_parseOne : Parser.Incremental (parseOne floats) where
  done := by
    intro data value used ran
    have within := (incremental_parseNested (data.length + 1)).done ran
    refine ⟨within.1, fun later => ?_⟩
    rw [← parseNested_of_fuel (Nat.lt_succ_of_le (by simp : data.length ≤ (data ++ later).length))]
      at ran
    exact ((incremental_parseNested _).done ran).2 later
  panic := by
    intro data ran later
    rw [← parseNested_of_fuel (Nat.lt_succ_of_le (by simp : data.length ≤ (data ++ later).length))]
      at ran
    exact (incremental_parseNested _).panic ran later

theorem consuming_parseOne : Parser.Consuming (parseOne floats) := by
  intro data value used ran
  cases data with
  | nil => cases ran
  | cons kind rest => exact consuming_parseKind floats kind (parseOne_cons kind rest ▸ ran)

variable (floats)

/-- An element of a command. What is no string counts as empty. -/
def argOfValue : RespValue → Bytes
  | .bulkString (some bytes) => bytes
  | .bulkString none => []
  | .simpleString text => utf8 text
  | _ => []

/-- The arguments of a command. Values of other kinds are refused. -/
def argsOfValue : RespValue → Option (List Bytes)
  | .array items => some (items.map argOfValue)
  | .bulkString (some bytes) => some [bytes]
  | .simpleString text => some [utf8 text]
  | _ => none

/-- Parse a command from the front of a buffer. -/
def parseCmd : Reader (List Bytes) := do
  let value ← parseOne floats
  Parser.ofOption (argsOfValue value)

variable {floats}

theorem incremental_parseCmd : Parser.Incremental (parseCmd floats) :=
  incremental_parseOne.bind fun _ => Parser.incremental_ofOption _

theorem consuming_parseCmd : Parser.Consuming (parseCmd floats) := consuming_parseOne.bind

end Messages

section Streams

/-- The commands a connection takes off its buffer as the pieces of a stream
arrive, and what is then left in the buffer. -/
def receivePieces (floats : F64Ops) (pieces : List Bytes) :
    List (List Bytes) × Parser.Buffer UInt8 :=
  pieces.foldl (parseCmd floats).feed ((parseCmd floats).drainAll [])

/-- The commands do not depend on how the stream is cut: they are those of a
buffer with all of it. A parsed message is not changed by what arrives later. -/
theorem receivePieces_eq_drainAll (floats : F64Ops) :
    (∀ pieces, receivePieces floats pieces = (parseCmd floats).drainAll pieces.flatten) ∧
      ∀ data value used, parseOne floats data = .done value used →
        0 < used ∧ used ≤ data.length ∧ ∀ later, parseOne floats (data ++ later) =
          .done value used := by
  constructor
  · intro pieces
    exact Parser.foldl_feed incremental_parseCmd consuming_parseCmd pieces
  · intro data value used ran
    obtain ⟨within, kept⟩ := incremental_parseOne.done ran
    exact ⟨consuming_parseOne ran, within, kept⟩

theorem receivePieces_of_cut_ping :
    let floats := CommandContext.plain.floats
    let ping := ascii "*1\r\n$4\r\nPING\r\n"
    parseOne floats ping = .done (.array [.bulkString (some (ascii "PING"))]) 14 ∧
      parseOne floats (ping ++ ascii "*1\r") =
        .done (.array [.bulkString (some (ascii "PING"))]) 14 ∧
      receivePieces floats [ascii "*1\r\n$4\r", ascii "\nPING\r\n*1\r"] =
        ([[ascii "PING"]], .waiting (ascii "*1\r")) := by
  intro floats ping
  have ran : parseOne floats ping = .done (.array [.bulkString (some (ascii "PING"))]) 14 := by
    decide
  obtain ⟨cut, kept⟩ := receivePieces_eq_drainAll floats
  refine ⟨ran, (kept ping _ _ ran).2.2 _, ?_⟩
  rw [cut]
  decide +kernel

end Streams

end Kvdb
