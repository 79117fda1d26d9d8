import Kvdb.Protocol.Parser

/-!
# Messages that are sent

The serializer of reply values, and what a client makes of its output. A value
without floats, whose texts stay on their lines, is read back as it was, whatever
follows it.
-/

namespace Kvdb

open Data

section Numbers

def IsDigits (text : Bytes) : Prop := ∀ byte ∈ text, 0x30 ≤ byte ∧ byte ≤ 0x39

theorem renderNat_of_lt {n : ℕ} (small : n < 10) : renderNat n = [UInt8.ofNat (n + 0x30)] := by
  rw [renderNat, Nat.toDigits_of_lt_base small]
  interval_cases n <;> rfl

theorem renderNat_of_le {n : ℕ} (large : 10 ≤ n) :
    renderNat n = renderNat (n / 10) ++ [UInt8.ofNat (n % 10 + 0x30)] := by
  have last := renderNat_of_lt (Nat.mod_lt n (by decide : 10 > 0))
  rw [renderNat, Nat.toDigits_of_lt_base (Nat.mod_lt n (by decide))] at last
  rw [renderNat, Nat.toDigits_of_base_le (by decide) large, List.map_append, last, renderNat]

theorem renderNat_ne_nil (n : ℕ) : renderNat n ≠ [] := by
  simp [renderNat, Nat.toDigits_ne_nil]

/-- What a digit adds to a number that is read. -/
theorem digit_step {d : ℕ} (small : d < 10) (n : ℕ) :
    (if (0x30 : UInt8) ≤ UInt8.ofNat (d + 0x30) ∧ UInt8.ofNat (d + 0x30) ≤ 0x39 then
      some (n * 10 + ((UInt8.ofNat (d + 0x30)).toNat - 0x30)) else none) = some (n * 10 + d) := by
  interval_cases d <;> rfl

@[simp] theorem parseDigits_renderNat (n : ℕ) : parseDigits (renderNat n) = some n := by
  rw [parseDigits, if_neg (renderNat_ne_nil n)]
  induction n using Nat.strong_induction_on with
  | _ n ih =>
    by_cases small : n < 10
    · rw [renderNat_of_lt small, List.foldlM_cons, digit_step small]
      simp
    · rw [renderNat_of_le (by omega), List.foldlM_append, ih (n / 10) (by omega)]
      have step := digit_step (Nat.mod_lt n (by decide : 10 > 0)) (n / 10)
      simp only [List.foldlM_cons, Option.bind_eq_bind, Option.bind_some, step]
      simp
      omega

theorem isDigits_renderNat (n : ℕ) : IsDigits (renderNat n) := by
  induction n using Nat.strong_induction_on with
  | _ n ih =>
    have digit {d : ℕ} (small : d < 10) : IsDigits [UInt8.ofNat (d + 0x30)] := by
      intro byte inside
      obtain rfl := List.mem_singleton.mp inside
      interval_cases d <;> decide
    by_cases small : n < 10
    · rw [renderNat_of_lt small]
      exact digit small
    · rw [renderNat_of_le (by omega)]
      intro byte inside
      obtain earlier | last := List.mem_append.mp inside
      · exact ih (n / 10) (by omega) byte earlier
      · exact digit (Nat.mod_lt n (by decide)) byte last

theorem head_renderNat (n : ℕ) {sign : UInt8} (other : ¬ (0x30 ≤ sign ∧ sign ≤ 0x39)) :
    (renderNat n).head? ≠ some sign := by
  intro first
  exact other (isDigits_renderNat n sign (List.mem_of_head? first))

theorem parseU64_renderNat {n : ℕ} (small : n < 2 ^ 64) : parseU64 (renderNat n) = some n := by
  have plus : (renderNat n).head? ≠ some 0x2B := head_renderNat n (by decide)
  rw [parseU64, if_neg plus, parseDigits_renderNat]
  exact if_pos small

theorem parseI64?_renderNat {n : ℕ} (small : n < 2 ^ 63) :
    parseI64? (renderNat n) = some (Int64.ofInt n) := by
  have minus : (renderNat n).head? ≠ some 0x2D := head_renderNat n (by decide)
  have plus : (renderNat n).head? ≠ some 0x2B := head_renderNat n (by decide)
  rw [parseI64?, if_neg minus, if_neg plus, parseDigits_renderNat]
  exact if_pos small

@[simp] theorem parseI64?_renderI64 (n : Int64) : parseI64? (renderI64 n) = some n := by
  have low := n.le_toInt
  have high := n.toInt_lt
  rw [renderI64]
  split_ifs with negative
  · have bound : n.toInt.natAbs ≤ 2 ^ 63 := by omega
    have value : -(n.toInt.natAbs : ℤ) = n.toInt := by omega
    simp only [parseI64?, List.head?_cons, if_true, List.tail_cons, parseDigits_renderNat,
      Option.bind_eq_bind, Option.bind_some, if_pos bound, value, Int64.ofInt_toInt]
  · rw [parseI64?_renderNat (by omega)]
    have value : (n.toInt.natAbs : ℤ) = n.toInt := by omega
    rw [value, Int64.ofInt_toInt]

end Numbers

section Serializer

/-- The end of a line. -/
def crlf : Bytes := [0x0D, 0x0A]

variable (floats : F64Ops)

mutual

def serialize : RespValue → Bytes
  | .simpleString text => 0x2B :: (utf8 text ++ crlf)
  | .error text => 0x2D :: (utf8 text ++ crlf)
  | .integer n => 0x3A :: (renderI64 n ++ crlf)
  | .bulkString none => 0x24 :: (ascii "-1" ++ crlf)
  | .bulkString (some bytes) => 0x24 :: (renderNat bytes.length ++ crlf ++ bytes ++ crlf)
  | .array items => 0x2A :: (renderNat items.length ++ crlf ++ serializeItems items)
  | .null => 0x5F :: crlf
  | .boolean value => 0x23 :: ((if value then ascii "t" else ascii "f") ++ crlf)
  | .double f => 0x2C :: (floats.format f ++ crlf)
  | .map pairs => 0x25 :: (renderNat pairs.length ++ crlf ++ serializePairs pairs)
  | .set items => 0x7E :: (renderNat items.length ++ crlf ++ serializeItems items)

/-- The values of a collection, one after the other. -/
def serializeItems : List RespValue → Bytes
  | [] => []
  | item :: items => serialize item ++ serializeItems items

/-- The keys and values of a map. -/
def serializePairs : List (RespValue × RespValue) → Bytes
  | [] => []
  | (key, value) :: pairs => serialize key ++ serialize value ++ serializePairs pairs

end

end Serializer

section Values

variable (holds : RespValue → Prop)

mutual

/-- A condition holds for a value and for all values within it. -/
def RespValue.All : RespValue → Prop
  | .array items => holds (.array items) ∧ RespValue.AllItems items
  | .set items => holds (.set items) ∧ RespValue.AllItems items
  | .map pairs => holds (.map pairs) ∧ RespValue.AllPairs pairs
  | value => holds value

def RespValue.AllItems : List RespValue → Prop
  | [] => True
  | item :: items => item.All ∧ RespValue.AllItems items

def RespValue.AllPairs : List (RespValue × RespValue) → Prop
  | [] => True
  | (key, value) :: pairs => key.All ∧ value.All ∧ RespValue.AllPairs pairs

end

theorem RespValue.allItems_iff (items : List RespValue) :
    RespValue.AllItems holds items ↔ ∀ item ∈ items, item.All holds := by
  induction items with
  | nil => simp [RespValue.AllItems]
  | cons item items ih => simp [RespValue.AllItems, ih]

/-- The value is no float, and a text does not break its line. -/
def RespValue.OnLine : RespValue → Prop
  | .simpleString text | .error text => ¬ crlf <:+: utf8 text
  | .double _ => False
  | _ => True

/-- The value fits in memory: no allocation is greater than `isize::MAX`. -/
def RespValue.Allocated : RespValue → Prop
  | .bulkString (some bytes) => bytes.length ≤ isizeMax
  | .array items | .set items => items.length * valueSize ≤ isizeMax
  | .map pairs => pairs.length * (2 * valueSize) ≤ isizeMax
  | _ => True

end Values

section RoundTrip

theorem findCrlf_line {line : Bytes} (unbroken : ¬ crlf <:+: line) (rest : Bytes) :
    findCrlf (line ++ crlf ++ rest) = some line.length := by
  induction line with
  | nil => rfl
  | cons a line ih =>
    have shorter : ¬ crlf <:+: line := fun inside => unbroken (List.infix_cons inside)
    have found := ih shorter
    have here : ¬ (a = 0x0D ∧ (line ++ crlf ++ rest).head? = some 0x0A) := by
      rintro ⟨rfl, next⟩
      cases line with
      | nil => cases next
      | cons b line =>
        obtain rfl : b = 0x0A := Option.some.inj next
        exact unbroken ⟨[], line, rfl⟩
    cases behind : line ++ crlf ++ rest with
    | nil => simp [crlf] at behind
    | cons b later =>
      rw [behind] at found here
      rw [List.cons_append, List.cons_append, behind, findCrlf, if_neg (by simpa using here), found]
      rfl

/-- A line is read up to its end. -/
theorem parseLine_line {kind : UInt8} {line : Bytes} (letter : kind ≠ 0x0D)
    (unbroken : ¬ crlf <:+: line) (rest : Bytes) :
    parseLine (kind :: (line ++ crlf ++ rest)) = .done line (line.length + 3) := by
  have whole : ¬ crlf <:+: kind :: line := by
    intro inside
    obtain begins | later := List.infix_cons_iff.mp inside
    · exact letter (List.cons_prefix_cons.mp begins).1.symm
    · exact unbroken later
  have found := findCrlf_line whole rest
  simp only [List.cons_append] at found
  unfold parseLine
  rw [found]
  simp

theorem unbroken_of_not_mem {line : Bytes} (other : 0x0D ∉ line) : ¬ crlf <:+: line := fun inside =>
  other (inside.subset (List.mem_cons_self ..))

theorem unbroken_renderNat (n : ℕ) : ¬ crlf <:+: renderNat n :=
  unbroken_of_not_mem fun inside => absurd (isDigits_renderNat n _ inside) (by decide)

theorem unbroken_renderI64 (n : Int64) : ¬ crlf <:+: renderI64 n := by
  refine unbroken_of_not_mem fun inside => ?_
  rw [renderI64] at inside
  split_ifs at inside
  · obtain sign | digit := List.mem_cons.mp inside
    · cases sign
    · exact absurd (isDigits_renderNat _ _ digit) (by decide)
  · exact absurd (isDigits_renderNat _ _ inside) (by decide)

variable {α : Type} {kind : UInt8} {rest : Bytes} {result : α} {further : ℕ}

theorem drop_line (kind : UInt8) (line rest : Bytes) :
    (kind :: (line ++ crlf ++ rest)).drop (line.length + 3) = rest := by
  rw [List.drop_succ_cons, List.drop_append_of_le_length (by simp [crlf])]
  simp [crlf]

/-- Going on behind a line. -/
theorem bind_line {next : Bytes → Reader α} {line : Bytes} (letter : kind ≠ 0x0D)
    (unbroken : ¬ crlf <:+: line) (went : next line rest = .done result further) :
    (parseLine >>= next) (kind :: (line ++ crlf ++ rest)) =
      .done result (line.length + 3 + further) := by
  refine Parser.bind_of_done_done (parseLine_line letter unbroken rest) ?_
  rw [drop_line]
  exact went

/-- Going on behind a line with a length. -/
theorem bind_number {next : Int64 → Reader α} {n : ℕ} (letter : kind ≠ 0x0D) (small : n ≤ isizeMax)
    (went : next (Int64.ofInt n) rest = .done result further) :
    (parseLine >>= fun line => parseNumber line >>= next) (kind :: (renderNat n ++ crlf ++ rest)) =
      .done result ((renderNat n).length + 3 + further) := by
  refine bind_line letter (unbroken_renderNat n) ?_
  have number : parseNumber (renderNat n) = Pure.pure (Int64.ofInt n) := by
    rw [parseNumber, parseI64?_renderNat (Nat.lt_of_le_of_lt small (by decide))]
    rfl
  rw [number]
  exact (Parser.bind_of_done_done rfl went).trans (by rw [Nat.zero_add])

section Counts

variable {n : ℕ} (small : n ≤ isizeMax)
include small

theorem toInt_count : (Int64.ofInt n).toInt = n := by
  rw [isizeMax] at small
  rw [Int64.toInt_ofInt_of_le] <;> omega

theorem not_negative_count : ¬ Int64.ofInt n < 0 := by
  rw [Int64.lt_iff_toInt_lt, toInt_count small]
  change ¬ (n : ℤ) < 0
  omega

theorem rounds_count : rounds (Int64.ofInt n) = n := by
  rw [rounds, toInt_count small, Int.toNat_natCast]

theorem toNat_count : (Int64.ofInt n).toUInt64.toNat = n := by
  have same := @toNat_toUInt64 (Int64.ofInt n) (by rw [toInt_count small]; omega)
  rw [toInt_count small] at same
  exact_mod_cast same

theorem reserve_count {size : ℕ} (fits : n * size ≤ isizeMax) (rest : Bytes) :
    reserve (Int64.ofInt n) size rest = .done () 0 := by
  rw [reserve, toNat_count small, if_pos fits]
  rfl

end Counts

variable (floats : F64Ops)

/-- A bulk string is read by its length. -/
theorem parseBody_append (bytes rest : Bytes) :
    parseBody bytes.length (bytes ++ crlf ++ rest) = .done bytes (bytes.length + 2) := by
  rw [parseBody, if_neg (by simp [crlf])]
  simp

/-- The items of a collection are read by their number. -/
theorem bind_items {item : Reader α} (build : List α → RespValue) {items : List α} {size used : ℕ}
    {data : Bytes} (small : items.length ≤ isizeMax) (fits : items.length * size ≤ isizeMax)
    (ran : item.times items.length data = .done items used) :
    (do
      reserve (Int64.ofInt items.length) size
      let items ← item.times (rounds (Int64.ofInt items.length))
      return build items : Reader RespValue) data = .done (build items) used := by
  refine (Parser.bind_of_done_done (reserve_count small fits data) ?_).trans
    (by rw [Nat.zero_add])
  rw [List.drop_zero, rounds_count small]
  exact Parser.map_of_done ran build

theorem le_isizeMax_of_mul {n size : ℕ} (positive : 0 < size) (fits : n * size ≤ isizeMax) :
    n ≤ isizeMax :=
  (Nat.le_mul_of_pos_right n positive).trans fits

mutual

theorem parseOne_serialize_append : (value : RespValue) → value.All RespValue.OnLine →
    value.All RespValue.Allocated → (rest : Bytes) →
    parseOne floats (serialize floats value ++ rest) = .done value (serialize floats value).length
  | .simpleString text, line, _, rest => by
    rw [serialize, List.cons_append, parseOne_cons]
    refine (bind_line (by decide) line rfl).trans ?_
    simp [crlf]
  | .error text, line, _, rest => by
    rw [serialize, List.cons_append, parseOne_cons]
    refine (bind_line (by decide) line rfl).trans ?_
    simp [crlf]
  | .integer n, _, _, rest => by
    have went : (parseNumber (renderI64 n) >>= fun n => pure (.integer n) : Reader RespValue) rest =
        .done (.integer n) 0 := by
      rw [parseNumber, parseI64?_renderI64]
      rfl
    rw [serialize, List.cons_append, parseOne_cons]
    refine (bind_line (by decide) (unbroken_renderI64 n) went).trans ?_
    simp [crlf]
  | .bulkString none, _, _, rest => by
    rw [serialize, List.cons_append, parseOne_cons]
    refine (bind_line (by decide) (unbroken_of_not_mem (by decide)) rfl).trans ?_
    rfl
  | .bulkString (some bytes), _, fits, rest => by
    have small : bytes.length ≤ isizeMax := fits
    have body : parseBody (Int64.ofInt bytes.length).toUInt64.toNat (bytes ++ crlf ++ rest) =
        .done bytes (bytes.length + 2) := by
      rw [toNat_count small]
      exact parseBody_append bytes rest
    rw [serialize, List.cons_append, parseOne_cons, List.append_assoc, List.append_assoc,
      ← List.append_assoc bytes]
    refine (bind_number (by decide) small (Parser.ite_of_not (not_negative_count small)
      (Parser.map_of_done body fun body => RespValue.bulkString (some body)))).trans ?_
    simp [crlf]
    omega
  | .array items, line, fits, rest => by
    have small := le_isizeMax_of_mul (by decide) fits.1
    have went := bind_items .array small fits.1 (times_serializeItems items line.2 fits.2 rest)
    rw [serialize, List.cons_append, parseOne_cons, List.append_assoc]
    refine (bind_number (by decide) small
      (Parser.ite_of_not (not_negative_count small) went)).trans ?_
    simp [crlf]
    omega
  | .null, _, _, rest => by
    rw [serialize, List.cons_append, parseOne_cons]
    exact @bind_line _ 0x5F rest _ _ (fun _ => pure RespValue.null) [] (by decide)
      (unbroken_of_not_mem (by decide)) rfl
  | .boolean b, _, _, rest => by
    rw [serialize, List.cons_append, parseOne_cons]
    cases b <;> refine (bind_line (by decide) (unbroken_of_not_mem (by decide)) rfl).trans ?_ <;>
        rfl
  | .double f, line, _, _ => absurd line id
  | .map pairs, line, fits, rest => by
    have small := le_isizeMax_of_mul (by decide) fits.1
    have went := bind_items .map small fits.1 (times_serializePairs pairs line.2 fits.2 rest)
    rw [serialize, List.cons_append, parseOne_cons, List.append_assoc]
    refine (bind_number (by decide) small went).trans ?_
    simp [crlf]
    omega
  | .set items, line, fits, rest => by
    have small := le_isizeMax_of_mul (by decide) fits.1
    have went := bind_items .set small fits.1 (times_serializeItems items line.2 fits.2 rest)
    rw [serialize, List.cons_append, parseOne_cons, List.append_assoc]
    refine (bind_number (by decide) small went).trans ?_
    simp [crlf]
    omega

theorem times_serializeItems :
    (items : List RespValue) → RespValue.AllItems RespValue.OnLine items →
    RespValue.AllItems RespValue.Allocated items → (rest : Bytes) →
    (parseOne floats).times items.length (serializeItems floats items ++ rest) =
      .done items (serializeItems floats items).length
  | [], _, _, _ => rfl
  | item :: items, line, fits, rest => by
    have first := parseOne_serialize_append item line.1 fits.1 (serializeItems floats items ++ rest)
    have others := times_serializeItems items line.2 fits.2 rest
    rw [serializeItems, List.append_assoc, List.length_append]
    refine Parser.bind_of_done_done first ?_
    rw [List.drop_left]
    exact Parser.map_of_done others (item :: ·)

theorem times_serializePairs : (pairs : List (RespValue × RespValue)) →
    RespValue.AllPairs RespValue.OnLine pairs → RespValue.AllPairs RespValue.Allocated pairs →
    (rest : Bytes) →
    (parsePair (parseOne floats)).times pairs.length (serializePairs floats pairs ++ rest) =
      .done pairs (serializePairs floats pairs).length
  | [], _, _, _ => rfl
  | (key, value) :: pairs, line, fits, rest => by
    have first := parseOne_serialize_append key line.1 fits.1
      (serialize floats value ++ (serializePairs floats pairs ++ rest))
    have second :=
      parseOne_serialize_append value line.2.1 fits.2.1 (serializePairs floats pairs ++ rest)
    have others := times_serializePairs pairs line.2.2 fits.2.2 rest
    have pair : parsePair (parseOne floats)
        (serialize floats key ++
          (serialize floats value ++ (serializePairs floats pairs ++ rest))) =
        .done (key, value) ((serialize floats key).length + (serialize floats value).length) := by
      refine Parser.bind_of_done_done first ?_
      rw [List.drop_left]
      exact Parser.map_of_done second (key, ·)
    rw [serializePairs, List.append_assoc, List.append_assoc, List.length_append,
      List.length_append]
    refine Parser.bind_of_done_done pair ?_
    rw [← List.append_assoc, ← List.length_append, List.drop_left]
    exact Parser.map_of_done others ((key, value) :: ·)

end

variable {floats}

/-- A value is read back from its bytes, whatever follows them. So no value has the
bytes of another one, nor a part of them from the front. -/
theorem parseOne_serialize {value : RespValue} (line : value.All RespValue.OnLine)
    (inMemory : value.All RespValue.Allocated) :
    (∀ rest, parseOne floats (serialize floats value ++ rest) =
      .done value (serialize floats value).length) ∧
    ∀ other : RespValue, other.All RespValue.OnLine → other.All RespValue.Allocated →
      serialize floats value <+: serialize floats other → value = other := by
  refine ⟨parseOne_serialize_append floats value line inMemory, ?_⟩
  rintro other line' inMemory' ⟨rest, begins⟩
  have read := parseOne_serialize_append floats value line inMemory rest
  have read' := parseOne_serialize_append floats other line' inMemory' []
  rw [List.append_nil, ← begins, read] at read'
  exact (Parsed.done.inj read').1

theorem parseOne_serialize_of_nested :
    let value : RespValue :=
  .array [.simpleString "OK", .map [(.integer (-5), .bulkString none)], .null]
    value.All RespValue.OnLine ∧ value.All RespValue.Allocated ∧
      parseOne CommandContext.plain.floats
        (serialize CommandContext.plain.floats value ++ ascii "+next") = .done value 26 := by
  intro value
  have line : value.All RespValue.OnLine := by
    refine ⟨trivial, ?_, ⟨trivial, trivial, trivial, trivial⟩, trivial, trivial⟩
    exact unbroken_of_not_mem (by decide)
  have inMemory : value.All RespValue.Allocated := by
    refine ⟨?_, trivial, ⟨?_, trivial, trivial, trivial⟩, trivial, trivial⟩ <;>
      simp [RespValue.Allocated, valueSize, isizeMax]
  refine ⟨line, inMemory, ?_⟩
  rw [(parseOne_serialize line inMemory).1]
  congr 1

end RoundTrip

section Pipelines

variable {floats : F64Ops}

def commandValue (args : List Bytes) : RespValue :=
  .array (args.map fun arg => .bulkString (some arg))

theorem parseCmd_commandValue {args : List Bytes}
    (inMemory : (commandValue args).All RespValue.Allocated) (rest : Bytes) :
    parseCmd floats (serialize floats (commandValue args) ++ rest) =
      .done args (serialize floats (commandValue args)).length := by
  have line : (commandValue args).All RespValue.OnLine :=
    ⟨trivial, (RespValue.allItems_iff _ _).mpr fun _ inside => by
      obtain ⟨arg, -, rfl⟩ := List.mem_map.mp inside
      trivial⟩
  have read := parseOne_serialize_append floats _ line inMemory rest
  rw [parseCmd, Parser.bind_of_done read]
  simp [commandValue, argsOfValue, argOfValue, Function.comp_def]

/-- Clients may send commands without waiting for replies. However the stream is cut, and however
much of it has arrived, the server has taken the first commands of it, and so has the client
with the replies; from a whole stream all of them. -/
theorem pipelining_exact (floats : F64Ops) (pieces : List Bytes) (later : Bytes) :
    (∀ commands, (∀ args ∈ commands, (commandValue args).All RespValue.Allocated) →
      commands.flatMap (fun args => serialize floats (commandValue args)) =
        pieces.flatten ++ later →
      (receivePieces floats pieces).1 <+: commands ∧
        (later = [] → receivePieces floats pieces = (commands, .waiting []))) ∧
    ∀ replies : List RespValue,
      (∀ reply ∈ replies, reply.All RespValue.OnLine ∧ reply.All RespValue.Allocated) →
      replies.flatMap (serialize floats) = pieces.flatten ++ later →
      (pieces.foldl (parseOne floats).feed ((parseOne floats).drainAll [])).1 <+: replies ∧
        (later = [] → pieces.foldl (parseOne floats).feed ((parseOne floats).drainAll []) =
          (replies, .waiting [])) := by
  refine ⟨fun commands inMemory stream => ?_, fun replies sound stream => ?_⟩
  · exact Parser.feed_flatMap incremental_parseCmd consuming_parseCmd rfl
      (fun args inside => parseCmd_commandValue (inMemory args inside)) stream
  · refine Parser.feed_flatMap incremental_parseOne consuming_parseOne rfl
      (fun reply inside => ?_) stream
    exact parseOne_serialize_append floats reply (sound reply inside).1 (sound reply inside).2

/-- Two commands and their replies, each stream in two pieces. -/
theorem pipelining_exact_of_two :
    let floats := CommandContext.plain.floats
    let sent := ascii "*1\r\n$4\r\nPING\r\n*1\r\n$4\r\nROLE\r\n"
    let answered := ascii "+PONG\r\n:5\r\n"
    receivePieces floats [sent.take 17, sent.drop 17] =
        ([[ascii "PING"], [ascii "ROLE"]], .waiting []) ∧
      [answered.take 3, answered.drop 3].foldl (parseOne floats).feed
        ((parseOne floats).drainAll []) = ([.simpleString "PONG", .integer 5], .waiting []) := by
  intro floats sent answered
  constructor
  · refine ((pipelining_exact floats _ []).1 _ (fun args inside => ?_) (by decide)).2 rfl
    simp only [List.mem_cons, List.not_mem_nil, or_false] at inside
    rcases inside with rfl | rfl <;>
      simp [commandValue, RespValue.All, RespValue.AllItems, RespValue.Allocated, valueSize,
        isizeMax, ascii]
  · refine ((pipelining_exact floats _ []).2 _ (fun reply inside => ?_) (by decide)).2 rfl
    simp only [List.mem_cons, List.not_mem_nil, or_false] at inside
    rcases inside with rfl | rfl
    · exact ⟨unbroken_of_not_mem (by decide), trivial⟩
    · exact ⟨trivial, trivial⟩

end Pipelines

end Kvdb
