import Kvdb.Protocol.Grammar

/-!
# Panics of the parser

The parser with the slices it takes: each of them has to be inside the buffer, or the parser
panics. All of them are. The capacity that is reserved from the header of a collection is the
one thing that panics, if the count is too great, or if it is negative and the collection is
not an array.
-/

namespace Kvdb

open Data

namespace Checked

variable {α : Type}

section Slices

/-- `data[start..stop]`, which panics out of range. -/
def slice (data : Bytes) (start stop : ℕ) (next : Bytes → Parsed α) : Parsed α :=
  if start ≤ stop ∧ stop ≤ data.length then next ((data.take stop).drop start) else .panic

/-- `Vec::with_capacity` for a count that was read as an `i64`. -/
def withCapacity (count : Int64) (size : ℕ) (next : Parsed α) : Parsed α :=
  if count.toUInt64.toNat * size ≤ isizeMax then next else .panic

def parseLine (data : Bytes) : Parsed Bytes :=
  match findCrlf data with
  | some pos => slice data 1 pos fun line => .done line (pos + 2)
  | none => .more

def parseNumber (data : Bytes) : Parsed Int64 :=
  (parseLine data).andThen fun line consumed =>
    match parseI64? line with
    | some n => .done n consumed
    | none => .more

def parseSimple (data : Bytes) : Parsed RespValue :=
  (parseLine data).andThen fun line consumed => .done (.simpleString (fromUtf8Lossy line)) consumed

def parseError (data : Bytes) : Parsed RespValue :=
  (parseLine data).andThen fun line consumed => .done (.error (fromUtf8Lossy line)) consumed

def parseInt (data : Bytes) : Parsed RespValue :=
  (parseNumber data).andThen fun n consumed => .done (.integer n) consumed

def parseBulk (data : Bytes) : Parsed RespValue :=
  (parseNumber data).andThen fun len headerLen =>
    if len < 0 then .done (.bulkString none) headerLen
    else
      let bodyEnd := headerLen + len.toUInt64.toNat + 2
      if data.length < bodyEnd then .more
      else slice data headerLen (headerLen + len.toUInt64.toNat) fun body =>
        .done (.bulkString (some body)) bodyEnd

def parseNull (data : Bytes) : Parsed RespValue :=
  (parseLine data).andThen fun _ consumed => .done .null consumed

def parseBool (data : Bytes) : Parsed RespValue :=
  (parseLine data).andThen fun line consumed =>
    if line = ascii "t" then .done (.boolean true) consumed
    else if line = ascii "f" then .done (.boolean false) consumed
    else .more

def parseDouble (floats : F64Ops) (data : Bytes) : Parsed RespValue :=
  (parseLine data).andThen fun line consumed =>
    match floats.parse line with
    | some f => .done (.double f) consumed
    | none => .more

variable (one : Reader RespValue) (data : Bytes)

/-- The loop of arrays and sets, over the items so far and the bytes consumed. -/
def itemLoop : ℕ → List RespValue → ℕ → Parsed (List RespValue)
  | 0, items, consumed => .done items consumed
  | rounds + 1, items, consumed =>
    slice data consumed data.length fun rest =>
      (one rest).andThen fun val used => itemLoop rounds (items ++ [val]) (consumed + used)

def pairLoop : ℕ → List (RespValue × RespValue) → ℕ → Parsed (List (RespValue × RespValue))
  | 0, map, consumed => .done map consumed
  | rounds + 1, map, consumed =>
    slice data consumed data.length fun rest =>
      (one rest).andThen fun k used =>
        slice data (consumed + used) data.length fun rest =>
          (one rest).andThen fun v used' =>
            pairLoop rounds (map ++ [(k, v)]) (consumed + used + used')

def parseArray : Parsed RespValue :=
  (parseNumber data).andThen fun count consumed =>
    if count < 0 then .done .null consumed
    else withCapacity count valueSize <|
      (itemLoop one data (rounds count) [] consumed).andThen fun items consumed =>
        .done (.array items) consumed

def parseMap : Parsed RespValue :=
  (parseNumber data).andThen fun count consumed =>
    withCapacity count (2 * valueSize) <|
      (pairLoop one data (rounds count) [] consumed).andThen fun map consumed =>
        .done (.map map) consumed

def parseSet : Parsed RespValue :=
  (parseNumber data).andThen fun count consumed =>
    withCapacity count valueSize <|
      (itemLoop one data (rounds count) [] consumed).andThen fun items consumed =>
        .done (.set items) consumed

/-- The parser for a kind of message, given the one for what it contains. -/
def parseKind (floats : F64Ops) (kind : UInt8) : Parsed RespValue :=
  if kind = 0x2B then parseSimple data
  else if kind = 0x2D then parseError data
  else if kind = 0x3A then parseInt data
  else if kind = 0x24 then parseBulk data
  else if kind = 0x2A then parseArray one data
  else if kind = 0x5F then parseNull data
  else if kind = 0x23 then parseBool data
  else if kind = 0x2C then parseDouble floats data
  else if kind = 0x25 then parseMap one data
  else if kind = 0x7E then parseSet one data
  else .more

/-- Parse a message whose nesting is bounded by the fuel. -/
def parseNested (floats : F64Ops) : ℕ → Reader RespValue
  | 0 => Parser.more
  | fuel + 1 => fun data =>
    match data with
    | [] => .more
    | kind :: _ => parseKind (parseNested floats fuel) data floats kind

/-- Parse a message from the front of a buffer. -/
def parseOne (floats : F64Ops) : Reader RespValue :=
  fun data => parseNested floats (data.length + 1) data

end Slices

section Inside

variable {kind : UInt8} {text : Bytes} (letter : kind ≠ 0x0D)

theorem slice_rest {data : Bytes} {consumed : ℕ} (within : consumed ≤ data.length)
    (next : Bytes → Parsed α) :
    slice data consumed data.length next = next (data.drop consumed) := by
  rw [slice, if_pos ⟨within, le_rfl⟩, List.take_length]

include letter

/-- The line is inside the buffer: it does not end before the byte of its kind. -/
theorem parseLine_eq : parseLine (kind :: text) = Kvdb.parseLine (kind :: text) := by
  rw [parseLine, Kvdb.parseLine]
  cases found : findCrlf (kind :: text) with
  | none => rfl
  | some pos =>
    obtain ⟨line, rest, split, length, -⟩ := findCrlf_eq_some found
    have within := (findCrlf_append found).1
    have positive : 1 ≤ pos := by
      rw [Nat.one_le_iff_ne_zero]
      rintro rfl
      rw [List.length_eq_zero_iff] at length
      subst length
      exact letter (List.cons.inj split).1
    exact if_pos ⟨positive, by omega⟩

theorem bind_line_eq (next : Bytes → Reader α) :
    (Kvdb.parseLine >>= next) (kind :: text) =
      (parseLine (kind :: text)).andThen fun line used =>
        (next line ((kind :: text).drop used)).andThen fun result further =>
          .done result (used + further) := by
  rw [parseLine_eq letter, Parser.bind_apply]

theorem bind_number_eq (next : Int64 → Reader α) :
    (Kvdb.parseLine >>= fun line => Kvdb.parseNumber line >>= next) (kind :: text) =
      (parseNumber (kind :: text)).andThen fun n used =>
        (next n ((kind :: text).drop used)).andThen fun result further =>
          .done result (used + further) := by
  rw [bind_line_eq letter, parseNumber, Parsed.andThen_assoc]
  refine Parsed.andThen_congr fun line used _ => ?_
  rw [Parser.bind_apply, Kvdb.parseNumber]
  cases parseI64? line with
  | none => rfl
  | some n =>
    simp only [Parser.ofOption_some, Parser.pure_apply, Parsed.andThen, List.drop_zero]
    cases next n ((kind :: text).drop used) <;> simp

theorem parseNumber_le {n : Int64} {used : ℕ} (ran : parseNumber (kind :: text) = .done n used) :
    used ≤ (kind :: text).length := by
  rw [parseNumber, parseLine_eq letter] at ran
  cases started : Kvdb.parseLine (kind :: text) with
  | more => rw [started] at ran; cases ran
  | panic => rw [started] at ran; cases ran
  | done line taken =>
    rw [started, Parsed.andThen] at ran
    have within := (incremental_parseLine.done started).1
    split at ran
    · cases ran
      exact within
    · cases ran

end Inside

section Loops

variable {one : Reader RespValue} (each : Parser.Incremental one) {data : Bytes}
include each

/-- Every round starts inside the buffer. -/
theorem itemLoop_eq (rounds : ℕ) (items : List RespValue) {consumed : ℕ}
    (within : consumed ≤ data.length) :
    itemLoop one data rounds items consumed =
      (one.times rounds (data.drop consumed)).andThen fun more used =>
        .done (items ++ more) (consumed + used) := by
  induction rounds generalizing items consumed with
  | zero => simp [itemLoop, Parser.times, Parsed.andThen]
  | succ rounds ih =>
    rw [itemLoop, slice_rest within, Parser.times, Parser.bind_apply, Parsed.andThen_assoc]
    refine Parsed.andThen_congr fun value used ran => ?_
    have further := (each.done ran).1
    rw [List.length_drop] at further
    rw [ih _ (by omega), Parser.bind_apply, List.drop_drop, Parsed.andThen_assoc,
      Parsed.andThen_assoc]
    refine Parsed.andThen_congr fun more others _ => ?_
    simp [Parsed.andThen, Nat.add_assoc]

theorem pairLoop_eq (rounds : ℕ) (map : List (RespValue × RespValue)) {consumed : ℕ}
    (within : consumed ≤ data.length) :
    pairLoop one data rounds map consumed =
      ((parsePair one).times rounds (data.drop consumed)).andThen fun more used =>
        .done (map ++ more) (consumed + used) := by
  induction rounds generalizing map consumed with
  | zero => simp [pairLoop, Parser.times, Parsed.andThen]
  | succ rounds ih =>
    rw [pairLoop, slice_rest within, Parser.times, Parser.bind_apply, parsePair_apply,
      Parsed.andThen_assoc, Parsed.andThen_assoc]
    refine Parsed.andThen_congr fun key used ran => ?_
    have further := (each.done ran).1
    rw [List.length_drop] at further
    rw [slice_rest (by omega), List.drop_drop, Parsed.andThen_assoc]
    refine Parsed.andThen_congr fun value used' ran' => ?_
    have further' := (each.done ran').1
    rw [List.length_drop] at further'
    rw [ih _ (by omega), Parsed.andThen, Parser.bind_apply, List.drop_drop, Parsed.andThen_assoc,
      Parsed.andThen_assoc, ← Nat.add_assoc]
    refine Parsed.andThen_congr fun more others _ => ?_
    simp [Parsed.andThen, Nat.add_assoc]

end Loops

section Kinds

variable {floats : F64Ops} {one : Reader RespValue} (each : Parser.Incremental one) {kind : UInt8}
  {text : Bytes}

/-- The body is inside the buffer if the buffer is long enough. -/
theorem parseBulk_eq (letter : kind ≠ 0x0D) :
    parseBulk (kind :: text) = Kvdb.parseBulk (kind :: text) := by
  rw [Kvdb.parseBulk, bind_number_eq letter, parseBulk]
  refine Parsed.andThen_congr fun len headerLen ran => ?_
  have within := parseNumber_le letter ran
  by_cases negative : len < 0
  · rw [if_pos negative, if_pos negative]
    rfl
  · rw [if_neg negative, if_neg negative, Parser.bind_apply, parseBody, List.length_drop]
    dsimp only
    by_cases short : (kind :: text).length < headerLen + len.toUInt64.toNat + 2
    · rw [if_pos short, if_pos (by omega)]
      rfl
    · rw [if_neg short, if_neg (by omega), slice, if_pos ⟨by omega, by omega⟩, List.drop_take,
        Nat.add_sub_cancel_left]
      rfl

/-- A collection is read behind its header. -/
theorem collection_eq {item : Reader α} {size : ℕ} {count : Int64} (data : Bytes) (consumed : ℕ)
    (build : List α → RespValue) :
    (withCapacity count size <|
      ((item.times (rounds count) data).andThen fun more used =>
        .done ([] ++ more) (consumed + used)).andThen
        fun items consumed => .done (build items) consumed) =
      ((do
        reserve count size
        let items ← item.times (rounds count)
        return build items : Reader RespValue) data).andThen fun result further =>
          .done result (consumed + further) := by
  rw [Parser.bind_apply, reserve, withCapacity]
  split_ifs
  · rw [Parser.pure_apply, Parsed.andThen, List.drop_zero, Parser.bind_apply]
    cases item.times (rounds count) data <;> simp [Parsed.andThen]
  · rfl

include each

theorem parseArray_eq (letter : kind ≠ 0x0D) :
    parseArray one (kind :: text) = Kvdb.parseArray one (kind :: text) := by
  rw [Kvdb.parseArray, bind_number_eq letter, parseArray]
  refine Parsed.andThen_congr fun count consumed ran => ?_
  split_ifs with negative
  · rfl
  · rw [itemLoop_eq each _ _ (parseNumber_le letter ran)]
    exact collection_eq _ consumed .array

theorem parseMap_eq (letter : kind ≠ 0x0D) :
    parseMap one (kind :: text) = Kvdb.parseMap one (kind :: text) := by
  rw [Kvdb.parseMap, bind_number_eq letter, parseMap]
  refine Parsed.andThen_congr fun count consumed ran => ?_
  rw [pairLoop_eq each _ _ (parseNumber_le letter ran)]
  exact collection_eq _ consumed .map

theorem parseSet_eq (letter : kind ≠ 0x0D) :
    parseSet one (kind :: text) = Kvdb.parseSet one (kind :: text) := by
  rw [Kvdb.parseSet, bind_number_eq letter, parseSet]
  refine Parsed.andThen_congr fun count consumed ran => ?_
  rw [itemLoop_eq each _ _ (parseNumber_le letter ran)]
  exact collection_eq _ consumed .set

omit each in
theorem ite_eq {condition : Prop} [Decidable condition] {yes no : Parsed α} {yes' no' : Reader α}
    {data : Bytes} (left : condition → yes = yes' data) (right : no = no' data) :
    (if condition then yes else no) = (if condition then yes' else no') data := by
  split_ifs with holds
  · exact left holds
  · exact right

theorem parseKind_eq :
    parseKind one (kind :: text) floats kind = Kvdb.parseKind one floats kind (kind :: text) := by
  refine ite_eq (fun simple => ?_) <| ite_eq (fun error => ?_) <| ite_eq (fun int => ?_) <|
    ite_eq (fun bulk => parseBulk_eq (by rw [bulk]; decide)) <|
    ite_eq (fun array => parseArray_eq each (by rw [array]; decide)) <|
    ite_eq (fun null => ?_) <| ite_eq (fun bool => ?_) <| ite_eq (fun double => ?_) <|
    ite_eq (fun map => parseMap_eq each (by rw [map]; decide)) <|
    ite_eq (fun set => parseSet_eq each (by rw [set]; decide)) rfl
  · rw [Kvdb.parseSimple, bind_line_eq (by rw [simple]; decide), parseSimple]
    rfl
  · rw [Kvdb.parseError, bind_line_eq (by rw [error]; decide), parseError]
    rfl
  · rw [Kvdb.parseInt, bind_number_eq (by rw [int]; decide), parseInt]
    rfl
  · rw [Kvdb.parseNull, bind_line_eq (by rw [null]; decide), parseNull]
    rfl
  · rw [Kvdb.parseBool, bind_line_eq (by rw [bool]; decide), parseBool]
    refine Parsed.andThen_congr fun line consumed _ => ?_
    split_ifs <;> rfl
  · rw [Kvdb.parseDouble, bind_line_eq (by rw [double]; decide), parseDouble]
    refine Parsed.andThen_congr fun line consumed _ => ?_
    cases floats.parse line <;> rfl

omit each in
theorem parseNested_eq (fuel : ℕ) : parseNested floats fuel = Kvdb.parseNested floats fuel := by
  induction fuel with
  | zero => rfl
  | succ fuel ih =>
    funext data
    rw [parseNested, Kvdb.parseNested, ih]
    cases data with
    | nil => rfl
    | cons kind text => exact parseKind_eq (incremental_parseNested fuel)

omit each in
/-- No slice is out of range, so the checks change nothing. -/
theorem parseOne_eq (floats : F64Ops) (data : Bytes) :
    parseOne floats data = Kvdb.parseOne floats data := by
  rw [parseOne, Kvdb.parseOne, parseNested_eq]

end Kinds

end Checked

section Oversize

def elementSize (kind : UInt8) : Option ℕ :=
  if kind = 0x2A ∨ kind = 0x7E then some valueSize
  else if kind = 0x25 then some (2 * valueSize)
  else none

/-- The header of a collection asks for more than can be allocated. Only arrays refuse a
negative count before. -/
def Oversized (kind : UInt8) (line : Bytes) : Prop :=
  ∃ size count, elementSize kind = some size ∧ parseI64? line = some count ∧
    (count < 0 ∧ kind ≠ 0x2A ∨ (isizeMax : ℤ) < count.toInt * size)

/-- The parser gets to such a header: it stands at the front, or in a collection behind some
whole messages and before its end. -/
inductive Overreaches (floats : F64Ops) : Bytes → Prop
  | header {kind : UInt8} {line rest : Bytes} (unbroken : ¬ crlf <:+: line)
      (oversized : Oversized kind line) : Overreaches floats (kind :: (line ++ crlf ++ rest))
  | inside {kind : UInt8} {line content rest : Bytes} {count before : ℕ}
    (unbroken : ¬ crlf <:+: line)
      (header : shape floats kind line = some (.items count)) (fewer : before < count)
      (whole : Filled floats (.items before) content) (deeper : Overreaches floats rest) :
      Overreaches floats (kind :: (line ++ crlf ++ (content ++ rest)))

variable {floats : F64Ops} {one : Reader RespValue} {kind : UInt8} {line data : Bytes} {n : Int64}
  {size : ℕ}

/-- When the capacity of a collection is too great. -/
theorem not_fits_iff (positive : 0 < size) : ¬ n.toUInt64.toNat * size ≤ isizeMax ↔
    n < 0 ∨ (isizeMax : ℤ) < n.toInt * size := by
  by_cases negative : n < 0
  · -- As a machine word, a negative count is at least half of the range.
    have word := toInt_eq_toUInt64 n
    have below : n.toInt < 0 := Int64.lt_iff_toInt_lt.mp negative
    have large : 2 ^ 63 ≤ n.toUInt64.toNat := by
      split_ifs at word <;> omega
    refine iff_of_true (Nat.not_le.mpr ?_) (.inl negative)
    calc isizeMax < 2 ^ 63 := by decide
      _ ≤ n.toUInt64.toNat := large
      _ ≤ n.toUInt64.toNat * size := Nat.le_mul_of_pos_right _ positive
  · have nonneg : 0 ≤ n.toInt := Int64.le_iff_toInt_le.mp (Int64.not_lt.mp negative)
    rw [or_iff_right negative, ← toNat_toUInt64 nonneg, Nat.not_le]
    exact_mod_cast Iff.rfl

/-- Behind a line, only what follows it panics. -/
theorem bind_line_eq_panic {α : Type} {next : Bytes → Reader α} {text : Bytes}
    (letter : kind ≠ 0x0D) (ran : (parseLine >>= next) (kind :: text) = .panic) :
    ∃ line rest, kind :: text = kind :: (line ++ crlf ++ rest) ∧ ¬ crlf <:+: line ∧
      next line rest = .panic := by
  obtain started | ⟨line, used, started, went⟩ := Parser.bind_eq_panic ran
  · rw [parseLine] at started
    split at started <;> cases started
  · obtain ⟨rest, split, unbroken, -, behind⟩ := parseLine_eq_done letter started
    exact ⟨line, rest, split, unbroken, behind ▸ went⟩

theorem bind_line_of_panic {α : Type} {next : Bytes → Reader α} {rest : Bytes}
    (letter : kind ≠ 0x0D) (unbroken : ¬ crlf <:+: line) (went : next line rest = .panic) :
    (parseLine >>= next) (kind :: (line ++ crlf ++ rest)) = .panic := by
  rw [Parser.bind_of_done (parseLine_line letter unbroken rest), drop_line, went]

theorem parseNumber_eq_panic {α : Type} {next : Int64 → Reader α}
    (ran : (parseNumber line >>= next) data = .panic) :
    ∃ n, parseI64? line = some n ∧ next n data = .panic := by
  obtain started | ⟨n, used, started, went⟩ := Parser.bind_eq_panic ran
  · rw [parseNumber] at started
    cases found : parseI64? line <;> rw [found] at started <;> cases started
  · rw [parseNumber] at started
    cases found : parseI64? line with
    | none =>
      rw [found] at started
      cases started
    | some m =>
      rw [found] at started
      cases started
      exact ⟨n, rfl, by rwa [List.drop_zero] at went⟩

/-- A collection panics in its capacity or in its items. -/
theorem counted_eq_panic {α : Type} {item : Reader α} {build : List α → RespValue}
    (number : parseI64? line = some n)
    (ran : (do
      reserve n size
      let items ← item.times (rounds n)
      return build items : Reader RespValue) data = .panic) :
    ¬ n.toUInt64.toNat * size ≤ isizeMax ∨
      countOf size line = some (rounds n) ∧ item.times (rounds n) data = .panic := by
  by_cases fits : n.toUInt64.toNat * size ≤ isizeMax
  · right
    refine ⟨by simp [countOf, number, fits], ?_⟩
    obtain started | ⟨_, used, started, went⟩ := Parser.bind_eq_panic ran
    · rw [reserve, if_pos fits] at started
      cases started
    · rw [reserve, if_pos fits] at started
      cases started
      obtain stopped | ⟨_, _, -, done⟩ := Parser.bind_eq_panic went
      · rwa [List.drop_zero] at stopped
      · cases done
  · exact .inl fits

/-- Items that panic stand behind whole messages. -/
theorem exists_overreaching {count : ℕ}
    (each : ∀ rest : Bytes, rest.length ≤ data.length → parseOne floats rest = .panic →
      Overreaches floats rest)
    (ran : (parseOne floats).times count data = .panic) :
    ∃ before < count, ∃ content rest, Filled floats (.items before) content ∧
      data = content ++ rest ∧
      Overreaches floats rest := by
  obtain ⟨before, fewer, values, used, whole, stopped⟩ := Parser.times_eq_panic ran
  obtain ⟨content, rest, filled, rfl, rfl⟩ :=
    filled_of_times (fun _ _ _ _ => hasMessage_of_parseOne) whole
  rw [List.drop_left] at stopped
  exact ⟨before, fewer, content, rest, filled, rfl, each rest (by simp) stopped⟩

theorem calm_parseLine : Parser.Calm parseLine := by
  intro data ran
  rw [parseLine] at ran
  split at ran <;> cases ran

theorem calm_parseBody (len : ℕ) : Parser.Calm (parseBody len) := by
  intro data ran
  rw [parseBody] at ran
  split_ifs at ran

/-- What is not a collection has no capacity to reserve. -/
theorem calm_parseKind (leaf : elementSize kind = none) :
    Parser.Calm (parseKind one floats kind) := by
  have behind : ∀ {next : Int64 → Reader RespValue}, (∀ n, Parser.Calm (next n)) →
      Parser.Calm (parseLine >>= fun line => parseNumber line >>= next) :=
    fun goes => calm_parseLine.bind fun _ => (Parser.calm_ofOption _).bind goes
  have line : ∀ build : Bytes → RespValue,
      Parser.Calm (parseLine >>= fun line => pure (build line)) :=
    fun build => calm_parseLine.bind fun _ => Parser.calm_pure _
  refine .ite (fun _ => line _) <| .ite (fun _ => line _) <|
    .ite (fun _ => behind fun _ => Parser.calm_pure _) <| .ite (fun _ => behind fun len => ?_) <|
    .ite (fun array => ?_) <| .ite (fun _ => line _) <|
    .ite (fun _ => calm_parseLine.bind fun line => ?_) <|
    .ite (fun _ => calm_parseLine.bind fun line => ?_) <|
    .ite (fun map => ?_) <| .ite (fun set => ?_) Parser.calm_more
  · exact .ite (fun _ => Parser.calm_pure _) <| (calm_parseBody _).bind fun _ => Parser.calm_pure _
  · rw [array] at leaf
    cases leaf
  · exact .ite (fun _ => Parser.calm_pure _) <| .ite (fun _ => Parser.calm_pure _) Parser.calm_more
  · exact (Parser.calm_ofOption _).bind fun _ => Parser.calm_pure _
  · rw [map] at leaf
    cases leaf
  · rw [set] at leaf
    cases leaf

theorem kind_of_elementSize (sized : elementSize kind ≠ none) :
    kind = 0x2A ∨ kind = 0x25 ∨ kind = 0x7E := by
  by_contra other
  simp only [not_or] at other
  simp [elementSize, other] at sized

/-- A panic comes from an oversized header. -/
theorem overreaches_of_panic (ran : parseOne floats data = .panic) : Overreaches floats data := by
  induction length : data.length using Nat.strong_induction_on generalizing data with
  | _ length ih =>
    subst length
    cases data with
    | nil => cases ran
    | cons kind text =>
      rw [parseOne_cons] at ran
      have sized : elementSize kind ≠ none := fun leaf => calm_parseKind leaf _ ran
      -- The items of a collection are shorter than the collection.
      have items : ∀ {line rest : Bytes} {count : ℕ},
          kind :: text = kind :: (line ++ crlf ++ rest) →
          ¬ crlf <:+: line → shape floats kind line = some (.items count) →
          (parseOne floats).times count rest = .panic → Overreaches floats (kind :: text) := by
        intro line rest count split unbroken header ran
        have shorter : rest.length < (kind :: text).length := by
          rw [split]
          simp
          omega
        obtain ⟨before, fewer, content, later, whole, rfl, deeper⟩ :=
          exists_overreaching (fun rest' short ran => ih rest'.length (by omega) ran rfl) ran
        exact split ▸ .inside unbroken header fewer whole deeper
      obtain rfl | rfl | rfl := kind_of_elementSize sized
      · obtain ⟨line, rest, split, unbroken, went⟩ := bind_line_eq_panic (by decide) ran
        obtain ⟨n, number, went⟩ := parseNumber_eq_panic went
        have header : shape floats 0x2A line =
            if n < 0 then some .leaf else (countOf valueSize line).map .items :=
          congrArg (Option.bind · _) number
        by_cases negative : n < 0
        · rw [if_pos negative] at went
          cases went
        · rw [if_neg negative] at went header
          obtain large | ⟨counted, stopped⟩ := counted_eq_panic number went
          · have large := ((not_fits_iff (by decide)).mp large).resolve_left negative
            exact split ▸ .header unbroken ⟨valueSize, n, rfl, number, .inr large⟩
          · exact items split unbroken (by rw [header, counted]; rfl) stopped
      · obtain ⟨line, rest, split, unbroken, went⟩ := bind_line_eq_panic (by decide) ran
        obtain ⟨n, number, went⟩ := parseNumber_eq_panic went
        obtain large | ⟨counted, stopped⟩ := counted_eq_panic number went
        · have large := (not_fits_iff (by decide)).mp large
          exact split ▸ .header unbroken
            ⟨2 * valueSize, n, rfl, number, large.imp_left fun negative => ⟨negative, by decide⟩⟩
        · rw [← Parsed.extent_eq_panic, extent_times_parsePair, Parsed.extent_eq_panic] at stopped
          exact items split unbroken (congrArg (Option.map _) counted) stopped
      · obtain ⟨line, rest, split, unbroken, went⟩ := bind_line_eq_panic (by decide) ran
        obtain ⟨n, number, went⟩ := parseNumber_eq_panic went
        obtain large | ⟨counted, stopped⟩ := counted_eq_panic number went
        · have large := (not_fits_iff (by decide)).mp large
          exact split ▸ .header unbroken
            ⟨valueSize, n, rfl, number, large.imp_left fun negative => ⟨negative, by decide⟩⟩
        · exact items split unbroken (congrArg (Option.map _) counted) stopped

/-- The headers that announce messages. -/
theorem collection_of_shape {count : ℕ} (header : shape floats kind line = some (.items count)) :
    ∃ n, parseI64? line = some n ∧
      (kind = 0x2A ∧ ¬ n < 0 ∧ count = rounds n ∧ (∀ data, reserve n valueSize data = .done () 0) ∨
        kind = 0x25 ∧ count = 2 * rounds n ∧ (∀ data, reserve n (2 * valueSize) data = .done () 0) ∨
        kind = 0x7E ∧ count = rounds n ∧ ∀ data, reserve n valueSize data = .done () 0) := by
  obtain rfl | rfl | rfl | rfl | rfl | rfl | rfl | rfl | rfl | rfl := kind_of_shape header
  · cases header
  · cases header
  · obtain ⟨n, -, other⟩ := Option.map_eq_some_iff.mp header
    cases other
  · obtain ⟨len, -, other⟩ := Option.map_eq_some_iff.mp header
    split_ifs at other
  · obtain ⟨n, number, announced⟩ := Option.bind_eq_some_iff.mp header
    split_ifs at announced with negative
    · cases announced
    · obtain ⟨count', counted, same⟩ := Option.map_eq_some_iff.mp announced
      cases same
      obtain ⟨n', number', rfl, reserved⟩ := countOf_eq_some counted
      obtain rfl : n = n' := Option.some.inj (number.symm.trans number')
      exact ⟨n, number, .inl ⟨rfl, negative, rfl, reserved⟩⟩
  · cases header
  · have accepted : (if line = ascii "t" ∨ line = ascii "f" then some Shape.leaf else none) =
        some (.items count) := header
    split_ifs at accepted
    cases accepted
  · obtain ⟨f, -, other⟩ := Option.map_eq_some_iff.mp header
    cases other
  · obtain ⟨count', counted, same⟩ := Option.map_eq_some_iff.mp header
    cases same
    obtain ⟨n, number, rfl, reserved⟩ := countOf_eq_some counted
    exact ⟨n, number, .inr (.inl ⟨rfl, rfl, reserved⟩)⟩
  · obtain ⟨count', counted, same⟩ := Option.map_eq_some_iff.mp header
    cases same
    obtain ⟨n, number, rfl, reserved⟩ := countOf_eq_some counted
    exact ⟨n, number, .inr (.inr ⟨rfl, rfl, reserved⟩)⟩

/-- Going on to a panic behind a line with a number. -/
theorem bind_number_of_panic {α : Type} {next : Int64 → Reader α} {rest : Bytes}
    (letter : kind ≠ 0x0D) (unbroken : ¬ crlf <:+: line) (number : parseI64? line = some n)
    (went : next n rest = .panic) :
    (parseLine >>= fun line => parseNumber line >>= next) (kind :: (line ++ crlf ++ rest)) =
      .panic := by
  refine bind_line_of_panic letter unbroken ?_
  rw [parseNumber_of_some number, Parser.bind_of_done rfl, List.drop_zero, went]

theorem counted_of_panic {α : Type} {item : Reader α} (build : List α → RespValue)
    (reserved : ∀ data, reserve n size data = .done () 0)
    (stopped : item.times (rounds n) data = .panic) :
    (do
      reserve n size
      let items ← item.times (rounds n)
      return build items : Reader RespValue) data = .panic := by
  have went : (item.times (rounds n) >>= fun items => pure (build items)) data = .panic :=
    Parser.bind_of_panic stopped
  rw [Parser.bind_of_done (reserved data), List.drop_zero, went]

theorem counted_of_oversize {α : Type} {item : Reader α} (build : List α → RespValue)
    (large : ¬ n.toUInt64.toNat * size ≤ isizeMax) :
    (do
      reserve n size
      let items ← item.times (rounds n)
      return build items : Reader RespValue) data = .panic := by
  refine Parser.bind_of_panic ?_
  rw [reserve, if_neg large]
  rfl

/-- An oversized header that is reached panics. -/
theorem panic_of_overreaches (overreaches : Overreaches floats data) :
    parseOne floats data = .panic := by
  induction overreaches with
  | @header kind line rest unbroken oversized =>
    obtain ⟨size, n, sized, number, large⟩ := oversized
    rw [parseOne_cons]
    obtain rfl | rfl | rfl := kind_of_elementSize (by rw [sized]; exact Option.some_ne_none _)
    · cases sized
      have large : (isizeMax : ℤ) < n.toInt * valueSize := by simpa using large
      have nonneg : ¬ n < 0 := by
        intro negative
        have below : n.toInt < 0 := Int64.lt_iff_toInt_lt.mp negative
        rw [valueSize] at large
        omega
      refine bind_number_of_panic (by decide) unbroken number ?_
      rw [if_neg nonneg]
      exact counted_of_oversize .array ((not_fits_iff (by decide)).mpr (.inr large))
    · cases sized
      have large : n < 0 ∨ (isizeMax : ℤ) < n.toInt * (2 * valueSize : ℕ) := large.imp_left And.left
      exact bind_number_of_panic (by decide) unbroken number
        (counted_of_oversize .map ((not_fits_iff (by decide)).mpr large))
    · cases sized
      have large : n < 0 ∨ (isizeMax : ℤ) < n.toInt * valueSize := large.imp_left And.left
      exact bind_number_of_panic (by decide) unbroken number
        (counted_of_oversize .set ((not_fits_iff (by decide)).mpr large))
  | @inside kind line content rest count before unbroken header fewer whole deeper ih =>
    rw [parseOne_cons]
    obtain ⟨values, read⟩ := whole.reads rest
    have stopped : (parseOne floats).times count (content ++ rest) = .panic :=
      Parser.times_of_panic fewer read (by rwa [List.drop_left])
    obtain ⟨n, number,
        ⟨rfl, nonneg, rfl, reserved⟩ | ⟨rfl, rfl, reserved⟩ | ⟨rfl, rfl, reserved⟩⟩ :=
      collection_of_shape header
    · refine bind_number_of_panic (by decide) unbroken number ?_
      rw [if_neg nonneg]
      exact counted_of_panic .array reserved stopped
    · rw [← Parsed.extent_eq_panic, ← extent_times_parsePair, Parsed.extent_eq_panic] at stopped
      exact bind_number_of_panic (by decide) unbroken number
        (counted_of_panic .map reserved stopped)
    · exact bind_number_of_panic (by decide) unbroken number
        (counted_of_panic .set reserved stopped)

/-- The parser returns, with no more than it was given, if and only if it gets to no oversized
header. -/
theorem parse_within_iff (floats : F64Ops) (data : Bytes) :
    (Checked.parseOne floats data = .more ∨
        ∃ value used, Checked.parseOne floats data = .done value used ∧ used ≤ data.length) ↔
      ¬ Overreaches floats data := by
  rw [Checked.parseOne_eq]
  constructor
  · intro returned overreaches
    have panics := panic_of_overreaches overreaches
    obtain waits | ⟨value, used, done, -⟩ := returned
    · cases panics.symm.trans waits
    · cases panics.symm.trans done
  · intro safe
    cases ran : parseOne floats data with
    | more => exact .inl rfl
    | done value used => exact .inr ⟨value, used, rfl, (incremental_parseOne.done ran).1⟩
    | panic => exact absurd (overreaches_of_panic ran) safe

/-- An array with a great count, a map and a set with a negative one, also inside an array. -/
theorem oversized_headers_panic :
    let floats := CommandContext.plain.floats
    Checked.parseOne floats (ascii "*9223372036854775807\r\n") = .panic ∧
      Checked.parseOne floats (ascii "%-1\r\n") = .panic ∧
      Checked.parseOne floats (ascii "*2\r\n_\r\n~-1\r\n") = .panic := by
  decide

end Oversize

end Kvdb
