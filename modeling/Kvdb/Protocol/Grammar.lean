import Kvdb.Protocol.RoundTrip

/-!
# The grammar of messages

What a header line announces, the messages that follow from it, and the
beginnings of messages. The parser gives a value exactly on messages. It gives
none on a beginning, which more bytes complete, and none on malformed input,
which no bytes do.
-/

namespace Kvdb

open Data

section Shapes

/-- What a header line announces: nothing, a body of some length with two more
bytes, or a number of messages. -/
inductive Shape where
  | leaf
  | body (len : ℕ)
  | items (count : ℕ)
deriving DecidableEq

/-- The count of a collection whose elements take some space, if it can be
reserved. -/
def countOf (size : ℕ) (line : Bytes) : Option ℕ := do
  let count ← parseI64? line
  if count.toUInt64.toNat * size ≤ isizeMax then some (rounds count) else none

/-- What a line announces behind the byte of its kind, if it is well formed. -/
def shape (floats : F64Ops) (kind : UInt8) (line : Bytes) : Option Shape :=
  if kind = 0x2B then some .leaf
  else if kind = 0x2D then some .leaf
  else if kind = 0x3A then (parseI64? line).map fun _ => .leaf
  else if kind = 0x24 then
    (parseI64? line).map fun len => if len < 0 then .leaf else .body len.toUInt64.toNat
  else if kind = 0x2A then
    (parseI64? line).bind fun count =>
      if count < 0 then some .leaf else (countOf valueSize line).map .items
  else if kind = 0x5F then some .leaf
  else if kind = 0x23 then if line = ascii "t" ∨ line = ascii "f" then some .leaf else none
  else if kind = 0x2C then (floats.parse line).map fun _ => .leaf
  else if kind = 0x25 then (countOf (2 * valueSize) line).map fun count => .items (2 * count)
  else if kind = 0x7E then (countOf valueSize line).map .items
  else none

/-- What the line of a command announces: a simple string, a bulk string or an
array. -/
def cmdShape (kind : UInt8) (line : Bytes) : Option Shape :=
  if kind = 0x2B then some .leaf
  else if kind = 0x24 then
    (parseI64? line).bind fun len => if len < 0 then none else some (.body len.toUInt64.toNat)
  else if kind = 0x2A then
    (parseI64? line).bind fun count =>
      if count < 0 then none else (countOf valueSize line).map .items
  else none

variable (floats : F64Ops)

/-- The bytes are all that a header has announced. -/
inductive Filled : Shape → Bytes → Prop
  | leaf : Filled .leaf []
  | body {bytes : Bytes} {len : ℕ} (length : bytes.length = len + 2) : Filled (.body len) bytes
  | nil : Filled (.items 0) []
  | cons {kind : UInt8} {line content rest : Bytes} {inner : Shape} {count : ℕ}
      (unbroken : ¬ crlf <:+: line) (header : shape floats kind line = some inner)
      (inside : Filled inner content) (behind : Filled (.items count) rest) :
      Filled (.items (count + 1)) (kind :: (line ++ crlf ++ content) ++ rest)

/-- The text is the beginning of a line with a CR, and the line is well formed. -/
def LineBegun (header : UInt8 → Bytes → Option Shape) (kind : UInt8) (text : Bytes) : Prop :=
  ∃ line announced, ¬ crlf <:+: line ∧ header kind line = some announced ∧ text <+: line ++ [0x0D]

/-- The bytes begin what a header has announced, and are not all of it. -/
inductive Started : Shape → Bytes → Prop
  | body {bytes : Bytes} {len : ℕ} (short : bytes.length < len + 2) : Started (.body len) bytes
  | nil {count : ℕ} : Started (.items (count + 1)) []
  | line {kind : UInt8} {text : Bytes} {count : ℕ} (begun : LineBegun (shape floats) kind text) :
      Started (.items (count + 1)) (kind :: text)
  | inside {kind : UInt8} {line content : Bytes} {inner : Shape} {count : ℕ}
      (unbroken : ¬ crlf <:+: line) (header : shape floats kind line = some inner)
      (started : Started inner content) :
      Started (.items (count + 1)) (kind :: (line ++ crlf ++ content))
  | behind {kind : UInt8} {line content rest : Bytes} {inner : Shape} {count : ℕ}
      (unbroken : ¬ crlf <:+: line) (header : shape floats kind line = some inner)
      (inside : Filled floats inner content) (started : Started (.items count) rest) :
      Started (.items (count + 1)) (kind :: (line ++ crlf ++ content) ++ rest)

/-- A message with a header of some form. -/
def Framed (header : UInt8 → Bytes → Option Shape) (data : Bytes) : Prop :=
  ∃ kind line inner content, ¬ crlf <:+: line ∧ header kind line = some inner ∧
    Filled floats inner content ∧ data = kind :: (line ++ crlf ++ content)

/-- The beginning of a message with a header of some form. -/
def Begun (header : UInt8 → Bytes → Option Shape) (data : Bytes) : Prop :=
  data = [] ∨ (∃ kind text, LineBegun header kind text ∧ data = kind :: text) ∨
    ∃ kind line inner content, ¬ crlf <:+: line ∧ header kind line = some inner ∧
      Started floats inner content ∧ data = kind :: (line ++ crlf ++ content)

end Shapes

section Beginnings

variable {floats : F64Ops} {header : UInt8 → Bytes → Option Shape}

/-- A beginning of two pieces ends within the first or within the second. -/
theorem prefix_append_cases {τ : Type} {data first second : List τ}
    (begins : data <+: first ++ second) :
    (data <+: first ∧ data ≠ first) ∨ ∃ rest, data = first ++ rest ∧ rest <+: second := by
  obtain inside | beyond := List.prefix_or_prefix_of_prefix begins (List.prefix_append first second)
  · by_cases same : data = first
    · exact .inr ⟨[], by simp [same], List.nil_prefix⟩
    · exact .inl ⟨inside, same⟩
  · obtain ⟨rest, rfl⟩ := beyond
    exact .inr ⟨rest, rfl, (List.prefix_append_right_inj first).mp begins⟩

/-- Where a beginning of a message can end: at its start, in its line, in what the
line announces, or behind that. -/
theorem prefix_message_cases {data line content rest : Bytes} {kind : UInt8}
    (begins : data <+: kind :: (line ++ crlf ++ content) ++ rest) :
    data = [] ∨ (∃ text, data = kind :: text ∧ text <+: line ++ [0x0D]) ∨
      (∃ part, data = kind :: (line ++ crlf ++ part) ∧ part <+: content ∧ part ≠ content) ∨
      ∃ part, data = kind :: (line ++ crlf ++ content) ++ part ∧ part <+: rest := by
  cases data with
  | nil => exact .inl rfl
  | cons first text =>
    obtain ⟨rfl, tail⟩ := List.cons_prefix_cons.mp begins
    obtain ⟨inside, other⟩ | ⟨part, rfl, behind⟩ := prefix_append_cases tail
    · obtain ⟨inLine, short⟩ | ⟨part, rfl, inContent⟩ := prefix_append_cases inside
      · refine .inr (.inl ⟨text, rfl, ?_⟩)
        have split : line ++ crlf = (line ++ [0x0D]) ++ [0x0A] := by simp [crlf]
        rw [split] at inLine
        obtain ⟨begun, -⟩ | ⟨last, rfl, behind⟩ := prefix_append_cases inLine
        · exact begun
        · rcases List.prefix_cons_iff.mp behind with rfl | ⟨rest, rfl, nothing⟩
          · simp
          · obtain rfl := List.prefix_nil.mp nothing
            simp [crlf] at short
      · refine .inr (.inr (.inl ⟨part, rfl, inContent, ?_⟩))
        rintro rfl
        exact other rfl
    · exact .inr (.inr (.inr ⟨part, rfl, behind⟩))

/-- A part of an announced whole, from its front, has started. -/
theorem Filled.started {announced : Shape} {data whole : Bytes}
    (filled : Filled floats announced whole) (begins : data <+: whole) (proper : data ≠ whole) :
    Started floats announced data := by
  induction filled generalizing data with
  | leaf => exact absurd (List.prefix_nil.mp begins) proper
  | nil => exact absurd (List.prefix_nil.mp begins) proper
  | body length =>
    have shorter := begins.length_le
    have other : data.length ≠ _ := fun same => proper (begins.eq_of_length same)
    exact .body (by omega)
  | cons unbroken header inside behind inside_started behind_started =>
    obtain rfl | ⟨text, rfl, begun⟩ | ⟨part, rfl, within, short⟩ | ⟨part, rfl, further⟩ :=
      prefix_message_cases begins
    · exact .nil
    · exact .line ⟨_, _, unbroken, header, begun⟩
    · exact .inside unbroken header (inside_started within short)
    · refine .behind unbroken header inside (behind_started further ?_)
      rintro rfl
      exact proper rfl

/-- The smallest message, a null. -/
theorem filled_nulls (count : ℕ) : ∃ data, Filled floats (.items count) data := by
  induction count with
  | zero => exact ⟨[], .nil⟩
  | succ count ih =>
    obtain ⟨rest, behind⟩ := ih
    have null : shape floats 0x5F [] = some .leaf := rfl
    exact ⟨_, .cons (unbroken_of_not_mem (by decide)) null .leaf behind⟩

/-- Whatever a header announces can be sent. -/
theorem exists_filled (announced : Shape) : ∃ data, Filled floats announced data := by
  cases announced with
  | leaf => exact ⟨[], .leaf⟩
  | body len => exact ⟨List.replicate (len + 2) 0, .body (by simp)⟩
  | items count => exact filled_nulls count

/-- A line that has begun can be completed. -/
theorem LineBegun.complete {kind : UInt8} {text : Bytes} (begun : LineBegun header kind text) :
    ∃ later line announced, ¬ crlf <:+: line ∧ header kind line = some announced ∧
      text ++ later = line ++ crlf := by
  obtain ⟨line, announced, unbroken, wellFormed, later, whole⟩ := begun
  refine ⟨later ++ [0x0A], line, announced, unbroken, wellFormed, ?_⟩
  rw [← List.append_assoc, whole]
  simp [crlf]

/-- What has started can be completed. -/
theorem Started.complete {announced : Shape} {data : Bytes}
    (started : Started floats announced data) :
    ∃ later, Filled floats announced (data ++ later) := by
  induction started with
  | @body bytes len short =>
    exact ⟨List.replicate (len + 2 - bytes.length) 0, .body (by simp; omega)⟩
  | @nil count => exact filled_nulls (count + 1)
  | @line kind text count begun =>
    obtain ⟨later, line, inner, unbroken, header, whole⟩ := begun.complete
    obtain ⟨content, inside⟩ := @exists_filled floats inner
    obtain ⟨rest, behind⟩ := @filled_nulls floats count
    refine ⟨later ++ content ++ rest, ?_⟩
    have split : kind :: text ++ (later ++ content ++ rest) =
        kind :: (line ++ crlf ++ content) ++ rest := by
      rw [← whole]
      simp
    rw [split]
    exact .cons unbroken header inside behind
  | @inside kind line content inner count unbroken header _ ih =>
    obtain ⟨later, filled⟩ := ih
    obtain ⟨rest, behind⟩ := @filled_nulls floats count
    refine ⟨later ++ rest, ?_⟩
    have split : kind :: (line ++ crlf ++ content) ++ (later ++ rest) =
        kind :: (line ++ crlf ++ (content ++ later)) ++ rest := by simp
    rw [split]
    exact .cons unbroken header filled behind
  | behind unbroken header inside _ ih =>
    obtain ⟨later, filled⟩ := ih
    refine ⟨later, ?_⟩
    rw [List.append_assoc]
    exact .cons unbroken header inside filled

/-- A message is begun by what it starts with. -/
theorem Framed.begun {data whole : Bytes} (framed : Framed floats header whole)
    (begins : data <+: whole) (proper : data ≠ whole) : Begun floats header data := by
  obtain ⟨kind, line, inner, content, unbroken, wellFormed, filled, rfl⟩ := framed
  rw [← List.append_nil (kind :: _)] at begins
  obtain rfl | ⟨text, rfl, begun⟩ | ⟨part, rfl, begins, proper⟩ | ⟨part, rfl, nothing⟩ :=
    prefix_message_cases begins
  · exact .inl rfl
  · exact .inr (.inl ⟨kind, text, ⟨line, inner, unbroken, wellFormed, begun⟩, rfl⟩)
  · exact .inr
      (.inr ⟨kind, line, inner, part, unbroken, wellFormed, filled.started begins proper, rfl⟩)
  · obtain rfl := List.prefix_nil.mp nothing
    exact absurd (List.append_nil _) proper

/-- The beginning of a message can be completed. -/
theorem Begun.complete {data : Bytes} (begun : Begun floats header data)
    (some_message : ∃ whole, Framed floats header whole) :
    ∃ later, Framed floats header (data ++ later) := by
  obtain rfl | ⟨kind, text, begun, rfl⟩ | ⟨kind, line, inner, content, unbroken, wellFormed,
      started, rfl⟩ :=
    begun
  · exact some_message
  · obtain ⟨later, line, inner, unbroken, wellFormed, whole⟩ := begun.complete
    obtain ⟨content, filled⟩ := @exists_filled floats inner
    refine ⟨later ++ content, kind, line, inner, content, unbroken, wellFormed, filled, ?_⟩
    rw [← whole]
    simp
  · obtain ⟨later, filled⟩ := started.complete
    exact ⟨later, kind, line, inner, _, unbroken, wellFormed, filled, by simp⟩

end Beginnings

section Reading

variable {floats : F64Ops} {one : Reader RespValue}

theorem parsePair_apply (data : Bytes) :
    parsePair one data = (one data).andThen fun key used =>
      (one (data.drop used)).andThen fun value used' => .done (key, value) (used + used') := by
  rw [parsePair, Parser.bind_apply]
  refine Parsed.andThen_congr fun key used _ => ?_
  rw [Parser.bind_apply, Parsed.andThen_assoc]
  rfl

/-- Pairs are read as twice as many messages. -/
theorem andThen_times_parsePair {γ : Type} (next : ℕ → Parsed γ) (count : ℕ) (data : Bytes) :
    ((parsePair one).times count data).andThen (fun _ used => next used) =
      (one.times (2 * count) data).andThen fun _ used => next used := by
  induction count generalizing data next with
  | zero => rfl
  | succ count ih =>
    have twice : 2 * (count + 1) = 2 * count + 1 + 1 := rfl
    simp only [twice, Parser.times, Parser.bind_apply, parsePair_apply, Parsed.andThen_assoc]
    refine Parsed.andThen_congr fun key used _ => Parsed.andThen_congr fun value used' _ => ?_
    rw [List.drop_drop]
    have more := ih (fun further => next (used + used' + further)) (data.drop (used + used'))
    simpa only [Parsed.andThen, Parser.pure_apply, Nat.add_zero, Nat.add_assoc] using more

theorem extent_times_parsePair (count : ℕ) (data : Bytes) :
    ((parsePair one).times count data).extent = (one.times (2 * count) data).extent :=
  andThen_times_parsePair (.done ()) count data

/-- The parser takes what a header has announced. -/
def TakenBy (one : Reader RespValue) : Shape → Bytes → Prop
  | .leaf, content => content = []
  | .body len, content => content.length = len + 2
  | .items count, content => ∀ rest, ∃ values, one.times count (content ++ rest) =
      .done values content.length

theorem countOf_eq_some {size count : ℕ} {line : Bytes} (counted : countOf size line = some count) :
    ∃ n, parseI64? line = some n ∧ count = rounds n ∧
      ∀ data, reserve n size data = .done () 0 := by
  unfold countOf at counted
  obtain ⟨n, number, fits⟩ := Option.bind_eq_some_iff.mp counted
  split_ifs at fits with reserved
  refine ⟨n, number, (Option.some.inj fits).symm, fun data => ?_⟩
  rw [reserve, if_pos reserved]
  rfl

theorem parseNumber_of_some {line : Bytes} {n : Int64} (number : parseI64? line = some n) :
    parseNumber line = Pure.pure n := by
  rw [parseNumber, number]
  rfl

/-- The kinds of messages. -/
theorem kind_of_shape {kind : UInt8} {line : Bytes} {inner : Shape}
    (header : shape floats kind line = some inner) :
    kind = 0x2B ∨ kind = 0x2D ∨ kind = 0x3A ∨ kind = 0x24 ∨ kind = 0x2A ∨ kind = 0x5F ∨
      kind = 0x23 ∨ kind = 0x2C ∨ kind = 0x25 ∨ kind = 0x7E := by
  by_contra other
  simp only [not_or] at other
  simp [shape, other] at header

section Kinds

variable {kind : UInt8} {line content rest : Bytes} {inner : Shape}

/-- Going on behind a line with the number that was checked. -/
theorem bind_checked {α : Type} {next : Int64 → Reader α} {n : Int64} {data : Bytes} {result : α}
    {further : ℕ} (letter : kind ≠ 0x0D) (unbroken : ¬ crlf <:+: line)
    (number : parseI64? line = some n) (went : next n data = .done result further) :
    (parseLine >>= fun line => parseNumber line >>= next) (kind :: (line ++ crlf ++ data)) =
      .done result (line.length + 3 + further) := by
  refine bind_line letter unbroken ?_
  rw [parseNumber_of_some number]
  exact (Parser.bind_of_done_done rfl went).trans (by rw [Nat.zero_add])

/-- A collection is read if its items are. -/
theorem bind_counted {α : Type} {item : Reader α} (build : List α → RespValue) {n : Int64}
    {size used : ℕ} {data : Bytes} {items : List α}
    (reserved : ∀ data, reserve n size data = .done () 0)
    (ran : item.times (rounds n) data = .done items used) :
    (do
      reserve n size
      let items ← item.times (rounds n)
      return build items : Reader RespValue) data = .done (build items) used := by
  refine (Parser.bind_of_done_done (reserved data) ?_).trans (by rw [Nat.zero_add])
  exact Parser.map_of_done ran build

theorem length_message (kind : UInt8) (line content : Bytes) :
    (kind :: (line ++ crlf ++ content)).length = line.length + 3 + content.length := by
  simp [crlf]
  omega

/-- A reply that is no command has no header of one. -/
private theorem no_command {α β : Type} {a : α} :
    (none : Option β).isSome ↔ (none : Option α) = some a :=
  iff_of_false Bool.false_ne_true (Option.some_ne_none a).symm

/-- A message is read to the end of what its header announces. -/
theorem TakenBy.parse (unbroken : ¬ crlf <:+: line) (header : shape floats kind line = some inner)
    (reads : TakenBy (parseOne floats) inner content) (rest : Bytes) :
    ∃ value, parseOne floats (kind :: (line ++ crlf ++ content) ++ rest) =
        .done value (line.length + 3 + content.length) ∧
      ((argsOfValue value).isSome ↔ cmdShape kind line = some inner) := by
  have whole : kind :: (line ++ crlf ++ content) ++ rest =
      kind :: (line ++ crlf ++ (content ++ rest)) := by
    simp
  rw [whole, parseOne_cons]
  obtain rfl | rfl | rfl | rfl | rfl | rfl | rfl | rfl | rfl | rfl := kind_of_shape header
  · -- A simple string.
    cases header
    obtain rfl : content = [] := reads
    exact ⟨_, bind_line (by decide) unbroken rfl, iff_of_true rfl rfl⟩
  · -- An error.
    cases header
    obtain rfl : content = [] := reads
    exact ⟨_, bind_line (by decide) unbroken rfl, no_command⟩
  · -- An integer.
    obtain ⟨n, number, rfl⟩ := Option.map_eq_some_iff.mp header
    obtain rfl : content = [] := reads
    exact ⟨_, bind_checked (by decide) unbroken number rfl, no_command⟩
  · -- A bulk string.
    obtain ⟨len, number, rfl⟩ := Option.map_eq_some_iff.mp header
    have cmd : cmdShape 0x24 line = if len < 0 then none else some (.body len.toUInt64.toNat) :=
      congrArg (Option.bind · _) number
    by_cases negative : len < 0
    · rw [if_pos negative] at reads cmd
      obtain rfl : content = [] := reads
      refine ⟨.bulkString none, bind_checked (by decide) unbroken number ?_, ?_⟩
      · rw [if_pos negative]
        rfl
      · simp [cmd, argsOfValue]
    · rw [if_neg negative] at reads cmd ⊢
      have length : content.length = len.toUInt64.toNat + 2 := reads
      have body : parseBody len.toUInt64.toNat (content ++ rest) =
          .done (content.take len.toUInt64.toNat) content.length := by
        rw [parseBody, if_neg (by simp; omega), List.take_append_of_le_length (by omega), length]
      exact ⟨_, bind_checked (by decide) unbroken number (Parser.ite_of_not negative
        (Parser.map_of_done body fun body => RespValue.bulkString (some body))),
          iff_of_true rfl cmd⟩
  · -- An array.
    obtain ⟨n, number, announced⟩ := Option.bind_eq_some_iff.mp header
    have cmd : cmdShape 0x2A line =
        if n < 0 then none else (countOf valueSize line).map .items :=
      congrArg (Option.bind · _) number
    by_cases negative : n < 0
    · rw [if_pos negative] at announced cmd
      cases announced
      obtain rfl : content = [] := reads
      refine ⟨.null, bind_checked (by decide) unbroken number ?_, ?_⟩
      · rw [if_pos negative]
        rfl
      · simp [cmd, argsOfValue]
    · rw [if_neg negative] at announced cmd
      rw [announced] at cmd
      obtain ⟨count, counted, rfl⟩ := Option.map_eq_some_iff.mp announced
      obtain ⟨n', number', rfl, reserved⟩ := countOf_eq_some counted
      obtain rfl : n = n' := Option.some.inj (number.symm.trans number')
      obtain ⟨items, ran⟩ := reads rest
      exact ⟨_, bind_checked (by decide) unbroken number
        (Parser.ite_of_not negative (bind_counted .array reserved ran)), iff_of_true rfl cmd⟩
  · -- Null.
    cases header
    obtain rfl : content = [] := reads
    exact ⟨_, bind_line (by decide) unbroken rfl, no_command⟩
  · -- A boolean.
    have accepted : (if line = ascii "t" ∨ line = ascii "f" then some Shape.leaf else none) =
        some inner := header
    split_ifs at accepted with known
    cases accepted
    obtain rfl : content = [] := reads
    obtain rfl | rfl := known
    · exact ⟨.boolean true, bind_line (by decide) unbroken rfl, no_command⟩
    · exact ⟨.boolean false, bind_line (by decide) unbroken rfl, no_command⟩
  · -- A double.
    obtain ⟨f, parsed, rfl⟩ := Option.map_eq_some_iff.mp header
    obtain rfl : content = [] := reads
    refine ⟨.double f, bind_line (by decide) unbroken ?_, no_command⟩
    rw [parsed]
    rfl
  · -- A map.
    obtain ⟨count, counted, rfl⟩ := Option.map_eq_some_iff.mp header
    obtain ⟨n, number, rfl, reserved⟩ := countOf_eq_some counted
    obtain ⟨values, read⟩ := reads rest
    obtain ⟨pairs, ran⟩ := Parsed.extent_eq_done.mp
      ((extent_times_parsePair _ _).trans (Parsed.extent_eq_done.mpr ⟨values, read⟩))
    exact ⟨_, bind_checked (by decide) unbroken number (bind_counted .map reserved ran), no_command⟩
  · -- A set.
    obtain ⟨count, counted, rfl⟩ := Option.map_eq_some_iff.mp header
    obtain ⟨n, number, rfl, reserved⟩ := countOf_eq_some counted
    obtain ⟨items, ran⟩ := reads rest
    exact ⟨_, bind_checked (by decide) unbroken number (bind_counted .set reserved ran), no_command⟩

/-- The parser takes all that a header has announced. -/
theorem Filled.reads {announced : Shape} {data : Bytes} (filled : Filled floats announced data) :
    TakenBy (parseOne floats) announced data := by
  induction filled with
  | leaf => rfl
  | body length => exact length
  | nil => exact fun rest => ⟨[], rfl⟩
  | @cons kind line content rest inner count unbroken header _ _ inside behind =>
    intro later
    obtain ⟨value, ran, -⟩ := inside.parse unbroken header (rest ++ later)
    obtain ⟨values, went⟩ := behind later
    rw [← length_message] at ran
    refine ⟨value :: values, ?_⟩
    rw [List.append_assoc, List.length_append]
    refine Parser.times_succ_of_done ran ?_
    rw [List.drop_left]
    exact went

end Kinds

end Reading

section Soundness

variable {floats : F64Ops} {one : Reader RespValue}

theorem findCrlf_eq_some {data : Bytes} {pos : ℕ} (found : findCrlf data = some pos) :
    ∃ line rest, data = line ++ crlf ++ rest ∧ line.length = pos ∧ ¬ crlf <:+: line := by
  fun_induction findCrlf data generalizing pos with
  | case1 a b rest here =>
    obtain ⟨rfl, rfl⟩ := here
    cases found
    exact ⟨[], rest, rfl, rfl, by simp [crlf]⟩
  | case2 a b rest other ih =>
    obtain ⟨before, earlier, rfl⟩ := Option.map_eq_some_iff.mp found
    obtain ⟨line, later, split, length, unbroken⟩ := ih earlier
    refine ⟨a :: line, later, by rw [split]; rfl, by simp [length], fun inside => ?_⟩
    obtain begins | within := List.infix_cons_iff.mp inside
    · -- A pair across the first byte would have been found here.
      obtain ⟨rfl, next⟩ := List.cons_prefix_cons.mp begins
      cases line with
      | nil => simp at next
      | cons c line =>
        obtain ⟨rfl, -⟩ := List.cons_prefix_cons.mp next
        obtain ⟨rfl, -⟩ := List.cons.inj split
        exact other ⟨rfl, rfl⟩
    · exact unbroken within
  | case3 => cases found

/-- A line that was read stands between its kind and a CR LF. -/
theorem parseLine_eq_done {kind : UInt8} {text line : Bytes} {used : ℕ} (letter : kind ≠ 0x0D)
    (ran : parseLine (kind :: text) = .done line used) :
    ∃ rest, kind :: text = kind :: (line ++ crlf ++ rest) ∧ ¬ crlf <:+: line ∧
      used = line.length + 3 ∧ (kind :: text).drop used = rest := by
  unfold parseLine at ran
  cases found : findCrlf (kind :: text) with
  | none => simp [found] at ran
  | some pos =>
    simp only [found, Parsed.done.injEq] at ran
    obtain ⟨rfl, rfl⟩ := ran
    obtain ⟨whole, rest, split, rfl, unbroken⟩ := findCrlf_eq_some found
    cases whole with
    | nil => exact absurd (List.cons.inj split).1 letter
    | cons first whole =>
      obtain ⟨rfl, rfl⟩ := List.cons.inj split
      refine ⟨rest, by simp, ?_, by simp, by simp [crlf]⟩
      simpa using fun inside => unbroken (List.infix_cons inside)

/-- What stands behind a header was announced by it. -/
def Announced (floats : F64Ops) (kind : UInt8) (line data : Bytes) (used : ℕ) : Prop :=
  ∃ inner content rest, shape floats kind line = some inner ∧ Filled floats inner content ∧
    data = content ++ rest ∧ used = content.length

theorem announced_leaf {kind : UInt8} {line data : Bytes}
    (header : shape floats kind line = some .leaf) :
    Announced floats kind line data 0 :=
  ⟨.leaf, [], data, header, .leaf, rfl, rfl⟩

theorem parseNumber_eq_done {α : Type} {next : Int64 → Reader α} {line data : Bytes} {result : α}
    {used : ℕ} (ran : (parseNumber line >>= next) data = .done result used) :
    ∃ n, parseI64? line = some n ∧ next n data = .done result used := by
  obtain ⟨n, taken, further, number, went, rfl⟩ := Parser.bind_eq_done ran
  unfold parseNumber at number
  cases found : parseI64? line with
  | none => simp [found, Parser.more] at number
  | some n' =>
    simp only [found, Parser.ofOption_some, Parser.pure_apply, Parsed.done.injEq] at number
    obtain ⟨rfl, rfl⟩ := number
    rw [List.drop_zero] at went
    exact ⟨n', rfl, by rw [Nat.zero_add]; exact went⟩

/-- A collection that was read had its capacity reserved. -/
theorem counted_eq_done {α : Type} {item : Reader α} {build : List α → RespValue}
    {line data : Bytes} {n : Int64} {size used : ℕ} {value : RespValue}
    (number : parseI64? line = some n) (ran : (do
      reserve n size
      let items ← item.times (rounds n)
      return build items : Reader RespValue) data = .done value used) :
    countOf size line = some (rounds n) ∧ ∃ items, item.times (rounds n) data =
      .done items used := by
  obtain ⟨_, taken, further, reserved, went, rfl⟩ := Parser.bind_eq_done ran
  unfold reserve at reserved
  by_cases fits : n.toUInt64.toNat * size ≤ isizeMax
  · rw [if_pos fits] at reserved
    cases reserved
    obtain ⟨items, times, -⟩ := Parser.map_eq_done went
    refine ⟨?_, items, by rw [Nat.zero_add]; exact times⟩
    simp [countOf, number, fits]
  · rw [if_neg fits] at reserved
    cases reserved

def HasMessage (floats : F64Ops) (data : Bytes) (used : ℕ) : Prop :=
  ∃ kind line content rest inner, ¬ crlf <:+: line ∧ shape floats kind line = some inner ∧
    Filled floats inner content ∧ data = kind :: (line ++ crlf ++ content) ++ rest ∧
    used = line.length + 3 + content.length

/-- The messages that were read one after the other fill a collection. -/
theorem filled_of_times {count used : ℕ} {data : Bytes} {items : List RespValue}
    (each : ∀ data' : Bytes, data'.length ≤ data.length → ∀ value used,
      parseOne floats data' = .done value used → HasMessage floats data' used)
    (ran : (parseOne floats).times count data = .done items used) :
    ∃ content rest, Filled floats (.items count) content ∧ data = content ++ rest ∧
      used = content.length := by
  induction count generalizing data used items with
  | zero =>
    cases ran
    exact ⟨[], data, .nil, rfl, rfl⟩
  | succ count ih =>
    obtain ⟨value, others, first, further, ranFirst, ranOthers, -, rfl⟩ :=
      Parser.times_succ_eq_done ran
    obtain ⟨kind, line, content, rest, inner, unbroken, header, inside, rfl, rfl⟩ :=
      each data le_rfl value first ranFirst
    rw [← length_message, List.drop_left] at ranOthers
    obtain ⟨filling, later, behind, rfl, rfl⟩ :=
      ih (fun data' shorter => each data' (by simp at shorter ⊢; omega)) ranOthers
    exact ⟨_, later, .cons unbroken header inside behind, by simp,
      by rw [← length_message, List.length_append]⟩

/-- A parser whose value comes behind a line has read a message, if what it takes
behind the line was announced. -/
theorem hasMessage_of_line {next : Bytes → Reader RespValue} {kind : UInt8} {text : Bytes}
    {value : RespValue} {used : ℕ} (letter : kind ≠ 0x0D)
    (ran : (parseLine >>= next) (kind :: text) = .done value used)
    (announced : ∀ line data further, data.length < (kind :: text).length →
      next line data = .done value further → Announced floats kind line data further) :
    HasMessage floats (kind :: text) used := by
  obtain ⟨line, taken, further, started, went, rfl⟩ := Parser.bind_eq_done ran
  obtain ⟨rest, split, unbroken, rfl, behind⟩ := parseLine_eq_done letter started
  rw [behind] at went
  have shorter : rest.length < (kind :: text).length := by
    rw [split]
    simp
    omega
  obtain ⟨inner, content, later, header, filled, rfl, rfl⟩ :=
    announced line rest further shorter went
  exact ⟨kind, line, content, later, inner, unbroken, header, filled, by rw [split]; simp, rfl⟩

theorem kind_of_parseKind {kind : UInt8} {data : Bytes} {value : RespValue} {used : ℕ}
    (ran : parseKind one floats kind data = .done value used) :
    kind = 0x2B ∨ kind = 0x2D ∨ kind = 0x3A ∨ kind = 0x24 ∨ kind = 0x2A ∨ kind = 0x5F ∨
      kind = 0x23 ∨ kind = 0x2C ∨ kind = 0x25 ∨ kind = 0x7E := by
  by_contra other
  simp only [not_or] at other
  simp [parseKind, other, Parser.more] at ran

/-- What the parser reads is a message. -/
theorem hasMessage_of_parseOne {data : Bytes} {value : RespValue} {used : ℕ}
    (ran : parseOne floats data = .done value used) : HasMessage floats data used := by
  induction size : data.length using Nat.strong_induction_on generalizing data value used with
  | _ size ih =>
    subst size
    cases data with
    | nil => cases ran
    | cons kind text =>
      have each {data : Bytes} (shorter : data.length < (kind :: text).length) :
          ∀ data' : Bytes, data'.length ≤ data.length → ∀ value used,
            parseOne floats data' = .done value used → HasMessage floats data' used :=
        fun data' short value used ran => ih data'.length (by omega) ran rfl
      rw [parseOne_cons] at ran
      obtain rfl | rfl | rfl | rfl | rfl | rfl | rfl | rfl | rfl | rfl := kind_of_parseKind ran
      · -- A simple string.
        refine hasMessage_of_line (by decide) ran fun line data further _ went => ?_
        cases went
        exact announced_leaf rfl
      · -- An error.
        refine hasMessage_of_line (by decide) ran fun line data further _ went => ?_
        cases went
        exact announced_leaf rfl
      · -- An integer.
        refine hasMessage_of_line (by decide) ran fun line data further _ went => ?_
        obtain ⟨n, number, done⟩ := parseNumber_eq_done went
        cases done
        exact announced_leaf (congrArg (Option.map _) number)
      · -- A bulk string.
        refine hasMessage_of_line (by decide) ran fun line data further _ went => ?_
        obtain ⟨len, number, body⟩ := parseNumber_eq_done went
        have header : shape floats 0x24 line =
            some (if len < 0 then .leaf else .body len.toUInt64.toNat) :=
          congrArg (Option.map _) number
        by_cases negative : len < 0
        · rw [if_pos negative] at body header
          cases body
          exact announced_leaf header
        · rw [if_neg negative] at body header
          obtain ⟨bytes, taken, -⟩ := Parser.map_eq_done body
          unfold parseBody at taken
          split_ifs at taken with short
          cases taken
          exact ⟨_, data.take (len.toUInt64.toNat + 2), data.drop (len.toUInt64.toNat + 2), header,
            .body (by simp; omega), (List.take_append_drop _ _).symm, by simp; omega⟩
      · -- An array.
        refine hasMessage_of_line (by decide) ran fun line data further shorter went => ?_
        obtain ⟨n, number, items⟩ := parseNumber_eq_done went
        have header : shape floats 0x2A line =
            if n < 0 then some .leaf else (countOf valueSize line).map .items :=
          congrArg (Option.bind · _) number
        by_cases negative : n < 0
        · rw [if_pos negative] at items header
          cases items
          exact announced_leaf header
        · rw [if_neg negative] at items header
          obtain ⟨counted, values, times⟩ := counted_eq_done number items
          obtain ⟨content, rest, filled, split, used⟩ := filled_of_times (each shorter) times
          exact ⟨_, content, rest, by rw [header, counted]; rfl, filled, split, used⟩
      · -- Null.
        refine hasMessage_of_line (by decide) ran fun line data further _ went => ?_
        cases went
        exact announced_leaf rfl
      · -- A boolean.
        refine hasMessage_of_line (by decide) ran fun line data further _ went => ?_
        have header : shape floats 0x23 line =
            if line = ascii "t" ∨ line = ascii "f" then some Shape.leaf else none := rfl
        by_cases yes : line = ascii "t"
        · rw [if_pos yes] at went
          cases went
          exact announced_leaf (header.trans (if_pos (.inl yes)))
        · rw [if_neg yes] at went
          by_cases no : line = ascii "f"
          · rw [if_pos no] at went
            cases went
            exact announced_leaf (header.trans (if_pos (.inr no)))
          · rw [if_neg no] at went
            cases went
      · -- A double.
        refine hasMessage_of_line (by decide) ran fun line data further _ went => ?_
        cases parsed : floats.parse line with
        | none =>
          rw [parsed] at went
          cases went
        | some f =>
          rw [parsed] at went
          cases went
          exact announced_leaf (congrArg (Option.map _) parsed)
      · -- A map.
        refine hasMessage_of_line (by decide) ran fun line data further shorter went => ?_
        obtain ⟨n, number, items⟩ := parseNumber_eq_done went
        obtain ⟨counted, pairs⟩ := counted_eq_done number items
        obtain ⟨values, times⟩ := Parsed.extent_eq_done.mp
          ((extent_times_parsePair _ _).symm.trans (Parsed.extent_eq_done.mpr pairs))
        obtain ⟨content, rest, filled, split, used⟩ := filled_of_times (each shorter) times
        exact ⟨_, content, rest, congrArg (Option.map _) counted, filled, split, used⟩
      · -- A set.
        refine hasMessage_of_line (by decide) ran fun line data further shorter went => ?_
        obtain ⟨n, number, items⟩ := parseNumber_eq_done went
        obtain ⟨counted, values, times⟩ := counted_eq_done number items
        obtain ⟨content, rest, filled, split, used⟩ := filled_of_times (each shorter) times
        exact ⟨_, content, rest, congrArg (Option.map _) counted, filled, split, used⟩

end Soundness

section Incomplete

variable {floats : F64Ops} {header : UInt8 → Bytes → Option Shape} {data : Bytes}

/-- The headers of commands are headers of messages. -/
theorem shape_of_cmdShape {kind : UInt8} {line : Bytes} {inner : Shape}
    (command : cmdShape kind line = some inner) : shape floats kind line = some inner := by
  have known : kind = 0x2B ∨ kind = 0x24 ∨ kind = 0x2A := by
    by_contra other
    simp only [not_or] at other
    simp [cmdShape, other] at command
  obtain rfl | rfl | rfl := known
  · exact command
  · obtain ⟨len, number, accepted⟩ := Option.bind_eq_some_iff.mp command
    split_ifs at accepted with negative
    refine (congrArg (Option.map _) number).trans ?_
    rw [Option.map_some, if_neg negative]
    exact accepted
  · obtain ⟨n, number, accepted⟩ := Option.bind_eq_some_iff.mp command
    split_ifs at accepted with negative
    refine (congrArg (Option.bind · _) number).trans ?_
    rw [Option.bind_some, if_neg negative]
    exact accepted

/-- A message is read, whatever follows it. -/
theorem Framed.parseOne {message : Bytes} (framed : Framed floats (shape floats) message)
    (rest : Bytes) :
    ∃ value, Kvdb.parseOne floats (message ++ rest) = .done value message.length := by
  obtain ⟨kind, line, inner, content, unbroken, header, filled, rfl⟩ := framed
  obtain ⟨value, ran, -⟩ := filled.reads.parse unbroken header rest
  exact ⟨value, ran.trans (by rw [length_message])⟩

/-- A message with the header of a command is read as one. -/
theorem Framed.parseCmd {message : Bytes} (framed : Framed floats cmdShape message) (rest : Bytes) :
    ∃ args, Kvdb.parseCmd floats (message ++ rest) = .done args message.length := by
  obtain ⟨kind, line, inner, content, unbroken, header, filled, rfl⟩ := framed
  obtain ⟨value, ran, command⟩ := filled.reads.parse unbroken (shape_of_cmdShape header) rest
  obtain ⟨args, accepted⟩ := Option.isSome_iff_exists.mp (command.mpr header)
  refine ⟨args, (Parser.bind_of_done_done ran ?_).trans (by rw [Nat.add_zero, length_message])⟩
  rw [accepted]
  rfl

theorem framed_of_parseOne {value : RespValue} {used : ℕ}
    (ran : parseOne floats data = .done value used) :
    ∃ message rest, Framed floats (shape floats) message ∧ data = message ++ rest := by
  obtain ⟨kind, line, content, rest, inner, unbroken, header, filled, split, -⟩ :=
    hasMessage_of_parseOne ran
  exact ⟨_, rest, ⟨kind, line, inner, content, unbroken, header, filled, rfl⟩, split⟩

theorem framed_of_parseCmd {args : List Bytes} {used : ℕ}
    (ran : parseCmd floats data = .done args used) :
    ∃ message rest, Framed floats cmdShape message ∧ data = message ++ rest := by
  obtain ⟨value, taken, further, read, accepted, rfl⟩ := Parser.bind_eq_done ran
  obtain ⟨kind, line, content, rest, inner, unbroken, header, filled, rfl, rfl⟩ :=
    hasMessage_of_parseOne read
  obtain ⟨value', read', command⟩ := filled.reads.parse unbroken header rest
  obtain rfl : value = value' := (Parsed.done.inj (read.symm.trans read')).1
  have isCommand : (argsOfValue value).isSome := by
    cases found : argsOfValue value with
    | none =>
      rw [found] at accepted
      cases accepted
    | some => rfl
  exact ⟨_, rest, ⟨kind, line, inner, content, unbroken, command.mp isCommand, filled, rfl⟩, rfl⟩

/-- Input without a value can be completed if and only if it begins a message. -/
theorem completed_iff_begun {α : Type} {parser : Reader α} (waits : parser data = .more)
    (complete : ∀ {message}, Framed floats header message → ∀ rest, ∃ value,
      parser (message ++ rest) = .done value message.length)
    (sound : ∀ {data value used}, parser data = .done value used →
      ∃ message rest, Framed floats header message ∧ data = message ++ rest)
    (some_message : ∃ message, Framed floats header message) :
    (∃ later value used, parser (data ++ later) = .done value used) ↔ Begun floats header data := by
  constructor
  · rintro ⟨later, value, used, ran⟩
    obtain ⟨message, rest, framed, split⟩ := sound ran
    have begins : message <+: data ++ later := ⟨rest, split.symm⟩
    obtain shorter | longer :=
      List.prefix_or_prefix_of_prefix (List.prefix_append data later) begins
    · refine framed.begun shorter ?_
      rintro rfl
      obtain ⟨value, ran⟩ := complete framed []
      rw [List.append_nil, waits] at ran
      cases ran
    · obtain ⟨more, rfl⟩ := longer
      obtain ⟨value, ran⟩ := complete framed more
      rw [waits] at ran
      cases ran
  · intro begun
    obtain ⟨later, framed⟩ := begun.complete some_message
    obtain ⟨value, ran⟩ := complete framed []
    rw [List.append_nil] at ran
    exact ⟨later, value, _, ran⟩

/-- No value means that more bytes can complete the input exactly on the beginnings
of messages, for messages of all kinds and for commands. -/
theorem none_iff_begun (floats : F64Ops) (data : Bytes) :
    (parseOne floats data = .more →
      ((∃ later value used, parseOne floats (data ++ later) = .done value used) ↔
        Begun floats (shape floats) data)) ∧
    (parseCmd floats data = .more →
      ((∃ later args used, parseCmd floats (data ++ later) = .done args used) ↔
        Begun floats cmdShape data)) := by
  have simple {header : UInt8 → Bytes → Option Shape} (accepts : header 0x2B [] = some .leaf) :
      ∃ message, Framed floats header message :=
    ⟨_, 0x2B, [], .leaf, [], by simp [crlf], accepts, .leaf, rfl⟩
  constructor
  · intro waits
    exact completed_iff_begun waits Framed.parseOne framed_of_parseOne (simple rfl)
  · intro waits
    exact completed_iff_begun waits Framed.parseCmd framed_of_parseCmd (simple rfl)

theorem none_iff_begun_of_half_ping :
    let floats := CommandContext.plain.floats
    parseCmd floats (ascii "*1\r\n$4\r\nPI") = .more ∧
      Begun floats cmdShape (ascii "*1\r\n$4\r\nPI") ∧
      parseOne floats (ascii "*1\r\n$4\r\nPI") = .more ∧
      Begun floats (shape floats) (ascii "*1\r\n$4\r\nPI") := by
  intro floats
  have waits : parseCmd floats (ascii "*1\r\n$4\r\nPI") = .more := by decide
  have waits' : parseOne floats (ascii "*1\r\n$4\r\nPI") = .more := by decide
  obtain ⟨message, command⟩ := none_iff_begun floats (ascii "*1\r\n$4\r\nPI")
  refine ⟨waits, (command waits).mp ⟨ascii "NG\r\n", [ascii "PING"], 14, ?_⟩, waits',
    (message waits').mp ⟨ascii "NG\r\n", .array [.bulkString (some (ascii "PING"))], 14, ?_⟩⟩ <;>
    decide

/-- A byte that begins no message, a number that is none, and a number in the place
of a command: no more bytes give a value, and the connection waits for ever. -/
theorem malformed_waits_for_ever :
    let floats := CommandContext.plain.floats
    (∀ later, parseOne floats (ascii "!\r\n" ++ later) = .more) ∧
      (∀ later, parseOne floats (ascii ":12a\r\n" ++ later) = .more) ∧
      ∀ later, parseCmd floats (ascii ":1\r\n" ++ later) = .more :=
  ⟨fun _ => rfl, fun _ => rfl, fun _ => rfl⟩

end Incomplete

end Kvdb
