import Kvdb.Data.Sparse
import Kvdb.Protocol.RoundTrip

/-!
# Replies as values of a script

A script sees the reply to a command as a Lua value, and what it returns becomes a reply
again. A null at the end of an array leaves no trace in a table, and a string that is not
UTF-8 is changed on its way back. Nothing else is lost of the replies that are built from
integers, strings and arrays.
-/

namespace Kvdb.Lua

open Data

section Tables

/-- A Lua value. A table is the list of its entries. -/
inductive Value where
  | nil
  | boolean (value : Bool)
  | integer (value : Int64)
  | number (value : F64)
  | string (bytes : Bytes)
  | table (entries : List (Value × Value))
  /-- A function, a thread or user data. -/
  | other

/-- The integer that a float is, if it is one in the range of `i64`. -/
def toInteger? (x : F64) : Option Int64 :=
  let exponent := x.magnitude / 2 ^ 52
  let fraction := x.magnitude % 2 ^ 52
  let whole : Option ℕ :=
    if x.magnitude = 0 then some 0
    else if exponent = 0 ∨ 1086 < exponent then none
    else if 1075 ≤ exponent then some ((2 ^ 52 + fraction) * 2 ^ (exponent - 1075))
    else if (2 ^ 52 + fraction) % 2 ^ (1075 - exponent) = 0 then
      some ((2 ^ 52 + fraction) / 2 ^ (1075 - exponent))
    else none
  whole.bind fun n =>
    let signed : ℤ := if x.isNegative then -n else n
    if -2 ^ 63 ≤ signed ∧ signed < 2 ^ 63 then some (Int64.ofInt signed) else none

/-- The key a value stands for: a float that is an integer is that integer. -/
def Value.normal : Value → Value
  | .number x => (toInteger? x).elim (.number x) .integer
  | key => key

/-- Two keys are the same. Each table is one of its own. -/
def Value.same : Value → Value → Bool
  | .boolean a, .boolean b => a = b
  | .integer m, .integer n => m = n
  | .number x, .number y => x = y
  | .string s, .string t => s = t
  | _, _ => false

def assign (entries : List (Value × Value)) (key value : Value) : List (Value × Value) :=
  let others := entries.filter fun entry => !entry.1.same key
  match value with
  | .nil => others
  | value => others ++ [(key, value)]

/-- `table.set`, with the message of the error. -/
def set (entries : List (Value × Value)) (key value : Value) :
    Except String (List (Value × Value)) :=
  match key with
  | .nil => .error "table index is nil"
  | .number x =>
    if x.isNan then .error "table index is NaN" else .ok
      (assign entries (Value.number x).normal value)
  | key => .ok (assign entries key value)

end Tables

section Conversions

mutual

/-- The value of a reply, or the message of a Lua error. -/
def luaValueFromResp : RespValue → Except String Value
  | .simpleString s | .error s => .ok (.string (utf8 s))
  | .integer n => .ok (.integer n)
  | .bulkString none => .ok .nil
  | .bulkString (some b) => .ok (.string b)
  | .null => .ok .nil
  | .boolean b => .ok (.boolean b)
  | .double f => .ok (.number f)
  | .array items => (setItems items 0 []).map .table
  | .map pairs => (setPairs pairs []).map .table
  | .set items => (setItems items 0 []).map .table

/-- The loop over the items of an array or a set. -/
def setItems : List RespValue → ℕ → List (Value × Value) → Except String (List (Value × Value))
  | [], _, table => .ok table
  | item :: items, i, table => do
    let value ← luaValueFromResp item
    let table ← set table (.integer (Int64.ofNat (i + 1))) value
    setItems items (i + 1) table

/-- The loop over the pairs of a map. -/
def setPairs : List (RespValue × RespValue) → List (Value × Value) →
    Except String (List (Value × Value))
  | [], table => .ok table
  | (k, v) :: pairs, table => do
    let key ← luaValueFromResp k
    let value ← luaValueFromResp v
    let table ← set table key value
    setPairs pairs table

end

/-- An entry of a table, with its key and its value as replies. -/
structure Entry where
  key : Value
  keyReply : RespValue
  reply : RespValue

/-- The order in which the entries of a table are visited. -/
def Order : Type := { order : List Entry → List Entry // ∀ entries, (order entries).Perm entries }

/-- `arr[idx - 1] = value`, where `arr` grows to the index before. The growth panics beyond
the greatest allocation. -/
def place (arr : List RespValue) (idx : ℕ) (value : RespValue) : Except Fault (List RespValue) :=
  if arr.length < idx then
    if idx * valueSize ≤ isizeMax then
      .ok ((arr ++ List.replicate (idx - arr.length) RespValue.null).set (idx - 1) value)
    else .error .panic
  else .ok (arr.set (idx - 1) value)

/-- The loop over the entries of a table: the pairs of a map, the items of an array, and the
greatest index. -/
def collect : List Entry → List (RespValue × RespValue) → List RespValue → Int64 →
    Except Fault (List (RespValue × RespValue) × List RespValue × Int64)
  | [], map, arr, maxIndex => .ok (map, arr, maxIndex)
  | entry :: entries, map, arr, maxIndex =>
    match entry.key with
    | .integer idx =>
      if 0 < idx then do
        let arr ← place arr idx.toInt.toNat entry.reply
        collect entries map arr (if maxIndex < idx then idx else maxIndex)
      else collect entries (map ++ [(entry.keyReply, entry.reply)]) arr maxIndex
    | _ => collect entries (map ++ [(entry.keyReply, entry.reply)]) arr maxIndex

variable (order : Order)

mutual

def respValueFromLua : Value → Except Fault RespValue
  | .nil => .ok .null
  | .boolean b => .ok (.boolean b)
  | .integer n => .ok (.integer n)
  | .number x => .ok (.double x)
  | .string s => .ok (.bulkString (some (utf8 (fromUtf8Lossy s))))
  | .table entries => do
    let entries ← respEntries entries
    let (map, arr, maxIndex) ← collect (order.1 entries) [] [] 0
    if map.isEmpty ∧ 0 < maxIndex then return .array arr
    else if ¬ map.isEmpty then return .map map
    else return .array []
  | .other => .ok .null

def respEntries : List (Value × Value) → Except Fault (List Entry)
  | [] => .ok []
  | (k, v) :: entries => do
    let keyReply ← respValueFromLua k
    let reply ← respValueFromLua v
    let rest ← respEntries entries
    return ⟨k, keyReply, reply⟩ :: rest

end

end Conversions

section Arrays

variable {arr : List RespValue} {entries : List Entry}

theorem place_eq {k : ℕ} {value : RespValue} (fits : (k + 1) * valueSize ≤ isizeMax) :
    place arr (k + 1) value = .ok (putAt .null arr k value) := by
  rw [place, putAt, Nat.add_sub_cancel]
  split_ifs with longer
  · rfl
  · rw [Nat.sub_eq_zero_of_le (Nat.not_lt.mp longer), List.replicate_zero, List.append_nil]

/-- The key of the item in a place of an array. -/
def keyAt (k : ℕ) : Value := .integer (Int64.ofNat (k + 1))

def Entry.At (entry : Entry) (k : ℕ) : Prop :=
  entry.key = keyAt k ∧ (k + 1) * valueSize ≤ isizeMax

theorem toInt_ofNat_succ {k : ℕ} (fits : (k + 1) * valueSize ≤ isizeMax) :
    (Int64.ofNat (k + 1)).toInt = k + 1 := by
  rw [valueSize, isizeMax] at fits
  have bound : k + 1 < 2 ^ 63 := by omega
  rw [Int64.toInt_ofNat_of_lt bound]
  rfl

theorem keyAt_inj {j k : ℕ} (fits : (j + 1) * valueSize ≤ isizeMax)
    (fits' : (k + 1) * valueSize ≤ isizeMax) (same : keyAt j = keyAt k) : j = k := by
  have equal := congrArg Int64.toInt (Value.integer.inj same)
  rw [toInt_ofNat_succ fits, toInt_ofNat_succ fits'] at equal
  omega

/-- The entries of an array, in whatever order they come. -/
theorem collect_eq (map : List (RespValue × RespValue)) (maxIndex : Int64)
    (slots : ∀ entry ∈ entries, entry.reply ≠ .null ∧ ∃ k, entry.At k)
    (distinct : entries.Pairwise fun entry entry' => entry.key ≠ entry'.key)
    (trimmed : Trimmed .null arr) :
    ∃ arr' maxIndex', collect entries map arr maxIndex = .ok (map, arr', maxIndex') ∧
      Trimmed .null arr' ∧
      (∀ entry ∈ entries, ∀ k, entry.At k → itemAt .null arr' k = entry.reply) ∧
      (∀ k, (∀ entry ∈ entries, ¬ entry.At k) → itemAt .null arr' k = itemAt .null arr k) ∧
      (0 < maxIndex' ↔ entries ≠ [] ∨ 0 < maxIndex) := by
  induction entries generalizing arr maxIndex with
  | nil => exact ⟨arr, maxIndex, rfl, trimmed, by simp, fun _ _ => rfl, by simp⟩
  | cons entry entries ih =>
    obtain ⟨some, k, key, fits⟩ := slots entry (by simp)
    have index := toInt_ofNat_succ fits
    have positive : 0 < Int64.ofNat (k + 1) := by
      rw [Int64.lt_iff_toInt_lt, index]
      exact Int.natCast_succ_pos k
    rw [List.pairwise_cons] at distinct
    obtain ⟨arr', maxIndex', collected, trimmed', placed, kept, greatest⟩ :=
      ih (if maxIndex < Int64.ofNat (k + 1) then Int64.ofNat (k + 1) else maxIndex)
        (fun other mem => slots other (by simp [mem])) distinct.2 (trimmed.putAt some k)
    refine ⟨arr', maxIndex', ?_, trimmed', ?_, ?_, ?_⟩
    · simp only [collect, key, keyAt, if_pos positive, index, ← Nat.cast_succ, Int.toNat_natCast,
        place_eq fits]
      exact collected
    · -- No later entry has the same key.
      intro other mem j here
      rcases List.mem_cons.mp mem with rfl | later
      · obtain rfl : j = k := keyAt_inj here.2 fits (here.1.symm.trans key)
        rw [kept j fun later mem at' => distinct.1 later mem (here.1.trans at'.1.symm),
          itemAt_putAt, if_pos rfl]
      · exact placed other later j here
    · intro j elsewhere
      rw [kept j fun later mem => elsewhere later (by simp [mem]), itemAt_putAt, if_neg]
      rintro rfl
      exact elsewhere entry (by simp) ⟨key, fits⟩
    · refine greatest.trans (iff_of_true (Or.inr ?_) (Or.inl (List.cons_ne_nil _ _)))
      split_ifs with greater
      · exact positive
      · exact Int64.lt_of_lt_of_le positive (Int64.not_lt.mp greater)

end Arrays

section Items

variable {items replies : List RespValue} {values : List Value}

/-- The entries of the table of an array, where nil is not stored. -/
def entriesFrom : List Value → ℕ → List (Value × Value)
  | [], _ => []
  | .nil :: values, i => entriesFrom values (i + 1)
  | value :: values, i => (keyAt i, value) :: entriesFrom values (i + 1)

theorem assign_of_fresh {table : List (Value × Value)} {i : ℕ}
    (fresh : ∀ entry ∈ table, entry.1.same (keyAt i) = false) (value : Value) :
    assign table (keyAt i) value = table ++ entriesFrom [value] i := by
  have others : (table.filter fun entry => !entry.1.same (keyAt i)) = table :=
    List.filter_eq_self.mpr fun entry mem => by rw [fresh entry mem]; rfl
  cases value <;> simp only [assign, others, entriesFrom, List.append_nil]

theorem entriesFrom_cons (value : Value) (values : List Value) (i : ℕ) :
    entriesFrom (value :: values) i = entriesFrom [value] i ++ entriesFrom values (i + 1) := by
  cases value <;> rfl

theorem mem_entriesFrom_singleton {value : Value} {i : ℕ} {entry : Value × Value}
    (mem : entry ∈ entriesFrom [value] i) : entry.1 = keyAt i := by
  cases value <;> simp_all [entriesFrom]

/-- The table of an array. -/
theorem setItems_eq
    (converted : List.Forall₂ (fun item value => luaValueFromResp item = .ok value) items values)
    {i : ℕ} {table : List (Value × Value)} (fits : (i + items.length) * valueSize ≤ isizeMax)
    (earlier : ∀ entry ∈ table, ∃ j < i, entry.1 = keyAt j) :
    setItems items i table = .ok (table ++ entriesFrom values i) := by
  induction converted generalizing i table with
  | nil => simp [setItems, entriesFrom]
  | @cons item value items values shown _ ih =>
    rw [List.length_cons, valueSize, isizeMax] at fits
    have fresh : ∀ entry ∈ table, entry.1.same (keyAt i) = false := by
      intro entry mem
      obtain ⟨j, before, key⟩ := earlier entry mem
      rw [key]
      refine decide_eq_false fun same => before.ne (keyAt_inj ?_ ?_ (congrArg Value.integer same))
      all_goals rw [valueSize, isizeMax]; omega
    have stored : set table (keyAt i) value = .ok (table ++ entriesFrom [value] i) :=
      congrArg Except.ok (assign_of_fresh fresh value)
    have rest :=
      @ih (i + 1) (table ++ entriesFrom [value] i) (by rw [valueSize, isizeMax]; omega) <| by
      intro entry mem
      rcases List.mem_append.mp mem with old | new
      · obtain ⟨j, before, key⟩ := earlier entry old
        exact ⟨j, by omega, key⟩
      · exact ⟨i, by omega, mem_entriesFrom_singleton new⟩
    rw [entriesFrom_cons, ← List.append_assoc, ← rest]
    simp only [setItems, shown]
    rw [keyAt] at stored
    simp only [bind, Except.bind, stored]

/-- The entry of an item that is not null. -/
def slot (k : ℕ) (reply : RespValue) : Entry := ⟨keyAt k, .integer (Int64.ofNat (k + 1)), reply⟩

/-- The entries of the table of an array, as they are visited. -/
def slotsFrom : List RespValue → ℕ → List Entry
  | [], _ => []
  | reply :: replies, i =>
    if reply = .null then slotsFrom replies (i + 1) else slot i reply :: slotsFrom replies (i + 1)

theorem mem_slotsFrom {entry : Entry} {i : ℕ} : entry ∈ slotsFrom replies i ↔
    ∃ k, itemAt .null replies k ≠ .null ∧ entry = slot (i + k) (itemAt .null replies k) := by
  induction replies generalizing i with
  | nil => simp [slotsFrom, itemAt]
  | cons reply replies ih =>
    have later : (∃ k, itemAt .null (reply :: replies) (k + 1) ≠ .null ∧
          entry = slot (i + (k + 1)) (itemAt .null (reply :: replies) (k + 1))) ↔
        entry ∈ slotsFrom replies (i + 1) := by
      simp only [ih, itemAt, List.getD_cons_succ, Nat.add_assoc, Nat.add_comm 1]
    rw [← Nat.or_exists_add_one, later, slotsFrom]
    split_ifs with none <;> simp [itemAt, none]

theorem pairwise_slotsFrom {i : ℕ} (fits : (i + replies.length) * valueSize ≤ isizeMax) :
    (slotsFrom replies i).Pairwise fun entry entry' => entry.key ≠ entry'.key := by
  induction replies generalizing i with
  | nil => exact List.Pairwise.nil
  | cons reply replies ih =>
    have below : ∀ k ≤ i + 1 + replies.length, k * valueSize ≤ isizeMax := fun k upTo =>
      (Nat.mul_le_mul_right _ (by rw [List.length_cons]; omega)).trans fits
    have rest := ih (below _ le_rfl)
    rw [slotsFrom]
    split_ifs with none
    · exact rest
    · refine List.pairwise_cons.mpr ⟨fun entry mem same => ?_, rest⟩
      obtain ⟨k, some, rfl⟩ := mem_slotsFrom.mp mem
      have inside : k < replies.length := not_le.mp fun beyond => some (itemAt_of_ge beyond)
      have equal : i = i + 1 + k := keyAt_inj (below _ (by omega)) (below _ (by omega)) same
      omega

variable {order : Order}

/-- The value becomes the reply, which is null for nil only. -/
def Returns (order : Order) (value : Value) (reply : RespValue) : Prop :=
  respValueFromLua order value = .ok reply ∧ (value = .nil ↔ reply = .null)

theorem respEntries_entriesFrom (returned : List.Forall₂ (Returns order) values replies) (i : ℕ) :
    respEntries order (entriesFrom values i) = .ok (slotsFrom replies i) := by
  induction returned generalizing i with
  | nil => rfl
  | @cons value reply values replies here _ ih =>
    obtain ⟨returned, nil_iff⟩ := here
    rw [slotsFrom]
    split_ifs with none
    · obtain rfl := nil_iff.mpr none
      exact ih (i + 1)
    · have some : entriesFrom (value :: values) i = (keyAt i, value) :: entriesFrom values
          (i + 1) := by
        cases value with
        | nil => exact absurd (nil_iff.mp rfl) none
        | _ => rfl
      simp only [some, respEntries, returned, keyAt, respValueFromLua, ih (i + 1), slot]
      rfl

/-- The array of a table. Its last item is not null. -/
theorem respValueFromLua_entriesFrom (returned : List.Forall₂ (Returns order) values replies)
    (fits : replies.length * valueSize ≤ isizeMax) :
    respValueFromLua order (.table (entriesFrom values 0)) = .ok (.array (trim .null replies)) := by
  have permuted := order.2 (slotsFrom replies 0)
  have bound : ∀ k, itemAt .null replies k ≠ .null → (k + 1) * valueSize ≤ isizeMax := by
    intro k some
    have inside : k < replies.length := not_le.mp fun beyond => some (itemAt_of_ge beyond)
    exact (Nat.mul_le_mul_right _ inside).trans fits
  have slots : ∀ entry ∈ order.1 (slotsFrom replies 0), ∃ k, itemAt .null replies k ≠ .null ∧
      entry = slot k (itemAt .null replies k) := by
    intro entry mem
    simpa using mem_slotsFrom.mp (permuted.mem_iff.mp mem)
  obtain ⟨arr, maxIndex, collected, trimmed, placed, kept, greatest⟩ :=
    @collect_eq [] (order.1 (slotsFrom replies 0)) [] 0
      (fun entry mem => by
        obtain ⟨k, some, rfl⟩ := slots entry mem
        exact ⟨some, k, rfl, bound k some⟩)
      ((permuted.pairwise_iff fun distinct => distinct.symm).mpr
        (pairwise_slotsFrom (by rwa [Nat.zero_add])))
      trimmed_nil
  have array : arr = trim .null replies := by
    refine trimmed.ext (trimmed_trim replies) fun k => ?_
    rw [itemAt_trim]
    by_cases none : itemAt .null replies k = .null
    · rw [none, kept k]
      · rfl
      · intro entry mem here
        obtain ⟨j, some, rfl⟩ := slots entry mem
        obtain rfl : j = k := keyAt_inj (bound j some) here.2 here.1
        exact some none
    · have mem : slot k (itemAt .null replies k) ∈ order.1 (slotsFrom replies 0) :=
        permuted.mem_iff.mpr (mem_slotsFrom.mpr ⟨k, none, by rw [Nat.zero_add]⟩)
      exact placed _ mem k ⟨rfl, bound k none⟩
  rw [← array]
  simp only [respValueFromLua, respEntries_entriesFrom returned, bind, Except.bind, collected,
    List.isEmpty_nil, true_and, not_true_eq_false, if_false]
  split_ifs with indexed
  · rfl
  · -- Without an entry the array stays as empty as it was.
    have empty : order.1 (slotsFrom replies 0) = [] := by
      by_contra some
      exact indexed (greatest.mpr (Or.inl some))
    rw [empty] at collected
    cases collected
    rfl

end Items

section RoundTrip

variable {order : Order}

/-- The reply is an integer, a string or an array. -/
def Ordinary : RespValue → Prop
  | .integer _ | .bulkString _ | .array _ => True
  | _ => False

mutual

/-- The reply with every null string turned into null. -/
def nullified : RespValue → RespValue
  | .bulkString none => .null
  | .array items => .array (nullifiedItems items)
  | reply => reply

def nullifiedItems : List RespValue → List RespValue
  | [] => []
  | item :: items => nullified item :: nullifiedItems items

end

mutual

/-- What is left of a reply that a script returns. -/
def rendered : RespValue → RespValue
  | .bulkString none => .null
  | .bulkString (some bytes) => .bulkString (some (utf8 (fromUtf8Lossy bytes)))
  | .array items => .array (trim .null (renderedItems items))
  | reply => reply

def renderedItems : List RespValue → List RespValue
  | [] => []
  | item :: items => rendered item :: renderedItems items

end

theorem length_nullifiedItems (items : List RespValue) :
    (nullifiedItems items).length = items.length := by
  induction items with
  | nil => rfl
  | cons item items ih => simp [nullifiedItems, ih]

theorem renderedItems_eq_map (items : List RespValue) :
    renderedItems items = items.map rendered := by
  induction items with
  | nil => rfl
  | cons item items ih => simp [renderedItems, ih]

theorem rendered_eq_null_iff {reply : RespValue} :
    rendered reply = .null ↔ reply = .bulkString none ∨ reply = .null := by
  cases reply with
  | bulkString bytes => cases bytes <;> simp [rendered]
  | _ => simp [rendered]

theorem ne_null_of_ordinary {items : List RespValue} (ordinary : RespValue.AllItems Ordinary items)
    {item : RespValue} (mem : item ∈ items) : item ≠ .null := by
  have within := (RespValue.allItems_iff Ordinary items).mp ordinary item mem
  rintro rfl
  exact within

/-- The last item of an array is null if and only if it was a null string. -/
theorem getLast?_renderedItems_iff {items : List RespValue}
    (ordinary : RespValue.AllItems Ordinary items) :
    (renderedItems items).getLast? = some .null ↔ items.getLast? = some (.bulkString none) := by
  rw [renderedItems_eq_map, List.getLast?_map]
  cases last : items.getLast? with
  | none => simp
  | some item =>
    have some := ne_null_of_ordinary ordinary (List.mem_of_getLast? last)
    simp [rendered_eq_null_iff, some]

mutual

/-- A reply becomes a value, and the value becomes what is left of the reply. -/
theorem returns_rendered (order : Order) : (reply : RespValue) → reply.All Ordinary →
    reply.All RespValue.Allocated →
    ∃ value, luaValueFromResp reply = .ok value ∧ Returns order value (rendered reply)
  | .integer n, _, _ => ⟨.integer n, by rfl, by rfl, by simp [rendered]⟩
  | .bulkString none, _, _ => ⟨.nil, by rfl, by rfl, by simp [rendered]⟩
  | .bulkString (some bytes), _, _ => ⟨.string bytes, by rfl, by rfl, by simp [rendered]⟩
  | .array items, ordinary, inMemory => by
    obtain ⟨values, converted, returned⟩ := returns_renderedItems order items ordinary.2 inMemory.2
    have fits : items.length * valueSize ≤ isizeMax := inMemory.1
    refine ⟨.table (entriesFrom values 0), ?_, ?_, by simp [rendered]⟩
    · rw [luaValueFromResp, setItems_eq converted (by rwa [Nat.zero_add]) (by simp)]
      rfl
    · exact respValueFromLua_entriesFrom returned (by rwa [renderedItems_eq_map, List.length_map])
  | .simpleString _, ordinary, _ | .error _, ordinary, _ | .null, ordinary,
      _ | .boolean _, ordinary, _
  | .double _, ordinary, _ => by cases ordinary
  | .map _, ordinary, _ | .set _, ordinary, _ => by cases ordinary.1

theorem returns_renderedItems (order : Order) : (items : List RespValue) →
    RespValue.AllItems Ordinary items → RespValue.AllItems RespValue.Allocated items →
    ∃ values, List.Forall₂ (fun item value => luaValueFromResp item = .ok value) items values ∧
      List.Forall₂ (Returns order) values (renderedItems items)
  | [], _, _ => ⟨[], .nil, .nil⟩
  | item :: items, ordinary, inMemory => by
    obtain ⟨value, converted, returned⟩ := returns_rendered order item ordinary.1 inMemory.1
    obtain ⟨values, convertedItems, returnedItems⟩ :=
      returns_renderedItems order items ordinary.2 inMemory.2
    exact ⟨value :: values, .cons converted convertedItems, .cons returned returnedItems⟩

end

/-- A string is UTF-8, and an array does not end in a null string. -/
def Carried : RespValue → Prop
  | .bulkString (some bytes) => ∃ text, utf8 text = bytes
  | .array items => items.getLast? ≠ some (.bulkString none)
  | _ => True

theorem lossless_iff {bytes : Bytes} :
    utf8 (fromUtf8Lossy bytes) = bytes ↔ ∃ text, utf8 text = bytes := by
  constructor
  · intro same
    exact ⟨_, same⟩
  · rintro ⟨text, rfl⟩
    rw [fromUtf8Lossy_utf8]

mutual

theorem rendered_eq_nullified_iff : (reply : RespValue) → reply.All Ordinary →
    (rendered reply = nullified reply ↔ reply.All Carried)
  | .integer n, _ | .bulkString none, _ => iff_of_true rfl trivial
  | .bulkString (some bytes), _ => by
    simp only [rendered, nullified, RespValue.All, Carried, ← lossless_iff,
      RespValue.bulkString.injEq, Option.some.injEq]
  | .array items, ordinary => by
    have lengths : (renderedItems items).length = (nullifiedItems items).length := by
      rw [renderedItems_eq_map, List.length_map, length_nullifiedItems]
    rw [rendered, nullified, RespValue.array.injEq, trim_eq_iff lengths,
      renderedItems_eq_nullifiedItems_iff items ordinary.2, ne_eq,
      getLast?_renderedItems_iff ordinary.2, RespValue.All, Carried, and_comm]
  | .simpleString _, ordinary | .error _, ordinary | .null, ordinary | .boolean _, ordinary
  | .double _, ordinary => by cases ordinary
  | .map _, ordinary | .set _, ordinary => by cases ordinary.1

theorem renderedItems_eq_nullifiedItems_iff : (items : List RespValue) →
    RespValue.AllItems Ordinary items →
    (renderedItems items = nullifiedItems items ↔ RespValue.AllItems Carried items)
  | [], _ => iff_of_true rfl trivial
  | item :: items, ordinary => by
    rw [renderedItems, nullifiedItems, List.cons.injEq, rendered_eq_nullified_iff item ordinary.1,
      renderedItems_eq_nullifiedItems_iff items ordinary.2, RespValue.AllItems]

end

/-- The reply comes back from a script as it was, but for the null strings in it. -/
def Intact (order : Order) (reply : RespValue) : Prop :=
  ∃ value, luaValueFromResp reply = .ok value ∧
    respValueFromLua order value = .ok (nullified reply)

/-- A reply of integers, strings and arrays comes back from a script as it was if and only if
its strings are UTF-8 and none of its arrays ends in a null. -/
theorem intact_iff (order : Order) {reply : RespValue} (ordinary : reply.All Ordinary)
    (inMemory : reply.All RespValue.Allocated) : Intact order reply ↔ reply.All Carried := by
  obtain ⟨value, converted, returned, _⟩ := returns_rendered order reply ordinary inMemory
  rw [← rendered_eq_nullified_iff reply ordinary]
  constructor
  · rintro ⟨value', converted', returned'⟩
    obtain rfl := Except.ok.inj (converted.symm.trans converted')
    exact Except.ok.inj (returned.symm.trans returned')
  · intro same
    exact ⟨value, converted, same ▸ returned⟩

/-- The entries of a table in the order in which they were assigned. -/
def Order.assigned : Order := ⟨id, fun _ => List.Perm.refl _⟩

theorem intact_null_between :
    Intact Order.assigned (.array [.integer 1, .bulkString none, .bulkString (some (utf8 "x"))]) :=
  (intact_iff Order.assigned (by simp [RespValue.All, RespValue.AllItems, Ordinary])
    (by simp [RespValue.All, RespValue.AllItems, RespValue.Allocated, valueSize, isizeMax,
      show (utf8 "x").length = 1 from rfl])).mpr
    (by simp [RespValue.All, RespValue.AllItems, Carried])

/-- The null at the end of an array is lost, and a byte that is no text becomes three. -/
theorem null_at_end_lost :
    nullified (.array [.integer 1, .bulkString none]) = .array [.integer 1, .null] ∧
    luaValueFromResp (.array [.integer 1, .bulkString none]) =
      .ok (.table [(.integer 1, .integer 1)]) ∧
    respValueFromLua Order.assigned (.table [(.integer 1, .integer 1)]) =
      .ok (.array [.integer 1]) ∧
    luaValueFromResp (.bulkString (some [0xFF])) = .ok (.string [0xFF]) ∧
    respValueFromLua Order.assigned (.string [0xFF]) =
      .ok (.bulkString (some [0xEF, 0xBF, 0xBD])) := by
  refine ⟨by rfl, by rfl, by rfl, by rfl, ?_⟩
  have replaced : utf8 (fromUtf8Lossy [0xFF]) = [0xEF, 0xBF, 0xBD] := by decide
  rw [respValueFromLua, replaced]

end RoundTrip

end Kvdb.Lua
