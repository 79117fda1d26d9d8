import Kvdb.Command.Table

/-!
# What a list is

The list commands as operations on a plain list of byte strings. An operation at
the right end is the operation at the left end of the reversed list. Indexes are
integers, negative ones counted from the end.
-/

namespace Kvdb.ListSpec

open Data Cmd

section Operations

variable {α : Type}

/-- A list as it is seen from one of its ends. -/
def view : ListEnd → List α → List α
  | .left, l => l
  | .right, l => l.reverse

@[simp] theorem view_view (side : ListEnd) (l : List α) : view side (view side l) = l := by
  cases side <;> simp [view]

@[simp] theorem length_view (side : ListEnd) (l : List α) : (view side l).length = l.length := by
  cases side <;> simp [view]

def push (side : ListEnd) (elements l : List α) : List α :=
  view side (elements.reverse ++ view side l)

@[simp] theorem push_nil (side : ListEnd) (l : List α) : push side [] l = l := view_view side l

/-- Pushing some elements is pushing the first one and then the rest. -/
theorem push_cons (side : ListEnd) (x : α) (xs l : List α) :
    push side (x :: xs) l = push side xs (push side [x] l) := by
  simp [push]

theorem push_right_singleton (x : α) (l : List α) : push .right [x] l = l ++ [x] := by
  simp [push, view]

/-- The first elements at an end, in the order they are popped. -/
def popped (side : ListEnd) (n : ℕ) (l : List α) : List α := (view side l).take n

/-- What popping leaves. -/
def remaining (side : ListEnd) (n : ℕ) (l : List α) : List α :=
  view side ((view side l).drop n)

section Pops

variable {side : ListEnd} {l rest : List α} {x : α}

/-- Popping from an end that has an element: it comes first, the others follow. -/
theorem popped_succ (n : ℕ) (shape : view side l = x :: rest) :
    popped side (n + 1) l = x :: popped side n (view side rest) := by
  rw [popped, shape, popped, view_view, List.take_succ_cons]

theorem remaining_succ (n : ℕ) (shape : view side l = x :: rest) :
    remaining side (n + 1) l = remaining side n (view side rest) := by
  rw [remaining, shape, remaining, view_view, List.drop_succ_cons]

@[simp] theorem remaining_zero (l : List α) : remaining side 0 l = l := view_view side l

@[simp] theorem view_empty : view side ([] : List α) = [] := by cases side <;> rfl

@[simp] theorem popped_empty (n : ℕ) : popped side n ([] : List α) = [] := by simp [popped]

@[simp] theorem remaining_empty (n : ℕ) : remaining side n ([] : List α) = [] := by
  simp [remaining]

/-- There is no more to pop than there is. -/
theorem popped_min (n : ℕ) : popped side (min n l.length) l = popped side n l := by
  rw [popped, popped, ← length_view side l]
  exact (List.take_eq_take_min ..).symm

theorem remaining_min (n : ℕ) : remaining side (min n l.length) l = remaining side n l := by
  rw [remaining, remaining, ← length_view side l]
  exact congrArg _ (List.drop_eq_drop_min ..).symm

end Pops

/-- An index, counted from the end if it is negative. -/
def resolve (len : ℕ) (i : ℤ) : ℤ := if i < 0 then i + len else i

def elementAt (l : List α) (i : ℤ) : Option α :=
  if resolve l.length i < 0 then none else l[(resolve l.length i).toNat]?

/-- The elements between two indexes, both included. -/
def slice (l : List α) (start stop : ℤ) : List α :=
  (l.take (resolve l.length stop + 1).toNat).drop (resolve l.length start).toNat

/-- Indexes beyond the ends count as the ends. -/
theorem slice_clamp (l : List α) (start stop : ℤ) :
    slice l start stop =
      (l.take (min (resolve l.length stop) (l.length - 1) + 1).toNat).drop
        (max (resolve l.length start) 0).toNat := by
  have first : (max (resolve l.length start) 0).toNat = (resolve l.length start).toNat := by omega
  rw [slice, first]
  congr 1
  rw [List.take_eq_take_iff]
  omega

end Operations

section Commands

/-- The command that fails on its arguments. -/
abbrev Outcome := Except KvdbError RespValue

/-- A popped list as a reply. -/
def bulks (l : List Bytes) : RespValue := .array (l.map fun x => .bulkString (some x))

/-- Push, given the arguments behind the key. -/
def pushStep (side : ListEnd) (name : String) (elements l : List Bytes) : Outcome × List Bytes :=
  if elements = [] then (.error (.wrongArgCount name), l)
  else (.ok (.integer (Int64.ofNat (push side elements l).length)), push side elements l)

/-- Pop one element, or up to a given number. -/
def popStep (side : ListEnd) (name : String) (args l : List Bytes) : Outcome × List Bytes :=
  match args with
  | [] => (.ok (.bulkString (view side l).head?), remaining side 1 l)
  | [count] =>
    match parseU64 count with
    | none => (.error .notInteger, l)
    | some n => (.ok (bulks (popped side n l)), remaining side n l)
  | _ => (.error (.wrongArgCount name), l)

def readStep (command : Command) (args l : List Bytes) : Outcome :=
  match command, args with
  | .llen, [] => .ok (.integer (Int64.ofNat l.length))
  | .llen, _ => .error (.wrongArgCount "LLEN")
  | .lindex, [index] =>
    match parseI64? index with
    | none => .error .notInteger
    | some i => .ok (.bulkString (elementAt l i.toInt))
  | .lindex, _ => .error (.wrongArgCount "LINDEX")
  | .lrange, [start, stop] =>
    match parseI64? start, parseI64? stop with
    | some s, some e => .ok (bulks (slice l s.toInt e.toInt))
    | _, _ => .error .notInteger
  | _, _ => .error (.wrongArgCount "LRANGE")

/-- A list command, given the arguments behind the key: its outcome and the list
after it. -/
def step (command : Command) (args l : List Bytes) : Outcome × List Bytes :=
  match command with
  | .lpush => pushStep .left "LPUSH" args l
  | .rpush => pushStep .right "RPUSH" args l
  | .lpop => popStep .left "LPOP" args l
  | .rpop => popStep .right "RPOP" args l
  | _ => (readStep command args l, l)

def reply : Outcome → RespValue
  | .ok value => value
  | .error cause => .error (formatError cause)

/-- The list after some requests, starting from the empty one. -/
def contents (requests : List Request) : List Bytes :=
  requests.foldl (fun l request => (step request.command request.args.tail l).2) []

theorem contents_snoc (requests : List Request) (request : Request) :
    contents (requests ++ [request]) =
      (step request.command request.args.tail (contents requests)).2 :=
  List.foldl_append

def pushes (request : Request) : ℕ :=
  if request.command = .lpush ∨ request.command = .rpush then request.args.tail.length else 0

end Commands

end Kvdb.ListSpec
