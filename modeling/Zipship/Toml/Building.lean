import Zipship.Toml.Value

/-!
# Tables under construction

A document fills its tables line by line. How a table came to be decides what may still be added to
it: a table with a heading of its own gets no second one and is not extended by dotted keys from
outside; a table that exists only because a longer heading names it may still get a heading; a table
made by dotted keys is extended by dotted keys; and a value, whatever it holds, is complete.
-/

namespace Zipship.Toml

/-- How a table came to be. -/
inductive Origin where
  /-- It has a heading. -/
  | heading
  /-- A longer heading leads through it. -/
  | above
  /-- Dotted keys lead through it. -/
  | dotted
  deriving DecidableEq, Repr

/-- What stands under a key while a document is read. -/
inductive Slot where
  | value (v : Value)
  | table (origin : Origin) (slots : List (String × Slot))
  /-- A list of tables, each with a heading. -/
  | tables (rows : List (List (String × Slot)))
  deriving Inhabited

/-- The contents of a table under construction. -/
abbrev Slots := List (String × Slot)

namespace Slots

/-- The same contents with `slot` under a key that is already there. -/
def replace (slots : Slots) (key : String) (slot : Slot) : Slots :=
  slots.map fun s => if s.1 = key then (key, slot) else s

/-- Put a value under a dotted key. -/
def insert? (v : Value) : List String → Slots → Option Slots
  | [], _ => none
  | [key], slots =>
    match slots.lookup key with
    | none => some (slots ++ [(key, .value v)])
    | some _ => none
  | key :: path, slots =>
    match slots.lookup key with
    | none => (insert? v path []).map fun inner => slots ++ [(key, .table .dotted inner)]
    | some (.table .dotted inner) =>
      (insert? v path inner).map fun inner => slots.replace key (.table .dotted inner)
    | some (.table .above inner) =>
      -- such a table may be passed through, but gets no entry of its own
      if path.length ≤ 1 then none
      else (insert? v path inner).map fun inner => slots.replace key (.table .above inner)
    | some _ => none

/-- Change the last one of some rows. -/
def onLast? (change : Slots → Option Slots) (rows : List Slots) : Option (List Slots) :=
  match rows.getLast? with
  | none => none
  | some row => (change row).map fun row => rows.dropLast ++ [row]

/-- Go along all keys of a heading but the last, making the tables that are missing, and let
`change` work on the table that is reached, under the last key. -/
def atHeading? (change : String → Slots → Option Slots) : List String → Slots → Option Slots
  | [], _ => none
  | [key], slots => change key slots
  | key :: path, slots =>
    match slots.lookup key with
    | none => (atHeading? change path []).map fun inner => slots ++ [(key, .table .above inner)]
    | some (.table origin inner) =>
      (atHeading? change path inner).map fun inner => slots.replace key (.table origin inner)
    | some (.tables rows) =>
      (onLast? (atHeading? change path) rows).map fun rows => slots.replace key (.tables rows)
    | some (.value _) => none

/-- Give a table its heading. -/
def openTable? (key : String) (slots : Slots) : Option Slots :=
  match slots.lookup key with
  | none => some (slots ++ [(key, .table .heading [])])
  | some (.table .above inner) => some (slots.replace key (.table .heading inner))
  | some _ => none

/-- Add an empty table to a list of tables. -/
def openRow? (key : String) (slots : Slots) : Option Slots :=
  match slots.lookup key with
  | none => some (slots ++ [(key, .tables [[]])])
  | some (.tables rows) => some (slots.replace key (.tables (rows ++ [[]])))
  | some _ => none

/-- Change the table that the last heading opened. -/
def inOpened? (change : Slots → Option Slots) (key : String) (slots : Slots) : Option Slots :=
  match slots.lookup key with
  | some (.table origin inner) =>
    (change inner).map fun inner => slots.replace key (.table origin inner)
  | some (.tables rows) => (onLast? change rows).map fun rows => slots.replace key (.tables rows)
  | _ => none

end Slots

mutual

/-- The finished value of a slot. -/
def Slot.finish : Slot → Value
  | .value v => v
  | .table _ slots => .table (finishSlots slots)
  | .tables rows => .array (finishRows rows)

/-- The finished contents of a table. -/
def finishSlots : List (String × Slot) → List (String × Value)
  | [] => []
  | (key, slot) :: rest => (key, slot.finish) :: finishSlots rest

/-- The finished tables of a list. -/
def finishRows : List (List (String × Slot)) → List Value
  | [] => []
  | row :: rest => .table (finishSlots row) :: finishRows rest

end

end Zipship.Toml
