import TokenLedger.Settings.Moment
import TokenLedger.Settings.Number

/-!
# Tables of settings

A table holds values and further tables under its keys, in the order of their
arrival. A key is given once. How a table came about decides who may add to it:
the lines below its header, the dotted keys that it came from, or nobody once
its braces are closed. A table that exists only because a header names a table
inside it may still be opened by a header of its own.
-/

set_option autoImplicit false

namespace TokenLedger.Settings

/-- How a table came about: its own header opened it, it stands on the way to a table with
a header, it stands on the way to a value in a key with dots, or it was written in braces. -/
inductive Origin where
  | header
  | outer
  | dotted
  | braces
  deriving DecidableEq, Repr

inductive Node where
  | text (s : String)
  | number (n : Number)
  | truth (b : Bool)
  | moment (m : Moment)
  | array (items : List Node)
  | table (origin : Origin) (entries : List (String × Node))
  | tables (items : List (List (String × Node)))

abbrev Table := List (String × Node)

abbrev Path := List String

namespace Table

def alter? (k : String) (change : Option Node → Option Node) : Table → Option Table
  | [] => do
    let v ← change none
    return [(k, v)]
  | (name, v) :: t =>
    if name = k then do
      let v ← change (some v)
      return (name, v) :: t
    else ((name, v) :: ·) <$> alter? k change t

def alterLast? (change : Table → Option Table) : List Table → Option (List Table)
  | [] => none
  | [t] => do
    let t ← change t
    return [t]
  | t :: ts => (t :: ·) <$> alterLast? change ts

/-- A value under a key with dots. The table that receives it has to come from
dotted keys only, unless it is the one that the keys start from. -/
def assign? : Path → Node → Table → Option Table
  | [], _, _ => none
  | [k], v, t =>
    alter? k (fun
      | none => some v
      | some _ => none) t
  | k :: ks, v, t =>
    alter? k (fun
      | none => .table .dotted <$> assign? ks v []
      | some (.table .dotted inner) => .table .dotted <$> assign? ks v inner
      | some (.table .outer inner) =>
        if ks.length = 1 then none else .table .outer <$> assign? ks v inner
      | some (.tables items) =>
        if ks.length = 1 then none else .tables <$> alterLast? (assign? ks v) items
      | some _ => none) t

/-- A change of the table at a path, with the tables on the way made where they
are missing. Of many tables under one header the last is meant. -/
def within? : Path → (Table → Option Table) → Table → Option Table
  | [], change, t => change t
  | k :: ks, change, t =>
    alter? k (fun
      | none => .table .outer <$> within? ks change []
      | some (.table .braces _) => none
      | some (.table origin inner) => .table origin <$> within? ks change inner
      | some (.tables items) => .tables <$> alterLast? (within? ks change) items
      | some _ => none) t

def openOne? (p : Path) (t : Table) : Option Table := do
  let k ← p.getLast?
  within? p.dropLast (alter? k fun
    | none => some (.table .header [])
    | some (.table .outer inner) => some (.table .header inner)
    | some _ => none) t

def openNext? (p : Path) (t : Table) : Option Table := do
  let k ← p.getLast?
  within? p.dropLast (alter? k fun
    | none => some (.tables [[]])
    | some (.tables items) => some (.tables (items ++ [[]]))
    | some _ => none) t

end Table

end TokenLedger.Settings
