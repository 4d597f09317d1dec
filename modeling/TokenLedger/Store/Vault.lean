import TokenLedger.Store.Changes
import TokenLedger.StoreError

/-!
# The vault

The whole state of a ledger: balances in the order of the accounts, records
in the order of issue, published serial numbers in their order, and the
count of accepted transactions. Changes are committed all together or not at
all.

Only what was there before is looked at when changes are checked, so one set
of changes may carry a record twice. Both entries then stay in the list and
read as the later of the two.
-/

set_option autoImplicit false

namespace TokenLedger

structure Vault where
  balances : Balances
  records : List StoredRecord
  spent : List SerialNumber
  height : UInt64
  deriving DecidableEq

namespace Vault

def empty : Vault := ⟨[], [], [], 0⟩

/-! ## Reading -/

def balance? (v : Vault) (key : Address) : Option UInt64 := v.balances.find? key

/-- The record under a commitment: the one that was stored last. -/
def record? (v : Vault) (c : Commitment) : Option StoredRecord :=
  v.records.reverse.find? fun r => r.commitment = c

def hasRecord (v : Vault) (c : Commitment) : Bool := v.records.any fun r => r.commitment = c

def isSpent (v : Vault) (s : SerialNumber) : Bool := v.spent.contains s

def recordsOf (v : Vault) (owner : Address) : List Commitment :=
  (v.records.filter fun r => r.owner = owner).map StoredRecord.commitment

/-- For every commitment in the order of issue, the record under it. -/
def allRecords (v : Vault) : List StoredRecord :=
  v.records.filterMap fun r => v.record? r.commitment

theorem mem_of_record? {v : Vault} {c : Commitment} {r : StoredRecord}
    (h : v.record? c = some r) : r ∈ v.records ∧ r.commitment = c :=
  ⟨List.mem_reverse.1 (List.mem_of_find?_eq_some h),
    of_decide_eq_true (List.find?_some (p := fun r : StoredRecord => r.commitment = c) h)⟩

theorem isSome_record? (v : Vault) (c : Commitment) : (v.record? c).isSome = v.hasRecord c := by
  rw [record?, List.isSome_find?, List.any_reverse, hasRecord]

theorem hasRecord_iff {v : Vault} {c : Commitment} :
    v.hasRecord c = true ↔ c ∈ v.records.map StoredRecord.commitment := by
  rw [hasRecord, List.any_eq_true, List.mem_map]
  exact exists_congr fun r => and_congr_right fun _ => decide_eq_true_iff

theorem mem_spent_iff {v : Vault} {n : SerialNumber} : n ∈ v.spent ↔ v.isSpent n = true :=
  List.contains_iff_mem.symm

/-! ## Writing -/

def insertSerial (s : SerialNumber) : List SerialNumber → List SerialNumber
  | [] => [s]
  | t :: rest =>
    if t = s then t :: rest
    else if s.digest.le t.digest then s :: t :: rest
    else t :: insertSerial s rest

def publish (v : Vault) (s : SerialNumber) : Vault := { v with spent := insertSerial s v.spent }

def admits (v : Vault) (c : Changes) : Except StoreError Unit :=
  match c.spent.find? v.isSpent with
  | some s => .error (.serialExists s)
  | none =>
    match c.records.find? fun r => v.hasRecord r.commitment with
    | some r => .error (.recordExists r.commitment)
    | none => .ok ()

def write (v : Vault) (c : Changes) : Vault where
  balances := c.writes.foldl (fun m p => m.insert p.1 p.2) v.balances
  records := v.records ++ c.records
  spent := c.spent.foldl (fun ss s => insertSerial s ss) v.spent
  height := v.height

def commit (v : Vault) (c : Changes) : Except StoreError Vault := do
  v.admits c
  return { v.write c with height := v.height + 1 }

def restore (v : Vault) (c : Changes) (height : UInt64) : Except StoreError Vault := do
  if v.height ≠ 0 ∨ v.records ≠ [] ∨ v.balances ≠ [] then .error .notEmpty
  else
    v.admits c
    return { v.write c with height := height }

end Vault

end TokenLedger
