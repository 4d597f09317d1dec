import TokenLedger.Address
import TokenLedger.Digest

/-!
# Changes

The writes of one transaction, gathered before any of them reaches the
vault: balances in the order of their first write and one for each account,
records issued, serial numbers published.
-/

set_option autoImplicit false

namespace TokenLedger

/-- A record as it is kept: under its commitment, listed for an owner, with a body. -/
structure StoredRecord where
  commitment : Commitment
  owner : Address
  bytes : Bytes
  deriving DecidableEq

abbrev Balances := List (Address × UInt64)

namespace Balances

def find? (key : Address) : Balances → Option UInt64
  | [] => none
  | (k, v) :: rest => if k = key then some v else find? key rest

def total : Balances → Nat
  | [] => 0
  | (_, v) :: rest => v.toNat + total rest

def put (key : Address) (value : UInt64) : Balances → Balances
  | [] => [(key, value)]
  | (k, v) :: rest => if k = key then (key, value) :: rest else (k, v) :: put key value rest

theorem find?_put_self (key : Address) (value : UInt64) (m : Balances) :
    find? key (put key value m) = some value := by
  induction m with
  | nil => simp [put, find?]
  | cons p m ih =>
    obtain ⟨k, v⟩ := p
    by_cases h : k = key <;> simp [put, find?, h, ih]

theorem find?_put_of_ne {key other : Address} (h : other ≠ key) (value : UInt64)
    (m : Balances) : find? other (put key value m) = find? other m := by
  induction m with
  | nil => simp [put, find?, h.symm]
  | cons p m ih =>
    obtain ⟨k, v⟩ := p
    by_cases hk : k = key
    · subst hk; simp [put, find?, h.symm]
    · by_cases ho : k = other <;> simp [put, find?, h, hk, ho, ih]

def insert (key : Address) (value : UInt64) : Balances → Balances
  | [] => [(key, value)]
  | (k, v) :: rest =>
    if k = key then (key, value) :: rest
    else if key.le k then (key, value) :: (k, v) :: rest
    else (k, v) :: insert key value rest

theorem find?_insert_self (key : Address) (value : UInt64) (m : Balances) :
    find? key (insert key value m) = some value := by
  induction m with
  | nil => simp [insert, find?]
  | cons p m ih =>
    obtain ⟨k, v⟩ := p
    by_cases h : k = key
    · simp [insert, find?, h]
    · by_cases hl : key.le k <;> simp [insert, find?, h, hl, ih]

theorem find?_insert_of_ne {key other : Address} (h : other ≠ key) (value : UInt64)
    (m : Balances) : find? other (insert key value m) = find? other m := by
  induction m with
  | nil => simp [insert, find?, h.symm]
  | cons p m ih =>
    obtain ⟨k, v⟩ := p
    by_cases hk : k = key
    · subst hk; simp [insert, find?, h.symm]
    · by_cases hl : key.le k
      · simp [insert, find?, hk, hl, h.symm]
      · by_cases ho : k = other
        · subst ho; simp [insert, find?, hk, hl]
        · simp [insert, find?, hk, hl, ho, ih]

end Balances

structure Changes where
  writes : Balances
  records : List StoredRecord
  spent : List SerialNumber
  deriving DecidableEq

namespace Changes

def empty : Changes := ⟨[], [], []⟩

/-- A balance to write; an earlier write to the account is replaced where it stands. -/
def put (c : Changes) (key : Address) (value : UInt64) : Changes :=
  { c with writes := c.writes.put key value }

def written? (c : Changes) (key : Address) : Option UInt64 := c.writes.find? key

def addRecord (c : Changes) (record : StoredRecord) : Changes :=
  { c with records := c.records ++ [record] }

def spend (c : Changes) (serial : SerialNumber) : Changes :=
  { c with spent := c.spent ++ [serial] }

def isEmpty (c : Changes) : Bool := c.writes.isEmpty && c.records.isEmpty && c.spent.isEmpty

theorem written?_put_self (c : Changes) (key : Address) (value : UInt64) :
    (c.put key value).written? key = some value := Balances.find?_put_self key value c.writes

theorem written?_put_of_ne (c : Changes) {key other : Address} (h : other ≠ key)
    (value : UInt64) : (c.put key value).written? other = c.written? other :=
  Balances.find?_put_of_ne h value c.writes

end Changes

end TokenLedger
