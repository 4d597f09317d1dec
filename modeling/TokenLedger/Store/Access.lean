import TokenLedger.Store.Vault

/-!
# Access to the vault

A ledger reaches its vault through single calls, and the medium may fail to
answer any of them. Which calls fail is part of the store, so that what a
failure leaves behind can be stated.
-/

set_option autoImplicit false

namespace TokenLedger

inductive Access where
  | balance (key : Address)
  | balances
  | record (c : Commitment)
  | hasRecord (c : Commitment)
  | recordsOf (owner : Address)
  | allRecords
  | isSpent (s : SerialNumber)
  | allSpent
  | commit
  | height
  | restore
  deriving DecidableEq

def Access.name : Access → String
  | balance _ => "get"
  | balances => "entries"
  | record _ => "get_record"
  | hasRecord _ => "record_exists"
  | recordsOf _ => "records_of"
  | allRecords => "iter_records"
  | isSpent _ => "is_spent"
  | allSpent => "spent_serials"
  | commit => "commit"
  | height => "height"
  | restore => "restore"

structure Store where
  vault : Vault
  outage : Access → Bool

namespace Store

def ofVault (v : Vault) : Store := ⟨v, fun _ => false⟩

/-- The answer to a call, unless the call fails. -/
def answer {α : Type} (s : Store) (call : Access) (x : α) : Except StoreError α :=
  if s.outage call then .error (.outage call.name) else .ok x

def balance? (s : Store) (key : Address) : Except StoreError (Option UInt64) :=
  s.answer (.balance key) (s.vault.balance? key)

def balances (s : Store) : Except StoreError Balances := s.answer .balances s.vault.balances

def record (s : Store) (c : Commitment) : Except StoreError StoredRecord := do
  match ← s.answer (.record c) (s.vault.record? c) with
  | some r => .ok r
  | none => .error (.notFound c)

def hasRecord (s : Store) (c : Commitment) : Except StoreError Bool :=
  s.answer (.hasRecord c) (s.vault.hasRecord c)

def recordsOf (s : Store) (owner : Address) : Except StoreError (List Commitment) :=
  s.answer (.recordsOf owner) (s.vault.recordsOf owner)

def allRecords (s : Store) : Except StoreError (List StoredRecord) :=
  s.answer .allRecords s.vault.allRecords

def isSpent (s : Store) (n : SerialNumber) : Except StoreError Bool :=
  s.answer (.isSpent n) (s.vault.isSpent n)

def allSpent (s : Store) : Except StoreError (List SerialNumber) :=
  s.answer .allSpent s.vault.spent

def height (s : Store) : Except StoreError UInt64 := s.answer .height s.vault.height

def commit (s : Store) (c : Changes) : Except StoreError Store := do
  s.answer .commit ()
  let v ← s.vault.commit c
  return { s with vault := v }

def restore (s : Store) (c : Changes) (height : UInt64) : Except StoreError Store := do
  s.answer .restore ()
  let v ← s.vault.restore c height
  return { s with vault := v }

end Store

end TokenLedger
