import TokenLedger.Ledger.Basic

/-!
# Queries

What can be asked of a ledger: public balances, the unspent records of an
owner, a record by its commitment, the supply and a snapshot. A ledger is
built again from a snapshot whose hash fits.
-/

set_option autoImplicit false

namespace TokenLedger

namespace Ledger

def publicBalance (l : Ledger) (key : Address) : Except LedgerError UInt64 := do
  return (← LedgerError.liftStore (l.store.balance? key)).getD 0

def load (l : Ledger) (c : Commitment) : Except LedgerError Token := do
  let r ← LedgerError.liftStore (l.store.record c)
  LedgerError.liftProgram (Token.ofBytes r.bytes)

def isSpent (l : Ledger) (t : Token) : Except LedgerError Bool :=
  LedgerError.liftStore (l.store.isSpent t.serial)

def loadUnspent (l : Ledger) : List Commitment → Except LedgerError (List Token)
  | [] => .ok []
  | c :: cs => do
    let t ← l.load c
    let spent ← l.isSpent t
    let ts ← l.loadUnspent cs
    return if spent then ts else t :: ts

def recordsOf (l : Ledger) (owner : Address) : Except LedgerError (List Token) := do
  l.loadUnspent (← LedgerError.liftStore (l.store.recordsOf owner))

def unspentRecord (l : Ledger) (c : Commitment) : Except LedgerError Token := do
  let known ← LedgerError.liftStore (l.store.hasRecord c)
  if known then
    let spent ← LedgerError.liftStore (l.store.isSpent c.serial)
    if spent then .error (.alreadySpent c) else l.load c
  else .error (.unknownRecord c)

def height (l : Ledger) : Except LedgerError UInt64 := LedgerError.liftStore l.store.height

def unspentTotal (l : Ledger) : List StoredRecord → Except LedgerError Nat
  | [] => .ok 0
  | r :: rs => do
    let t ← LedgerError.liftProgram (Token.ofBytes r.bytes)
    let spent ← l.isSpent t
    let rest ← l.unspentTotal rs
    return if spent then rest else t.balance.toNat + rest

def totalSupply (l : Ledger) : Except LedgerError Nat := do
  let balances ← LedgerError.liftStore l.store.balances
  let records ← LedgerError.liftStore l.store.allRecords
  return Balances.total balances + (← l.unspentTotal records)

def snapshot (l : Ledger) : Except LedgerError Snapshot := do
  let accounts ← LedgerError.liftStore l.store.balances
  let records ← LedgerError.liftStore l.store.allRecords
  let tokens ← records.mapM fun r => LedgerError.liftProgram (Token.ofBytes r.bytes)
  let spent ← LedgerError.liftStore l.store.allSpent
  let height ← l.height
  return Snapshot.create accounts tokens spent height

/-- The content of a snapshot as changes of an empty vault. -/
def snapshotChanges (s : Snapshot) : Changes :=
  let c := s.accounts.foldl (fun c p => c.put p.1 p.2) Changes.empty
  let c := s.records.foldl (fun c t => c.addRecord t.stored) c
  s.spent.foldl Changes.spend c

def ofSnapshot (s : Snapshot) (store : Store) (seeds : SeedSource) : Except LedgerError Ledger := do
  if s.verify then
    let store ← LedgerError.liftStore (store.restore (snapshotChanges s) s.height)
    return ⟨store, seeds⟩
  else .error (.snapshot .hashMismatch)

end Ledger

end TokenLedger
