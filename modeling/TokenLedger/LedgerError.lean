import TokenLedger.Snapshot
import TokenLedger.Transaction

/-!
# Ledger errors
-/

set_option autoImplicit false

namespace TokenLedger

inductive LedgerError where
  | program (error : ProgramError)
  | alreadySpent (commitment : Commitment)
  | unknownRecord (commitment : Commitment)
  | duplicateInput (commitment : Commitment)
  | malformed (id : TransitionId) (defect : Transaction.Defect)
  | snapshot (fault : Snapshot.Fault)
  | storage (error : StoreError)
  deriving DecidableEq

namespace LedgerError

def message : LedgerError → String
  | program error => "program error: " ++ error.message
  | alreadySpent c => "record " ++ c.text ++ " has already been spent"
  | unknownRecord c => "record " ++ c.text ++ " is not known to the ledger"
  | duplicateInput c =>
    "record " ++ c.text ++ " is used more than once in the same transaction"
  | malformed id defect => "transaction " ++ id.text ++ " is malformed: " ++ defect.message
  | snapshot fault => "snapshot error: " ++ fault.message
  | storage error => "storage error: " ++ error.message

def programKind : LedgerError → Option ProgramError.Kind
  | program error => some error.kind
  | alreadySpent _ | unknownRecord _ | duplicateInput _ | malformed _ _ | snapshot _
  | storage _ => none

def ofCheck (tx : Transaction) : Transaction.CheckError → LedgerError
  | .malformed defect => malformed tx.id defect
  | .notOwner owner => program (.notOwner owner tx.caller)

def liftStore {α : Type} (x : Except StoreError α) : Except LedgerError α :=
  x.mapError .storage

def liftProgram {α : Type} (x : Except ProgramError α) : Except LedgerError α :=
  x.mapError .program

end LedgerError

end TokenLedger
