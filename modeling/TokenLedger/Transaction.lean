import TokenLedger.Settlement
import TokenLedger.Token

/-!
# Transactions

What a call comes to when it is evaluated, and what a ledger applies: an
execution of the program and the transaction made of it have the same fields
in the same order, so one type stands for both. The ledger takes transactions
from anywhere, so `check` tests again what an evaluation guarantees: record
counts, the kind of the settlement, a return value only for the gate,
ownership of the inputs, whom the settlement debits, and that value is kept by
all but the two mints.
-/

set_option autoImplicit false

namespace TokenLedger

structure Transaction where
  id : TransitionId
  function : Function
  caller : Address
  consumed : List Token
  outputs : List Token
  settlement : Option Settlement
  value : Option Scalar
  deriving DecidableEq

structure Receipt where
  id : TransitionId
  function : Function
  outputs : List Token
  value : Option Scalar
  /-- The height of the ledger after the transaction. -/
  height : UInt64
  deriving DecidableEq

namespace Transaction

inductive Defect where
  | recordCounts (function : Function)
  | foreignSettlement (function : Function)
  | noSettlement
  | returnValue
  | debits (account : Address)
  | imbalance (consumed produced : Int)
  deriving DecidableEq

def Defect.message : Defect → String
  | .recordCounts f => s!"{f.name} takes {f.consumes} records and issues {f.issues}"
  | .foreignSettlement f => "finalize step belongs to " ++ f.name
  | .noSettlement => "missing finalize step"
  | .returnValue => "unexpected return value"
  | .debits account => "finalize debits " ++ account.text
  | .imbalance consumed produced => s!"consumes {consumed} but produces {produced}"

/-- Why a transaction fails its check: it is malformed, or it spends a foreign record. -/
inductive CheckError where
  | malformed (defect : Defect)
  | notOwner (owner : Address)
  deriving DecidableEq

def consumedTotal (tx : Transaction) : Nat := Token.total tx.consumed

def outputTotal (tx : Transaction) : Nat := Token.total tx.outputs

def produced (tx : Transaction) : Int :=
  tx.outputTotal + (tx.settlement.map Settlement.supplyDelta).getD 0

def checkCounts (tx : Transaction) : Except CheckError Unit :=
  if tx.consumed.length = tx.function.consumes ∧ tx.outputs.length = tx.function.issues then .ok ()
  else .error (.malformed (.recordCounts tx.function))

def checkSettlement (tx : Transaction) : Except CheckError Unit :=
  match tx.settlement with
  | some s =>
    if s.function = tx.function then .ok () else .error (.malformed (.foreignSettlement s.function))
  | none => if tx.function.settles then .error (.malformed .noSettlement) else .ok ()

def checkValue (tx : Transaction) : Except CheckError Unit :=
  if tx.value.isSome = (tx.function == .gate) then .ok () else .error (.malformed .returnValue)

def checkOwners (tx : Transaction) : Except CheckError Unit :=
  match tx.consumed.find? fun t => t.owner ≠ tx.caller with
  | some t => .error (.notOwner t.owner)
  | none => .ok ()

def checkDebit (tx : Transaction) : Except CheckError Unit :=
  match tx.settlement.bind Settlement.debited with
  | some account => if account = tx.caller then .ok () else .error (.malformed (.debits account))
  | none => .ok ()

def checkBalance (tx : Transaction) : Except CheckError Unit :=
  if tx.function.creates ∨ (tx.consumedTotal : Int) = tx.produced then .ok ()
  else .error (.malformed (.imbalance tx.consumedTotal tx.produced))

def check (tx : Transaction) : Except CheckError Unit := do
  tx.checkCounts
  tx.checkSettlement
  tx.checkValue
  tx.checkOwners
  tx.checkDebit
  tx.checkBalance

end Transaction

end TokenLedger
