import TokenLedger.ProgramError

/-!
# Settlements

The part of a call that moves public balances. It is fixed when the call is
evaluated and carried out when the transaction is applied, as one or two
moves in order.
-/

set_option autoImplicit false

namespace TokenLedger

inductive Settlement where
  | transferPrivateToPublic (receiver : Address) (amount : UInt64)
  | transferPublicToPrivate (caller : Address) (amount : UInt64)
  | mintPublic (receiver : Address) (amount : UInt64)
  | transferPublic (caller receiver : Address) (amount : UInt64)
  deriving DecidableEq

/-- One change of one public balance. A credited account may be absent, a
debited one may not. -/
inductive Move where
  | credit (key : Address) (amount : UInt64)
  | debit (key : Address) (amount : UInt64)
  deriving DecidableEq

namespace Settlement

def function : Settlement → Function
  | transferPrivateToPublic _ _ => .transferPrivateToPublic
  | transferPublicToPrivate _ _ => .transferPublicToPrivate
  | mintPublic _ _ => .mintPublic
  | transferPublic _ _ _ => .transferPublic

def moves : Settlement → List Move
  | transferPrivateToPublic receiver amount | mintPublic receiver amount =>
    [.credit receiver amount]
  | transferPublicToPrivate caller amount => [.debit caller amount]
  | transferPublic caller receiver amount => [.debit caller amount, .credit receiver amount]

def debited : Settlement → Option Address
  | transferPublicToPrivate caller _ | transferPublic caller _ _ => some caller
  | transferPrivateToPublic _ _ | mintPublic _ _ => none

def supplyDelta : Settlement → Int
  | transferPrivateToPublic _ amount | mintPublic _ amount => amount.toNat
  | transferPublicToPrivate _ amount => -amount.toNat
  | transferPublic _ _ _ => 0

end Settlement

end TokenLedger
