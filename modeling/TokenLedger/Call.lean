import TokenLedger.Token

/-!
# Calls

A program function together with its arguments.
-/

set_option autoImplicit false

namespace TokenLedger

inductive Call where
  | mint (amount : UInt64)
  | transferPrivate (receiver : Address) (amount : UInt64) (input : Token)
  | transferPrivateToPublic (receiver : Address) (amount : UInt64) (input : Token)
  | transferPublicToPrivate (receiver : Address) (amount : UInt64)
  | join (input input2 : Token)
  | mintPublic (receiver : Address) (amount : UInt64)
  | transferPublic (receiver : Address) (amount : UInt64)
  | gate (a b : Scalar)
  deriving DecidableEq

namespace Call

def function : Call → Function
  | mint _ => .mint
  | transferPrivate _ _ _ => .transferPrivate
  | transferPrivateToPublic _ _ _ => .transferPrivateToPublic
  | transferPublicToPrivate _ _ => .transferPublicToPrivate
  | join _ _ => .join
  | mintPublic _ _ => .mintPublic
  | transferPublic _ _ => .transferPublic
  | gate _ _ => .gate

def inputs : Call → List Token
  | transferPrivate _ _ input | transferPrivateToPublic _ _ input => [input]
  | join input input2 => [input, input2]
  | mint _ | transferPublicToPrivate _ _ | mintPublic _ _ | transferPublic _ _ | gate _ _ => []

/-- The arguments as they enter the transcript, inputs by their commitments. -/
def arguments : Call → List Bytes
  | mint amount => [Bytes.word 8 amount.toNat]
  | transferPrivate receiver amount input | transferPrivateToPublic receiver amount input =>
    [receiver.key.toList, Bytes.word 8 amount.toNat, input.commitment.digest.toList]
  | transferPublicToPrivate receiver amount | mintPublic receiver amount
  | transferPublic receiver amount => [receiver.key.toList, Bytes.word 8 amount.toNat]
  | join input input2 => [input.commitment.digest.toList, input2.commitment.digest.toList]
  | gate a b => [Text.Utf8.ofString a.text, Text.Utf8.ofString b.text]

end Call

end TokenLedger
