import TokenLedger.ProgramError

/-!
# Token records

A record gives its owner a private balance. It is known by its commitment, a
hash of its three parts, and spent by the serial number derived from it.
Records are never changed: what uses one consumes it and issues others.
-/

set_option autoImplicit false

namespace TokenLedger

structure Token where
  owner : Address
  balance : UInt64
  nonce : Bytes32
  deriving DecidableEq, Inhabited

namespace Token

def commitmentPreimage (t : Token) : Bytes :=
  Digest.preimage (Bytes.ascii "veil.commitment")
    [t.owner.key.toList, Bytes.word 8 t.balance.toNat, t.nonce.toList]

def commitment (t : Token) : Commitment := ⟨Blake2b.hash t.commitmentPreimage⟩

def serial (t : Token) : SerialNumber := t.commitment.serial

end Token

namespace Wire

instance : Binary Token where
  put t := put t.owner ++ put t.balance ++ put t.nonce
  get bs := do
    let (owner, bs) ← get bs
    let (balance, bs) ← get bs
    let (nonce, bs) ← get bs
    return (⟨owner, balance, nonce⟩, bs)

end Wire

namespace Token

def toBytes (t : Token) : Bytes := Wire.put t

/-- A record from the body under which it is stored; what follows the body does not count. -/
def ofBytes (bs : Bytes) : Except ProgramError Token :=
  match Wire.get bs with
  | .ok (t, _) => .ok t
  | .error fault => .error (.malformedRecord fault)

def total : List Token → Nat
  | [] => 0
  | t :: ts => t.balance.toNat + total ts

end Token

end TokenLedger
