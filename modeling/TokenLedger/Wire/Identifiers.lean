import TokenLedger.Wire.Binary
import TokenLedger.Address
import TokenLedger.Digest
import TokenLedger.Function
import TokenLedger.Scalar.Literal

/-!
# Binary form of identifiers

Addresses and field elements travel as their texts, digests as their bytes
and functions as their index.
-/

set_option autoImplicit false

namespace TokenLedger.Wire

instance : Binary Address where
  put a := putText a.text
  get := Reader.literal Address.parse

instance : Binary Scalar where
  put a := putText a.text
  get := Reader.literal Scalar.parse

instance : Binary Commitment where
  put c := put c.digest
  get bs := do
    let (a, bs) ← get bs
    return (⟨a⟩, bs)

instance : Binary SerialNumber where
  put s := put s.digest
  get bs := do
    let (a, bs) ← get bs
    return (⟨a⟩, bs)

instance : Binary TransitionId where
  put t := put t.digest
  get bs := do
    let (a, bs) ← get bs
    return (⟨a⟩, bs)

instance : Binary Function where
  put f := putChoice (Function.all.idxOf f)
  get bs := do
    let (i, bs) ← Reader.choice Function.all.length bs
    return (Function.all.getD i .mint, bs)

end TokenLedger.Wire
