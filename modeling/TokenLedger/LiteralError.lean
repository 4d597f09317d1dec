import TokenLedger.Text.Hex

/-!
# Errors of written values

What can be wrong with the text of an address, a field element or a digest.
Every message repeats the text as it was given.
-/

set_option autoImplicit false

namespace TokenLedger

inductive LiteralError where
  | address (raw : String)
  | scalar (raw : String)
  | scalarRange (raw : String)
  | digest (raw : String) (fault : Text.Hex.Fault)
  deriving DecidableEq, Repr

def LiteralError.message : LiteralError → String
  | .address raw => "invalid address: " ++ raw
  | .scalar raw => "invalid field literal: " ++ raw
  | .scalarRange raw => "field literal exceeds the modulus: " ++ raw
  | .digest raw fault => "invalid digest: " ++ raw ++ ": " ++ fault.message

end TokenLedger
