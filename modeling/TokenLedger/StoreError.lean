import TokenLedger.Digest

/-!
# Storage errors
-/

set_option autoImplicit false

namespace TokenLedger

/-- Why a store refuses a call: a record is absent, a serial number or a
record is there already, a restore finds the store in use, or the medium
does not answer a call. -/
inductive StoreError where
  | notFound (commitment : Commitment)
  | serialExists (serial : SerialNumber)
  | recordExists (commitment : Commitment)
  | notEmpty
  | outage (call : String)
  deriving DecidableEq

def StoreError.message : StoreError → String
  | .notFound c => "key not found: " ++ c.text
  | .serialExists s => "duplicate key: serial " ++ s.text
  | .recordExists c => "duplicate key: record " ++ c.text
  | .notEmpty => "storage backend error: restore into a non-empty store"
  | .outage call => "storage backend error: " ++ call ++ " failed"

end TokenLedger
