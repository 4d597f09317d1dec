import TokenLedger.ProgramError

/-!
# The gate

A membership test over the field that two elements pass.
-/

set_option autoImplicit false

namespace TokenLedger

/-- Returns `a + b` if `a` is 10 or 13, tested as a product that has to vanish. -/
def gate (a b : Scalar) : Except ProgramError Scalar :=
  if ((a - Scalar.ofUInt64 10) * (a - Scalar.ofUInt64 13)).isZero then .ok (a + b)
  else .error (.gateClosed a)

end TokenLedger
