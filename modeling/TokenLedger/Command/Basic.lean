import TokenLedger.LogFormat
import TokenLedger.Ledger.Queries

/-!
# Commands

What can be asked for on the command line: eight commands call the program as
the caller, and three only read. A record to spend is named by its
commitment, and where an account may be left out, the caller's is meant.
-/

set_option autoImplicit false

namespace TokenLedger

inductive Command where
  | mint (amount : UInt64)
  | transferPrivate (receiver : Address) (amount : UInt64) (record : Commitment)
  | transferPrivateToPublic (receiver : Address) (amount : UInt64) (record : Commitment)
  | transferPublicToPrivate (receiver : Address) (amount : UInt64)
  | join (record record2 : Commitment)
  | mintPublic (receiver : Address) (amount : UInt64)
  | transferPublic (receiver : Address) (amount : UInt64)
  | gate (a b : Scalar)
  | balance (account : Option Address)
  | records (owner : Option Address)
  | snapshot
  deriving DecidableEq

namespace Command

def isQuery : Command → Bool
  | balance _ | records _ | snapshot => true
  | _ => false

/-! ## Words -/

def amount? (s : String) : Option UInt64 :=
  let ds := match s.toList with
    | '+' :: ds => ds
    | ds => ds
  if ds.isEmpty || !ds.all Char.isDigit then none
  else
    let n := Nat.ofDigitChars 10 ds 0
    if n < UInt64.size then some (UInt64.ofNat n) else none

def account? (s : String) : Option Address := (Address.parse s).toOption

def record? (s : String) : Option Commitment := (Commitment.parse s).toOption

def element? (s : String) : Option Scalar := (Scalar.parse s).toOption

/-- The arguments among some words. A word with a dash in front is an option
and refused, unless two dashes alone stand before it. -/
def arguments? : List String → Option (List String)
  | [] => some []
  | w :: ws =>
    if w = "--" then some ws
    else if w.toList.head? = some '-' then none
    else (w :: ·) <$> arguments? ws

def ofArguments? : String → List String → Option Command
  | "mint", [n] => do return .mint (← amount? n)
  | "transfer-private", [a, n, r] => do
    return .transferPrivate (← account? a) (← amount? n) (← record? r)
  | "transfer-private-to-public", [a, n, r] => do
    return .transferPrivateToPublic (← account? a) (← amount? n) (← record? r)
  | "transfer-public-to-private", [a, n] => do
    return .transferPublicToPrivate (← account? a) (← amount? n)
  | "join", [r, r2] => do return .join (← record? r) (← record? r2)
  | "mint-public", [a, n] => do return .mintPublic (← account? a) (← amount? n)
  | "transfer-public", [a, n] => do
    return .transferPublic (← account? a) (← amount? n)
  | "main", [a, b] => do return .gate (← element? a) (← element? b)
  | "balance", [] => some (.balance none)
  | "balance", [a] => do return .balance (some (← account? a))
  | "records", [] => some (.records none)
  | "records", [a] => do return .records (some (← account? a))
  | "snapshot", [] => some .snapshot
  | _, _ => none

def parse? : List String → Option Command
  | [] => none
  | name :: words => do ofArguments? name (← arguments? words)

end Command

end TokenLedger
