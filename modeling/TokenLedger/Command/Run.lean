import TokenLedger.Command.Basic
import TokenLedger.Wire.Messages

/-!
# Running commands

A command that calls the program looks its records up, needs a caller and is
executed under a fresh seed; a query leaves the ledger as it is. The answer is
JSON with the members of each object in alphabetical order.
-/

set_option autoImplicit false

namespace TokenLedger

inductive CommandError where
  | settings (reason : String)
  | stateFile (reason : String)
  | noCaller
  | ledger (error : LedgerError)
  deriving DecidableEq

def CommandError.message : CommandError → String
  | .settings reason => "configuration error: " ++ reason
  | .stateFile reason => "state file error: " ++ reason
  | .noCaller =>
    "no caller address given (use --caller, VEIL_CALLER or `caller` in the config file)"
  | .ledger error => error.message

namespace Command

/-! ## Answers -/

def tokenJson (t : Token) : Json :=
  .object [("balance", .nat t.balance.toNat), ("commitment", .text t.commitment.text),
    ("owner", .text t.owner.text)]

def receiptJson (r : Receipt) : Json :=
  .object [
    ("function", .text r.function.name),
    ("height", .nat r.height.toNat),
    ("records", .array (r.outputs.map tokenJson)),
    ("transition", .text r.id.text),
    ("value", match r.value with
      | some v => .text v.text
      | none => .null)]

def snapshotJson (s : Snapshot) : Json :=
  .object [
    ("accounts", .nat s.accounts.length),
    ("hash", .text s.hashText),
    ("height", .nat s.height.toNat),
    ("records", .nat s.records.length),
    ("spent", .nat s.spent.length)]

/-! ## Runs -/

def subject (named caller : Option Address) : Except CommandError Address :=
  match named.or caller with
  | some a => .ok a
  | none => .error .noCaller

def live (l : Ledger) (c : Commitment) : Except CommandError Token :=
  (l.unspentRecord c).mapError .ledger

/-- What a command comes to: an answer, or a call that is still to be executed. -/
inductive Plan where
  | answer (j : Json)
  | call (call : Call)

def plan (l : Ledger) (caller : Option Address) : Command → Except CommandError Plan
  | balance account => do
    let a ← subject account caller
    let n ← (l.publicBalance a).mapError .ledger
    return .answer (.object [("address", .text a.text), ("balance", .nat n.toNat)])
  | records owner => do
    let a ← subject owner caller
    let ts ← (l.recordsOf a).mapError .ledger
    return .answer (.object [("owner", .text a.text), ("records", .array (ts.map tokenJson))])
  | snapshot => do
    let s ← l.snapshot.mapError .ledger
    return .answer (snapshotJson s)
  | mint amount => return .call (.mint amount)
  | transferPrivate receiver amount record => do
    return .call (.transferPrivate receiver amount (← live l record))
  | transferPrivateToPublic receiver amount record => do
    return .call (.transferPrivateToPublic receiver amount (← live l record))
  | transferPublicToPrivate receiver amount =>
    return .call (.transferPublicToPrivate receiver amount)
  | join record record2 => do
    return .call (.join (← live l record) (← live l record2))
  | mintPublic receiver amount => return .call (.mintPublic receiver amount)
  | transferPublic receiver amount => return .call (.transferPublic receiver amount)
  | gate a b => return .call (.gate a b)

/-- A caller is asked for only after the records were found. -/
def run (l : Ledger) (caller : Option Address) (c : Command) :
    Except CommandError Json × Ledger :=
  match c.plan l caller with
  | .error e => (.error e, l)
  | .ok (.answer j) => (.ok j, l)
  | .ok (.call call) =>
    match caller with
    | none => (.error .noCaller, l)
    | some a =>
      let (result, l) := l.execute a call
      ((result.mapError .ledger).map receiptJson, l)

end Command

end TokenLedger
