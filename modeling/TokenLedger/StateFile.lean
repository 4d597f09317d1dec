import TokenLedger.Command.Run

/-!
# State files

A ledger between two runs is one snapshot in a file. Where there is no file
the ledger is empty; a file that cannot be read is not taken for an empty one.
-/

set_option autoImplicit false

namespace TokenLedger.StateFile

inductive Found where
  | nothing
  | unreadable (reason : String)
  | content (bytes : Bytes)

def load (seeds : SeedSource) : Found → Except CommandError Ledger
  | .nothing => .ok ⟨.ofVault .empty, seeds⟩
  | .unreadable reason => .error (.stateFile reason)
  | .content bytes =>
    match Snapshot.ofBytes bytes with
    | .error fault => .error (.ledger (.snapshot fault))
    | .ok s => (Ledger.ofSnapshot s (.ofVault .empty) seeds).mapError .ledger

def content (l : Ledger) : Except CommandError Bytes := do
  let s ← l.snapshot.mapError CommandError.ledger
  return s.toBytes

/-- The name under which a file is written before it takes the place of the old one. -/
def draftName (name : String) : String := name ++ ".tmp"

end TokenLedger.StateFile
