import TokenLedger.Token
import TokenLedger.Store.Changes

/-!
# Snapshots

The whole state of a ledger at one height: public balances, all records and
the published serial numbers, under a hash of all of it. Bytes are taken for
a snapshot only if they are of the known version and the hash fits.
-/

set_option autoImplicit false

namespace TokenLedger

structure Snapshot where
  hash : Bytes32
  height : UInt64
  accounts : Balances
  records : List Token
  spent : List SerialNumber
  version : UInt32
  deriving DecidableEq

namespace Wire

instance {α β : Type} [Binary α] [Binary β] : Binary (α × β) where
  put p := put p.1 ++ put p.2
  get bs := do
    let (a, bs) ← get bs
    let (b, bs) ← get bs
    return ((a, b), bs)

instance : Binary Snapshot where
  put s := put s.hash ++ put s.height ++ put s.accounts ++ put s.records ++ put s.spent ++
    put s.version
  get bs := do
    let (hash, bs) ← get bs
    let (height, bs) ← get bs
    let (accounts, bs) ← get bs
    let (records, bs) ← get bs
    let (spent, bs) ← get bs
    let (version, bs) ← get bs
    return (⟨hash, height, accounts, records, spent, version⟩, bs)

end Wire

namespace Snapshot

inductive Fault where
  | unreadable (fault : Wire.Fault)
  | version (found : UInt32)
  | hashMismatch
  deriving DecidableEq

def Fault.message : Fault → String
  | .unreadable fault => fault.message
  | .version found => s!"unsupported snapshot version {found}"
  | .hashMismatch => "hash mismatch"

def currentVersion : UInt32 := 1

/-- What the hash covers: each section behind its count, records by their commitments. -/
def preimage (s : Snapshot) : Bytes :=
  Bytes.word 4 s.version.toNat ++ Bytes.word 8 s.height.toNat ++
    Bytes.word 8 s.accounts.length ++
    s.accounts.flatMap (fun p => p.1.key.toList ++ Bytes.word 8 p.2.toNat) ++
    Bytes.word 8 s.records.length ++ s.records.flatMap (fun t => t.commitment.digest.toList) ++
    Bytes.word 8 s.spent.length ++ s.spent.flatMap (fun n => n.digest.toList)

def contentHash (s : Snapshot) : Bytes32 := Blake2b.hash s.preimage

def create (accounts : Balances) (records : List Token) (spent : List SerialNumber)
    (height : UInt64) : Snapshot :=
  let s : Snapshot := ⟨default, height, accounts, records, spent, currentVersion⟩
  { s with hash := s.contentHash }

def empty : Snapshot := create [] [] [] 0

def verify (s : Snapshot) : Bool := s.hash == s.contentHash

def toBytes (s : Snapshot) : Bytes := Wire.put s

def ofBytes (bs : Bytes) : Except Fault Snapshot :=
  match Wire.get (α := Snapshot) bs with
  | .error fault => .error (.unreadable fault)
  | .ok (s, _) =>
    if s.version ≠ currentVersion then .error (.version s.version)
    else if s.verify then .ok s
    else .error .hashMismatch

def hashText (s : Snapshot) : String := Digest.text s.hash

end Snapshot

end TokenLedger
