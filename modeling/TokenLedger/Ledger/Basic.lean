import TokenLedger.Evaluation
import TokenLedger.LedgerError
import TokenLedger.Seeds
import TokenLedger.Store.Overlay

/-!
# The ledger

A store and a source of seeds. A transaction is applied by staging all its
writes and committing them together: what is rejected while staging has
touched nothing. `execute` evaluates a call under a fresh seed and applies
it; a batch draws all its seeds before the first evaluation.
-/

set_option autoImplicit false

namespace TokenLedger

def Token.stored (t : Token) : StoredRecord := ⟨t.commitment, t.owner, t.toBytes⟩

structure Ledger where
  store : Store
  seeds : SeedSource

namespace Store

/-- The inputs of a transaction are marked as spent: each has to differ from
those `seen` before it, be stored and be unspent. -/
def stageInputs (s : Store) (seen : List Commitment) (c : Changes) :
    List Token → Except LedgerError Changes
  | [] => .ok c
  | t :: ts => do
    let id := t.commitment
    if id ∈ seen then .error (.duplicateInput id)
    else
      let known ← LedgerError.liftStore (s.hasRecord id)
      if known then
        let spent ← LedgerError.liftStore (s.isSpent id.serial)
        if spent then .error (.alreadySpent id)
        else s.stageInputs (id :: seen) (c.spend id.serial) ts
      else .error (.unknownRecord id)

def stageSettlement (s : Store) (c : Changes) : Option Settlement → Except LedgerError Changes
  | none => .ok c
  | some settlement =>
    match (Overlay.mk s c).settle settlement with
    | (o, .ok ()) => .ok o.changes
    | (_, .error e) => .error (.program e)

def stage (s : Store) (tx : Transaction) : Except LedgerError Changes := do
  tx.check.mapError (LedgerError.ofCheck tx)
  let c ← s.stageInputs [] .empty tx.consumed
  let c ← s.stageSettlement c tx.settlement
  return tx.outputs.foldl (fun c t => c.addRecord t.stored) c

end Store

namespace Ledger

def apply (l : Ledger) (tx : Transaction) : Except LedgerError Receipt × Ledger :=
  match l.store.stage tx with
  | .error e => (.error e, l)
  | .ok changes =>
    match l.store.commit changes with
    | .error e => (.error (.storage e), l)
    | .ok store =>
      let l := { l with store := store }
      match store.height with
      | .error e => (.error (.storage e), l)
      | .ok height => (.ok ⟨tx.id, tx.function, tx.outputs, tx.value, height⟩, l)

def executeWith (l : Ledger) (ctx : Context) (call : Call) :
    Except LedgerError Receipt × Ledger :=
  match call.evaluate ctx with
  | .error e => (.error (.program e), l)
  | .ok tx => l.apply tx

def execute (l : Ledger) (caller : Address) (call : Call) :
    Except LedgerError Receipt × Ledger :=
  match l.seeds.draw with
  | (.error e, seeds) => (.error (.program e), { l with seeds := seeds })
  | (.ok seed, seeds) => { l with seeds := seeds }.executeWith ⟨caller, seed⟩ call

/-- Transactions that could be evaluated are applied in order, the others keep their place. -/
def applyEach (l : Ledger) :
    List (Except LedgerError Transaction) → List (Except LedgerError Receipt) × Ledger
  | [] => ([], l)
  | .error e :: rest =>
    let (results, l) := applyEach l rest
    (.error e :: results, l)
  | .ok tx :: rest =>
    let (result, l) := l.apply tx
    let (results, l) := applyEach l rest
    (result :: results, l)

def prepare (request : Address × Call) (seed : Except ProgramError Bytes32) :
    Except LedgerError Transaction := LedgerError.liftProgram do
  request.2.evaluate ⟨request.1, ← seed⟩

def executeBatch (l : Ledger) (requests : List (Address × Call)) :
    List (Except LedgerError Receipt) × Ledger :=
  let (seeds, source) := l.seeds.drawMany requests.length
  { l with seeds := source }.applyEach (List.zipWith prepare requests seeds)

end Ledger

end TokenLedger
