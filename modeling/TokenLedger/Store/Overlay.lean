import TokenLedger.Settlement
import TokenLedger.Store.Access

/-!
# Settling balances

A settlement reads through the changes gathered so far onto the store and
writes into the changes. A move that fails writes nothing, but what an
earlier move wrote stays in the changes.
-/

set_option autoImplicit false

namespace TokenLedger

structure Overlay where
  store : Store
  changes : Changes

namespace Overlay

def read (o : Overlay) (key : Address) : Except ProgramError (Option UInt64) :=
  match o.changes.written? key with
  | some v => .ok (some v)
  | none =>
    match o.store.balance? key with
    | .ok v => .ok v
    | .error e => .error (.store e)

def get (o : Overlay) (key : Address) : Except ProgramError UInt64 := do
  match ← o.read key with
  | some v => .ok v
  | none => .error (.missingKey key)

def getD (o : Overlay) (key : Address) (default : UInt64) : Except ProgramError UInt64 := do
  return (← o.read key).getD default

def set (o : Overlay) (key : Address) (value : UInt64) : Overlay :=
  { o with changes := o.changes.put key value }

def move (o : Overlay) : Move → Except ProgramError Overlay
  | .credit key amount => do
    let current ← o.getD key 0
    return o.set key (← checkedAdd current amount)
  | .debit key amount => do
    let current ← o.get key
    return o.set key (← checkedSub current amount)

/-- Moves in order up to the first that fails, with the writes made until then. -/
def run (o : Overlay) : List Move → Overlay × Except ProgramError Unit
  | [] => (o, .ok ())
  | m :: ms =>
    match o.move m with
    | .ok o => o.run ms
    | .error e => (o, .error e)

def settle (o : Overlay) (s : Settlement) : Overlay × Except ProgramError Unit := o.run s.moves

end Overlay

end TokenLedger
