import TokenLedger.Gate
import TokenLedger.Transaction
import TokenLedger.Transcript

/-!
# Evaluation

A call is evaluated from its arguments and its context alone; nothing shared
is read or written. The inputs have to belong to the caller, the arithmetic
has to fit, and only then is the transcript hashed and the outputs are issued.
-/

set_option autoImplicit false

namespace TokenLedger

namespace Call

def issued (ctx : Context) : Call → Except ProgramError (List (Address × UInt64))
  | mint amount => .ok [(ctx.caller, amount)]
  | transferPrivate receiver amount input => do
    let rest ← checkedSub input.balance amount
    return [(ctx.caller, rest), (receiver, amount)]
  | transferPrivateToPublic _ amount input => do
    let rest ← checkedSub input.balance amount
    return [(ctx.caller, rest)]
  | transferPublicToPrivate receiver amount => .ok [(receiver, amount)]
  | join input input2 => do
    let sum ← checkedAdd input.balance input2.balance
    return [(ctx.caller, sum)]
  | mintPublic _ _ | transferPublic _ _ | gate _ _ => .ok []

def settlement (ctx : Context) : Call → Option Settlement
  | transferPrivateToPublic receiver amount _ => some (.transferPrivateToPublic receiver amount)
  | transferPublicToPrivate _ amount => some (.transferPublicToPrivate ctx.caller amount)
  | mintPublic receiver amount => some (.mintPublic receiver amount)
  | transferPublic receiver amount => some (.transferPublic ctx.caller receiver amount)
  | mint _ | transferPrivate _ _ _ | join _ _ | gate _ _ => none

def value : Call → Except ProgramError (Option Scalar)
  | gate a b => some <$> TokenLedger.gate a b
  | mint _ | transferPrivate _ _ _ | transferPrivateToPublic _ _ _ | transferPublicToPrivate _ _
  | join _ _ | mintPublic _ _ | transferPublic _ _ => .ok none

def checkOwned (ctx : Context) (inputs : List Token) : Except ProgramError Unit :=
  match inputs.find? fun t => t.owner ≠ ctx.caller with
  | some t => .error (.notOwner t.owner ctx.caller)
  | none => .ok ()

/-- Records with the nonces of their slots, counted from `slot` on. -/
def mintSlots (id : TransitionId) (slot : Nat) : List (Address × UInt64) → List Token
  | [] => []
  | (owner, balance) :: rest => ⟨owner, balance, id.nonce slot⟩ :: mintSlots id (slot + 1) rest

def evaluate (ctx : Context) (call : Call) : Except ProgramError Transaction := do
  checkOwned ctx call.inputs
  let issued ← call.issued ctx
  let value ← call.value
  let id := Transcript.id ctx call
  return {
    id := id
    function := call.function
    caller := ctx.caller
    consumed := call.inputs
    outputs := mintSlots id 0 issued
    settlement := call.settlement ctx
    value := value }

end Call

end TokenLedger
