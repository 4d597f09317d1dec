import TokenLedger.Call

/-!
# Transcripts

Who calls, under which seed, and what is asked: together they fix the id of
the transition and, through it, the nonce of every record it issues. Items
stand behind their lengths, so no two lists of items are hashed alike.
-/

set_option autoImplicit false

namespace TokenLedger

/-- The account that calls and the seed that makes its outputs unique. -/
structure Context where
  caller : Address
  seed : Bytes32
  deriving DecidableEq

namespace Transcript

def item (bs : Bytes) : Bytes := Bytes.word 4 bs.length ++ bs

def items (ctx : Context) (call : Call) : List Bytes :=
  Bytes.ascii call.function.name :: ctx.caller.key.toList :: ctx.seed.toList :: call.arguments

def preimage (ctx : Context) (call : Call) : Bytes :=
  Digest.preimage (Bytes.ascii "veil.transition") [(items ctx call).flatMap item]

def id (ctx : Context) (call : Call) : TransitionId := ⟨Blake2b.hash (preimage ctx call)⟩

end Transcript

namespace TransitionId

def noncePreimage (id : TransitionId) (slot : Nat) : Bytes :=
  Digest.preimage (Bytes.ascii "veil.nonce") [id.digest.toList, Bytes.word 2 slot]

def nonce (id : TransitionId) (slot : Nat) : Bytes32 := Blake2b.hash (id.noncePreimage slot)

end TransitionId

end TokenLedger
