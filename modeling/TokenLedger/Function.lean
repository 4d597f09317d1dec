/-!
# Program functions

The eight functions of the token program, their names, and what each does to
the record set: how many records it consumes and issues, and whether a
settlement of public balances follows it.
-/

set_option autoImplicit false

namespace TokenLedger

inductive Function where
  | mint
  | transferPrivate
  | transferPrivateToPublic
  | transferPublicToPrivate
  | join
  | mintPublic
  | transferPublic
  | gate
  deriving DecidableEq, Repr, Inhabited

namespace Function

def all : List Function :=
  [mint, transferPrivate, transferPrivateToPublic, transferPublicToPrivate, join, mintPublic,
    transferPublic, gate]

def name : Function → String
  | mint => "mint"
  | transferPrivate => "transfer_private"
  | transferPrivateToPublic => "transfer_private_to_public"
  | transferPublicToPrivate => "transfer_public_to_private"
  | join => "join"
  | mintPublic => "mint_public"
  | transferPublic => "transfer_public"
  | gate => "main"

/-- The name by which messages in JSON select the function. -/
def tag : Function → String
  | mint => "Mint"
  | transferPrivate => "TransferPrivate"
  | transferPrivateToPublic => "TransferPrivateToPublic"
  | transferPublicToPrivate => "TransferPublicToPrivate"
  | join => "Join"
  | mintPublic => "MintPublic"
  | transferPublic => "TransferPublic"
  | gate => "Main"

def ofName? (s : String) : Option Function := all.find? fun f => f.name == s

def settles : Function → Bool
  | transferPrivateToPublic | transferPublicToPrivate | mintPublic | transferPublic => true
  | mint | transferPrivate | join | gate => false

def consumes : Function → Nat
  | transferPrivate | transferPrivateToPublic => 1
  | join => 2
  | mint | transferPublicToPrivate | mintPublic | transferPublic | gate => 0

def issues : Function → Nat
  | mint | transferPrivateToPublic | transferPublicToPrivate | join => 1
  | transferPrivate => 2
  | mintPublic | transferPublic | gate => 0

def creates : Function → Bool
  | mint | mintPublic => true
  | transferPrivate | transferPrivateToPublic | transferPublicToPrivate | join | transferPublic
  | gate => false

theorem mem_all (f : Function) : f ∈ all := by cases f <;> decide

theorem ofName?_name (f : Function) : ofName? f.name = some f := by cases f <;> decide

end Function

end TokenLedger
