import TokenLedger.ProgramError

/-!
# Seeds

Every evaluation that names no seed draws one. Draws take no argument, so a
source is the sequence of its answers and a position in it; an answer may be
a failure. The standard source goes round a list and puts the number of the
round into the last eight bytes.
-/

set_option autoImplicit false

namespace TokenLedger

structure SeedSource where
  nth : Nat → Except ProgramError Bytes32
  drawn : Nat

namespace SeedSource

def draw (s : SeedSource) : Except ProgramError Bytes32 × SeedSource :=
  (s.nth s.drawn, { s with drawn := s.drawn + 1 })

def drawMany (s : SeedSource) : Nat → List (Except ProgramError Bytes32) × SeedSource
  | 0 => ([], s)
  | n + 1 =>
    let (seed, s) := s.draw
    let (seeds, s) := drawMany s n
    (seed :: seeds, s)

end SeedSource

structure SeedCycle where
  seeds : List Bytes32
  nonempty : seeds ≠ []

namespace SeedCycle

def ofList? (seeds : List Bytes32) : Option SeedCycle :=
  if h : seeds ≠ [] then some ⟨seeds, h⟩ else none

def single (seed : Bytes32) : SeedCycle := ⟨[seed], by simp⟩

def xorBytes (a b : Bytes) : Bytes := List.zipWith (· ^^^ ·) a b

/-- A seed with the number of a round in its last eight bytes. -/
def inRound (seed : Bytes32) (round : Nat) : Bytes32 :=
  ⟨seed.toList.take 24 ++ xorBytes (seed.toList.drop 24) (Bytes.word 8 round), by
    simp [xorBytes, seed.length_toList]⟩

def nth (c : SeedCycle) (i : Nat) : Bytes32 :=
  have h : i % c.seeds.length < c.seeds.length :=
    Nat.mod_lt _ (List.length_pos_iff.2 c.nonempty)
  inRound c.seeds[i % c.seeds.length] (i / c.seeds.length)

def served (fails : Nat → Bool) (n : Nat) : Nat := (List.range n).countP fun i => !fails i

/-- The cycle as a source of which some draws fail; a failed draw uses up no seed. -/
def source (c : SeedCycle) (fails : Nat → Bool) : SeedSource where
  nth n := if fails n then .error (.entropy s!"draw {n}") else .ok (c.nth (served fails n))
  drawn := 0

end SeedCycle

end TokenLedger
