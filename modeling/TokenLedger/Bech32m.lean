/-!
# The bech32m code

Symbols of five bits, their alphabet and the cyclic checksum. A word of
symbols is valid when its remainder, after the expanded human-readable part,
is one fixed constant; the six checksum symbols are what makes it so.
-/

set_option autoImplicit false

namespace TokenLedger.Bech32m

abbrev Symbol := BitVec 5
abbrev Remainder := BitVec 30

def alphabet : List Char := "qpzry9x8gf2tvdw0s3jn54khce6mua7l".toList

def char (s : Symbol) : Char := alphabet.getD s.toNat 'q'

def symbol? (c : Char) : Option Symbol :=
  if c ∈ alphabet then some (BitVec.ofNat 5 (alphabet.idxOf c)) else none

theorem symbol?_char (s : Symbol) : symbol? (char s) = some s := by
  revert s; decide

theorem char_of_symbol? {c : Char} {s : Symbol} (h : symbol? c = some s) : char s = c := by
  unfold symbol? at h
  split at h
  · next hc =>
    have hall : (alphabet.all fun d => char (BitVec.ofNat 5 (alphabet.idxOf d)) == d) = true := by
      decide
    exact Option.some.inj h ▸ eq_of_beq (List.all_eq_true.1 hall c hc)
  · simp at h

def feedback (top : Symbol) : Remainder :=
  (if top.getLsbD 0 then 0x3b6a57b2 else 0) ^^^ (if top.getLsbD 1 then 0x26508e6d else 0) ^^^
    (if top.getLsbD 2 then 0x1ea119fa else 0) ^^^ (if top.getLsbD 3 then 0x3d4233dd else 0) ^^^
      (if top.getLsbD 4 then 0x2a1462b3 else 0)

def step (r : Remainder) (s : Symbol) : Remainder :=
  (r <<< 5) ^^^ s.setWidth 30 ^^^ feedback (r.extractLsb' 25 5)

def remainder (word : List Symbol) : Remainder := word.foldl step 1

def constant : Remainder := 0x2bc830a3

/-- The human-readable part: the high bits of its characters, a zero, the low bits. -/
def expand (label : List Char) : List Symbol :=
  label.map (fun c => BitVec.ofNat 5 (c.toNat / 32)) ++ 0 ::
    label.map (fun c => BitVec.ofNat 5 (c.toNat % 32))

def isValid (label : List Char) (word : List Symbol) : Bool :=
  remainder (expand label ++ word) == constant

def symbols (r : Remainder) : List Symbol :=
  [r.extractLsb' 25 5, r.extractLsb' 20 5, r.extractLsb' 15 5, r.extractLsb' 10 5,
    r.extractLsb' 5 5, r.extractLsb' 0 5]

def checksum (label : List Char) (data : List Symbol) : List Symbol :=
  symbols (remainder (expand label ++ data ++ List.replicate 6 0) ^^^ constant)

end TokenLedger.Bech32m
