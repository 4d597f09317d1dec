import TokenLedger.Radix
import TokenLedger.Text.Hex

/-!
# Numbers in settings documents

Integers in four bases and decimal fractions with a power of ten. A single
underscore may stand between two digits. An integer has to fit into 64 bits,
and a fraction must not be so large that it would round to infinity.
-/

set_option autoImplicit false

namespace TokenLedger.Settings

inductive Number where
  | integer (n : Int)
  | fraction (negative : Bool) (digits : Nat) (exponent : Int)
  | infinity (negative : Bool)
  | undefined
  deriving DecidableEq, Repr

namespace Number

/-! ## Digits -/

def digit? (base : Nat) (c : Char) : Option Nat :=
  (Text.Hex.digitValue? c.toNat).filter fun d => d < base

def moreDigits (base : Nat) : List Char → List Nat × List Char
  | [] => ([], [])
  | ['_'] => ([], ['_'])
  | '_' :: c :: cs =>
    match digit? base c with
    | none => ([], '_' :: c :: cs)
    | some d =>
      let (ds, rest) := moreDigits base cs
      (d :: ds, rest)
  | c :: cs =>
    match digit? base c with
    | none => ([], c :: cs)
    | some d =>
      let (ds, rest) := moreDigits base cs
      (d :: ds, rest)

def digits? (base : Nat) : List Char → Option (List Nat × List Char)
  | [] => none
  | c :: cs => do
    let d ← digit? base c
    let (ds, rest) := moreDigits base cs
    return (d :: ds, rest)

def ofDigits (base : Nat) (ds : List Nat) : Nat := Radix.value base ds.reverse

def whole? : List Char → Option (List Nat × List Char)
  | '0' :: cs => some ([0], cs)
  | cs => digits? 10 cs

def sign : List Char → Bool × List Char
  | '-' :: cs => (true, cs)
  | '+' :: cs => (false, cs)
  | cs => (false, cs)

def signed (negative : Bool) (n : Nat) : Int := if negative then -n else n

/-! ## Ranges -/

def integer? (n : Int) : Option Number :=
  let half : Int := UInt64.size / 2
  if -half ≤ n ∧ n < half then some (.integer n) else none

/-- The least number that rounds to infinity in double precision. -/
def roundsUp : Nat := (1 <<< 1024) - (1 <<< 970)

/-- Whether digits times a power of ten round to infinity. No power is computed
that the count of the digits makes needless. -/
def overflows (ds : List Nat) (exponent : Int) : Bool :=
  let n := ofDigits 10 ds
  n != 0 && 308 < ds.length + exponent &&
    (308 < exponent ||
      roundsUp * Nat.pow 10 (-exponent).toNat ≤ n * Nat.pow 10 exponent.toNat)

def fraction? (negative : Bool) (ds : List Nat) (exponent : Int) : Option Number :=
  if !negative && overflows ds exponent then none
  else some (.fraction negative (ofDigits 10 ds) exponent)

/-! ## Reading -/

def places? : List Char → Option (List Nat × List Char)
  | '.' :: cs => digits? 10 cs
  | _ => none

def exponent? : List Char → Option (Int × List Char)
  | [] => none
  | e :: cs =>
    if e = 'e' ∨ e = 'E' then do
      let (negative, cs) := sign cs
      let (ds, rest) ← digits? 10 cs
      return (signed negative (ofDigits 10 ds), rest)
    else none

def unsigned? (negative : Bool) (cs : List Char) : Option (Number × List Char) := do
  let (ds, rest) ← whole? cs
  match places? rest with
  | some (fs, rest) =>
    let (e, rest) := (exponent? rest).getD (0, rest)
    return (← fraction? negative (ds ++ fs) (e - fs.length), rest)
  | none =>
    match exponent? rest with
    | some (e, rest) => return (← fraction? negative ds e, rest)
    | none => return (← integer? (signed negative (ofDigits 10 ds)), rest)

def decimal? (cs : List Char) : Option (Number × List Char) :=
  let (negative, cs) := sign cs
  match cs with
  | 'i' :: 'n' :: 'f' :: rest => some (.infinity negative, rest)
  | 'n' :: 'a' :: 'n' :: rest => some (.undefined, rest)
  | cs => unsigned? negative cs

def based? (base : Nat) (cs : List Char) : Option (Number × List Char) := do
  let (ds, rest) ← digits? base cs
  return (← integer? (ofDigits base ds), rest)

def read? : List Char → Option (Number × List Char)
  | '0' :: 'x' :: cs => based? 16 cs
  | '0' :: 'o' :: cs => based? 8 cs
  | '0' :: 'b' :: cs => based? 2 cs
  | cs => decimal? cs

end Number

end TokenLedger.Settings
