import TokenLedger.Json.Basic
import TokenLedger.Text.Hex

/-!
# Reading JSON

One value with blanks around it and nothing behind it. Members of an object
are kept in order and with their repetitions; what they mean is for the
reader of the value to say.
-/

set_option autoImplicit false

namespace TokenLedger.Json

def isBlank (c : Char) : Bool := c == ' ' || c == '\n' || c == '\r' || c == '\t'

def skipBlanks (cs : List Char) : List Char := cs.dropWhile isBlank

/-! ## Strings -/

inductive Piece where
  | char (c : Char)
  | unit (n : Nat)

def escaped? (c : Char) : Option Char :=
  if c = '"' ∨ c = '\\' ∨ c = '/' then some c
  else if c = 'n' then some '\n'
  else if c = 'r' then some '\r'
  else if c = 't' then some '\t'
  else if c = 'b' then some '\x08'
  else if c = 'f' then some '\x0c'
  else none

def pieces : List Char → Option (List Piece × List Char)
  | [] => none
  | '"' :: rest => some ([], rest)
  | '\\' :: 'u' :: a :: b :: c :: d :: rest => do
    let n ← Text.Hex.number? [a, b, c, d]
    let (ps, rest) ← pieces rest
    return (.unit n :: ps, rest)
  | '\\' :: e :: rest => do
    let c ← escaped? e
    let (ps, rest) ← pieces rest
    return (.char c :: ps, rest)
  | c :: rest =>
    if c.toNat < 0x20 then none
    else do
      let (ps, rest) ← pieces rest
      return (.char c :: ps, rest)

def isHigh (n : Nat) : Bool := 0xd800 ≤ n && n < 0xdc00
def isLow (n : Nat) : Bool := 0xdc00 ≤ n && n < 0xe000

/-- The characters that pieces spell, unless a half of a surrogate pair stands alone. -/
def pieceChars? : List Piece → Option (List Char)
  | [] => some []
  | .char c :: ps => (c :: ·) <$> pieceChars? ps
  | .unit h :: .unit l :: ps =>
    if isHigh h && isLow l then
      (Char.ofNat (0x10000 + (h - 0xd800) * 0x400 + (l - 0xdc00)) :: ·) <$> pieceChars? ps
    else if isHigh h || isLow h then none
    else (Char.ofNat h :: ·) <$> pieceChars? (.unit l :: ps)
  | .unit n :: ps =>
    if isHigh n || isLow n then none else (Char.ofNat n :: ·) <$> pieceChars? ps

def string (cs : List Char) : Option (Option String × List Char) := do
  let (ps, rest) ← pieces cs
  return ((pieceChars? ps).map String.ofList, rest)

def spelled (cs rest : List Char) : String := String.ofList (cs.take (cs.length - rest.length))

def ofMembers (cs rest : List Char) (ms : List (Option String × Json)) : Json :=
  match ms.mapM fun (k, j) => k.map fun k => (k, j) with
  | some ms => .object ms
  | none => .unpaired (spelled cs rest)

/-! ## Numbers -/

def digits (cs : List Char) : Option (List Char × List Char) :=
  match cs.takeWhile Char.isDigit with
  | [] => none
  | ds => some (ds, cs.dropWhile Char.isDigit)

def integer (cs : List Char) : Option (List Char × List Char) :=
  match digits cs with
  | some ('0' :: _ :: _, _) => none
  | r => r

def fraction : List Char → Option (List Char × List Char)
  | '.' :: cs => do
    let (ds, rest) ← digits cs
    return ('.' :: ds, rest)
  | cs => some ([], cs)

def exponent : List Char → Option (List Char × List Char)
  | e :: cs =>
    if e = 'e' ∨ e = 'E' then
      match cs with
      | '+' :: cs => do
        let (ds, rest) ← digits cs
        return (e :: '+' :: ds, rest)
      | '-' :: cs => do
        let (ds, rest) ← digits cs
        return (e :: '-' :: ds, rest)
      | cs => do
        let (ds, rest) ← digits cs
        return (e :: ds, rest)
    else some ([], e :: cs)
  | [] => some ([], [])

def unsigned (cs : List Char) : Option (Json × List Char) := do
  let (ds, rest) ← integer cs
  let (fs, rest) ← fraction rest
  let (es, rest) ← exponent rest
  if fs.isEmpty && es.isEmpty then return (.nat (Nat.ofDigitChars 10 ds 0), rest)
  else return (.decimal (String.ofList (ds ++ fs ++ es)), rest)

def number : List Char → Option (Json × List Char)
  | '-' :: cs => do
    let (j, rest) ← unsigned cs
    return (.decimal (String.ofList ('-' :: chars j)), rest)
  | cs => unsigned cs

/-! ## Values -/

mutual

def value : Nat → List Char → Option (Json × List Char)
  | 0, _ => none
  | fuel + 1, cs =>
    let cs := skipBlanks cs
    match cs with
    | '"' :: rest => do
      match ← string rest with
      | (some s, rest) => return (.text s, rest)
      | (none, rest) => return (.unpaired (spelled cs rest), rest)
    | '[' :: rest =>
      match skipBlanks rest with
      | ']' :: rest => some (.array [], rest)
      | rest => do
        let (js, rest) ← items fuel rest
        return (.array js, rest)
    | '{' :: rest =>
      match skipBlanks rest with
      | '}' :: rest => some (.object [], rest)
      | rest => do
        let (ms, rest) ← members fuel rest
        return (ofMembers cs rest ms, rest)
    | 'n' :: 'u' :: 'l' :: 'l' :: rest => some (.null, rest)
    | 't' :: 'r' :: 'u' :: 'e' :: rest => some (.bool true, rest)
    | 'f' :: 'a' :: 'l' :: 's' :: 'e' :: rest => some (.bool false, rest)
    | cs => number cs

def items : Nat → List Char → Option (List Json × List Char)
  | 0, _ => none
  | fuel + 1, cs => do
    let (j, rest) ← value fuel cs
    match skipBlanks rest with
    | ']' :: rest => return ([j], rest)
    | ',' :: rest =>
      let (js, rest) ← items fuel rest
      return (j :: js, rest)
    | _ => none

/-- The members of an object, at least one, and its end. A key that cannot be
read is left out of its member. -/
def members : Nat → List Char → Option (List (Option String × Json) × List Char)
  | 0, _ => none
  | fuel + 1, cs =>
    match skipBlanks cs with
    | '"' :: rest => do
      let (k, rest) ← string rest
      match skipBlanks rest with
      | ':' :: rest =>
        let (j, rest) ← value fuel rest
        match skipBlanks rest with
        | '}' :: rest => return ([(k, j)], rest)
        | ',' :: rest =>
          let (ms, rest) ← members fuel rest
          return ((k, j) :: ms, rest)
        | _ => none
      | _ => none
    | _ => none

end

/-- The value that a text spells. Every two steps of the reading use up a
character, which bounds its depth. -/
def parse? (s : String) : Option Json :=
  let cs := s.toList
  match value (2 * cs.length + 2) cs with
  | some (j, rest) => if (skipBlanks rest).isEmpty then some j else none
  | none => none

end TokenLedger.Json
