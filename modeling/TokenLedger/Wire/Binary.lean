import TokenLedger.Text.Utf8
import TokenLedger.LiteralError

/-!
# Binary form

Values as bytes, laid end to end: words little-endian in their fixed width,
lists and texts behind a count of eight bytes, a choice behind four bytes of
index, an optional value behind one byte. A reader returns what it did not
consume, and stops at the first fault in the order of the bytes.
-/

set_option autoImplicit false

namespace TokenLedger.Wire

inductive Fault where
  | ended
  | shortText
  | badText (fault : Text.Utf8.Fault)
  | badPresence (mark : Nat)
  | badChoice (index count : Nat)
  | badLiteral (error : LiteralError)
  deriving DecidableEq, Repr

def Fault.message : Fault → String
  | .ended => "io error: unexpected end of file"
  | .shortText => "io error: "
  | .badText fault => "string is not valid utf8: " ++ fault.message
  | .badPresence mark => s!"tag for enum is not valid, found {mark}"
  | .badChoice index count =>
    s!"invalid value: integer `{index}`, expected variant index 0 <= i < {count}"
  | .badLiteral error => error.message

abbrev Reader (α : Type) := Bytes → Except Fault (α × Bytes)

class Binary (α : Type) where
  put : α → Bytes
  get : Reader α

export Binary (put get)

namespace Reader

def take (n : Nat) : Reader Bytes := fun bs =>
  if n ≤ bs.length then .ok (bs.take n, bs.drop n) else .error .ended

def word (n : Nat) : Reader Nat := fun bs => do
  let (w, rest) ← take n bs
  return (Bytes.wordValue w, rest)

def many {α : Type} (item : Reader α) : Nat → Reader (List α)
  | 0, bs => .ok ([], bs)
  | n + 1, bs => do
    let (x, bs) ← item bs
    let (xs, bs) ← many item n bs
    return (x :: xs, bs)

def text : Reader String := fun bs => do
  let (n, bs) ← word 8 bs
  if n ≤ bs.length then
    match Text.Utf8.decode (bs.take n) with
    | .ok cs => .ok (String.ofList cs, bs.drop n)
    | .error fault => .error (.badText fault)
  else .error .shortText

def literal {α : Type} (parse : String → Except LiteralError α) : Reader α := fun bs => do
  let (s, bs) ← text bs
  match parse s with
  | .ok x => .ok (x, bs)
  | .error error => .error (.badLiteral error)

def choice (count : Nat) : Reader Nat := fun bs => do
  let (i, bs) ← word 4 bs
  if i < count then .ok (i, bs) else .error (.badChoice i count)

end Reader

def putText (s : String) : Bytes :=
  let bs := Text.Utf8.ofString s
  Bytes.word 8 bs.length ++ bs

def putChoice (index : Nat) : Bytes := Bytes.word 4 index

instance : Binary UInt8 where
  put n := [n]
  get bs := do
    let (n, bs) ← Reader.word 1 bs
    return (UInt8.ofNat n, bs)

instance : Binary UInt32 where
  put n := Bytes.word 4 n.toNat
  get bs := do
    let (n, bs) ← Reader.word 4 bs
    return (UInt32.ofNat n, bs)

instance : Binary UInt64 where
  put n := Bytes.word 8 n.toNat
  get bs := do
    let (n, bs) ← Reader.word 8 bs
    return (UInt64.ofNat n, bs)

instance : Binary Bytes32 where
  put a := a.toList
  get bs := do
    let (w, bs) ← Reader.take 32 bs
    match Bytes32.ofList? w with
    | some a => .ok (a, bs)
    | none => .error .ended

instance {α : Type} [Binary α] : Binary (List α) where
  put xs := Bytes.word 8 xs.length ++ xs.flatMap put
  get bs := do
    let (n, bs) ← Reader.word 8 bs
    Reader.many get n bs

instance {α : Type} [Binary α] : Binary (Option α) where
  put
    | none => [0]
    | some x => 1 :: put x
  get bs := do
    let (mark, bs) ← Reader.word 1 bs
    match mark with
    | 0 => return (none, bs)
    | 1 =>
      let (x, bs) ← get bs
      return (some x, bs)
    | mark => .error (.badPresence mark)

end TokenLedger.Wire
