import TokenLedger.Bytes

/-!
# UTF-8

Encoding and decoding of text. A failed decoding names the index of the
first byte of the bad sequence and how many bytes of it were a possible
start, or says that the input ended inside a sequence.
-/

set_option autoImplicit false

namespace TokenLedger.Text.Utf8

/-- Why bytes are not text: a sequence that no continuation can mend, with
its length, or one that ends too early. -/
inductive Fault where
  | invalid (length index : Nat)
  | incomplete (index : Nat)
  deriving DecidableEq, Repr

def Fault.message : Fault → String
  | .invalid length index => s!"invalid utf-8 sequence of {length} bytes from index {index}"
  | .incomplete index => s!"incomplete utf-8 byte sequence from index {index}"

def encode (cs : List Char) : Bytes := cs.flatMap String.utf8EncodeChar

def ofString (s : String) : Bytes := encode s.toList

def isTail (b : UInt8) : Bool := 0x80 ≤ b && b < 0xc0

/-- The bytes that may follow the first byte of a sequence: the first byte
narrows them where a longer form or a surrogate would be spelled. -/
def isSecond (first b : UInt8) : Bool :=
  if first == 0xe0 then 0xa0 ≤ b && b < 0xc0
  else if first == 0xed then 0x80 ≤ b && b < 0xa0
  else if first == 0xf0 then 0x90 ≤ b && b < 0xc0
  else if first == 0xf4 then 0x80 ≤ b && b < 0x90
  else isTail b

def tailBits (b : UInt8) : Nat := b.toNat % 64

def decodeFrom (i : Nat) : Bytes → Except Fault (List Char)
  | [] => .ok []
  | a :: s =>
    if a < 0x80 then
      (Char.ofNat a.toNat :: ·) <$> decodeFrom (i + 1) s
    else if a < 0xc2 then .error (.invalid 1 i)
    else if a < 0xe0 then
      match s with
      | [] => .error (.incomplete i)
      | b :: s =>
        if isTail b then
          (Char.ofNat (a.toNat % 32 * 64 + tailBits b) :: ·) <$> decodeFrom (i + 2) s
        else .error (.invalid 1 i)
    else if a < 0xf0 then
      match s with
      | [] => .error (.incomplete i)
      | b :: s =>
        if isSecond a b then
          match s with
          | [] => .error (.incomplete i)
          | c :: s =>
            if isTail c then
              (Char.ofNat ((a.toNat % 16 * 64 + tailBits b) * 64 + tailBits c) :: ·) <$>
                decodeFrom (i + 3) s
            else .error (.invalid 2 i)
        else .error (.invalid 1 i)
    else if a < 0xf5 then
      match s with
      | [] => .error (.incomplete i)
      | b :: s =>
        if isSecond a b then
          match s with
          | [] => .error (.incomplete i)
          | c :: s =>
            if isTail c then
              match s with
              | [] => .error (.incomplete i)
              | d :: s =>
                if isTail d then
                  (Char.ofNat (((a.toNat % 8 * 64 + tailBits b) * 64 + tailBits c) * 64 +
                    tailBits d) :: ·) <$> decodeFrom (i + 4) s
                else .error (.invalid 3 i)
            else .error (.invalid 2 i)
        else .error (.invalid 1 i)
    else .error (.invalid 1 i)

def decode (bs : Bytes) : Except Fault (List Char) := decodeFrom 0 bs

end TokenLedger.Text.Utf8
