import TokenLedger.Text.Utf8
import TokenLedger.Text.Quoted

/-!
# Hexadecimal text

Two digits for each byte, written in lower case and read in either case.
Reading a block of 32 bytes reports an odd count of digits first, a wrong
count next and then the first byte that is no digit.
-/

set_option autoImplicit false

namespace TokenLedger.Text.Hex

inductive Fault where
  | oddCount
  | wrongCount
  | notDigit (byte : UInt8) (position : Nat)
  deriving DecidableEq, Repr

def Fault.message : Fault → String
  | .oddCount => "Odd number of digits"
  | .wrongCount => "Invalid string length"
  | .notDigit byte position =>
    "Invalid character " ++ quoted byte ++ s!" at position {position}"

def digit (n : Nat) : Char := if n < 10 then Char.ofNat (48 + n) else Char.ofNat (87 + n)

def encodeChars (bs : Bytes) : List Char :=
  bs.flatMap fun b => [digit (b.toNat / 16), digit (b.toNat % 16)]

def encode (bs : Bytes) : String := String.ofList (encodeChars bs)

/-- The value of a digit in either case, by its ASCII code. -/
def digitValue? (n : Nat) : Option Nat :=
  if 48 ≤ n ∧ n < 58 then some (n - 48)
  else if 97 ≤ n ∧ n < 103 then some (n - 87)
  else if 65 ≤ n ∧ n < 71 then some (n - 55)
  else none

def number? (ds : List Char) : Option Nat := do
  let ns ← ds.mapM fun c => digitValue? c.toNat
  return ns.foldl (fun n d => n * 16 + d) 0

def readPairs (position : Nat) : Bytes → Except Fault Bytes
  | [] => .ok []
  | [_] => .error .oddCount
  | x :: y :: rest =>
    match digitValue? x.toNat, digitValue? y.toNat with
    | none, _ => .error (.notDigit x position)
    | some _, none => .error (.notDigit y (position + 1))
    | some h, some l => (UInt8.ofNat (h * 16 + l) :: ·) <$> readPairs (position + 2) rest

def decode? (s : String) : Option Bytes := (readPairs 0 (Utf8.ofString s)).toOption

def readBlock (text : Bytes) : Except Fault Bytes32 :=
  if text.length % 2 ≠ 0 then .error .oddCount
  else if text.length ≠ 64 then .error .wrongCount
  else
    match readPairs 0 text with
    | .error fault => .error fault
    | .ok bs =>
      match Bytes32.ofList? bs with
      | some block => .ok block
      | none => .error .wrongCount

theorem digit_isAscii {n : Nat} (h : n < 16) :
    String.utf8EncodeChar (digit n) = [UInt8.ofNat (digit n).toNat] := by
  revert n; decide

theorem digitValue?_digit {n : Nat} (h : n < 16) :
    digitValue? (UInt8.ofNat (digit n).toNat).toNat = some n := by
  revert n; decide

theorem utf8_encodeChars (bs : Bytes) :
    Utf8.encode (encodeChars bs) =
      bs.flatMap fun b => [UInt8.ofNat (digit (b.toNat / 16)).toNat,
        UInt8.ofNat (digit (b.toNat % 16)).toNat] := by
  induction bs with
  | nil => rfl
  | cons b bs ih =>
    have hb := b.toNat_lt
    have hh := digit_isAscii (n := b.toNat / 16) (by omega)
    have hl := digit_isAscii (n := b.toNat % 16) (by omega)
    simp only [encodeChars, Utf8.encode] at ih
    simp only [encodeChars, Utf8.encode, List.flatMap_cons, ih, hh, hl, List.cons_append,
      List.nil_append]

theorem readPairs_encode (i : Nat) (bs : Bytes) :
    readPairs i (Utf8.encode (encodeChars bs)) = .ok bs := by
  rw [utf8_encodeChars]
  induction bs generalizing i with
  | nil => rfl
  | cons b bs ih =>
    have hb := b.toNat_lt
    simp only [List.flatMap_cons, List.cons_append, List.nil_append, readPairs,
      digitValue?_digit (show b.toNat / 16 < 16 by omega),
      digitValue?_digit (show b.toNat % 16 < 16 by omega), ih]
    have : b.toNat / 16 * 16 + b.toNat % 16 = b.toNat := by omega
    simp [this, Functor.map, Except.map]

theorem length_utf8_encodeChars (bs : Bytes) :
    (Utf8.encode (encodeChars bs)).length = 2 * bs.length := by
  rw [utf8_encodeChars]
  induction bs with
  | nil => rfl
  | cons b bs ih =>
    simp only [List.flatMap_cons, List.length_append, ih, List.length_cons, List.length_nil]
    omega

theorem readBlock_encode (a : Bytes32) :
    readBlock (Utf8.encode (encodeChars a.toList)) = .ok a := by
  simp [readBlock, length_utf8_encodeChars, a.length_toList, readPairs_encode,
    Bytes32.ofList?_toList]

end TokenLedger.Text.Hex
