/-!
# Quoted characters

How one byte, read as a Latin-1 character, is shown between single quotes in
an error message.
-/

set_option autoImplicit false

namespace TokenLedger.Text

def isVisible (n : Nat) : Bool :=
  (0x20 ≤ n && n < 0x7f) || (0xa0 < n && n != 0xad)

/-- The quote, the backslash and four control characters have short escapes,
a code without a visible form is written in hexadecimal. -/
def quoted (b : UInt8) : String :=
  let n := b.toNat
  let body :=
    if n == 0 then "\\0"
    else if n == 0x09 then "\\t"
    else if n == 0x0a then "\\n"
    else if n == 0x0d then "\\r"
    else if n == 0x27 then "\\'"
    else if n == 0x5c then "\\\\"
    else if isVisible n then String.singleton (Char.ofNat n)
    else "\\u\x7b" ++ String.ofList (Nat.toDigits 16 n) ++ "\x7d"
  "'" ++ body ++ "'"

end TokenLedger.Text
