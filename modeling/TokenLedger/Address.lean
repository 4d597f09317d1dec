import TokenLedger.Base32
import TokenLedger.LiteralError

/-!
# Account addresses

An account is a key of 32 bytes. Its text is the label, a `1`, the key in 52
symbols with four zero bits behind it, and six symbols of checksum. Texts
and keys determine each other, so the key alone is kept; accounts are listed
in the order of their texts.
-/

set_option autoImplicit false

namespace TokenLedger

structure Address where
  key : Bytes32
  deriving DecidableEq, Inhabited

namespace Address

def label : List Char := "aleo".toList

def lead : List Char := label ++ ['1']

def keySymbols (key : Bytes32) : List Bech32m.Symbol := Base32.ofBytes key.toList

def symbolsKey? (data : List Bech32m.Symbol) : Option Bytes32 := Base32.toBytes? data

def chars (a : Address) : List Char :=
  let data := keySymbols a.key
  lead ++ (data ++ Bech32m.checksum label data).map Bech32m.char

def text (a : Address) : String := String.ofList a.chars

def ofChars? (cs : List Char) : Option Address :=
  if cs.take 5 = lead ∧ cs.length = 63 then
    match (cs.drop 5).mapM Bech32m.symbol? with
    | none => none
    | some word =>
      if Bech32m.isValid label word then Address.mk <$> symbolsKey? (word.take 52) else none
  else none

def parse (raw : String) : Except LiteralError Address :=
  match ofChars? raw.toList with
  | some a => .ok a
  | none => .error (.address raw)

def le (a b : Address) : Bool := a.text ≤ b.text

end Address

end TokenLedger
