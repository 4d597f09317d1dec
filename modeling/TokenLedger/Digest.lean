import TokenLedger.Blake2b
import TokenLedger.LiteralError
import TokenLedger.Text.Blank

/-!
# Digests

Hashes under a domain tag, and the three kinds of identifier made of them: a
commitment names a record, a serial number marks one as spent and a
transition id names one evaluation. The tag is written with its length, so
no two domains share an input of the hash.
-/

set_option autoImplicit false

namespace TokenLedger

namespace Digest

/-- What is hashed: the length of the domain, the domain and the parts in order. -/
def preimage (domain : Bytes) (parts : List Bytes) : Bytes :=
  Bytes.word 8 domain.length ++ domain ++ parts.flatten

def tagged (domain : Bytes) (parts : List Bytes) : Bytes32 :=
  Blake2b.hash (preimage domain parts)

def text (a : Bytes32) : String := Text.Hex.encode a.toList

def parse (raw : String) : Except LiteralError Bytes32 :=
  match Text.Hex.readBlock (Text.Utf8.encode (Text.trim raw.toList)) with
  | .ok a => .ok a
  | .error fault => .error (.digest raw fault)

def shortText (a : Bytes32) : String := Text.Hex.encode (a.toList.take 4)

theorem digit_not_blank {n : Nat} (h : n < 16) : Text.isBlank (Text.Hex.digit n) = false := by
  revert n; decide

theorem trim_encodeChars (bs : Bytes) :
    Text.trim (Text.Hex.encodeChars bs) = Text.Hex.encodeChars bs := by
  refine Text.trim_of_not_blank fun c hc => ?_
  obtain ⟨b, -, hb⟩ := List.mem_flatMap.1 hc
  have := b.toNat_lt
  simp only [List.mem_cons, List.not_mem_nil, or_false] at hb
  rcases hb with rfl | rfl <;> exact digit_not_blank (by omega)

theorem parse_text (a : Bytes32) : parse (text a) = .ok a := by
  simp [parse, text, Text.Hex.encode, trim_encodeChars, Text.Hex.readBlock_encode]

end Digest

structure Commitment where
  digest : Bytes32
  deriving DecidableEq, Inhabited

structure SerialNumber where
  digest : Bytes32
  deriving DecidableEq, Inhabited

structure TransitionId where
  digest : Bytes32
  deriving DecidableEq, Inhabited

namespace Commitment

def text (c : Commitment) : String := Digest.text c.digest

def parse (raw : String) : Except LiteralError Commitment := Commitment.mk <$> Digest.parse raw

def serialPreimage (c : Commitment) : Bytes :=
  Digest.preimage (Bytes.ascii "veil.serial") [c.digest.toList]

/-- The number whose publication marks the record as spent. -/
def serial (c : Commitment) : SerialNumber := ⟨Blake2b.hash c.serialPreimage⟩

end Commitment

namespace SerialNumber

def text (s : SerialNumber) : String := Digest.text s.digest

def parse (raw : String) : Except LiteralError SerialNumber :=
  SerialNumber.mk <$> Digest.parse raw

end SerialNumber

namespace TransitionId

def text (t : TransitionId) : String := Digest.text t.digest

def parse (raw : String) : Except LiteralError TransitionId :=
  TransitionId.mk <$> Digest.parse raw

end TransitionId

end TokenLedger
