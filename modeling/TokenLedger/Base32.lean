import TokenLedger.Bech32m
import TokenLedger.Bytes

/-!
# Regrouping bits

Bytes are cut into symbols of five bits, and symbols put together into bytes,
through a register of 32 bits. Bits come in at the low end and are taken from
above; those that were taken are not cleared, but move up until they are
shifted out.
-/

set_option autoImplicit false

namespace TokenLedger.Base32

open Bech32m (Symbol)

/-- A register, of which the lowest `bits` bits are still to be taken. -/
structure Register where
  buffer : UInt32 := 0
  bits : UInt32 := 0

namespace Register

def push (r : Register) (width x : UInt32) : Register where
  buffer := r.buffer <<< width ||| x
  bits := r.bits + width

def pop (r : Register) (width : UInt32) : Register := { r with bits := r.bits - width }

def above (r : Register) : UInt32 := r.buffer >>> r.bits

def rest (r : Register) : UInt32 := r.buffer &&& ((1 <<< r.bits) - 1)

end Register

def symbol (x : UInt32) : Symbol := (x &&& 31).toBitVec.setWidth 5

/-- Takes symbols while there are five bits to take; the last symbol comes first. -/
def drain (r : Register) (out : List Symbol) : List Symbol × Register :=
  if 5 ≤ r.bits then drain (r.pop 5) (symbol (r.pop 5).above :: out) else (out, r)
termination_by r.bits.toNat
decreasing_by
  next h =>
    rw [UInt32.le_iff_toNat_le] at h
    rw [Register.pop, UInt32.toNat_sub_of_le]
    · exact Nat.sub_lt (Nat.lt_of_lt_of_le (by decide) h) (by decide)
    · exact UInt32.le_iff_toNat_le.2 h

def feed (state : List Symbol × Register) (b : UInt8) : List Symbol × Register :=
  drain (state.2.push 8 b.toUInt32) state.1

def ofBytes (bs : Bytes) : List Symbol :=
  let (out, r) := bs.foldl feed ([], {})
  (if 0 < r.bits then symbol (r.buffer <<< (5 - r.bits)) :: out else out).reverse

def gather (state : Bytes × Register) (s : Symbol) : Option (Bytes × Register) :=
  let r := state.2.push 5 (UInt32.ofBitVec (s.setWidth 32))
  if 8 ≤ r.bits then
    if state.1.length < 32 then some ((r.pop 8).above.toUInt8 :: state.1, r.pop 8) else none
  else some (state.1, r)

/-- The 32 bytes behind some symbols, with at most four zeros behind them. -/
def toBytes? (data : List Symbol) : Option Bytes32 := do
  let (out, r) ← data.foldlM gather ([], {})
  if r.bits < 5 ∧ r.rest = 0 then Bytes32.ofList? out.reverse else none

end TokenLedger.Base32
