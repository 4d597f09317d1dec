import TokenLedger.StoreError
import TokenLedger.Wire.Identifiers

/-!
# Program errors

What stops an evaluation or a settlement. The first four causes belong to the
program's own rules, the others to its surroundings.
-/

set_option autoImplicit false

namespace TokenLedger

inductive ProgramError where
  | underflow (minuend subtrahend : UInt64)
  | overflow (left right : UInt64)
  | gateClosed (a : Scalar)
  | missingKey (key : Address)
  | notOwner (owner caller : Address)
  | malformedRecord (fault : Wire.Fault)
  | unknownFunction (name : String)
  | entropy (reason : String)
  | store (error : StoreError)
  deriving DecidableEq

namespace ProgramError

def message : ProgramError → String
  | underflow a b => s!"arithmetic underflow: {a} - {b}"
  | overflow a b => s!"arithmetic overflow: {a} + {b}"
  | gateClosed a =>
    "assertion failed: (a - 10) * (a - 13) == 0 does not hold for a = " ++ a.text
  | missingKey key => "mapping key " ++ key.text ++ " is absent"
  | notOwner owner caller =>
    "record owned by " ++ owner.text ++ " cannot be spent by " ++ caller.text
  | malformedRecord fault => "malformed record: " ++ fault.message
  | unknownFunction name => "unknown function: " ++ name
  | entropy reason => "entropy source failed: " ++ reason
  | store error => "storage error: " ++ error.message

inductive Kind where
  | arithmetic
  | assertion
  | environment
  deriving DecidableEq, Repr

def kind : ProgramError → Kind
  | underflow _ _ | overflow _ _ => .arithmetic
  | gateClosed _ | missingKey _ | notOwner _ _ => .assertion
  | malformedRecord _ | unknownFunction _ | entropy _ | store _ => .environment

end ProgramError

def Function.parse (name : String) : Except ProgramError Function :=
  match Function.ofName? name with
  | some f => .ok f
  | none => .error (.unknownFunction name)

def checkedSub (a b : UInt64) : Except ProgramError UInt64 :=
  if b ≤ a then .ok (a - b) else .error (.underflow a b)

def checkedAdd (a b : UInt64) : Except ProgramError UInt64 :=
  if a.toNat + b.toNat < UInt64.size then .ok (a + b) else .error (.overflow a b)

theorem checkedSub_ok_iff {a b c : UInt64} :
    checkedSub a b = .ok c ↔ b.toNat ≤ a.toNat ∧ c.toNat = a.toNat - b.toNat := by
  unfold checkedSub
  split
  · next h =>
    rw [UInt64.le_iff_toNat_le] at h
    simp [h, ← UInt64.toNat_inj, UInt64.toNat_sub_of_le a b h, eq_comm]
  · next h =>
    rw [UInt64.le_iff_toNat_le] at h
    simp [h]

theorem checkedAdd_ok_iff {a b c : UInt64} :
    checkedAdd a b = .ok c ↔ a.toNat + b.toNat < UInt64.size ∧ c.toNat = a.toNat + b.toNat := by
  unfold checkedAdd
  split
  · next h =>
    rw [Except.ok.injEq, ← UInt64.toNat_inj, UInt64.toNat_add, Nat.mod_eq_of_lt h]
    exact ⟨fun e => ⟨h, e.symm⟩, fun e => e.2.symm⟩
  · next h => exact ⟨fun e => (nomatch e), fun e => absurd e.1 h⟩

end TokenLedger
