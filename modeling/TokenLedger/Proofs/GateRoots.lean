import TokenLedger.Proofs.Evaluating
import TokenLedger.Proofs.Primality

/-!
# Who passes the gate

The gate tests whether a product vanishes. The modulus is prime, so a product
of residues vanishes only with one of its factors, and the elements 10 and 13
are the only ones that pass. Evaluated as a call the gate decides in the same
way in every context.
-/

set_option autoImplicit false

namespace TokenLedger

namespace Scalar

instance : Fact modulus.Prime := ⟨Primality.prime_modulus⟩

variable {a b : Scalar}

theorem isZero_iff : a.isZero = true ↔ a.residue = 0 := by
  have hlimbs : zero.limbs = ⟨0, 0, 0, 0⟩ := rfl
  rw [isZero, beq_iff_eq, ← hlimbs, ← residue_zero]
  constructor
  · intro h
    have heq : a = zero := toNat_inj (by rw [toNat, toNat, h])
    rw [heq]
  · intro h
    rw [residue_inj h]

theorem residue_sub_eq_zero_iff (n : UInt64) :
    (a - ofUInt64 n).residue = 0 ↔ a.toNat = n.toNat := by
  have hn : (ofUInt64 n).toNat = n.toNat := by simp [ofUInt64, toNat, Limbs.toNat]
  rw [residue_sub, sub_eq_zero, ← hn]
  constructor
  · intro h
    rw [residue_inj h]
  · intro h
    rw [toNat_inj h]

theorem isZero_product_iff (a : Scalar) :
    ((a - ofUInt64 10) * (a - ofUInt64 13)).isZero = true ↔ a.toNat = 10 ∨ a.toNat = 13 := by
  rw [isZero_iff, residue_mul, mul_eq_zero, residue_sub_eq_zero_iff, residue_sub_eq_zero_iff]
  rfl

end Scalar

theorem gate_eq (a b : Scalar) :
    gate a b = if a.toNat = 10 ∨ a.toNat = 13 then .ok (a + b) else .error (.gateClosed a) :=
  if_congr (Scalar.isZero_product_iff a) rfl rfl

theorem Call.evaluate_gate (ctx : Context) (a b : Scalar) :
    (Call.gate a b).evaluate ctx =
      (fun c => (Call.gate a b).transaction ctx [] (some c)) <$> TokenLedger.gate a b := by
  have hvalue : (Call.gate a b).value = some <$> TokenLedger.gate a b := rfl
  rw [evaluate, hvalue]
  cases TokenLedger.gate a b with
  | ok c => rfl
  | error e => rfl

/-- The gate is open to 10 and 13 and to no other element, called alone or as a transition
in any context. -/
structure GateExact (a b : Scalar) : Prop where
  opens : (∃ c, gate a b = .ok c) ↔ a.toNat = 10 ∨ a.toNat = 13
  sum : ∀ c, gate a b = .ok c → c.toNat = (a.toNat + b.toNat) % Scalar.modulus
  closed : ¬(a.toNat = 10 ∨ a.toNat = 13) → gate a b = .error (.gateClosed a)
  transition : ∀ ctx, (∃ tx, (Call.gate a b).evaluate ctx = .ok tx) ↔ a.toNat = 10 ∨ a.toNat = 13
  transition_value : ∀ ctx tx, (Call.gate a b).evaluate ctx = .ok tx →
    ∃ c, tx.value = some c ∧ c.toNat = (a.toNat + b.toNat) % Scalar.modulus
  transition_closed : ∀ ctx, ¬(a.toNat = 10 ∨ a.toNat = 13) →
    (Call.gate a b).evaluate ctx = .error (.gateClosed a)

theorem gateExact (a b : Scalar) : GateExact a b := by
  by_cases h : a.toNat = 10 ∨ a.toNat = 13
  · have hgate : gate a b = .ok (a + b) := by rw [gate_eq, if_pos h]
    have hevaluate (ctx : Context) : (Call.gate a b).evaluate ctx =
        .ok ((Call.gate a b).transaction ctx [] (some (a + b))) := by
      rw [Call.evaluate_gate, hgate]
      rfl
    constructor
    · exact ⟨fun _ => h, fun _ => ⟨_, hgate⟩⟩
    · intro c hc
      cases hgate.symm.trans hc
      exact Scalar.toNat_add a b
    · exact fun hn => absurd h hn
    · exact fun ctx => ⟨fun _ => h, fun _ => ⟨_, hevaluate ctx⟩⟩
    · intro ctx tx htx
      cases (hevaluate ctx).symm.trans htx
      exact ⟨a + b, rfl, Scalar.toNat_add a b⟩
    · exact fun _ hn => absurd h hn
  · have hgate : gate a b = .error (.gateClosed a) := by rw [gate_eq, if_neg h]
    have hevaluate (ctx : Context) :
        (Call.gate a b).evaluate ctx = .error (.gateClosed a) := by
      rw [Call.evaluate_gate, hgate]
      rfl
    constructor
    · simp [hgate, h]
    · simp [hgate]
    · exact fun _ => hgate
    · simp [hevaluate, h]
    · simp [hevaluate]
    · exact fun ctx _ => hevaluate ctx

end TokenLedger
