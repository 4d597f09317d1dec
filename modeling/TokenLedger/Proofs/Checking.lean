import TokenLedger.Transaction
import TokenLedger.Proofs.Answers

/-!
# What the check of a transaction ensures

The tests of `Transaction.check` pass exactly for the transactions that are
sound. From soundness it follows what value a transaction makes: none but by
the two mints.
-/

set_option autoImplicit false

namespace TokenLedger

def Transaction.moves (tx : Transaction) : List Move :=
  match tx.settlement with
  | some s => s.moves
  | none => []

theorem Token.find?_foreign_eq_none {caller : Address} {ts : List Token} :
    (ts.find? fun t => t.owner ≠ caller) = none ↔ ∀ t ∈ ts, t.owner = caller := by
  simp

theorem Settlement.settles_function (s : Settlement) : s.function.settles = true := by
  cases s <;> rfl

namespace Transaction

/-- What the check tests, all at once. -/
structure Sound (tx : Transaction) : Prop where
  consumes : tx.consumed.length = tx.function.consumes
  issues : tx.outputs.length = tx.function.issues
  settles : (tx.settlement.map Settlement.function) =
    if tx.function.settles then some tx.function else none
  value : tx.value.isSome = (tx.function == .gate)
  owners : ∀ t ∈ tx.consumed, t.owner = tx.caller
  debit : ∀ account ∈ tx.settlement.bind Settlement.debited, account = tx.caller
  balance : tx.function.creates = true ∨ (tx.consumedTotal : Int) = tx.produced

variable {tx : Transaction}

theorem checkCounts_ok : tx.checkCounts = .ok () ↔
    tx.consumed.length = tx.function.consumes ∧ tx.outputs.length = tx.function.issues := by
  unfold checkCounts
  split <;> simp [*]

theorem checkSettlement_ok : tx.checkSettlement = .ok () ↔
    tx.settlement.map Settlement.function =
      if tx.function.settles then some tx.function else none := by
  unfold checkSettlement
  cases tx.settlement with
  | none =>
    by_cases hs : tx.function.settles = true <;> simp [hs]
  | some s =>
    by_cases heq : s.function = tx.function
    · simp [← heq, s.settles_function]
    · by_cases hs : tx.function.settles = true <;> simp [heq, hs]

theorem checkValue_ok :
    tx.checkValue = .ok () ↔ tx.value.isSome = (tx.function == .gate) := by
  unfold checkValue
  split <;> simp [*]

theorem checkOwners_ok : tx.checkOwners = .ok () ↔ ∀ t ∈ tx.consumed, t.owner = tx.caller := by
  rw [← Token.find?_foreign_eq_none, checkOwners]
  cases tx.consumed.find? fun t => t.owner ≠ tx.caller with
  | none => simp
  | some t => simp

theorem checkDebit_ok : tx.checkDebit = .ok () ↔
    ∀ account ∈ tx.settlement.bind Settlement.debited, account = tx.caller := by
  unfold checkDebit
  cases tx.settlement.bind Settlement.debited with
  | none => simp
  | some account => by_cases h : account = tx.caller <;> simp [h]

theorem checkBalance_ok : tx.checkBalance = .ok () ↔
    tx.function.creates = true ∨ (tx.consumedTotal : Int) = tx.produced := by
  unfold checkBalance
  split <;> simp [*]

theorem check_ok : tx.check = .ok () ↔ tx.Sound := by
  have hseq {x y : Except CheckError Unit} :
      (do x; y) = .ok () ↔ x = .ok () ∧ y = .ok () := by
    cases x <;> simp
  rw [check, hseq, hseq, hseq, hseq, hseq, checkCounts_ok, checkSettlement_ok, checkValue_ok,
    checkOwners_ok, checkDebit_ok, checkBalance_ok]
  constructor
  · rintro ⟨⟨hin, hout⟩, hsettle, hvalue, howners, hdebit, hbalance⟩
    exact ⟨hin, hout, hsettle, hvalue, howners, hdebit, hbalance⟩
  · rintro ⟨hin, hout, hsettle, hvalue, howners, hdebit, hbalance⟩
    exact ⟨⟨hin, hout⟩, hsettle, hvalue, howners, hdebit, hbalance⟩

theorem Sound.function_eq (hs : tx.Sound) {s : Settlement} (h : tx.settlement = some s) :
    s.function = tx.function := by
  have hsettles := hs.settles
  rw [h, Option.map_some] at hsettles
  split at hsettles
  · exact Option.some.inj hsettles
  · cases hsettles

theorem Sound.settlement_eq_none (hs : tx.Sound) (h : tx.function.settles = false) :
    tx.settlement = none := by
  cases hsome : tx.settlement with
  | none => rfl
  | some s =>
    have hfun := hs.function_eq hsome
    rw [← hfun, s.settles_function] at h
    cases h

theorem Sound.settlement_eq_some (hs : tx.Sound) (h : tx.function.settles = true) :
    ∃ s, tx.settlement = some s := by
  have hsettles := hs.settles
  rw [if_pos h, Option.map_eq_some_iff] at hsettles
  obtain ⟨s, hsome, -⟩ := hsettles
  exact ⟨s, hsome⟩

end Transaction

end TokenLedger
