import TokenLedger.Proofs.Admission

/-!
# What a transaction looks at

Of a vault a transaction only sees whether its own records are stored and
spent, and what is found under the accounts that its settlement moves. Two
vaults that agree on these accept it both, or reject it both for the same
reason.
-/

set_option autoImplicit false

namespace TokenLedger

namespace Move

variable {x y : Accounts} {m : Move} {ms : List Move} {e : ProgramError}

theorem Enabled.congr (h : x m.key = y m.key) (he : m.Enabled x) : m.Enabled y := by
  cases m with
  | credit key amount =>
    rw [Move.key] at h
    rwa [Enabled, ← h]
  | debit key amount =>
    rw [Move.key] at h
    rwa [Enabled, ← h]

theorem Fault.congr (h : x m.key = y m.key) (hf : m.Fault x e) : m.Fault y e := by
  cases hf with
  | missing hnone => exact .missing (h ▸ hnone)
  | underflow hsome hlt => exact .underflow (h ▸ hsome) hlt
  | @overflow key amount hover =>
    rw [Move.key] at h
    rw [h] at hover ⊢
    exact .overflow hover

/-- What a move leaves under an account depends on that account alone. -/
theorem effect_congr {a : Address} (h : x a = y a) : m.effect x a = m.effect y a := by
  by_cases hkey : a = m.key
  · cases m with
    | credit key amount =>
      rw [Move.key] at hkey
      simp only [effect, hkey, Function.update_self]
      rw [← hkey, h]
    | debit key amount =>
      rw [Move.key] at hkey
      simp only [effect, hkey, Function.update_self]
      rw [← hkey, h]
  · rw [effect_of_ne hkey, effect_of_ne hkey, h]

theorem effects_congr {a : Address} (h : x a = y a) : effects x ms a = effects y ms a := by
  induction ms generalizing x y with
  | nil => exact h
  | cons m ms ih => exact ih (effect_congr h)

theorem AllEnabled.congr (h : ∀ a ∈ ms.map key, x a = y a) (he : AllEnabled x ms) :
    AllEnabled y ms := by
  induction ms generalizing x y with
  | nil => exact trivial
  | cons m ms ih =>
    refine ⟨he.1.congr (h _ (by simp)), ih (fun a ha => ?_) he.2⟩
    exact effect_congr (h a (by simp [ha]))

theorem FirstFault.congr (h : ∀ a ∈ ms.map key, x a = y a) (hf : FirstFault x ms e) :
    FirstFault y ms e := by
  induction hf generalizing y with
  | here hfault => exact .here (hfault.congr (h _ (by simp)))
  | later henabled _ ih =>
    refine .later (henabled.congr (h _ (by simp))) (ih fun a ha => ?_)
    exact effect_congr (h a (by simp [ha]))

end Move

namespace Transaction

def inputNames (tx : Transaction) : List Commitment := tx.consumed.map Token.commitment

def outputNames (tx : Transaction) : List Commitment := tx.outputs.map Token.commitment

def accounts (tx : Transaction) : List Address := tx.moves.map Move.key

end Transaction

namespace Vault

/-- A transaction finds the same in both vaults wherever it looks. -/
structure Agrees (v w : Vault) (tx : Transaction) : Prop where
  inputs : ∀ c ∈ tx.inputNames, v.hasRecord c = w.hasRecord c
  serials : ∀ t ∈ tx.consumed, v.isSpent t.serial = w.isSpent t.serial
  accounts : ∀ a ∈ tx.accounts, v.balance? a = w.balance? a
  outputs : ∀ c ∈ tx.outputNames, v.hasRecord c = w.hasRecord c

variable {v w : Vault} {tx : Transaction} {e : LedgerError}

theorem Spendable.congr {ts : List Token}
    (hknown : ∀ t ∈ ts, v.hasRecord t.commitment = w.hasRecord t.commitment)
    (hserials : ∀ t ∈ ts, v.isSpent t.serial = w.isSpent t.serial) (h : v.Spendable ts) :
    w.Spendable ts where
  distinct := h.distinct
  known t ht := hknown t ht ▸ h.known t ht
  unspent t ht := hserials t ht ▸ h.unspent t ht

theorem InputFault.congr {before : List Token} {t : Token}
    (hknown : v.hasRecord t.commitment = w.hasRecord t.commitment)
    (hserial : v.isSpent t.serial = w.isSpent t.serial) (h : v.InputFault before t e) :
    w.InputFault before t e := by
  cases h with
  | duplicate h => exact .duplicate h
  | unknown hnew h => exact .unknown hnew (hknown ▸ h)
  | spent hnew h hspent => exact .spent hnew (hknown ▸ h) (hserial ▸ hspent)

namespace Agrees

theorem known (h : v.Agrees w tx) {t : Token} (ht : t ∈ tx.consumed) :
    v.hasRecord t.commitment = w.hasRecord t.commitment :=
  h.inputs _ (List.mem_map_of_mem ht)

theorem fresh (h : v.Agrees w tx) {t : Token} (ht : t ∈ tx.outputs) :
    v.hasRecord t.commitment = w.hasRecord t.commitment :=
  h.outputs _ (List.mem_map_of_mem ht)

theorem spendable (h : v.Agrees w tx) (hs : v.Spendable tx.consumed) : w.Spendable tx.consumed :=
  hs.congr (fun _ => h.known) h.serials

theorem admissible (h : v.Agrees w tx) (ha : v.Admissible tx) : w.Admissible tx where
  check := ha.check
  inputs := h.spendable ha.inputs
  enabled := ha.enabled.congr h.accounts
  fresh t ht := h.fresh ht ▸ ha.fresh t ht

theorem violates (h : v.Agrees w tx) (hv : v.Violates tx e) : w.Violates tx e := by
  cases hv with
  | check hcheck => exact .check hcheck
  | @input before after t _ hcheck hsplit hbefore hfault =>
    have hmem : ∀ u ∈ before, u ∈ tx.consumed := fun u hu => hsplit ▸ List.mem_append_left _ hu
    have ht : t ∈ tx.consumed := hsplit ▸ by simp
    exact .input hcheck hsplit
      (hbefore.congr (fun u hu => h.known (hmem u hu)) fun u hu => h.serials u (hmem u hu))
      (hfault.congr (h.known ht) (h.serials t ht))
  | settlement hcheck hinputs hfault =>
    exact .settlement hcheck (h.spendable hinputs) (hfault.congr h.accounts)
  | @output before after t hcheck hinputs henabled hsplit hbefore hstored =>
    have hmem : ∀ u ∈ before, u ∈ tx.outputs := fun u hu => hsplit ▸ List.mem_append_left _ hu
    have ht : t ∈ tx.outputs := hsplit ▸ by simp
    exact .output hcheck (h.spendable hinputs) (henabled.congr h.accounts) hsplit
      (fun u hu => h.fresh (hmem u hu) ▸ hbefore u hu) (h.fresh ht ▸ hstored)

end Agrees

end Vault

end TokenLedger
