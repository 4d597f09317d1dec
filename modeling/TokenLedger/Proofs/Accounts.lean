import Mathlib.Logic.Function.Basic
import TokenLedger.Proofs.Settling

/-!
# Moves on accounts

When a move can be made and what it does, said of what is found under the
accounts and not of a list of balances. A list settles moves that are all
enabled, and fails with the error of the first that is not.
-/

set_option autoImplicit false

namespace TokenLedger

abbrev Accounts := Address → Option UInt64

namespace Move

def key : Move → Address
  | .credit key _ | .debit key _ => key

/-- A debited account is listed with at least the amount; a credited balance,
zero when there is none, has room for the amount. -/
def Enabled (accounts : Accounts) : Move → Prop
  | .credit key amount => ((accounts key).getD 0).toNat + amount.toNat < UInt64.size
  | .debit key amount => ∃ balance, accounts key = some balance ∧ amount ≤ balance

def effect (accounts : Accounts) : Move → Accounts
  | .credit key amount => Function.update accounts key (some ((accounts key).getD 0 + amount))
  | .debit key amount => Function.update accounts key ((accounts key).map (· - amount))

inductive Fault (accounts : Accounts) : Move → ProgramError → Prop where
  | missing {key : Address} {amount : UInt64} (h : accounts key = none) :
      Fault accounts (.debit key amount) (.missingKey key)
  | underflow {key : Address} {amount balance : UInt64} (h : accounts key = some balance)
      (hlt : balance < amount) : Fault accounts (.debit key amount) (.underflow balance amount)
  | overflow {key : Address} {amount : UInt64}
      (h : UInt64.size ≤ ((accounts key).getD 0).toNat + amount.toNat) :
      Fault accounts (.credit key amount) (.overflow ((accounts key).getD 0) amount)

def AllEnabled (accounts : Accounts) : List Move → Prop
  | [] => True
  | m :: ms => m.Enabled accounts ∧ AllEnabled (m.effect accounts) ms

def effects (accounts : Accounts) : List Move → Accounts
  | [] => accounts
  | m :: ms => effects (m.effect accounts) ms

/-- The first move that is not enabled, on what those before it leave. -/
inductive FirstFault : Accounts → List Move → ProgramError → Prop where
  | here {accounts : Accounts} {m : Move} {ms : List Move} {e : ProgramError}
      (h : m.Fault accounts e) : FirstFault accounts (m :: ms) e
  | later {accounts : Accounts} {m : Move} {ms : List Move} {e : ProgramError}
      (h : m.Enabled accounts) (hlater : FirstFault (m.effect accounts) ms e) :
      FirstFault accounts (m :: ms) e

variable {accounts : Accounts}

theorem enabled_or_fault (accounts : Accounts) (m : Move) :
    m.Enabled accounts ∨ ∃ e, m.Fault accounts e := by
  cases m with
  | credit key amount =>
    by_cases h : ((accounts key).getD 0).toNat + amount.toNat < UInt64.size
    · exact .inl h
    · exact .inr ⟨_, .overflow (Nat.le_of_not_lt h)⟩
  | debit key amount =>
    cases h : accounts key with
    | none => exact .inr ⟨_, .missing h⟩
    | some balance =>
      by_cases hle : amount ≤ balance
      · exact .inl ⟨balance, h, hle⟩
      · exact .inr ⟨_, .underflow h (UInt64.not_le.1 hle)⟩

theorem allEnabled_or_firstFault (accounts : Accounts) (ms : List Move) :
    AllEnabled accounts ms ∨ ∃ e, FirstFault accounts ms e := by
  induction ms generalizing accounts with
  | nil => exact .inl trivial
  | cons m ms ih =>
    rcases m.enabled_or_fault accounts with h | ⟨e, h⟩
    · rcases ih (m.effect accounts) with hrest | ⟨e, hrest⟩
      · exact .inl ⟨h, hrest⟩
      · exact .inr ⟨e, .later h hrest⟩
    · exact .inr ⟨e, .here h⟩

theorem effect_of_ne {m : Move} {a : Address} (h : a ≠ m.key) : m.effect accounts a = accounts a := by
  cases m <;> exact Function.update_of_ne h _ _

theorem effects_of_not_mem {ms : List Move} {a : Address} (h : a ∉ ms.map key) :
    effects accounts ms a = accounts a := by
  induction ms generalizing accounts with
  | nil => rfl
  | cons m ms ih =>
    rw [List.map_cons, List.mem_cons, not_or] at h
    rw [effects, ih h.2, effect_of_ne h.1]

end Move

/-! ## Moves on a list of balances -/

namespace Balances

def accounts (m : Balances) : Accounts := fun key => m.find? key

variable {m m' : Balances}

theorem accounts_insert (m : Balances) (key : Address) (value : UInt64) :
    (m.insert key value).accounts = Function.update m.accounts key (some value) := by
  funext a
  by_cases h : a = key
  · rw [h, Function.update_self]
    exact find?_insert_self key value m
  · rw [Function.update_of_ne h]
    exact find?_insert_of_ne h value m

theorem move_of_enabled {mv : Move} (h : mv.Enabled m.accounts) :
    ∃ m', m.move mv = .ok m' ∧ m'.accounts = mv.effect m.accounts := by
  cases mv with
  | credit key amount =>
    have hadd : checkedAdd ((m.find? key).getD 0) amount = .ok ((m.find? key).getD 0 + amount) :=
      if_pos h
    refine ⟨_, by rw [move, hadd]; rfl, ?_⟩
    exact accounts_insert m key _
  | debit key amount =>
    obtain ⟨balance, hfind, hle⟩ := h
    have hsub : checkedSub balance amount = .ok (balance - amount) := if_pos hle
    have hm : m.find? key = some balance := hfind
    refine ⟨m.insert key (balance - amount), ?_, ?_⟩
    · simp only [move, hm, hsub, Answers.ok_bind, Answers.pure_eq]
    · rw [accounts_insert, Move.effect, hfind, Option.map_some]

theorem move_of_fault {mv : Move} {e : ProgramError} (h : mv.Fault m.accounts e) :
    m.move mv = .error e := by
  cases h with
  | missing h =>
    rw [accounts] at h
    simp only [move, h]
  | @underflow key amount balance h hlt =>
    have hsub : checkedSub balance amount = .error (.underflow balance amount) :=
      if_neg (UInt64.not_le.2 hlt)
    rw [accounts] at h
    simp only [move, h, hsub, Answers.error_bind]
  | @overflow key amount h =>
    have hadd : checkedAdd ((m.find? key).getD 0) amount =
        .error (.overflow ((m.find? key).getD 0) amount) := if_neg (Nat.not_lt.2 h)
    rw [move, hadd]
    rfl

theorem settle_of_allEnabled {mvs : List Move} (h : Move.AllEnabled m.accounts mvs) :
    ∃ m', m.settle mvs = .ok m' ∧ m'.accounts = Move.effects m.accounts mvs := by
  induction mvs generalizing m with
  | nil => exact ⟨m, rfl, rfl⟩
  | cons mv mvs ih =>
    obtain ⟨m₁, hmove, heffect⟩ := move_of_enabled h.1
    obtain ⟨m', hrest, heffects⟩ := ih (heffect ▸ h.2)
    refine ⟨m', ?_, ?_⟩
    · rw [settle, hmove, Answers.ok_bind, hrest]
    · rw [heffects, heffect, Move.effects]

theorem settle_of_firstFault {mvs : List Move} {e : ProgramError}
    (h : Move.FirstFault m.accounts mvs e) : m.settle mvs = .error e := by
  generalize haccounts : m.accounts = accounts at h
  induction h generalizing m with
  | here h =>
    rw [settle, move_of_fault (haccounts ▸ h), Answers.error_bind]
  | later h _ ih =>
    obtain ⟨m₁, hmove, heffect⟩ := move_of_enabled (haccounts ▸ h)
    rw [settle, hmove, Answers.ok_bind]
    exact ih (by rw [heffect, haccounts])

end Balances

end TokenLedger
