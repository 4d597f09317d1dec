import Mathlib.Data.List.Perm.Basic
import TokenLedger.Proofs.Views

/-!
# Sums over a history

A transaction may list one record twice among its outputs. The second copy
is a twin: it is listed and summed with the first, and leaves with it when
the record is consumed. Apart from the twins every issued record is issued
once, so what is live is what was issued less what was consumed.
-/

set_option autoImplicit false

namespace TokenLedger

namespace Token

theorem total_append (ts us : List Token) : total (ts ++ us) = total ts + total us := by
  induction ts with
  | nil => simp [total]
  | cons t ts ih => rw [List.cons_append, total, total, ih, Nat.add_assoc]

theorem total_perm {ts us : List Token} (h : ts.Perm us) : total ts = total us := by
  induction h with
  | nil => rfl
  | cons t _ ih => rw [total, total, ih]
  | swap t u ts => simp only [total, Nat.add_left_comm]
  | trans _ _ ih ih' => exact ih.trans ih'

theorem total_filter_not (p : Token → Bool) (ts : List Token) :
    total (ts.filter p) + total (ts.filter fun t => !p t) = total ts := by
  rw [← total_append]
  exact total_perm (List.filter_append_perm p ts)

theorem total_filter_mem {ts us : List Token} (hts : ts.Nodup) (hus : us.Nodup) (hsub : us ⊆ ts)
    (p : Token → Bool) :
    total (ts.filter fun t => p t && decide (t ∈ us)) = total (us.filter p) := by
  apply total_perm
  rw [List.perm_ext_iff_of_nodup (hts.filter _) (hus.filter _)]
  intro t
  simp only [List.mem_filter, Bool.and_eq_true, decide_eq_true_eq]
  exact ⟨fun ⟨_, hp, hmem⟩ => ⟨hmem, hp⟩, fun ⟨hmem, hp⟩ => ⟨hsub hmem, hp, hmem⟩⟩

theorem total_eq_zero {ts : List Token} : total ts = 0 ↔ ∀ t ∈ ts, t.balance = 0 := by
  induction ts with
  | nil => simp [total]
  | cons t ts ih => simp [total, ih, ← UInt64.toNat_inj]

end Token

theorem Function.issues_le_two (f : Function) : f.issues ≤ 2 := by
  cases f <;> decide

namespace Transaction

/-- The second copy of a record that is listed twice among the outputs. -/
def twins (tx : Transaction) : List Token :=
  match tx.outputs with
  | [t, u] => if t = u then [t] else []
  | _ => []

def firsts (tx : Transaction) : List Token :=
  match tx.outputs with
  | [t, u] => if t = u then [t] else [t, u]
  | ts => ts

variable {tx : Transaction}

theorem total_firsts (tx : Transaction) (p : Token → Bool) :
    Token.total (tx.outputs.filter p) =
      Token.total (tx.firsts.filter p) + Token.total (tx.twins.filter p) := by
  rw [← Token.total_append, ← List.filter_append]
  unfold firsts twins
  split
  · next t u h =>
    by_cases htu : t = u
    · simp [h, htu]
    · simp [h, htu]
  · next h => simp

theorem mem_firsts {t : Token} : t ∈ tx.firsts ↔ t ∈ tx.outputs := by
  unfold firsts
  split
  · next t u h =>
    by_cases htu : t = u
    · simp [h, htu]
    · simp [h, htu]
  · rfl

theorem Sound.nodup_firsts (hs : tx.Sound) : tx.firsts.Nodup := by
  have hle : tx.outputs.length ≤ 2 := hs.issues ▸ tx.function.issues_le_two
  unfold firsts
  split
  · next t u h =>
    by_cases htu : t = u
    · simp [htu]
    · simp [htu]
  · next h =>
    match hout : tx.outputs with
    | [] => exact List.nodup_nil
    | [t] => exact List.nodup_singleton t
    | [t, u] => exact absurd hout (h t u)
    | _ :: _ :: _ :: _ =>
      rw [hout] at hle
      simp at hle

end Transaction

namespace History

def twins (h : History) : List Token := h.flatMap Transaction.twins

def firsts (h : History) : List Token := h.flatMap Transaction.firsts

variable {h : History}

theorem total_firsts (h : History) (p : Token → Bool) :
    Token.total (h.issued.filter p) =
      Token.total (h.firsts.filter p) + Token.total (h.twins.filter p) := by
  induction h with
  | nil => rfl
  | cons tx h ih =>
    simp only [issued, firsts, twins, List.flatMap_cons, List.filter_append,
      Token.total_append] at ih ⊢
    rw [ih, tx.total_firsts p]
    omega

theorem mem_firsts {t : Token} : t ∈ h.firsts ↔ t ∈ h.issued := by
  simp only [firsts, issued, List.mem_flatMap, Transaction.mem_firsts]

end History

namespace Vault.Keeps

variable {v : Vault} {h : History}

theorem nodup_firsts (hk : v.Keeps h) : h.firsts.Nodup := by
  rw [History.firsts, List.nodup_flatMap]
  constructor
  · intro tx htx
    exact (hk.sound tx htx).nodup_firsts
  · apply hk.fresh.imp
    intro a b hab t ha hb
    exact hab t (Transaction.mem_firsts.1 ha) t (Transaction.mem_firsts.1 hb) rfl

/-- What is live, what was consumed and the twins of what was consumed make up
what was issued, for all tokens of a kind. -/
theorem total_live (hk : v.Keeps h) (hf : CollisionFree h.strings) (p : Token → Bool) :
    Token.total (h.live.filter p) + Token.total (h.consumed.filter p) +
      Token.total (h.twins.filter fun t => p t && decide (t ∈ h.consumed)) =
        Token.total (h.issued.filter p) := by
  have hconsumed := Token.total_filter_mem hk.nodup_firsts hk.once.of_map
    (fun t ht => History.mem_firsts.2 (hk.consumed_subset hf ht)) p
  have hcopies := h.total_firsts fun t => p t && decide (t ∈ h.consumed)
  have hsplit := Token.total_filter_not (fun t => decide (t ∈ h.consumed)) (h.issued.filter p)
  have hlive : (h.issued.filter p).filter (fun t => !decide (t ∈ h.consumed)) =
      h.live.filter p := by
    rw [History.live, List.filter_filter, List.filter_filter]
    simp only [decide_not, Bool.and_comm]
  have hgone : (h.issued.filter p).filter (fun t => decide (t ∈ h.consumed)) =
      h.issued.filter fun t => p t && decide (t ∈ h.consumed) := by
    rw [List.filter_filter]
    simp only [Bool.and_comm]
  -- what is gone counts each consumed record once, and once more if it has a twin
  rw [hlive, hgone] at hsplit
  omega

end Vault.Keeps

end TokenLedger
