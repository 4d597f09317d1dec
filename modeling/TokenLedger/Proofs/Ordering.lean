import Mathlib.Data.List.Perm.Basic
import TokenLedger.Store.Vault
import TokenLedger.Proofs.Answers
import TokenLedger.Proofs.Balances

/-!
# Vaults in order

A vault lists its balances in the order of the accounts and its published
serial numbers in the order of their bytes, each entry once. The empty vault
is in order and all that is written to a vault keeps it so; two vaults in
order agree as soon as they answer the same.
-/

set_option autoImplicit false

namespace TokenLedger

namespace Bytes

theorem le_iff {a b : Bytes} : le a b = true ↔ a ≤ b := by
  induction a generalizing b with
  | nil => simp [le]
  | cons x a ih =>
    cases b with
    | nil => simp [le]
    | cons y b => simp [le, List.cons_le_cons_iff, ih]

end Bytes

namespace SerialNumber

def Before (s t : SerialNumber) : Prop := s.digest.le t.digest = true ∧ s ≠ t

variable {s t u : SerialNumber}

theorem eq_of_le (h : s.digest.le t.digest = true) (h' : t.digest.le s.digest = true) : s = t := by
  obtain ⟨s⟩ := s
  obtain ⟨t⟩ := t
  exact congrArg SerialNumber.mk
    (Bytes32.ext (List.le_antisymm (Bytes.le_iff.1 h) (Bytes.le_iff.1 h')))

theorem Before.trans (h : s.Before t) (h' : t.Before u) : s.Before u := by
  have hle := List.le_trans (Bytes.le_iff.1 h.1) (Bytes.le_iff.1 h'.1)
  refine ⟨Bytes.le_iff.2 hle, ?_⟩
  rintro rfl
  exact h.2 (eq_of_le h.1 h'.1)

theorem before_of_not_le (hne : t ≠ s) (h : ¬s.digest.le t.digest = true) : t.Before s := by
  refine ⟨Bytes.le_iff.2 ?_, hne⟩
  exact (List.le_total _ _).resolve_left fun hle => h (Bytes.le_iff.2 hle)

end SerialNumber

namespace Vault

/-! ## Published serial numbers -/

theorem mem_insertSerial {n s : SerialNumber} {ss : List SerialNumber} :
    n ∈ insertSerial s ss ↔ n = s ∨ n ∈ ss := by
  induction ss with
  | nil => simp [insertSerial]
  | cons t ss ih =>
    rw [insertSerial]
    split
    · next h => simp [h]
    · split
      · exact List.mem_cons
      · simp only [List.mem_cons, ih]
        exact or_left_comm

theorem mem_foldl_insertSerial {n : SerialNumber} {new ss : List SerialNumber} :
    n ∈ new.foldl (fun ss s => insertSerial s ss) ss ↔ n ∈ new ∨ n ∈ ss := by
  induction new generalizing ss with
  | nil => simp
  | cons s new ih =>
    rw [List.foldl_cons, ih, mem_insertSerial, List.mem_cons, or_assoc]
    exact or_left_comm

theorem pairwise_insertSerial {ss : List SerialNumber} (h : ss.Pairwise SerialNumber.Before)
    (s : SerialNumber) : (insertSerial s ss).Pairwise SerialNumber.Before := by
  induction ss with
  | nil => exact List.pairwise_singleton ..
  | cons t ss ih =>
    obtain ⟨ht, hss⟩ := List.pairwise_cons.1 h
    rw [insertSerial]
    split
    · exact h
    · next hne =>
      split
      · next hle =>
        have hst : s.Before t := ⟨hle, Ne.symm hne⟩
        refine List.pairwise_cons.2 ⟨fun u hu => ?_, h⟩
        rcases List.mem_cons.1 hu with rfl | hu
        · exact hst
        · exact hst.trans (ht u hu)
      · next hle =>
        refine List.pairwise_cons.2 ⟨fun u hu => ?_, ih hss⟩
        rcases mem_insertSerial.1 hu with rfl | hu
        · exact SerialNumber.before_of_not_le hne hle
        · exact ht u hu

theorem pairwise_foldl_insertSerial {ss : List SerialNumber}
    (h : ss.Pairwise SerialNumber.Before) (new : List SerialNumber) :
    (new.foldl (fun ss s => insertSerial s ss) ss).Pairwise SerialNumber.Before := by
  induction new generalizing ss with
  | nil => exact h
  | cons s new ih => exact ih (pairwise_insertSerial h s)

theorem serials_ext {ss ts : List SerialNumber} (hs : ss.Pairwise SerialNumber.Before)
    (ht : ts.Pairwise SerialNumber.Before) (h : ∀ n, n ∈ ss ↔ n ∈ ts) : ss = ts := by
  have hperm : ss.Perm ts :=
    (List.perm_ext_iff_of_nodup (hs.imp And.right) (ht.imp And.right)).2 h
  exact hperm.eq_of_pairwise (fun _ _ _ _ hab hba => SerialNumber.eq_of_le hab.1 hba.1) hs ht

/-! ## Vaults -/

structure Ordered (v : Vault) : Prop where
  balances : v.balances.Ordered
  spent : v.spent.Pairwise SerialNumber.Before

/-- The vaults that the operations of a store lead to from an empty one:
changes are committed, an empty vault is restored, and serial numbers may be
published past all checks. -/
inductive Attained : Vault → Prop where
  | empty : Attained empty
  | commit {v v' : Vault} {c : Changes} (h : Attained v) (hc : v.commit c = .ok v') : Attained v'
  | restore {v v' : Vault} {c : Changes} {height : UInt64} (h : Attained v)
      (hc : v.restore c height = .ok v') : Attained v'
  | publish {v : Vault} (s : SerialNumber) (h : Attained v) : Attained (v.publish s)

variable {v v' : Vault} {c : Changes}

theorem Ordered.write (h : v.Ordered) (c : Changes) : (v.write c).Ordered where
  balances := Balances.ordered_written h.balances c.writes
  spent := pairwise_foldl_insertSerial h.spent c.spent

theorem commit_eq_ok : v.commit c = .ok v' ↔
    v.admits c = .ok () ∧ v' = { v.write c with height := v.height + 1 } := by
  rw [commit, Answers.bind_eq_ok]
  constructor
  · rintro ⟨⟨⟩, hadmits, hv'⟩
    exact ⟨hadmits, (Except.ok.inj hv').symm⟩
  · rintro ⟨hadmits, rfl⟩
    exact ⟨(), hadmits, rfl⟩

theorem Ordered.commit (h : v.Ordered) (hc : v.commit c = .ok v') : v'.Ordered := by
  rw [(commit_eq_ok.1 hc).2]
  exact ⟨(h.write c).balances, (h.write c).spent⟩

theorem eq_of_restore {height : UInt64} (hc : v.restore c height = .ok v') :
    v' = { v.write c with height := height } := by
  rw [Vault.restore] at hc
  split at hc
  · cases hc
  · obtain ⟨_, -, hv'⟩ := Answers.bind_eq_ok.1 hc
    exact (Except.ok.inj hv').symm

theorem Ordered.restore (h : v.Ordered) {height : UInt64} (hc : v.restore c height = .ok v') :
    v'.Ordered := by
  rw [eq_of_restore hc]
  exact ⟨(h.write c).balances, (h.write c).spent⟩

theorem Attained.ordered (h : v.Attained) : v.Ordered := by
  induction h with
  | empty => exact ⟨List.Pairwise.nil, List.Pairwise.nil⟩
  | commit _ hc ih => exact ih.commit hc
  | restore _ hc ih => exact ih.restore hc
  | publish s _ ih => exact ⟨ih.balances, pairwise_insertSerial ih.spent s⟩

/-- Vaults in order are determined by what they answer. -/
theorem ext_of_ordered (h : v.Ordered) (h' : v'.Ordered)
    (hbalance : ∀ key, v.balance? key = v'.balance? key)
    (hspent : ∀ n, v.isSpent n = true ↔ v'.isSpent n = true)
    (hrecords : v.records = v'.records) (hheight : v.height = v'.height) : v = v' := by
  have hbalances : v.balances = v'.balances :=
    Balances.ext_of_ordered h.balances h'.balances hbalance
  have hserials : v.spent = v'.spent := by
    apply serials_ext h.spent h'.spent
    simpa only [mem_spent_iff] using hspent
  cases v
  cases v'
  simp_all

end Vault

namespace Sample

def deposited : Vault :=
  Vault.empty.write ⟨[(⟨Bytes32.replicate 1⟩, 5), (⟨Bytes32.replicate 2⟩, 7)], [], []⟩

theorem ordered_deposited : deposited.Ordered := Vault.Attained.empty.ordered.write _

end Sample

end TokenLedger
