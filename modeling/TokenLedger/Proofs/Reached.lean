import TokenLedger.Proofs.Admission
import TokenLedger.Proofs.Operations
import TokenLedger.Proofs.Reordering
import TokenLedger.Proofs.Restoring

/-!
# Every ledger that can be reached

A ledger starts with an empty vault. From there on transactions are applied,
evaluated or not, the seeds may come from anywhere, and a vault that holds
nothing may take over any snapshot whose hash fits. All that is needed of a
ledger reached in this way is what its vault keeps: it is in order, and
every record in it is the body of some token under its name. A snapshot may
list one record twice, so nothing is said about the names.
-/

set_option autoImplicit false

namespace TokenLedger

namespace Vault

variable {v v' : Vault} {tx : Transaction}

theorem Genuine.append (hv : v.Genuine) {ts : List Token}
    (h : v'.records = v.records ++ ts.map Token.stored) : v'.Genuine := by
  intro r hr
  rw [h] at hr
  rcases List.mem_append.1 hr with hr | hr
  · exact hv r hr
  · obtain ⟨t, -, rfl⟩ := List.mem_map.1 hr
    exact ⟨t, rfl⟩

theorem Outcome.genuine (h : v.Outcome tx v') (hv : v.Genuine) : v'.Genuine := hv.append h.records

theorem Genuine.restore (hv : v.Genuine) {s : Snapshot} {height : UInt64}
    (h : v.restore (Ledger.snapshotChanges s) height = .ok v') : v'.Genuine := by
  have hrecords : v'.records = v.records ++ s.records.map Token.stored := by
    rw [eq_of_restore h, write, Ledger.snapshotChanges_eq]
  exact hv.append hrecords

end Vault

namespace Ledger

/-- The ledgers that are reached over one vault, from the empty one on. -/
inductive Reached : Ledger → Prop where
  | empty (seeds : SeedSource) : Reached (ofVault Vault.empty seeds)
  | apply {l : Ledger} (h : Reached l) (tx : Transaction) : Reached (l.apply tx).2
  | reseed {l : Ledger} (h : Reached l) (seeds : SeedSource) : Reached { l with seeds := seeds }
  | restore {l l' : Ledger} {s : Snapshot} (h : Reached l)
      (hs : ofSnapshot s l.store l.seeds = .ok l') : Reached l'

theorem Reached.run {l : Ledger} (h : l.Reached) (txs : List Transaction) :
    (l.run txs).Reached := by
  induction txs generalizing l with
  | nil => exact h
  | cons tx txs ih => exact ih (h.apply tx)

theorem Reached.perform {l : Ledger} (h : l.Reached) (op : Operation) :
    (l.perform op).2.Reached := by
  rw [perform_run]
  exact (h.reseed (l.attempts op).2).run _

theorem apply_preserves {v : Vault} (hv : v.Ordered) (hg : v.Genuine) (seeds : SeedSource)
    (tx : Transaction) : ∃ v' : Vault, ((ofVault v seeds).apply tx).2 = ofVault v' seeds ∧
      v'.Ordered ∧ v'.Genuine := by
  rcases v.admissible_or_violates tx with h | ⟨e, h⟩
  · obtain ⟨v', hout, happly⟩ := apply_of_admissible hv h seeds
    exact ⟨v', by rw [happly], hout.ordered, hout.genuine hg⟩
  · exact ⟨v, by rw [apply_of_violates hv h], hv, hg⟩

theorem restore_preserves {v : Vault} (hv : v.Ordered) (hg : v.Genuine) {seeds : SeedSource}
    {s : Snapshot} {l : Ledger} (h : ofSnapshot s (Store.ofVault v) seeds = .ok l) :
    ∃ v' : Vault, l = ofVault v' seeds ∧ v'.Ordered ∧ v'.Genuine := by
  obtain ⟨-, v', hv', rfl⟩ := ofSnapshot_eq_ok.1 h
  exact ⟨v', rfl, hv.restore hv', hg.restore hv'⟩

theorem Reached.vault {l : Ledger} (h : l.Reached) :
    ∃ (v : Vault) (seeds : SeedSource), l = ofVault v seeds ∧ v.Ordered ∧ v.Genuine := by
  induction h with
  | empty seeds => exact ⟨_, seeds, rfl, Vault.Attained.empty.ordered, nofun⟩
  | apply _ tx ih =>
    obtain ⟨v, seeds, rfl, hv, hg⟩ := ih
    obtain ⟨v', happly, hv', hg'⟩ := apply_preserves hv hg seeds tx
    exact ⟨v', seeds, happly, hv', hg'⟩
  | reseed _ seeds ih =>
    obtain ⟨v, _, rfl, hv, hg⟩ := ih
    exact ⟨v, seeds, rfl, hv, hg⟩
  | restore _ hs ih =>
    obtain ⟨v, seeds, rfl, hv, hg⟩ := ih
    obtain ⟨v', hl, hv', hg'⟩ := restore_preserves hv hg hs
    exact ⟨v', seeds, hl, hv', hg'⟩

end Ledger

end TokenLedger
