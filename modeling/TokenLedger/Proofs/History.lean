import TokenLedger.Proofs.Applying
import TokenLedger.Proofs.Collisions
import TokenLedger.Proofs.Ordering

/-!
# The history behind a vault

The transactions that a run has accepted, in order. `Vault.Keeps` ties a
vault to its history: which records it lists, which serial numbers it holds,
that every record was issued before it was consumed, and that none was
consumed twice or issued again by a later transaction. One accepted
transaction keeps the tie, so every run does.
-/

set_option autoImplicit false

namespace TokenLedger

abbrev History := List Transaction

namespace History

def issued (h : History) : List Token := h.flatMap Transaction.outputs

def consumed (h : History) : List Token := h.flatMap Transaction.consumed

def live (h : History) : List Token := h.issued.filter fun t => t ∉ h.consumed

def moves (h : History) : List Move := h.flatMap Transaction.moves

theorem issued_append (h : History) (tx : Transaction) :
    issued (h ++ [tx]) = h.issued ++ tx.outputs := by
  simp [issued]

theorem consumed_append (h : History) (tx : Transaction) :
    consumed (h ++ [tx]) = h.consumed ++ tx.consumed := by
  simp [consumed]

theorem moves_append (h : History) (tx : Transaction) :
    moves (h ++ [tx]) = h.moves ++ tx.moves := by
  simp [moves]

end History

namespace Ledger

def run (l : Ledger) : List Transaction → Ledger
  | [] => l
  | tx :: txs => (l.apply tx).2.run txs

def accepted (l : Ledger) : List Transaction → History
  | [] => []
  | tx :: txs =>
    match l.apply tx with
    | (.ok _, l) => tx :: l.accepted txs
    | (.error _, l) => l.accepted txs

theorem run_append (l : Ledger) (txs rest : List Transaction) :
    l.run (txs ++ rest) = (l.run txs).run rest := by
  induction txs generalizing l with
  | nil => rfl
  | cons tx txs ih => exact ih _

theorem accepted_append (l : Ledger) (txs rest : List Transaction) :
    l.accepted (txs ++ rest) = l.accepted txs ++ (l.run txs).accepted rest := by
  induction txs generalizing l with
  | nil => rfl
  | cons tx txs ih =>
    simp only [List.cons_append, accepted, run]
    split
    · next happly => rw [ih, happly, List.cons_append]
    · next happly => rw [ih, happly]

end Ledger

namespace Vault

/-- A vault is what its history made of an empty one. -/
structure Keeps (v : Vault) (h : History) : Prop where
  ordered : v.balances.Ordered
  amounts : ∀ a, (v.balances.amount a : Int) = Move.gains a h.moves
  total : (v.balances.total : Int) = Move.deltas h.moves
  records : v.records = h.issued.map Token.stored
  spent : ∀ n, n ∈ v.spent ↔ n ∈ h.consumed.map Token.serial
  known : ∀ t ∈ h.consumed, t.commitment ∈ h.issued.map Token.commitment
  once : (h.consumed.map Token.commitment).Nodup
  fresh : h.Pairwise fun a b => ∀ t ∈ a.outputs, ∀ u ∈ b.outputs, t.commitment ≠ u.commitment
  sound : ∀ tx ∈ h, tx.Sound

theorem keeps_empty : Keeps empty [] where
  ordered := List.Pairwise.nil
  amounts _ := rfl
  total := rfl
  records := rfl
  spent _ := Iff.rfl
  known _ ht := nomatch ht
  once := List.nodup_nil
  fresh := List.Pairwise.nil
  sound _ htx := nomatch htx

variable {v v' : Vault} {h : History} {tx : Transaction}

theorem Keeps.hasRecord (hk : v.Keeps h) {c : Commitment} :
    v.hasRecord c = true ↔ c ∈ h.issued.map Token.commitment := by
  rw [hasRecord_iff, hk.records, List.map_map]
  rfl

theorem Keeps.isSpent (hk : v.Keeps h) {n : SerialNumber} :
    v.isSpent n = true ↔ n ∈ h.consumed.map Token.serial := by
  rw [← mem_spent_iff, hk.spent]

theorem Keeps.known_of_accepts (hk : v.Keeps h) (ha : v.Accepts tx v') :
    ∀ t ∈ tx.consumed, t.commitment ∈ h.issued.map Token.commitment :=
  fun t ht => hk.hasRecord.1 (ha.known t ht)

theorem Keeps.unspent_of_accepts (hk : v.Keeps h) (ha : v.Accepts tx v') :
    ∀ t ∈ tx.consumed, t.commitment ∉ h.consumed.map Token.commitment := by
  intro t ht hmem
  obtain ⟨u, hu, heq⟩ := List.mem_map.1 hmem
  have hserial : t.serial ∈ h.consumed.map Token.serial :=
    List.mem_map.2 ⟨u, hu, congrArg Commitment.serial heq⟩
  rw [← hk.isSpent, ha.unspent t ht] at hserial
  cases hserial

theorem Keeps.fresh_of_accepts (hk : v.Keeps h) (ha : v.Accepts tx v') :
    ∀ t ∈ tx.outputs, t.commitment ∉ h.issued.map Token.commitment := by
  intro t ht hmem
  rw [← hk.hasRecord, ha.fresh t ht] at hmem
  cases hmem

theorem keeps_step (hk : v.Keeps h) (ha : v.Accepts tx v') : v'.Keeps (h ++ [tx]) where
  ordered := (Balances.settle_gain hk.ordered ha.settled).1
  amounts a := by
    rw [(Balances.settle_gain hk.ordered ha.settled).2.1, hk.amounts, History.moves_append,
      Move.gains_append]
  total := by
    rw [(Balances.settle_gain hk.ordered ha.settled).2.2, hk.total, History.moves_append,
      Move.deltas_append]
  records := by
    rw [ha.records, hk.records, History.issued_append, List.map_append]
  spent n := by
    rw [ha.spent, mem_foldl_insertSerial, hk.spent, History.consumed_append, List.map_append,
      List.mem_append]
    exact or_comm
  known t ht := by
    rw [History.consumed_append] at ht
    rw [History.issued_append, List.map_append]
    apply List.mem_append_left
    rcases List.mem_append.1 ht with ht | ht
    · exact hk.known t ht
    · exact hk.known_of_accepts ha t ht
  -- the transaction's own inputs differ from each other, and from all earlier ones by their serials
  once := by
    rw [History.consumed_append, List.map_append, List.nodup_append]
    refine ⟨hk.once, ha.distinct, ?_⟩
    rintro c hc d hd rfl
    obtain ⟨t, ht, rfl⟩ := List.mem_map.1 hd
    exact hk.unspent_of_accepts ha t ht hc
  fresh := by
    refine List.pairwise_append.2 ⟨hk.fresh, List.pairwise_singleton .., ?_⟩
    intro a hmem b hb t ht u hu heq
    cases List.mem_singleton.1 hb
    exact hk.fresh_of_accepts ha u hu (heq ▸ List.mem_map_of_mem (List.mem_flatMap.2 ⟨a, hmem, ht⟩))
  sound a hmem := by
    rcases List.mem_append.1 hmem with hmem | hmem
    · exact hk.sound a hmem
    · cases List.mem_singleton.1 hmem
      exact ha.sound

end Vault

namespace Ledger

open Vault

variable {v : Vault} {h : History}

theorem apply_keeps (hk : v.Keeps h) (seeds : SeedSource) (tx : Transaction) :
    (∃ e, (ofVault v seeds).apply tx = (.error e, ofVault v seeds)) ∨
      ∃ v', v.Accepts tx v' ∧ v'.Keeps (h ++ [tx]) ∧ (ofVault v seeds).apply tx =
        (.ok ⟨tx.id, tx.function, tx.outputs, tx.value, v'.height⟩, ofVault v' seeds) := by
  rcases apply_cases hk.ordered seeds tx with hrej | ⟨v', ha, happly⟩
  · exact .inl hrej
  · exact .inr ⟨v', ha, keeps_step hk ha, happly⟩

/-- A run goes on along its history and keeps what every accepted transaction keeps. -/
theorem run_preserves {P : Vault → Prop} (hk : v.Keeps h) (hp : P v)
    (hstep : ∀ {v v' : Vault} {tx : Transaction}, P v → v.Accepts tx v' → P v')
    (seeds : SeedSource) (txs : List Transaction) :
    ∃ v', (ofVault v seeds).run txs = ofVault v' seeds ∧
      v'.Keeps (h ++ (ofVault v seeds).accepted txs) ∧ P v' := by
  induction txs generalizing v h with
  | nil => exact ⟨v, rfl, by simpa [accepted] using hk, hp⟩
  | cons tx txs ih =>
    rcases apply_keeps hk seeds tx with ⟨e, happly⟩ | ⟨v', ha, hk', happly⟩
    · simpa only [run, accepted, happly] using ih hk hp
    · obtain ⟨v'', hrun, hk'', hp''⟩ := ih hk' (hstep hp ha)
      refine ⟨v'', ?_, ?_, hp''⟩
      · simpa only [run, happly] using hrun
      · simpa only [accepted, happly, List.append_assoc, List.singleton_append] using hk''

theorem run_keeps (hk : v.Keeps h) (seeds : SeedSource) (txs : List Transaction) :
    ∃ v', (ofVault v seeds).run txs = ofVault v' seeds ∧
      v'.Keeps (h ++ (ofVault v seeds).accepted txs) := by
  obtain ⟨v', hrun, hk', -⟩ := run_preserves (P := fun _ => True) hk trivial
    (fun _ _ => trivial) seeds txs
  exact ⟨v', hrun, hk'⟩

theorem run_empty_keeps (seeds : SeedSource) (txs : List Transaction) :
    ∃ v, (ofVault Vault.empty seeds).run txs = ofVault v seeds ∧
      v.Keeps ((ofVault Vault.empty seeds).accepted txs) :=
  run_keeps keeps_empty seeds txs

end Ledger

end TokenLedger
