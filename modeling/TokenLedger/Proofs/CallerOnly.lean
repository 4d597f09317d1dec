import TokenLedger.Proofs.LifeCycle

/-!
# Only the caller can lose value

Whatever a transaction claims, an account other than its caller keeps its
records and its public balance, and receives what the transaction issues to
it. The caller gives up the records that it consumes and at most the amount
named in the settlement.
-/

set_option autoImplicit false

namespace TokenLedger

def Settlement.taken : Settlement → UInt64
  | transferPublicToPrivate _ amount | transferPublic _ _ amount => amount
  | transferPrivateToPublic _ _ | mintPublic _ _ => 0

namespace Settlement

variable {s : Settlement} {a : Address}

theorem gain_nonneg (h : a ∉ s.debited) : 0 ≤ s.gain a := by
  cases s with
  | transferPrivateToPublic receiver amount | mintPublic receiver amount =>
    simp only [gain, moves, Move.gains, Move.gain]
    split <;> omega
  | transferPublicToPrivate caller amount =>
    have hne : a ≠ caller := fun heq => h (by rw [heq]; rfl)
    simp [gain, moves, Move.gains, Move.gain, hne]
  | transferPublic caller receiver amount =>
    have hne : a ≠ caller := fun heq => h (by rw [heq]; rfl)
    simp only [gain, moves, Move.gains, Move.gain, hne, if_false]
    split <;> omega

theorem neg_taken_le_gain (s : Settlement) (a : Address) : -(s.taken.toNat : Int) ≤ s.gain a := by
  cases s with
  | transferPrivateToPublic receiver amount | mintPublic receiver amount =>
    simp only [gain, moves, Move.gains, Move.gain, taken, UInt64.toNat_zero]
    split <;> omega
  | transferPublicToPrivate caller amount =>
    simp only [gain, moves, Move.gains, Move.gain, taken]
    split <;> omega
  | transferPublic caller receiver amount =>
    simp only [gain, moves, Move.gains, Move.gain, taken]
    by_cases hcaller : a = caller <;> by_cases hreceiver : a = receiver <;>
      simp only [hcaller, hreceiver, if_true, if_false] <;> omega

end Settlement

namespace Transaction

def taken (tx : Transaction) : UInt64 := (tx.settlement.map Settlement.taken).getD 0

variable {tx : Transaction} {a : Address}

theorem Sound.gains_nonneg (hs : tx.Sound) (h : a ≠ tx.caller) : 0 ≤ Move.gains a tx.moves := by
  have hdebit := hs.debit
  unfold moves
  cases hsome : tx.settlement with
  | none => exact Int.le_refl 0
  | some s =>
    rw [hsome, Option.bind_some] at hdebit
    exact Settlement.gain_nonneg fun hmem => h (hdebit a hmem)

theorem neg_taken_le_gains (tx : Transaction) (a : Address) :
    -(tx.taken.toNat : Int) ≤ Move.gains a tx.moves := by
  unfold moves taken
  cases tx.settlement with
  | none => exact Int.le_refl 0
  | some s => exact s.neg_taken_le_gain a

end Transaction

namespace Ledger

/-- What a transaction cannot do to others, and what it can do to its caller. -/
structure CallerOnly (l : Ledger) (tx : Transaction) : Prop where
  othersBalance : ∀ a, a ≠ tx.caller → ∃ b b', l.publicBalance a = .ok b ∧
    (l.apply tx).2.publicBalance a = .ok b' ∧ b ≤ b'
  othersRecords : ∀ a, a ≠ tx.caller → ∃ ts, l.recordsOf a = .ok ts ∧
    (l.apply tx).2.recordsOf a = .ok (ts ++
      match (l.apply tx).1 with
      | .ok _ => tx.outputs.filter fun t => t.owner = a
      | .error _ => [])
  callerRecords : ∀ r, (l.apply tx).1 = .ok r → (∀ t ∈ tx.consumed, t.owner = tx.caller) ∧
    ∀ c, (l.phase c = .live ∧ (l.apply tx).2.phase c ≠ .live) ↔
      ∃ t ∈ tx.consumed, t.commitment = c
  callerBalance : ∃ b b', l.publicBalance tx.caller = .ok b ∧
    (l.apply tx).2.publicBalance tx.caller = .ok b' ∧ b.toNat ≤ b'.toNat + tx.taken.toNat

variable {v v' : Vault} {h : History} {tx : Transaction} {a : Address}

theorem amount_accepts (hk : v.Keeps h) (ha : v.Accepts tx v') (a : Address) :
    (v'.balances.amount a : Int) = v.balances.amount a + Move.gains a tx.moves :=
  (Balances.settle_gain hk.ordered ha.settled).2.1 a

theorem live_owner_of_ne (hk : v.Keeps h) (ha : v.Accepts tx v') (hne : a ≠ tx.caller) :
    (History.live (h ++ [tx])).filter (fun t => t.owner = a) =
      (h.live.filter fun t => t.owner = a) ++ tx.outputs.filter fun t => t.owner = a := by
  rw [hk.live_append ha, List.filter_append, List.filter_filter]
  congr 1
  apply List.filter_congr
  intro t _
  by_cases howner : t.owner = a
  · have hkept : t ∉ tx.consumed := fun hmem => hne (howner ▸ ha.sound.owners t hmem)
    simp [howner, hkept]
  · simp [howner]

theorem callerOnly_of_rejected (hk : v.Keeps h) (hf : CollisionFree h.strings)
    {seeds : SeedSource} {e : LedgerError}
    (happly : (ofVault v seeds).apply tx = (.error e, ofVault v seeds)) :
    (ofVault v seeds).CallerOnly tx := by
  have hbalance := publicBalance_ofVault v seeds
  have hrecords := recordsOf_keeps hk hf seeds
  constructor
  · intro a _
    rw [happly]
    exact ⟨_, _, hbalance a, hbalance a, UInt64.le_refl _⟩
  · intro a _
    rw [happly]
    exact ⟨_, hrecords a, by rw [List.append_nil]; exact hrecords a⟩
  · intro r hr
    rw [happly] at hr
    cases hr
  · rw [happly]
    exact ⟨_, _, hbalance _, hbalance _, Nat.le_add_right ..⟩

theorem callerOnly_of_accepts (hk : v.Keeps h) (ha : v.Accepts tx v')
    (hf : CollisionFree (History.strings (h ++ [tx]))) {seeds : SeedSource} {r : Receipt}
    (happly : (ofVault v seeds).apply tx = (.ok r, ofVault v' seeds)) :
    (ofVault v seeds).CallerOnly tx := by
  have hf₀ := hf.mono (History.strings_subset_append h [tx])
  have hbalance := publicBalance_ofVault v seeds
  have hbalance' := publicBalance_ofVault v' seeds
  constructor
  · intro a hne
    rw [happly]
    refine ⟨_, _, hbalance a, hbalance' a, ?_⟩
    have hgain := amount_accepts hk ha a
    have hnonneg := ha.sound.gains_nonneg hne
    rw [UInt64.le_iff_toNat_le]
    simp only [Balances.amount] at hgain
    omega
  · intro a hne
    rw [happly]
    refine ⟨_, recordsOf_keeps hk hf₀ seeds a, ?_⟩
    rw [recordsOf_keeps (Vault.keeps_step hk ha) hf seeds a, live_owner_of_ne hk ha hne]
  · intro r _
    constructor
    · exact ha.sound.owners
    · intro c
      rw [happly, ← List.mem_map]
      exact Vault.phase_leave_iff hk ha hf
  · rw [happly]
    refine ⟨_, _, hbalance _, hbalance' _, ?_⟩
    have hgain := amount_accepts hk ha tx.caller
    have htaken := tx.neg_taken_le_gains tx.caller
    simp only [Balances.amount] at hgain
    omega

theorem callerOnly_keeps (hk : v.Keeps h) (seeds : SeedSource) (tx : Transaction)
    (hf : CollisionFree (History.strings (h ++ (ofVault v seeds).accepted [tx]))) :
    (ofVault v seeds).CallerOnly tx := by
  rcases apply_keeps hk seeds tx with ⟨e, happly⟩ | ⟨v', ha, -, happly⟩
  · exact callerOnly_of_rejected hk (hf.mono (History.strings_subset_append _ _)) happly
  · simp only [accepted, happly] at hf
    exact callerOnly_of_accepts hk ha hf happly

/-- In every state that a run reaches, only the caller of a transaction can lose by it. -/
theorem callerOnly_run (seeds : SeedSource) (txs : List Transaction) (tx : Transaction)
    (hf : CollisionFree ((ofVault Vault.empty seeds).accepted (txs ++ [tx])).strings) :
    ((ofVault Vault.empty seeds).run txs).CallerOnly tx := by
  obtain ⟨v, hrun, hk⟩ := run_empty_keeps seeds txs
  rw [accepted_append, hrun] at hf
  rw [hrun]
  exact callerOnly_keeps hk seeds tx hf

def paying : List Transaction :=
  [Sample.transaction .mint [] [Sample.record 100 1],
   Sample.transaction .transferPrivate [Sample.record 100 1]
    [Sample.record 60 2, ⟨⟨Bytes32.replicate 2⟩, 40, Bytes32.replicate 3⟩]]

theorem callerOnly_paying :
    (ofVault Vault.empty Sample.seeds).accepted (paying.take 1 ++ [paying[1]]) = paying ∧
    CollisionFree ((ofVault Vault.empty Sample.seeds).accepted
      (paying.take 1 ++ [paying[1]])).strings ∧
      ((ofVault Vault.empty Sample.seeds).run (paying.take 1)).CallerOnly paying[1] := by
  have haccepted : (ofVault Vault.empty Sample.seeds).accepted (paying.take 1 ++ [paying[1]]) =
      paying := by decide +kernel
  have hf : CollisionFree ((ofVault Vault.empty Sample.seeds).accepted
      (paying.take 1 ++ [paying[1]])).strings := by
    rw [haccepted]
    apply History.collisionFree_strings (paying.flatMap Transaction.outputs)
    · decide +kernel
    · decide +kernel
  exact ⟨haccepted, hf, callerOnly_run Sample.seeds (paying.take 1) paying[1] hf⟩

end Ledger

end TokenLedger
